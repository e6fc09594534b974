import Lisplet.Machine.Basic

/-!
# Assembly

A program is a list in which every symbol is a label for the instruction after
it. First the list is taken apart, then the registers that it writes come into
being, and only then are the names in it settled, so that a label or a register
may be used before it is introduced.
-/

namespace Lisplet

/-- A program taken apart. -/
structure Listing where
  /-- The labels with the number of instructions in front of each. -/
  labels : List (String × Nat)
  /-- The instructions with their texts. -/
  lines : Array (String × Instruction)

namespace Listing

/-- Takes the elements of a program apart, after those that are in the listing. -/
def scanOnto (h : Heap) (listing : Listing) : List Value → Except AssemblyError Listing
  | [] => .ok listing
  | element :: elements =>
    match h.symbolName? element with
    | some name =>
      if (listing.labels.lookup name).isSome then .error (.duplicateLabel name)
      else
        scanOnto h { listing with labels := (name, listing.lines.size) :: listing.labels } elements
    | none =>
      match Instruction.parse h element with
      | .error e => .error e
      | .ok instruction =>
        scanOnto h { listing with lines := listing.lines.push (h.write element, instruction) }
          elements

/-- Takes a program apart. -/
def scan (h : Heap) (source : Value) : Except AssemblyError Listing :=
  match h.items? source with
  | some elements => scanOnto h { labels := [], lines := #[] } elements
  | none => .error (.malformed (h.write source) .notAProgram)

/-- The registers that the instructions bring into being, in order, with repetitions. -/
def registers (listing : Listing) : List String :=
  listing.lines.toList.filterMap fun line => line.2.register?

/-- Settles the names in all instructions. -/
def resolve {ω : Type} (listing : Listing) (names : Naming ω) :
    Except AssemblyError (Array (Line ω)) :=
  listing.lines.mapM fun (text, instruction) => do
    pure { text, code := ← names.resolve instruction }

end Listing

namespace Bench

variable {ω : Type}

/-- What names in a program with these labels refer to on the machine. -/
def naming (b : Bench ω) (labels : List (String × Nat)) : Naming ω where
  register? := b.machine.index?
  label? := fun name => labels.lookup name
  operation? := b.machine.operations.get?

/--
Assembles a program whose list is kept by the pin `source`. Registers it brings
into being stay, also if it fails later.
-/
def assembleLines (program : Value) (source : Pin) : MachineM ω AssemblyError (Program ω) := do
  match Listing.scan (← get).heap program with
  | .error e => throw e
  | .ok listing =>
    modify fun b => listing.registers.foldl declare b
    match listing.resolve ((← get).naming listing.labels) with
    | .error e => throw e
    | .ok lines => pure { source, lines, labels := listing.labels }

/-- Gives back the pin of the program that the machine has. -/
def dropProgram (b : Bench ω) : Bench ω :=
  let ⟨machine, heap⟩ := b
  match machine.program with
  | some program => ⟨machine, heap.unpin program.source⟩
  | none => ⟨machine, heap⟩

/-- Assembles a program and puts it in the place of the one the machine has. -/
def install (program : Value) : MachineM ω AssemblyError Unit := fun b =>
  let ⟨machine, heap⟩ := b
  let (source, heap) := heap.pin program
  match assembleLines program source ⟨machine, heap⟩ with
  | .ok assembled b =>
    let ⟨machine, heap⟩ := b.dropProgram
    .ok () ⟨{ machine with program := some assembled, state := .installed }, heap⟩
  | .error e ⟨machine, heap⟩ => .error e ⟨machine, heap.unpin source⟩

end Bench

/-! ## Setting up a machine -/

/-- What a machine is to be like before it has a program. -/
structure Setup (ω : Type := Primitive) where
  stackLimit : Nat
  operations : Operations ω
  /-- Registers to be declared, in order. -/
  registers : List String
  /-- Registers to be monitored; those not declared yet are declared after the others. -/
  monitored : List String
  trace : Bool

namespace Setup

/-- How many entries a stack has where nothing else is asked for. -/
def defaultStackLimit : Nat := 256

def standard : Setup where
  stackLimit := defaultStackLimit
  operations := .standard
  registers := []
  monitored := []
  trace := false

end Setup

namespace Bench

variable {ω : Type}

/-- Has every write to a register noted from now on. -/
def monitor (b : Bench ω) (index : Nat) : Bench ω :=
  let ⟨machine, heap⟩ := b
  match machine.registers[index]? with
  | some register =>
    let registers := machine.registers.setIfInBounds index { register with monitored := true }
    ⟨{ machine with registers }, heap⟩
  | none => ⟨machine, heap⟩

/-- Makes sure that there is a register of this name, and has every write to it noted. -/
def declareMonitored (b : Bench ω) (name : String) : Bench ω :=
  let b := b.declare name
  match b.machine.index? name with
  | some index => b.monitor index
  | none => b

/-- An idle machine. -/
def build (setup : Setup ω) (h : Heap) : Bench ω :=
  let b := empty setup.stackLimit setup.operations h
  let b := (setup.registers ++ setup.monitored).foldl declare b
  let ⟨machine, heap⟩ := setup.monitored.foldl declareMonitored b
  ⟨{ machine with trace := setup.trace }, heap⟩

/-- A machine with a program. If the program cannot be assembled, the machine is given up again. -/
def assemble (setup : Setup ω) (program : Value) : HeapM AssemblyError (Machine ω) := fun h =>
  match install program (build setup h) with
  | .ok () ⟨machine, heap⟩ => .ok machine heap
  | .error e b => .error e b.release

end Bench

end Lisplet
