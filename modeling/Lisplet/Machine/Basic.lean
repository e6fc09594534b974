import Lisplet.Heap.Allocate
import Lisplet.Machine.Code

/-!
# The Register Machine

A machine has named registers, a flag, a stack of bounded depth and a program.
It works on a heap that it may share with others, so everything it holds is
pinned there for as long as it holds it.
-/

namespace Lisplet

/-- What a register or a stack entry holds. -/
inductive Payload where
  | value (v : Value)
  /-- A place in the program, as the index of an instruction. -/
  | label (index : Nat)
  deriving DecidableEq, Repr, Inhabited

namespace Payload

def value? : Payload → Option Value
  | .value v => some v
  | .label _ => none

def label? : Payload → Option Nat
  | .value _ => none
  | .label index => some index

/-- What a pin for this payload holds. -/
def held (p : Payload) : Value := p.value?.getD .nil

def text (p : Payload) (h : Heap) : String :=
  match p with
  | .value v => h.write v
  | .label index => s!"#<label {index}>"

end Payload

structure Register where
  name : String
  payload : Payload
  pin : Pin
  /-- Whether every write to it is noted in the journal. -/
  monitored : Bool
  deriving Repr

/-- An entry of the stack. -/
structure Saved where
  payload : Payload
  pin : Pin
  deriving Repr

structure StackStats where
  totalPushes : Nat
  maxDepth : Nat
  currentDepth : Nat
  deriving DecidableEq, Repr

/-- A line of an assembled program: the instruction as it is written, and its code. -/
structure Line (ω : Type := Primitive) where
  text : String
  code : Code ω

structure Program (ω : Type := Primitive) where
  /-- Keeps the list the program was assembled from, and so all its constants. -/
  source : Pin
  lines : Array (Line ω)
  /-- The labels with the index of the instruction after each. -/
  labels : List (String × Nat)

inductive MachineState where
  /-- There is no program. -/
  | idle
  | installed
  | running
  /-- The program has been left behind its end. -/
  | halted
  deriving DecidableEq, Repr

/-- Why a machine stopped. -/
inductive MachineError where
  | stackOverflow (limit : Nat)
  | emptyStack (register : String)
  | notAnInstructionPointer (register : String)
  | labelOperand (operation : String)
  | unknownRegister (name : String)
  | notInstalled
  | fatal (cause : Fatal)
  deriving DecidableEq, Repr

def MachineError.message : MachineError → String
  | .stackOverflow limit => s!"stack overflow: limit of {limit} entries reached"
  | .emptyStack register => s!"restore of `{register}` from an empty stack"
  | .notAnInstructionPointer register =>
    s!"goto through `{register}`, which does not hold a label"
  | .labelOperand operation => s!"label passed as an operand to `{operation}`"
  | .unknownRegister name => s!"no register named `{name}`"
  | .notInstalled => "no program installed"
  | .fatal cause => cause.message

structure Machine (ω : Type := Primitive) where
  state : MachineState
  operations : Operations ω
  /-- The registers in the order in which they were declared. -/
  registers : Array Register
  flag : Value
  flagPin : Pin
  /-- The stack, its top last. -/
  stack : Array Saved
  stackLimit : Nat
  stats : StackStats
  /-- The index of the instruction to be executed next. -/
  pc : Nat
  program : Option (Program ω)
  trace : Bool
  /-- How many instructions have been executed since the last start. -/
  executed : Nat

namespace Machine

variable {ω : Type}

def index? (m : Machine ω) (name : String) : Option Nat :=
  m.registers.findIdx? fun register => register.name == name

/-- What a register holds. -/
def read (m : Machine ω) (index : Nat) : Payload :=
  match m.registers[index]? with
  | some register => register.payload
  | none => .value .nil

def registerName (m : Machine ω) (index : Nat) : String :=
  match m.registers[index]? with
  | some register => register.name
  | none => ""

/-- What the register of a name holds. -/
def get? (m : Machine ω) (name : String) : Option Payload := (m.index? name).map m.read

def lineCount (m : Machine ω) : Nat :=
  match m.program with
  | some program => program.lines.size
  | none => 0

/-- The index of the instruction after a label. -/
def label? (m : Machine ω) (name : String) : Option Nat :=
  m.program.bind fun program => program.labels.lookup name

/-- What an operand stands for. -/
def fetch (m : Machine ω) : Fetch → Payload
  | .const datum => .value datum
  | .label target => .label target
  | .register index => m.read index

end Machine

/-! ## A machine at its heap -/

/-- A machine together with the heap it works on. -/
structure Bench (ω : Type := Primitive) where
  machine : Machine ω
  heap : Heap

/-- What is done with a machine, and may fail with `ε`. What was done before failing stays done. -/
abbrev MachineM (ω ε : Type) := EStateM ε (Bench ω)

abbrev BenchM (ε : Type) := MachineM Primitive ε

namespace Bench

variable {ω : Type}

/-- A machine without registers and program, which holds one pin, for its flag. -/
def empty (stackLimit : Nat) (operations : Operations ω) (h : Heap) : Bench ω :=
  let (flagPin, heap) := h.pin .nil
  { machine :=
      { state := .idle
        operations
        registers := #[]
        flag := .nil
        flagPin
        stack := #[]
        stackLimit
        stats := ⟨0, 0, 0⟩
        pc := 0
        program := none
        trace := false
        executed := 0 }
    heap }

/-- Makes sure that there is a register of this name; a new one holds nil. -/
def declare (b : Bench ω) (name : String) : Bench ω :=
  match b.machine.index? name with
  | some _ => b
  | none =>
    let ⟨machine, heap⟩ := b
    let (pin, heap) := heap.pin .nil
    let register : Register := { name, payload := .value .nil, pin, monitored := false }
    ⟨{ machine with registers := machine.registers.push register }, heap⟩

/-- Stores a payload in a register. -/
def write (b : Bench ω) (index : Nat) (payload : Payload) : Bench ω :=
  let ⟨machine, heap⟩ := b
  match machine.registers[index]? with
  | none => ⟨machine, heap⟩
  | some register =>
    let heap := heap.repin register.pin payload.held
    let heap :=
      if register.monitored then heap.note (.assigned register.name (payload.text heap)) else heap
    let registers := machine.registers.setIfInBounds index { register with payload }
    ⟨{ machine with registers }, heap⟩

def setFlag (b : Bench ω) (value : Value) : Bench ω :=
  let ⟨machine, heap⟩ := b
  ⟨{ machine with flag := value }, heap.repin machine.flagPin value⟩

/-- Puts a payload on the stack. -/
def push (payload : Payload) : MachineM ω MachineError Unit := fun b =>
  let ⟨machine, heap⟩ := b
  let depth := machine.stack.size
  if machine.stackLimit ≤ depth then .error (.stackOverflow machine.stackLimit) ⟨machine, heap⟩
  else
    let (pin, heap) := heap.pin payload.held
    let stats : StackStats :=
      { totalPushes := machine.stats.totalPushes + 1
        maxDepth := max machine.stats.maxDepth (depth + 1)
        currentDepth := depth + 1 }
    .ok () ⟨{ machine with stack := machine.stack.push ⟨payload, pin⟩, stats }, heap⟩

/-- Takes the top of the stack into a register. -/
def restore (index : Nat) : MachineM ω MachineError Unit := fun b =>
  let ⟨machine, heap⟩ := b
  match machine.stack.back? with
  | none => .error (.emptyStack (machine.registerName index)) ⟨machine, heap⟩
  | some saved =>
    let stack := machine.stack.pop
    let stats := { machine.stats with currentDepth := stack.size }
    let ⟨machine, heap⟩ := write ⟨{ machine with stack, stats }, heap⟩ index saved.payload
    .ok () ⟨machine, heap.unpin saved.pin⟩

/-- Empties the stack, clears the flag and goes back to the first instruction. -/
def reset (b : Bench ω) : Bench ω :=
  let ⟨machine, heap⟩ := b
  let heap := machine.stack.foldl (fun heap saved => heap.unpin saved.pin) heap
  setFlag ⟨{ machine with stack := #[], stats := ⟨0, 0, 0⟩, pc := 0 }, heap⟩ .nil

/-- Gives back every pin the machine holds. -/
def release (b : Bench ω) : Heap :=
  let ⟨machine, heap⟩ := b
  let heap :=
    match machine.program with
    | some program => heap.unpin program.source
    | none => heap
  let ⟨machine, heap⟩ := reset ⟨machine, heap⟩
  machine.registers.foldl (fun heap register => heap.unpin register.pin)
    (heap.unpin machine.flagPin)

end Bench

end Lisplet
