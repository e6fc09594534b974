import Lisplet.Machine.Run

/-!
# The symbolic machine — what instructions mean before their names are settled

The symbolic machine keeps the instructions of a program as they were parsed together with the
table of labels. Its registers go by their names, and every name in an instruction is looked up
each time the instruction is executed, so it is the meaning that the program has as a text. It
shares nothing with the run of assembled code but the operations on the heap.
-/

namespace Lisplet

/-- A register apart from its name. -/
structure Cell where
  payload : Payload
  pin : Pin
  monitored : Bool
  deriving Repr

/-- Why the symbolic machine cannot execute an instruction. -/
inductive Fault where
  /-- A name in the instruction refers to nothing. -/
  | unresolved (cause : AssemblyError)
  | stopped (cause : MachineError)
  deriving DecidableEq, Repr

/-- A symbolic machine and the heap it works on. -/
structure Symbolic (ω : Type := Primitive) where
  state : MachineState
  operations : Operations ω
  listing : Listing
  /-- The registers by name. -/
  cells : String → Option Cell
  flag : Value
  flagPin : Pin
  /-- The stack, its top first. -/
  stack : List Saved
  stackLimit : Nat
  stats : StackStats
  pc : Nat
  trace : Bool
  executed : Nat
  heap : Heap

abbrev SymbolicM (ω : Type) := EStateM Fault (Symbolic ω)

namespace Symbolic

variable {ω : Type}

/-! ## Names -/

def cell (name : String) : SymbolicM ω Cell := do
  match (← get).cells name with
  | some cell => pure cell
  | none => throw (.unresolved (.unknownRegister name))

def target (label : String) : SymbolicM ω Nat := do
  match (← get).listing.labels.lookup label with
  | some index => pure index
  | none => throw (.unresolved (.undefinedLabel label))

def operation (name : String) : SymbolicM ω ω := do
  match (← get).operations.get? name with
  | some operation => pure operation
  | none => throw (.unresolved (.unknownOperation name))

/-! ## Effects of instructions -/

def fetch : Operand → SymbolicM ω Payload
  | .const datum => pure (.value datum)
  | .label name => return .label (← target name)
  | .reg name => return (← cell name).payload

/-- Fetches the operands in their order. -/
def fetchAll : List Operand → SymbolicM ω (List Payload)
  | [] => pure []
  | operand :: operands => do
    let payload ← fetch operand
    let payloads ← fetchAll operands
    pure (payload :: payloads)

/-- The values of payloads, of which none may be a label. -/
def values? : List Payload → Option (List Value)
  | [] => some []
  | .value value :: payloads => (values? payloads).map (value :: ·)
  | .label _ :: _ => none

def onHeap {α : Type} (op : HeapM Fatal α) : SymbolicM ω α := fun s =>
  match op s.heap with
  | .ok a heap => .ok a { s with heap }
  | .error e heap => .error (.stopped (.fatal e)) { s with heap }

/-- Carries out the operation of a name on a list of the values of its operands. -/
def call [Callable ω] (name : String) (operands : List Operand) : SymbolicM ω Value := do
  let operation ← operation name
  match values? (← fetchAll operands) with
  | none => throw (.stopped (.labelOperand name))
  | some values =>
    onHeap (HeapM.scope do
      let args ← HeapM.list values
      HeapM.root args
      Callable.call operation args)

/-- Stores a payload in the register of a name. -/
def store (name : String) (payload : Payload) : SymbolicM ω Unit := do
  let cell ← cell name
  modify fun s =>
    let heap := s.heap.repin cell.pin payload.held
    { s with
      cells := fun other => if other = name then some { cell with payload } else s.cells other
      heap := if cell.monitored then heap.note (.assigned name (payload.text heap)) else heap }

def setFlag (value : Value) : SymbolicM ω Unit :=
  modify fun s => { s with flag := value, heap := s.heap.repin s.flagPin value }

def push (payload : Payload) : SymbolicM ω Unit := do
  let s ← get
  if s.stack.length < s.stackLimit then
    let (pin, heap) := s.heap.pin payload.held
    set { s with
      stack := ⟨payload, pin⟩ :: s.stack
      stats :=
        { totalPushes := s.stats.totalPushes + 1
          maxDepth := max s.stats.maxDepth (s.stack.length + 1)
          currentDepth := s.stack.length + 1 }
      heap }
  else throw (.stopped (.stackOverflow s.stackLimit))

/-- Takes the top of the stack into the register of a name. -/
def pop (name : String) : SymbolicM ω Unit := do
  let s ← get
  match s.stack with
  | [] => throw (.stopped (.emptyStack name))
  | saved :: stack =>
    set { s with stack, stats := { s.stats with currentDepth := stack.length } }
    store name saved.payload
    modify fun s => { s with heap := s.heap.unpin saved.pin }

def advance : SymbolicM ω Unit := modify fun s => { s with pc := s.pc + 1 }

def jump (index : Nat) : SymbolicM ω Unit := modify fun s => { s with pc := index }

/-! ## Instructions -/

def execute [Callable ω] : Instruction → SymbolicM ω Unit
  | .assign register (.operand operand) => do
    store register (← fetch operand)
    advance
  | .assign register (.op name operands) => do
    store register (.value (← call name operands))
    advance
  | .test name operands => do
    setFlag (← call name operands)
    advance
  | .branch label => do
    let index ← target label
    if (← get).flag.isNil then advance else jump index
  | .goto (.label label) => do jump (← target label)
  | .goto (.reg register) => do
    match (← cell register).payload with
    | .label index => jump index
    | .value _ => throw (.stopped (.notAnInstructionPointer register))
  | .perform name operands => do
    let _ ← call name operands
    advance
  | .save (.label label) => do
    push (.label (← target label))
    advance
  | .save (.reg register) => do
    push (← cell register).payload
    advance
  | .restore register => do
    pop register
    advance

/-! ## Steps -/

/-- Goes back to the first instruction, with an empty stack and a clear flag. -/
def start : SymbolicM ω Unit :=
  modify fun s =>
    { s with
      state := .running
      flag := .nil
      stack := []
      stats := ⟨0, 0, 0⟩
      pc := 0
      executed := 0
      -- The entries give their pins back in the order in which they were pushed.
      heap := (s.stack.foldr (fun saved heap => heap.unpin saved.pin) s.heap).repin s.flagPin .nil }

/-- Notes the instruction that is about to be executed, if the machine is traced. -/
def note (text : String) : SymbolicM ω Unit :=
  modify fun s => if s.trace then { s with heap := s.heap.note (.executing s.pc text) } else s

def haltAtEnd : SymbolicM ω Unit :=
  modify fun s => if s.listing.lines.size ≤ s.pc then { s with state := .halted } else s

/-- Executes the instruction that the program counter is at, if it is in the program. -/
def executeNext [Callable ω] : SymbolicM ω Unit := do
  let s ← get
  match s.listing.lines[s.pc]? with
  | some (text, instruction) =>
    note text
    execute instruction
    modify fun s => { s with executed := s.executed + 1 }
    haltAtEnd
  | none => haltAtEnd

def step [Callable ω] : SymbolicM ω MachineState := do
  match (← get).state with
  | .idle => throw (.stopped .notInstalled)
  | .halted => pure .halted
  | .installed =>
    start
    executeNext
    return (← get).state
  | .running =>
    executeNext
    return (← get).state

end Symbolic

/-! ## Machines as symbolic machines -/

namespace Machine

/-- The register of a name. -/
def cell? {ω : Type} (m : Machine ω) (name : String) : Option Cell :=
  (m.index? name).bind fun index =>
    m.registers[index]?.map fun register => ⟨register.payload, register.pin, register.monitored⟩

end Machine

namespace Bench

/-- A machine as a symbolic one that goes by a listing. -/
def symbolic {ω : Type} (listing : Listing) (b : Bench ω) : Symbolic ω where
  state := b.machine.state
  operations := b.machine.operations
  listing
  cells := b.machine.cell?
  flag := b.machine.flag
  flagPin := b.machine.flagPin
  stack := b.machine.stack.toList.reverse
  stackLimit := b.machine.stackLimit
  stats := b.machine.stats
  pc := b.machine.pc
  trace := b.machine.trace
  executed := b.machine.executed
  heap := b.heap

end Bench

/-! ## Histories -/

section History

variable {ε σ α : Type}

/--
What the first `count` steps give, each with the state after it. A step that fails is followed
by one from the state it left.
-/
def history (step : EStateM ε σ α) : (count : Nat) → σ → List (Except ε α × σ)
  | 0, _ => []
  | count + 1, s =>
    match step s with
    | .ok a s => (.ok a, s) :: history step count s
    | .error e s => (.error e, s) :: history step count s

end History

end Lisplet
