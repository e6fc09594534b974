import Lisplet.Machine.Assembly

/-!
# Running a Machine

Each instruction of a running machine moves the program counter on, or sets it
anew, after it has had its effect. An instruction that fails leaves the machine
where it was.
-/

namespace Lisplet

namespace Bench

variable {ω : Type}

/-- An operation on the heap alone. -/
def onHeap {α : Type} (op : HeapM Fatal α) : MachineM ω MachineError α := fun b =>
  match b with
  | ⟨machine, heap⟩ =>
    match op heap with
    | .ok a heap => .ok a ⟨machine, heap⟩
    | .error e heap => .error (.fatal e) ⟨machine, heap⟩

/-- The values of operands, of which none may be a label. -/
def values? (m : Machine ω) (operands : List Fetch) : Option (List Value) :=
  operands.mapM fun operand => (m.fetch operand).value?

/-- Carries out an operation on the values of its operands. -/
def call [Callable ω] (c : Call ω) : MachineM ω MachineError Value := do
  match values? (← get).machine c.operands with
  | none => throw (.labelOperand c.name)
  | some values =>
    onHeap (HeapM.scope do
      let args ← HeapM.list values
      HeapM.root args
      Callable.call c.operation args)

/-- Sets the program counter. -/
def jump (target : Nat) (b : Bench ω) : Bench ω :=
  let ⟨machine, heap⟩ := b
  ⟨{ machine with pc := target }, heap⟩

/-- Moves the program counter on by one. -/
def advance (b : Bench ω) : Bench ω :=
  let ⟨machine, heap⟩ := b
  ⟨{ machine with pc := machine.pc + 1 }, heap⟩

/-- Executes one instruction. -/
def execute [Callable ω] : Code ω → MachineM ω MachineError Unit
  | .assign register source =>
    modify fun b =>
      let payload := b.machine.fetch source
      (b.write register payload).advance
  | .assignCall register c => do
    let value ← call c
    modify fun b => (b.write register (.value value)).advance
  | .test c => do
    let value ← call c
    modify fun b => (b.setFlag value).advance
  | .branch target => modify fun b => if b.machine.flag.isNil then b.advance else b.jump target
  | .jump target => modify (jump target)
  | .jumpRegister register => do
    match (← get).machine.read register with
    | .label target => modify (jump target)
    | .value _ => throw (.notAnInstructionPointer ((← get).machine.registerName register))
  | .perform c => do
    let _ ← call c
    modify advance
  | .save source => do
    push ((← get).machine.fetch source)
    modify advance
  | .restore register => do
    restore register
    modify advance

/-- Starts the program from its first instruction, with an empty stack and a clear flag. -/
def start (trace : Bool) : MachineM ω MachineError Unit := do
  if (← get).machine.program.isNone then throw .notInstalled
  modify fun b =>
    let ⟨machine, heap⟩ := b.reset
    ⟨{ machine with trace, executed := 0, state := .running }, heap⟩

/-- Notes the instruction that is about to be executed, if the machine is traced. -/
def noteExecuting (line : Line ω) (b : Bench ω) : Bench ω :=
  let ⟨machine, heap⟩ := b
  if machine.trace then ⟨machine, heap.note (.executing machine.pc line.text)⟩
  else ⟨machine, heap⟩

/-- Counts an instruction that has been executed. -/
def countExecuted (b : Bench ω) : Bench ω :=
  let ⟨machine, heap⟩ := b
  ⟨{ machine with executed := machine.executed + 1 }, heap⟩

/-- Halts a machine that has come to the end of its program. -/
def haltAtEnd (b : Bench ω) : Bench ω :=
  let ⟨machine, heap⟩ := b
  if machine.lineCount ≤ machine.pc then ⟨{ machine with state := .halted }, heap⟩
  else ⟨machine, heap⟩

/-- The line that the program counter is at. -/
def currentLine? (m : Machine ω) : Option (Line ω) :=
  m.program.bind fun program => program.lines[m.pc]?

/-- Executes the next instruction of a running machine. -/
def executeNext [Callable ω] : MachineM ω MachineError Unit := do
  match currentLine? (← get).machine with
  | some line =>
    modify (noteExecuting line)
    execute line.code
    modify countExecuted
  | none => pure ()
  modify haltAtEnd

/--
Executes one instruction, after starting the machine if it is not running yet. A
halted machine stays as it is.
-/
def step [Callable ω] : MachineM ω MachineError MachineState := do
  match (← get).machine.state with
  | .idle => throw .notInstalled
  | .halted => pure .halted
  | .installed =>
    start (← get).machine.trace
    executeNext
    pure (← get).machine.state
  | .running =>
    executeNext
    pure (← get).machine.state

/-- Steps until the machine halts, but no more than `steps` times. -/
def runFor [Callable ω] : (steps : Nat) → MachineM ω MachineError Unit
  | 0 => pure ()
  | steps + 1 => do
    match ← step with
    | .halted => pure ()
    | _ => runFor steps

/-- More steps than any run can take in the time there is. -/
def longestRun : Nat := 4611686018427387904

/-- Runs until the machine halts, after starting it if it is not running yet. -/
def run [Callable ω] : MachineM ω MachineError Unit := do
  if (← get).machine.state != .running then start (← get).machine.trace
  runFor longestRun

/-! ## Access from outside -/

/-- Stores a payload in the register of a name. -/
def setRegister (name : String) (payload : Payload) : MachineM ω MachineError Unit := do
  match (← get).machine.index? name with
  | some index => modify fun b => b.write index payload
  | none => throw (.unknownRegister name)

/-- Has every write to the register of a name noted. -/
def monitorRegister (name : String) : MachineM ω MachineError Unit := do
  match (← get).machine.index? name with
  | some index => modify fun b => b.monitor index
  | none => throw (.unknownRegister name)

/-- Says whether the machine is traced from now on. -/
def setTrace (trace : Bool) (b : Bench ω) : Bench ω :=
  let ⟨machine, heap⟩ := b
  ⟨{ machine with trace }, heap⟩

end Bench

end Lisplet
