import Lisplet.Heap.Print

/-!
# Instructions

The instructions of the register machine as they stand in a program, with
registers, labels and operations by name. An instruction is read off a list on
the heap; what its names refer to is settled when the program is assembled.
-/

namespace Lisplet

/-- A value to be fetched: `(const d)`, `(label l)` or `(reg r)`. -/
inductive Operand where
  | const (datum : Value)
  | label (name : String)
  | reg (name : String)
  deriving DecidableEq, Repr

/-- What an `assign` stores. -/
inductive Source where
  | operand (operand : Operand)
  | op (name : String) (operands : List Operand)
  deriving DecidableEq, Repr

/-- Where a `goto` goes, or what a `save` pushes. -/
inductive Location where
  | label (name : String)
  | reg (name : String)
  deriving DecidableEq, Repr

inductive Instruction where
  | assign (register : String) (source : Source)
  | test (op : String) (operands : List Operand)
  | branch (label : String)
  | goto (location : Location)
  | perform (op : String) (operands : List Operand)
  | save (location : Location)
  | restore (register : String)
  deriving DecidableEq, Repr

/-- What keeps a list from being an instruction, or a value from being a program. -/
inductive Flaw where
  | notAProgram
  | notAList
  | noName
  | nameNotSymbol
  | assignShape
  | assignTarget
  | noOperation
  | operationShape
  | operationName
  | branchCount
  | branchTarget
  | gotoCount
  | registerCount
  | restoreTarget
  | operandShape
  | labelName
  | registerName
  | locationShape
  deriving DecidableEq, Repr

def Flaw.message : Flaw → String
  | .notAProgram => "a program is a list of labels and instructions"
  | .notAList => "expected a list"
  | .noName => "empty instruction"
  | .nameNotSymbol => "instruction name must be a symbol"
  | .assignShape => "expected a register and a value"
  | .assignTarget => "assign target must be a register name"
  | .noOperation => "expected an operation"
  | .operationShape => "expected (op <name>)"
  | .operationName => "operation name must be a symbol"
  | .branchCount => "expected a single label"
  | .branchTarget => "branch target must be a label"
  | .gotoCount => "expected a single target"
  | .registerCount => "expected a single register"
  | .restoreTarget => "restore target must be a register name"
  | .operandShape => "expected (const d), (label l) or (reg r)"
  | .labelName => "label name must be a symbol"
  | .registerName => "register name must be a symbol"
  | .locationShape => "expected (label l) or (reg r)"

/-- Why a program could not be assembled. -/
inductive AssemblyError where
  | unknownInstruction (name : String)
  | unknownOperation (name : String)
  | duplicateLabel (name : String)
  | undefinedLabel (name : String)
  | unknownRegister (name : String)
  /-- The value at fault as it is written, and what is wrong with it. -/
  | malformed (instruction : String) (flaw : Flaw)
  deriving DecidableEq, Repr

def AssemblyError.message : AssemblyError → String
  | .unknownInstruction name => s!"unknown instruction `{name}`"
  | .unknownOperation name => s!"unknown operation `{name}`"
  | .duplicateLabel name => s!"label `{name}` is defined twice"
  | .undefinedLabel name => s!"label `{name}` is not defined"
  | .unknownRegister name => s!"register `{name}` is never assigned"
  | .malformed instruction flaw =>
    "malformed instruction " ++ instruction ++ ": " ++ flaw.message

namespace Instruction

/--
The register that an instruction writes or names as a location. Such a register
comes into being with the program; one that is only read has to be named like
this somewhere.
-/
def register? : Instruction → Option String
  | .assign register _ | .restore register => some register
  | .goto (.reg register) | .save (.reg register) => some register
  | _ => none

/-! ## Reading an instruction -/

/-- The tag and the item of a list `(tag item)`. -/
def tagged? (h : Heap) (value : Value) : Option (String × Value) :=
  match h.items? value with
  | some [tag, item] => (h.symbolName? tag).map (·, item)
  | _ => none

/-- The name of a symbol. -/
def symbol (h : Heap) (value : Value) (flaw : Flaw) : Except Flaw String :=
  match h.symbolName? value with
  | some name => .ok name
  | none => .error flaw

def operand (h : Heap) (value : Value) : Except Flaw Operand :=
  match tagged? h value with
  | some ("const", datum) => .ok (.const datum)
  | some ("label", name) => (symbol h name .labelName).map .label
  | some ("reg", name) => (symbol h name .registerName).map .reg
  | _ => .error .operandShape

def location (h : Heap) (value : Value) : Except Flaw Location :=
  match operand h value with
  | .ok (.label name) => .ok (.label name)
  | .ok (.reg name) => .ok (.reg name)
  | .ok (.const _) => .error .locationShape
  | .error flaw => .error flaw

/-- Whether a value has the form `(op name)`. -/
def isOp (h : Heap) (value : Value) : Bool :=
  match tagged? h value with
  | some (tag, _) => tag == "op"
  | none => false

/-- An operation with its operands. -/
def operation (h : Heap) (op : Value) (operands : List Value) :
    Except Flaw (String × List Operand) := do
  match tagged? h op with
  | some ("op", name) =>
    let name ← symbol h name .operationName
    let operands ← operands.mapM (operand h)
    pure (name, operands)
  | _ => throw .operationShape

def assignment (h : Heap) : List Value → Except Flaw Instruction
  | [] => .error .assignShape
  | target :: source => do
    let register ← symbol h target .assignTarget
    match source with
    | [] => throw .assignShape
    | first :: operands =>
      if operands.isEmpty && !isOp h first then
        pure (.assign register (.operand (← operand h first)))
      else
        let (name, operands) ← operation h first operands
        pure (.assign register (.op name operands))

/-- An instruction that consists of an operation alone. -/
def operationAlone (h : Heap) (make : String → List Operand → Instruction) :
    List Value → Except Flaw Instruction
  | [] => .error .noOperation
  | op :: operands => do
    let (name, operands) ← operation h op operands
    pure (make name operands)

def branching (h : Heap) : List Value → Except Flaw Instruction
  | [target] => do
    match ← operand h target with
    | .label name => pure (.branch name)
    | _ => throw .branchTarget
  | _ => .error .branchCount

def jumping (h : Heap) : List Value → Except Flaw Instruction
  | [target] => (location h target).map .goto
  | _ => .error .gotoCount

/-- A register to be saved may stand by itself or as `(reg r)`. -/
def saving (h : Heap) : List Value → Except Flaw Instruction
  | [target] =>
    match h.symbolName? target with
    | some name => .ok (.save (.reg name))
    | none => (location h target).map .save
  | _ => .error .registerCount

def restoring (h : Heap) : List Value → Except Flaw Instruction
  | [target] => (symbol h target .restoreTarget).map .restore
  | _ => .error .registerCount

/-- The instruction that a list on the heap stands for. -/
def parse (h : Heap) (element : Value) : Except AssemblyError Instruction :=
  let shaped {α : Type} (result : Except Flaw α) : Except AssemblyError α :=
    result.mapError fun flaw => .malformed (h.write element) flaw
  match h.items? element with
  | none => shaped (.error .notAList)
  | some [] => shaped (.error .noName)
  | some (head :: args) =>
    match symbol h head .nameNotSymbol with
    | .error flaw => shaped (.error flaw)
    | .ok "assign" => shaped (assignment h args)
    | .ok "test" => shaped (operationAlone h .test args)
    | .ok "perform" => shaped (operationAlone h .perform args)
    | .ok "branch" => shaped (branching h args)
    | .ok "goto" => shaped (jumping h args)
    | .ok "save" => shaped (saving h args)
    | .ok "restore" => shaped (restoring h args)
    | .ok name => .error (.unknownInstruction name)

end Instruction

end Lisplet
