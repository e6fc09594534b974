import Lisplet.Machine.Instruction
import Lisplet.Machine.Operations

/-!
# Code

An instruction with its names settled: registers and labels have become indices,
and the names of operations have become the operations themselves.
-/

namespace Lisplet

/-- A value to be fetched. -/
inductive Fetch where
  | const (datum : Value)
  | label (target : Nat)
  | register (index : Nat)
  deriving DecidableEq, Repr

/-- An operation with its operands. The name is the one the program uses. -/
structure Call (ω : Type := Primitive) where
  name : String
  operation : ω
  operands : List Fetch
  deriving DecidableEq, Repr

inductive Code (ω : Type := Primitive) where
  | assign (register : Nat) (source : Fetch)
  | assignCall (register : Nat) (call : Call ω)
  | test (call : Call ω)
  | branch (target : Nat)
  | jump (target : Nat)
  | jumpRegister (register : Nat)
  | perform (call : Call ω)
  | save (source : Fetch)
  | restore (register : Nat)
  deriving DecidableEq, Repr

/-- What the names in a program refer to. -/
structure Naming (ω : Type := Primitive) where
  register? : String → Option Nat
  label? : String → Option Nat
  operation? : String → Option ω

namespace Naming

variable {ω : Type}

def register (names : Naming ω) (name : String) : Except AssemblyError Nat :=
  match names.register? name with
  | some index => .ok index
  | none => .error (.unknownRegister name)

def label (names : Naming ω) (name : String) : Except AssemblyError Nat :=
  match names.label? name with
  | some target => .ok target
  | none => .error (.undefinedLabel name)

def fetch (names : Naming ω) : Operand → Except AssemblyError Fetch
  | .const datum => .ok (.const datum)
  | .label name => (names.label name).map .label
  | .reg name => (names.register name).map .register

def call (names : Naming ω) (name : String) (operands : List Operand) :
    Except AssemblyError (Call ω) :=
  match names.operation? name with
  | none => .error (.unknownOperation name)
  | some operation => do
    let operands ← operands.mapM names.fetch
    pure { name, operation, operands }

/-- Settles the names in an instruction. -/
def resolve (names : Naming ω) : Instruction → Except AssemblyError (Code ω)
  | .assign register (.operand operand) => do
    let register ← names.register register
    pure (.assign register (← names.fetch operand))
  | .assign register (.op name operands) => do
    let register ← names.register register
    pure (.assignCall register (← names.call name operands))
  | .test name operands => (names.call name operands).map .test
  | .branch label => (names.label label).map .branch
  | .goto (.label label) => (names.label label).map .jump
  | .goto (.reg register) => (names.register register).map .jumpRegister
  | .perform name operands => (names.call name operands).map .perform
  | .save (.label label) => (names.fetch (.label label)).map .save
  | .save (.reg register) => (names.fetch (.reg register)).map .save
  | .restore register => (names.register register).map .restore

end Naming

end Lisplet
