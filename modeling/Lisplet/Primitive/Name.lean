/-!
# Primitive Names

The primitives as a closed type, each with the one name it goes by. What a
primitive does when it is called is defined in `Lisplet.Primitive.Call`.
-/

namespace Lisplet

/-- Questions about a single value. -/
inductive Question where
  | isAtom
  | isNull
  | isPair
  | isNumber
  | isSymbol
  | isString
  | isProcedure
  | isFalse
  deriving DecidableEq, Repr

def Question.name : Question → String
  | .isAtom => "atom?"
  | .isNull => "null?"
  | .isPair => "pair?"
  | .isNumber => "number?"
  | .isSymbol => "symbol?"
  | .isString => "string?"
  | .isProcedure => "procedure?"
  | .isFalse => "not"

/-- Arithmetic operators. -/
inductive Operator where
  | add
  | sub
  | mul
  | div
  deriving DecidableEq, Repr

def Operator.name : Operator → String
  | .add => "+"
  | .sub => "-"
  | .mul => "*"
  | .div => "/"

/-- Comparisons between numbers. -/
inductive Comparison where
  | eq
  | lt
  | gt
  | le
  | ge
  deriving DecidableEq, Repr

def Comparison.name : Comparison → String
  | .eq => "="
  | .lt => "<"
  | .gt => ">"
  | .le => "<="
  | .ge => ">="

/-- Procedures that the system provides. -/
inductive Primitive where
  | list
  | cons
  | car
  | cdr
  | same
  | equal
  | question (q : Question)
  | arithmetic (op : Operator)
  | comparison (c : Comparison)
  | error
  | exit
  | print
  | lookupVariable
  | setVariable
  | defineVariable
  | extendEnvironment
  | globalEnvironment
  deriving DecidableEq, Repr

namespace Primitive

def name : Primitive → String
  | .list => "list"
  | .cons => "cons"
  | .car => "car"
  | .cdr => "cdr"
  | .same => "eq"
  | .equal => "equal?"
  | .question q => q.name
  | .arithmetic op => op.name
  | .comparison c => c.name
  | .error => "error"
  | .exit => "exit"
  | .print => "print"
  | .lookupVariable => "lookup-variable-value"
  | .setVariable => "set-variable-value!"
  | .defineVariable => "define-variable!"
  | .extendEnvironment => "extend-environment"
  | .globalEnvironment => "get-global-environment"

/-- The primitives that the root environment binds, in the order in which they are bound. -/
def standard : List Primitive :=
  [.list, .cons, .car, .cdr, .same, .equal,
   .question .isAtom, .question .isNull, .question .isPair, .question .isNumber,
   .question .isSymbol, .question .isString, .question .isProcedure, .question .isFalse,
   .arithmetic .add, .arithmetic .sub, .arithmetic .mul, .arithmetic .div,
   .comparison .eq, .comparison .lt, .comparison .gt, .comparison .le, .comparison .ge,
   .error, .exit]

/-- The further operations that only the register machine has. -/
def machine : List Primitive :=
  [.print, .lookupVariable, .setVariable, .defineVariable, .extendEnvironment,
   .globalEnvironment]

/-- The primitive of a given name. -/
def named? (name : String) : Option Primitive :=
  (standard ++ machine).find? fun p => p.name == name

end Primitive

end Lisplet
