import Lisplet.Primitive.Name

/-!
# Values and Objects

A value is a handle: nil, or the index of a slot in the heap. What a slot holds
is an object, and the constructor of the object is the kind of the value.
-/

namespace Lisplet

/-- A handle. Two handles are the same value exactly when they are equal. -/
inductive Value where
  /-- The empty list, which is also false. It occupies no slot. -/
  | nil
  /-- The value in the slot of this index. -/
  | slot (index : Nat)
  deriving DecidableEq, Repr, Inhabited

/--
Handles are 32 bits wide and one pattern stands for nil, so this is how many
slots they can name.
-/
def Value.maxSlots : Nat := 4294967295

def Value.isNil : Value → Bool
  | .nil => true
  | .slot _ => false

/-- A handle that is known to name an environment when it is made. -/
structure Env where
  value : Value
  deriving DecidableEq, Repr, Inhabited

/-- Kinds of error value. -/
inductive ErrorKind where
  | unboundVariable
  | typeError
  | notCallable
  | arityMismatch
  | divisionByZero
  | overflow
  /-- Raised by the program itself. -/
  | custom
  deriving DecidableEq, Repr

def ErrorKind.name : ErrorKind → String
  | .unboundVariable => "unbound-variable"
  | .typeError => "type-error"
  | .notCallable => "not-callable"
  | .arityMismatch => "arity-mismatch"
  | .divisionByZero => "division-by-zero"
  | .overflow => "overflow"
  | .custom => "error"

/-- Every kind of error value. -/
def ErrorKind.all : List ErrorKind :=
  [.unboundVariable, .typeError, .notCallable, .arityMismatch, .divisionByZero, .overflow, .custom]

/-- What an occupied slot holds. -/
inductive Object where
  | int (n : Int64)
  | float (x : Float)
  /-- A literal `n/d`. It is kept as written and takes no part in arithmetic. -/
  | ratio (numer denom : Int64)
  | fixnum (n : Int64)
  | string (text : String)
  | symbol (name : String)
  | pair (car cdr : Value)
  | primitive (p : Primitive)
  | error (kind : ErrorKind) (message : String)
  /--
  A closure: its parameters, its list of body expressions, and the environment
  it was made in.
  -/
  | procedure (params body : Value) (env : Env)
  /-- A frame: its list of `(symbol . value)` pairs, newest first, and the enclosing environment. -/
  | environment (bindings : Value) (parent : Option Env)

/-- The values an object keeps alive. -/
def Object.references : Object → List Value
  | .pair car cdr => [car, cdr]
  | .procedure params body env => [params, body, env.value]
  | .environment bindings (some parent) => [bindings, parent.value]
  | .environment bindings none => [bindings]
  | _ => []

/-- The kind of a value. -/
inductive Kind where
  | nil
  | int
  | float
  | ratio
  | fixnum
  | string
  | symbol
  | pair
  | primitive
  | error
  | procedure
  | environment
  /-- The slot has been reclaimed. -/
  | unknown
  deriving DecidableEq, Repr

def Kind.name : Kind → String
  | .nil => "nil"
  | .int => "integer"
  | .float => "float"
  | .ratio => "ratio"
  | .fixnum => "fixnum"
  | .string => "string"
  | .symbol => "symbol"
  | .pair => "pair"
  | .primitive => "primitive"
  | .error => "error"
  | .procedure => "procedure"
  | .environment => "environment"
  | .unknown => "unknown"

def Kind.isNumber : Kind → Bool
  | .int | .float | .ratio | .fixnum => true
  | _ => false

def Object.kind : Object → Kind
  | .int _ => .int
  | .float _ => .float
  | .ratio .. => .ratio
  | .fixnum _ => .fixnum
  | .string _ => .string
  | .symbol _ => .symbol
  | .pair .. => .pair
  | .primitive _ => .primitive
  | .error .. => .error
  | .procedure .. => .procedure
  | .environment .. => .environment

end Lisplet
