import Lisplet.Heap.Allocate
import Lisplet.Heap.Print

/-!
# Error Values

The error values that the system makes itself, with their wording.
-/

namespace Lisplet.HeapM

/-- A new error value. -/
def raise (kind : ErrorKind) (message : String) : HeapM Fatal Value :=
  allocate (.error kind message)

def unboundVariable (name : String) : HeapM Fatal Value :=
  raise .unboundVariable s!"unbound variable: {name}"

/-- The error of `who`, which wanted a value of kind `expected` and was given `found`. -/
def wrongKind (who expected : String) (found : Value) : HeapM Fatal Value := do
  let kind := ((← get).kind found).name
  raise .typeError s!"{who}: expected {expected}, got {kind}"

def notCallable (found : Value) : HeapM Fatal Value := do
  let text := (← get).write found
  raise .notCallable s!"not callable: {text}"

/-- The error of `who`, which takes exactly `expected` arguments and was given `got`. -/
def wrongCount (who : String) (expected got : Nat) : HeapM Fatal Value :=
  let noun := if expected = 1 then "argument" else "arguments"
  raise .arityMismatch s!"{who} expects {expected} {noun}, got {got}"

/-- The error of `who`, whose arguments do not form a proper list. -/
def improperArguments (who : String) : HeapM Fatal Value :=
  raise .typeError s!"{who}: improper argument list"

/-- The error of an expression of the form `form` that does not have its shape. -/
def malformed (form : String) (expr : Value) : HeapM Fatal Value := do
  let text := (← get).write expr
  raise .typeError s!"malformed {form}: {text}"

end Lisplet.HeapM
