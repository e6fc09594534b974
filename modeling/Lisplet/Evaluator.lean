import Lisplet.Primitive.Call
import Lisplet.Reader

/-!
# Evaluation

Expressions are evaluated on the heap. An error value that turns up anywhere
ends the form it turned up in and becomes its result; only fatal conditions end
the run.

Evaluation recurses on the room that is left, that is, on how many compound
evaluations may still be nested. So it always ends: an evaluation that would
recur for ever runs out of room.

Every compound evaluation roots its expression, its environment and each value
it has computed so far, and lets them go when it is done. The value it returns is
rooted by whoever asked for it.
-/

namespace Lisplet

/-- The symbols with which special forms begin. -/
structure Forms where
  quote : Value
  conditional : Value
  assignment : Value
  definition : Value
  abstraction : Value
  sequence : Value

/-- The form symbols, interned in this order. -/
def Forms.intern : HeapM Fatal Forms := do
  let quote ← HeapM.intern "quote"
  let conditional ← HeapM.intern "if"
  let assignment ← HeapM.intern "set!"
  let definition ← HeapM.intern "define"
  let abstraction ← HeapM.intern "lambda"
  let sequence ← HeapM.intern "begin"
  pure { quote, conditional, assignment, definition, abstraction, sequence }

/-- What evaluation needs to know beside the expression and the environment. -/
structure Evaluator where
  forms : Forms
  /-- How many compound evaluations may be nested. -/
  limit : Nat

namespace Evaluator

/-- The nesting allowed where nothing else is asked for. -/
def defaultLimit : Nat := 10000

/-- An evaluator with its form symbols interned. -/
def make (limit : Nat) : HeapM Fatal Evaluator := do
  pure { forms := ← Forms.intern, limit }

/-!
## Loops

The list a loop walks along is read from the heap one pair at a time, since an
evaluation may change it. No list has more than `Value.maxSlots` pairs.
-/

/--
Evaluates the elements of a list in order up to the first error value. The
result is that of the last evaluation.
-/
@[specialize]
def sequenceWith (evaluate : Value → HeapM Fatal Value) (result : Value) :
    (steps : Nat) → Value → HeapM Fatal Value
  | 0, _ => pure result
  | steps + 1, list => do
    match (← get).pair? list with
    | none => pure result
    | some (expr, rest) =>
      let result ← evaluate expr
      if (← get).isError result then pure result
      else sequenceWith evaluate result steps rest

/-- What became of a list of operands. -/
inductive Operands where
  /-- All of them have values, the latest of which comes first. -/
  | values (found : List Value)
  /-- One of them gave this error value. -/
  | failed (error : Value)
  /-- The list does not end in nil. -/
  | improper

/-- Evaluates the elements of a list in order, and roots their values. -/
@[specialize]
def operandsWith (evaluate : Value → HeapM Fatal Value) (found : List Value) :
    (steps : Nat) → Value → HeapM Fatal Operands
  | 0, _ => pure .improper
  | steps + 1, list => do
    match (← get).pair? list with
    | none => pure (if list.isNil then .values found else .improper)
    | some (expr, rest) =>
      let value ← evaluate expr
      if (← get).isError value then pure (.failed value)
      else
        HeapM.root value
        operandsWith evaluate (value :: found) steps rest

/-!
## Special forms

Each takes the whole form, for messages, and its operands. `evaluate` stands for
evaluation of a part in the same environment.
-/

/-- The form `(quote datum)`, whose value is the datum itself. -/
def quoteForm (expr operands : Value) : HeapM Fatal Value := do
  match (← get).items? operands with
  | some [datum] => pure datum
  | _ => HeapM.malformed "quote" expr

/-- Evaluates a condition and then one of two branches; a branch that is missing is nil. -/
@[inline]
def choose (evaluate : Value → HeapM Fatal Value) (test consequent : Value)
    (alternative : Option Value) : HeapM Fatal Value := do
  let outcome ← evaluate test
  if (← get).isError outcome then pure outcome
  else
    match outcome, alternative with
    | .slot _, _ => evaluate consequent
    | .nil, some alternative => evaluate alternative
    | .nil, none => pure .nil

/-- The form `(if test consequent)` or `(if test consequent alternative)`. -/
@[specialize]
def ifForm (evaluate : Value → HeapM Fatal Value) (expr operands : Value) :
    HeapM Fatal Value := do
  match (← get).items? operands with
  | some [test, consequent] => choose evaluate test consequent none
  | some [test, consequent, alternative] => choose evaluate test consequent (some alternative)
  | _ => HeapM.malformed "if" expr

/-- The form `(set! symbol value)`, which changes a binding that exists. -/
@[specialize]
def setForm (evaluate : Value → HeapM Fatal Value) (expr operands : Value) (env : Env) :
    HeapM Fatal Value := do
  match (← get).items? operands with
  | some [target, source] =>
    if (← get).isSymbol target then
      let value ← evaluate source
      if (← get).isError value then pure value
      else
        match ← env.set target value with
        | .ok () => pure value
        | .error e => e.toValue
    else HeapM.wrongKind "set!" "symbol" target
  | _ => HeapM.malformed "set!" expr

/-- The form `(define (name . params) . body)`, which binds a procedure. -/
def defineProcedure (name params body : Value) (env : Env) : HeapM Fatal Value := do
  if (← get).isSymbol name then
    let procedure ← HeapM.procedure params body env
    HeapM.root procedure
    env.define name procedure
    pure procedure
  else HeapM.wrongKind "define" "symbol" name

/-- The form `(define symbol value)` or `(define (name . params) . body)`. -/
@[specialize]
def defineForm (evaluate : Value → HeapM Fatal Value) (expr operands : Value) (env : Env) :
    HeapM Fatal Value := do
  match (← get).pair? operands with
  | none => HeapM.malformed "define" expr
  | some (target, rest) =>
    match (← get).pair? target with
    | some (name, params) => defineProcedure name params rest env
    | none =>
      match (← get).items? rest with
      | some [source] =>
        if (← get).isSymbol target then
          let value ← evaluate source
          if (← get).isError value then pure value
          else
            HeapM.root value
            env.define target value
            pure value
        else HeapM.wrongKind "define" "symbol" target
      | _ => HeapM.malformed "define" expr

/-- The form `(lambda params . body)`, whose body must be a proper list. -/
def lambdaForm (expr operands : Value) (env : Env) : HeapM Fatal Value := do
  match (← get).pair? operands with
  | none => HeapM.malformed "lambda" expr
  | some (params, body) =>
    match (← get).items? body with
    | some _ => HeapM.procedure params body env
    | none => HeapM.malformed "lambda" expr

/-- Evaluates an operator and its operands from left to right, and applies the one to the others. -/
@[specialize]
def application (evaluate : Value → HeapM Fatal Value) (apply : Value → Value → HeapM Fatal Value)
    (expr head operands : Value) : HeapM Fatal Value := do
  let function ← evaluate head
  if (← get).isError function then pure function
  else
    HeapM.root function
    match ← operandsWith evaluate [] Value.maxSlots operands with
    | .values found => do
      let args ← HeapM.list found.reverse
      apply function args
    | .failed error => pure error
    | .improper => HeapM.malformed "application" expr

/-! ## Evaluation and application -/

mutual

/-- Evaluates an expression with room for so many nested compound evaluations. -/
def eval (ev : Evaluator) (room : Nat) (expr : Value) (env : Env) : HeapM Fatal Value := do
  let h ← get
  if h.isSelfEvaluating expr then pure expr
  else if h.isSymbol expr then HeapM.valueOr id (env.lookup h expr)
  else
    match h.pair? expr with
    | none => pure expr
    | some (head, operands) =>
      match room with
      | 0 => throw (.recursionLimit ev.limit)
      | room + 1 => HeapM.scope do
        HeapM.root expr
        HeapM.root env.value
        if head = ev.forms.quote then quoteForm expr operands
        else if head = ev.forms.conditional then
          ifForm (fun part => ev.eval room part env) expr operands
        else if head = ev.forms.assignment then
          setForm (fun part => ev.eval room part env) expr operands env
        else if head = ev.forms.definition then
          defineForm (fun part => ev.eval room part env) expr operands env
        else if head = ev.forms.abstraction then lambdaForm expr operands env
        else if head = ev.forms.sequence then
          sequenceWith (fun part => ev.eval room part env) .nil Value.maxSlots operands
        else
          application (fun part => ev.eval room part env) (fun f args => ev.apply room f args)
            expr head operands

/-- Applies a primitive or a procedure to a list of arguments. -/
def apply (ev : Evaluator) (room : Nat) (function args : Value) : HeapM Fatal Value := do
  match (← get).object? function with
  | some (.primitive p) => p.call args
  | some (.procedure params body captured) =>
    match (← get).env? captured.value with
    | none => HeapM.raise .typeError "procedure has no environment"
    | some captured =>
      match room with
      | 0 => throw (.recursionLimit ev.limit)
      | room + 1 => HeapM.scope do
        HeapM.root function
        HeapM.root args
        match ← captured.extend params args with
        | .error e => e.toValue
        | .ok env =>
          HeapM.root env.value
          sequenceWith (fun part => ev.eval room part env) .nil Value.maxSlots body
  | _ => HeapM.notCallable function

end

/-- Evaluates an expression from the top. -/
def evaluate (ev : Evaluator) (expr : Value) (env : Env) : HeapM Fatal Value :=
  ev.eval ev.limit expr env

/-- Evaluates the expressions of a list from the top. -/
def evaluateAll (ev : Evaluator) (body : Value) (env : Env) : HeapM Fatal Value :=
  sequenceWith (fun part => ev.evaluate part env) .nil Value.maxSlots body

/-- Applies a value from the top. -/
def call (ev : Evaluator) (function args : Value) : HeapM Fatal Value :=
  ev.apply ev.limit function args

end Evaluator

/-- Evaluates an expression with an evaluator of its own. -/
def evaluate (expr : Value) (env : Env) : HeapM Fatal Value := HeapM.scope do
  HeapM.root expr
  HeapM.root env.value
  (← Evaluator.make Evaluator.defaultLimit).evaluate expr env

end Lisplet
