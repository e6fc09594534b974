import Lisplet.Environment
import Lisplet.Heap.Equal
import Lisplet.Primitive.Arithmetic

/-!
# Calling Primitives

A primitive receives its arguments as a list. Misuse gives an error value; only
a full heap and `exit` are fatal.
-/

namespace Lisplet

/-- The answer to a question about a value. -/
def Question.answer (q : Question) (h : Heap) (value : Value) : Bool :=
  match q with
  | .isAtom => h.isAtom value
  | .isNull => value.isNil
  | .isPair => h.isPair value
  | .isNumber => h.isNumber value
  | .isSymbol => h.isSymbol value
  | .isString => h.isString value
  | .isProcedure => h.isProcedure value
  | .isFalse => value.isNil

namespace HeapM

/-! ## Argument lists of fixed length -/

def withNone (who : String) (args : Value) (body : HeapM Fatal Value) : HeapM Fatal Value := do
  match (← get).items? args with
  | some [] => body
  | some items => wrongCount who 0 items.length
  | none => improperArguments who

def withOne (who : String) (args : Value) (body : Value → HeapM Fatal Value) :
    HeapM Fatal Value := do
  match (← get).items? args with
  | some [a] => body a
  | some items => wrongCount who 1 items.length
  | none => improperArguments who

def withTwo (who : String) (args : Value) (body : Value → Value → HeapM Fatal Value) :
    HeapM Fatal Value := do
  match (← get).items? args with
  | some [a, b] => body a b
  | some items => wrongCount who 2 items.length
  | none => improperArguments who

def withThree (who : String) (args : Value) (body : Value → Value → Value → HeapM Fatal Value) :
    HeapM Fatal Value := do
  match (← get).items? args with
  | some [a, b, c] => body a b c
  | some items => wrongCount who 3 items.length
  | none => improperArguments who

/-! ## Argument kinds -/

def withSymbol (who : String) (value : Value) (body : HeapM Fatal Value) : HeapM Fatal Value := do
  if (← get).isSymbol value then body else wrongKind who "symbol" value

def withEnv (who : String) (value : Value) (body : Env → HeapM Fatal Value) :
    HeapM Fatal Value := do
  match (← get).env? value with
  | some env => body env
  | none => wrongKind who "environment" value

/-- A result, or the failure as an error value. -/
def valueOr {α : Type} (f : α → Value) : Except BindingError α → HeapM Fatal Value
  | .ok a => pure (f a)
  | .error e => e.toValue

/-! ## Lists -/

/-- The car of a list; that of nil is nil. -/
def car (who : String) (list : Value) : HeapM Fatal Value := do
  if list.isNil then pure .nil
  else
    match (← get).car? list with
    | some value => pure value
    | none => wrongKind who "pair" list

/-- The cdr of a list; that of nil is nil. -/
def cdr (who : String) (list : Value) : HeapM Fatal Value := do
  if list.isNil then pure .nil
  else
    match (← get).cdr? list with
    | some value => pure value
    | none => wrongKind who "pair" list

/-! ## Control -/

/--
An error value made by the program: its arguments as they are displayed, with
blanks between them.
-/
def custom (who : String) (args : Value) : HeapM Fatal Value := do
  let h ← get
  match h.items? args with
  | some items => raise .custom (" ".intercalate (items.map h.display))
  | none => improperArguments who

/-- The status an exit asks for: the first argument if it is an integer of 32 bits, and else 1. -/
def exitStatus (h : Heap) (args : Value) : Int32 :=
  match (h.car? args).bind h.int? with
  | some n =>
    if Int32.minValue.toInt ≤ n.toInt ∧ n.toInt ≤ Int32.maxValue.toInt then n.toInt32 else 1
  | none => 1

/-- Records each element of a list in the journal as it is displayed. -/
def printAll (args : Value) : HeapM Fatal Value := do
  modify fun h =>
    (h.spine args).1.foldl (fun h item => h.note (.printed (h.display item))) h
  pure .nil

end HeapM

open HeapM in
/-- Calls a primitive with a list of arguments. -/
def Primitive.call (p : Primitive) (args : Value) : HeapM Fatal Value :=
  match p with
  | .list => pure args
  | .cons => withTwo p.name args HeapM.cons
  | .car => withOne p.name args (HeapM.car p.name)
  | .cdr => withOne p.name args (HeapM.cdr p.name)
  | .same => withTwo p.name args fun a b => do pure ((← get).boolean (a == b))
  | .equal => withTwo p.name args fun a b => do
    let h ← get
    pure (h.boolean (h.equal a b))
  | .question q => withOne p.name args fun a => do
    let h ← get
    pure (h.boolean (q.answer h a))
  | .arithmetic op => HeapM.arithmetic op args
  | .comparison c => HeapM.comparison c args
  | .error => custom p.name args
  | .exit => do throw (.exit (exitStatus (← get) args))
  | .print => printAll args
  | .lookupVariable => withTwo p.name args fun symbol env =>
    withSymbol p.name symbol <| withEnv p.name env fun env => do
      valueOr id (env.lookup (← get) symbol)
  | .setVariable => withThree p.name args fun symbol value env =>
    withSymbol p.name symbol <| withEnv p.name env fun env => do
      valueOr (fun _ => value) (← env.set symbol value)
  | .defineVariable => withThree p.name args fun symbol value env =>
    withSymbol p.name symbol <| withEnv p.name env fun env => do
      env.define symbol value
      pure value
  | .extendEnvironment => withThree p.name args fun params values env =>
    withEnv p.name env fun env => do
      valueOr Env.value (← env.extend params values)
  | .globalEnvironment => withNone p.name args do pure (← get).rootEnv.value

end Lisplet
