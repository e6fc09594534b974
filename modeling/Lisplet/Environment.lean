import Lisplet.Heap.Raise

/-!
# Environments

An environment is a frame of bindings inside an enclosing environment. Symbols
are interned, so a binding belongs to a symbol exactly when its car is that
handle. A definition is put in front of the older bindings of its frame and
shadows them; an assignment changes the nearest binding.
-/

namespace Lisplet

/-- Why a binding operation failed. -/
inductive BindingError where
  | unbound (name : String)
  /-- There were `got` arguments for `expected` parameters, or for at least that many. -/
  | arity (expected got : Nat) (variadic : Bool)
  /-- A parameter that is not a symbol, as it is written. -/
  | notASymbol (found : String)
  deriving DecidableEq, Repr

namespace BindingError

def message : BindingError → String
  | .unbound name => s!"unbound variable: {name}"
  | .arity expected got variadic =>
    let least := if variadic then "at least " else ""
    s!"expected {least}{expected} arguments, got {got}"
  | .notASymbol found => s!"parameter is not a symbol: {found}"

def kind : BindingError → ErrorKind
  | .unbound _ => .unboundVariable
  | .arity .. => .arityMismatch
  | .notASymbol _ => .typeError

/-- The failure as an error value. -/
def toValue (e : BindingError) : HeapM Fatal Value := HeapM.raise e.kind e.message

end BindingError

namespace Env

/-! ## Reading -/

/-- The enclosing environment; `none` for the outermost one. -/
def parent? (env : Env) (h : Heap) : Option Env := (h.frame? env.value).bind (·.2)

/-- The list of `(symbol . value)` pairs of the frame, newest first. -/
def bindings (env : Env) (h : Heap) : Value :=
  match h.frame? env.value with
  | some (bindings, _) => bindings
  | none => .nil

/-- The environments from here outwards, at most `steps + 1` of them. -/
def chainUpTo (env : Env) (h : Heap) : (steps : Nat) → List Env
  | 0 => [env]
  | steps + 1 =>
    match env.parent? h with
    | some parent => env :: parent.chainUpTo h steps
    | none => [env]

/-- The environments from here outwards. A chain visits no slot twice. -/
def chain (env : Env) (h : Heap) : List Env := env.chainUpTo h h.slots.size

/-- How many frames there are from here outwards. -/
def depth (env : Env) (h : Heap) : Nat := (env.chain h).length

/-- The binding of a symbol in this frame alone. -/
def ownBinding? (env : Env) (h : Heap) (symbol : Value) : Option Value :=
  h.find? (fun binding => h.car? binding == some symbol) (env.bindings h)

/-- The nearest binding of a symbol, searched at most `steps` frames outwards. -/
def bindingWithin? (env : Env) (h : Heap) (symbol : Value) : (steps : Nat) → Option Value
  | 0 => env.ownBinding? h symbol
  | steps + 1 =>
    match env.ownBinding? h symbol with
    | some binding => some binding
    | none =>
      match env.parent? h with
      | some parent => parent.bindingWithin? h symbol steps
      | none => none

/-- The nearest binding of a symbol. -/
def binding? (env : Env) (h : Heap) (symbol : Value) : Option Value :=
  env.bindingWithin? h symbol h.slots.size

/--
The failure to find a symbol, which is named if it is one and written if it is
something else.
-/
def unbound (h : Heap) (symbol : Value) : BindingError :=
  .unbound ((h.symbolName? symbol).getD (h.write symbol))

/-- The value a symbol is bound to here or further out. -/
def lookup (env : Env) (h : Heap) (symbol : Value) : Except BindingError Value :=
  match (env.binding? h symbol).bind h.cdr? with
  | some value => .ok value
  | none => .error (unbound h symbol)

/-! ## Defining and assigning -/

/-- Adds a binding in front of those of the frame. -/
def define (env : Env) (symbol value : Value) : HeapM Fatal Unit := HeapM.scope do
  HeapM.root env.value
  let binding ← HeapM.cons symbol value
  let bindings ← HeapM.cons binding (env.bindings (← get))
  modify fun h => h.setBindings env bindings

/-- Changes the nearest binding of a symbol. -/
def set (env : Env) (symbol value : Value) : HeapM Fatal (Except BindingError Unit) := do
  let h ← get
  match env.binding? h symbol with
  | some binding =>
    modify fun h => h.setCdr binding value
    pure (.ok ())
  | none => pure (.error (unbound h symbol))

/-- Binds a primitive to its name. -/
def definePrimitive (env : Env) (p : Primitive) : HeapM Fatal Unit := do
  let name ← HeapM.intern p.name
  let value ← HeapM.primitive p
  env.define name value

/-- Binds each primitive to its name. -/
def definePrimitives (env : Env) (primitives : List Primitive) : HeapM Fatal Unit :=
  HeapM.scope do
    HeapM.root env.value
    primitives.forM env.definePrimitive

/-! ## Parameters -/

/-- How many arguments a parameter list requires, and whether it takes more. -/
structure Shape where
  required : Nat
  variadic : Bool
  deriving DecidableEq, Repr

/--
The shape of a parameter list: symbols, ended by nil or by a symbol that takes
the remaining arguments. The first thing that is out of place is the one reported.
-/
def shape (h : Heap) (params : Value) : Except BindingError Shape :=
  let (items, tail) := h.spine params
  match items.find? fun param => !h.isSymbol param with
  | some param => .error (.notASymbol (h.write param))
  | none =>
    if tail.isNil then .ok ⟨items.length, false⟩
    else if h.isSymbol tail then .ok ⟨items.length, true⟩
    else .error (.notASymbol (h.write tail))

/-- Whether so many arguments can be bound. -/
def Shape.accepts (s : Shape) (got : Nat) : Bool :=
  s.required ≤ got && (s.variadic || got ≤ s.required)

/--
Binds parameters to arguments one by one, and a rest parameter to the arguments
that are left.
-/
def bindAll (env : Env) : (params : List Value) → (tail args : Value) → HeapM Fatal Unit
  | [], tail, args => do
    if !tail.isNil then env.define tail args
  | param :: params, tail, args => do
    match (← get).pair? args with
    | some (arg, args) =>
      env.define param arg
      env.bindAll params tail args
    | none => pure ()

/-- A new environment inside this one in which the parameters are bound to the arguments. -/
def extend (env : Env) (params args : Value) : HeapM Fatal (Except BindingError Env) := do
  let h ← get
  match shape h params with
  | .error e => pure (.error e)
  | .ok s =>
    let got := h.listLength args
    if !s.accepts got then
      pure (.error (.arity s.required got s.variadic))
    else HeapM.scope do
      HeapM.root params
      HeapM.root args
      let child ← HeapM.child env
      HeapM.root child.value
      let (names, tail) := (← get).spine params
      child.bindAll names tail args
      pure (.ok child)

end Env

namespace Heap

/-- A heap whose root environment binds the standard primitives. -/
def standard (capacity : Nat) : Except Fatal Heap :=
  let h := Heap.empty capacity
  match h.rootEnv.definePrimitives Primitive.standard h with
  | .ok () h => .ok h
  | .error e _ => .error e

end Heap

end Lisplet
