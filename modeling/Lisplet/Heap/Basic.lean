import Lisplet.Fatal
import Lisplet.Journal
import Lisplet.Value
import Std.Data.HashMap

/-!
# The Heap

Every value but nil lives in one slot of an arena. Handles held anywhere own
nothing: what stays is decided by the collector, which starts from the root
environment, the interned symbols, the root stack and the pins.

This module holds the heap itself and everything that reads it or changes it in
place. Allocation is in `Lisplet.Heap.Allocate`, collection in
`Lisplet.Heap.Collect`.
-/

namespace Lisplet

/-- The key under which a value is pinned. -/
structure Pin where
  index : Nat
  deriving DecidableEq, Repr

/-- One place of the arena. -/
structure Slot where
  /-- What the slot holds; `none` for an empty slot. -/
  object : Option Object
  /-- Whether the collection under way has reached the slot. -/
  marked : Bool

/--
The values needed by evaluations under way, the latest first. How many there are is
kept beside them, since every scope asks for it.
-/
structure RootStack where
  values : List Value
  length : Nat
  length_eq : values.length = length

namespace RootStack

def empty : RootStack := ⟨[], 0, rfl⟩

def push (s : RootStack) (value : Value) : RootStack where
  values := value :: s.values
  length := s.length + 1
  length_eq := by simp [s.length_eq]

/-- Drops the values above a height. -/
def truncate (s : RootStack) (height : Nat) : RootStack where
  values := s.values.drop (s.length - height)
  length := s.length - (s.length - height)
  length_eq := by simp [s.length_eq]

end RootStack

structure Heap where
  /-- The arena. -/
  slots : Array Slot
  /-- The empty slots, the one to be used next first. -/
  free : List Nat
  /-- How many slots are occupied. -/
  live : Nat
  /-- How many slots may be occupied before an allocation collects first. -/
  capacity : Nat
  /-- The interned symbols by name. -/
  symbols : Std.HashMap String Value
  /-- The outermost environment. -/
  rootEnv : Env
  /-- The symbol `t`, which is the canonical true value. -/
  t : Value
  roots : RootStack
  /-- Values kept for holders outside the heap. -/
  pins : Array (Option Value)
  /-- The unused entries of `pins`, the one to be used next first. -/
  freePins : List Nat
  /-- How many collections have been run. -/
  collections : Nat
  journal : Array Notice

/--
Operations that work on a heap and may fail with `ε`. What they did before
failing stays done.
-/
abbrev HeapM (ε : Type) := EStateM ε Heap

namespace Heap

/-! ## Reading a value -/

/-- The object behind a value; `none` for nil and for a reclaimed slot. -/
def object? (h : Heap) : Value → Option Object
  | .nil => none
  | .slot index => h.slots[index]?.bind Slot.object

def kind (h : Heap) (value : Value) : Kind :=
  match value with
  | .nil => .nil
  | .slot _ =>
    match h.object? value with
    | some object => object.kind
    | none => .unknown

def isLive (h : Heap) (value : Value) : Bool := (h.object? value).isSome

/-- The car and cdr of a pair. -/
def pair? (h : Heap) (value : Value) : Option (Value × Value) :=
  match h.object? value with
  | some (.pair car cdr) => some (car, cdr)
  | _ => none

def car? (h : Heap) (value : Value) : Option Value := (h.pair? value).map (·.1)

def cdr? (h : Heap) (value : Value) : Option Value := (h.pair? value).map (·.2)

/-- The integer that an integer or a fixnum stands for. -/
def int? (h : Heap) (value : Value) : Option Int64 :=
  match h.object? value with
  | some (.int n) | some (.fixnum n) => some n
  | _ => none

def float? (h : Heap) (value : Value) : Option Float :=
  match h.object? value with
  | some (.float x) => some x
  | _ => none

def string? (h : Heap) (value : Value) : Option String :=
  match h.object? value with
  | some (.string text) => some text
  | _ => none

def symbolName? (h : Heap) (value : Value) : Option String :=
  match h.object? value with
  | some (.symbol name) => some name
  | _ => none

def primitive? (h : Heap) (value : Value) : Option Primitive :=
  match h.object? value with
  | some (.primitive p) => some p
  | _ => none

/-- The kind and message of an error value. -/
def error? (h : Heap) (value : Value) : Option (ErrorKind × String) :=
  match h.object? value with
  | some (.error kind message) => some (kind, message)
  | _ => none

/-- The parameters, body and environment of a procedure. -/
def procedure? (h : Heap) (value : Value) : Option (Value × Value × Env) :=
  match h.object? value with
  | some (.procedure params body env) => some (params, body, env)
  | _ => none

/-- The bindings and the parent of an environment. -/
def frame? (h : Heap) (value : Value) : Option (Value × Option Env) :=
  match h.object? value with
  | some (.environment bindings parent) => some (bindings, parent)
  | _ => none

def isPair (h : Heap) (value : Value) : Bool := h.kind value == .pair

def isSymbol (h : Heap) (value : Value) : Bool := h.kind value == .symbol

def isString (h : Heap) (value : Value) : Bool := h.kind value == .string

def isError (h : Heap) (value : Value) : Bool := h.kind value == .error

def isNumber (h : Heap) (value : Value) : Bool := (h.kind value).isNumber

/-- Everything but a pair is an atom. -/
def isAtom (h : Heap) (value : Value) : Bool := !h.isPair value

/-- Whether a value can be called. -/
def isProcedure (h : Heap) (value : Value) : Bool :=
  h.kind value == .procedure || h.kind value == .primitive

/-- Nil, `t`, numbers and strings evaluate to themselves. -/
def isSelfEvaluating (h : Heap) (value : Value) : Bool :=
  value.isNil || value == h.t || h.isNumber value || h.isString value

/-- A truth value: `t` or nil. -/
def boolean (h : Heap) (b : Bool) : Value := if b then h.t else .nil

/-- A value as an environment, if it is one. -/
def env? (h : Heap) (value : Value) : Option Env :=
  if h.kind value == .environment then some ⟨value⟩ else none

/-! ## Lists

A list that does not run in a circle has at most as many pairs as there are
slots, so that many steps along its spine are enough.
-/

/--
The elements along at most `steps` pairs of a spine, after those in `found`, and
what the spine ends in.
-/
def spineOnto (h : Heap) (found : Array Value) : (steps : Nat) → Value → Array Value × Value
  | 0, value => (found, value)
  | steps + 1, value =>
    match h.pair? value with
    | some (car, cdr) => h.spineOnto (found.push car) steps cdr
    | none => (found, value)

/-- The elements of a possibly improper list and its tail, which is nil for a proper list. -/
def spine (h : Heap) (value : Value) : List Value × Value :=
  let (items, tail) := h.spineOnto #[] h.slots.size value
  (items.toList, tail)

/-- The elements of a proper list. -/
def items? (h : Heap) (value : Value) : Option (List Value) :=
  match h.spine value with
  | (items, .nil) => some items
  | _ => none

/-- How many pairs a spine has; what it ends in does not matter. -/
def listLength (h : Heap) (value : Value) : Nat := (h.spine value).1.length

/-- The first element along at most `steps` pairs of a spine that satisfies a condition. -/
def findUpTo? (h : Heap) (condition : Value → Bool) : (steps : Nat) → Value → Option Value
  | 0, _ => none
  | steps + 1, value =>
    match h.pair? value with
    | some (car, cdr) => if condition car then some car else h.findUpTo? condition steps cdr
    | none => none

/-- The first element of a possibly improper list that satisfies a condition. -/
def find? (h : Heap) (condition : Value → Bool) (value : Value) : Option Value :=
  h.findUpTo? condition h.slots.size value

/-- The element at a position of a list. -/
def nth? (h : Heap) (value : Value) : Nat → Option Value
  | 0 => h.car? value
  | n + 1 =>
    match h.cdr? value with
    | some rest => h.nth? rest n
    | none => none

/-! ## Changing a value in place -/

/-- Puts an object into a slot that exists. -/
def put (h : Heap) (index : Nat) (object : Object) : Heap :=
  { h with slots := h.slots.modify index fun slot => { slot with object := some object } }

/-- Replaces the car of a pair; anything else is left alone. -/
def setCar (h : Heap) (pair value : Value) : Heap :=
  match pair, h.object? pair with
  | .slot index, some (.pair _ cdr) => h.put index (.pair value cdr)
  | _, _ => h

/-- Replaces the cdr of a pair; anything else is left alone. -/
def setCdr (h : Heap) (pair value : Value) : Heap :=
  match pair, h.object? pair with
  | .slot index, some (.pair car _) => h.put index (.pair car value)
  | _, _ => h

/-- Replaces the bindings of an environment; anything else is left alone. -/
def setBindings (h : Heap) (env : Env) (bindings : Value) : Heap :=
  match env.value, h.object? env.value with
  | .slot index, some (.environment _ parent) => h.put index (.environment bindings parent)
  | _, _ => h

/-! ## Roots -/

/-- Adds a value to the root stack, where nil is never kept. -/
def addRoot (h : Heap) (value : Value) : Heap :=
  if value.isNil then h else { h with roots := h.roots.push value }

/-- Drops the roots above a height. -/
def truncateRoots (h : Heap) (height : Nat) : Heap :=
  { h with roots := h.roots.truncate height }

/-! ## Pins -/

/-- Keeps a value alive until the pin is given back. -/
def pin (h : Heap) (value : Value) : Pin × Heap :=
  match h.freePins with
  | index :: freePins =>
    (⟨index⟩, { h with pins := h.pins.setIfInBounds index (some value), freePins })
  | [] => (⟨h.pins.size⟩, { h with pins := h.pins.push (some value) })

/-- Makes a pin hold another value. -/
def repin (h : Heap) (pin : Pin) (value : Value) : Heap :=
  { h with pins := h.pins.setIfInBounds pin.index (some value) }

/-- The value a pin holds; nil once the pin is given back. -/
def pinned (h : Heap) (pin : Pin) : Value := h.pins[pin.index]?.join.getD .nil

/-- Gives a pin back. Giving it back twice does no more than once. -/
def unpin (h : Heap) (pin : Pin) : Heap :=
  match h.pins[pin.index]?.join with
  | some _ =>
    { h with
      pins := h.pins.setIfInBounds pin.index none
      freePins := pin.index :: h.freePins }
  | none => h

/-- How many pins are held. -/
def pinCount (h : Heap) : Nat := h.pins.size - h.freePins.length

/-! ## The journal -/

def note (h : Heap) (notice : Notice) : Heap := { h with journal := h.journal.push notice }

end Heap

end Lisplet
