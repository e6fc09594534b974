import Lisplet.Heap.Collect

/-!
# Allocation

An allocation on a full heap collects first and fails if the heap is still full.
Since any allocation may collect, whatever is still needed must be reachable
from a root; the constructors root their own operands.
-/

namespace Lisplet

namespace Heap

/-- Puts an object into the next free slot, or into a new one at the end of the arena. -/
def insert (h : Heap) (object : Object) : Value × Heap :=
  match h.free with
  | index :: free =>
    (.slot index,
      { h with
        slots := h.slots.setIfInBounds index ⟨some object, false⟩, free, live := h.live + 1 })
  | [] =>
    (.slot h.slots.size,
      { h with slots := h.slots.push ⟨some object, false⟩, live := h.live + 1 })

/-- Collects, but only if the heap is full. -/
def makeRoom (h : Heap) : Heap := if h.capacity ≤ h.live then h.collect.1 else h

/--
A heap with an empty root environment and the symbol `t`, which take the first
two slots whatever the capacity.
-/
def empty (capacity : Nat) : Heap where
  slots := #[⟨some (.environment .nil none), false⟩, ⟨some (.symbol "t"), false⟩]
  free := []
  live := 2
  capacity := min capacity (Value.maxSlots - 1)
  symbols := ({} : Std.HashMap String Value).insert "t" (.slot 1)
  rootEnv := ⟨.slot 0⟩
  t := .slot 1
  roots := .empty
  pins := #[]
  freePins := []
  collections := 0
  journal := #[]

end Heap

/-! ## Operations on a state -/

section State

variable {ε σ β : Type}

theorem get_bind_apply (f : σ → EStateM ε σ β) (s : σ) : (get >>= f) s = f s s := rfl

theorem modify_bind_apply (g : σ → σ) (f : Unit → EStateM ε σ β) (s : σ) :
    (modify g >>= f) s = f () (g s) := rfl

end State

namespace HeapM

variable {ε α : Type}

/-! ## Scopes -/

@[inline]
def root (value : Value) : HeapM ε Unit := modify fun h => h.addRoot value

/-- Runs `body` and then drops the roots it has left above the present height, however it ends. -/
@[inline]
def scope (body : HeapM ε α) : HeapM ε α := fun h =>
  let height := h.roots.length
  match body h with
  | .ok a h => .ok a (h.truncateRoots height)
  | .error e h => .error e (h.truncateRoots height)

/-- Runs an operation with the failure turned into another. -/
@[inline]
def mapError {ε' : Type} (f : ε → ε') (body : HeapM ε α) : HeapM ε' α := fun h =>
  match body h with
  | .ok a h => .ok a h
  | .error e h => .error (f e) h

/-! ## Constructors -/

/-- Puts an object into a slot, collecting first if the heap is full. -/
def allocate (object : Object) : HeapM Fatal Value := fun h =>
  let h := h.makeRoom
  if h.capacity ≤ h.live then
    .error (.outOfMemory h.live h.capacity) h
  else
    let (value, h) := h.insert object
    .ok value h

def int (n : Int64) : HeapM Fatal Value := allocate (.int n)

def float (x : Float) : HeapM Fatal Value := allocate (.float x)

def ratio (numer denom : Int64) : HeapM Fatal Value := allocate (.ratio numer denom)

def fixnum (n : Int64) : HeapM Fatal Value := allocate (.fixnum n)

def string (text : String) : HeapM Fatal Value := allocate (.string text)

def primitive (p : Primitive) : HeapM Fatal Value := allocate (.primitive p)

/-- The one symbol of this name. -/
def intern (name : String) : HeapM Fatal Value := do
  match (← get).symbols[name]? with
  | some symbol => pure symbol
  | none =>
    let symbol ← allocate (.symbol name)
    modify fun h => { h with symbols := h.symbols.insert name symbol }
    pure symbol

def cons (car cdr : Value) : HeapM Fatal Value := scope do
  root car
  root cdr
  allocate (.pair car cdr)

/-- Puts elements in front of a list one after the other, so that the last of them comes first. -/
def consAll (list : Value) : List Value → HeapM Fatal Value
  | [] => pure list
  | item :: items => do consAll (← cons item list) items

/-- A proper list, built from its end. -/
def list (items : List Value) : HeapM Fatal Value := scope do
  modify fun h => items.foldl Heap.addRoot h
  consAll .nil items.reverse

def procedure (params body : Value) (env : Env) : HeapM Fatal Value := scope do
  root params
  root body
  root env.value
  allocate (.procedure params body env)

/-- A new empty environment inside another. -/
def child (parent : Env) : HeapM Fatal Env := scope do
  root parent.value
  pure ⟨← allocate (.environment .nil (some parent))⟩

end HeapM

end Lisplet
