import Lisplet.Environment
import Mathlib.Tactic.Common

/-!
# Slots — what the operations on the heap do to the objects in it

`Heap.object?` is the view of the arena that the theory works with: the object in the slot
of a handle, if the slot is occupied. For every operation that changes the arena this module
says what it does to that view, so that later modules need not open the arena itself.
-/

namespace Lisplet

theorem Slot.bind_object (slot : Option Slot) :
    slot.bind Slot.object = (slot.map Slot.object).join := by
  cases slot <;> rfl

/-- An environment refers to its bindings and to its parent, if it has one. -/
theorem Object.mem_references_environment_iff {bindings v : Value} {parent : Option Env} :
    v ∈ (Object.environment bindings parent).references ↔
      v = bindings ∨ ∃ p, parent = some p ∧ v = p.value := by
  cases parent with
  | none => simp [Object.references]
  | some p => simp [Object.references]

theorem Object.bindings_mem_references (bindings : Value) (parent : Option Env) :
    bindings ∈ (Object.environment bindings parent).references :=
  mem_references_environment_iff.2 (.inl rfl)

namespace Heap

/-! ## Occupied slots -/

/-- The slot at an index holds an object. -/
def Occupied (h : Heap) (i : Nat) : Prop := (h.object? (.slot i)).isSome = true

instance (h : Heap) (i : Nat) : Decidable (h.Occupied i) :=
  inferInstanceAs (Decidable (_ = true))

/-- The indices of the occupied slots, in ascending order. -/
def occupiedSlots (h : Heap) : List Nat :=
  (List.range h.slots.size).filter fun i => (h.object? (.slot i)).isSome

/-- No slot has a mark, as between two collections. -/
def MarksClear (h : Heap) : Prop := ∀ slot ∈ h.slots, slot.marked = false

instance (h : Heap) : Decidable h.MarksClear :=
  inferInstanceAs (Decidable (∀ slot ∈ h.slots, slot.marked = false))

/-- A handle that may be held: nil, or one that names an occupied slot. -/
def Holds (h : Heap) (value : Value) : Prop := value = .nil ∨ ∃ i, value = .slot i ∧ h.Occupied i

section Views

variable {h : Heap} {i j : Nat} {o : Object} {v : Value}

@[simp]
theorem object?_nil (h : Heap) : h.object? .nil = none := rfl

theorem object?_slot (h : Heap) (i : Nat) :
    h.object? (.slot i) = h.slots[i]?.bind Slot.object := rfl

theorem occupied_iff : h.Occupied i ↔ ∃ o, h.object? (.slot i) = some o :=
  Option.isSome_iff_exists

theorem occupied_of_object? (found : h.object? (.slot i) = some o) : h.Occupied i :=
  occupied_iff.2 ⟨o, found⟩

theorem lt_size_of_occupied (occupied : h.Occupied i) : i < h.slots.size := by
  rcases occupied_iff.1 occupied with ⟨o, found⟩
  rw [object?_slot] at found
  by_contra outside
  have absent : h.slots[i]? = none := Array.getElem?_eq_none (Nat.le_of_not_lt outside)
  rw [absent] at found
  cases found

theorem mem_occupiedSlots_iff : i ∈ h.occupiedSlots ↔ h.Occupied i := by
  constructor
  · intro member
    exact (List.mem_filter.1 member).2
  · intro occupied
    refine List.mem_filter.2 ⟨?_, occupied⟩
    exact List.mem_range.2 (lt_size_of_occupied occupied)

theorem holds_nil (h : Heap) : h.Holds .nil := .inl rfl

theorem holds_slot_iff : h.Holds (.slot i) ↔ h.Occupied i := by
  constructor
  · rintro (isNil | ⟨j, same, occupied⟩)
    · cases isNil
    · cases same
      exact occupied
  · intro occupied
    exact .inr ⟨i, rfl, occupied⟩

theorem holds_of_object? (found : h.object? v = some o) : h.Holds v := by
  cases v with
  | nil => cases found
  | slot i => exact holds_slot_iff.2 (occupied_of_object? found)

end Views

/-! ## Reading through an object -/

section Readers

variable {h : Heap} {v car cdr : Value}

theorem pair?_eq_some_iff :
    h.pair? v = some (car, cdr) ↔ h.object? v = some (.pair car cdr) := by
  unfold pair?
  split
  · next found =>
    rw [found]
    constructor
    · intro same
      cases same
      rfl
    · intro same
      cases same
      rfl
  · next other =>
    constructor
    · intro impossible
      cases impossible
    · intro found
      exact absurd found (other car cdr)

theorem frame?_eq_some_iff {bindings : Value} {parent : Option Env} :
    h.frame? v = some (bindings, parent) ↔ h.object? v = some (.environment bindings parent) := by
  unfold frame?
  split
  · next found =>
    rw [found]
    constructor
    · intro same
      cases same
      rfl
    · intro same
      cases same
      rfl
  · next other =>
    constructor
    · intro impossible
      cases impossible
    · intro found
      exact absurd found (other bindings parent)

end Readers

/-- Nothing but the roots is different. -/
theorem addRoot_eq (h : Heap) (v : Value) : ∃ roots, h.addRoot v = { h with roots } := by
  cases v with
  | nil => exact ⟨h.roots, rfl⟩
  | slot i => exact ⟨_, rfl⟩

@[simp]
theorem object?_addRoot (h : Heap) (u v : Value) : (h.addRoot u).object? v = h.object? v := by
  unfold addRoot
  split
  · rfl
  · rfl

@[simp]
theorem object?_pin (h : Heap) (u v : Value) : (h.pin u).2.object? v = h.object? v := by
  unfold pin
  split
  · rfl
  · rfl

/-! ## Changes in place -/

section Changes

variable {h : Heap} {i : Nat} {o : Object}

theorem object?_put (h : Heap) (i : Nat) (o : Object) (j : Nat) :
    (h.put i o).object? (.slot j) =
      if i = j then if h.slots.size ≤ i then none else some o else h.object? (.slot j) := by
  simp only [object?_slot, put, Array.getElem?_modify]
  by_cases same : i = j
  · subst same
    by_cases outside : h.slots.size ≤ i
    · simp [outside]
    · have inside : i < h.slots.size := Nat.lt_of_not_le outside
      simp [outside, inside]
  · simp [same]

/-- Replacing the object of an occupied slot changes the view there and nowhere else. -/
theorem object?_put_of_occupied (occupied : h.Occupied i) (j : Nat) :
    (h.put i o).object? (.slot j) = if i = j then some o else h.object? (.slot j) := by
  rw [object?_put]
  have inside : ¬ h.slots.size ≤ i := Nat.not_le_of_lt (lt_size_of_occupied occupied)
  simp [inside]

theorem occupied_put_iff (occupied : h.Occupied i) (j : Nat) :
    (h.put i o).Occupied j ↔ h.Occupied j := by
  unfold Occupied
  rw [object?_put_of_occupied occupied]
  by_cases same : i = j
  · subst same
    have : (h.object? (.slot i)).isSome = true := occupied
    simp [this]
  · simp [same]

/-- Setting the cdr replaces a pair and leaves anything else alone. -/
theorem setCdr_cases (h : Heap) (p v : Value) :
    (∃ i car cdr, p = .slot i ∧ h.object? (.slot i) = some (.pair car cdr) ∧
      h.setCdr p v = h.put i (.pair car v)) ∨
    ((∀ car cdr, h.object? p ≠ some (.pair car cdr)) ∧ h.setCdr p v = h) := by
  cases p with
  | nil => exact .inr ⟨nofun, rfl⟩
  | slot i =>
      unfold setCdr
      split
      · next i' car cdr same found =>
        cases same
        exact .inl ⟨i, car, cdr, rfl, found, rfl⟩
      · next other => exact .inr ⟨fun car cdr found => other i car cdr rfl found, rfl⟩

/-- Setting the bindings replaces an environment and leaves anything else alone. -/
theorem setBindings_cases (h : Heap) (env : Env) (v : Value) :
    (∃ i bindings parent, env.value = .slot i ∧
      h.object? (.slot i) = some (.environment bindings parent) ∧
      h.setBindings env v = h.put i (.environment v parent)) ∨
    ((∀ bindings parent, h.object? env.value ≠ some (.environment bindings parent)) ∧
      h.setBindings env v = h) := by
  unfold setBindings
  split
  · next i bindings parent name found =>
    exact .inl ⟨i, bindings, parent, name, name ▸ found, rfl⟩
  · next other =>
    refine .inr ⟨fun bindings parent found => ?_, rfl⟩
    rcases name : env.value with _ | i
    · rw [name] at found
      cases found
    · exact other i bindings parent name found

theorem setBindings_eq {i : Nat} {bindings : Value} {parent : Option Env}
    (found : h.object? (.slot i) = some (.environment bindings parent)) (v : Value) :
    h.setBindings ⟨.slot i⟩ v = h.put i (.environment v parent) := by
  unfold setBindings
  rw [found]

end Changes

end Heap

end Lisplet
