import Lisplet.Proofs.Heap.Collection
import Mathlib.Data.List.Nodup

/-!
# Tidy — where the next object goes

The elementary changes of the arena are a collection, an object in an empty slot and another
object in an occupied one. That the empty slot which is filled is empty indeed depends on the free
list only: `Tidy` says what it must be like, and that it stays so. It holds whatever the objects
refer to, and whatever the roots are.
-/

namespace Lisplet

namespace Heap

/-- The free list names empty slots of the arena, each of them once, and no slot is marked. -/
structure Tidy (h : Heap) : Prop where
  free_nodup : h.free.Nodup
  free_empty : ∀ i ∈ h.free, i < h.slots.size ∧ ¬ h.Occupied i
  marksClear : h.MarksClear

/-- Only the arena and the free list count. -/
theorem Tidy.transfer {h h' : Heap} (t : h.Tidy) (slots : h'.slots = h.slots)
    (free : h'.free = h.free) : h'.Tidy := by
  have same : ∀ v, h'.object? v = h.object? v := fun v => by
    unfold object?
    rw [slots]
  refine ⟨free ▸ t.free_nodup, fun i member => ?_, fun slot member => ?_⟩
  · rcases t.free_empty i (free ▸ member) with ⟨inside, empty⟩
    refine ⟨slots ▸ inside, fun occupied => empty ?_⟩
    rwa [Occupied, same] at occupied
  · exact t.marksClear slot (slots ▸ member)

/-! ## Collecting -/

theorem Tidy.collect {h : Heap} (t : h.Tidy) : h.collect.1.Tidy := by
  have clear := t.marksClear
  have emptied := mem_garbage_iff clear
  -- The emptied slots come in front of those that were free before.
  have free : h.collect.1.free =
      (h.markFrom (h.startsIn (h.symbols.toList.map Prod.snd))).garbage.reverse ++ h.free := rfl
  refine ⟨?_, fun i member => ?_, marksClear_collect clear⟩
  · rw [free]
    refine List.nodup_append.2 ⟨?_, t.free_nodup, ?_⟩
    · exact List.nodup_reverse.2 ((garbage_sorted _).imp Nat.ne_of_lt)
    · -- What has just been emptied was occupied before, so it was not free.
      intro i isEmptied j isFree same
      subst same
      exact (t.free_empty i isFree).2 ((emptied i).1 (List.mem_reverse.1 isEmptied)).1
  · rw [size_collect clear, occupied_collect_iff clear]
    rw [free, List.mem_append, List.mem_reverse, emptied] at member
    rcases member with ⟨before, unreached⟩ | isFree
    · exact ⟨lt_size_of_occupied before, fun both => unreached both.2⟩
    · exact ⟨(t.free_empty i isFree).1, fun both => (t.free_empty i isFree).2 both.1⟩

/-! ## Filling a slot -/

/-- `h'` is `h` with an object in a slot that was empty, and is the same otherwise. -/
structure Places (h : Heap) (i : Nat) (o : Object) (h' : Heap) : Prop where
  fresh : ¬ h.Occupied i
  object?_eq : ∀ v, h'.object? v = if v = .slot i then some o else h.object? v
  unchanged : h' = { h with slots := h'.slots, free := h'.free, live := h'.live }

section Placing

variable {h h' : Heap} {i j : Nat} {o : Object} {v : Value}

namespace Places

theorem object?_new (p : Places h i o h') : h'.object? (.slot i) = some o := by
  rw [p.object?_eq, if_pos rfl]

theorem object?_old (p : Places h i o h') (occupied : h.Occupied j) :
    h'.object? (.slot j) = h.object? (.slot j) := by
  rw [p.object?_eq, if_neg]
  intro same
  cases same
  exact p.fresh occupied

theorem occupied_iff (p : Places h i o h') : h'.Occupied j ↔ j = i ∨ h.Occupied j := by
  unfold Occupied
  rw [p.object?_eq]
  by_cases same : j = i
  · subst same
    simp
  · simp [same]

theorem holds_new (p : Places h i o h') : h'.Holds (.slot i) :=
  holds_slot_iff.2 (p.occupied_iff.2 (.inl rfl))

theorem holds (p : Places h i o h') (held : h.Holds v) : h'.Holds v := by
  cases v with
  | nil => exact holds_nil _
  | slot j => exact holds_slot_iff.2 (p.occupied_iff.2 (.inr (holds_slot_iff.1 held)))

theorem isRoot_iff (p : Places h i o h') : h'.IsRoot v ↔ h.IsRoot v := by
  rw [p.unchanged]
  exact ⟨IsRoot.transfer rfl rfl rfl rfl, IsRoot.transfer rfl rfl rfl rfl⟩

end Places

/-- Where the next object goes, and the arena afterwards. -/
theorem insert_eq (h : Heap) (o : Object) :
    ∃ i slots free, h.insert o = (.slot i, { h with slots, free, live := h.live + 1 }) ∧
      ((h.free = i :: free ∧ slots = h.slots.setIfInBounds i ⟨some o, false⟩) ∨
        (h.free = [] ∧ free = [] ∧ i = h.slots.size ∧ slots = h.slots.push ⟨some o, false⟩)) := by
  unfold insert
  split
  · next i free next =>
    exact ⟨i, _, free, rfl, .inl ⟨next, rfl⟩⟩
  · next none =>
    refine ⟨h.slots.size, _, [], ?_, .inr ⟨none, rfl, rfl, rfl⟩⟩
    rw [none]

/-- The next object goes into an empty slot, and nothing else changes. -/
theorem Tidy.places_insert (t : h.Tidy) (o : Object) :
    ∃ i, (h.insert o).1 = .slot i ∧ h.Places i o (h.insert o).2 := by
  rcases insert_eq h o with ⟨i, slots, free, step, ⟨next, rfl⟩ | ⟨_, _, rfl, rfl⟩⟩
  · -- Either the free list has a slot, or the arena is full and grows by one.
    have isFree := t.free_empty i (next ▸ List.mem_cons_self)
    refine ⟨i, by rw [step], isFree.2, ?_, by rw [step]⟩
    intro v
    rw [step]
    cases v with
    | nil => rfl
    | slot j =>
        simp only [object?_slot, Array.getElem?_setIfInBounds, Value.slot.injEq]
        by_cases same : i = j
        · subst same
          simp [isFree.1]
        · have different : ¬ j = i := fun eq => same eq.symm
          simp [same, different]
  · have fresh : ¬ h.Occupied h.slots.size := fun occupied =>
      Nat.lt_irrefl _ (lt_size_of_occupied occupied)
    refine ⟨h.slots.size, by rw [step], fresh, ?_, by rw [step]⟩
    intro v
    rw [step]
    cases v with
    | nil => rfl
    | slot j =>
        simp only [object?_slot, Array.getElem?_push, Value.slot.injEq]
        by_cases same : j = h.slots.size
        · simp [same]
        · simp [same]

/-- The slot that is filled is no longer free, and the others that are still are empty. -/
theorem Tidy.insert (t : h.Tidy) (o : Object) : (h.insert o).2.Tidy := by
  rcases t.places_insert o with ⟨i, value, p⟩
  rcases insert_eq h o with ⟨k, slots, free, step, ⟨next, rfl⟩ | ⟨_, rfl, rfl, rfl⟩⟩
  · have nodup := List.nodup_cons.1 (next ▸ t.free_nodup)
    refine ⟨by rw [step]; exact nodup.2, fun j member => ?_, ?_⟩
    · rw [p.occupied_iff]
      rw [step] at member value ⊢
      cases value
      rcases t.free_empty j (next ▸ List.mem_cons_of_mem _ member) with ⟨inside, unoccupied⟩
      refine ⟨by simpa using inside, fun either => either.elim ?_ unoccupied⟩
      rintro rfl
      exact nodup.1 member
    · intro slot member
      rw [step] at member
      rcases Array.mem_or_eq_of_mem_setIfInBounds member with old | rfl
      · exact t.marksClear slot old
      · rfl
  · refine ⟨by rw [step]; exact List.nodup_nil, fun j member => ?_, fun slot member => ?_⟩
    · rw [step] at member
      cases member
    · rw [step] at member
      rcases Array.mem_push.1 member with old | rfl
      · exact t.marksClear slot old
      · rfl

end Placing

/-! ## Replacing an object -/

section Replacing

variable {h : Heap} {i : Nat} {o : Object} {v : Value}

/-- A slot that a change in place leaves alone reads as before. -/
theorem object?_put_ne (different : v ≠ .slot i) : (h.put i o).object? v = h.object? v := by
  cases v with
  | nil => rfl
  | slot j =>
      rw [object?_put, if_neg]
      intro same
      exact different (congrArg Value.slot same.symm)

theorem object?_put_self (occupied : h.Occupied i) : (h.put i o).object? (.slot i) = some o := by
  rw [object?_put_of_occupied occupied, if_pos rfl]

theorem Tidy.put (t : h.Tidy) (o : Object) (occupied : h.Occupied i) : (h.put i o).Tidy := by
  have size : (h.put i o).slots.size = h.slots.size := Array.size_modify
  refine ⟨t.free_nodup, fun j member => ?_, fun slot member => ?_⟩
  · rw [size, occupied_put_iff occupied]
    exact t.free_empty j member
  · rcases Array.mem_iff_getElem?.1 member with ⟨j, listed⟩
    have listed : (h.slots.modify i fun slot => { slot with object := some o })[j]? =
      some slot := listed
    rw [Array.getElem?_modify] at listed
    split at listed
    · rcases Option.map_eq_some_iff.1 listed with ⟨before, there, rfl⟩
      exact t.marksClear before (Array.mem_of_getElem? there)
    · exact t.marksClear slot (Array.mem_of_getElem? listed)

end Replacing

end Heap

end Lisplet
