import Lisplet.Heap.Basic

/-!
# Collection

A collection marks the slots that can be reached and then sweeps the arena. Marking
follows references from a list of slots still to be looked at. A slot is put on that
list only when it is first marked, so cycles do no harm; the number of unmarked slots,
and then the length of the list, go down at every step.
-/

namespace Lisplet

/-- Marking under way: the arena, and the marked slots with references still to follow. -/
structure Marking where
  slots : Array Slot
  pending : List Nat

namespace Marking

/-- Marks the slot of a value, if it is occupied and not marked yet. -/
def visit (m : Marking) : Value → Marking
  | .nil => m
  | .slot index =>
    match m.slots[index]? with
    | some ⟨some object, false⟩ =>
      { slots := m.slots.setIfInBounds index ⟨some object, true⟩
        pending := index :: m.pending }
    | _ => m

def visitAll (m : Marking) (values : List Value) : Marking := values.foldl visit m

/-- What the slot at an index refers to. -/
def referencesAt (slots : Array Slot) (index : Nat) : List Value :=
  ((slots[index]?.bind Slot.object).map Object.references).getD []

/-- How many slots are not marked. -/
def unmarked (m : Marking) : Nat := m.slots.toList.countP fun slot => !slot.marked

theorem countP_set_lt {l : List Slot} {index : Nat} {object : Option Object}
    (h : l[index]? = some ⟨object, false⟩) :
    (l.set index ⟨object, true⟩).countP (fun slot => !slot.marked) <
      l.countP fun slot => !slot.marked := by
  induction l generalizing index with
  | nil => simp at h
  | cons slot l ih =>
    cases index with
    | zero =>
      have hs : slot = ⟨object, false⟩ := by simpa using h
      subst hs
      simp
    | succ index =>
      have h' : l[index]? = some ⟨object, false⟩ := by simpa using h
      have := ih h'
      simp only [List.set_cons_succ, List.countP_cons]
      omega

theorem visit_eq_or_lt (m : Marking) (value : Value) :
    m.visit value = m ∨ (m.visit value).unmarked < m.unmarked := by
  cases value with
  | nil => exact .inl rfl
  | slot index =>
    simp only [visit]
    split
    · next object found =>
      refine .inr ?_
      have hm : m.slots.toList[index]? = some ⟨some object, false⟩ := by
        rw [Array.getElem?_toList, found]
      have := countP_set_lt hm
      simpa only [unmarked, Array.toList_setIfInBounds] using this
    · exact .inl rfl

theorem visitAll_eq_or_lt (m : Marking) (values : List Value) :
    m.visitAll values = m ∨ (m.visitAll values).unmarked < m.unmarked := by
  induction values generalizing m with
  | nil => exact .inl rfl
  | cons value values ih =>
    have hv := m.visit_eq_or_lt value
    have hr := ih (m.visit value)
    simp only [visitAll, List.foldl_cons] at hr ⊢
    rcases hr with hr | hr
    · rw [hr]; exact hv
    · rcases hv with hv | hv
      · rw [hv] at hr ⊢; exact .inr hr
      · exact .inr (Nat.lt_trans hr hv)

/-- Follows references until none is left to follow. The result is the marked arena. -/
def finish (m : Marking) : Array Slot :=
  match _hp : m.pending with
  | [] => m.slots
  | index :: pending =>
    finish ({ m with pending }.visitAll (referencesAt m.slots index))
termination_by (m.unmarked, m.pending.length)
decreasing_by
  have h := visitAll_eq_or_lt { m with pending } (referencesAt m.slots index)
  rcases h with h | h
  · rw [h]
    have : m.pending.length = pending.length + 1 := by simp [_hp]
    exact Prod.Lex.right _ (by simp [this])
  · exact Prod.Lex.left _ _ h

end Marking

/-- What a collection did. -/
structure Collected where
  /-- How many slots it emptied. -/
  freed : Nat
  /-- How many slots are still occupied. -/
  live : Nat
  deriving DecidableEq, Repr

namespace Slot

/-- A slot as the sweep leaves it: emptied unless it is marked, and without a mark. -/
def swept (slot : Slot) : Slot := ⟨if slot.marked then slot.object else none, false⟩

/-- Whether the sweep empties a slot. -/
def isGarbage (slot : Slot) : Bool := slot.object.isSome && !slot.marked

end Slot

namespace Heap

/--
The values from which collection starts, with the interned symbols in the order in
which the table happens to be visited.
-/
def startsIn (h : Heap) (symbols : List Value) : List Value :=
  h.rootEnv.value :: (symbols ++ h.roots.values.reverse ++ h.pins.toList.filterMap id)

/-- Marks every slot that can be reached from some values. -/
def markFrom (h : Heap) (starts : List Value) : Heap :=
  { h with slots := (Marking.visitAll { slots := h.slots, pending := [] } starts).finish }

/-- The occupied slots without a mark, in ascending order. -/
def garbage (h : Heap) : List Nat :=
  (List.range h.slots.size).filter fun index => h.slots[index]?.any Slot.isGarbage

/--
Empties the occupied slots without a mark. They are used again before all other
free slots, the highest first.
-/
def sweep (h : Heap) : Heap × Collected :=
  let freed := h.garbage
  let live := h.live - freed.length
  ({ h with
      slots := h.slots.map Slot.swept
      free := freed.reverse ++ h.free
      live
      collections := h.collections + 1 },
    { freed := freed.length, live })

/-- A collection that visits the symbol table in a given order. -/
def collectIn (h : Heap) (symbols : List Value) : Heap × Collected :=
  (h.markFrom (h.startsIn symbols)).sweep

/-- Empties every slot that cannot be reached. -/
def collect (h : Heap) : Heap × Collected := h.collectIn (h.symbols.toList.map Prod.snd)

end Heap

end Lisplet
