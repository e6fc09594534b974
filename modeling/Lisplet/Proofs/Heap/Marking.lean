import Lisplet.Proofs.Heap.Reachability

/-!
# Marking — the worklist marks exactly the reachable slots

The invariant `Marking.Explores` relates a marking under way to the heap it was started on:
what is marked can be reached, where marking starts is marked, and a marked slot that is no
longer pending has all its references marked. One step of the worklist keeps it, and once
nothing is pending the marked slots are the least closed set.
-/

namespace Lisplet

namespace Marking

/-! ## One value -/

/-- The slot at an index has a mark. -/
def IsMarked (m : Marking) (i : Nat) : Prop := m.slots[i]?.map Slot.marked = some true

/-- The slot at an index holds an object. -/
def IsOccupied (m : Marking) (i : Nat) : Prop := (m.slots[i]?.bind Slot.object).isSome = true

section Visit

variable {m : Marking} {v : Value} {values : List Value} {i : Nat}

/-- Either a visit finds an occupied slot without a mark, or it changes nothing. -/
theorem visit_cases (m : Marking) (v : Value) :
    (∃ i o, v = .slot i ∧ m.slots[i]? = some ⟨some o, false⟩ ∧
      m.visit v = ⟨m.slots.setIfInBounds i ⟨some o, true⟩, i :: m.pending⟩) ∨
    (m.visit v = m ∧ ∀ i, v = .slot i → m.IsOccupied i → m.IsMarked i) := by
  cases v with
  | nil =>
      refine .inr ⟨rfl, ?_⟩
      intro i same
      cases same
  | slot j =>
      simp only [visit]
      split
      · next o found => exact .inl ⟨j, o, rfl, found, rfl⟩
      · next other =>
        -- Not the first pattern: the slot is empty or has its mark already.
        refine .inr ⟨rfl, ?_⟩
        intro i same occupied
        cases same
        unfold IsOccupied at occupied
        unfold IsMarked
        rcases slot : m.slots[j]? with _ | ⟨object, marked⟩
        · rw [slot] at occupied
          cases occupied
        · rw [slot] at occupied
          cases object with
          | none => cases occupied
          | some o =>
              cases marked with
              | false => exact absurd slot (other o)
              | true => rfl

/-- A visit changes no object. -/
theorem object_visit (m : Marking) (v : Value) (i : Nat) :
    (m.visit v).slots[i]?.map Slot.object = m.slots[i]?.map Slot.object := by
  rcases visit_cases m v with ⟨j, o, rfl, found, step⟩ | ⟨step, _⟩
  · rw [step, Array.getElem?_setIfInBounds]
    by_cases same : j = i
    · subst same
      have inside : j < m.slots.size := (Array.getElem?_eq_some_iff.1 found).1
      rw [if_pos rfl, if_pos inside, found]
      rfl
    · rw [if_neg same]
  · rw [step]

theorem isOccupied_congr {m m' : Marking}
    (same : ∀ i : Nat, m'.slots[i]?.map Slot.object = m.slots[i]?.map Slot.object) :
    m'.IsOccupied i ↔ m.IsOccupied i := by
  unfold IsOccupied
  rw [Slot.bind_object, Slot.bind_object, same i]

theorem isMarked_visit_iff :
    (m.visit v).IsMarked i ↔ m.IsMarked i ∨ (v = .slot i ∧ m.IsOccupied i) := by
  rcases visit_cases m v with ⟨j, o, rfl, found, step⟩ | ⟨step, old⟩
  · unfold IsMarked IsOccupied
    rw [step, Array.getElem?_setIfInBounds]
    by_cases same : j = i
    · subst same
      have inside : j < m.slots.size := (Array.getElem?_eq_some_iff.1 found).1
      rw [if_pos rfl, if_pos inside, found]
      simp
    · rw [if_neg same]
      simp [same]
  · rw [step]
    constructor
    · exact .inl
    · rintro (marked | ⟨rfl, occupied⟩)
      · exact marked
      · exact old i rfl occupied

theorem mem_pending_visit_iff :
    i ∈ (m.visit v).pending ↔
      i ∈ m.pending ∨ (v = .slot i ∧ m.IsOccupied i ∧ ¬ m.IsMarked i) := by
  rcases visit_cases m v with ⟨j, o, rfl, found, step⟩ | ⟨step, old⟩
  · rw [step]
    by_cases same : j = i
    · subst same
      simp [IsOccupied, IsMarked, found]
    · have different : ¬ i = j := fun eq => same eq.symm
      simp [same, different]
  · rw [step]
    constructor
    · exact .inl
    · rintro (pending | ⟨rfl, occupied, unmarked⟩)
      · exact pending
      · exact absurd (old i rfl occupied) unmarked

/-! ## Several values -/

theorem object_visitAll (m : Marking) (values : List Value) (i : Nat) :
    (m.visitAll values).slots[i]?.map Slot.object = m.slots[i]?.map Slot.object := by
  induction values generalizing m with
  | nil => rfl
  | cons v values ih => exact (ih (m.visit v)).trans (object_visit m v i)

theorem isMarked_visitAll_iff :
    (m.visitAll values).IsMarked i ↔ m.IsMarked i ∨ (.slot i ∈ values ∧ m.IsOccupied i) := by
  induction values generalizing m with
  | nil => simp [visitAll]
  | cons v values ih =>
      have step : (m.visitAll (v :: values)).IsMarked i ↔ _ := ih (m := m.visit v)
      rw [step, isMarked_visit_iff, isOccupied_congr (object_visit m v), List.mem_cons]
      constructor
      · rintro ((marked | ⟨rfl, occupied⟩) | ⟨member, occupied⟩)
        · exact .inl marked
        · exact .inr ⟨.inl rfl, occupied⟩
        · exact .inr ⟨.inr member, occupied⟩
      · rintro (marked | ⟨rfl | member, occupied⟩)
        · exact .inl (.inl marked)
        · exact .inl (.inr ⟨rfl, occupied⟩)
        · exact .inr ⟨member, occupied⟩

theorem mem_pending_visitAll_iff :
    i ∈ (m.visitAll values).pending ↔
      i ∈ m.pending ∨ (.slot i ∈ values ∧ m.IsOccupied i ∧ ¬ m.IsMarked i) := by
  induction values generalizing m with
  | nil => simp [visitAll]
  | cons v values ih =>
      have step : i ∈ (m.visitAll (v :: values)).pending ↔ _ := ih (m := m.visit v)
      rw [step, mem_pending_visit_iff, isMarked_visit_iff, isOccupied_congr (object_visit m v),
        List.mem_cons]
      constructor
      · rintro ((pending | ⟨rfl, occupied, fresh⟩) | ⟨member, occupied, fresh⟩)
        · exact .inl pending
        · exact .inr ⟨.inl rfl, occupied, fresh⟩
        · exact .inr ⟨.inr member, occupied, fun marked => fresh (.inl marked)⟩
      · rintro (pending | ⟨rfl | member, occupied, fresh⟩)
        · exact .inl (.inl pending)
        · exact .inl (.inr ⟨rfl, occupied, fresh⟩)
        · -- The slot may be listed twice; it becomes pending with the first visit.
          by_cases same : v = .slot i
          · exact .inl (.inr ⟨same, occupied, fresh⟩)
          · refine .inr ⟨member, occupied, ?_⟩
            rintro (marked | ⟨eq, _⟩)
            · exact fresh marked
            · exact same eq

end Visit

/-! ## The worklist -/

/-- A marking that was started on the slots of `h` at the values satisfying `start`. -/
structure Explores (h : Heap) (start : Value → Prop) (m : Marking) : Prop where
  objects : ∀ i : Nat, m.slots[i]?.map Slot.object = h.slots[i]?.map Slot.object
  reached : ∀ i, m.IsMarked i → h.ReachableFrom start i
  started : ∀ i, start (.slot i) → h.Occupied i → m.IsMarked i
  pending : ∀ i ∈ m.pending, m.IsMarked i
  followed : ∀ i, m.IsMarked i → i ∉ m.pending →
    ∀ j, .slot j ∈ referencesAt h.slots i → h.Occupied j → m.IsMarked j

namespace Explores

variable {h : Heap} {start : Value → Prop} {m : Marking} {i j : Nat}

theorem isOccupied_iff (e : m.Explores h start) : m.IsOccupied i ↔ h.Occupied i :=
  isOccupied_congr (m := ⟨h.slots, []⟩) e.objects

theorem referencesAt_eq (e : m.Explores h start) (i : Nat) :
    referencesAt m.slots i = referencesAt h.slots i := by
  unfold referencesAt
  rw [Slot.bind_object, Slot.bind_object, e.objects i]

/-- A reference of a reached slot reaches further. -/
theorem reachableFrom_of_mem_referencesAt (reached : h.ReachableFrom start i)
    (member : .slot j ∈ referencesAt h.slots i) (occupied : h.Occupied j) :
    h.ReachableFrom start j := by
  rcases Heap.occupied_iff.1 reached.occupied with ⟨o, found⟩
  have listed : .slot j ∈ o.references := by
    have view : h.slots[i]?.bind Slot.object = some o := found
    simpa only [referencesAt, view, Option.map_some, Option.getD_some] using member
  exact .reference reached found listed occupied

/-- Following the references of one pending slot keeps the invariant. -/
theorem follow (e : m.Explores h start) {pending : List Nat} (next : m.pending = i :: pending) :
    Explores h start ({ m with pending }.visitAll (referencesAt m.slots i)) := by
  have isMarked : m.IsMarked i := e.pending i (next ▸ List.mem_cons_self)
  rw [e.referencesAt_eq]
  constructor
  · intro k
    exact (object_visitAll _ _ k).trans (e.objects k)
  · intro k marked
    rcases isMarked_visitAll_iff.1 marked with old | ⟨member, occupied⟩
    · exact e.reached k old
    · exact reachableFrom_of_mem_referencesAt (e.reached i isMarked) member
        (e.isOccupied_iff.1 occupied)
  · intro k starts occupied
    exact isMarked_visitAll_iff.2 (.inl (e.started k starts occupied))
  · intro k member
    rcases mem_pending_visitAll_iff.1 member with old | ⟨listed, occupied, _⟩
    · exact isMarked_visitAll_iff.2 (.inl (e.pending k (next ▸ List.mem_cons_of_mem i old)))
    · exact isMarked_visitAll_iff.2 (.inr ⟨listed, occupied⟩)
  · -- A slot that is marked and not pending either is the one just taken from the list, or was
    -- marked and not pending before.
    intro k marked settled j listed occupied
    have occupiedThere : m.IsOccupied j := e.isOccupied_iff.2 occupied
    by_cases same : k = i
    · -- The slot just taken from the list: its references are the ones visited.
      subst same
      exact isMarked_visitAll_iff.2 (.inr ⟨listed, occupiedThere⟩)
    · have oldMark : m.IsMarked k := by
        by_contra unmarked
        rcases isMarked_visitAll_iff.1 marked with old | ⟨member, isOccupied⟩
        · exact unmarked old
        · exact settled (mem_pending_visitAll_iff.2 (.inr ⟨member, isOccupied, unmarked⟩))
      have oldSettled : k ∉ m.pending := by
        intro member
        rw [next] at member
        rcases List.mem_cons.1 member with eq | member
        · exact same eq
        · exact settled (mem_pending_visitAll_iff.2 (.inl member))
      exact isMarked_visitAll_iff.2 (.inl (e.followed k oldMark oldSettled j listed occupied))

/-- Marking the values to start from establishes the invariant on a heap without marks. -/
theorem initial (clear : h.MarksClear) (starts : List Value) :
    Explores h (· ∈ starts) (visitAll { slots := h.slots, pending := [] } starts) := by
  have unmarked : ∀ i, ¬ IsMarked ⟨h.slots, []⟩ i := by
    intro i marked
    unfold IsMarked at marked
    rcases Option.map_eq_some_iff.1 marked with ⟨slot, found, isMarked⟩
    have := clear slot (Array.mem_of_getElem? found)
    rw [this] at isMarked
    cases isMarked
  have marked_iff : ∀ i, IsMarked (visitAll ⟨h.slots, []⟩ starts) i ↔
      .slot i ∈ starts ∧ h.Occupied i := by
    intro i
    constructor
    · intro marked
      rcases isMarked_visitAll_iff.1 marked with old | new
      · exact absurd old (unmarked i)
      · exact new
    · intro new
      exact isMarked_visitAll_iff.2 (.inr new)
  constructor
  · intro i
    exact object_visitAll _ _ i
  · intro i marked
    rcases (marked_iff i).1 marked with ⟨member, occupied⟩
    exact .start member occupied
  · intro i starts occupied
    exact (marked_iff i).2 ⟨starts, occupied⟩
  · intro i member
    rcases mem_pending_visitAll_iff.1 member with old | ⟨listed, occupied, _⟩
    · cases old
    · exact (marked_iff i).2 ⟨listed, occupied⟩
  · intro i marked settled
    rcases (marked_iff i).1 marked with ⟨member, occupied⟩
    have isPending := mem_pending_visitAll_iff (m := ⟨h.slots, []⟩).2
      (.inr ⟨member, occupied, unmarked i⟩)
    exact absurd isPending settled

/-- With nothing pending, the marked slots are those that can be reached. -/
theorem isMarked_iff (e : m.Explores h start) (done : m.pending = []) :
    m.IsMarked i ↔ h.ReachableFrom start i := by
  constructor
  · exact e.reached i
  · intro reached
    -- Induction on the path: with nothing pending every marked slot has been followed.
    induction reached with
    | start starts occupied => exact e.started _ starts occupied
    | @reference i j o before found member occupied ih =>
        have settled : i ∉ m.pending := by
          rw [done]
          exact List.not_mem_nil
        have listed : .slot j ∈ referencesAt h.slots i := by
          have view : h.slots[i]?.bind Slot.object = some o := found
          simpa only [referencesAt, view, Option.map_some, Option.getD_some] using member
        exact e.followed i ih settled j listed occupied

end Explores

/-! ## The finished marks -/

/-- The worklist keeps the invariant to its end. -/
theorem exists_explores_finish {h : Heap} {start : Value → Prop} (m : Marking)
    (e : m.Explores h start) :
    Explores h start { slots := m.finish, pending := [] } := by
  -- Induction on the rounds of the worklist; `follow` carries the invariant through one of them.
  induction m using finish.induct with
  | case1 m done =>
      have ended : m.finish = m.slots := by
        rw [finish]
        split
        · rfl
        · next more => rw [done] at more; cases more
      have same : m = { slots := m.slots, pending := [] } := by rw [← done]
      rw [ended, ← same]
      exact e
  | case2 m i pending next ih =>
      have continues :
          m.finish = finish ({ m with pending }.visitAll (referencesAt m.slots i)) := by
        rw [finish]
        split
        · next done => rw [done] at next; cases next
        · next more => rw [more] at next; cases next; rfl
      rw [continues]
      exact ih (e.follow next)

end Marking

namespace Heap

open Classical in
/--
What marking leaves in a slot: the object that was there, and a mark exactly if the slot
can be reached from the values that marking started from.
-/
theorem markFrom_slots {h : Heap} (clear : h.MarksClear) (starts : List Value) (i : Nat) :
    (h.markFrom starts).slots[i]? =
      h.slots[i]?.map fun slot => ⟨slot.object, decide (h.ReachableFrom (· ∈ starts) i)⟩ := by
  have e := Marking.exists_explores_finish _ (Marking.Explores.initial clear starts)
  have marked := e.isMarked_iff (i := i) rfl
  have object := e.objects i
  unfold Marking.IsMarked at marked
  simp only [markFrom]
  simp only at object marked
  -- Marking changes no object, so the same indices are in range before and after.
  rcases before : h.slots[i]? with _ | old
  · rw [before] at object
    simpa using object
  · rw [before] at object
    rcases Option.map_eq_some_iff.1 object with ⟨new, found, same⟩
    rw [found] at marked ⊢
    simp only [Option.map_some, Option.some.injEq] at marked ⊢
    by_cases reached : h.ReachableFrom (· ∈ starts) i
    · have isMarked : new.marked = true := marked.2 reached
      simp only [reached, decide_true, ← same, ← isMarked]
    · have isMarked : new.marked = false := by
        cases value : new.marked with
        | false => rfl
        | true => exact absurd (marked.1 value) reached
      simp only [reached, decide_false, ← same, ← isMarked]

end Heap

end Lisplet
