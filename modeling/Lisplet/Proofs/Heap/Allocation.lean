import Lisplet.Proofs.Heap.Demand

/-!
# Allocation — memory runs out exactly when it must

`Heap.Allocates` says what an allocation is to do: it fails if the heap is full of what is needed
and for no other reason, it keeps what is needed wherever that is, it puts the object into the next
slot that is free, and it collects once at most. An allocation on its own does so with what the
roots need. An operation that roots its operands meanwhile does so with the operands as well
(`Constructs.allocates`), and each constructor of a compound is one.
-/

namespace Lisplet

open Heap.Operation (heapAfter)

namespace Heap

/-! ## One allocation -/

theorem heapAfter_of_ok {α : Type} {h h' : Heap} {op : HeapM Fatal α} {a : α}
    (succeeds : op h = .ok a h') : heapAfter op h = h' := by
  unfold heapAfter
  rw [succeeds]

/--
The slots that an allocation empties to make room, in ascending order: none if there is room, and
otherwise all that is not needed.
-/
structure Empties (h : Heap) (operands : List Value) (emptied : List Nat) : Prop where
  ascending : emptied.Pairwise (· < ·)
  mem_iff : ∀ i, i ∈ emptied ↔ h.capacity ≤ h.live ∧ h.Occupied i ∧ ¬ h.Needed operands i

/--
What an operation is to do that puts a new object into the heap and works with `operands`. The slot
that is used is the next free one: the last one that has been emptied, or the first on the free list
if none has been, or one at the end of the arena if there is none on the list either.
-/
structure Allocates (h : Heap) (operands : List Value) (o : Object) (op : HeapM Fatal Value) :
    Prop where
  fails_iff : (∃ e h', op h = .error e h') ↔
    h.capacity ≤ h.live ∧ h.capacity ≤ h.demand operands
  failed : ∀ e h', op h = .error e h' →
    e = .outOfMemory (h.demand operands) h.capacity ∧ ∀ i, h'.Occupied i ↔ h.Needed operands i
  made : ∀ v h', op h = .ok v h' → ∃ i emptied, v = .slot i ∧ h.Empties operands emptied ∧
    i = (emptied.reverse ++ h.free).headD h.slots.size ∧ ¬ h.Needed operands i ∧
    h'.object? (.slot i) = some o ∧
    ∀ j, j ≠ i → h'.Occupied j → h.Intact h' j ∧ ¬ h.ReachableFrom (· = .slot j) i
  kept : ∀ i, h.Needed operands i → (heapAfter op h).object? (.slot i) = h.object? (.slot i)
  unchanged : ∃ slots free live, heapAfter op h = { h with
    slots, free, live, collections := h.collections + if h.capacity ≤ h.live then 1 else 0 }

theorem insert_headD (h : Heap) (o : Object) :
    (h.insert o).1 = .slot (h.free.headD h.slots.size) := by
  rcases insert_eq h o with ⟨i, _, _, step, ⟨next, _⟩ | ⟨none, _, rfl, _⟩⟩
  · rw [step, next]
    rfl
  · rw [step, none]
    rfl

theorem collections_makeRoom (h : Heap) :
    h.makeRoom.collections = h.collections + if h.capacity ≤ h.live then 1 else 0 := by
  unfold makeRoom
  split
  · rfl
  · rfl

/-- An allocation changes the arena and what belongs to it, and counts its collection. -/
theorem heapAfter_allocate (h : Heap) (o : Object) :
    ∃ slots free live, heapAfter (HeapM.allocate o) h = { h with
      slots, free, live, collections := h.collections + if h.capacity ≤ h.live then 1 else 0 } := by
  rw [← collections_makeRoom]
  have room := makeRoom_eq h
  unfold heapAfter
  rcases HeapM.allocate_cases h o with ⟨_, step⟩ | ⟨_, step⟩
  · rcases insert_eq h.makeRoom o with ⟨_, slots, free, inserted, _⟩
    refine ⟨slots, free, h.makeRoom.live + 1, ?_⟩
    rw [step, inserted, room]
  · refine ⟨h.makeRoom.slots, h.makeRoom.free, h.makeRoom.live, ?_⟩
    rw [step]
    exact room

namespace Counted

variable {h : Heap} {operands : List Value} {o : Object}

theorem makeRoom (c : h.Counted) : h.makeRoom.Counted := by
  unfold Heap.makeRoom
  split
  · exact ⟨c.toTidy.collect, live_collect c.marksClear c.live_eq⟩
  · exact c

theorem insert (c : h.Counted) (o : Object) : (h.insert o).2.Counted := by
  refine ⟨c.toTidy.insert o, ?_⟩
  rcases c.toTidy.places_insert o with ⟨_, _, p⟩
  rcases insert_eq h o with ⟨_, _, _, step, _⟩
  rw [p.length_occupiedSlots, ← c.live_eq, step]

theorem allocate (c : h.Counted) (o : Object) : (heapAfter (HeapM.allocate o) h).Counted := by
  unfold heapAfter
  rcases HeapM.allocate_cases h o with ⟨_, step⟩ | ⟨_, step⟩
  · rw [step]
    exact c.makeRoom.insert o
  · rw [step]
    exact c.makeRoom

/-- A full heap is left with what is needed. -/
theorem occupied_makeRoom_iff (c : h.Counted) (full : h.capacity ≤ h.live) (i : Nat) :
    h.makeRoom.Occupied i ↔ h.Needed [] i := by
  rw [Heap.makeRoom, if_pos full, occupied_collect_iff c.marksClear, needed_nil_iff]
  exact ⟨And.right, fun reached => ⟨reached.occupied, reached⟩⟩

theorem live_makeRoom (c : h.Counted) (full : h.capacity ≤ h.live) :
    h.makeRoom.live = h.demand [] := by
  rw [c.makeRoom.live_eq]
  refine (demand_eq_length (occupiedSlots_nodup _) fun i => ?_).symm
  rw [mem_occupiedSlots_iff, c.occupied_makeRoom_iff full]

theorem empties_makeRoom (c : h.Counted) :
    ∃ emptied, h.Empties [] emptied ∧ h.makeRoom.free = emptied.reverse ++ h.free := by
  unfold Heap.makeRoom
  split
  · next full =>
    refine ⟨(h.markFrom (h.startsIn (h.symbols.toList.map Prod.snd))).garbage,
      ⟨garbage_sorted _, fun i => ?_⟩, rfl⟩
    rw [mem_garbage_iff c.marksClear, needed_nil_iff, and_iff_right full]
  · next room =>
    refine ⟨[], ⟨.nil, fun i => ?_⟩, rfl⟩
    simp [room]

/-- What is still there when there is room is there with all that it refers to. -/
theorem object?_makeRoom (c : h.Counted) {i k : Nat} (occupied : h.makeRoom.Occupied i)
    (leads : h.ReachableFrom (· = .slot i) k) :
    h.makeRoom.object? (.slot k) = h.object? (.slot k) := by
  unfold Heap.makeRoom at occupied ⊢
  split
  · next full =>
    rw [if_pos full] at occupied
    have reached := ((occupied_collect_iff c.marksClear i).1 occupied).2
    exact object?_collect_of_reachable c.marksClear (reached.trans leads)
  · rfl

theorem occupied_of_makeRoom (c : h.Counted) {i : Nat} (occupied : h.makeRoom.Occupied i) :
    h.Occupied i := by
  unfold Heap.makeRoom at occupied
  split at occupied
  · exact ((occupied_collect_iff c.marksClear i).1 occupied).1
  · exact occupied

theorem size_makeRoom (c : h.Counted) : h.makeRoom.slots.size = h.slots.size := by
  unfold Heap.makeRoom
  split
  · exact size_collect c.marksClear
  · rfl

/-- An allocation fails if the heap is full and what the roots need fills it. -/
theorem allocate_cases (c : h.Counted) (o : Object) :
    (¬ (h.capacity ≤ h.live ∧ h.capacity ≤ h.demand []) ∧
      HeapM.allocate o h = .ok (h.makeRoom.insert o).1 (h.makeRoom.insert o).2) ∨
    (h.capacity ≤ h.live ∧ h.capacity ≤ h.demand [] ∧
      HeapM.allocate o h = .error (.outOfMemory (h.demand []) h.capacity) h.makeRoom) := by
  rcases HeapM.allocate_cases h o with ⟨room, step⟩ | ⟨none, step⟩
  · refine .inl ⟨fun need => ?_, step⟩
    rw [c.live_makeRoom need.1] at room
    exact Nat.not_le_of_lt room need.2
  · have full : h.capacity ≤ h.live := by
      by_contra room
      rw [Heap.makeRoom, if_neg room] at none
      exact room none
    rw [c.live_makeRoom full] at none step
    exact .inr ⟨full, none, step⟩

/--
The slot that is filled is the next free one and not needed for anything else, and whatever else is
still there is intact.
-/
theorem exists_slot (c : h.Counted) (o : Object) :
    ∃ i emptied, (h.makeRoom.insert o).1 = .slot i ∧ h.Empties [] emptied ∧
      i = (emptied.reverse ++ h.free).headD h.slots.size ∧ ¬ h.Needed [] i ∧
      (h.makeRoom.insert o).2.object? (.slot i) = some o ∧
      ∀ j, j ≠ i → (h.makeRoom.insert o).2.Occupied j →
        h.Intact (h.makeRoom.insert o).2 j ∧ ¬ h.ReachableFrom (· = .slot j) i := by
  rcases c.empties_makeRoom with ⟨emptied, empties, free⟩
  rcases c.makeRoom.toTidy.places_insert o with ⟨i, value, p⟩
  have next := insert_headD h.makeRoom o
  rw [value, free, c.size_makeRoom] at next
  refine ⟨i, emptied, value, empties, Value.slot.inj next, fun needed => ?_, p.object?_new, ?_⟩
  · -- Making room keeps what is needed, but this slot is empty afterwards.
    have kept := (Saved.refl c.toTidy).makeRoom.reachable (needed_nil_iff.1 needed)
    exact p.fresh kept.occupied
  · intro j other occupied
    have before := (p.occupied_iff.1 occupied).resolve_left other
    have stays {k : Nat} (leads : h.ReachableFrom (· = .slot j) k) : h.makeRoom.Occupied k := by
      rw [Occupied, c.object?_makeRoom before leads]
      exact leads.occupied
    have self := c.occupied_of_makeRoom before
    refine ⟨⟨self, fun k leads => ?_⟩, fun leads => p.fresh (stays leads)⟩
    exact (p.object?_old (stays leads)).trans (c.object?_makeRoom before leads)

/-- An allocation on its own needs what the roots need. -/
theorem allocates (c : h.Counted) (o : Object) : h.Allocates [] o (HeapM.allocate o) := by
  have kept (i : Nat) (needed : h.Needed [] i) :
      (heapAfter (HeapM.allocate o) h).object? (.slot i) = h.object? (.slot i) :=
    ((Saves.allocate h o).saved (.refl c.toTidy)).kept i (needed_nil_iff.1 needed)
  rcases c.allocate_cases o with ⟨enough, step⟩ | ⟨full, tooMuch, step⟩
  · refine ⟨⟨?_, fun need => absurd need enough⟩, ?_, ?_, kept, heapAfter_allocate h o⟩
    · rintro ⟨e, h', fails⟩
      cases step.symm.trans fails
    · intro e h' fails
      cases step.symm.trans fails
    · intro v h' succeeds
      cases step.symm.trans succeeds
      exact c.exists_slot o
  · refine ⟨⟨fun _ => ⟨full, tooMuch⟩, fun _ => ⟨_, _, step⟩⟩, ?_, ?_, kept,
      heapAfter_allocate h o⟩
    · intro e h' fails
      cases step.symm.trans fails
      exact ⟨rfl, c.occupied_makeRoom_iff full⟩
    · intro v h' succeeds
      cases step.symm.trans succeeds

end Counted

/-! ## Constructors -/

/-- An operation that roots its operands, allocates an object and drops the roots. -/
def Constructs (h : Heap) (operands : List Value) (o : Object) (op : HeapM Fatal Value) : Prop :=
  op h = HeapM.scope (fun _ => HeapM.allocate o (operands.foldl addRoot h)) h

namespace Constructs

variable {h : Heap} {operands : List Value} {o : Object} {op : HeapM Fatal Value}

theorem heapAfter_eq (b : h.Constructs operands o op) :
    heapAfter op h =
      (heapAfter (HeapM.allocate o) (operands.foldl addRoot h)).truncateRoots h.roots.length := by
  unfold Constructs HeapM.scope at b
  unfold heapAfter
  rw [b]
  cases HeapM.allocate o (operands.foldl addRoot h) <;> rfl

theorem ok_iff (b : h.Constructs operands o op) {v : Value} {h' : Heap} :
    op h = .ok v h' ↔ ∃ k, HeapM.allocate o (operands.foldl addRoot h) = .ok v k ∧
      h' = k.truncateRoots h.roots.length := by
  unfold Constructs HeapM.scope at b
  rw [b]
  cases HeapM.allocate o (operands.foldl addRoot h) with
  | ok v k => simp [eq_comm]
  | error e k => simp

theorem error_iff (b : h.Constructs operands o op) {e : Fatal} {h' : Heap} :
    op h = .error e h' ↔ ∃ k, HeapM.allocate o (operands.foldl addRoot h) = .error e k ∧
      h' = k.truncateRoots h.roots.length := by
  unfold Constructs HeapM.scope at b
  rw [b]
  cases HeapM.allocate o (operands.foldl addRoot h) with
  | ok v k => simp
  | error e k => simp [eq_comm]

/-- The roots are those there were, so nothing but the arena has changed. -/
theorem unchanged (b : h.Constructs operands o op) :
    ∃ slots free live, heapAfter op h = { h with
      slots, free, live, collections := h.collections + if h.capacity ≤ h.live then 1 else 0 } := by
  rw [b.heapAfter_eq]
  have roots := (KeepsRoots.addRoots h operands).values_truncateRoots
  rcases addRoots_eq h operands with ⟨stack, same⟩
  rw [same] at roots ⊢
  rcases heapAfter_allocate { h with roots := stack } o with ⟨slots, free, live, after⟩
  refine ⟨slots, free, live, ?_⟩
  rw [after]
  exact congrArg (fun roots => { h with
    slots, free, live, roots
    collections := h.collections + if h.capacity ≤ h.live then 1 else 0 })
      (RootStack.eq_of_values roots)

theorem counted (b : h.Constructs operands o op) (c : h.Counted) : (heapAfter op h).Counted := by
  rw [b.heapAfter_eq]
  exact ((c.addRoots operands).allocate o).reroot _

/-- So the operands are needed as well as what the roots need. -/
theorem allocates (b : h.Constructs operands o op) (c : h.Counted) : h.Allocates operands o op := by
  have a := (c.addRoots operands).allocates o
  have needs (i : Nat) : (operands.foldl addRoot h).Needed [] i ↔ h.Needed operands i := by
    rw [needed_addRoots_iff, List.append_nil]
  have demand := demand_addRoots h operands
  rcases addRoots_eq h operands with ⟨roots, same⟩
  have after := b.heapAfter_eq
  have ok_iff := @Constructs.ok_iff h operands o op b
  have error_iff := @Constructs.error_iff h operands o op b
  rw [same] at a needs demand after ok_iff error_iff
  refine ⟨?_, ?_, ?_, fun i needed => ?_, b.unchanged⟩
  · rw [← demand]
    refine Iff.trans ?_ a.fails_iff
    constructor
    · rintro ⟨e, h', fails⟩
      rcases error_iff.1 fails with ⟨k, step, _⟩
      exact ⟨e, k, step⟩
    · rintro ⟨e, k, step⟩
      exact ⟨e, _, error_iff.2 ⟨k, step, rfl⟩⟩
  · intro e h' fails
    rcases error_iff.1 fails with ⟨k, step, rfl⟩
    rcases a.failed e k step with ⟨isOutOfMemory, occupied_iff⟩
    exact ⟨demand ▸ isOutOfMemory, fun i => (occupied_iff i).trans (needs i)⟩
  · intro v h' succeeds
    rcases ok_iff.1 succeeds with ⟨k, step, rfl⟩
    rcases a.made v k step with ⟨i, emptied, value, empties, next, fresh, found, old⟩
    have objects : ∀ v, ({ h with roots } : Heap).object? v = h.object? v := fun _ => rfl
    have rerooted {j l : Nat} (leads : h.ReachableFrom (· = .slot j) l) :
        ({ h with roots } : Heap).ReachableFrom (· = .slot j) l := leads.congr objects fun _ => id
    refine ⟨i, emptied, value, ⟨empties.ascending, fun j => ?_⟩, next, ?_, found, ?_⟩
    · rw [empties.mem_iff, needs]
      exact .rfl
    · exact fun needed => fresh ((needs i).2 needed)
    · intro j other occupied
      rcases old j other occupied with ⟨⟨before, same⟩, apart⟩
      exact ⟨⟨before, fun l leads => same l (rerooted leads)⟩, fun leads => apart (rerooted leads)⟩
  · rw [after]
    exact a.kept i ((needs i).2 needed)

end Constructs

theorem constructs_cons (h : Heap) (car cdr : Value) :
    h.Constructs [car, cdr] (.pair car cdr) (HeapM.cons car cdr) := rfl

theorem constructs_procedure (h : Heap) (params body : Value) (env : Env) :
    h.Constructs [params, body, env.value] (.procedure params body env)
      (HeapM.procedure params body env) := rfl

theorem constructs_child (h : Heap) (parent : Env) :
    h.Constructs [parent.value] (.environment .nil (some parent))
      (Env.value <$> HeapM.child parent) := by
  have body : HeapM.child parent h = HeapM.scope (fun _ =>
      (HeapM.allocate (.environment .nil (some parent)) >>= fun v => pure ⟨v⟩ : HeapM Fatal Env)
        (h.addRoot parent.value)) h := rfl
  unfold Constructs
  simp only [Functor.map, EStateM.map, body, HeapM.scope, List.foldl_cons, List.foldl_nil]
  simp only [Bind.bind, EStateM.bind]
  cases HeapM.allocate (.environment .nil (some parent)) (h.addRoot parent.value) <;> rfl

/-! ## What an allocation adds -/

namespace Allocates

variable {h h' : Heap} {operands : List Value} {o : Object} {op : HeapM Fatal Value} {v : Value}
  {j : Nat}

theorem isRoot_iff (a : h.Allocates operands o op) (succeeds : op h = .ok v h') {u : Value} :
    h'.IsRoot u ↔ h.IsRoot u := by
  rcases a.unchanged with ⟨slots, free, live, after⟩
  rw [← heapAfter_of_ok succeeds, after]
  exact ⟨.transfer rfl rfl rfl rfl, .transfer rfl rfl rfl rfl⟩

theorem object?_eq (a : h.Allocates operands o op) (succeeds : op h = .ok v h')
    (needed : h.Needed operands j) :
    h'.object? (.slot j) = h.object? (.slot j) := by
  rw [← heapAfter_of_ok succeeds]
  exact a.kept j needed

section Needing

variable (a : h.Allocates operands o op)
  (refers : ∀ j, .slot j ∈ o.references ↔ .slot j ∈ operands) (succeeds : op h = .ok v h')
include a refers succeeds

/-- On the way from the roots and the new object nothing is met that was not needed to make it. -/
theorem eq_or_needed (needed : h'.Needed [v] j) : v = .slot j ∨ h.Needed operands j := by
  rcases a.made v h' succeeds with ⟨i, _, rfl, _, _, _, found, old⟩
  have before {k : Nat} (other : k ≠ i) (occupied : h'.Occupied k) : h.Occupied k :=
    (old k other occupied).1.1
  -- Induction on the way there: until it comes to the new slot it was a way before.
  induction needed with
  | @start k isStart occupied =>
      by_cases new : k = i
      · exact .inl (new ▸ rfl)
      · have root := isStart.resolve_right fun member =>
          new (Value.slot.inj (List.mem_singleton.1 member))
        exact .inr (.start (.inl ((a.isRoot_iff succeeds).1 root)) (before new occupied))
  | @reference k l o' _ foundK member occupied ih =>
      by_cases new : l = i
      · exact .inl (new ▸ rfl)
      · refine .inr ?_
        rcases ih with isNew | needed
        · cases isNew
          cases found.symm.trans foundK
          exact .start (.inr ((refers l).1 member)) (before new occupied)
        · have kept := a.object?_eq succeeds needed
          exact .reference needed (kept.symm.trans foundK) member (before new occupied)

/-- What was needed to make the new object is needed with it, since the object refers to it. -/
theorem needed (needed : h.Needed operands j) : h'.Needed [v] j := by
  rcases a.made v h' succeeds with ⟨i, _, rfl, _, _, _, found, _⟩
  have new : h'.Needed [.slot i] i :=
    .start (.inr (List.mem_singleton_self _)) (occupied_of_object? found)
  have stays {k : Nat} (needed : h.Needed operands k) : h'.Occupied k := by
    rw [Occupied, a.object?_eq succeeds needed]
    exact needed.occupied
  induction needed with
  | @start k isStart occupied =>
      have there := stays (.start isStart occupied)
      rcases isStart with root | member
      · exact .start (.inl ((a.isRoot_iff succeeds).2 root)) there
      · exact .reference new found ((refers k).2 member) there
  | @reference k l o' needed foundK member occupied ih =>
      exact .reference ih ((a.object?_eq succeeds needed).trans foundK) member
        (stays (.reference needed foundK member occupied))

/-- With the new object, its own slot is needed besides those that were needed to make it. -/
theorem needed_iff : h'.Needed [v] j ↔ v = .slot j ∨ h.Needed operands j := by
  constructor
  · exact a.eq_or_needed refers succeeds
  · rintro (rfl | needed)
    · rcases a.made _ h' succeeds with ⟨i, _, isNew, _, _, _, found, _⟩
      cases isNew
      exact .start (.inr (List.mem_singleton_self _)) (occupied_of_object? found)
    · exact a.needed refers succeeds needed

theorem demand_eq : h'.demand [v] = h.demand operands + 1 := by
  rcases a.made v h' succeeds with ⟨i, _, rfl, _, _, fresh, _⟩
  have insertion : {j | h'.Needed [.slot i] j} = Insert.insert i {j | h.Needed operands j} := by
    ext j
    rw [Set.mem_ofPred_eq, a.needed_iff refers succeeds, Set.mem_insert_iff, Set.mem_ofPred_eq,
      Value.slot.injEq, eq_comm]
  have absent : i ∉ {j | h.Needed operands j} := fresh
  unfold demand
  rw [insertion, Set.ncard_insert_of_notMem absent (finite_needed h _)]

end Needing

end Allocates

end Heap

end Lisplet
