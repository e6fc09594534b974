import Lisplet.Proofs.Frames.Definition
import Lisplet.Proofs.Heap.Allocation

/-!
# Footprint — what several allocations leave where it was

An operation that allocates more than once may collect at each allocation, with what it has made so
far only half linked up. `Heap.Acquires` says what stays true however many allocations there are:
whatever the operation needs is where it was, and whatever else is still there is intact and does
not lead to anything new. What is new may be changed meanwhile. A definition makes two pairs before
its environment takes them over (`Counted.define_cases`).
-/

namespace Lisplet

open Heap.Operation (heapAfter)

namespace Heap

variable {h h' h'' : Heap} {operands operands' : List Value} {new new' : List Nat} {i : Nat}
  {o : Object}

/--
`h'` is a later state of `h` in which the slots in `new` have been filled: what is needed is still
there, and what is there otherwise was there before with all that it refers to.
-/
structure Acquires (h : Heap) (operands : List Value) (new : List Nat) (h' : Heap) : Prop where
  counted : h'.Counted
  kept : ∀ i, h.Needed operands i → h'.object? (.slot i) = h.object? (.slot i)
  fresh : ∀ i ∈ new, ¬ h.Needed operands i
  old : ∀ i, h'.Occupied i → i ∈ new ∨
    h.Intact h' i ∧ ∀ k ∈ new, ¬ h.ReachableFrom (· = .slot i) k

namespace Acquires

theorem refl (c : h.Counted) (operands : List Value) : h.Acquires operands [] h :=
  ⟨c, fun _ _ => rfl, List.forall_mem_nil _, fun _ occupied =>
    .inr ⟨⟨occupied, fun _ _ => rfl⟩, List.forall_mem_nil _⟩⟩

/-- What comes afterwards may concern other parts of the heap than its objects. -/
theorem congr (g : h.Acquires operands new h') (c : h''.Counted)
    (same : ∀ v, h''.object? v = h'.object? v) : h.Acquires operands new h'' := by
  refine ⟨c, fun i needed => (same _).trans (g.kept i needed), g.fresh, fun i occupied => ?_⟩
  rw [Occupied, same] at occupied
  refine (g.old i occupied).imp_right (And.imp_left fun intact => ⟨intact.1, fun k leads => ?_⟩)
  exact (same _).trans (intact.2 k leads)

theorem truncateRoots (g : h.Acquires operands new h') (height : Nat) :
    h.Acquires operands new (h'.truncateRoots height) :=
  g.congr (g.counted.reroot _) fun _ => rfl

theorem addRoot (c : h.Counted) (operands : List Value) (v : Value) :
    h.Acquires operands [] (h.addRoot v) :=
  (refl c operands).congr (c.addRoots [v]) (object?_addRoot h v)

theorem occupied (g : h.Acquires operands new h') (needed : h.Needed operands i) :
    h'.Occupied i := by
  rw [Occupied, g.kept i needed]
  exact needed.occupied

/-- What is needed for the next operation too stays needed. -/
theorem needed (g : h.Acquires operands new h')
    (starts : ∀ i, h.Needed operands i → h.IsRoot (.slot i) ∨ .slot i ∈ operands →
      h'.Needed operands' i) (needed : h.Needed operands i) : h'.Needed operands' i := by
  induction needed with
  | start isStart occupied => exact starts _ (.start isStart occupied) isStart
  | reference before found member occupied ih =>
      have there := g.occupied (.reference before found member occupied)
      exact .reference ih ((g.kept _ before).trans found) member there

/-- What stays where it was still leads to the same. -/
theorem intact_leads (intact : h.Intact h' i) {k : Nat} (leads : h.ReachableFrom (· = .slot i) k) :
    h'.ReachableFrom (· = .slot i) k := leads.transfer intact.2

theorem trans (g : h.Acquires operands new h') (g' : h'.Acquires operands' new' h'')
    (needs : ∀ i, h.Needed operands i → h'.Needed operands' i) :
    h.Acquires operands (new ++ new') h'' := by
  constructor
  · exact g'.counted
  · exact fun i needed => (g'.kept i (needs i needed)).trans (g.kept i needed)
  · intro i member needed
    rcases List.mem_append.1 member with first | later
    · exact g.fresh i first needed
    · exact g'.fresh i later (needs i needed)
  · intro i occupied
    rcases g'.old i occupied with later | ⟨intact', apart'⟩
    · exact .inl (List.mem_append_right _ later)
    rcases g.old i intact'.1 with first | ⟨intact, apart⟩
    · exact .inl (List.mem_append_left _ first)
    refine .inr ⟨⟨intact.1, fun k leads => ?_⟩, fun k member leads => ?_⟩
    · exact (intact'.2 k (intact_leads intact leads)).trans (intact.2 k leads)
    · rcases List.mem_append.1 member with first | later
      · exact apart k first leads
      · exact apart' k later (intact_leads intact leads)

/-- What is new may be changed. -/
theorem put (g : h.Acquires operands new h') (member : i ∈ new) (occupied : h'.Occupied i)
    (o : Object) : h.Acquires operands new (h'.put i o) := by
  have others {k : Nat} (other : k ≠ i) : (h'.put i o).object? (.slot k) = h'.object? (.slot k) :=
    object?_put_ne fun same => other (Value.slot.inj same)
  refine ⟨g.counted.put occupied o, ?_, g.fresh, ?_⟩
  · intro k needed
    have other : k ≠ i := fun same => g.fresh i member (same ▸ needed)
    exact (others other).trans (g.kept k needed)
  · intro k occupiedK
    rcases g.old k ((occupied_put_iff occupied k).1 occupiedK) with isNew | ⟨intact, apart⟩
    · exact .inl isNew
    refine .inr ⟨⟨intact.1, fun l leads => ?_⟩, apart⟩
    have other : l ≠ i := fun same => apart i member (same ▸ leads)
    exact (others other).trans (intact.2 l leads)

/-- An object that is not new is an old one. -/
theorem object?_of_old (g : h.Acquires operands new h') (found : h'.object? (.slot i) = some o)
    (old : i ∉ new) : h.object? (.slot i) = some o := by
  have intact := ((g.old i (occupied_of_object? found)).resolve_left old).1
  exact (intact.2 i (.start rfl intact.1)).symm.trans found

end Acquires

/-! ## One allocation -/

/-- An allocation fills one slot, or fails and fills none. -/
theorem Constructs.cases {op : HeapM Fatal Value} (b : h.Constructs operands o op)
    (c : h.Counted) :
    (∃ live capacity h', op h = .error (.outOfMemory live capacity) h' ∧
      h.Acquires operands [] h') ∨
    ∃ i h', op h = .ok (.slot i) h' ∧ h.Acquires operands [i] h' ∧
      h'.object? (.slot i) = some o := by
  have a := b.allocates c
  have counted := b.counted c
  have kept := a.kept
  unfold heapAfter at counted kept
  cases step : op h with
  | error e h' =>
      rw [step] at counted kept
      rcases a.failed e h' step with ⟨rfl, occupied_iff⟩
      refine .inl ⟨_, _, h', rfl, counted, kept, List.forall_mem_nil _, fun i occupied => ?_⟩
      have needed := (occupied_iff i).1 occupied
      refine .inr ⟨⟨needed.occupied, fun k leads => ?_⟩, List.forall_mem_nil _⟩
      exact kept k (needed.trans leads)
  | ok v h' =>
      rw [step] at counted kept
      rcases a.made v h' step with ⟨i, _, rfl, _, _, fresh, found, old⟩
      refine .inr ⟨i, h', rfl, ⟨counted, kept, List.forall_mem_singleton.2 fresh, ?_⟩, found⟩
      intro j occupied
      by_cases same : j = i
      · exact .inl (List.mem_singleton.2 same)
      · rcases old j same occupied with ⟨intact, apart⟩
        exact .inr ⟨intact, List.forall_mem_singleton.2 apart⟩

theorem Counted.cons_cases (c : h.Counted) (car cdr : Value) :
    (∃ live capacity h', HeapM.cons car cdr h = .error (.outOfMemory live capacity) h' ∧
      h.Acquires [car, cdr] [] h' ∧ h.KeepsRoots h') ∨
    ∃ i h', HeapM.cons car cdr h = .ok (.slot i) h' ∧ h.Acquires [car, cdr] [i] h' ∧
      h.KeepsRoots h' ∧ h'.object? (.slot i) = some (.pair car cdr) := by
  have roots := dataConduct_keepsRoots.obeys_cons h car cdr
  unfold HeapM.Obeys heapAfter at roots
  rcases (constructs_cons h car cdr).cases c with
    ⟨live, capacity, h', step, acquires⟩ | ⟨i, h', step, acquires, found⟩
  · rw [step] at roots
    exact .inl ⟨live, capacity, h', step, acquires, roots⟩
  · rw [step] at roots
    exact .inr ⟨i, h', step, acquires, roots, found⟩

theorem Counted.child_cases (c : h.Counted) (env : Env) :
    (∃ live capacity h', HeapM.child env h = .error (.outOfMemory live capacity) h' ∧
      h.Acquires [env.value] [] h') ∨
    ∃ i h', HeapM.child env h = .ok ⟨.slot i⟩ h' ∧ h.Acquires [env.value] [i] h' ∧
      h.KeepsRoots h' ∧ h'.object? (.slot i) = some (.environment .nil (some env)) := by
  have roots : h.KeepsRoots (heapAfter (HeapM.child env) h) := conduct_keepsRoots.child trivial
  unfold heapAfter at roots
  have made := (constructs_child h env).cases c
  simp only [Functor.map, EStateM.map] at made
  cases step : HeapM.child env h with
  | error e h' =>
      rw [step] at made
      rcases made with ⟨live, capacity, _, ⟨⟩, acquires⟩ | ⟨_, _, ⟨⟩, _⟩
      exact .inl ⟨live, capacity, h', rfl, acquires⟩
  | ok child h' =>
      rw [step] at made roots
      rcases made with ⟨_, _, _, ⟨⟩, _⟩ | ⟨i, _, same, acquires, found⟩
      cases child
      cases same
      exact .inr ⟨i, h', rfl, acquires, roots, found⟩

/-! ## Definitions -/

section Definitions

variable {e : Nat} {bindings symbol value : Value} {parent : Option Env}

/-- What was needed to make a pair is needed with the pair. -/
theorem Acquires.needed_pair {car cdr : Value} (g : h.Acquires [car, cdr] new h')
    (roots : h.KeepsRoots h') (found : h'.object? (.slot i) = some (.pair car cdr))
    (member : .slot i ∈ operands') {k : Nat} (needed : h.Needed [car, cdr] k) :
    h'.Needed operands' k := by
  have pair : h'.Needed operands' i := .start (.inr member) (occupied_of_object? found)
  refine g.needed (fun k needed isStart => ?_) needed
  rcases isStart with root | part
  · exact .start (.inl (roots.isRoot root)) (g.occupied needed)
  · exact .reference pair found (by simpa [Object.references] using part) (g.occupied needed)

/--
A definition fails for want of memory after it has made no more than pairs, or it makes two pairs,
one of the symbol and the value and one in front of the older bindings, and changes the environment
after that.
-/
theorem Counted.define_cases (c : h.Counted)
    (found : h.object? (.slot e) = some (.environment bindings parent)) (symbol value : Value) :
    (∃ live capacity new h', (Env.mk (.slot e)).define symbol value h =
        .error (.outOfMemory live capacity) h' ∧
      h.Acquires [.slot e, symbol, value] new h' ∧
      ∀ i ∈ new, ∀ bindings parent, h'.object? (.slot i) ≠ some (.environment bindings parent)) ∨
    ∃ b s h', (Env.mk (.slot e)).define symbol value h =
        .ok () ((h'.put e (.environment (.slot s) parent)).truncateRoots h.roots.length) ∧
      h.Acquires [.slot e, symbol, value] [b, s] h' ∧ h.KeepsRoots h' ∧
      h'.object? (.slot b) = some (.pair symbol value) ∧
      h'.object? (.slot s) = some (.pair (.slot b) bindings) := by
  have rooted : h.Acquires [.slot e, symbol, value] [] (h.addRoot (.slot e)) := .addRoot c _ _
  have needs (i : Nat) (needed : h.Needed [.slot e, symbol, value] i) :
      (h.addRoot (.slot e)).Needed [symbol, value] i := needed_addRoot_iff.2 needed
  have isNeeded : (h.addRoot (.slot e)).Needed [symbol, value] e :=
    needs e (.start (.inr List.mem_cons_self) (occupied_of_object? found))
  rw [define_eq]
  rcases rooted.counted.cons_cases symbol value with
    ⟨live, capacity, h₁, step, first, roots⟩ | ⟨b, h₁, step, first, roots, foundB⟩
  · refine .inl ⟨live, capacity, [], h₁.truncateRoots h.roots.length, ?_,
      (rooted.trans first needs).truncateRoots _, List.forall_mem_nil _⟩
    rw [step]
  -- The pair that binds the symbol is rooted with its parts while the next one is made.
  have foundE : h₁.object? (.slot e) = some (.environment bindings parent) :=
    (first.kept e isNeeded).trans ((object?_addRoot h _ _).trans found)
  have listed : (Env.mk (.slot e)).bindings h₁ = bindings := Env.bindings_eq foundE
  have needs₁ (i : Nat) (needed : (h.addRoot (.slot e)).Needed [symbol, value] i) :
      h₁.Needed [.slot b, bindings] i := first.needed_pair roots foundB List.mem_cons_self needed
  rw [step]
  dsimp only
  rw [listed]
  rcases first.counted.cons_cases (.slot b) bindings with
    ⟨live, capacity, h₂, step', second, _⟩ | ⟨s, h₂, step', second, roots', foundS⟩
  · rw [step']
    have both := rooted.trans (first.trans second needs₁) needs
    refine .inl ⟨live, capacity, _, _, rfl, both.truncateRoots _, ?_⟩
    simp only [List.nil_append, List.append_nil, List.forall_mem_singleton]
    intro _ _ isEnv
    cases foundB.symm.trans (second.object?_of_old (i := b) isEnv List.not_mem_nil)
  · rw [step']
    have both := rooted.trans (first.trans second needs₁) needs
    have foundE' := (second.kept e (needs₁ e isNeeded)).trans foundE
    have neededB : h₁.Needed [.slot b, bindings] b :=
      .start (.inr List.mem_cons_self) (occupied_of_object? foundB)
    refine .inr ⟨b, s, h₂, ?_, both, ((KeepsRoots.addRoot h _).trans roots).trans roots',
      (second.kept b neededB).trans foundB, foundS⟩
    dsimp only
    rw [setBindings_eq foundE']

end Definitions

end Heap

end Lisplet
