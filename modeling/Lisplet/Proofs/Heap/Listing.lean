import Lisplet.Proofs.Heap.Allocation
import Lisplet.Proofs.Heap.Spine

/-!
# Listing — making a list pair by pair

Making a list is a run of allocations (`Heap.Building`), each of which needs the part that has been
built so far besides the items. So it may fail at any of them, after any number of collections; yet
it fails only if what is needed beforehand and the pairs of the list do not fit in together
(`MakesList.fails_iff_demand`). The main statement is `memory_runs_out_exactly`, on allocations and
all constructors of compounds.
-/

namespace Lisplet

open Heap.Operation (heapAfter)

namespace Heap

/-! ## Stages -/

/-- A proper list that is needed is still there. -/
theorem Spine.kept {h h' : Heap} {operands items : List Value} {v : Value}
    (spine : h.Spine v items .nil)
    (kept : ∀ i, h.Needed operands i → h'.object? (.slot i) = h.object? (.slot i))
    (needed : ∀ i, v = .slot i → h.Occupied i → h.Needed operands i) : h'.Spine v items .nil := by
  generalize ends : Value.nil = tail at spine
  induction spine with
  | done _ =>
      subst ends
      exact .done rfl
  | @step v car cdr tail items goes rest ih =>
      cases v with
      | nil => cases goes
      | slot i =>
          have found := pair?_eq_some_iff.1 goes
          have here := needed i rfl (occupied_of_object? found)
          refine .step (pair?_eq_some_iff.2 ((kept i here).trans found)) (ih ?_ ends)
          rintro k rfl occupied
          exact .reference here found (by simp [Object.references]) occupied

/--
A list of `items` under construction in a heap that was `h` at first: the items that are still to be
put in front, the next one first, the part that there is, and the heap.
-/
inductive Building (h : Heap) (items : List Value) : List Value → Value → Heap → Prop where
  | start : Building h items items.reverse .nil (items.foldl addRoot h)
  | cons {item part v : Value} {left : List Value} {h₁ h₂ : Heap} :
      Building h items (item :: left) part h₁ → HeapM.cons item part h₁ = .ok v h₂ →
        Building h items left v h₂

/-- A list of `items` is under construction, and `n` of its pairs are still to be made. -/
structure Underway (h : Heap) (items : List Value) (n : Nat) (h₁ : Heap) : Prop where
  counted : h₁.Counted
  saved : (items.foldl addRoot h).Saved h₁
  capacity_eq : h₁.capacity = h.capacity
  collections_le : h₁.collections + n ≤ h.collections + items.length

/-- Whether it can be made or not, a pair leaves what is needed for the list. -/
theorem Underway.cons {h h₁ : Heap} {items : List Value} {n : Nat}
    (u : h.Underway items (n + 1) h₁) (item part : Value) :
    h.Underway items n (heapAfter (HeapM.cons item part) h₁) := by
  have constructs := constructs_cons h₁ item part
  have saves := (dataConduct_saves (items.foldl addRoot h)).obeys_cons h₁ item part
  refine ⟨constructs.counted u.counted, saves.saved u.saved, ?_, ?_⟩
  · rcases constructs.unchanged with ⟨slots, free, live, after⟩
    rw [after]
    exact u.capacity_eq
  · have before := u.collections_le
    rcases constructs.unchanged with ⟨slots, free, live, after⟩
    rw [after]
    split <;> (simp only; omega)

/-- What holds at every stage of the construction of a list. -/
structure Stage (h : Heap) (items left : List Value) (part : Value) (h₁ : Heap) : Prop
    extends h.Underway items left.length h₁ where
  spine : ∃ done, items = left.reverse ++ done ∧ h₁.Spine part done .nil
  demand_eq : h₁.demand [part] + left.length = h.demand items + items.length

/-- The item is one of those that have been rooted, so it is needed anyway. -/
theorem Stage.demand_item {h h₁ : Heap} {items left : List Value} {item part : Value}
    (s : h.Stage items (item :: left) part h₁) : h₁.demand [item, part] = h₁.demand [part] := by
  rcases s.spine with ⟨done, split, _⟩
  refine demand_congr fun i => ⟨?_, Or.imp_right (List.mem_cons_of_mem item)⟩
  rintro (root | member)
  · exact .inl root
  · rcases List.mem_cons.1 member with rfl | isPart
    · exact .inl (s.saved.roots.isRoot (isRoot_addRoots (by simp [split])))
    · exact .inr isPart

namespace Building

variable {h h₁ : Heap} {items left : List Value} {item part : Value}

/-- What remains to be done is the same at every stage. -/
theorem consAll_eq (b : h.Building items left part h₁) :
    HeapM.consAll .nil items.reverse (items.foldl addRoot h) = HeapM.consAll part left h₁ := by
  induction b with
  | start => rfl
  | cons _ step ih =>
      rw [ih, HeapM.consAll]
      simp only [Bind.bind, EStateM.bind, step]

theorem stage (c : h.Counted) (b : h.Building items left part h₁) : h.Stage items left part h₁ := by
  induction b with
  | start =>
      have demand : (items.foldl addRoot h).demand [.nil] = h.demand items := by
        refine (demand_congr fun i => ?_).trans (demand_addRoots h items)
        simp
      have tidy := (c.addRoots items).toTidy
      rcases addRoots_eq h items with ⟨roots, same⟩
      refine ⟨⟨c.addRoots items, .refl tidy, ?_, ?_⟩, ⟨[], ?_, .done rfl⟩, ?_⟩
      · rw [same]
      · rw [same, List.length_reverse]
      · rw [List.reverse_reverse, List.append_nil]
      · rw [demand, List.length_reverse]
  | @cons item part v left h₁ h₂ b step ih =>
      have a := (constructs_cons h₁ item part).allocates ih.counted
      have underway := ih.toUnderway.cons item part
      rw [heapAfter_of_ok step] at underway
      rcases ih.spine with ⟨done, split, spine⟩
      refine ⟨underway, ⟨item :: done, by simp [split], ?_⟩, ?_⟩
      · rcases a.made v h₂ step with ⟨i, _, rfl, _, _, _, found, _⟩
        refine .step (pair?_eq_some_iff.2 found) ?_
        refine spine.kept (fun k => a.object?_eq step) ?_
        rintro k rfl occupied
        exact .start (.inr (by simp)) occupied
      · have one : h₂.demand [v] = h₁.demand [item, part] + 1 :=
          a.demand_eq (fun _ => .rfl) step
        have before := ih.demand_eq
        rw [List.length_cons] at before
        rw [one, ih.demand_item]
        omega

/-- From any stage the construction goes on to the end, or to a pair that cannot be made. -/
theorem consAll_cases (b : h.Building items left part h₁) :
    (∃ v h₂, h.Building items [] v h₂ ∧ HeapM.consAll part left h₁ = .ok v h₂) ∨
      ∃ item left' part' h₂ e h', h.Building items (item :: left') part' h₂ ∧
        HeapM.cons item part' h₂ = .error e h' ∧ HeapM.consAll part left h₁ = .error e h' := by
  induction left generalizing part h₁ with
  | nil => exact .inl ⟨part, h₁, b, rfl⟩
  | cons item left ih =>
      rw [HeapM.consAll]
      simp only [Bind.bind, EStateM.bind]
      cases step : HeapM.cons item part h₁ with
      | ok v h₂ => exact ih (b.cons step)
      | error e h' => exact .inr ⟨item, left, part, h₁, e, h', b, step, rfl⟩

/-- The pair that was made last. -/
theorem last (b : h.Building items [] part h₁) (some : items ≠ []) :
    ∃ item rest h₀, h.Building items [item] rest h₀ ∧ HeapM.cons item rest h₀ = .ok part h₁ := by
  generalize none : [] = left at b
  cases b with
  | start => exact absurd (List.reverse_eq_nil_iff.1 none.symm) some
  | cons b step =>
      subst none
      exact ⟨_, _, _, b, step⟩

end Building

section MakingLists

variable {h h₁ h' : Heap} {items left : List Value} {item part : Value} {e : Fatal}

theorem list_eq_scope (h : Heap) (items : List Value) : HeapM.list items h = HeapM.scope (fun _ =>
    HeapM.consAll .nil items.reverse (items.foldl addRoot h)) h := rfl

/-- Making a list fails where a pair of it cannot be made. -/
theorem Building.list_fails (b : h.Building items (item :: left) part h₁)
    (fails : HeapM.cons item part h₁ = .error e h') :
    HeapM.list items h = .error e (h'.truncateRoots h.roots.length) := by
  have start := list_eq_scope h items
  rw [b.consAll_eq, HeapM.consAll] at start
  simpa only [HeapM.scope, Bind.bind, EStateM.bind, fails] using start

theorem list_cases (h : Heap) (items : List Value) :
    (∃ v h₁, h.Building items [] v h₁ ∧
      HeapM.list items h = .ok v (h₁.truncateRoots h.roots.length)) ∨
    ∃ item left part h₁ e h', h.Building items (item :: left) part h₁ ∧
      HeapM.cons item part h₁ = .error e h' ∧
        HeapM.list items h = .error e (h'.truncateRoots h.roots.length) := by
  have outset : h.Building items items.reverse .nil (items.foldl addRoot h) := .start
  rcases outset.consAll_cases with
    ⟨v, h₁, b, step⟩ | ⟨item, left, part, h₁, e, h', b, fails, _⟩
  · have start := list_eq_scope h items
    unfold HeapM.scope at start
    rw [step] at start
    exact .inl ⟨v, h₁, b, start⟩
  · exact .inr ⟨item, left, part, h₁, e, h', b, fails, b.list_fails fails⟩

/-- However it ends, making a list leaves what is needed for it. -/
theorem Counted.underway_list (c : h.Counted) (items : List Value) :
    ∃ n h₁, h.Underway items n h₁ ∧
      heapAfter (HeapM.list items) h = h₁.truncateRoots h.roots.length := by
  unfold heapAfter
  rcases list_cases h items with ⟨v, h₁, b, step⟩ | ⟨item, left, part, h₁, e, h', b, fails, step⟩
  · rw [step]
    exact ⟨0, h₁, (b.stage c).toUnderway, rfl⟩
  · have underway := (b.stage c).toUnderway.cons item part
    unfold heapAfter at underway
    rw [fails] at underway
    rw [step]
    exact ⟨left.length, h', underway, rfl⟩

/-! ## How it ends -/

theorem Building.allocates (c : h.Counted) (b : h.Building items (item :: left) part h₁) :
    h₁.Allocates [item, part] (.pair item part) (HeapM.cons item part) :=
  (constructs_cons h₁ item part).allocates (b.stage c).counted

/-- A list cannot be made if there comes a pair for which what is needed leaves no room. -/
theorem Counted.list_fails_iff (c : h.Counted) (items : List Value) :
    (∃ e h', HeapM.list items h = .error e h') ↔
      ∃ item left part h₁, h.Building items (item :: left) part h₁ ∧
        h₁.capacity ≤ h₁.live ∧ h₁.capacity ≤ h₁.demand [item, part] := by
  constructor
  · rintro ⟨e, h', failed⟩
    rcases list_cases h items with ⟨v, h₁, _, step⟩ | ⟨item, left, part, h₁, e', k, b, fails, _⟩
    · cases step.symm.trans failed
    · exact ⟨item, left, part, h₁, b, (b.allocates c).fails_iff.1 ⟨e', k, fails⟩⟩
  · rintro ⟨item, left, part, h₁, b, full⟩
    rcases (b.allocates c).fails_iff.2 full with ⟨e, h', fails⟩
    exact ⟨e, _, b.list_fails fails⟩

/-- The last pair is the one that needs most. -/
theorem Building.full_of_last (c : h.Counted) (b : h.Building items [item] part h₁)
    (tooMuch : h.capacity < h.demand items + items.length) :
    h₁.capacity ≤ h₁.live ∧ h₁.capacity ≤ h₁.demand [item, part] := by
  have s := b.stage c
  have demand := s.demand_eq
  have most := s.counted.demand_le_live [item, part]
  rw [List.length_singleton, ← s.demand_item] at demand
  rw [← s.capacity_eq] at tooMuch
  omega

/-- A list cannot be made if it does not fit in together with what is needed beforehand. -/
theorem Counted.list_fails_iff_demand (c : h.Counted) (items : List Value) :
    (∃ e h', HeapM.list items h = .error e h') ↔
      items ≠ [] ∧ h.capacity < h.demand items + items.length := by
  constructor
  · intro failed
    rcases (c.list_fails_iff items).1 failed with ⟨item, left, part, h₁, b, _, tooMuch⟩
    have s := b.stage c
    have demand := s.demand_eq
    rcases s.spine with ⟨done, split, _⟩
    rw [s.demand_item, s.capacity_eq] at tooMuch
    rw [List.length_cons] at demand
    exact ⟨by simp [split], by omega⟩
  · rintro ⟨some, tooMuch⟩
    -- It ends early, or it comes to the last pair, which does not fit in.
    rcases list_cases h items with ⟨v, h₁, b, _⟩ | ⟨_, _, _, _, e, h', _, _, step⟩
    · rcases b.last some with ⟨item, part, h₀, last, _⟩
      have full := last.full_of_last c tooMuch
      exact (c.list_fails_iff items).2 ⟨item, [], part, h₀, last, full⟩
    · exact ⟨_, _, step⟩

theorem Counted.list_failed (c : h.Counted) (failed : HeapM.list items h = .error e h') :
    ∃ item left part h₁, h.Building items (item :: left) part h₁ ∧
      e = .outOfMemory (h₁.demand [item, part]) h.capacity ∧
        ∀ i, h'.Occupied i ↔ h₁.Needed [item, part] i := by
  rcases list_cases h items with ⟨v, h₁, _, step⟩ | ⟨item, left, part, h₁, e', k, b, fails, step⟩
  · cases step.symm.trans failed
  · cases step.symm.trans failed
    have pair := (b.allocates c).failed e k fails
    rw [(b.stage c).capacity_eq] at pair
    exact ⟨item, left, part, h₁, b, pair⟩

theorem Counted.list_made {v : Value} (c : h.Counted)
    (succeeds : HeapM.list items h = .ok v h') : h'.Spine v items .nil := by
  rcases list_cases h items with ⟨w, h₁, b, step⟩ | ⟨_, _, _, _, _, _, _, _, step⟩
  · cases step.symm.trans succeeds
    rcases (b.stage c).spine with ⟨done, split, spine⟩
    rw [List.reverse_nil, List.nil_append] at split
    subst split
    have same : ∀ v, (h₁.truncateRoots h.roots.length).object? v = h₁.object? v := fun _ => rfl
    exact spine.congr same
  · cases step.symm.trans succeeds

theorem Counted.list_kept {i : Nat} (c : h.Counted) (needed : h.Needed items i) :
    (heapAfter (HeapM.list items) h).object? (.slot i) = h.object? (.slot i) := by
  rcases c.underway_list items with ⟨n, h₁, u, after⟩
  have reached : (items.foldl addRoot h).Reachable i := by
    rw [← needed_nil_iff, needed_addRoots_iff, List.append_nil]
    exact needed
  have kept := u.saved.kept i reached
  rcases addRoots_eq h items with ⟨roots, same⟩
  rw [same] at kept
  rw [after]
  exact kept

/-- There is at most one collection for each pair. -/
theorem Counted.list_collections_le (c : h.Counted) (items : List Value) :
    (heapAfter (HeapM.list items) h).collections ≤ h.collections + items.length := by
  rcases c.underway_list items with ⟨n, h₁, u, after⟩
  rw [after]
  exact (Nat.le_add_right _ _).trans u.collections_le

end MakingLists

/-! ## Making a list -/

/--
What making a list is to do. It fails at one of its allocations, for want of memory, and what that
allocation needs is then left; that happens if what is needed beforehand and the pairs of the list
do not fit in together.
-/
structure MakesList (h : Heap) (items : List Value) : Prop where
  allocates : ∀ item left part h₁, h.Building items (item :: left) part h₁ →
    h₁.Allocates [item, part] (.pair item part) (HeapM.cons item part)
  fails_iff : (∃ e h', HeapM.list items h = .error e h') ↔
    ∃ item left part h₁, h.Building items (item :: left) part h₁ ∧
      h₁.capacity ≤ h₁.live ∧ h₁.capacity ≤ h₁.demand [item, part]
  fails_iff_demand : (∃ e h', HeapM.list items h = .error e h') ↔
    items ≠ [] ∧ h.capacity < h.demand items + items.length
  failed : ∀ e h', HeapM.list items h = .error e h' →
    ∃ item left part h₁, h.Building items (item :: left) part h₁ ∧
      e = .outOfMemory (h₁.demand [item, part]) h.capacity ∧
        ∀ i, h'.Occupied i ↔ h₁.Needed [item, part] i
  made : ∀ v h', HeapM.list items h = .ok v h' → h'.Spine v items .nil
  kept : ∀ i, h.Needed items i →
    (heapAfter (HeapM.list items) h).object? (.slot i) = h.object? (.slot i)
  collections_le : (heapAfter (HeapM.list items) h).collections ≤ h.collections + items.length

theorem Counted.makesList {h : Heap} (c : h.Counted) (items : List Value) : h.MakesList items :=
  ⟨fun _ _ _ _ b => b.allocates c, c.list_fails_iff items, c.list_fails_iff_demand items,
    fun _ _ => c.list_failed, fun _ _ => c.list_made, fun _ => c.list_kept,
    c.list_collections_le items⟩

/-! ## The whole of it -/

/--
Allocations and the constructors of compounds fail exactly when what is needed leaves no room, and
they leave what is needed as it is.
-/
theorem memory_runs_out_exactly (h : Heap) (a : h.Arena) :
    (∀ o, h.Allocates [] o (HeapM.allocate o)) ∧
      (∀ car cdr, h.Allocates [car, cdr] (.pair car cdr) (HeapM.cons car cdr)) ∧
      (∀ params body env, h.Allocates [params, body, env.value] (.procedure params body env)
        (HeapM.procedure params body env)) ∧
      (∀ parent, h.Allocates [parent.value] (.environment .nil (some parent))
        (Env.value <$> HeapM.child parent)) ∧
      ∀ items, h.MakesList items := by
  have c := a.counted
  refine ⟨c.allocates, fun car cdr => ?_, fun params body env => ?_, fun parent => ?_, c.makesList⟩
  · exact (constructs_cons h car cdr).allocates c
  · exact (constructs_procedure h params body env).allocates c
  · exact (constructs_child h parent).allocates c

/--
A full heap with a pair that is rooted, in the slot 2, and another one that nobody needs, in the
slot 3.
-/
def littered : Heap :=
  ((Operation.cons .nil .nil).run ((Operation.cons .nil .nil).run (Heap.empty 4))).addRoot (.slot 2)

theorem wellFormed_littered : littered.WellFormed := by
  have held : ∀ v ∈ (Operation.cons .nil .nil).handles, ∀ h : Heap, h.Holds v := by
    intro v member h
    rcases List.mem_pair.1 member with rfl | rfl
    · exact holds_nil h
    · exact holds_nil h
  have one := ((Operation.cons .nil .nil).run_spec (wellFormed_empty 4) (held · · _)).1
  have two := ((Operation.cons .nil .nil).run_spec one (held · · _)).1
  exact two.addRoot (holds_slot_iff.2 (by decide +kernel))

theorem needed_littered {operands : List Value} (symbols : ∀ v ∈ operands, v = .slot 1) (i : Nat) :
    i ∈ [0, 1, 2] ↔ littered.Needed operands i := by
  have frame : littered.object? (.slot 0) = some (.environment .nil none) := rfl
  have symbol : littered.object? (.slot 1) = some (.symbol "t") := rfl
  have pair : littered.object? (.slot 2) = some (.pair .nil .nil) := rfl
  refine ⟨fun member => ?_, fun needed => needed.mem_of_closed (fun k isStart => ?_) ?_⟩
  · simp only [List.mem_cons, List.not_mem_nil, or_false] at member
    rcases member with rfl | rfl | rfl
    · exact .start (.inl .environment) (occupied_of_object? frame)
    · exact .start (.inl (.symbol wellFormed_littered.canonical)) (occupied_of_object? symbol)
    · exact .start (.inl (.stack List.mem_cons_self)) (occupied_of_object? pair)
  · rcases isStart with root | listed
    · rcases root.cases_of_symbols_empty 4 rfl rfl with same | same | member
      · cases same
        decide
      · cases same
        decide
      · cases List.mem_singleton.1 member
        decide
    · cases symbols _ listed
      decide
  · -- None of the three objects has a reference to a slot.
    simp [frame, symbol, pair, Object.references]

/--
The rooted pair and what the heap starts with leave room for one more pair once the other one has
been collected. So `(t)` can be made, but `(t t)` cannot.
-/
theorem memory_runs_out_exactly_littered :
    littered.Arena ∧ littered.live = littered.capacity ∧
      (∃ v h', HeapM.list [.slot 1] littered = .ok v h' ∧ h'.Spine v [.slot 1] .nil ∧
        h'.object? (.slot 2) = some (.pair .nil .nil)) ∧
      ∃ e h', HeapM.list [.slot 1, .slot 1] littered = .error e h' := by
  have a := wellFormed_littered.toArena
  rcases memory_runs_out_exactly littered a with ⟨_, _, _, _, makesList⟩
  have demand {operands : List Value} (symbols : ∀ v ∈ operands, v = .slot 1) :
      littered.demand operands = 3 :=
    demand_eq_length (show [0, 1, 2].Nodup by decide) (needed_littered symbols)
  have kept : littered.Needed [.slot 1] 2 := (needed_littered (by simp) 2).1 (by simp)
  refine ⟨a, by decide +kernel, ?_, ?_⟩
  · cases made : HeapM.list [.slot 1] littered with
    | ok v h' =>
        have same := (makesList [.slot 1]).kept 2 kept
        unfold heapAfter at same
        rw [made] at same
        exact ⟨v, h', rfl, (makesList [.slot 1]).made v h' made, same⟩
    | error e h' =>
        obtain ⟨-, lacks⟩ := (makesList [.slot 1]).fails_iff_demand.1 ⟨e, h', made⟩
        rw [demand (by simp)] at lacks
        exact absurd lacks (by decide +kernel)
  · refine (makesList [.slot 1, .slot 1]).fails_iff_demand.2 ⟨List.cons_ne_nil _ _, ?_⟩
    rw [demand (by simp)]
    decide +kernel

end Heap

end Lisplet
