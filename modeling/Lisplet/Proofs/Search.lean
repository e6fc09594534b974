import Lisplet.Proofs.Bindings

/-!
# Search — what is found in lists and environments that may run in circles

A search along a list or outwards from an environment ends after as many steps as there are slots.
The relations of this module count the steps without such a bound. Whatever is found in so many
steps from one place is found in another number of steps from any other place on the way, so the
bound is high enough in any heap, whether its lists and its environments have an end or not. So
what is found depends on the objects that the search can come to, and on nothing else
(`Heap.Agree.lookup_eq`).
-/

namespace Lisplet

namespace Heap

/-! ## Along a list -/

/-- The first element of a list that satisfies a condition is `w`, and `k` others come before it. -/
inductive Finds (h : Heap) (condition : Value → Bool) : Value → Nat → Value → Prop where
  | here {v car cdr : Value} : h.pair? v = some (car, cdr) → condition car = true →
      Finds h condition v 0 car
  | later {v car cdr w : Value} {k : Nat} : h.pair? v = some (car, cdr) → condition car = false →
      Finds h condition cdr k w → Finds h condition v (k + 1) w

section Lists

variable {h : Heap} {condition : Value → Bool} {v w : Value} {k : Nat}

theorem Finds.unique {k' : Nat} {w' : Value} (one : h.Finds condition v k w)
    (other : h.Finds condition v k' w') : k = k' ∧ w = w' := by
  induction one generalizing k' with
  | here goes holds =>
      cases other with
      | here goes' _ =>
          cases goes.symm.trans goes'
          exact ⟨rfl, rfl⟩
      | later goes' fails _ =>
          cases goes.symm.trans goes'
          cases holds.symm.trans fails
  | later goes fails _ ih =>
      cases other with
      | here goes' holds =>
          cases goes.symm.trans goes'
          cases holds.symm.trans fails
      | later goes' _ rest =>
          cases goes.symm.trans goes'
          rcases ih rest with ⟨rfl, rfl⟩
          exact ⟨rfl, rfl⟩

theorem Finds.exists_slot (finds : h.Finds condition v k w) :
    ∃ i, v = .slot i ∧ i < h.slots.size := by
  have pair : ∃ car cdr, h.pair? v = some (car, cdr) := by
    cases finds with
    | here goes _ => exact ⟨_, _, goes⟩
    | later goes _ _ => exact ⟨_, _, goes⟩
  rcases pair with ⟨car, cdr, goes⟩
  cases v with
  | nil => cases goes
  | slot i => exact ⟨i, rfl, lt_size_of_occupied (occupied_of_object? (pair?_eq_some_iff.1 goes))⟩

/-- On the way along the list there is a place for every smaller number of steps. -/
theorem Finds.exists_nearer (finds : h.Finds condition v k w) {l : Nat} (below : l ≤ k) :
    ∃ i, h.Finds condition (.slot i) l w := by
  induction finds with
  | here goes holds =>
      obtain rfl := Nat.le_zero.1 below
      have finds := Finds.here goes holds
      rcases finds.exists_slot with ⟨i, rfl, _⟩
      exact ⟨i, finds⟩
  | @later v car cdr w k goes fails rest ih =>
      rcases Nat.le_succ_iff.1 below with nearer | rfl
      · exact ih nearer
      · have finds := Finds.later goes fails rest
        rcases finds.exists_slot with ⟨i, rfl, _⟩
        exact ⟨i, finds⟩

theorem Finds.lt_size (finds : h.Finds condition v k w) : k < h.slots.size := by
  refine le_size_of_assigned (fun i l => h.Finds condition (.slot i) l w) ?_ ?_ ?_
  · intro i l nearer
    rcases nearer.exists_slot with ⟨_, ⟨⟩, inside⟩
    exact inside
  · intro i l l' one other
    exact (one.unique other).1
  · intro l below
    exact finds.exists_nearer (Nat.le_of_lt_succ below)

/-- Nothing is found in what is no pair. -/
theorem not_finds (ends : h.pair? v = none) : ¬ h.Finds condition v k w := by
  rintro (⟨goes, _⟩ | ⟨goes, _, _⟩)
  · cases ends.symm.trans goes
  · cases ends.symm.trans goes

theorem finds_iff {car cdr : Value} (goes : h.pair? v = some (car, cdr)) :
    h.Finds condition v k w ↔
      if condition car then k = 0 ∧ car = w else ∃ l, k = l + 1 ∧ h.Finds condition cdr l w := by
  constructor
  · intro finds
    cases finds with
    | here goes' holds =>
        cases goes.symm.trans goes'
        rw [if_pos holds]
        exact ⟨rfl, rfl⟩
    | later goes' fails rest =>
        cases goes.symm.trans goes'
        rw [if_neg (Bool.eq_false_iff.1 fails)]
        exact ⟨_, rfl, rest⟩
  · intro finds
    split at finds
    · next holds =>
      rcases finds with ⟨rfl, rfl⟩
      exact .here goes holds
    · next fails =>
      rcases finds with ⟨l, rfl, rest⟩
      exact .later goes (Bool.eq_false_iff.2 fails) rest

theorem findUpTo?_eq_some_iff {steps : Nat} :
    h.findUpTo? condition steps v = some w ↔ ∃ k < steps, h.Finds condition v k w := by
  induction steps generalizing v with
  | zero =>
      constructor
      · intro found
        cases found
      · rintro ⟨k, below, _⟩
        exact absurd below (Nat.not_lt_zero k)
  | succ steps ih =>
      rw [findUpTo?]
      cases goes : h.pair? v with
      | none =>
          constructor
          · intro found
            cases found
          · rintro ⟨k, _, finds⟩
            exact absurd finds (not_finds goes)
      | some pair =>
          rcases pair with ⟨car, cdr⟩
          simp only [finds_iff goes]
          split
          · constructor
            · rintro ⟨⟩
              exact ⟨0, Nat.succ_pos _, rfl, rfl⟩
            · rintro ⟨_, _, _, rfl⟩
              rfl
          · rw [ih]
            constructor
            · rintro ⟨l, below, rest⟩
              exact ⟨l + 1, Nat.succ_lt_succ below, l, rfl, rest⟩
            · rintro ⟨_, below, l, rfl, rest⟩
              exact ⟨l, Nat.lt_of_succ_lt_succ below, rest⟩

/-- There is no bound to how far away something is found. -/
theorem find?_eq_some_iff : h.find? condition v = some w ↔ ∃ k, h.Finds condition v k w := by
  rw [find?, findUpTo?_eq_some_iff]
  constructor
  · rintro ⟨k, _, finds⟩
    exact ⟨k, finds⟩
  · rintro ⟨k, finds⟩
    exact ⟨k, finds.lt_size, finds⟩

theorem find?_nil (h : Heap) (condition : Value → Bool) : h.find? condition .nil = none := by
  refine Option.eq_none_iff_forall_not_mem.2 fun w found => ?_
  obtain ⟨k, finds⟩ := find?_eq_some_iff.1 found
  obtain ⟨i, isNil, _⟩ := finds.exists_slot
  cases isNil

theorem find?_cons {car cdr : Value} (goes : h.pair? v = some (car, cdr)) :
    h.find? condition v = if condition car then some car else h.find? condition cdr := by
  refine Option.ext fun w => ?_
  rw [find?_eq_some_iff]
  simp only [finds_iff goes]
  split
  · constructor
    · rintro ⟨_, _, rfl⟩
      rfl
    · rintro ⟨⟩
      exact ⟨0, rfl, rfl⟩
  · rw [find?_eq_some_iff]
    constructor
    · rintro ⟨_, l, rfl, rest⟩
      exact ⟨l, rest⟩
    · rintro ⟨l, rest⟩
      exact ⟨l + 1, l, rfl, rest⟩

end Lists

/-! ## Outwards from an environment -/

/-- The nearest binding of a symbol is `b`, and `k` environments without one come before it. -/
inductive Nearest (h : Heap) (symbol : Value) : Env → Nat → Value → Prop where
  | here {env : Env} {b : Value} : env.ownBinding? h symbol = some b → Nearest h symbol env 0 b
  | outside {env parent : Env} {b : Value} {k : Nat} : env.ownBinding? h symbol = none →
      env.parent? h = some parent → Nearest h symbol parent k b → Nearest h symbol env (k + 1) b

section Environments

variable {h : Heap} {symbol b : Value} {env parent : Env} {k : Nat}

theorem Nearest.unique {k' : Nat} {b' : Value} (one : h.Nearest symbol env k b)
    (other : h.Nearest symbol env k' b') : k = k' ∧ b = b' := by
  induction one generalizing k' with
  | here own =>
      cases other with
      | here own' =>
          cases own.symm.trans own'
          exact ⟨rfl, rfl⟩
      | outside none _ _ => cases own.symm.trans none
  | outside none goes _ ih =>
      cases other with
      | here own => cases own.symm.trans none
      | outside _ goes' rest =>
          cases goes.symm.trans goes'
          rcases ih rest with ⟨rfl, rfl⟩
          exact ⟨rfl, rfl⟩

theorem Nearest.exists_slot (nearest : h.Nearest symbol env k b) :
    ∃ i, env = ⟨.slot i⟩ ∧ i < h.slots.size := by
  -- What is no environment has neither bindings nor a parent.
  have frame : ∃ frame, h.frame? env.value = some frame := by
    cases nearest with
    | here own =>
        by_contra missing
        rw [← Option.isSome_iff_exists, Option.not_isSome_iff_eq_none] at missing
        rw [Env.ownBinding?, Env.bindings, missing, find?_nil] at own
        cases own
    | outside _ goes _ =>
        rcases Option.bind_eq_some_iff.1 goes with ⟨frame, found, _⟩
        exact ⟨frame, found⟩
  rcases frame with ⟨⟨bindings, parent⟩, found⟩
  have object := frame?_eq_some_iff.1 found
  rcases env with ⟨v⟩
  cases v with
  | nil => cases object
  | slot i => exact ⟨i, rfl, lt_size_of_occupied (occupied_of_object? object)⟩

theorem Nearest.exists_nearer (nearest : h.Nearest symbol env k b) {l : Nat} (below : l ≤ k) :
    ∃ i, h.Nearest symbol ⟨.slot i⟩ l b := by
  induction nearest with
  | here own =>
      obtain rfl := Nat.le_zero.1 below
      have nearest := Nearest.here own
      rcases nearest.exists_slot with ⟨i, rfl, _⟩
      exact ⟨i, nearest⟩
  | outside none goes rest ih =>
      rcases Nat.le_succ_iff.1 below with nearer | rfl
      · exact ih nearer
      · have nearest := Nearest.outside none goes rest
        rcases nearest.exists_slot with ⟨i, rfl, _⟩
        exact ⟨i, nearest⟩

theorem Nearest.lt_size (nearest : h.Nearest symbol env k b) : k < h.slots.size := by
  refine le_size_of_assigned (fun i l => h.Nearest symbol ⟨.slot i⟩ l b) ?_ ?_ ?_
  · intro i l nearer
    rcases nearer.exists_slot with ⟨_, ⟨⟩, inside⟩
    exact inside
  · intro i l l' one other
    exact (one.unique other).1
  · intro l below
    exact nearest.exists_nearer (Nat.le_of_lt_succ below)

theorem nearest_iff_of_some {own : Value} (found : env.ownBinding? h symbol = some own) :
    h.Nearest symbol env k b ↔ k = 0 ∧ own = b := by
  constructor
  · intro nearest
    rcases (Nearest.here found).unique nearest with ⟨rfl, rfl⟩
    exact ⟨rfl, rfl⟩
  · rintro ⟨rfl, rfl⟩
    exact .here found

theorem nearest_iff_of_none (none : env.ownBinding? h symbol = none) :
    h.Nearest symbol env k b ↔
      ∃ parent l, env.parent? h = some parent ∧ k = l + 1 ∧ h.Nearest symbol parent l b := by
  constructor
  · intro nearest
    cases nearest with
    | here own => cases none.symm.trans own
    | outside _ goes rest => exact ⟨_, _, goes, rfl, rest⟩
  · rintro ⟨parent, l, goes, rfl, rest⟩
    exact .outside none goes rest

theorem bindingWithin?_eq_some_iff {steps : Nat} :
    env.bindingWithin? h symbol steps = some b ↔ ∃ k ≤ steps, h.Nearest symbol env k b := by
  induction steps generalizing env with
  | zero =>
      rw [Env.bindingWithin?]
      constructor
      · exact fun own => ⟨0, Nat.le_refl 0, .here own⟩
      · rintro ⟨k, below, nearest⟩
        cases nearest with
        | here own => exact own
        | outside _ _ _ => cases below
  | succ steps ih =>
      rw [Env.bindingWithin?]
      cases own : env.ownBinding? h symbol with
      | some b' =>
          simp only [nearest_iff_of_some own]
          constructor
          · rintro ⟨⟩
            exact ⟨0, Nat.zero_le _, rfl, rfl⟩
          · rintro ⟨_, _, _, rfl⟩
            rfl
      | none =>
          simp only [nearest_iff_of_none own]
          cases goes : env.parent? h with
          | none =>
              constructor
              · intro found
                cases found
              · rintro ⟨_, _, _, _, ⟨⟩, _⟩
          | some parent =>
              dsimp only
              rw [ih]
              constructor
              · rintro ⟨l, below, rest⟩
                exact ⟨l + 1, Nat.succ_le_succ below, parent, l, rfl, rfl, rest⟩
              · rintro ⟨_, below, _, l, ⟨⟩, rfl, rest⟩
                exact ⟨l, Nat.le_of_succ_le_succ below, rest⟩

/-- There is no bound to how far outside a binding is found. -/
theorem binding?_eq_some_iff : env.binding? h symbol = some b ↔ ∃ k, h.Nearest symbol env k b := by
  rw [Env.binding?, bindingWithin?_eq_some_iff]
  constructor
  · rintro ⟨k, _, nearest⟩
    exact ⟨k, nearest⟩
  · rintro ⟨k, nearest⟩
    exact ⟨k, nearest.lt_size.le, nearest⟩

theorem binding?_of_own (own : env.ownBinding? h symbol = some b) :
    env.binding? h symbol = some b := binding?_eq_some_iff.2 ⟨0, .here own⟩

/-- What an environment does not bind itself is bound in it as it is outside. -/
theorem binding?_of_parent (none : env.ownBinding? h symbol = none)
    (goes : env.parent? h = some parent) : env.binding? h symbol = parent.binding? h symbol := by
  refine Option.ext fun b => ?_
  rw [binding?_eq_some_iff, binding?_eq_some_iff]
  simp only [nearest_iff_of_none none]
  constructor
  · rintro ⟨_, _, l, goes', rfl, rest⟩
    cases goes.symm.trans goes'
    exact ⟨l, rest⟩
  · rintro ⟨l, rest⟩
    exact ⟨l + 1, parent, l, goes, rfl, rest⟩

end Environments

/-! ## Heaps that agree -/

/-- Two heaps have the same pairs in a part of them from which no pair leads out. -/
structure SamePairs (part : Value → Prop) (h h' : Heap) : Prop where
  pair?_eq : ∀ v, part v → h'.pair? v = h.pair? v
  pair_closed : ∀ v car cdr, part v → h.pair? v = some (car, cdr) → part car ∧ part cdr

/-- They have the same environments there as well, and none of these leads out either. -/
structure Agree (part : Value → Prop) (h h' : Heap) : Prop extends SamePairs part h h' where
  frame?_eq : ∀ v, part v → h'.frame? v = h.frame? v
  frame_closed : ∀ v bindings parent, part v → h.frame? v = some (bindings, parent) →
    part bindings ∧ ∀ p, parent = some p → part p.value

section Agreeing

variable {part : Value → Prop} {h h' : Heap} {v w tail symbol b : Value} {items : List Value}
  {condition condition' : Value → Bool} {env parent : Env} {k : Nat}

namespace SamePairs

theorem symm (a : SamePairs part h h') : SamePairs part h' h :=
  ⟨fun v inside => (a.pair?_eq v inside).symm, fun v car cdr inside goes =>
    a.pair_closed v car cdr inside ((a.pair?_eq v inside).symm.trans goes)⟩

theorem spine (a : SamePairs part h h') (inside : part v) (spine : h.Spine v items tail) :
    h'.Spine v items tail := by
  induction spine with
  | done ends => exact .done ((a.pair?_eq _ inside).trans ends)
  | step goes _ ih =>
      exact .step ((a.pair?_eq _ inside).trans goes) (ih (a.pair_closed _ _ _ inside goes).2)

theorem inside_of_finds (a : SamePairs part h h') (inside : part v)
    (finds : h.Finds condition v k w) : part w := by
  induction finds with
  | here goes _ => exact (a.pair_closed _ _ _ inside goes).1
  | later goes _ _ ih => exact ih (a.pair_closed _ _ _ inside goes).2

theorem finds (a : SamePairs part h h') (inside : part v)
    (conditions : ∀ w, part w → condition' w = condition w) (finds : h.Finds condition v k w) :
    h'.Finds condition' v k w := by
  induction finds with
  | here goes holds =>
      have car := (a.pair_closed _ _ _ inside goes).1
      exact .here ((a.pair?_eq _ inside).trans goes) ((conditions _ car).trans holds)
  | later goes fails _ ih =>
      have parts := a.pair_closed _ _ _ inside goes
      exact .later ((a.pair?_eq _ inside).trans goes) ((conditions _ parts.1).trans fails)
        (ih parts.2)

theorem find?_eq (a : SamePairs part h h') (inside : part v)
    (conditions : ∀ w, part w → condition' w = condition w) :
    h'.find? condition' v = h.find? condition v := by
  refine Option.ext fun w => ?_
  rw [find?_eq_some_iff, find?_eq_some_iff]
  constructor
  · rintro ⟨k, found⟩
    exact ⟨k, a.symm.finds inside (fun w inside => (conditions w inside).symm) found⟩
  · rintro ⟨k, found⟩
    exact ⟨k, a.finds inside conditions found⟩

/-- A list of bindings has the same binding of a symbol, if its pairs are the same. -/
theorem findBinding_eq (a : SamePairs part h h') (inside : part v) :
    h'.find? (fun b => h'.car? b == some symbol) v =
      h.find? (fun b => h.car? b == some symbol) v := by
  refine a.find?_eq inside fun w inside => ?_
  rw [car?, car?, a.pair?_eq w inside]

end SamePairs

namespace Agree

/-- It is enough that the objects are the same and that no reference leads out. -/
theorem of_objects (same : ∀ v, part v → h'.object? v = h.object? v)
    (closed : ∀ v o, part v → h.object? v = some o → ∀ w ∈ o.references, part w) :
    Agree part h h' := by
  refine ⟨⟨fun v inside => ?_, fun v car cdr inside goes => ?_⟩, fun v inside => ?_, ?_⟩
  · rw [pair?, pair?, same v inside]
  · have referred := closed v _ inside (pair?_eq_some_iff.1 goes)
    exact ⟨referred car (by simp [Object.references]), referred cdr (by simp [Object.references])⟩
  · rw [frame?, frame?, same v inside]
  · intro v bindings parent inside found
    have referred := closed v _ inside (frame?_eq_some_iff.1 found)
    refine ⟨referred bindings (Object.bindings_mem_references bindings parent), ?_⟩
    rintro p rfl
    exact referred p.value (by simp [Object.references])

theorem symm (a : Agree part h h') : Agree part h' h :=
  ⟨a.toSamePairs.symm, fun v inside => (a.frame?_eq v inside).symm,
    fun v bindings parent inside found =>
      a.frame_closed v bindings parent inside ((a.frame?_eq v inside).symm.trans found)⟩

theorem bindings_eq (a : Agree part h h') (inside : part env.value) :
    env.bindings h' = env.bindings h := by
  rw [Env.bindings, Env.bindings, a.frame?_eq _ inside]

theorem parent?_eq (a : Agree part h h') (inside : part env.value) :
    env.parent? h' = env.parent? h := by
  rw [Env.parent?, Env.parent?, a.frame?_eq _ inside]

theorem inside_parent (a : Agree part h h') (inside : part env.value)
    (goes : env.parent? h = some parent) : part parent.value := by
  rcases Option.bind_eq_some_iff.1 goes with ⟨⟨bindings, outer⟩, found, rfl⟩
  exact (a.frame_closed _ _ _ inside found).2 parent rfl

/-- The bindings are inside as well, if there are any. -/
theorem inside_bindings (a : Agree part h h') (inside : part env.value) :
    part (env.bindings h) ∨ env.bindings h = .nil := by
  unfold Env.bindings
  split
  · next bindings outer found => exact .inl (a.frame_closed _ _ _ inside found).1
  · exact .inr rfl

theorem ownBinding?_eq (a : Agree part h h') (inside : part env.value) :
    env.ownBinding? h' symbol = env.ownBinding? h symbol := by
  unfold Env.ownBinding?
  rw [a.bindings_eq inside]
  rcases a.inside_bindings inside with within | none
  · exact a.findBinding_eq within
  · rw [none, find?_nil, find?_nil]

theorem inside_ownBinding (a : Agree part h h') (inside : part env.value)
    (own : env.ownBinding? h symbol = some b) : part b := by
  rcases find?_eq_some_iff.1 own with ⟨k, finds⟩
  rcases a.inside_bindings inside with within | none
  · exact a.inside_of_finds within finds
  · rw [none] at finds
    obtain ⟨i, isNil, _⟩ := finds.exists_slot
    cases isNil

theorem nearest (a : Agree part h h') (inside : part env.value)
    (nearest : h.Nearest symbol env k b) : h'.Nearest symbol env k b ∧ part b := by
  induction nearest with
  | here own => exact ⟨.here ((a.ownBinding?_eq inside).trans own), a.inside_ownBinding inside own⟩
  | outside none goes _ ih =>
      rcases ih (a.inside_parent inside goes) with ⟨rest, within⟩
      refine ⟨.outside ((a.ownBinding?_eq inside).trans none) ?_ rest, within⟩
      exact (a.parent?_eq inside).trans goes

theorem binding?_eq (a : Agree part h h') (inside : part env.value) :
    env.binding? h' symbol = env.binding? h symbol := by
  refine Option.ext fun b => ?_
  rw [binding?_eq_some_iff, binding?_eq_some_iff]
  constructor
  · rintro ⟨k, found⟩
    exact ⟨k, (a.symm.nearest inside found).1⟩
  · rintro ⟨k, found⟩
    exact ⟨k, (a.nearest inside found).1⟩

theorem inside_binding (a : Agree part h h') (inside : part env.value)
    (found : env.binding? h symbol = some b) : part b := by
  rcases binding?_eq_some_iff.1 found with ⟨k, nearest⟩
  exact (a.nearest inside nearest).2

/-- A lookup finds the same value, or nothing under the same name. -/
theorem lookup_eq (a : Agree part h h') (inside : part env.value) {name : String}
    (isSymbol : h.object? symbol = some (.symbol name))
    (isSymbol' : h'.object? symbol = some (.symbol name)) :
    env.lookup h' symbol = env.lookup h symbol := by
  refine lookup_congr isSymbol isSymbol' (a.binding?_eq inside) fun b found => ?_
  rw [cdr?, cdr?, a.pair?_eq _ (a.inside_binding inside found)]

end Agree

end Agreeing

/-! ## What can be reached -/

/-- The value is nil, or it can be reached from where one starts. -/
def Within (h : Heap) (start : Value → Prop) (v : Value) : Prop :=
  v = .nil ∨ ∃ i, v = .slot i ∧ h.ReachableFrom start i

section Reaching

variable {h h' : Heap} {start : Value → Prop} {v : Value} {o : Object}

theorem Arena.within_reference (a : h.Arena) (within : h.Within start v)
    (found : h.object? v = some o) : ∀ u ∈ o.references, h.Within start u := by
  intro u member
  rcases within with rfl | ⟨i, rfl, reached⟩
  · cases found
  · cases u with
    | nil => exact .inl rfl
    | slot k =>
        have occupied := holds_slot_iff.1 (a.references_held i o found _ member)
        exact .inr ⟨k, rfl, .reference reached found member occupied⟩

theorem Arena.within_bindings (a : h.Arena) (within : h.Within start v) {bindings : Value}
    {parent : Option Env} (found : h.object? v = some (.environment bindings parent)) :
    h.Within start bindings := by
  refine a.within_reference within found bindings ?_
  cases parent with
  | none => exact List.mem_cons_self
  | some parent => exact List.mem_cons_self

/-- What can be reached leads to nothing but what can be reached. -/
theorem Arena.agree (a : h.Arena)
    (kept : ∀ i, h.ReachableFrom start i → h'.object? (.slot i) = h.object? (.slot i)) :
    Agree (h.Within start) h h' := by
  refine .of_objects (fun v within => ?_) fun v o within found => a.within_reference within found
  rcases within with rfl | ⟨i, rfl, reached⟩
  · rfl
  · exact kept i reached

end Reaching

end Heap

end Lisplet
