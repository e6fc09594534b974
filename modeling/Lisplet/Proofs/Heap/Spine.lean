import Lisplet.Environment
import Lisplet.Proofs.Heap.Datum

/-!
# Spine — walks along lists and environments

The walks along a list and outwards from an environment are bounded by the number of slots. The
relations of this module have no such bound; what they say of a list or an environment holds of
the walk too, since no slot is passed twice on the way to an end.
-/

namespace Lisplet

namespace Env

variable {h : Heap} {env : Env} {bindings : Value} {parent : Option Env}

theorem bindings_eq (found : h.object? env.value = some (.environment bindings parent)) :
    env.bindings h = bindings := by
  unfold Env.bindings
  rw [Heap.frame?_eq_some_iff.2 found]

theorem parent?_eq (found : h.object? env.value = some (.environment bindings parent)) :
    env.parent? h = parent := by
  unfold parent?
  rw [Heap.frame?_eq_some_iff.2 found]
  rfl

end Env

namespace Heap

/-! ## Lists -/

/-- A walk along the pairs of a list passes `items` and ends in `tail`. -/
inductive Spine (h : Heap) : Value → List Value → Value → Prop where
  | done {v : Value} : h.pair? v = none → Spine h v [] v
  | step {v car cdr tail : Value} {items : List Value} : h.pair? v = some (car, cdr) →
      Spine h cdr items tail → Spine h v (car :: items) tail

section Lists

variable {h : Heap} {v tail : Value} {items : List Value}

theorem Spine.unique {items' : List Value} {tail' : Value} (one : h.Spine v items tail)
    (other : h.Spine v items' tail') : items = items' ∧ tail = tail' := by
  induction one generalizing items' with
  | done ends =>
      cases other with
      | done _ => exact ⟨rfl, rfl⟩
      | step goes _ =>
          rw [ends] at goes
          cases goes
  | step goes _ ih =>
      cases other with
      | done ends =>
          rw [ends] at goes
          cases goes
      | step goes' rest =>
          rw [goes] at goes'
          cases goes'
          rcases ih rest with ⟨rfl, rfl⟩
          exact ⟨rfl, rfl⟩

/-- On the way along a list every smaller length is met. -/
theorem Spine.exists_length (spine : h.Spine v items tail) {k : Nat} (below : k < items.length) :
    ∃ i items' tail', h.Spine (.slot i) items' tail' ∧ items'.length = k + 1 := by
  -- Induction on the walk: every suffix of the list starts at a pair of its own.
  induction spine with
  | done _ => exact absurd below (Nat.not_lt_zero k)
  | @step v car cdr tail items goes rest ih =>
      by_cases later : k < items.length
      · exact ih later
      · have here : items.length = k := by
          rw [List.length_cons] at below
          omega
        cases v with
        | nil => cases goes
        | slot i =>
            refine ⟨i, car :: items, tail, .step goes rest, ?_⟩
            rw [List.length_cons, here]

theorem Spine.length_le (spine : h.Spine v items tail) : items.length ≤ h.slots.size := by
  -- A slot belongs to the length of the list that starts there.
  refine le_size_of_assigned
    (fun i k => ∃ items' tail', h.Spine (.slot i) items' tail' ∧ items'.length = k + 1) ?_ ?_ ?_
  · rintro i k ⟨items', tail', spine', length⟩
    cases spine' with
    | done _ => cases length
    | step goes _ => exact lt_size_of_occupied (occupied_of_object? (pair?_eq_some_iff.1 goes))
  · rintro i k k' ⟨items₁, tail₁, spine₁, length₁⟩ ⟨items₂, tail₂, spine₂, length₂⟩
    rw [(spine₁.unique spine₂).1] at length₁
    omega
  · intro k below
    exact spine.exists_length below

theorem spineOnto_eq (spine : h.Spine v items tail) {steps : Nat} (enough : items.length ≤ steps)
    (found : Array Value) : h.spineOnto found steps v = (found ++ items.toArray, tail) := by
  -- Induction on the walk, with enough steps left for the rest of it.
  induction spine generalizing steps found with
  | done ends =>
      cases steps with
      | zero => simp [spineOnto]
      | succ steps => simp [spineOnto, ends]
  | step goes _ ih =>
      cases steps with
      | zero => cases enough
      | succ steps =>
          rw [spineOnto, goes]
          simp only
          rw [ih (Nat.le_of_succ_le_succ enough)]
          simp

theorem spine_eq (spine : h.Spine v items tail) : h.spine v = (items, tail) := by
  simp [Heap.spine, spineOnto_eq spine spine.length_le]

theorem listLength_eq (spine : h.Spine v items tail) : h.listLength v = items.length := by
  rw [listLength, spine_eq spine]

theorem items?_eq (spine : h.Spine v items tail) :
    h.items? v = if tail.isNil then some items else none := by
  rw [items?, spine_eq spine]
  cases tail with
  | nil => rfl
  | slot i => rfl

/-- The elements of a proper list are on a walk that ends in nil. -/
theorem spine_of_items? (found : h.items? v = some items) : h.Spine v items .nil := by
  have walks : ∀ (steps : Nat) (before : Array Value) (v : Value) {items : Array Value},
      h.spineOnto before steps v = (items, .nil) →
        ∃ rest, items.toList = before.toList ++ rest ∧ h.Spine v rest .nil := by
    intro steps
    induction steps with
    | zero =>
        intro before v items walk
        cases walk
        exact ⟨[], by simp, .done rfl⟩
    | succ steps ih =>
        intro before v items walk
        unfold spineOnto at walk
        split at walk
        · next car cdr goes =>
          rcases ih _ _ walk with ⟨rest, same, spine⟩
          exact ⟨car :: rest, by simpa using same, .step goes spine⟩
        · next ends =>
          cases walk
          exact ⟨[], by simp, .done ends⟩
  rcases walk : h.spineOnto #[] h.slots.size v with ⟨items, tail⟩
  rw [items?, Heap.spine, walk] at found
  cases tail with
  | slot i => cases found
  | nil =>
      cases found
      rcases walks _ _ _ walk with ⟨rest, same, spine⟩
      exact (show items.toList = rest by simpa using same) ▸ spine

theorem items?_eq_some_iff : h.items? v = some items ↔ h.Spine v items .nil := by
  refine ⟨spine_of_items?, fun spine => ?_⟩
  rw [items?_eq spine]
  rfl

theorem findUpTo?_eq (spine : h.Spine v items tail) (condition : Value → Bool) {steps : Nat}
    (enough : items.length ≤ steps) :
    h.findUpTo? condition steps v = items.find? condition := by
  induction spine generalizing steps with
  | done ends =>
      cases steps with
      | zero => rfl
      | succ steps => rw [findUpTo?, ends, List.find?_nil]
  | step goes _ ih =>
      cases steps with
      | zero => cases enough
      | succ steps =>
          rw [findUpTo?, goes]
          simp only
          rw [ih (Nat.le_of_succ_le_succ enough), List.find?_cons]
          split
          · next holds => rw [holds]
          · next fails => simp [fails]

theorem find?_eq (spine : h.Spine v items tail) (condition : Value → Bool) :
    h.find? condition v = items.find? condition := findUpTo?_eq spine condition spine.length_le

section SameObjects

variable {h' : Heap} (same : ∀ v, h'.object? v = h.object? v)
include same

theorem pair?_congr (v : Value) : h'.pair? v = h.pair? v := by
  rw [pair?, pair?, same]

theorem symbolName?_congr : h'.symbolName? = h.symbolName? := by
  funext v
  rw [symbolName?, symbolName?, same]

theorem Spine.congr (spine : h.Spine v items tail) : h'.Spine v items tail := by
  induction spine with
  | done ends => exact .done ((pair?_congr same _).trans ends)
  | step goes _ ih => exact .step ((pair?_congr same _).trans goes) ih

theorem items?_congr : h'.items? = h.items? := by
  funext v
  refine Option.ext fun items => ?_
  rw [items?_eq_some_iff, items?_eq_some_iff]
  exact ⟨Spine.congr fun v => (same v).symm, Spine.congr same⟩

end SameObjects

end Lists

/-! ## Environments -/

/-- A walk from an environment outwards passes `envs`. -/
inductive Chain (h : Heap) : Env → List Env → Prop where
  | outermost {env : Env} : env.parent? h = none → Chain h env [env]
  | inner {env parent : Env} {envs : List Env} : env.parent? h = some parent →
      Chain h parent envs → Chain h env (env :: envs)

section Environments

variable {h : Heap} {env : Env} {envs : List Env}

theorem Chain.unique {envs' : List Env} (one : h.Chain env envs) (other : h.Chain env envs') :
    envs = envs' := by
  induction one generalizing envs' with
  | outermost ends =>
      cases other with
      | outermost _ => rfl
      | inner goes _ =>
          rw [ends] at goes
          cases goes
  | inner goes _ ih =>
      cases other with
      | outermost ends =>
          rw [ends] at goes
          cases goes
      | inner goes' rest =>
          rw [goes] at goes'
          cases goes'
          rw [ih rest]

theorem Chain.exists_length (chain : h.Chain env envs) {k : Nat} (below : k + 1 < envs.length) :
    ∃ i envs', h.Chain ⟨.slot i⟩ envs' ∧ envs'.length = k + 2 := by
  induction chain with
  | outermost _ => exact absurd below (by simp)
  | @inner env parent envs goes rest ih =>
      by_cases later : k + 1 < envs.length
      · exact ih later
      · have here : envs.length = k + 1 := by
          rw [List.length_cons] at below
          omega
        rcases env with ⟨v⟩
        cases v with
        | nil => cases goes
        | slot i =>
            refine ⟨i, _, .inner goes rest, ?_⟩
            rw [List.length_cons, here]

theorem Chain.length_le (chain : h.Chain env envs) : envs.length ≤ h.slots.size + 1 := by
  -- Every environment but the outermost one is in a slot that has a parent in it.
  have inner : envs.length - 1 ≤ h.slots.size := by
    refine le_size_of_assigned
      (fun i k => ∃ envs', h.Chain ⟨.slot i⟩ envs' ∧ envs'.length = k + 2) ?_ ?_ ?_
    · rintro i k ⟨envs', chain', length⟩
      cases chain' with
      | outermost _ => cases length
      | inner goes _ =>
          rcases Option.bind_eq_some_iff.1 goes with ⟨frame, found, _⟩
          exact lt_size_of_occupied (occupied_of_object? (frame?_eq_some_iff.1 found))
    · rintro i k k' ⟨envs₁, chain₁, length₁⟩ ⟨envs₂, chain₂, length₂⟩
      rw [chain₁.unique chain₂] at length₁
      omega
    · intro k below
      exact chain.exists_length (by omega)
  omega

theorem chainUpTo_eq (chain : h.Chain env envs) {steps : Nat} (enough : envs.length ≤ steps + 1) :
    env.chainUpTo h steps = envs := by
  induction chain generalizing steps with
  | outermost ends =>
      cases steps with
      | zero => rfl
      | succ steps => rw [Env.chainUpTo, ends]
  | inner goes rest ih =>
      cases steps with
      | zero => cases rest <;> simp at enough
      | succ steps =>
          rw [Env.chainUpTo, goes]
          exact congrArg _ (ih (Nat.le_of_succ_le_succ enough))

theorem chain_eq (chain : h.Chain env envs) : env.chain h = envs :=
  chainUpTo_eq chain chain.length_le

theorem bindingWithin?_eq (chain : h.Chain env envs) (symbol : Value) {steps : Nat}
    (enough : envs.length ≤ steps + 1) :
    env.bindingWithin? h symbol steps = envs.findSome? fun env => env.ownBinding? h symbol := by
  induction chain generalizing steps with
  | @outermost env ends =>
      cases steps with
      | zero => simp [Env.bindingWithin?]
      | succ steps =>
          rw [Env.bindingWithin?, ends]
          cases own : env.ownBinding? h symbol with
          | none => simp [own]
          | some binding => simp [own]
  | @inner env parent envs goes rest ih =>
      cases steps with
      | zero => cases rest <;> simp at enough
      | succ steps =>
          have later := ih (Nat.le_of_succ_le_succ enough)
          rw [Env.bindingWithin?, goes]
          cases own : env.ownBinding? h symbol with
          | none => simp [own, later]
          | some binding => simp [own]

theorem binding?_eq (chain : h.Chain env envs) (symbol : Value) :
    env.binding? h symbol = envs.findSome? fun env => env.ownBinding? h symbol :=
  bindingWithin?_eq chain symbol chain.length_le

end Environments

end Heap

end Lisplet
