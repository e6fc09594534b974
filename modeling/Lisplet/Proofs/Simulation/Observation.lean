import Lisplet.Proofs.Heap.Spine
import Lisplet.Proofs.Simulation.Agreement

/-!
# Observation — corresponding heaps read alike

Whatever a program reads off a value it reads off the twin of the value too: its kind, its parts,
the elements of a list, the binding of a symbol. Handles that turn up are twins again. Walks are
compared by induction on the rank of the slots they pass.
-/

namespace Lisplet

namespace Simulation

variable {ρ : Pairing} {h h' : Heap} {r : Role} {v v' : Value}

/-! ## Objects and kinds -/

/-- The objects of twins are alike. -/
theorem Corresponds.object?_rel (c : Corresponds ρ h h') (twins : Twins ρ r v v') :
    Option.Rel (Alike ρ r) (h.object? v) (h'.object? v') := by
  rcases twins.cases with ⟨rfl, rfl⟩ | ⟨i, j, rfl, rfl, paired⟩
  · exact .none
  · rcases c.alike r i j paired with ⟨o, o', found, found', alike⟩
    rw [found, found']
    exact .some alike

theorem Alike.kind_eq {o o' : Object} (alike : Alike ρ r o o') : o'.kind = o.kind := by
  cases alike with
  | _ => rfl

namespace Corresponds

theorem kind_eq (c : Corresponds ρ h h') (twins : Twins ρ r v v') : h'.kind v' = h.kind v := by
  rcases twins.cases with ⟨rfl, rfl⟩ | ⟨i, j, rfl, rfl, paired⟩
  · rfl
  · rcases c.alike r i j paired with ⟨o, o', found, found', alike⟩
    simp only [Heap.kind, found, found', alike.kind_eq]

theorem isPair_eq (c : Corresponds ρ h h') (twins : Twins ρ r v v') :
    h'.isPair v' = h.isPair v := by
  rw [Heap.isPair, Heap.isPair, c.kind_eq twins]

theorem isSymbol_eq (c : Corresponds ρ h h') (twins : Twins ρ r v v') :
    h'.isSymbol v' = h.isSymbol v := by
  rw [Heap.isSymbol, Heap.isSymbol, c.kind_eq twins]

theorem isString_eq (c : Corresponds ρ h h') (twins : Twins ρ r v v') :
    h'.isString v' = h.isString v := by
  rw [Heap.isString, Heap.isString, c.kind_eq twins]

theorem isNumber_eq (c : Corresponds ρ h h') (twins : Twins ρ r v v') :
    h'.isNumber v' = h.isNumber v := by
  rw [Heap.isNumber, Heap.isNumber, c.kind_eq twins]

theorem isError_eq (c : Corresponds ρ h h') (twins : Twins ρ r v v') :
    h'.isError v' = h.isError v := by
  rw [Heap.isError, Heap.isError, c.kind_eq twins]

end Corresponds

/-- An error value is a fault, and no datum is one. -/
theorem Corresponds.isError_of_fault (c : Corresponds ρ h h') {i : Nat}
    (twins : Twins ρ .fault (.slot i) v') : h.isError (.slot i) = true := by
  rcases twins.slot with ⟨j, rfl, paired⟩
  rcases c.alike _ i j paired with ⟨o, o', found, _, alike⟩
  cases alike with
  | fault kind _ => simp [Heap.isError, Heap.kind, found, Object.kind]

theorem Corresponds.isError_of_datum (c : Corresponds ρ h h') (twins : Twins ρ .datum v v') :
    h.isError v = false := by
  rcases twins.cases with ⟨rfl, rfl⟩ | ⟨i, j, rfl, rfl, paired⟩
  · rfl
  · rcases c.alike _ i j paired with ⟨o, o', found, _, alike⟩
    have isData : (o.kind == .error) = false := by
      cases alike with
      | plain isPlain =>
          cases o with
          | error _ _ => exact absurd isPlain id
          | _ => rfl
      | pair _ _ => rfl
      | procedure _ _ _ => rfl
    simpa [Heap.isError, Heap.kind, found] using isData

/-! ## Symbols -/

theorem Simulates.t_twins (s : Simulates ρ h h') : Twins ρ .datum h.t h'.t := by
  have listed := s.symbols "t"
  rw [s.left.canonical, s.right.canonical] at listed
  cases listed with
  | some twins => exact twins

theorem Simulates.boolean_twins (s : Simulates ρ h h') (b : Bool) :
    Twins ρ .datum (h.boolean b) (h'.boolean b) := by
  cases b with
  | false => trivial
  | true => exact s.t_twins

theorem Simulates.isSelfEvaluating_eq (s : Simulates ρ h h') (twins : Twins ρ .datum v v') :
    h'.isSelfEvaluating v' = h.isSelfEvaluating v := by
  -- Being the canonical truth is a matter of the handle, which has one twin.
  have same : (v' == h'.t) = (v == h.t) := by
    rw [Bool.eq_iff_iff, beq_iff_eq, beq_iff_eq]
    exact (s.twins_eq_iff twins s.t_twins).symm
  rw [Heap.isSelfEvaluating, Heap.isSelfEvaluating, twins.isNil_eq, same, s.isNumber_eq twins,
    s.isString_eq twins]

theorem Corresponds.symbolName?_eq (c : Corresponds ρ h h') (twins : Twins ρ .datum v v') :
    h'.symbolName? v' = h.symbolName? v := by
  unfold Heap.symbolName?
  rcases rel_cases (c.object?_rel twins) with ⟨found, found'⟩ | ⟨o, o', found, found', alike⟩
  · rw [found, found']
  · rw [found, found']
    cases alike with
    | _ => rfl

/-! ## Pairs -/

/-- The role of the car of a pair. -/
def Role.car : Role → Role
  | .spine => .binding
  | _ => .datum

/-- The role of the cdr of a pair. -/
def Role.cdr : Role → Role
  | .spine => .spine
  | _ => .datum

/-- The parts of twins that are pairs are twins. -/
theorem Corresponds.pair?_rel (c : Corresponds ρ h h') (twins : Twins ρ r v v') :
    Option.Rel (fun p p' => Twins ρ r.car p.1 p'.1 ∧ Twins ρ r.cdr p.2 p'.2)
      (h.pair? v) (h'.pair? v') := by
  unfold Heap.pair?
  rcases rel_cases (c.object?_rel twins) with ⟨found, found'⟩ | ⟨o, o', found, found', alike⟩
  · rw [found, found']
    exact .none
  · rw [found, found']
    cases alike with
    | @plain o isPlain =>
        cases o with
        | pair _ _ => exact absurd isPlain id
        | _ => exact .none
    | pair car cdr => exact .some ⟨car, cdr⟩
    | spine binding rest => exact .some ⟨binding, rest⟩
    | binding symbol value => exact .some ⟨symbol, value⟩
    | _ => exact .none

theorem Corresponds.car?_rel (c : Corresponds ρ h h') (twins : Twins ρ r v v') :
    Option.Rel (Twins ρ r.car) (h.car? v) (h'.car? v') := by
  unfold Heap.car?
  rcases rel_cases (c.pair?_rel twins) with ⟨ends, ends'⟩ | ⟨p, p', goes, goes', parts⟩
  · rw [ends, ends']
    exact .none
  · rw [goes, goes']
    exact .some parts.1

theorem Corresponds.cdr?_rel (c : Corresponds ρ h h') (twins : Twins ρ r v v') :
    Option.Rel (Twins ρ r.cdr) (h.cdr? v) (h'.cdr? v') := by
  unfold Heap.cdr?
  rcases rel_cases (c.pair?_rel twins) with ⟨ends, ends'⟩ | ⟨p, p', goes, goes', parts⟩
  · rw [ends, ends']
    exact .none
  · rw [goes, goes']
    exact .some parts.2

/-- The parts of a pair that is kept are kept. -/
theorem Kept.pair?_rel (kept : Kept ρ h .datum v v') (c : Corresponds ρ h h') :
    Option.Rel (fun p p' => Kept ρ h .datum p.1 p'.1 ∧ Kept ρ h .datum p.2 p'.2)
      (h.pair? v) (h'.pair? v') := by
  rcases kept.twins.cases with ⟨rfl, rfl⟩ | ⟨i, j, rfl, rfl, paired⟩
  · exact .none
  · rcases rel_cases (c.pair?_rel kept.twins) with ⟨ends, ends'⟩ |
      ⟨⟨car, cdr⟩, p', goes, goes', parts⟩
    · rw [ends, ends']
      exact .none
    · have found := Heap.pair?_eq_some_iff.1 goes
      rw [goes, goes']
      refine .some ⟨⟨?_, parts.1⟩, ⟨?_, parts.2⟩⟩
      · exact .part kept.tethered paired found List.mem_cons_self
      · exact .part kept.tethered paired found (by simp [Object.references])

/-! ## Induction on data -/

/--
What holds of paired slots as soon as it holds of the slots that follow them in data without
cycles holds of all twins.
-/
theorem Simulates.twins_induction (s : Simulates ρ h h') {motive : Value → Value → Prop}
    (twins : Twins ρ r v v') (nil : motive .nil .nil)
    (slot : ∀ i j o, ρ r i j → h.object? (.slot i) = some o →
      (∀ w w', w ∈ descent r o → Twins ρ r w w' → motive w w') → motive (.slot i) (.slot j)) :
    motive v v' := by
  rcases s.ranked with ⟨rank, ranked⟩
  rcases twins.cases with ⟨rfl, rfl⟩ | ⟨i, j, rfl, rfl, paired⟩
  · exact nil
  · clear twins
    -- The rank goes down along every descent.
    induction next : rank i using Nat.strongRecOn generalizing i j with
    | ind n ih =>
        rcases s.alike r i j paired with ⟨o, o', found, _, _⟩
        refine slot i j o paired found fun w w' member twins => ?_
        rcases twins.cases with ⟨rfl, rfl⟩ | ⟨k, l, rfl, rfl, paired'⟩
        · exact nil
        · have lower := ranked r i j o k paired found member
          exact ih (rank k) (next ▸ lower) k l paired' rfl

/-! ## Lists -/

/-- The lists that twins are have twins as elements, and tails that are twins. -/
theorem Simulates.exists_spine (s : Simulates ρ h h') (isList : r = .datum ∨ r = .spine)
    (twins : Twins ρ r v v') :
    ∃ items tail items' tail', h.Spine v items tail ∧ h'.Spine v' items' tail' ∧
      List.Forall₂ (Twins ρ r.car) items items' ∧ Twins ρ r tail tail' := by
  refine s.twins_induction (motive := fun v v' => ∃ items tail items' tail',
    h.Spine v items tail ∧ h'.Spine v' items' tail' ∧
      List.Forall₂ (Twins ρ r.car) items items' ∧ Twins ρ r tail tail') twins ?_ ?_
  · exact ⟨[], .nil, [], .nil, .done rfl, .done rfl, .nil, trivial⟩
  · intro i j o paired found follows
    have twins : Twins ρ r (.slot i) (.slot j) := paired
    rcases rel_cases (s.pair?_rel twins) with ⟨ends, ends'⟩ |
      ⟨⟨car, cdr⟩, ⟨car', cdr'⟩, goes, goes', twinsCar, twinsCdr⟩
    · exact ⟨[], .slot i, [], .slot j, .done ends, .done ends', .nil, paired⟩
    · have same := Heap.pair?_eq_some_iff.1 goes
      rw [found] at same
      cases same
      -- The cdr is where both kinds of lists go on, so the ranks bound the walk.
      have goesOn : cdr ∈ descent r (.pair car cdr) ∧ r.cdr = r := by
        rcases isList with rfl | rfl
        · exact ⟨by simp [descent], rfl⟩
        · exact ⟨by simp [descent], rfl⟩
      rw [goesOn.2] at twinsCdr
      rcases follows cdr cdr' goesOn.1 twinsCdr with
        ⟨items, tail, items', tail', rest, rest', twinItems, twinTail⟩
      exact ⟨car :: items, tail, car' :: items', tail', .step goes rest, .step goes' rest',
        .cons twinsCar twinItems, twinTail⟩

/-- The elements and the tail of a list that is kept are kept. -/
theorem Kept.spine {items : List Value} {tail : Value} (kept : Kept ρ h .datum v v')
    (c : Corresponds ρ h h') (spine : h.Spine v items tail) :
    (∀ u ∈ items, Tethered ρ h u) ∧ Tethered ρ h tail := by
  -- Induction on the walk: a part of a kept pair is kept.
  induction spine generalizing v' with
  | done _ => exact ⟨List.forall_mem_nil _, kept.tethered⟩
  | step goes _ ih =>
      rcases rel_cases (kept.pair?_rel c) with ⟨ends, _⟩ | ⟨p, p', goes₁, _, parts⟩
      · rw [goes] at ends
        cases ends
      · rw [goes] at goes₁
        cases goes₁
        rcases ih parts.2 with ⟨keptItems, keptTail⟩
        refine ⟨fun u member => ?_, keptTail⟩
        rcases List.mem_cons.1 member with rfl | later
        · exact parts.1.tethered
        · exact keptItems u later

/-- Lists that correspond have corresponding elements. -/
theorem Simulates.items?_rel (s : Simulates ρ h h') (twins : Twins ρ .datum v v') :
    Option.Rel (List.Forall₂ (Twins ρ .datum)) (h.items? v) (h'.items? v') := by
  rcases s.exists_spine (.inl rfl) twins with
    ⟨items, tail, items', tail', spine, spine', twinItems, twinTail⟩
  rw [Heap.items?_eq spine, Heap.items?_eq spine', twinTail.isNil_eq]
  split
  · exact .some twinItems
  · exact .none

theorem Kept.items?_rel (kept : Kept ρ h .datum v v') (s : Simulates ρ h h') :
    Option.Rel (List.Forall₂ (Kept ρ h .datum)) (h.items? v) (h'.items? v') := by
  rcases s.exists_spine (.inl rfl) kept.twins with
    ⟨items, tail, items', tail', spine, spine', twinItems, twinTail⟩
  rw [Heap.items?_eq spine, Heap.items?_eq spine', twinTail.isNil_eq]
  split
  · have tethered := (kept.spine s.toCorresponds spine).1
    have both := (List.forall₂_and_left items items').2 ⟨tethered, twinItems⟩
    exact .some (both.imp fun u u' kept => ⟨kept.1, kept.2⟩)
  · exact .none

theorem Simulates.listLength_eq (s : Simulates ρ h h') (twins : Twins ρ .datum v v') :
    h'.listLength v' = h.listLength v := by
  rcases s.exists_spine (.inl rfl) twins with
    ⟨items, tail, items', tail', spine, spine', twinItems, _⟩
  calc
    h'.listLength v' = items'.length := Heap.listLength_eq spine'
    _ = items.length := twinItems.length_eq.symm
    _ = h.listLength v := (Heap.listLength_eq spine).symm

/-! ## Environments -/

section Environments

variable {env env' : Env} {symbol symbol' : Value}

theorem find?_rel {α β : Type} {R : α → β → Prop} {l : List α} {l' : List β}
    (related : List.Forall₂ R l l') (p : α → Bool) (p' : β → Bool)
    (agree : ∀ a b, R a b → p' b = p a) :
    Option.Rel R (l.find? p) (l'.find? p') := by
  induction related with
  | nil => exact .none
  | @cons a b l l' both _ ih =>
      rw [List.find?_cons, List.find?_cons, agree a b both]
      split
      · exact .some both
      · exact ih

theorem findSome?_rel {α β γ δ : Type} {R : α → β → Prop} {S : γ → δ → Prop} {l : List α}
    {l' : List β} {f : α → Option γ} {f' : β → Option δ} (related : List.Forall₂ R l l')
    (agree : ∀ a b, R a b → Option.Rel S (f a) (f' b)) :
    Option.Rel S (l.findSome? f) (l'.findSome? f') := by
  induction related with
  | nil => exact .none
  | @cons a b l l' both _ ih =>
      have first := agree a b both
      rw [List.findSome?_cons, List.findSome?_cons]
      generalize f a = x at first ⊢
      generalize f' b = y at first ⊢
      cases first with
      | none => exact ih
      | some found => exact .some found

/-- The bindings and the parents of corresponding environments correspond. -/
theorem Corresponds.frame_twins (c : Corresponds ρ h h')
    (twins : Twins ρ .frame env.value env'.value) :
    Twins ρ .spine (env.bindings h) (env'.bindings h') ∧
      Option.Rel (fun parent parent' => Twins ρ .frame parent.value parent'.value)
        (env.parent? h) (env'.parent? h') := by
  have objects := c.object?_rel twins
  unfold Env.bindings Env.parent? Heap.frame?
  generalize h.object? env.value = x at objects ⊢
  generalize h'.object? env'.value = y at objects ⊢
  cases objects with
  | none => exact ⟨trivial, .none⟩
  | some alike =>
      cases alike with
      | root bindings => exact ⟨bindings, .none⟩
      | child bindings parent => exact ⟨bindings, .some parent⟩

theorem Simulates.ownBinding?_rel (s : Simulates ρ h h')
    (twins : Twins ρ .frame env.value env'.value) (twinSymbol : Twins ρ .datum symbol symbol') :
    Option.Rel (Twins ρ .binding) (env.ownBinding? h symbol) (env'.ownBinding? h' symbol') := by
  rcases s.exists_spine (.inr rfl) (s.frame_twins twins).1 with
    ⟨items, tail, items', tail', spine, spine', twinItems, _⟩
  rw [Env.ownBinding?, Env.ownBinding?, Heap.find?_eq spine, Heap.find?_eq spine']
  -- The first binding of the symbol is found at the same place on both sides.
  refine find?_rel twinItems _ _ fun binding binding' twinBinding => ?_
  have symbols := s.car?_rel twinBinding
  generalize h.car? binding = x at symbols ⊢
  generalize h'.car? binding' = y at symbols ⊢
  cases symbols with
  | none => rfl
  | some twinCar =>
      rw [Bool.eq_iff_iff]
      simpa using (s.twins_eq_iff twinCar twinSymbol).symm

/-- The environments around corresponding environments correspond. -/
theorem Simulates.exists_chain (s : Simulates ρ h h')
    (twins : Twins ρ .frame env.value env'.value) :
    ∃ envs envs', h.Chain env envs ∧ h'.Chain env' envs' ∧
      List.Forall₂ (fun e e' : Env => Twins ρ .frame e.value e'.value) envs envs' := by
  refine s.twins_induction (motive := fun v v' => ∃ envs envs', h.Chain ⟨v⟩ envs ∧
    h'.Chain ⟨v'⟩ envs' ∧
      List.Forall₂ (fun e e' : Env => Twins ρ .frame e.value e'.value) envs envs') twins ?_ ?_
  · exact ⟨[⟨.nil⟩], [⟨.nil⟩], .outermost rfl, .outermost rfl, .cons trivial .nil⟩
  · intro i j o paired found follows
    have twins : Twins ρ .frame (Env.mk (.slot i)).value (Env.mk (.slot j)).value := paired
    rcases rel_cases (s.frame_twins twins).2 with ⟨ends, ends'⟩ |
      ⟨parent, parent', goes, goes', twinParent⟩
    · exact ⟨_, _, .outermost ends, .outermost ends', .cons twins .nil⟩
    · -- The way outwards goes through the parent, which is ranked below.
      have isParent : parent.value ∈ descent .frame o := by
        rcases Option.bind_eq_some_iff.1 goes with ⟨⟨bindings, outer⟩, isFrame, rfl⟩
        have same := Heap.frame?_eq_some_iff.1 isFrame
        rw [found] at same
        cases same
        exact List.mem_singleton_self _
      rcases follows _ _ isParent twinParent with ⟨envs, envs', chain, chain', twinEnvs⟩
      exact ⟨_, _, .inner goes chain, .inner goes' chain', .cons twins twinEnvs⟩

theorem Simulates.binding?_rel (s : Simulates ρ h h')
    (twins : Twins ρ .frame env.value env'.value) (twinSymbol : Twins ρ .datum symbol symbol') :
    Option.Rel (Twins ρ .binding) (env.binding? h symbol) (env'.binding? h' symbol') := by
  rcases s.exists_chain twins with ⟨envs, envs', chain, chain', twinEnvs⟩
  rw [Heap.binding?_eq chain, Heap.binding?_eq chain']
  exact findSome?_rel twinEnvs fun e e' twinEnv => s.ownBinding?_rel twinEnv twinSymbol

end Environments

end Simulation

end Lisplet
