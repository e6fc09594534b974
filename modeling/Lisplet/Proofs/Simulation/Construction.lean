import Lisplet.Proofs.Simulation.Agreement

/-!
# Construction — corresponding heaps grow and change alike

When both heaps make room and fill a slot, the new slots are paired; the pairs that do not
survive the collection are given up. A change in place replaces the objects of paired slots.
From these two steps it follows for each constructor that it agrees on corresponding heaps.
-/

namespace Lisplet

namespace Simulation

variable {ρ : Pairing} {h h' h₁ h₁' : Heap} {r : Role} {o o' : Object} {i j : Nat}

/-! ## Filling a slot -/

/-- A pairing with one more pair. -/
def Pairing.extend (ρ : Pairing) (r : Role) (i j : Nat) : Pairing :=
  fun q k l => ρ q k l ∨ (q = r ∧ k = i ∧ l = j)

theorem Alike.other (alike : Alike ρ r o o') (other : ∀ name, o ≠ .symbol name) :
    ∀ name, o' ≠ .symbol name := by
  intro name same
  subst same
  cases alike with
  | plain _ => exact other name rfl

theorem Corresponds.place (c : Corresponds ρ h h') (p : h.Places i o h₁)
    (p' : h'.Places j o' h₁') (alike : Alike ρ r o o') :
    Corresponds (ρ.extend r i j) h₁ h₁' := by
  -- The new slots were empty on both sides, so none of them was paired before.
  have more : ∀ q k l, ρ q k l → ρ.extend r i j q k l := fun _ _ _ paired => .inl paired
  have moreTwins : ∀ {q v v'}, Twins ρ q v v' → Twins (ρ.extend r i j) q v v' :=
    fun twins => twins.mono fun k _ l paired => more _ k l paired
  constructor
  · rintro q s k l m (one | ⟨rfl, rfl, rfl⟩) (other | ⟨rfl, same, rfl⟩)
    · exact c.unique q s k l m one other
    · subst same
      exact absurd (c.occupied one) p.fresh
    · exact absurd (c.occupied other) p.fresh
    · exact ⟨rfl, rfl⟩
  · rintro q s k l m (one | ⟨rfl, rfl, rfl⟩) (other | ⟨rfl, rfl, same⟩)
    · exact c.injective q s k l m one other
    · subst same
      exact absurd (c.flip.occupied one) p'.fresh
    · exact absurd (c.flip.occupied other) p'.fresh
    · rfl
  · rintro q k l (paired | ⟨rfl, rfl, rfl⟩)
    · rcases c.alike q k l paired with ⟨x, x', found, found', similar⟩
      refine ⟨x, x', ?_, ?_, similar.mono fun q k _ l => more q k l⟩
      · exact (p.object?_old (c.occupied paired)).trans found
      · exact (p'.object?_old (c.flip.occupied paired)).trans found'
    · exact ⟨o, o', p.object?_new, p'.object?_new, alike.mono fun q k _ l => more q k l⟩
  · rw [p.keepsRoots.rootEnv_eq, p'.keepsRoots.rootEnv_eq]
    exact moreTwins c.rootEnv
  · intro name
    have symbols : h₁.symbols = h.symbols := by rw [p.unchanged]
    have symbols' : h₁'.symbols = h'.symbols := by rw [p'.unchanged]
    rw [symbols, symbols']
    rcases rel_cases (c.symbols name) with ⟨none, none'⟩ | ⟨v, v', found, found', twins⟩
    · rw [none, none']
      exact .none
    · rw [found, found']
      exact .some (moreTwins twins)
  · have roots : h₁.roots = h.roots := by rw [p.unchanged]
    have roots' : h₁'.roots = h'.roots := by rw [p'.unchanged]
    rw [roots, roots']
    refine c.roots.imp fun v v' twins => ?_
    rcases twins with ⟨q, twins⟩
    exact ⟨q, moreTwins twins⟩
  · rw [p.keepsRoots.pins_eq, p'.keepsRoots.pins_eq]
    exact c.pins

theorem exists_rank_above (rank : Nat → Nat) (values : List Value) :
    ∃ n, ∀ k, .slot k ∈ values → rank k < n := by
  induction values with
  | nil => exact ⟨0, fun k member => nomatch member⟩
  | cons v values ih =>
      rcases ih with ⟨n, above⟩
      cases v with
      | nil =>
          refine ⟨n, fun k member => above k ?_⟩
          simpa using member
      | slot i =>
          refine ⟨max n (rank i + 1), fun k member => ?_⟩
          rcases List.mem_cons.1 member with same | later
          · cases same
            omega
          · have := above k later
            omega

/-- A new slot is ranked above all that its object refers to. -/
theorem Corresponds.ranked_place (c : Corresponds ρ h h') (p : h.Places i o h₁)
    (alike : Alike ρ r o o') (ranked : ∃ rank, Ranked ρ h rank) :
    ∃ rank, Ranked (ρ.extend r i j) h₁ rank := by
  rcases ranked with ⟨rank, ranked⟩
  rcases exists_rank_above rank o.references with ⟨n, above⟩
  have different : ∀ {q k l}, ρ q k l → k ≠ i := by
    rintro q k l paired rfl
    exact p.fresh (c.occupied paired)
  refine ⟨Function.update rank i n, ?_⟩
  -- Old slots refer to old ones, and the new slot to none above its own rank.
  rintro q k l x m (paired | ⟨rfl, rfl, rfl⟩) found member
  · rw [p.object?_old (c.occupied paired)] at found
    have refers := mem_references_of_mem_descent member
    rcases c.reference_twin paired found refers with ⟨_, _, _, paired', _⟩
    rw [Function.update_of_ne (different paired), Function.update_of_ne (different paired')]
    exact ranked q k l x m paired found member
  · rw [p.object?_new] at found
    cases found
    have refers := mem_references_of_mem_descent member
    rcases alike.reference_twin refers with ⟨_, _, paired', _⟩
    rw [Function.update_of_ne (different paired'), Function.update_self]
    exact above m refers

theorem Simulates.capacity_le_place (s : Simulates ρ h h') (p : h.Places i o h₁)
    (p' : h'.Places j o' h₁') : h₁.capacity ≤ h₁'.capacity := by
  rw [p.unchanged, p'.unchanged]
  exact s.capacity_le

/-- What was tethered is still paired and in place after a collection and a new object. -/
theorem retains_place (w : h.WellFormed) (p : h.makeRoom.Places i o h₁) :
    Retains ρ h ((survivors ρ h).extend r i j) h₁ := by
  refine ⟨(Heap.KeepsRoots.makeRoom h).trans p.keepsRoots, ?_, ?_⟩
  · intro q k l tethered paired
    exact .inl ⟨paired, tethered.reachable w⟩
  · -- What is tethered can be reached, so neither the collection nor the new object is there.
    intro k l tethered _
    have reached := tethered.reachable w
    rw [p.object?_old (occupied_makeRoom w reached), object?_makeRoom w reached]

theorem Alike.survive (alike : Alike ρ r o o') (w : h.WellFormed)
    (tethered : ∀ v ∈ o.references, Tethered ρ h v) : Alike (survivors ρ h) r o o' :=
  alike.mono fun _ _ member _ paired => ⟨paired, (tethered _ member).reachable w⟩

theorem Alike.holds (alike : Alike ρ r o o') (c : Corresponds ρ h h') :
    ∀ v ∈ o.references, h.Holds v := by
  intro v member
  cases v with
  | nil => exact Heap.holds_nil h
  | slot k =>
      rcases alike.reference_twin member with ⟨q, l, paired, _⟩
      exact Heap.holds_slot_iff.2 (c.occupied paired)

/-! ## Allocating -/

namespace Simulates

/-- Both heaps get a new object, or the one with less capacity is full. -/
theorem allocate_cases (s : Simulates ρ h h') (o o' : Object) :
    (∃ live capacity h₁, HeapM.allocate o h = .error (.outOfMemory live capacity) h₁) ∨
      (h.makeRoom.live < h.makeRoom.capacity ∧ h'.makeRoom.live < h'.makeRoom.capacity ∧
        ∃ i j, HeapM.allocate o h = .ok (.slot i) (h.makeRoom.insert o).2 ∧
          HeapM.allocate o' h' = .ok (.slot j) (h'.makeRoom.insert o').2 ∧
            (h.makeRoom.insert o).1 = .slot i ∧ (h'.makeRoom.insert o').1 = .slot j ∧
              h.makeRoom.Places i o (h.makeRoom.insert o).2 ∧
                h'.makeRoom.Places j o' (h'.makeRoom.insert o').2) := by
  have made := s.makeRoom
  rcases HeapM.allocate_cases h o with ⟨room, step⟩ | ⟨_, step⟩
  · rcases HeapM.allocate_cases h' o' with ⟨room', step'⟩ | ⟨full', _⟩
    · rcases made.left.places_insert o with ⟨i, value, p⟩
      rcases made.right.places_insert o' with ⟨j, value', p'⟩
      rw [value] at step
      rw [value'] at step'
      refine .inr ⟨?_, ?_, i, j, step, step', value, value', p, p'⟩
      · exact (Heap.capacity_makeRoom h).symm ▸ room
      · exact (Heap.capacity_makeRoom h').symm ▸ room'
    · exact absurd (s.room room) (Nat.not_lt_of_le full')
  · exact .inl ⟨_, _, _, step⟩

end Simulates

theorem agrees_allocate (s : Simulates ρ h h') (alike : Alike ρ r o o')
    (tethered : ∀ v ∈ o.references, Tethered ρ h v) (other : ∀ name, o ≠ .symbol name) :
    Agrees ρ h h' (HeapM.allocate o) (HeapM.allocate o') fun σ _ v v' => Twins σ r v v' := by
  unfold Agrees
  rcases s.allocate_cases o o' with ⟨live, capacity, h₁, step⟩ |
    ⟨room, room', i, j, step, step', _, _, p, p'⟩
  · rw [step]
    exact .exhausted ⟨live, capacity, rfl⟩
  · have made := s.makeRoom
    -- What the new objects refer to is tethered, so it survives on both sides.
    have similar := alike.survive s.left tethered
    have left := made.left.insert room (similar.holds made.toCorresponds) other
    have right := made.right.insert room' (similar.flip.holds made.flip) (alike.other other)
    have ranked := made.ranked_place (j := j) p similar made.ranked
    have capacities := made.capacity_le_place p p'
    rw [step, step']
    refine .ends (σ := (survivors ρ h).extend r i j) ?_ (retains_place s.left p)
      (.inr ⟨rfl, rfl, rfl⟩)
    exact ⟨made.place p p' similar, left, right, capacities, ranked⟩

/-- A value without references needs nothing to be tethered. -/
theorem agrees_atom (s : Simulates ρ h h') (isPlain : IsPlain o)
    (other : ∀ name, o ≠ .symbol name) :
    Agrees ρ h h' (HeapM.allocate o) (HeapM.allocate o) fun σ _ v v' => Twins σ .datum v v' := by
  refine agrees_allocate s (.plain isPlain) (fun v member => ?_) other
  rw [references_of_isPlain isPlain] at member
  cases member

theorem agrees_raise (s : Simulates ρ h h') (kind : ErrorKind) {message message' : String}
    (same : Text.Resembles message message') :
    Agrees ρ h h' (HeapM.raise kind message) (HeapM.raise kind message')
      fun σ _ v v' => Twins σ .fault v v' :=
  agrees_allocate s (.fault kind same) (fun _ member => nomatch member) fun _ => nofun

theorem Corresponds.insertSymbol (c : Corresponds ρ h h') (name : String)
    (paired : ρ .datum i j) :
    Corresponds ρ { h with symbols := h.symbols.insert name (.slot i) }
      { h' with symbols := h'.symbols.insert name (.slot j) } := by
  refine ⟨c.unique, c.injective, c.alike, c.rootEnv, fun other => ?_, c.roots, c.pins⟩
  show Option.Rel _ (h.symbols.insert name _)[other]? (h'.symbols.insert name _)[other]?
  rw [Heap.getElem?_symbols_insert, Heap.getElem?_symbols_insert]
  by_cases same : name = other
  · rw [if_pos same, if_pos same]
    exact .some paired
  · rw [if_neg same, if_neg same]
    exact c.symbols other

theorem Retains.insertSymbol {σ : Pairing} {name : String} {v : Value} (k : Retains ρ h σ h₁)
    (absent : h.symbols[name]? = none) :
    Retains ρ h σ { h₁ with symbols := h₁.symbols.insert name v } := by
  refine ⟨⟨k.roots.rootEnv_eq, k.roots.pins_eq, ?_, k.roots.roots_suffix⟩, k.pairs, k.objects⟩
  intro other u listed
  show (h₁.symbols.insert name v)[other]? = some u
  have different : name ≠ other := by
    rintro rfl
    rw [listed] at absent
    cases absent
  rw [Heap.getElem?_symbols_insert, if_neg different]
  exact k.roots.symbols_extend other u listed

/-- The symbols of one name are twins, and stay so since they are never collected. -/
theorem agrees_intern (s : Simulates ρ h h') (name : String) :
    Agrees ρ h h' (HeapM.intern name) (HeapM.intern name) fun σ h₁ v v' =>
      Kept σ h₁ .datum v v' := by
  refine .get_bind ?_
  rcases rel_cases (s.symbols name) with ⟨absent, absent'⟩ | ⟨v, v', found, found', twins⟩
  · rw [absent, absent']
    unfold Agrees
    simp only [Bind.bind, EStateM.bind]
    rcases s.allocate_cases (.symbol name) (.symbol name) with ⟨live, capacity, h₁, step⟩ |
      ⟨room, room', i, j, step, step', value, value', p, p'⟩
    · rw [step]
      exact .exhausted ⟨live, capacity, rfl⟩
    · have made := s.makeRoom
      have similar : Alike (survivors ρ h) .datum (.symbol name) (.symbol name) := .plain trivial
      have left := made.left.insertSymbol room ((Heap.symbols_makeRoom h).symm ▸ absent)
      have right := made.right.insertSymbol room' ((Heap.symbols_makeRoom h').symm ▸ absent')
      rw [value] at left
      rw [value'] at right
      have ranked := made.ranked_place (j := j) p similar made.ranked
      have retains := retains_place (ρ := ρ) (r := .datum) (j := j) s.left p
      have paired : (survivors ρ h).extend .datum i j .datum i j := .inr ⟨rfl, rfl, rfl⟩
      -- The new slots correspond already before the tables list them.
      have placed := (made.place p p' similar).insertSymbol name paired
      have capacities := made.capacity_le_place p p'
      rw [step, step']
      refine .ends (σ := (survivors ρ h).extend .datum i j) ?_ (retains.insertSymbol absent)
        ⟨.root (@Heap.IsRoot.symbol _ name _ Std.HashMap.getElem?_insert_self), paired⟩
      exact ⟨placed, left, right, capacities, ranked⟩
  · rw [found, found']
    exact .pure s ⟨.root (.symbol found), twins⟩

/-! ## Constructors -/

section Constructors

variable {car car' cdr cdr' : Value}

theorem agrees_cons (s : Simulates ρ h h') (alike : Alike ρ r (.pair car cdr) (.pair car' cdr')) :
    Agrees ρ h h' (HeapM.cons car cdr) (HeapM.cons car' cdr')
      fun σ _ v v' => Twins σ r v v' := by
  have twins := alike.references
  simp only [Object.references, List.forall₂_cons, List.forall₂_nil_right_iff] at twins
  rcases twins with ⟨⟨_, twinsCar⟩, ⟨_, twinsCdr⟩, _⟩
  refine .scope s ?_ fun _ _ _ _ _ twins => twins
  refine .root_bind s twinsCar fun s₁ keptCar => ?_
  refine .root_bind s₁ twinsCdr fun s₂ keptCdr => ?_
  refine agrees_allocate s₂ alike ?_ (by simp)
  intro v member
  rcases List.mem_pair.1 member with rfl | rfl
  · exact (keptCar.addRoot cdr).tethered
  · exact keptCdr.tethered

/-- Elements still to be put in front of a list must be kept meanwhile. -/
theorem agrees_consAll {list list' : Value} {items items' : List Value} (s : Simulates ρ h h')
    (twins : Twins ρ .datum list list') (kept : List.Forall₂ (Kept ρ h .datum) items items') :
    Agrees ρ h h' (HeapM.consAll list items) (HeapM.consAll list' items')
      fun σ _ v v' => Twins σ .datum v v' := by
  -- The pairing changes with every pair; the remaining elements stay paired, being kept.
  induction items generalizing ρ h h' list list' items' with
  | nil =>
      cases kept
      exact .pure s twins
  | cons item items ih =>
      rcases kept with _ | ⟨keptItem, keptItems⟩
      refine .bind (agrees_cons s (.pair keptItem.twins twins)) ?_
      intro σ h₁ h₁' v v' s₁ retains twins₁
      exact ih s₁ twins₁ (keptItems.imp fun _ _ => retains.kept)

theorem addRoots (s : Simulates ρ h h') {items items' : List Value}
    (twins : List.Forall₂ (Twins ρ .datum) items items') :
    Simulates ρ (items.foldl Heap.addRoot h) (items'.foldl Heap.addRoot h') ∧
      Retains ρ h ρ (items.foldl Heap.addRoot h) ∧
        List.Forall₂ (Kept ρ (items.foldl Heap.addRoot h) .datum) items items' := by
  induction twins generalizing h h' with
  | nil => exact ⟨s, .refl ρ h, .nil⟩
  | @cons v v' items items' twin _ ih =>
      rcases ih (s.addRoot twin) with ⟨s₁, retains, kept⟩
      refine ⟨s₁, (Retains.addRoot ρ h v).trans retains, .cons ?_ kept⟩
      exact retains.kept ⟨tethered_addRoot ρ h v, twin⟩

theorem agrees_list {items items' : List Value} (s : Simulates ρ h h')
    (twins : List.Forall₂ (Twins ρ .datum) items items') :
    Agrees ρ h h' (HeapM.list items) (HeapM.list items')
      fun σ _ v v' => Twins σ .datum v v' := by
  rcases addRoots s twins with ⟨s₁, retains, kept⟩
  refine .scope s ?_ fun _ _ _ _ _ twins => twins
  refine .bind (Q := fun σ h₁ _ _ => List.Forall₂ (Kept σ h₁ .datum) items items') ?_ ?_
  · exact .ends s₁ retains kept
  · intro σ h₂ h₂' _ _ s₂ _ kept₂
    exact agrees_consAll s₂ trivial (List.rel_reverse kept₂)

theorem agrees_procedure {params params' body body' : Value} {env env' : Env}
    (s : Simulates ρ h h') (twinsParams : Twins ρ .datum params params')
    (twinsBody : Twins ρ .datum body body') (twinsEnv : Twins ρ .frame env.value env'.value) :
    Agrees ρ h h' (HeapM.procedure params body env) (HeapM.procedure params' body' env')
      fun σ _ v v' => Twins σ .datum v v' := by
  refine .scope s ?_ fun _ _ _ _ _ twins => twins
  refine .root_bind s twinsParams fun s₁ keptParams => ?_
  refine .root_bind s₁ twinsBody fun s₂ keptBody => ?_
  refine .root_bind s₂ twinsEnv fun s₃ keptEnv => ?_
  refine agrees_allocate s₃ (.procedure twinsParams twinsBody twinsEnv) ?_ fun _ => nofun
  intro v member
  have listed : v = params ∨ v = body ∨ v = env.value := by
    simpa [Object.references] using member
  rcases listed with rfl | rfl | rfl
  · exact ((keptParams.addRoot body).addRoot env.value).tethered
  · exact (keptBody.addRoot env.value).tethered
  · exact keptEnv.tethered

theorem agrees_child {parent parent' : Env} (s : Simulates ρ h h')
    (twins : Twins ρ .frame parent.value parent'.value) :
    Agrees ρ h h' (HeapM.child parent) (HeapM.child parent')
      fun σ _ (env env' : Env) => Twins σ .frame env.value env'.value := by
  refine .scope s ?_ fun _ _ _ _ _ twins => twins
  refine .root_bind s twins fun s₁ kept => ?_
  refine .bind (agrees_allocate s₁ (.child (Twins.nil ρ .spine) twins) ?_ fun _ => nofun) ?_
  · intro v member
    rcases List.mem_pair.1 member with rfl | rfl
    · exact .nil
    · exact kept.tethered
  · intro σ h₁ h₁' v v' s₂ _ twins₂
    exact .pure s₂ twins₂

end Constructors

/-! ## Changes in place -/

section Changes

/-- Paired slots may get new objects that are alike, if data without cycles goes on as before. -/
theorem Corresponds.put (c : Corresponds ρ h h') (paired : ρ r i j) (alike : Alike ρ r o o') :
    Corresponds ρ (h.put i o) (h'.put j o') := by
  refine ⟨c.unique, c.injective, ?_, c.rootEnv, c.symbols, c.roots, c.pins⟩
  intro q k l paired'
  by_cases same : k = i
  · subst same
    rcases c.unique r q _ j l paired paired' with ⟨rfl, rfl⟩
    refine ⟨o, o', ?_, ?_, alike⟩
    · exact Heap.object?_put_self (c.occupied paired)
    · exact Heap.object?_put_self (c.flip.occupied paired)
  · -- A slot other than the first one has a twin other than the second one.
    have same' : l ≠ j := by
      rintro rfl
      exact same (c.injective q r k i l paired' paired)
    rcases c.alike q k l paired' with ⟨x, x', found, found', similar⟩
    refine ⟨x, x', ?_, ?_, similar⟩
    · rw [Heap.object?_put_ne (by simpa using same), found]
    · rw [Heap.object?_put_ne (by simpa using same'), found']

theorem Corresponds.ranked_put {old : Object} (c : Corresponds ρ h h') (paired : ρ r i j)
    (found : h.object? (.slot i) = some old) (same : descent r o = descent r old)
    (ranked : ∃ rank, Ranked ρ h rank) : ∃ rank, Ranked ρ (h.put i o) rank := by
  rcases ranked with ⟨rank, ranked⟩
  refine ⟨rank, fun q k l x m paired' foundThere member => ?_⟩
  by_cases here : k = i
  · subst here
    rw [Heap.object?_put_self (c.occupied paired)] at foundThere
    cases foundThere
    rcases c.unique r q _ j l paired paired' with ⟨rfl, rfl⟩
    rw [same] at member
    exact ranked r _ j old m paired found member
  · rw [Heap.object?_put_ne (by simpa using here)] at foundThere
    exact ranked q k l x m paired' foundThere member

/-- What is tethered is data, and so not touched by a change of anything else. -/
theorem retains_put (c : Corresponds ρ h h') (paired : ρ r i j) (other : r ≠ .datum) :
    Retains ρ h ρ (h.put i o) := by
  refine ⟨.put h i o, fun _ _ _ _ paired => paired, fun k l _ paired' => ?_⟩
  rw [Heap.object?_put_ne]
  intro same
  cases same
  exact other (c.unique r .datum _ j l paired paired').1

/-- Environments that are alike stay so with new bindings, and so do their parents. -/
theorem Alike.withBindings (alike : Alike ρ .frame o o') :
    ∃ list parent list' parent', o = .environment list parent ∧
      o' = .environment list' parent' ∧ ∀ new new', Twins ρ .spine new new' →
        Alike ρ .frame (.environment new parent) (.environment new' parent') := by
  cases alike with
  | root _ => exact ⟨_, none, _, none, rfl, rfl, fun new new' twins => .root twins⟩
  | @child _ _ parent parent' _ twinsParent =>
      exact ⟨_, some parent, _, some parent', rfl, rfl, fun new new' twins =>
        .child twins twinsParent⟩

/-- The bindings of corresponding environments are replaced by lists that correspond. -/
theorem agrees_setBindings {env env' : Env} {new new' : Value} (s : Simulates ρ h h')
    (twinsEnv : Twins ρ .frame env.value env'.value) (twins : Twins ρ .spine new new') :
    Agrees ρ h h' (modify fun h => h.setBindings env new : HeapM Fatal Unit)
      (modify fun h => h.setBindings env' new') fun _ _ _ _ => True := by
  have left := s.left.setBindings env (s.holds twins)
  have right := s.right.setBindings env' (s.flip.holds twins.flip)
  show Agree ρ h _ (.ok () (h.setBindings env new)) (.ok () (h'.setBindings env' new'))
  rcases env with ⟨v⟩
  rcases env' with ⟨v'⟩
  rcases twinsEnv.cases with ⟨rfl, rfl⟩ | ⟨i, j, rfl, rfl, paired⟩
  · exact .ends s (.refl ρ h) trivial
  · rcases s.alike _ i j paired with ⟨o, o', found, found', alike⟩
    rcases alike.withBindings with ⟨list, parent, list', parent', rfl, rfl, renewed⟩
    have step : h.setBindings ⟨.slot i⟩ new = h.put i (.environment new parent) := by
      unfold Heap.setBindings
      rw [found]
    have step' : h'.setBindings ⟨.slot j⟩ new' = h'.put j (.environment new' parent') := by
      unfold Heap.setBindings
      rw [found']
    -- Bindings are not part of the chain of environments, so the ranks do as before.
    have descends : descent .frame (.environment new parent) =
        descent .frame (.environment list parent) := by
      cases parent with
      | none => rfl
      | some parent => rfl
    rw [step] at left ⊢
    rw [step'] at right ⊢
    refine .ends ⟨s.put paired (renewed new new' twins), left, right, s.capacity_le, ?_⟩
      (retains_put s.toCorresponds paired nofun) trivial
    exact s.ranked_put paired found descends s.ranked

/-- The values of corresponding bindings are replaced by values that correspond. -/
theorem simulates_setCdr {binding binding' value value' : Value} (s : Simulates ρ h h')
    (twinsBinding : Twins ρ .binding binding binding') (twins : Twins ρ .datum value value') :
    Simulates ρ (h.setCdr binding value) (h'.setCdr binding' value') ∧
      Retains ρ h ρ (h.setCdr binding value) := by
  have left := s.left.setCdr binding (s.holds twins)
  have right := s.right.setCdr binding' (s.flip.holds twins.flip)
  rcases twinsBinding.cases with ⟨rfl, rfl⟩ | ⟨i, j, rfl, rfl, paired⟩
  · exact ⟨s, .refl ρ h⟩
  · rcases s.alike _ i j paired with ⟨o, o', found, found', alike⟩
    cases alike with
    | @binding symbol symbol' old old' twinsSymbol _ =>
        have step : h.setCdr (.slot i) value = h.put i (.pair symbol value) := by
          unfold Heap.setCdr
          rw [found]
        have step' : h'.setCdr (.slot j) value' = h'.put j (.pair symbol' value') := by
          unfold Heap.setCdr
          rw [found']
        rw [step] at left ⊢
        rw [step'] at right ⊢
        refine ⟨⟨s.put paired (.binding twinsSymbol twins), left, right, s.capacity_le, ?_⟩, ?_⟩
        · exact s.ranked_put paired found rfl s.ranked
        · exact retains_put s.toCorresponds paired nofun

end Changes

end Simulation

end Lisplet
