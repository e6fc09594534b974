import Lisplet.Proofs.Termination.Layout

/-!
# Changes — elementary changes of a heap that stays laid out

A collection, a new object, a new value of a binding and a change of the roots leave the layout of
a heap as it is, but for the slot that is filled. A new binding is laid out in three steps: a pair
of data that nothing refers to becomes a binding, a pair of the spine is put in front of the older
bindings, and the environment takes it over.
-/

namespace Lisplet

namespace Termination

open Simulation (Role descent)

variable {d d' : Layout} {h h' : Heap} {r : Role} {i : Nat} {o : Object} {v : Value}

/-! ## The same objects -/

/-- With no other objects than before a heap is suited as before. -/
theorem Suited.transfer (a : Suited d h) (w : h'.WellFormed)
    (same : ∀ i o, h'.object? (.slot i) = some o → h.object? (.slot i) = some o) :
    Suited d h' := by
  refine ⟨w, fun i o found => a.suits i o (same i o found), ?_⟩
  rcases a.ranked with ⟨rank, ranked⟩
  exact ⟨rank, fun i o k found member => ranked i o k (same i o found) member⟩

theorem Arranged.transfer (a : Arranged d h) (w : h'.WellFormed)
    (same : ∀ v, h'.object? v = h.object? v) : Arranged d h' := by
  have before : ∀ {i}, h'.Occupied i → h.Occupied i := by
    intro i occupied
    unfold Heap.Occupied at occupied ⊢
    rwa [same] at occupied
  refine ⟨a.toSuited.transfer w fun i o found => (same _).symm.trans found, ?_, ?_⟩
  · exact fun i occupied use => (a.onFrame i (before occupied) use).congr same
  · exact fun i occupied use => (a.isBinding i (before occupied) use).congr same

/-- The roots may change, as long as they are data and environments. -/
theorem Orderly.transfer (a : Orderly d h) (w : h'.WellFormed)
    (same : ∀ v, h'.object? v = h.object? v)
    (roots : ∀ v, h'.IsRoot v → h.IsRoot v ∨ Fills d .datum v ∨ Fills d .frame v) :
    Orderly d h' := by
  refine ⟨a.toArranged.transfer w same, fun v root => ?_⟩
  rcases roots v root with before | fills
  · exact a.roots v before
  · exact fills

theorem Orderly.note (a : Orderly d h) (notice : Notice) : Orderly d (h.note notice) :=
  a.transfer (a.toWellFormed.note notice) (fun _ => rfl) fun _ root =>
    .inl (Heap.IsRoot.transfer (h := h.note notice) rfl rfl rfl rfl root)

/-! ## Roots and pins -/

section Roots

theorem isRoot_truncateRoots {height : Nat} (root : (h.truncateRoots height).IsRoot v) :
    h.IsRoot v := by
  cases root with
  | environment => exact .environment
  | symbol found => exact .symbol found
  | stack member => exact .stack (List.mem_of_mem_drop member)
  | pin found => exact .pin found

/-- The roots of a heap are all that is left once those above them are dropped. -/
theorem isRoot_of_truncated (k : h.KeepsRoots h') (symbols : h'.symbols = h.symbols)
    (root : (h'.truncateRoots h.roots.length).IsRoot v) : h.IsRoot v := by
  cases root with
  | environment => exact k.rootEnv_eq ▸ .environment
  | symbol found => exact .symbol (symbols ▸ found)
  | stack member => exact .stack (k.values_truncateRoots ▸ member)
  | pin found => exact .pin (k.pins_eq ▸ found)

theorem Orderly.addRoot (a : Orderly d h) (used : Used d h .datum v ∨ Used d h .frame v) :
    Orderly d (h.addRoot v) := by
  have held : h.Holds v := used.elim Used.holds Used.holds
  refine a.transfer (a.toWellFormed.addRoot held) (Heap.object?_addRoot h v) ?_
  intro u root
  rcases Heap.isRoot_of_addRoot root with before | rfl
  · exact .inl before
  · exact .inr (used.imp Used.fills Used.fills)

theorem Orderly.truncateRoots (a : Orderly d h) (height : Nat) :
    Orderly d (h.truncateRoots height) :=
  a.transfer (a.toWellFormed.truncateRoots height) (fun _ => rfl)
    fun _ root => .inl (isRoot_truncateRoots root)

/-- Where only the pins have changed, a new root is pinned. -/
theorem isRoot_cases (root : h'.IsRoot v) (environment : h'.rootEnv = h.rootEnv)
    (symbols : h'.symbols = h.symbols) (roots : h'.roots = h.roots) :
    h.IsRoot v ∨ ∃ key : Nat, h'.pins[key]? = some (some v) := by
  cases root with
  | environment => exact .inl (environment ▸ .environment)
  | symbol found => exact .inl (.symbol (symbols ▸ found))
  | stack member => exact .inl (.stack (roots ▸ member))
  | pin found => exact .inr ⟨_, found⟩

/-- A pin table in which one entry is replaced holds the new value besides the old ones. -/
theorem pin_cases {key : Nat} {entry : Option Value} (k : Nat)
    (found : (h.pins.setIfInBounds k entry)[key]? = some (some v)) :
    h.IsRoot v ∨ entry = some v := by
  rw [Array.getElem?_setIfInBounds] at found
  split at found
  · split at found
    · exact .inr (Option.some.inj found)
    · cases found
  · exact .inl (.pin found)

theorem isRoot_pin {u : Value} (root : (h.pin v).2.IsRoot u) : h.IsRoot u ∨ u = v := by
  unfold Heap.pin at root
  split at root
  · rcases isRoot_cases (h := h) root rfl rfl rfl with before | ⟨key, found⟩
    · exact .inl before
    · exact (pin_cases _ found).imp_right fun same => (Option.some.inj same).symm
  · rcases isRoot_cases (h := h) root rfl rfl rfl with before | ⟨key, found⟩
    · exact .inl before
    · have found : (h.pins.push (some v))[key]? = some (some u) := found
      rw [Array.getElem?_push] at found
      split at found
      · exact .inr (Option.some.inj (Option.some.inj found)).symm
      · exact .inl (.pin found)

theorem Orderly.pin (a : Orderly d h) (used : Used d h .datum v ∨ Used d h .frame v) :
    Orderly d (h.pin v).2 := by
  have held : h.Holds v := used.elim Used.holds Used.holds
  have same : ∀ u, (h.pin v).2.object? u = h.object? u := by
    intro u
    unfold Heap.pin
    split <;> rfl
  refine a.transfer (a.toWellFormed.pin held) same fun u root => ?_
  rcases isRoot_pin root with before | rfl
  · exact .inl before
  · exact .inr (used.imp Used.fills Used.fills)

theorem Orderly.repin (a : Orderly d h) (p : Pin)
    (used : Used d h .datum v ∨ Used d h .frame v) : Orderly d (h.repin p v) := by
  have held : h.Holds v := used.elim Used.holds Used.holds
  refine a.transfer (a.toWellFormed.repin p held) (fun _ => rfl) fun u root => ?_
  rcases isRoot_cases (h := h) root rfl rfl rfl with before | ⟨key, found⟩
  · exact .inl before
  · rcases pin_cases _ found with before | same
    · exact .inl before
    · cases same
      exact .inr (used.imp Used.fills Used.fills)

theorem Orderly.unpin (a : Orderly d h) (p : Pin) : Orderly d (h.unpin p) := by
  have same : ∀ u, (h.unpin p).object? u = h.object? u := by
    intro u
    unfold Heap.unpin
    split <;> rfl
  refine a.transfer (a.toWellFormed.unpin p) same fun u root => .inl ?_
  unfold Heap.unpin at root
  split at root
  · rcases isRoot_cases (h := h) root rfl rfl rfl with before | ⟨key, found⟩
    · exact before
    · rcases pin_cases _ found with before | none
      · exact before
      · cases none
  · exact root

end Roots

/-! ## Collecting -/

section Collecting

theorem object?_of_collect (w : h.WellFormed)
    (found : h.collect.1.object? (.slot i) = some o) : h.object? (.slot i) = some o := by
  have occupied := Heap.occupied_of_object? found
  have reached := ((Heap.occupied_collect_iff w.marksClear i).1 occupied).2
  exact (Heap.object?_collect_of_reachable w.marksClear reached).symm.trans found

theorem object?_of_makeRoom (w : h.WellFormed) (found : h.makeRoom.object? (.slot i) = some o) :
    h.object? (.slot i) = some o := by
  unfold Heap.makeRoom at found
  split at found
  · exact object?_of_collect w found
  · exact found

/-- How a pair of bindings comes to be referred to. -/
theorem Suited.reference_cases (a : Suited d h) {k : Nat} (found : h.object? (.slot i) = some o)
    (member : .slot k ∈ o.references) :
    (d k = .datum ∨ d k = .frame) ∨
      (d k = .spine ∧ ((∃ parent, o = .environment (.slot k) parent) ∨
        (d i = .spine ∧ ∃ binding, o = .pair binding (.slot k)))) ∨
      (d k = .binding ∧ d i = .spine ∧ ∃ rest, o = .pair (.slot k) rest) := by
  have suits := a.suits i o found
  generalize use : d i = r at suits
  cases suits with
  | plain none _ =>
      rw [none] at member
      cases member
  | pair car cdr =>
      rcases List.mem_pair.1 member with rfl | rfl
      · exact .inl (fills_datum_iff.1 car)
      · exact .inl (fills_datum_iff.1 cdr)
  | @procedure params body env isParams isBody isEnv =>
      have listed : .slot k = params ∨ .slot k = body ∨ .slot k = env.value := by
        simpa [Object.references] using member
      rcases listed with rfl | rfl | same
      · exact .inl (fills_datum_iff.1 isParams)
      · exact .inl (fills_datum_iff.1 isBody)
      · exact .inl (fills_datum_iff.1 (same ▸ isEnv.datum))
  | root bindings =>
      cases List.mem_singleton.1 member
      exact .inr (.inl ⟨bindings.use (by simp), .inl ⟨none, rfl⟩⟩)
  | child bindings parent =>
      rcases List.mem_pair.1 member with rfl | same
      · exact .inr (.inl ⟨bindings.use (by simp), .inl ⟨_, rfl⟩⟩)
      · exact .inl (fills_datum_iff.1 (same ▸ parent.datum))
  | spine binding rest =>
      rcases List.mem_pair.1 member with rfl | rfl
      · exact .inr (.inr ⟨binding.use (by simp), rfl, _, rfl⟩)
      · exact .inr (.inl ⟨rest.use (by simp), .inr ⟨rfl, _, rfl⟩⟩)
  | binding symbol value =>
      rcases List.mem_pair.1 member with rfl | rfl
      · exact .inl (fills_datum_iff.1 symbol)
      · exact .inl (fills_datum_iff.1 value)

/--
A collection keeps the bindings of an environment along with it. Besides data and environments,
the bindings of an environment that is itself a root may be a root.
-/
theorem Arranged.inFrame_collect (a : Arranged d h)
    (roots : ∀ v, h.IsRoot v → Fills d .datum v ∨ Fills d .frame v ∨
      ∃ env parent, h.IsRoot env ∧ h.object? env = some (.environment v parent))
    (reached : h.Reachable i) :
    (d i = .spine → h.collect.1.OnFrame (.slot i)) ∧
      (d i = .binding → h.collect.1.IsBinding (.slot i)) := by
  have kept : ∀ {i o}, h.Reachable i → h.object? (.slot i) = some o →
      h.collect.1.object? (.slot i) = some o := by
    intro i o reached found
    exact (Heap.object?_collect_of_reachable a.marksClear reached).trans found
  -- Induction on the path from a root: the bindings are reached through the environment.
  induction reached with
  | @start i root occupied =>
      rcases roots _ root with isDatum | isFrame | ⟨env, parent, rootEnv, found⟩
      · rcases fills_datum_iff.1 isDatum with use | use <;> simp [use]
      · simp [isFrame.use nofun]
      · cases env with
        | nil => cases found
        | slot k =>
            have use := (a.used_of_onFrame (.bindings found)).fills
            rw [use.use nofun]
            exact ⟨fun _ => .bindings (kept (a.reachable_of_root rootEnv) found), nofun⟩
  | @reference i k o before found member _ ih =>
      rcases a.reference_cases found member with
        (use | use) | ⟨use, ⟨parent, rfl⟩ | ⟨above, binding, rfl⟩⟩ | ⟨use, above, rest, rfl⟩
      · simp [use]
      · simp [use]
      · rw [use]
        exact ⟨fun _ => .bindings (kept before found), nofun⟩
      · rw [use]
        exact ⟨fun _ => .rest (ih.1 above) (kept before found), nofun⟩
      · rw [use]
        exact ⟨nofun, fun _ => ⟨_, rest, ih.1 above, kept before found⟩⟩

theorem Arranged.collect (a : Arranged d h)
    (roots : ∀ v, h.IsRoot v → Fills d .datum v ∨ Fills d .frame v ∨
      ∃ env parent, h.IsRoot env ∧ h.object? env = some (.environment v parent)) :
    Arranged d h.collect.1 := by
  have reached : ∀ {i}, h.collect.1.Occupied i → h.Reachable i :=
    fun occupied => ((Heap.occupied_collect_iff a.marksClear _).1 occupied).2
  refine ⟨a.toSuited.transfer a.toWellFormed.collect ?_, ?_, ?_⟩
  · exact fun i o => object?_of_collect a.toWellFormed
  · exact fun i occupied => (a.inFrame_collect roots (reached occupied)).1
  · exact fun i occupied => (a.inFrame_collect roots (reached occupied)).2

theorem Arranged.makeRoom (a : Arranged d h)
    (roots : ∀ v, h.IsRoot v → Fills d .datum v ∨ Fills d .frame v ∨
      ∃ env parent, h.IsRoot env ∧ h.object? env = some (.environment v parent)) :
    Arranged d h.makeRoom := by
  unfold Heap.makeRoom
  split
  · exact a.collect roots
  · exact a

theorem Orderly.collect (a : Orderly d h) : Orderly d h.collect.1 := by
  refine ⟨a.toArranged.collect fun v root => ?_, fun v root => a.roots v ?_⟩
  · exact (a.roots v root).imp_right .inl
  · exact Heap.IsRoot.transfer (h := h.collect.1) rfl rfl rfl rfl root

theorem Orderly.makeRoom (a : Orderly d h) : Orderly d h.makeRoom := by
  unfold Heap.makeRoom
  split
  · exact a.collect
  · exact a

end Collecting

/-! ## Filling a slot -/

section Placing

theorem fills_update (fills : Fills d r v) (other : v ≠ .slot i) (q : Role) :
    Fills (Function.update d i q) r v := by
  refine fills.congr fun k isSlot => Function.update_of_ne ?_ q d
  rintro rfl
  exact other isSlot

/-- A new object may be used as it suits. Besides the objects the heap may change in other ways. -/
theorem Suited.place (a : Suited d h) (p : h.Places i o h') {h'' : Heap}
    (w : h''.WellFormed) (same : ∀ v, h''.object? v = h'.object? v) (suits : Suits d r o)
    (held : ∀ v ∈ o.references, h.Holds v) : Suited (Function.update d i r) h'' := by
  -- Old objects and the new one refer to slots that were occupied before.
  have different : ∀ {k}, h.Holds (.slot k) → k ≠ i := by
    rintro k heldK rfl
    exact p.fresh (Heap.holds_slot_iff.1 heldK)
  have sameUse : ∀ {k}, h.Holds (.slot k) → Function.update d i r k = d k :=
    fun heldK => Function.update_of_ne (different heldK) r d
  refine ⟨w, fun k x found => ?_, ?_⟩
  · rw [same, p.object?_eq] at found
    split at found
    · next here =>
      cases here
      cases found
      rw [Function.update_self]
      exact suits.congr fun k member => sameUse (held _ member)
    · rw [sameUse (Heap.holds_of_object? found)]
      exact (a.suits k x found).congr fun m member => sameUse (a.references_held k x found _ member)
  · rcases a.ranked with ⟨rank, ranked⟩
    rcases Simulation.exists_rank_above rank o.references with ⟨n, above⟩
    refine ⟨Function.update rank i n, fun k x m found member => ?_⟩
    have refers := Simulation.mem_references_of_mem_descent member
    rw [same, p.object?_eq] at found
    split at found
    · next here =>
      cases here
      cases found
      rw [Function.update_self, Function.update_of_ne (different (held _ refers))]
      exact above m refers
    · have heldK := Heap.holds_of_object? found
      have heldM := a.references_held k x found _ refers
      rw [sameUse heldK] at member
      rw [Function.update_of_ne (different heldK), Function.update_of_ne (different heldM)]
      exact ranked k x m found member

theorem kept_of_places {u : Value} {x : Object} (p : h.Places i o h')
    (found : h.object? u = some x) : h'.object? u = some x := by
  cases u with
  | nil => cases found
  | slot k => exact (p.object?_old (Heap.occupied_of_object? found)).trans found

theorem onFrame_place (p : h.Places i o h') (on : h.OnFrame v) : h'.OnFrame v :=
  on.mono (fun _ _ _ found => .bindings (kept_of_places p found)) fun _ _ _ _ => kept_of_places p

/-- Data and environments may be put into any slot that is free. -/
theorem Orderly.place (a : Orderly d h) (p : h.Places i o h') {h'' : Heap}
    (w : h''.WellFormed) (same : ∀ v, h''.object? v = h'.object? v)
    (roots : ∀ v, h''.IsRoot v → h.IsRoot v ∨ v = .slot i) (suits : Suits d r o)
    (held : ∀ v ∈ o.references, h.Holds v) (isOpen : r = .datum ∨ r = .frame) :
    Orderly (Function.update d i r) h'' := by
  have before {k : Nat} (occupied : h''.Occupied k) (other : k ≠ i) : h.Occupied k := by
    unfold Heap.Occupied at occupied
    rw [same] at occupied
    exact (p.occupied_iff.1 occupied).resolve_left other
  have new : r ≠ .spine ∧ r ≠ .binding := by
    rcases isOpen with rfl | rfl
    · exact ⟨nofun, nofun⟩
    · exact ⟨nofun, nofun⟩
  refine ⟨⟨a.toSuited.place p w same suits held, fun k occupied use => ?_,
    fun k occupied use => ?_⟩, fun v root => ?_⟩
  · by_cases here : k = i
    · subst here
      rw [Function.update_self] at use
      exact absurd use new.1
    · rw [Function.update_of_ne here] at use
      exact (onFrame_place p (a.onFrame k (before occupied here) use)).congr same
  · by_cases here : k = i
    · subst here
      rw [Function.update_self] at use
      exact absurd use new.2
    · rw [Function.update_of_ne here] at use
      rcases a.isBinding k (before occupied here) use with ⟨list, rest, on, found⟩
      exact Heap.IsBinding.congr same ⟨list, rest, onFrame_place p on, kept_of_places p found⟩
  · rcases roots v root with old | rfl
    · have other : v ≠ .slot i := by
        rintro rfl
        exact p.fresh (Heap.holds_slot_iff.1 (a.roots_held _ old))
      exact (a.roots v old).imp (fills_update · other r) (fills_update · other r)
    · rcases isOpen with rfl | rfl
      · exact .inl (.slot (Function.update_self ..))
      · exact .inr (.slot (Function.update_self ..))

end Placing

/-! ## Changes in place -/

section Replacing

/-- An object may be replaced by one of the same use that goes on as the old one did. -/
theorem Suited.put {old : Object} (a : Suited d h) (found : h.object? (.slot i) = some old)
    (w : (h.put i o).WellFormed) (suits : Suits d (d i) o)
    (same : descent (d i) o = descent (d i) old) : Suited d (h.put i o) := by
  have occupied := Heap.occupied_of_object? found
  refine ⟨w, fun k x foundK => ?_, ?_⟩
  · rw [Heap.object?_put_of_occupied occupied] at foundK
    split at foundK
    · next here =>
      subst here
      cases foundK
      exact suits
    · exact a.suits k x foundK
  · rcases a.ranked with ⟨rank, ranked⟩
    refine ⟨rank, fun k x m foundK member => ?_⟩
    rw [Heap.object?_put_of_occupied occupied] at foundK
    split at foundK
    · next here =>
      subst here
      cases foundK
      rw [same] at member
      exact ranked i old m found member
    · exact ranked k x m foundK member

/-- A binding gets another value. -/
theorem Orderly.setCdr {binding : Value} (a : Orderly d h)
    (isBinding : Used d h .binding binding) (used : Used d h .datum v) :
    Orderly d (h.setCdr binding v) := by
  have w := a.toWellFormed.setCdr binding used.holds
  rcases Heap.setCdr_cases h binding v with ⟨i, car, cdr, rfl, found, step⟩ | ⟨_, step⟩
  · rw [step] at w ⊢
    have use := isBinding.fills.use nofun
    have occupied := Heap.occupied_of_object? found
    have symbol : Fills d .datum car := (a.pair_used isBinding.fills found).1.fills
    have suited := a.toSuited.put found w (use ▸ .binding symbol used.fills) (by rw [use]; rfl)
    -- No walk along the bindings of an environment passes a binding.
    have kept : ∀ {list b rest}, h.OnFrame list → h.object? list = some (.pair b rest) →
        (h.put i (.pair car v)).object? list = some (.pair b rest) := by
      intro list b rest on foundList
      rw [Heap.object?_put_ne, foundList]
      rintro rfl
      have onSpine := (a.used_of_onFrame on).fills.use nofun
      rw [use] at onSpine
      cases onSpine
    have keptFrames : ∀ {u}, h.OnFrame u → (h.put i (.pair car v)).OnFrame u := by
      refine fun on => on.mono (fun env bindings parent foundEnv => ?_) fun _ _ _ => kept
      have keptEnv : (h.put i (.pair car v)).object? env = some (.environment bindings parent) := by
        rw [Heap.object?_put_ne, foundEnv]
        rintro rfl
        rw [found] at foundEnv
        cases foundEnv
      exact .bindings keptEnv
    refine ⟨⟨suited, fun k occupiedK useK => ?_, fun k occupiedK useK => ?_⟩, fun u root => ?_⟩
    · exact keptFrames (a.onFrame k ((Heap.occupied_put_iff occupied k).1 occupiedK) useK)
    · rcases a.isBinding k ((Heap.occupied_put_iff occupied k).1 occupiedK) useK with
        ⟨list, rest, on, foundList⟩
      exact ⟨list, rest, keptFrames on, kept on foundList⟩
    · exact a.roots u (Heap.IsRoot.transfer (h := h.put i _) rfl rfl rfl rfl root)
  · rw [step]
    exact a

end Replacing

/-! ## New bindings -/

section Binding

/-- Nothing in the heap refers to a slot. -/
structure Loose (h : Heap) (i : Nat) : Prop where
  unrooted : ¬ h.IsRoot (.slot i)
  unreferenced : ∀ k o, h.object? (.slot k) = some o → .slot i ∉ o.references

/-- A pair of data that no object refers to may as well be a binding. -/
theorem Suited.rebind (a : Suited d h) {symbol value : Value} (use : d i = .datum)
    (found : h.object? (.slot i) = some (.pair symbol value))
    (unreferenced : ∀ k o, h.object? (.slot k) = some o → .slot i ∉ o.references) :
    Suited (Function.update d i .binding) h := by
  have sameUse : ∀ {k o m}, h.object? (.slot k) = some o → .slot m ∈ o.references →
      Function.update d i .binding m = d m := by
    intro k o m foundK member
    refine Function.update_of_ne ?_ _ d
    rintro rfl
    exact unreferenced k o foundK member
  refine ⟨a.toWellFormed, fun k o foundK => ?_, ?_⟩
  · by_cases same : k = i
    · subst same
      rw [found] at foundK
      cases foundK
      rw [Function.update_self]
      have parts := a.pair_used (.slot use) found
      refine Suits.congr (fun m member => sameUse found member) ?_
      exact .binding parts.1.fills parts.2.fills
    · rw [Function.update_of_ne same]
      exact (a.suits k o foundK).congr fun m member => sameUse foundK member
  · rcases a.ranked with ⟨rank, ranked⟩
    refine ⟨rank, fun k o m foundK member => ?_⟩
    by_cases same : k = i
    · subst same
      rw [Function.update_self] at member
      cases o <;> cases member
    · rw [Function.update_of_ne same] at member
      exact ranked k o m foundK member

variable {e b s : Nat} {symbol value bindings : Value} {parent : Option Env}

/-- The slots that change their use when a binding is added. -/
def Layout.bind (d : Layout) (b s : Nat) : Layout :=
  Function.update (Function.update d b .binding) s .spine

theorem Layout.bind_eq {k : Nat} (notBinding : k ≠ b) (notSpine : k ≠ s) :
    Layout.bind d b s k = d k := by
  unfold Layout.bind
  rw [Function.update_of_ne notSpine, Function.update_of_ne notBinding]

/--
An environment takes over a new list of bindings, which has one binding more than before: first
the pair becomes a binding, then the spine grows, then the environment changes.
-/
theorem Suited.bind (a : Suited d h) (p : h.Places s (.pair (.slot b) bindings) h')
    (w : h'.WellFormed) (w' : (h'.put e (.environment (.slot s) parent)).WellFormed)
    (isBinding : d b = .datum) (foundB : h.object? (.slot b) = some (.pair symbol value))
    (unreferenced : ∀ k o, h.object? (.slot k) = some o → .slot b ∉ o.references)
    (foundE : h.object? (.slot e) = some (.environment bindings parent)) :
    Suited (d.bind b s) (h'.put e (.environment (.slot s) parent)) := by
  have rebound := a.rebind isBinding foundB unreferenced
  have isBindings := rebound.used_of_onFrame (.bindings foundE)
  have isNew : Suits (Function.update d b .binding) .spine (.pair (.slot b) bindings) :=
    .spine (.slot (Function.update_self ..)) isBindings.fills
  have grown : Suited (d.bind b s) h' := by
    refine rebound.place p w (fun _ => rfl) isNew fun v member => ?_
    rcases List.mem_pair.1 member with rfl | rfl
    · exact Heap.holds_of_object? foundB
    · exact isBindings.holds
  have foundE' : h'.object? (.slot e) = some (.environment bindings parent) :=
    kept_of_places p foundE
  have isEnv := (grown.used_of_environment foundE').fills
  have isSpine : Fills (d.bind b s) .spine (.slot s) := .slot (Function.update_self ..)
  refine grown.put foundE' w' ?_ ?_
  · rw [isEnv.use nofun]
    cases grown.suits_of_fills isEnv foundE' nofun with
    | root _ => exact .root isSpine
    | child _ isParent => exact .child isSpine isParent
  · rw [isEnv.use nofun]
    cases parent with
    | none => rfl
    | some parent => rfl

theorem occupied_of_bind {k : Nat} (p : h.Places s o h') (occupiedE : h'.Occupied e)
    {x : Object} (occupied : (h'.put e x).Occupied k) (other : k ≠ s) : h.Occupied k :=
  (p.occupied_iff.1 ((Heap.occupied_put_iff occupiedE k).1 occupied)).resolve_left other

/-- The new pair is the first of the list of bindings. -/
theorem onFrame_bind_new (p : h.Places s (.pair (.slot b) bindings) h')
    (foundE : h.object? (.slot e) = some (.environment bindings parent)) :
    (h'.put e (.environment (.slot s) parent)).OnFrame (.slot s) ∧
      (h'.put e (.environment (.slot s) parent)).object? (.slot s) =
        some (.pair (.slot b) bindings) := by
  have newEnv : (h'.put e (.environment (.slot s) parent)).object? (.slot e) =
      some (.environment (.slot s) parent) :=
    Heap.object?_put_self (Heap.occupied_of_object? (kept_of_places p foundE))
  refine ⟨.bindings newEnv, ?_⟩
  rw [Heap.object?_put_ne, p.object?_new]
  rintro same
  cases same
  exact p.fresh (Heap.occupied_of_object? foundE)

/-- Pairs are not changed when a binding is added. -/
theorem pair_bind {u car cdr : Value} (p : h.Places s o h')
    (foundE : h.object? (.slot e) = some (.environment bindings parent)) {x : Object}
    (found : h.object? u = some (.pair car cdr)) :
    (h'.put e x).object? u = some (.pair car cdr) := by
  rw [Heap.object?_put_ne, kept_of_places p found]
  rintro rfl
  rw [foundE] at found
  cases found

/-- The older bindings come after the new one. -/
theorem onFrame_bind (p : h.Places s (.pair (.slot b) bindings) h')
    (foundE : h.object? (.slot e) = some (.environment bindings parent)) (on : h.OnFrame v) :
    (h'.put e (.environment (.slot s) parent)).OnFrame v := by
  refine on.mono (fun env list outer found => ?_) fun _ _ _ _ => pair_bind p foundE
  by_cases here : env = .slot e
  · subst here
    rw [foundE] at found
    cases found
    have new := onFrame_bind_new p foundE
    exact .rest new.1 new.2
  · have kept : (h'.put e (.environment (.slot s) parent)).object? env =
        some (.environment list outer) := by
      rw [Heap.object?_put_ne here, kept_of_places p found]
    exact .bindings kept

theorem Arranged.bind (a : Arranged d h) (p : h.Places s (.pair (.slot b) bindings) h')
    (w : h'.WellFormed) (w' : (h'.put e (.environment (.slot s) parent)).WellFormed)
    (isBinding : d b = .datum) (foundB : h.object? (.slot b) = some (.pair symbol value))
    (unreferenced : ∀ k o, h.object? (.slot k) = some o → .slot b ∉ o.references)
    (foundE : h.object? (.slot e) = some (.environment bindings parent)) :
    Arranged (d.bind b s) (h'.put e (.environment (.slot s) parent)) := by
  have new := onFrame_bind_new p foundE
  have occupiedE := Heap.occupied_of_object? (kept_of_places p foundE)
  refine ⟨a.toSuited.bind p w w' isBinding foundB unreferenced foundE, fun k occupied use => ?_,
    fun k occupied use => ?_⟩
  · by_cases atS : k = s
    · exact atS ▸ new.1
    · by_cases atB : k = b
      · subst atB
        rw [Layout.bind, Function.update_of_ne atS, Function.update_self] at use
        cases use
      · rw [Layout.bind_eq atB atS] at use
        exact onFrame_bind p foundE (a.onFrame k (occupied_of_bind p occupiedE occupied atS) use)
  · by_cases atB : k = b
    · exact atB ▸ ⟨_, _, new.1, new.2⟩
    · by_cases atS : k = s
      · subst atS
        rw [Layout.bind, Function.update_self] at use
        cases use
      · rw [Layout.bind_eq atB atS] at use
        rcases a.isBinding k (occupied_of_bind p occupiedE occupied atS) use with
          ⟨list, rest, on, found⟩
        exact ⟨list, rest, onFrame_bind p foundE on, pair_bind p foundE found⟩

end Binding

end Termination

end Lisplet
