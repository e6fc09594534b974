import Lisplet.Proofs.Termination.Upkeep

/-!
# Operations — what allocates keeps the heap orderly

Each constructor keeps an orderly heap orderly, whether there is room for the new object or not,
and so do definitions and the binding of parameters. What an operation still needs after it has
allocated must be kept meanwhile; the constructors root their own operands.
-/

namespace Lisplet

namespace Termination

open Simulation (Role)

variable {d d' : Layout} {h h' : Heap} {r : Role} {o : Object} {v : Value}

/-! ## Allocating -/

/-- A new object to which nothing refers yet. -/
def Made (d : Layout) (h : Heap) (r : Role) (o : Object) (v : Value) : Prop :=
  ∃ i, v = .slot i ∧ d i = r ∧ h.object? (.slot i) = some o ∧ Loose h i

theorem Made.used (made : Made d h r o v) : Used d h r v := by
  rcases made with ⟨i, rfl, use, found, _⟩
  exact ⟨.slot use, Heap.holds_of_object? found⟩

theorem Made.truncateRoots (made : Made d h r o v) (height : Nat) :
    Made d (h.truncateRoots height) r o v := by
  rcases made with ⟨i, same, use, found, loose⟩
  refine ⟨i, same, use, found, fun root => ?_, loose.unreferenced⟩
  exact loose.unrooted (isRoot_truncateRoots root)

theorem Used.addRoot (used : Used d h r v) (u : Value) : Used d (h.addRoot u) r v := by
  refine ⟨used.fills, ?_⟩
  unfold Heap.addRoot
  split
  · exact used.holds
  · exact used.holds

theorem Used.truncateRoots (used : Used d h r v) (height : Nat) :
    Used d (h.truncateRoots height) r v := ⟨used.fills, used.holds⟩

theorem retains_collect (d : Layout) (w : h.WellFormed) : Retains d h d h.collect.1 :=
  ⟨.ofEq rfl rfl rfl rfl, fun _ _ => rfl, fun _ tethered _ =>
    Heap.object?_collect_of_reachable w.marksClear (tethered.reachable w)⟩

theorem retains_makeRoom (d : Layout) (w : h.WellFormed) : Retains d h d h.makeRoom :=
  ⟨.makeRoom h, fun _ _ => rfl, fun _ tethered _ =>
    Simulation.object?_makeRoom w (tethered.reachable w)⟩

/-- What was tethered is still in place after a collection and a new object. -/
theorem retains_place {i : Nat} (w : h.WellFormed) (p : h.makeRoom.Places i o h') :
    Retains d h (Function.update d i r) h' := by
  have occupied {k : Nat} (tethered : Tethered d h (.slot k)) : h.makeRoom.Occupied k :=
    Simulation.occupied_makeRoom w (tethered.reachable w)
  refine ⟨(Heap.KeepsRoots.makeRoom h).trans p.keepsRoots, fun k tethered => ?_, ?_⟩
  · refine Function.update_of_ne ?_ r d
    rintro rfl
    exact p.fresh (occupied tethered)
  · intro k tethered _
    rw [p.object?_old (occupied tethered), Simulation.object?_makeRoom w (tethered.reachable w)]

/-- The new slot was empty, so that no root and no older object can refer to it. -/
theorem loose_place {i : Nat} (w : h.WellFormed) (p : h.Places i o h')
    (held : ∀ v ∈ o.references, h.Holds v) : Loose h' i := by
  have fresh : ¬ h.Holds (.slot i) := fun holds => p.fresh (Heap.holds_slot_iff.1 holds)
  constructor
  · exact fun root => fresh (w.roots_held _ (p.isRoot_iff.1 root))
  · intro k x found member
    rw [p.object?_eq] at found
    split at found
    · cases found
      exact fresh (held _ member)
    · exact fresh (w.references_held k x found _ member)

theorem maintains_allocate (a : Orderly d h) (suits : Suits d r o)
    (isOpen : r = .datum ∨ r = .frame) (tethered : ∀ v ∈ o.references, Tethered d h v)
    (other : ∀ name, o ≠ .symbol name) :
    Maintains d h (HeapM.allocate o) fun d₁ h₁ v => Made d₁ h₁ r o v := by
  have made := a.makeRoom
  unfold Maintains
  rcases HeapM.allocate_cases h o with ⟨room, step⟩ | ⟨_, step⟩
  · -- What the new object refers to is tethered, so it survives the collection.
    have held : ∀ v ∈ o.references, h.makeRoom.Holds v := by
      intro v member
      exact ((retains_makeRoom d a.toWellFormed).tethered (tethered v member)).holds
        made.toWellFormed
    rw [← Heap.capacity_makeRoom h] at room
    have w := made.toWellFormed.insert room held other
    rcases made.places_insert o with ⟨i, value, p⟩
    rw [value] at step
    rw [step]
    have placed := made.place p w (fun _ => rfl) (fun _ root => .inl (p.isRoot_iff.1 root)) suits
      held isOpen
    refine .ok placed (retains_place a.toWellFormed p) ?_
    exact ⟨i, rfl, Function.update_self .., p.object?_new, loose_place made.toWellFormed p held⟩
  · rw [step]
    exact .error made (retains_makeRoom d a.toWellFormed)

/-- A value without references needs nothing to be tethered. -/
theorem maintains_atom (a : Orderly d h) (none : o.references = [])
    (standard : ∀ p, o = .primitive p → p ∈ Primitive.standard)
    (other : ∀ name, o ≠ .symbol name) :
    Maintains d h (HeapM.allocate o) fun d₁ h₁ v => Used d₁ h₁ .datum v := by
  refine (maintains_allocate a (.plain none standard) (.inl rfl) (fun v member => ?_) other).mono
    fun _ _ _ made => made.used
  rw [none] at member
  cases member

theorem maintains_raise (a : Orderly d h) (kind : ErrorKind) (message : String) :
    Maintains d h (HeapM.raise kind message) fun d₁ h₁ v => Used d₁ h₁ .datum v :=
  maintains_atom a rfl (fun _ => nofun) fun _ => nofun

/-! ## Symbols -/

theorem Suited.used_of_symbol (a : Suited d h) {name : String}
    (found : h.object? v = some (.symbol name)) : Used d h .datum v := by
  cases v with
  | nil => cases found
  | slot i =>
      have suits := a.suits i _ found
      generalize use : d i = r at suits
      cases suits with
      | plain _ _ => exact ⟨.slot use, Heap.holds_of_object? found⟩

theorem Orderly.kept_of_symbol (a : Orderly d h) {name : String}
    (found : h.symbols[name]? = some v) : Kept d h .datum v :=
  ⟨.root (.symbol found), (a.used_of_symbol (a.named name v found)).fills⟩

/-- A table with one more entry holds the new value besides the old ones. -/
theorem isRoot_insert {name : String} {u : Value}
    (root : Heap.IsRoot { h with symbols := h.symbols.insert name u } v) :
    h.IsRoot v ∨ v = u := by
  cases root with
  | environment => exact .inl .environment
  | @symbol other _ found =>
      have found : (h.symbols.insert name u)[other]? = some v := found
      rw [Heap.getElem?_symbols_insert] at found
      split at found
      · exact .inr (Option.some.inj found).symm
      · exact .inl (.symbol found)
  | stack member => exact .inl (.stack member)
  | pin found => exact .inl (.pin found)

theorem Retains.insertSymbol {name : String} (k : Retains d h d' h')
    (symbols : h'.symbols = h.symbols) (absent : h.symbols[name]? = none) :
    Retains d h d' { h' with symbols := h'.symbols.insert name v } := by
  refine ⟨⟨k.roots.rootEnv_eq, k.roots.pins_eq, ?_, k.roots.roots_suffix⟩, k.uses, k.objects⟩
  intro other u listed
  show (h'.symbols.insert name v)[other]? = some u
  have different : name ≠ other := by
    rintro rfl
    rw [listed] at absent
    cases absent
  rw [Heap.getElem?_symbols_insert, if_neg different, symbols]
  exact listed

theorem maintains_intern (a : Orderly d h) (name : String) :
    Maintains d h (HeapM.intern name) fun d₁ h₁ v => Kept d₁ h₁ .datum v := by
  refine .get_bind ?_
  split
  · next symbol found => exact .pure a (a.kept_of_symbol found)
  · next absent =>
    have made := a.makeRoom
    unfold Maintains
    simp only [Bind.bind, EStateM.bind]
    rcases HeapM.allocate_cases h (.symbol name) with ⟨room, step⟩ | ⟨_, step⟩
    · rw [← Heap.capacity_makeRoom h] at room
      have held : ∀ v ∈ (Object.symbol name).references, h.makeRoom.Holds v := by
        simp [Object.references]
      have absentThere : h.makeRoom.symbols[name]? = none :=
        (Heap.symbols_makeRoom h).symm ▸ absent
      have w := made.toWellFormed.insertSymbol room absentThere
      rcases made.places_insert (.symbol name) with ⟨i, value, p⟩
      rw [value] at w step
      rw [step]
      -- Between the two steps the symbol is in the arena but not yet in the table.
      have roots : ∀ v, Heap.IsRoot { (h.makeRoom.insert (.symbol name)).2 with
          symbols := (h.makeRoom.insert (.symbol name)).2.symbols.insert name (.slot i) } v →
            h.makeRoom.IsRoot v ∨ v = .slot i := by
        intro v root
        rcases isRoot_insert root with old | same
        · exact .inl (p.isRoot_iff.1 old)
        · exact .inr same
      have suits : Suits d .datum (.symbol name) := .plain rfl (by simp)
      have placed := made.place p w (fun _ => rfl) roots suits held (.inl rfl)
      have retains := retains_place (d := d) (r := .datum) a.toWellFormed p
      have symbols : (h.makeRoom.insert (.symbol name)).2.symbols = h.symbols := by
        rw [p.unchanged, Heap.symbols_makeRoom]
      refine .ok placed (retains.insertSymbol symbols absent) ?_
      exact placed.kept_of_symbol Std.HashMap.getElem?_insert_self
    · rw [step]
      exact .error made (retains_makeRoom d a.toWellFormed)

/-! ## Constructors -/

section Constructors

variable {car cdr : Value}

theorem maintains_cons (a : Orderly d h) (usedCar : Used d h .datum car)
    (usedCdr : Used d h .datum cdr) :
    Maintains d h (HeapM.cons car cdr) fun d₁ h₁ v => Made d₁ h₁ .datum (.pair car cdr) v := by
  refine .scope ?_ fun _ _ _ height made => made.truncateRoots height
  refine .root_bind a usedCar (.inl rfl) fun a₁ keptCar => ?_
  refine .root_bind a₁ (usedCdr.addRoot car) (.inl rfl) fun a₂ keptCdr => ?_
  refine maintains_allocate a₂ (.pair usedCar.fills usedCdr.fills) (.inl rfl) ?_ fun _ => nofun
  intro v member
  rcases List.mem_pair.1 member with rfl | rfl
  · exact (keptCar.addRoot cdr).tethered
  · exact keptCdr.tethered

/-- Elements still to be put in front of a list must be kept meanwhile. -/
theorem maintains_consAll {list : Value} {items : List Value} (a : Orderly d h)
    (used : Used d h .datum list) (kept : ∀ v ∈ items, Kept d h .datum v) :
    Maintains d h (HeapM.consAll list items) fun d₁ h₁ v => Used d₁ h₁ .datum v := by
  -- The layout changes with every pair; the remaining elements stay as they are, being kept.
  induction items generalizing d h list with
  | nil => exact .pure a used
  | cons item items ih =>
      have keptItem := kept item List.mem_cons_self
      refine .bind (maintains_cons a (keptItem.used a.toWellFormed) used) ?_
      intro d₁ h₁ v a₁ retains made
      exact ih a₁ made.used fun u member =>
        retains.kept (kept u (List.mem_cons_of_mem item member))

theorem Orderly.addRoots (a : Orderly d h) {items : List Value}
    (used : ∀ v ∈ items, Used d h .datum v) :
    Orderly d (items.foldl Heap.addRoot h) ∧ Retains d h d (items.foldl Heap.addRoot h) ∧
      ∀ v ∈ items, Kept d (items.foldl Heap.addRoot h) .datum v := by
  induction items generalizing h with
  | nil => exact ⟨a, .refl d h, List.forall_mem_nil _⟩
  | cons item items ih =>
      have first := used item List.mem_cons_self
      rcases ih (a.addRoot (.inl first)) fun v member =>
        (used v (List.mem_cons_of_mem item member)).addRoot item with ⟨a₁, retains, kept⟩
      refine ⟨a₁, (Retains.addRoot d h item).trans retains, List.forall_mem_cons.2 ⟨?_, kept⟩⟩
      exact retains.kept ⟨tethered_addRoot d h item, first.fills⟩

theorem maintains_list {items : List Value} (a : Orderly d h)
    (used : ∀ v ∈ items, Used d h .datum v) :
    Maintains d h (HeapM.list items) fun d₁ h₁ v => Used d₁ h₁ .datum v := by
  rcases a.addRoots used with ⟨a₁, retains, kept⟩
  refine .scope ?_ fun _ _ _ height used => used.truncateRoots height
  refine .bind (Q := fun d₁ h₁ _ => ∀ v ∈ items, Kept d₁ h₁ .datum v) ?_ ?_
  · exact .ok a₁ retains kept
  · intro d₁ h₁ _ a₁ _ kept
    refine maintains_consAll a₁ (.nil d₁ h₁ nofun) fun v member => ?_
    exact kept v (List.mem_reverse.1 member)

theorem maintains_procedure {params body : Value} {env : Env} (a : Orderly d h)
    (usedParams : Used d h .datum params) (usedBody : Used d h .datum body)
    (usedEnv : Used d h .frame env.value) :
    Maintains d h (HeapM.procedure params body env) fun d₁ h₁ v => Used d₁ h₁ .datum v := by
  refine .scope ?_ fun _ _ _ height used => used.truncateRoots height
  refine .root_bind a usedParams (.inl rfl) fun a₁ keptParams => ?_
  refine .root_bind a₁ (usedBody.addRoot params) (.inl rfl) fun a₂ keptBody => ?_
  refine .root_bind a₂ ((usedEnv.addRoot params).addRoot body) (.inr rfl) fun a₃ keptEnv => ?_
  refine (maintains_allocate a₃ (.procedure usedParams.fills usedBody.fills usedEnv.fills)
    (.inl rfl) ?_ fun _ => nofun).mono fun _ _ _ made => made.used
  intro v member
  have listed : v = params ∨ v = body ∨ v = env.value := by
    simpa [Object.references] using member
  rcases listed with rfl | rfl | rfl
  · exact ((keptParams.addRoot body).addRoot env.value).tethered
  · exact (keptBody.addRoot env.value).tethered
  · exact keptEnv.tethered

theorem maintains_child {parent : Env} (a : Orderly d h) (used : Used d h .frame parent.value) :
    Maintains d h (HeapM.child parent) fun d₁ h₁ (env : Env) => Used d₁ h₁ .frame env.value := by
  refine .scope ?_ fun _ _ _ height used => used.truncateRoots height
  refine .root_bind a used (.inr rfl) fun a₁ kept => ?_
  refine .bind (maintains_allocate a₁ (.child (.nil nofun) used.fills) (.inr rfl) ?_
    fun _ => nofun) ?_
  · intro v member
    rcases List.mem_pair.1 member with rfl | rfl
    · exact .nil
    · exact kept.tethered
  · intro d₁ h₁ v a₂ _ made
    exact .pure a₂ made.used

end Constructors

/-! ## Definitions -/

section Definitions

variable {env : Env} {symbol value : Value}

/--
`h'` is what is left of `h` once room has been made in it: no object is new, and whatever was
tethered is still there. The root stack may have grown meanwhile.
-/
structure Cleared (d : Layout) (h h' : Heap) : Prop where
  arranged : Arranged d h'
  roots : h.KeepsRoots h'
  symbols : h'.symbols = h.symbols
  kept : ∀ i, Tethered d h (.slot i) → h'.object? (.slot i) = h.object? (.slot i)
  known : ∀ i o, h'.object? (.slot i) = some o → h.object? (.slot i) = some o

theorem Cleared.orderly (c : Cleared d h h') (a : Orderly d h) :
    Orderly d (h'.truncateRoots h.roots.length) := by
  refine ⟨c.arranged.transfer (c.arranged.truncateRoots _) fun _ => rfl, fun v root => ?_⟩
  exact a.roots v (isRoot_of_truncated c.roots c.symbols root)

theorem Cleared.retains (c : Cleared d h h') : Retains d h d h' :=
  ⟨c.roots, fun _ _ => rfl, fun i tethered _ => c.kept i tethered⟩

section NewBinding

variable {b e : Nat} {bindings : Value} {parent : Option Env}

/-- While room is made for a new binding the older ones are a root, but so is their environment. -/
theorem cleared_cons (a : Orderly d h) (root : h.IsRoot (.slot e))
    (foundE : h.object? (.slot e) = some (.environment bindings parent))
    (usedB : Used d h .datum (.slot b)) :
    Cleared d h ((h.addRoot (.slot b)).addRoot bindings).makeRoom ∧
      ((h.addRoot (.slot b)).addRoot bindings).makeRoom.object? (.slot b) =
        h.object? (.slot b) := by
  have a₁ := a.addRoot (.inl usedB)
  generalize rooted : (h.addRoot (.slot b)).addRoot bindings = h₁
  have objects : ∀ v, h₁.object? v = h.object? v := fun v => by
    rw [← rooted, Heap.object?_addRoot, Heap.object?_addRoot]
  have keeps : h.KeepsRoots h₁ :=
    rooted ▸ (Heap.KeepsRoots.addRoot h (.slot b)).trans (.addRoot _ bindings)
  have w₁ : h₁.WellFormed := by
    have usedOld := a.used_of_onFrame (.bindings foundE)
    exact rooted ▸ a₁.toWellFormed.addRoot (usedOld.addRoot (.slot b)).holds
  have retains : Retains d h d h₁ := ⟨keeps, fun _ _ => rfl, fun _ _ _ => objects _⟩
  have reachedB : h₁.Reachable b := by
    refine w₁.reachable_of_root ?_
    rw [← rooted]
    exact (Heap.KeepsRoots.addRoot _ bindings).isRoot (.stack List.mem_cons_self)
  refine ⟨⟨?_, keeps.trans (.makeRoom h₁), ?_, fun i tethered => ?_, fun i o found => ?_⟩, ?_⟩
  · refine (a.toArranged.transfer w₁ objects).makeRoom fun v isRoot => ?_
    rw [← rooted] at isRoot
    rcases Heap.isRoot_of_addRoot isRoot with isRoot | rfl
    · exact (a₁.roots v isRoot).imp_right .inl
    · exact .inr (.inr ⟨.slot e, parent, keeps.isRoot root, (objects _).trans foundE⟩)
  · rw [Heap.symbols_makeRoom, ← rooted]
    unfold Heap.addRoot
    split <;> split <;> rfl
  · have reached := (retains.tethered tethered).reachable w₁
    exact (Simulation.object?_makeRoom w₁ reached).trans (objects _)
  · exact (objects _).symm.trans (object?_of_makeRoom w₁ found)
  · exact (Simulation.object?_makeRoom w₁ reachedB).trans (objects _)

variable {s : Nat} {symbol value : Value} {h₁ h₂ : Heap}

/-- What was tethered neither becomes a binding nor lies where a new pair is put. -/
theorem Cleared.bind_eq {i : Nat} (c : Cleared d h h₁) (loose : Loose h b)
    (p : h₁.Places s o h₂) (tethered : Tethered d h (.slot i)) : d.bind b s i = d i := by
  refine Layout.bind_eq ?_ ?_
  · rintro rfl
    exact loose.not_tethered tethered
  · rintro rfl
    have held := c.retains.tethered tethered |>.holds c.arranged.toWellFormed
    exact p.fresh (Heap.holds_slot_iff.1 held)

/-- The environment takes over the new list of bindings. -/
theorem Cleared.bind (c : Cleared d h h₁) (a : Orderly d h) (loose : Loose h b)
    (useB : d b = .datum) (foundB : h₁.object? (.slot b) = some (.pair symbol value))
    (foundE : h₁.object? (.slot e) = some (.environment bindings parent))
    (p : h₁.Places s (.pair (.slot b) bindings) h₂) (w : h₂.WellFormed)
    (w' : (h₂.put e (.environment (.slot s) parent)).WellFormed) :
    Orderly (d.bind b s)
        ((h₂.put e (.environment (.slot s) parent)).truncateRoots h.roots.length) ∧
      Retains d h (d.bind b s)
        ((h₂.put e (.environment (.slot s) parent)).truncateRoots h.roots.length) := by
  have unreferenced : ∀ k x, h₁.object? (.slot k) = some x → .slot b ∉ x.references :=
    fun k x found => loose.unreferenced k x (c.known k x found)
  have bound := c.arranged.bind p w w' useB foundB unreferenced foundE
  have keeps : h.KeepsRoots (h₂.put e (.environment (.slot s) parent)) :=
    c.roots.trans (p.keepsRoots.trans (.put h₂ e _))
  have symbols : (h₂.put e (.environment (.slot s) parent)).symbols = h.symbols := by
    show h₂.symbols = h.symbols
    rw [p.unchanged, c.symbols]
  refine ⟨⟨bound.transfer (bound.truncateRoots _) fun _ => rfl, fun v isRoot => ?_⟩,
    Retains.truncateRoots ⟨keeps, fun i => c.bind_eq loose p, fun i tethered use => ?_⟩⟩
  · have old := isRoot_of_truncated keeps symbols isRoot
    have kept {q : Role} (fills : Fills d q v) : Fills (d.bind b s) q v :=
      fills.congr fun i isSlot => c.bind_eq loose p (.root (isSlot ▸ old))
    exact (a.roots v old).imp kept kept
  · have other : Value.slot i ≠ .slot e := by
      rintro same
      cases same
      rw [(c.arranged.used_of_environment foundE).fills.use nofun] at use
      cases use
    have held := c.retains.tethered tethered |>.holds c.arranged.toWellFormed
    rw [Heap.object?_put_ne other, p.object?_old (Heap.holds_slot_iff.1 held), c.kept i tethered]

end NewBinding

/-- A pair that nothing refers to becomes the newest binding of an environment. -/
theorem maintains_takeOver {binding : Value} (a : Orderly d h) (root : h.IsRoot env.value)
    (fills : Fills d .frame env.value)
    (made : Made d h .datum (.pair symbol value) binding) :
    Maintains d h (HeapM.cons binding (env.bindings h) >>= fun bindings =>
      modify fun h => h.setBindings env bindings) fun _ _ _ => True := by
  rcases made with ⟨b, rfl, useB, foundB, loose⟩
  rcases env with ⟨v⟩
  cases fills with
  | nil other => exact absurd rfl other
  | @slot _ e useE =>
  rcases Heap.occupied_iff.1 (Heap.holds_slot_iff.1 (a.roots_held _ root)) with ⟨o, foundE⟩
  rcases a.exists_environment (.slot useE) foundE with ⟨bindings, parent, rfl⟩
  rw [Env.bindings_eq foundE]
  have usedB : Used d h .datum (.slot b) := ⟨.slot useB, Heap.holds_of_object? foundB⟩
  rcases cleared_cons a root foundE usedB with ⟨c, keptB⟩
  unfold Maintains
  simp only [Bind.bind, EStateM.bind]
  rcases HeapM.cons_cases (.slot b) bindings h with ⟨room, step⟩ | ⟨failure, step⟩
  · rw [← Heap.capacity_makeRoom] at room
    generalize ((h.addRoot (.slot b)).addRoot bindings).makeRoom = h₁ at c keptB room step
    have foundE₁ := (c.kept e (.root root)).trans foundE
    have held : ∀ v ∈ (Object.pair (.slot b) bindings).references, h₁.Holds v := by
      intro v member
      rcases List.mem_pair.1 member with rfl | rfl
      · exact Heap.holds_of_object? (keptB.trans foundB)
      · exact (c.arranged.used_of_onFrame (.bindings foundE₁)).holds
    have w := c.arranged.toWellFormed.insert room held fun _ => nofun
    rcases c.arranged.places_insert (.pair (.slot b) bindings) with ⟨s, value, p⟩
    rw [value] at step
    rw [step]
    generalize (h₁.insert (.pair (.slot b) bindings)).2 = h₂ at w p ⊢
    have foundE₂ : h₂.object? (.slot e) = some (.environment bindings parent) :=
      kept_of_places p foundE₁
    have w' : (h₂.put e (.environment (.slot s) parent)).WellFormed := by
      rw [← Heap.setBindings_eq foundE₂]
      exact w.setBindings ⟨.slot e⟩ p.holds_new
    have bound := c.bind a loose useB (keptB.trans foundB) foundE₁ p w w'
    -- Between the two steps the roots of the new pair are dropped.
    have foundE₃ : (h₂.truncateRoots h.roots.length).object? (.slot e) =
      some (.environment bindings parent) := foundE₂
    show Upkept d h _ (.ok () ((h₂.truncateRoots h.roots.length).setBindings _ _))
    rw [Heap.setBindings_eq foundE₃]
    exact .ok bound.1 bound.2 trivial
  · rw [step]
    exact .error (c.orderly a) c.retains.truncateRoots

theorem maintains_define (a : Orderly d h) (usedEnv : Used d h .frame env.value)
    (usedSymbol : Used d h .datum symbol) (usedValue : Used d h .datum value) :
    Maintains d h (env.define symbol value) fun _ _ _ => True := by
  refine .scope ?_ fun _ _ _ _ _ => trivial
  refine .root_bind a usedEnv (.inr rfl) fun a₁ keptEnv => ?_
  refine .bind (maintains_cons a₁ (usedSymbol.addRoot env.value) (usedValue.addRoot env.value)) ?_
  intro d₂ h₂ binding a₂ retains made
  refine .get_bind ?_
  -- The environment is rooted, so its bindings are still there to be extended.
  have root : (h.addRoot env.value).IsRoot env.value := by
    rcases env with ⟨v⟩
    cases usedEnv.fills with
    | nil other => exact absurd rfl other
    | slot _ => exact .stack List.mem_cons_self
  exact maintains_takeOver a₂ (retains.roots.isRoot root) (retains.kept keptEnv).fills made

theorem maintains_definePrimitive (a : Orderly d h) (keptEnv : Kept d h .frame env.value)
    {p : Primitive} (standard : p ∈ Primitive.standard) :
    Maintains d h (env.definePrimitive p) fun _ _ _ => True := by
  refine .bind (maintains_intern a p.name) ?_
  intro d₁ h₁ name a₁ retains keptName
  refine .bind (maintains_atom (o := .primitive p) a₁ rfl ?_ fun _ => nofun) ?_
  · rintro _ ⟨⟩
    exact standard
  intro d₂ h₂ value a₂ retains' usedValue
  have keptEnv := (retains.trans retains').kept keptEnv
  exact maintains_define a₂ (keptEnv.used a₂.toWellFormed)
    (retains'.used keptName a₂.toWellFormed) usedValue

theorem maintains_definePrimitives (a : Orderly d h) (usedEnv : Used d h .frame env.value)
    {primitives : List Primitive} (standard : ∀ p ∈ primitives, p ∈ Primitive.standard) :
    Maintains d h (env.definePrimitives primitives) fun _ _ _ => True := by
  -- Induction on the table, with the environment kept while the layout changes.
  have defines : ∀ d h, Orderly d h → Kept d h .frame env.value →
      Maintains d h (primitives.forM env.definePrimitive) fun _ _ _ => True := by
    induction primitives with
    | nil => exact fun d h a _ => .pure a trivial
    | cons p primitives ih =>
        intro d h a keptEnv
        have first := standard p List.mem_cons_self
        have rest := ih fun q member => standard q (List.mem_cons_of_mem p member)
        refine .bind (maintains_definePrimitive a keptEnv first) ?_
        intro d₁ h₁ _ a₁ retains _
        exact rest d₁ h₁ a₁ (retains.kept keptEnv)
  refine .scope ?_ fun _ _ _ _ _ => trivial
  exact .root_bind a usedEnv (.inr rfl) fun a₁ keptEnv => defines _ _ a₁ keptEnv

/-! ## Parameters -/

/-- Parameters and arguments are kept while the first of them are bound. -/
theorem maintains_bindAll {params : List Value} {tail args : Value} (a : Orderly d h)
    (keptEnv : Kept d h .frame env.value) (keptParams : ∀ v ∈ params, Kept d h .datum v)
    (keptTail : Kept d h .datum tail) (keptArgs : Kept d h .datum args) :
    Maintains d h (env.bindAll params tail args) fun _ _ _ => True := by
  -- Induction on the parameters; the arguments are taken apart at the same pace.
  induction params generalizing d h args with
  | nil =>
      unfold Env.bindAll
      split
      · exact maintains_define a (keptEnv.used a.toWellFormed) (keptTail.used a.toWellFormed)
          (keptArgs.used a.toWellFormed)
      · exact .pure a trivial
  | cons param params ih =>
      refine .get_bind ?_
      split
      · next arg rest goes =>
        have parts := keptArgs.parts a.toSuited goes
        have keptParam := keptParams param List.mem_cons_self
        refine .bind (maintains_define a (keptEnv.used a.toWellFormed)
          (keptParam.used a.toWellFormed) (parts.1.used a.toWellFormed)) ?_
        intro d₁ h₁ _ a₁ retains _
        refine ih a₁ (retains.kept keptEnv) (fun v member => ?_) (retains.kept keptTail)
          (retains.kept parts.2)
        exact retains.kept (keptParams v (List.mem_cons_of_mem param member))
      · exact .pure a trivial

end Definitions

end Termination

end Lisplet
