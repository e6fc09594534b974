import Lisplet.Proofs.Heap.Arena

/-!
# Evolution — what an allocating operation leaves alone

An operation that may collect keeps the heap well-formed, never lowers the root stack below
where it found it, and changes no object that the roots keep alive, unless it is an environment,
which may get new bindings. `Evolves` says this of two
heaps, `HeapM.Keeps` of an operation and whatever it ends with. The lemmas on `Keeps` follow
the way operations are put together, so that the constructors are checked step by step: each
operand must be held when it is rooted, and stays held because it is.
-/

namespace Lisplet

namespace Heap

/-! ## What the roots keep -/

/-- A value that the roots keep, by itself or as part of a list. -/
inductive Anchored (h : Heap) : Value → Prop where
  | nil : Anchored h .nil
  | root {v : Value} : h.IsRoot v → Anchored h v
  | car {p car cdr : Value} :
      Anchored h p → h.object? p = some (.pair car cdr) → Anchored h car
  | cdr {p car cdr : Value} :
      Anchored h p → h.object? p = some (.pair car cdr) → Anchored h cdr

section Anchoring

variable {h : Heap} {v : Value}

theorem Anchored.holds (anchored : h.Anchored v) (a : h.Arena) : h.Holds v := by
  cases anchored with
  | nil => exact holds_nil h
  | root root => exact a.roots_held v root
  | car _ found => exact a.holds_reference found (by simp [Object.references])
  | cdr _ found => exact a.holds_reference found (by simp [Object.references])

/-- A collection reaches what is anchored. -/
theorem Anchored.object?_collect (anchored : h.Anchored v) (a : h.Arena) :
    h.collect.1.object? v = h.object? v := by
  -- Induction on how the value is anchored; a part of a reached pair is reached.
  have reached : ∀ i, v = .slot i → h.Reachable i := by
    induction anchored with
    | nil =>
        intro i same
        cases same
    | root root =>
        intro i same
        subst same
        exact a.reachable_of_root root
    | @car p car cdr _ found ih =>
        intro i same
        subst same
        cases p with
        | nil => cases found
        | slot k => exact a.reachable_of_reference (ih k rfl) found (by simp [Object.references])
    | @cdr p car cdr _ found ih =>
        intro i same
        subst same
        cases p with
        | nil => cases found
        | slot k => exact a.reachable_of_reference (ih k rfl) found (by simp [Object.references])
  cases v with
  | nil => rfl
  | slot i => exact object?_collect_of_reachable a.marksClear (reached i rfl)

end Anchoring

/-! ## Roots that stay -/

section MakeRoom

variable (h : Heap)

/-- Making room concerns the arena alone. -/
theorem makeRoom_eq : h.makeRoom =
    { h with
      slots := h.makeRoom.slots
      free := h.makeRoom.free
      live := h.makeRoom.live
      collections := h.makeRoom.collections } := by
  unfold makeRoom
  split
  · rfl
  · rfl

@[simp]
theorem capacity_makeRoom : h.makeRoom.capacity = h.capacity := by rw [makeRoom_eq]

@[simp]
theorem symbols_makeRoom : h.makeRoom.symbols = h.symbols := by rw [makeRoom_eq]

@[simp]
theorem rootEnv_makeRoom : h.makeRoom.rootEnv = h.rootEnv := by rw [makeRoom_eq]

@[simp]
theorem roots_makeRoom : h.makeRoom.roots = h.roots := by rw [makeRoom_eq]

@[simp]
theorem pins_makeRoom : h.makeRoom.pins = h.pins := by rw [makeRoom_eq]

end MakeRoom

/-- What was a root of `h` is one of `h'`, and the root stack of `h` lies below that of `h'`. -/
structure KeepsRoots (h h' : Heap) : Prop where
  rootEnv_eq : h'.rootEnv = h.rootEnv
  pins_eq : h'.pins = h.pins
  symbols_extend : ∀ (name : String) v, h.symbols[name]? = some v → h'.symbols[name]? = some v
  roots_suffix : h.roots.values <:+ h'.roots.values

namespace KeepsRoots

variable {h h' h'' : Heap} {v : Value}

theorem isRoot (k : h.KeepsRoots h') (root : h.IsRoot v) : h'.IsRoot v := by
  cases root with
  | environment => exact k.rootEnv_eq ▸ .environment
  | symbol found => exact .symbol (k.symbols_extend _ _ found)
  | stack member => exact .stack (k.roots_suffix.mem member)
  | pin found => exact .pin (k.pins_eq ▸ found)

/-- A change that concerns none of the roots. -/
theorem ofEq (environment : h'.rootEnv = h.rootEnv) (symbols : h'.symbols = h.symbols)
    (roots : h'.roots = h.roots) (pins : h'.pins = h.pins) : h.KeepsRoots h' :=
  ⟨environment, pins, fun _ _ found => symbols ▸ found, roots ▸ List.suffix_refl _⟩

theorem refl (h : Heap) : h.KeepsRoots h := ofEq rfl rfl rfl rfl

theorem trans (k : h.KeepsRoots h') (k' : h'.KeepsRoots h'') : h.KeepsRoots h'' := by
  constructor
  · exact k'.rootEnv_eq.trans k.rootEnv_eq
  · exact k'.pins_eq.trans k.pins_eq
  · intro name v found
    exact k'.symbols_extend name v (k.symbols_extend name v found)
  · exact k.roots_suffix.trans k'.roots_suffix

theorem makeRoom (h : Heap) : h.KeepsRoots h.makeRoom :=
  ofEq (rootEnv_makeRoom h) (symbols_makeRoom h) (roots_makeRoom h) (pins_makeRoom h)

theorem addRoot (h : Heap) (v : Value) : h.KeepsRoots (h.addRoot v) := by
  unfold Heap.addRoot
  split
  · exact refl h
  · exact ⟨rfl, rfl, fun _ _ found => found, List.suffix_cons _ _⟩

/-- Dropping roots as far as the stack was built up gives back the stack there was before. -/
theorem values_truncateRoots (k : h.KeepsRoots h') :
    (h'.truncateRoots h.roots.length).roots.values = h.roots.values := by
  rcases k.roots_suffix with ⟨above, values⟩
  show h'.roots.values.drop (h'.roots.length - h.roots.length) = _
  rw [← h'.roots.length_eq, ← h.roots.length_eq, ← values]
  simp

theorem truncateRoots (k : h.KeepsRoots h') :
    h.KeepsRoots (h'.truncateRoots h.roots.length) :=
  ⟨k.rootEnv_eq, k.pins_eq, k.symbols_extend, k.values_truncateRoots ▸ List.suffix_refl _⟩

theorem put (h : Heap) (i : Nat) (o : Object) : h.KeepsRoots (h.put i o) := ofEq rfl rfl rfl rfl

end KeepsRoots

theorem isRoot_of_addRoot {h : Heap} {v u : Value} (root : (h.addRoot v).IsRoot u) :
    h.IsRoot u ∨ u = v := by
  unfold Heap.addRoot at root
  split at root
  · exact .inl root
  · cases root with
    | environment => exact .inl .environment
    | symbol found => exact .inl (.symbol found)
    | stack member =>
        rcases List.mem_cons.1 member with rfl | before
        · exact .inr rfl
        · exact .inl (.stack before)
    | pin found => exact .inl (.pin found)

theorem Places.keepsRoots {h h' : Heap} {i : Nat} {o : Object} (p : h.Places i o h') :
    h.KeepsRoots h' := by
  rw [p.unchanged]
  exact .ofEq rfl rfl rfl rfl

/-! ## Evolving heaps -/

/-- `h'` is a later state of `h` at which everything that was anchored is still in place. -/
structure Evolves (h h' : Heap) : Prop where
  wellFormed : h'.WellFormed
  capacity_eq : h'.capacity = h.capacity
  roots : h.KeepsRoots h'
  objects_kept : ∀ v o, h.Anchored v → h.object? v = some o → o.kind ≠ .environment →
    h'.object? v = some o

namespace Evolves

variable {h h' h'' : Heap} {v : Value}

theorem pairs_kept (e : h.Evolves h') (v car cdr : Value) (anchored : h.Anchored v)
    (found : h.object? v = some (.pair car cdr)) : h'.object? v = some (.pair car cdr) :=
  e.objects_kept v _ anchored found nofun

theorem anchored (e : h.Evolves h') (anchored : h.Anchored v) : h'.Anchored v := by
  induction anchored with
  | nil => exact .nil
  | root root => exact .root (e.roots.isRoot root)
  | car before found ih => exact .car ih (e.pairs_kept _ _ _ before found)
  | cdr before found ih => exact .cdr ih (e.pairs_kept _ _ _ before found)

/-- What is anchored is still held later. -/
theorem holds (e : h.Evolves h') (anchored : h.Anchored v) : h'.Holds v :=
  (e.anchored anchored).holds e.wellFormed.toArena

theorem refl (w : h.WellFormed) : h.Evolves h := ⟨w, rfl, .refl h, fun _ _ _ found _ => found⟩

theorem trans (e : h.Evolves h') (e' : h'.Evolves h'') : h.Evolves h'' := by
  constructor
  · exact e'.wellFormed
  · exact e'.capacity_eq.trans e.capacity_eq
  · exact e.roots.trans e'.roots
  · intro v o isAnchored found other
    exact e'.objects_kept v o (e.anchored isAnchored) (e.objects_kept v o isAnchored found other)
      other

theorem makeRoom (w : h.WellFormed) : h.Evolves h.makeRoom := by
  have roots := KeepsRoots.makeRoom h
  unfold Heap.makeRoom at roots ⊢
  split
  · next full =>
    rw [if_pos full] at roots
    refine ⟨w.collect, rfl, roots, fun v o isAnchored found _ => ?_⟩
    rw [isAnchored.object?_collect w.toArena, found]
  · exact refl w

theorem addRoot (w : h.WellFormed) (held : h.Holds v) : h.Evolves (h.addRoot v) := by
  have w' := w.addRoot held
  have roots := KeepsRoots.addRoot h v
  unfold Heap.addRoot at w' roots ⊢
  -- The root stack takes no nil.
  split
  · exact refl w
  · next some =>
    rw [if_neg some] at w' roots
    exact ⟨w', rfl, roots, fun _ _ _ found _ => found⟩

/-- Roots may be dropped again as far as the stack was built up before. -/
theorem truncateRoots (e : h.Evolves h') : h.Evolves (h'.truncateRoots h.roots.length) :=
  ⟨e.wellFormed.truncateRoots _, e.capacity_eq, e.roots.truncateRoots, e.objects_kept⟩

/-- New bindings of an environment are no change to any other object. -/
theorem setBindings (w : h.WellFormed) (env : Env) (held : h.Holds v) :
    h.Evolves (h.setBindings env v) := by
  have w' := w.setBindings env held
  rcases setBindings_cases h env v with ⟨i, bindings, parent, _, found, step⟩ | ⟨_, step⟩
  · rw [step] at w' ⊢
    refine ⟨w', rfl, .put h i _, fun u o _ found' other => ?_⟩
    rw [object?_put_ne]
    · exact found'
    · rintro rfl
      rw [found] at found'
      cases found'
      exact other rfl
  · rw [step]
    exact refl w

/-- A new object that is no symbol leaves all others alone. -/
theorem insert {o : Object} (w : h.WellFormed) (room : h.live < h.capacity)
    (held : ∀ v ∈ o.references, h.Holds v) (other : ∀ name, o ≠ .symbol name) :
    h.Evolves (h.insert o).2 := by
  rcases w.places_insert o with ⟨i, _, p⟩
  refine ⟨w.insert room held other, by rw [p.unchanged], p.keepsRoots, ?_⟩
  intro v o' _ found _
  cases v with
  | nil => cases found
  | slot j => rw [p.object?_old (occupied_of_object? found), found]

end Evolves

end Heap

/-! ## Operations -/

namespace HeapM

variable {ε α β : Type} {h : Heap}

/-- Whatever an operation ends with, the heap evolves; and if it succeeds, `Q` holds. -/
def Keeps (op : HeapM ε α) (h : Heap) (Q : α → Heap → Prop) : Prop :=
  match op h with
  | .ok a h' => h.Evolves h' ∧ Q a h'
  | .error _ h' => h.Evolves h'

namespace Keeps

variable {op : HeapM ε α} {next : α → HeapM ε β} {Q : α → Heap → Prop} {R : β → Heap → Prop}

theorem pure (w : h.WellFormed) {a : α} (q : Q a h) : Keeps (Pure.pure a : HeapM ε α) h Q :=
  show h.Evolves h ∧ Q a h from ⟨.refl w, q⟩

theorem modify {f : Heap → Heap} {Q : Unit → Heap → Prop} (e : h.Evolves (f h)) (q : Q () (f h)) :
    Keeps (modify f : HeapM ε Unit) h Q :=
  show h.Evolves (f h) ∧ Q () (f h) from ⟨e, q⟩

/-- An operation may start by looking at the heap. -/
theorem get_bind {f : Heap → HeapM ε β} (k : Keeps (f h) h R) : Keeps (get >>= f) h R := k

theorem bind (k : Keeps op h Q)
    (continues : ∀ a h', h.Evolves h' → Q a h' → Keeps (next a) h' R) :
    Keeps (op >>= next) h R := by
  unfold Keeps at k ⊢
  simp only [Bind.bind, EStateM.bind]
  rcases step : op h with ⟨a, h'⟩ | ⟨e, h'⟩
  · rw [step] at k
    rcases k with ⟨evolved, q⟩
    have rest := continues a h' evolved q
    unfold Keeps at rest
    show match next a h' with
      | .ok b h'' => h.Evolves h'' ∧ R b h''
      | .error _ h'' => h.Evolves h''
    rcases step' : next a h' with ⟨b, h''⟩ | ⟨e, h''⟩
    · rw [step'] at rest
      exact ⟨evolved.trans rest.1, rest.2⟩
    · rw [step'] at rest
      exact evolved.trans rest
  · rw [step] at k
    exact k

theorem mono {Q' : α → Heap → Prop} (k : Keeps op h Q)
    (weaker : ∀ a h', h.Evolves h' → Q a h' → Q' a h') : Keeps op h Q' := by
  unfold Keeps at k ⊢
  rcases step : op h with ⟨a, h'⟩ | ⟨e, h'⟩
  · rw [step] at k
    exact ⟨k.1, weaker a h' k.1 k.2⟩
  · rw [step] at k
    exact k

/-- A scope drops the roots it has added. -/
theorem scope (k : Keeps op h Q)
    (stable : ∀ a h' height, Q a h' → Q a (h'.truncateRoots height)) :
    Keeps (HeapM.scope op) h Q := by
  unfold Keeps at k ⊢
  unfold HeapM.scope
  rcases step : op h with ⟨a, h'⟩ | ⟨e, h'⟩
  · rw [step] at k
    exact ⟨k.1.truncateRoots, stable a h' _ k.2⟩
  · rw [step] at k
    exact Heap.Evolves.truncateRoots k

end Keeps

/-! ## Constructors -/

section Constructors

variable {v car cdr : Value} {o : Object}

/-- A rooted value is anchored, and whatever was held still is. -/
theorem keeps_root (w : h.WellFormed) (held : h.Holds v) :
    Keeps (root v : HeapM ε Unit) h fun _ h' =>
      h'.Anchored v ∧ ∀ u, h.Holds u → h'.Holds u := by
  refine .modify (.addRoot w held) ⟨?_, ?_⟩
  · cases v with
    | nil => exact .nil
    | slot i => exact .root (.stack List.mem_cons_self)
  · intro u heldU
    unfold Heap.addRoot
    split
    · exact heldU
    · exact heldU

/-- What an allocation does: it makes room, and then there is room or there is none. -/
theorem allocate_cases (h : Heap) (o : Object) :
    (h.makeRoom.live < h.capacity ∧
      allocate o h = .ok (h.makeRoom.insert o).1 (h.makeRoom.insert o).2) ∨
    (h.capacity ≤ h.makeRoom.live ∧
      allocate o h = .error (.outOfMemory h.makeRoom.live h.capacity) h.makeRoom) := by
  unfold allocate
  simp only [Heap.capacity_makeRoom]
  split
  · next full => exact .inr ⟨full, rfl⟩
  · next room => exact .inl ⟨Nat.lt_of_not_le room, rfl⟩

/-- A name is looked up, and if it is new a symbol is allocated and entered in the table. -/
theorem intern_cases (h : Heap) (name : String) :
    (∃ symbol, h.symbols[name]? = some symbol ∧ intern name h = .ok symbol h) ∨
    h.symbols[name]? = none ∧
      ((h.makeRoom.live < h.capacity ∧
        intern name h = .ok (h.makeRoom.insert (.symbol name)).1
          { (h.makeRoom.insert (.symbol name)).2 with
            symbols := (h.makeRoom.insert (.symbol name)).2.symbols.insert name
              (h.makeRoom.insert (.symbol name)).1 }) ∨
      (h.capacity ≤ h.makeRoom.live ∧
        intern name h = .error (.outOfMemory h.makeRoom.live h.capacity) h.makeRoom)) := by
  unfold intern
  rw [get_bind_apply]
  cases listed : h.symbols[name]? with
  | some symbol => exact .inl ⟨symbol, rfl, rfl⟩
  | none =>
      refine .inr ⟨rfl, ?_⟩
      simp only [Bind.bind, EStateM.bind]
      rcases allocate_cases h (.symbol name) with ⟨room, step⟩ | ⟨full, step⟩
      · rw [step]
        exact .inl ⟨room, rfl⟩
      · rw [step]
        exact .inr ⟨full, rfl⟩

theorem keeps_allocate (w : h.WellFormed) (anchored : ∀ v ∈ o.references, h.Anchored v)
    (other : ∀ name, o ≠ .symbol name) :
    Keeps (allocate o) h fun v h' => h'.object? v = some o := by
  have e := Heap.Evolves.makeRoom w
  unfold Keeps
  rcases allocate_cases h o with ⟨room, step⟩ | ⟨_, step⟩
  · rw [step]
    rw [← e.capacity_eq] at room
    -- Only what is anchored is sure to be held after the collection.
    have held : ∀ v ∈ o.references, h.makeRoom.Holds v := by
      intro v member
      exact e.holds (anchored v member)
    rcases e.wellFormed.places_insert o with ⟨i, value, p⟩
    refine ⟨e.trans (.insert e.wellFormed room held other), ?_⟩
    rw [value]
    exact p.object?_new
  · rw [step]
    exact e

/-- Objects without references need nothing to be rooted. -/
theorem keeps_atom (w : h.WellFormed) (none : o.references = [])
    (other : ∀ name, o ≠ .symbol name) :
    Keeps (allocate o) h fun v h' => h'.Holds v := by
  refine (keeps_allocate w ?_ other).mono fun v h' _ found => Heap.holds_of_object? found
  intro v member
  rw [none] at member
  cases member

theorem keeps_raise (w : h.WellFormed) (kind : ErrorKind) (message : String) :
    Keeps (raise kind message) h fun v h' => h'.Holds v :=
  keeps_atom w rfl fun _ => nofun

theorem keeps_intern (w : h.WellFormed) (name : String) :
    Keeps (intern name) h fun v h' => h'.symbols[name]? = some v := by
  unfold intern
  refine .get_bind ?_
  split
  · next symbol found => exact .pure w found
  · next absent =>
    have e := Heap.Evolves.makeRoom w
    -- Between the two steps the symbol is in the arena but not yet in the table.
    unfold Keeps
    simp only [Bind.bind, EStateM.bind]
    rcases allocate_cases h (.symbol name) with ⟨room, step⟩ | ⟨_, step⟩
    · rw [step]
      rw [← e.capacity_eq] at room
      rw [← Heap.symbols_makeRoom] at absent
      have w' := e.wellFormed.insertSymbol room absent
      rcases e.wellFormed.places_insert (.symbol name) with ⟨i, value, p⟩
      have roots := p.keepsRoots
      refine And.intro (e.trans ⟨w', ?_, ⟨roots.rootEnv_eq, roots.pins_eq, ?_, roots.roots_suffix⟩,
        ?_⟩) ?_
      · show (h.makeRoom.insert (.symbol name)).2.capacity = _
        rw [p.unchanged]
      · intro other v found
        show ((h.makeRoom.insert (.symbol name)).2.symbols.insert name _)[other]? = _
        -- The new entry shadows nothing, since the name was absent.
        have different : name ≠ other := by
          intro same
          rw [← same, absent] at found
          cases found
        rw [p.unchanged, Heap.getElem?_symbols_insert, if_neg different]
        exact found
      · intro v o _ found _
        show (h.makeRoom.insert (.symbol name)).2.object? v = _
        cases v with
        | nil => cases found
        | slot j => rw [p.object?_old (Heap.occupied_of_object? found), found]
      · show ((h.makeRoom.insert (.symbol name)).2.symbols.insert name _)[name]? = _
        exact Std.HashMap.getElem?_insert_self
    · rw [step]
      exact e

/-- Making a pair makes room while both parts are roots, and fills a slot if there is one. -/
theorem cons_cases (car cdr : Value) (h : Heap) :
    (((h.addRoot car).addRoot cdr).makeRoom.live < ((h.addRoot car).addRoot cdr).capacity ∧
      cons car cdr h =
        .ok (((h.addRoot car).addRoot cdr).makeRoom.insert (.pair car cdr)).1
          ((((h.addRoot car).addRoot cdr).makeRoom.insert (.pair car cdr)).2.truncateRoots
            h.roots.length)) ∨
      ∃ e, cons car cdr h =
        .error e (((h.addRoot car).addRoot cdr).makeRoom.truncateRoots h.roots.length) := by
  have start : (do
      root car
      root cdr
      allocate (.pair car cdr) : HeapM Fatal Value) h =
        allocate (.pair car cdr) ((h.addRoot car).addRoot cdr) := rfl
  unfold cons HeapM.scope
  rcases allocate_cases ((h.addRoot car).addRoot cdr) (.pair car cdr) with
    ⟨room, step⟩ | ⟨_, step⟩
  · rw [start, step]
    exact .inl ⟨room, rfl⟩
  · rw [start, step]
    exact .inr ⟨_, rfl⟩

theorem keeps_cons (w : h.WellFormed) (heldCar : h.Holds car) (heldCdr : h.Holds cdr) :
    Keeps (cons car cdr) h fun v h' => h'.object? v = some (.pair car cdr) := by
  refine .scope (Q := fun v h' => h'.object? v = some (.pair car cdr)) ?_ fun _ _ _ found => found
  -- Both parts are rooted by the time the pair is allocated.
  refine .bind (keeps_root w heldCar) fun _ h₁ e₁ rooted => ?_
  refine .bind (keeps_root e₁.wellFormed (rooted.2 cdr heldCdr)) fun _ h₂ e₂ rooted' => ?_
  refine keeps_allocate e₂.wellFormed ?_ fun _ => nofun
  intro v member
  rcases List.mem_pair.1 member with rfl | rfl
  · exact e₂.anchored rooted.1
  · exact rooted'.1

/-- A list grows at its front; what is still to be put there must be anchored meanwhile. -/
theorem keeps_consAll {list : Value} {items : List Value} (w : h.WellFormed) (held : h.Holds list)
    (anchored : ∀ v ∈ items, h.Anchored v) :
    Keeps (consAll list items) h fun v h' => h'.Holds v := by
  -- The list so far is held only; each pair roots it while it is extended.
  induction items generalizing h list with
  | nil => exact .pure w held
  | cons item items ih =>
      have heldItem := (anchored item List.mem_cons_self).holds w.toArena
      refine .bind (keeps_cons w heldItem held) fun v h' e found => ?_
      refine ih e.wellFormed (Heap.holds_of_object? found) fun u member => ?_
      exact e.anchored (anchored u (List.mem_cons_of_mem _ member))

theorem evolves_addRoots {items : List Value} (w : h.WellFormed) (held : ∀ v ∈ items, h.Holds v) :
    h.Evolves (items.foldl Heap.addRoot h) ∧
      ∀ v ∈ items, (items.foldl Heap.addRoot h).Anchored v := by
  induction items generalizing h with
  | nil => exact ⟨.refl w, fun v member => nomatch member⟩
  | cons item items ih =>
      rcases (keeps_root (ε := Fatal) w (held item List.mem_cons_self)) with ⟨e, rooted, keeps⟩
      have rest := ih e.wellFormed fun v member =>
        keeps v (held v (List.mem_cons_of_mem _ member))
      refine ⟨e.trans rest.1, fun v member => ?_⟩
      rcases List.mem_cons.1 member with rfl | later
      · exact rest.1.anchored rooted
      · exact rest.2 v later

theorem keeps_list {items : List Value} (w : h.WellFormed) (held : ∀ v ∈ items, h.Holds v) :
    Keeps (list items) h fun v h' => h'.Holds v := by
  have added := evolves_addRoots w held
  refine .scope (Q := fun v h' => h'.Holds v) ?_ fun _ _ _ held => held
  refine .bind (.modify (Q := fun _ h' => ∀ v ∈ items, h'.Anchored v) added.1 added.2)
    fun _ h₁ e₁ anchored => ?_
  refine keeps_consAll e₁.wellFormed (Heap.holds_nil h₁) fun v member => ?_
  exact anchored v (List.mem_reverse.1 member)

theorem keeps_procedure {params body : Value} {env : Env} (w : h.WellFormed)
    (heldParams : h.Holds params) (heldBody : h.Holds body) (heldEnv : h.Holds env.value) :
    Keeps (procedure params body env) h fun v h' =>
      h'.object? v = some (.procedure params body env) := by
  refine .scope (Q := fun v h' => h'.object? v = some (.procedure params body env)) ?_
    fun _ _ _ found => found
  refine .bind (keeps_root w heldParams) fun _ h₁ e₁ rooted => ?_
  refine .bind (keeps_root e₁.wellFormed (rooted.2 body heldBody)) fun _ h₂ e₂ rooted' => ?_
  have heldEnv' := rooted'.2 env.value (rooted.2 env.value heldEnv)
  refine .bind (keeps_root e₂.wellFormed heldEnv') fun _ h₃ e₃ rooted'' => ?_
  refine keeps_allocate e₃.wellFormed ?_ fun _ => nofun
  intro v member
  have listed : v = params ∨ v = body ∨ v = env.value := by
    simpa [Object.references] using member
  rcases listed with rfl | rfl | rfl
  · exact e₃.anchored (e₂.anchored rooted.1)
  · exact e₃.anchored rooted'.1
  · exact rooted''.1

theorem keeps_child {parent : Env} (w : h.WellFormed) (held : h.Holds parent.value) :
    Keeps (child parent) h fun (env : Env) h' =>
      h'.object? env.value = some (.environment .nil (some parent)) := by
  refine .scope (Q := fun (env : Env) h' =>
    h'.object? env.value = some (.environment .nil (some parent))) ?_ fun _ _ _ found => found
  refine .bind (keeps_root w held) fun _ h₁ e₁ rooted => ?_
  refine .bind (keeps_allocate e₁.wellFormed ?_ fun _ => nofun) fun v h₂ e₂ found => ?_
  · intro v member
    rcases List.mem_pair.1 member with rfl | rfl
    · exact .nil
    · exact rooted.1
  · exact .pure e₂.wellFormed found

end Constructors

end HeapM

/-- What has been allocated is there, whatever the roots are. -/
theorem Heap.object?_of_allocate {h h' : Heap} {v : Value} {o : Object} (t : h.Tidy)
    (done : HeapM.allocate o h = .ok v h') : h'.object? v = some o := by
  rcases HeapM.allocate_cases h o with ⟨_, step⟩ | ⟨_, step⟩
  · have made : h.makeRoom.Tidy := by
      unfold makeRoom
      split
      · exact t.collect
      · exact t
    rcases made.places_insert o with ⟨i, value, p⟩
    cases step.symm.trans done
    rw [value]
    exact p.object?_new
  · cases step.symm.trans done

end Lisplet
