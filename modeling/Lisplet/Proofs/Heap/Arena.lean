import Lisplet.Proofs.Heap.Tidy

/-!
# Arena — the representation invariant of the heap

`Arena h` says how the parts of a heap depend on each other: the count of occupied slots, the
free list, the marks, the references stored in objects, the roots, and the bound on the size
of the arena. `SymbolTable h` says that the table of symbols lists exactly the symbols of the
arena. Together they make a heap `WellFormed`. This module shows that the elementary changes
keep the invariant; which operation makes which changes is the subject of later modules.
-/

namespace Lisplet

namespace Heap

/-! ## The invariant -/

/-- The parts of a heap agree with each other, and no stored handle dangles. -/
structure Arena (h : Heap) : Prop where
  live_eq : h.live = h.occupiedSlots.length
  free_nodup : h.free.Nodup
  mem_free_iff : ∀ i, i ∈ h.free ↔ i < h.slots.size ∧ ¬ h.Occupied i
  marksClear : h.MarksClear
  references_held : ∀ i o, h.object? (.slot i) = some o → ∀ v ∈ o.references, h.Holds v
  roots_held : ∀ v, h.IsRoot v → h.Holds v
  rootEnv_frame : ∃ bindings, h.object? h.rootEnv.value = some (.environment bindings none)
  size_le : h.slots.size ≤ max 2 h.capacity
  capacity_lt : h.capacity < Value.maxSlots

/-- The table of symbols lists each symbol of the arena under its name, and nothing else. -/
structure SymbolTable (h : Heap) : Prop where
  named : ∀ (name : String) v, h.symbols[name]? = some v → h.object? v = some (.symbol name)
  interned : ∀ i (name : String), h.object? (.slot i) = some (.symbol name) →
    h.symbols[name]? = some (.slot i)
  canonical : h.symbols["t"]? = some h.t

structure WellFormed (h : Heap) : Prop extends Arena h, SymbolTable h

section Held

variable {h : Heap} {v : Value} {o : Object}

theorem Arena.tidy (a : h.Arena) : h.Tidy :=
  ⟨a.free_nodup, fun i => (a.mem_free_iff i).1, a.marksClear⟩

theorem Arena.holds_reference (a : h.Arena) (found : h.object? v = some o) {w : Value}
    (member : w ∈ o.references) : h.Holds w := by
  cases v with
  | nil => cases found
  | slot i => exact a.references_held i o found w member

theorem Arena.reachable_of_root {i : Nat} (a : h.Arena) (root : h.IsRoot (.slot i)) :
    h.Reachable i := .start root (holds_slot_iff.1 (a.roots_held _ root))

theorem Arena.reachable_of_reference {i j : Nat} (a : h.Arena) (reached : h.Reachable i)
    (found : h.object? (.slot i) = some o) (member : .slot j ∈ o.references) : h.Reachable j :=
  .reference reached found member (holds_slot_iff.1 (a.references_held i o found _ member))

end Held

/-! ## The first heap -/

section Empty

variable (n : Nat)

theorem object?_empty (i : Nat) :
    (empty n).object? (.slot i) =
      if i = 0 then some (.environment .nil none)
      else if i = 1 then some (.symbol "t")
      else none := by
  match i with
  | 0 => rfl
  | 1 => rfl
  | i + 2 =>
      rw [object?_slot]
      simp [empty]

theorem symbols_empty (name : String) :
    (empty n).symbols[name]? = if name = "t" then some (.slot 1) else none := by
  have step : (empty n).symbols = ({} : Std.HashMap String Value).insert "t" (.slot 1) := rfl
  rw [step, Std.HashMap.getElem?_insert]
  by_cases same : name = "t"
  · simp [same]
  · have different : ¬ "t" = name := fun eq => same eq.symm
    simp [same, different]

/-- While `t` is the only symbol and nothing is pinned, the roots are known but for the stack. -/
theorem IsRoot.cases_of_symbols_empty {h : Heap} {v : Value} (root : h.IsRoot v)
    (symbols : h.symbols = (empty n).symbols) (pins : h.pins = #[]) :
    v = h.rootEnv.value ∨ v = .slot 1 ∨ v ∈ h.roots.values := by
  cases root with
  | environment => exact .inl rfl
  | symbol found =>
      rw [symbols, symbols_empty] at found
      split at found
      · cases found
        exact .inr (.inl rfl)
      · cases found
  | stack member => exact .inr (.inr member)
  | pin found => simp [pins] at found

theorem occupied_empty_iff (i : Nat) : (empty n).Occupied i ↔ i < 2 := by
  unfold Occupied
  rw [object?_empty]
  match i with
  | 0 => simp
  | 1 => simp
  | i + 2 => simp

theorem arena_empty : (empty n).Arena := by
  constructor
  · rfl
  · exact List.nodup_nil
  · intro i
    rw [occupied_empty_iff]
    have size : (empty n).slots.size = 2 := rfl
    constructor
    · intro member
      cases member
    · rintro ⟨below, above⟩
      omega
  · intro slot member
    have listed : slot = ⟨some (.environment .nil none), false⟩ ∨
        slot = ⟨some (.symbol "t"), false⟩ := by
      simpa [empty] using member
    rcases listed with rfl | rfl
    · rfl
    · rfl
  · intro i o found v member
    rw [object?_empty] at found
    match i with
    | 0 =>
        cases found
        rw [List.mem_singleton.1 member]
        exact holds_nil _
    | 1 =>
        cases found
        cases member
    | i + 2 => simp at found
  · intro v root
    rcases root.cases_of_symbols_empty n rfl rfl with rfl | rfl | member
    · exact holds_slot_iff.2 ((occupied_empty_iff n 0).2 (by omega))
    · exact holds_slot_iff.2 ((occupied_empty_iff n 1).2 (by omega))
    · cases member
  · exact ⟨.nil, rfl⟩
  · exact Nat.le_max_left 2 _
  · have clamp : (empty n).capacity = min n (Value.maxSlots - 1) := rfl
    have positive : 0 < Value.maxSlots := by decide
    omega

theorem symbolTable_empty : (empty n).SymbolTable := by
  constructor
  · intro name v found
    rw [symbols_empty] at found
    split at found
    · next same =>
      cases found
      rw [same]
      rfl
    · cases found
  · intro i name found
    rw [object?_empty] at found
    match i with
    | 0 => cases found
    | 1 =>
        cases found
        rw [symbols_empty, if_pos rfl]
    | i + 2 => simp at found
  · rw [symbols_empty, if_pos rfl]
    rfl

theorem wellFormed_empty : (empty n).WellFormed := ⟨arena_empty n, symbolTable_empty n⟩

end Empty

/-! ## Collecting -/

section Collecting

variable {h : Heap}

theorem Arena.occupied_collect_of_root (a : h.Arena) {i : Nat} (root : h.IsRoot (.slot i)) :
    h.collect.1.Occupied i := by
  have reached := a.reachable_of_root root
  exact (occupied_collect_iff a.marksClear i).2 ⟨reached.occupied, reached⟩

theorem Arena.object?_collect_of_root (a : h.Arena) {v : Value} (root : h.IsRoot v) :
    h.collect.1.object? v = h.object? v := by
  cases v with
  | nil => rfl
  | slot i => exact object?_collect_of_reachable a.marksClear (a.reachable_of_root root)

theorem Arena.collect (a : h.Arena) : h.collect.1.Arena := by
  have clear := a.marksClear
  rcases collectsTo_collect clear a.live_eq with
    ⟨occupied_iff, object?_eq, ⟨emptied, _, mem_emptied_iff, _, _, free_eq⟩, _, size_eq,
      clear', unchanged⟩
  -- The emptied slots come in front of those that were free before.
  have free : h.collect.1.free = emptied.reverse ++ h.free := by
    have := congrArg List.reverse free_eq
    simpa using this
  constructor
  · exact live_collect clear a.live_eq
  · exact a.tidy.collect.free_nodup
  · intro i
    rw [free, List.mem_append, List.mem_reverse, mem_emptied_iff, a.mem_free_iff, size_eq]
    constructor
    · rintro (⟨before, after⟩ | ⟨inside, before⟩)
      · exact ⟨lt_size_of_occupied before, after⟩
      · exact ⟨inside, fun after => before ((occupied_iff i).1 after).1⟩
    · rintro ⟨inside, after⟩
      by_cases before : h.Occupied i
      · exact .inl ⟨before, after⟩
      · exact .inr ⟨inside, before⟩
  · exact clear'
  · intro i o found v member
    -- A kept object refers to slots that are reached with it, and so kept.
    have kept := occupied_of_object? found
    have reached := ((occupied_iff i).1 kept).2
    have foundBefore : h.object? (.slot i) = some o := (object?_eq i kept).symm.trans found
    cases v with
    | nil => exact holds_nil _
    | slot j =>
        have reachedJ := a.reachable_of_reference reached foundBefore member
        exact holds_slot_iff.2 ((occupied_iff j).2 ⟨reachedJ.occupied, reachedJ⟩)
  · intro v root
    have rootBefore : h.IsRoot v := IsRoot.transfer (h := h.collect.1) rfl rfl rfl rfl root
    cases v with
    | nil => exact holds_nil _
    | slot i => exact holds_slot_iff.2 (a.occupied_collect_of_root rootBefore)
  · rcases a.rootEnv_frame with ⟨bindings, found⟩
    refine ⟨bindings, ?_⟩
    have root : h.IsRoot h.rootEnv.value := .environment
    exact (a.object?_collect_of_root root).trans found
  · rw [size_eq]
    exact a.size_le
  · exact a.capacity_lt

/-- A symbol is in the table, so it is reached, and it stays in its slot. -/
theorem SymbolTable.collect (s : h.SymbolTable) (clear : h.MarksClear) :
    h.collect.1.SymbolTable := by
  constructor
  · intro name v found
    have before : h.symbols[name]? = some v := found
    have isSymbol := s.named name v before
    cases v with
    | nil => cases isSymbol
    | slot i =>
        have reached : h.Reachable i := .start (.symbol before) (occupied_of_object? isSymbol)
        rw [object?_collect_of_reachable clear reached, isSymbol]
  · intro i name found
    have kept := occupied_of_object? found
    have reached := ((occupied_collect_iff clear i).1 kept).2
    rw [object?_collect_of_reachable clear reached] at found
    exact s.interned i name found
  · exact s.canonical

theorem WellFormed.collect (w : h.WellFormed) : h.collect.1.WellFormed :=
  ⟨w.toArena.collect, w.toSymbolTable.collect w.marksClear⟩

end Collecting

/-! ## Filling a slot -/

section Placing

variable {h h' : Heap} {i j : Nat} {o : Object} {v : Value}

theorem Arena.places_insert (a : h.Arena) (o : Object) :
    ∃ i, (h.insert o).1 = .slot i ∧ h.Places i o (h.insert o).2 := a.tidy.places_insert o

theorem occupiedSlots_nodup (h : Heap) : h.occupiedSlots.Nodup := List.nodup_range.filter _

/-- A slot that is filled adds one to the occupied slots. -/
theorem Places.length_occupiedSlots (p : Places h i o h') :
    h'.occupiedSlots.length = h.occupiedSlots.length + 1 := by
  have fresh : i ∉ h.occupiedSlots := fun member => p.fresh (mem_occupiedSlots_iff.1 member)
  have perm : h'.occupiedSlots.Perm (i :: h.occupiedSlots) := by
    refine (List.perm_ext_iff_of_nodup (occupiedSlots_nodup h') ?_).2 fun j => ?_
    · exact List.nodup_cons.2 ⟨fresh, occupiedSlots_nodup h⟩
    · rw [List.mem_cons, mem_occupiedSlots_iff, mem_occupiedSlots_iff]
      exact p.occupied_iff
  exact perm.length_eq

/-- With no free slot, every slot is occupied. -/
theorem Arena.size_eq_live (a : h.Arena) (none : h.free = []) : h.slots.size = h.live := by
  have all : h.occupiedSlots = List.range h.slots.size := by
    refine List.filter_eq_self.2 fun i inside => ?_
    have listed := a.mem_free_iff i
    rw [none] at listed
    by_contra empty
    have := listed.2 ⟨List.mem_range.1 inside, empty⟩
    cases this
  rw [a.live_eq, all, List.length_range]

/-- The free list loses the slot that is filled, if it came from there. -/
theorem Arena.mem_free_insert_iff (a : h.Arena) (o : Object) (j : Nat) :
    j ∈ (h.insert o).2.free ↔ j < (h.insert o).2.slots.size ∧ ¬ (h.insert o).2.Occupied j := by
  rcases a.places_insert o with ⟨i, value, p⟩
  rcases insert_eq h o with ⟨k, slots, free, step, origin⟩
  have before := a.mem_free_iff j
  rw [p.occupied_iff]
  rw [step] at value ⊢
  cases value
  -- Either the head of the free list is used, or a slot is added behind a full arena.
  rcases origin with ⟨next, rfl⟩ | ⟨empty, rfl, rfl, rfl⟩
  · have nodup := a.free_nodup
    rw [next] at nodup before
    have different : j ∈ free → j ≠ i := fun member same =>
      (List.nodup_cons.1 nodup).1 (same ▸ member)
    simp only [Array.size_setIfInBounds]
    rw [List.mem_cons] at before
    constructor
    · intro member
      rcases before.1 (.inr member) with ⟨inside, unoccupied⟩
      exact ⟨inside, fun either => either.elim (different member) unoccupied⟩
    · rintro ⟨inside, unoccupied⟩
      rcases before.2 ⟨inside, fun occupied => unoccupied (.inr occupied)⟩ with same | member
      · exact absurd (.inl same) unoccupied
      · exact member
  · rw [empty] at before
    simp only [Array.size_push]
    constructor
    · intro member
      cases member
    · rintro ⟨inside, unoccupied⟩
      have old : j < h.slots.size :=
        Nat.lt_of_le_of_ne (Nat.le_of_lt_succ inside) fun same => unoccupied (.inl same)
      exact before.2 ⟨old, fun occupied => unoccupied (.inr occupied)⟩

/-- Only a full arena grows, and only if there is room for one more object. -/
theorem Arena.size_insert_le (a : h.Arena) (room : h.live < h.capacity) (o : Object) :
    (h.insert o).2.slots.size ≤ max 2 h.capacity := by
  have bound := a.size_le
  rcases insert_eq h o with ⟨i, slots, free, step, ⟨_, rfl⟩ | ⟨empty, _, _, rfl⟩⟩
  · simpa [step] using bound
  · have full := a.size_eq_live empty
    simp only [step, Array.size_push]
    omega

theorem Arena.insert (a : h.Arena) (room : h.live < h.capacity)
    (held : ∀ v ∈ o.references, h.Holds v) : (h.insert o).2.Arena := by
  rcases a.places_insert o with ⟨i, _, p⟩
  have counted : (h.insert o).2.live = h.live + 1 := by
    rcases insert_eq h o with ⟨k, slots, free, step, _⟩
    rw [step]
  have capacity : (h.insert o).2.capacity = h.capacity := by rw [p.unchanged]
  constructor
  · rw [counted, p.length_occupiedSlots, a.live_eq]
  · exact (a.tidy.insert o).free_nodup
  · exact a.mem_free_insert_iff o
  · exact (a.tidy.insert o).marksClear
  · intro j o' found v member
    refine p.holds ?_
    rw [p.object?_eq] at found
    split at found
    · cases found
      exact held v member
    · exact a.references_held j o' found v member
  · intro v root
    exact p.holds (a.roots_held v (p.isRoot_iff.1 root))
  · rcases a.rootEnv_frame with ⟨bindings, found⟩
    refine ⟨bindings, ?_⟩
    have same : (h.insert o).2.rootEnv = h.rootEnv := by rw [p.unchanged]
    rw [same, p.object?_eq, if_neg, found]
    intro atFresh
    rw [atFresh] at found
    exact p.fresh (occupied_of_object? found)
  · rw [capacity]
    exact a.size_insert_le room o
  · rw [capacity]
    exact a.capacity_lt

/-- A new object that is no symbol does not concern the table. -/
theorem SymbolTable.insert (s : h.SymbolTable) (t : h.Tidy) (other : ∀ name, o ≠ .symbol name) :
    (h.insert o).2.SymbolTable := by
  rcases t.places_insert o with ⟨i, _, p⟩
  have symbols : (h.insert o).2.symbols = h.symbols := by rw [p.unchanged]
  constructor
  · intro name v found
    rw [symbols] at found
    have before := s.named name v found
    cases v with
    | nil => cases before
    | slot j => rw [p.object?_old (occupied_of_object? before), before]
  · intro j name found
    rw [symbols]
    rw [p.object?_eq] at found
    split at found
    · exact absurd (Option.some.inj found) (other name)
    · exact s.interned j name found
  · have canonical : (h.insert o).2.t = h.t := by rw [p.unchanged]
    rw [symbols, canonical]
    exact s.canonical

theorem WellFormed.insert (w : h.WellFormed) (room : h.live < h.capacity)
    (held : ∀ v ∈ o.references, h.Holds v) (other : ∀ name, o ≠ .symbol name) :
    (h.insert o).2.WellFormed :=
  ⟨w.toArena.insert room held, w.toSymbolTable.insert w.tidy other⟩

theorem getElem?_symbols_insert (symbols : Std.HashMap String Value) (name other : String)
    (v : Value) :
    (symbols.insert name v)[other]? = if name = other then some v else symbols[other]? := by
  rw [Std.HashMap.getElem?_insert]
  by_cases same : name = other
  · simp [same]
  · simp [same]

/-- A held value may be entered in the table of symbols. -/
theorem Arena.enter (a : h.Arena) (name : String) (held : h.Holds v) :
    { h with symbols := h.symbols.insert name v }.Arena := by
  refine ⟨a.live_eq, a.free_nodup, a.mem_free_iff, a.marksClear, a.references_held, ?_,
    a.rootEnv_frame, a.size_le, a.capacity_lt⟩
  intro u root
  cases root with
  | environment => exact a.roots_held _ .environment
  | @symbol other u found =>
      have found : (h.symbols.insert name v)[other]? = some u := found
      rw [getElem?_symbols_insert] at found
      split at found
      · cases found
        exact held
      · exact a.roots_held u (.symbol found)
  | stack member => exact a.roots_held u (.stack member)
  | pin found => exact a.roots_held u (.pin found)

/-- A new symbol goes into the arena and into the table at once. -/
theorem SymbolTable.insertSymbol (s : h.SymbolTable) (t : h.Tidy) {name : String}
    (absent : h.symbols[name]? = none) :
    { (h.insert (.symbol name)).2 with
      symbols := (h.insert (.symbol name)).2.symbols.insert name
        (h.insert (.symbol name)).1 }.SymbolTable := by
  rcases t.places_insert (.symbol name) with ⟨i, value, p⟩
  have symbols : (h.insert (.symbol name)).2.symbols = h.symbols := by rw [p.unchanged]
  have canonical : (h.insert (.symbol name)).2.t = h.t := by rw [p.unchanged]
  have listed_ne : ∀ {other : String} {v : Value}, h.symbols[other]? = some v → name ≠ other := by
    rintro other v listed rfl
    rw [absent] at listed
    cases listed
  rw [value]
  refine ⟨fun other v found => ?_, fun j other found => ?_, ?_⟩
  · have found : ((h.insert (.symbol name)).2.symbols.insert name (.slot i))[other]? =
      some v := found
    show (h.insert (.symbol name)).2.object? v = _
    rw [symbols, getElem?_symbols_insert] at found
    split at found
    · next same =>
      cases found
      rw [p.object?_new, same]
    · have before := s.named other v found
      cases v with
      | nil => cases before
      | slot j => rw [p.object?_old (occupied_of_object? before), before]
  · have found : (h.insert (.symbol name)).2.object? (.slot j) = some (.symbol other) := found
    show ((h.insert (.symbol name)).2.symbols.insert name (.slot i))[other]? = _
    rw [symbols, getElem?_symbols_insert]
    rw [p.object?_eq] at found
    split at found
    · next same =>
      cases found
      rw [if_pos rfl, same]
    · -- Any other symbol was in the table before, and so has another name.
      have before := s.interned j other found
      rw [if_neg (listed_ne before)]
      exact before
  · show ((h.insert (.symbol name)).2.symbols.insert name (.slot i))["t"]? =
      some (h.insert (.symbol name)).2.t
    rw [symbols, getElem?_symbols_insert, canonical, if_neg (listed_ne s.canonical)]
    exact s.canonical

theorem WellFormed.insertSymbol (w : h.WellFormed) (room : h.live < h.capacity) {name : String}
    (absent : h.symbols[name]? = none) :
    { (h.insert (.symbol name)).2 with
      symbols := (h.insert (.symbol name)).2.symbols.insert name
        (h.insert (.symbol name)).1 }.WellFormed := by
  rcases w.places_insert (.symbol name) with ⟨i, value, p⟩
  have a := w.toArena.insert (o := .symbol name) room (fun v member => nomatch member)
  exact ⟨a.enter name (value ▸ p.holds_new), w.toSymbolTable.insertSymbol w.tidy absent⟩

end Placing

/-! ## Replacing an object -/

/-- What a change in place may do to an object. -/
inductive Updates : Object → Object → Prop where
  | pair (car cdr car' cdr' : Value) : Updates (.pair car cdr) (.pair car' cdr')
  | environment (bindings bindings' : Value) (parent : Option Env) :
      Updates (.environment bindings parent) (.environment bindings' parent)

section Replacing

variable {h : Heap} {i : Nat} {o old : Object} {v : Value}

theorem holds_put_iff (occupied : h.Occupied i) : (h.put i o).Holds v ↔ h.Holds v := by
  cases v with
  | nil => exact ⟨fun _ => holds_nil _, fun _ => holds_nil _⟩
  | slot j => rw [holds_slot_iff, holds_slot_iff, occupied_put_iff occupied]

theorem isRoot_put_iff : (h.put i o).IsRoot v ↔ h.IsRoot v :=
  ⟨IsRoot.transfer rfl rfl rfl rfl, IsRoot.transfer rfl rfl rfl rfl⟩

theorem occupiedSlots_put (occupied : h.Occupied i) (o : Object) :
    (h.put i o).occupiedSlots = h.occupiedSlots := by
  have size : (h.put i o).slots.size = h.slots.size := Array.size_modify
  unfold occupiedSlots
  rw [size]
  refine List.filter_congr fun j _ => ?_
  have same := occupied_put_iff (o := o) occupied j
  unfold Occupied at same
  exact Bool.eq_iff_iff.2 same

theorem Arena.put (a : h.Arena) (found : h.object? (.slot i) = some old) (update : Updates old o)
    (held : ∀ v ∈ o.references, h.Holds v) : (h.put i o).Arena := by
  have occupied := occupied_of_object? found
  have size : (h.put i o).slots.size = h.slots.size := Array.size_modify
  constructor
  · rw [occupiedSlots_put occupied]
    exact a.live_eq
  · exact a.free_nodup
  · intro j
    rw [occupied_put_iff occupied, size]
    exact a.mem_free_iff j
  · exact (a.tidy.put o occupied).marksClear
  · intro j o' foundJ v member
    rw [holds_put_iff occupied]
    rw [object?_put_of_occupied occupied] at foundJ
    split at foundJ
    · cases foundJ
      exact held v member
    · exact a.references_held j o' foundJ v member
  · intro v root
    exact (holds_put_iff occupied).2 (a.roots_held v (isRoot_put_iff.1 root))
  · rcases a.rootEnv_frame with ⟨bindings, foundRoot⟩
    -- An environment may be replaced by one with the same parent only.
    by_cases same : h.rootEnv.value = .slot i
    · rw [same, found] at foundRoot
      cases foundRoot
      cases update with
      | environment _ bindings' _ =>
          refine ⟨bindings', ?_⟩
          show (h.put i _).object? h.rootEnv.value = _
          rw [same, object?_put_self occupied]
    · exact ⟨bindings, (object?_put_ne same).trans foundRoot⟩
  · rw [size]
    exact a.size_le
  · exact a.capacity_lt

/-- No change in place makes or replaces a symbol. -/
theorem SymbolTable.put (s : h.SymbolTable) (found : h.object? (.slot i) = some old)
    (update : Updates old o) : (h.put i o).SymbolTable := by
  have occupied := occupied_of_object? found
  constructor
  · intro name v listed
    have before := s.named name v listed
    by_cases same : v = .slot i
    · subst same
      rw [found] at before
      cases before
      cases update
    · exact (object?_put_ne same).trans before
  · intro j name foundJ
    rw [object?_put_of_occupied occupied] at foundJ
    split at foundJ
    · cases foundJ
      cases update
    · exact s.interned j name foundJ
  · exact s.canonical

theorem WellFormed.put (w : h.WellFormed) (found : h.object? (.slot i) = some old)
    (update : Updates old o) (held : ∀ v ∈ o.references, h.Holds v) : (h.put i o).WellFormed :=
  ⟨w.toArena.put found update held, w.toSymbolTable.put found update⟩

theorem WellFormed.setCar (w : h.WellFormed) (p : Value) (held : h.Holds v) :
    (h.setCar p v).WellFormed := by
  unfold Heap.setCar
  split
  · next i car cdr found =>
    refine w.put found (.pair car cdr v cdr) fun u member => ?_
    rcases List.mem_pair.1 member with rfl | rfl
    · exact held
    · exact w.holds_reference found (by simp [Object.references])
  · exact w

theorem WellFormed.setCdr (w : h.WellFormed) (p : Value) (held : h.Holds v) :
    (h.setCdr p v).WellFormed := by
  rcases setCdr_cases h p v with ⟨i, car, cdr, _, found, step⟩ | ⟨_, step⟩
  · rw [step]
    refine w.put found (.pair car cdr car v) fun u member => ?_
    rcases List.mem_pair.1 member with rfl | rfl
    · exact w.holds_reference found (by simp [Object.references])
    · exact held
  · rw [step]
    exact w

theorem WellFormed.setBindings (w : h.WellFormed) (env : Env) (held : h.Holds v) :
    (h.setBindings env v).WellFormed := by
  rcases setBindings_cases h env v with ⟨i, bindings, parent, _, found, step⟩ | ⟨_, step⟩
  · rw [step]
    refine w.put found (.environment bindings v parent) fun u member => ?_
    cases parent with
    | none =>
        rw [List.mem_singleton.1 member]
        exact held
    | some parent =>
        rcases List.mem_pair.1 member with rfl | rfl
        · exact held
        · exact w.holds_reference found (by simp [Object.references])
  · rw [step]
    exact w

end Replacing

/-! ## Changing the roots -/

section Rooting

variable {h : Heap} {v : Value}

/-- The root stack and the pins may be exchanged for others that hold no dangling handle. -/
theorem WellFormed.reroot (w : h.WellFormed) {roots : RootStack} {pins : Array (Option Value)}
    {freePins : List Nat} (stacked : ∀ v ∈ roots.values, h.Holds v)
    (pinned : ∀ (key : Nat) v, pins[key]? = some (some v) → h.Holds v) :
    { h with roots, pins, freePins }.WellFormed := by
  refine ⟨⟨w.live_eq, w.free_nodup, w.mem_free_iff, w.marksClear, w.references_held, ?_,
    w.rootEnv_frame, w.size_le, w.capacity_lt⟩, ⟨w.named, w.interned, w.canonical⟩⟩
  intro v root
  cases root with
  | environment => exact w.roots_held _ .environment
  | symbol found => exact w.roots_held _ (.symbol found)
  | stack member => exact stacked v member
  | pin found => exact pinned _ v found

theorem Arena.stack_held (a : h.Arena) : ∀ v ∈ h.roots.values, h.Holds v :=
  fun v member => a.roots_held v (.stack member)

theorem Arena.pins_held (a : h.Arena) :
    ∀ (key : Nat) v, h.pins[key]? = some (some v) → h.Holds v :=
  fun _ v found => a.roots_held v (.pin found)

theorem WellFormed.addRoot (w : h.WellFormed) (held : h.Holds v) : (h.addRoot v).WellFormed := by
  unfold Heap.addRoot
  split
  · exact w
  · refine w.reroot (fun u member => ?_) w.pins_held
    rcases List.mem_cons.1 member with rfl | member
    · exact held
    · exact w.stack_held u member

theorem WellFormed.truncateRoots (w : h.WellFormed) (height : Nat) :
    (h.truncateRoots height).WellFormed :=
  w.reroot (fun u member => w.stack_held u (List.mem_of_mem_drop member)) w.pins_held

/-- What a pin table holds after one entry has been overwritten. -/
theorem pins_held_setIfInBounds (w : h.WellFormed) {entry : Option Value} (k : Nat)
    (held : ∀ v, entry = some v → h.Holds v) :
    ∀ (key : Nat) v, (h.pins.setIfInBounds k entry)[key]? = some (some v) → h.Holds v := by
  intro key v found
  rw [Array.getElem?_setIfInBounds] at found
  split at found
  · split at found
    · exact held v (Option.some.inj found)
    · cases found
  · exact w.pins_held key v found

theorem WellFormed.pin (w : h.WellFormed) (held : h.Holds v) : (h.pin v).2.WellFormed := by
  unfold Heap.pin
  split
  · refine w.reroot w.stack_held (pins_held_setIfInBounds w _ ?_)
    rintro u ⟨⟩
    exact held
  · refine w.reroot w.stack_held fun key u found => ?_
    rw [Array.getElem?_push] at found
    split at found
    · cases found
      exact held
    · exact w.pins_held key u found

theorem WellFormed.repin (w : h.WellFormed) (p : Pin) (held : h.Holds v) :
    (h.repin p v).WellFormed := by
  refine w.reroot w.stack_held (pins_held_setIfInBounds w _ ?_)
  rintro u ⟨⟩
  exact held

theorem WellFormed.unpin (w : h.WellFormed) (p : Pin) : (h.unpin p).WellFormed := by
  unfold Heap.unpin
  split
  · exact w.reroot w.stack_held (pins_held_setIfInBounds w _ fun u none => nomatch none)
  · exact w

/-- A notice in the journal changes no part that another one depends on. -/
theorem WellFormed.note (w : h.WellFormed) (notice : Notice) : (h.note notice).WellFormed :=
  ⟨⟨w.live_eq, w.free_nodup, w.mem_free_iff, w.marksClear, w.references_held,
    fun v root => w.roots_held v (IsRoot.transfer (h := h.note notice) rfl rfl rfl rfl root),
    w.rootEnv_frame, w.size_le, w.capacity_lt⟩, ⟨w.named, w.interned, w.canonical⟩⟩

end Rooting

end Heap

end Lisplet
