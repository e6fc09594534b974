import Lisplet.Proofs.Machine.Tracks

/-!
# Symbols — one handle for each name

Evaluation compares handles where a program has names. That works because the table of symbols and
the symbols in the arena are the same thing seen from two sides: every entry names the one live
symbol of its name. The table refers to slots which are emptied and used again, by collections that
may start in the middle of interning; but whatever is in the table is a root, so no collection
empties its slot. `names_are_handles` says this for all that may happen to a heap from its beginning
on.
-/

namespace Lisplet

open Heap.Operation (heapAfter)

namespace Heap

/-! ## What may happen to a heap -/

/--
What may happen to a heap from one moment to the next, with handles of any kind. Objects that are no
symbols may be allocated by themselves; a symbol comes into being when its name is interned.
-/
inductive Occurs : Heap → Heap → Prop where
  | operation (h : Heap) (op : Operation) : Occurs h (op.run h)
  | allocate (h : Heap) {o : Object} : (∀ name, o ≠ .symbol name) →
      Occurs h (heapAfter (HeapM.allocate o) h)
  | service (h : Heap) (service : Service) : Occurs h (service.run h)
  | build (h : Heap) (setup : Setup) : Occurs h (Bench.build setup h).heap
  | assemble (h : Heap) (setup : Setup) (program : Value) :
      Occurs h (heapAfter (Bench.assemble setup program) h)
  | request (h : Heap) (tenant : Tenant) (request : Request) : Occurs h (tenant.ask request h).2
  | release (h : Heap) (m : Machine) : Occurs h (Bench.release ⟨m, h⟩)

section Occurring

variable {h h' : Heap}

theorem Occurs.leads (occurs : h.Occurs h') : h.Leads h' := by
  cases occurs with
  | operation op => exact op.leads_run h
  | allocate other => exact .allocate h other
  | service service => exact service.leads_run h
  | build setup => exact (Bench.repinned_build setup h).leads
  | assemble setup program => exact (Bench.repinned_assemble setup program h).leads
  | request tenant request => exact tenant.leads_ask request h
  | release m => exact (Bench.repinned_release ⟨m, h⟩).leads

theorem leads_of_occurs (occurs : Relation.ReflTransGen Occurs h h') : h.Leads h' := by
  induction occurs with
  | refl => exact composes_leads.refl h
  | tail _ step ih => exact composes_leads.trans ih step.leads

/-! ## The table of symbols -/

/-- The table lists the symbols of the arena, and the free list names empty slots only. -/
structure Named (h : Heap) : Prop where
  tidy : h.Tidy
  table : h.SymbolTable

theorem named_empty (n : Nat) : (empty n).Named := ⟨(arena_empty n).tidy, symbolTable_empty n⟩

theorem Named.collect (n : h.Named) : h.collect.1.Named :=
  ⟨n.tidy.collect, n.table.collect n.tidy.marksClear⟩

theorem Named.change (n : h.Named) (c : h.Change h') : h'.Named := by
  refine ⟨c.tidy n.tidy, ?_⟩
  cases c with
  | insert other => exact n.table.insert n.tidy other
  | intern absent => exact n.table.insertSymbol n.tidy absent
  | update found update => exact n.table.put found update
  | reroot => exact ⟨n.table.named, n.table.interned, n.table.canonical⟩

theorem Named.leads (n : h.Named) (leads : h.Leads h') : h'.Named :=
  leads.preserves Named.change Named.collect n

/-- An entry of the table is never given up and never changed. -/
theorem Leads.getElem?_symbols (leads : h.Leads h') {name : String} {v : Value}
    (listed : h.symbols[name]? = some v) : h'.symbols[name]? = some v := by
  refine @Leads.preserves h h' (fun h => h.symbols[name]? = some v) leads ?_ id listed
  intro h h' listed c
  cases c with
  | insert _ => rwa [symbols_insert]
  | @intern other absent =>
      -- Only a name that was not listed gets an entry.
      show ((h.insert (.symbol other)).2.symbols.insert other _)[name]? = some v
      rw [symbols_insert, getElem?_symbols_insert, if_neg]
      · exact listed
      · rintro rfl
        cases absent.symm.trans listed
  | update _ _ => exact listed
  | reroot => exact listed

theorem isSymbol_iff {v : Value} :
    h.isSymbol v = true ↔ ∃ name, h.object? v = some (.symbol name) := by
  unfold isSymbol
  cases v with
  | nil => simp [kind]
  | slot i =>
      unfold kind
      cases h.object? (.slot i) with
      | none => simp
      | some o => cases o <;> simp [Object.kind]

namespace SymbolTable

theorem listed_iff (s : h.SymbolTable) (name : String) (v : Value) :
    h.symbols[name]? = some v ↔ h.object? v = some (.symbol name) := by
  refine ⟨s.named name v, fun found => ?_⟩
  cases v with
  | nil => cases found
  | slot i => exact s.interned i name found

/-- Two symbols are the same value exactly when they have the same name. -/
theorem eq_iff_name_eq (s : h.SymbolTable) {u v : Value} {a b : String}
    (first : h.object? u = some (.symbol a)) (second : h.object? v = some (.symbol b)) :
    u = v ↔ a = b := by
  constructor
  · rintro rfl
    cases first.symm.trans second
    rfl
  · rintro rfl
    have listed := (s.listed_iff a u).2 first
    have listed' := (s.listed_iff a v).2 second
    exact Option.some.inj (listed.symm.trans listed')

/-- The entries of the table are as many as the symbols of the arena. -/
theorem size_eq (s : h.SymbolTable) :
    h.symbols.size = (h.occupiedSlots.filter fun i => h.isSymbol (.slot i)).length := by
  have entries (entry : String × Value) :
      entry ∈ h.symbols.toList ↔ h.object? entry.2 = some (.symbol entry.1) := by
    rw [← s.listed_iff]
    exact Std.HashMap.mem_toList_iff_getElem?_eq_some
  have names : (h.symbols.toList.map Prod.fst).Nodup := by
    rw [Std.HashMap.map_fst_toList_eq_keys]
    exact Std.HashMap.nodup_keys
  -- Entries with the same value have the same name, so the values are all different.
  have values : (h.symbols.toList.map Prod.snd).Nodup := by
    refine (List.Nodup.of_map Prod.fst names).map_on ?_
    rintro ⟨a, u⟩ first ⟨b, v⟩ second same
    have same : u = v := same
    subst same
    have named : h.object? u = some (.symbol a) := (entries (a, u)).1 first
    have named' : h.object? u = some (.symbol b) := (entries (b, u)).1 second
    cases named.symm.trans named'
    rfl
  have slots : ((h.occupiedSlots.filter fun i => h.isSymbol (.slot i)).map Value.slot).Nodup :=
    ((occupiedSlots_nodup h).filter _).map fun _ _ same => Value.slot.inj same
  have perm : (h.symbols.toList.map Prod.snd).Perm
      ((h.occupiedSlots.filter fun i => h.isSymbol (.slot i)).map Value.slot) := by
    refine (List.perm_ext_iff_of_nodup values slots).2 fun v => ?_
    simp only [List.mem_map, List.mem_filter, mem_occupiedSlots_iff, isSymbol_iff]
    constructor
    · rintro ⟨⟨name, v⟩, member, rfl⟩
      have found := (entries _).1 member
      cases v with
      | nil => cases found
      | slot i => exact ⟨i, ⟨occupied_of_object? found, name, found⟩, rfl⟩
    · rintro ⟨i, ⟨_, name, found⟩, rfl⟩
      exact ⟨(name, .slot i), (entries _).2 found, rfl⟩
  calc
    h.symbols.size = (h.symbols.toList.map Prod.snd).length := by
      rw [List.length_map, Std.HashMap.length_toList]
    _ = (h.occupiedSlots.filter fun i => h.isSymbol (.slot i)).length := by
      rw [perm.length_eq, List.length_map]

end SymbolTable

/-- A name that is listed is looked up, whatever the state of the heap. -/
theorem intern_of_listed {name : String} {v : Value} (listed : h.symbols[name]? = some v) :
    HeapM.intern name h = .ok v h := by
  rcases HeapM.intern_cases h name with ⟨_, found, step⟩ | ⟨absent, -⟩
  · cases listed.symm.trans found
    exact step
  · cases absent.symm.trans listed

/-- A symbol that has been interned is listed. -/
theorem symbols_of_intern {name : String} {v : Value} {h' : Heap}
    (interned : HeapM.intern name h = .ok v h') : h'.symbols[name]? = some v := by
  rcases HeapM.intern_cases h name with ⟨v, found, step⟩ | ⟨absent, ⟨_, step⟩ | ⟨_, step⟩⟩
  · rw [step] at interned
    cases interned
    exact found
  · rw [step] at interned
    cases interned
    exact Std.HashMap.getElem?_insert_self
  · rw [step] at interned
    cases interned

/-- Where interning fails, the table is as it was. -/
theorem symbols_of_intern_error {name : String} {e : Fatal} {h' : Heap}
    (failed : HeapM.intern name h = .error e h') : h'.symbols = h.symbols := by
  rcases HeapM.intern_cases h name with ⟨v, found, step⟩ | ⟨absent, ⟨_, step⟩ | ⟨_, step⟩⟩
  · rw [step] at failed
    cases failed
  · rw [step] at failed
    cases failed
  · rw [step] at failed
    cases failed
    exact symbols_makeRoom h

/-! ## Names and handles -/

/--
Symbol identity is name equality, for ever. Whatever happens to a new heap, its table of symbols and
the live symbols are each other's inverse: an entry names a live symbol of just that name, and each
live symbol has its entry. So two live symbols are the same exactly when their names are, and the
table counts the live symbols. What interning a name gives stays live under that name, and is what
interning it gives ever after; interning that fails leaves the table alone.
-/
theorem names_are_handles {n : Nat} (occurs : Relation.ReflTransGen Occurs (empty n) h) :
    (∀ (name : String) v, h.symbols[name]? = some v ↔ h.object? v = some (.symbol name)) ∧
      (∀ u v a b, h.object? u = some (.symbol a) → h.object? v = some (.symbol b) →
        (u = v ↔ a = b)) ∧
      h.symbols.size = (h.occupiedSlots.filter fun i => h.isSymbol (.slot i)).length ∧
      (∀ name v h', HeapM.intern name h = .ok v h' → ∀ h'', Relation.ReflTransGen Occurs h' h'' →
        h''.object? v = some (.symbol name) ∧ HeapM.intern name h'' = .ok v h'') ∧
      ∀ name e h', HeapM.intern name h = .error e h' → h'.symbols = h.symbols := by
  have named := (named_empty n).leads (leads_of_occurs occurs)
  refine ⟨named.table.listed_iff, fun u v a b => named.table.eq_iff_name_eq, named.table.size_eq,
    fun name v h' interned h'' later => ?_, fun name e h' => symbols_of_intern_error⟩
  have step : h.Occurs (heapAfter (HeapM.intern name) h) := .operation h (.intern name)
  unfold heapAfter at step
  rw [interned] at step
  -- The entry stays in the table, and what is in the table is a live symbol.
  have onwards := leads_of_occurs later
  have listed : h''.symbols[name]? = some v :=
    onwards.getElem?_symbols (symbols_of_intern interned)
  have there := (named.leads step.leads).leads onwards
  exact ⟨there.table.named name v listed, intern_of_listed listed⟩

end Occurring

/-- A heap in which the symbol `a` has taken the last slot there is. -/
def brimful : Heap :=
  { ((empty 3).insert (.symbol "a")).2 with
    symbols := ((empty 3).insert (.symbol "a")).2.symbols.insert "a" (.slot 2) }

theorem symbols_brimful (name : String) :
    brimful.symbols[name]? = if "a" = name then some (.slot 2) else (empty 3).symbols[name]? :=
  getElem?_symbols_insert _ _ _ _

theorem intern_empty : HeapM.intern "a" (empty 3) = .ok (.slot 2) brimful := by
  have room : (empty 3).makeRoom = empty 3 := if_neg (by decide)
  rcases HeapM.intern_cases (empty 3) "a" with ⟨_, found, _⟩ | ⟨_, ⟨_, step⟩ | ⟨full, _⟩⟩
  · rw [symbols_empty, if_neg (by decide)] at found
    cases found
  · rw [step, room]
    rfl
  · rw [room] at full
    exact absurd full (by decide)

/-- Everything is reachable, so a collection empties no slot for another symbol. -/
theorem intern_brimful : ∃ e h', HeapM.intern "b" brimful = .error e h' := by
  have clear : brimful.MarksClear := by decide
  have kept : ∀ i < 3, brimful.Reachable i := by
    intro i inside
    have occupied : brimful.Occupied i := by
      revert i
      decide
    match i with
    | 0 => exact .start .environment occupied
    | 1 =>
        exact .start (@IsRoot.symbol _ "t" _ (by rw [symbols_brimful, symbols_empty]; rfl)) occupied
    | 2 => exact .start (@IsRoot.symbol _ "a" _ (by rw [symbols_brimful, if_pos rfl])) occupied
  have collects : brimful.makeRoom = brimful.collect.1 := if_pos (by decide)
  have live : brimful.makeRoom.live = 3 := by
    have all : brimful.collect.1.occupiedSlots = brimful.occupiedSlots := by
      unfold occupiedSlots
      rw [size_collect clear]
      refine List.filter_congr fun i member => ?_
      have inside : i < 3 := List.mem_range.1 member
      rw [object?_collect_of_reachable clear (kept i inside)]
    rw [collects, live_collect clear (by decide), all]
    decide
  rcases HeapM.intern_cases brimful "b" with ⟨_, found, _⟩ | ⟨_, ⟨room, _⟩ | ⟨_, step⟩⟩
  · rw [symbols_brimful, if_neg (by decide), symbols_empty, if_neg (by decide)] at found
    cases found
  · rw [live] at room
    exact absurd room (by decide)
  · exact ⟨_, _, step⟩

theorem names_are_handles_brimful :
    Relation.ReflTransGen Occurs (empty 3) brimful ∧
      HeapM.intern "a" brimful = .ok (.slot 2) brimful ∧
      (∃ e h', HeapM.intern "b" brimful = .error e h') ∧
      (∀ (name : String) v,
        brimful.symbols[name]? = some v ↔ brimful.object? v = some (.symbol name)) ∧
      (∀ u v a b, brimful.object? u = some (.symbol a) → brimful.object? v = some (.symbol b) →
        (u = v ↔ a = b)) ∧
      brimful.symbols.size =
        (brimful.occupiedSlots.filter fun i => brimful.isSymbol (.slot i)).length ∧
      (∀ name v h', HeapM.intern name brimful = .ok v h' →
        ∀ h'', Relation.ReflTransGen Occurs h' h'' →
          h''.object? v = some (.symbol name) ∧ HeapM.intern name h'' = .ok v h'') ∧
      ∀ name e h', HeapM.intern name brimful = .error e h' → h'.symbols = brimful.symbols := by
  have step : (empty 3).Occurs (heapAfter (HeapM.intern "a") (empty 3)) :=
    .operation (empty 3) (.intern "a")
  unfold heapAfter at step
  rw [intern_empty] at step
  have listed : brimful.symbols["a"]? = some (.slot 2) := by rw [symbols_brimful, if_pos rfl]
  exact ⟨.single step, intern_of_listed listed, intern_brimful, names_are_handles (.single step)⟩

end Heap

end Lisplet
