import Lisplet.Proofs.Conduct

/-!
# Balance — what no operation touches

Whatever heap it starts from and whatever it ends with, an operation of the language leaves the
pins to those who hold them and drops no root that it did not add itself. In the middle of a scope
there are more roots than before (`Heap.Balanced`), and as a whole an operation leaves exactly the
roots that it found (`Heap.Level`); `conduct_level` puts the two together. Nor does an operation
forget a symbol that has been interned, or give the heap another root environment: whatever was a
root stays one (`conduct_keepsRoots`).
-/

namespace Lisplet

open Heap.Operation (heapAfter)

/-- A root stack keeps no more than its values. -/
theorem RootStack.eq_of_values {s s' : RootStack} (same : s.values = s'.values) : s = s' := by
  obtain ⟨values, length, rfl⟩ := s
  obtain ⟨values', length', rfl⟩ := s'
  cases same
  rfl

/-- `h'` has the pins of `h`, used or not, and its roots on top of those of `h`. -/
structure Heap.Balanced (h h' : Heap) : Prop where
  pins_eq : h'.pins = h.pins
  freePins_eq : h'.freePins = h.freePins
  roots_suffix : h.roots.values <:+ h'.roots.values

/-- `h'` has the pins of `h`, used or not, and the same roots. -/
structure Heap.Level (h h' : Heap) : Prop where
  roots_eq : h'.roots = h.roots
  pins_eq : h'.pins = h.pins
  freePins_eq : h'.freePins = h.freePins

namespace Heap

variable {h h' h'' : Heap}

theorem Level.balanced (l : h.Level h') : h.Balanced h' :=
  ⟨l.pins_eq, l.freePins_eq, l.roots_eq ▸ List.suffix_refl _⟩

theorem composes_level : Composes Level where
  refl _ := ⟨rfl, rfl, rfl⟩
  trans l l' := ⟨l'.roots_eq.trans l.roots_eq, l'.pins_eq.trans l.pins_eq,
    l'.freePins_eq.trans l.freePins_eq⟩

theorem composes_balanced : Composes Balanced where
  refl h := (composes_level.refl h).balanced
  trans b b' := ⟨b'.pins_eq.trans b.pins_eq, b'.freePins_eq.trans b.freePins_eq,
    b.roots_suffix.trans b'.roots_suffix⟩

theorem Balanced.addRoot (h : Heap) (v : Value) : h.Balanced (h.addRoot v) := by
  unfold Heap.addRoot
  split
  · exact composes_balanced.refl h
  · exact ⟨rfl, rfl, List.suffix_cons _ _⟩

/-- Dropping roots as far as the stack was built up gives back the stack there was before. -/
theorem Balanced.level (b : h.Balanced h') : h.Level (h'.truncateRoots h.roots.length) := by
  refine ⟨?_, b.pins_eq, b.freePins_eq⟩
  obtain ⟨above, values⟩ := b.roots_suffix
  have lengths : h'.roots.length = above.length + h.roots.length := by
    rw [← h'.roots.length_eq, ← h.roots.length_eq, ← values, List.length_append]
  refine RootStack.eq_of_values ?_
  show h'.roots.values.drop (h'.roots.length - h.roots.length) = h.roots.values
  rw [lengths, Nat.add_sub_cancel, ← values, List.drop_left]

namespace Level

theorem makeRoom (h : Heap) : h.Level h.makeRoom :=
  ⟨roots_makeRoom h, pins_makeRoom h, by rw [makeRoom_eq]⟩

theorem insert (h : Heap) (o : Object) : h.Level (h.insert o).2 := by
  unfold Heap.insert
  split
  · exact ⟨rfl, rfl, rfl⟩
  · exact ⟨rfl, rfl, rfl⟩

theorem setCdr (h : Heap) (pair value : Value) : h.Level (h.setCdr pair value) := by
  unfold Heap.setCdr
  split
  · exact ⟨rfl, rfl, rfl⟩
  · exact ⟨rfl, rfl, rfl⟩

theorem setBindings (h : Heap) (env : Env) (value : Value) :
    h.Level (h.setBindings env value) := by
  unfold Heap.setBindings
  split
  · exact ⟨rfl, rfl, rfl⟩
  · exact ⟨rfl, rfl, rfl⟩

theorem allocate (h : Heap) (o : Object) : h.Level (heapAfter (HeapM.allocate o) h) := by
  unfold heapAfter
  rcases HeapM.allocate_cases h o with ⟨_, step⟩ | ⟨_, step⟩
  · rw [step]
    exact composes_level.trans (.makeRoom h) (.insert _ o)
  · rw [step]
    exact .makeRoom h

theorem intern (h : Heap) (name : String) : h.Level (heapAfter (HeapM.intern name) h) := by
  refine HeapM.Obeys.get_bind ?_
  split
  · exact .pure composes_level _
  · refine .bind composes_level (Level.allocate h _) fun symbol h' _ => ?_
    exact .modify_bind composes_level ⟨rfl, rfl, rfl⟩ (.pure composes_level symbol)

end Level

end Heap

open Heap

theorem dataConduct_level : DataConduct Level Balanced where
  along := composes_level
  within := composes_balanced
  weaken := Level.balanced
  close := Balanced.level
  addRoot := Balanced.addRoot
  note _ _ := ⟨rfl, rfl, rfl⟩
  allocate h _ _ := .allocate h _
  intern := Level.intern

/-- Every operation gives back the roots that it has added and touches no pin. -/
theorem conduct_level : Conduct (fun _ _ => True) Level Balanced where
  toDataConduct := dataConduct_level
  child {h env} _ := by
    refine dataConduct_level.scope (dataConduct_level.root_bind ?_)
    exact .bind composes_balanced (dataConduct_level.partly (Level.allocate _ _)) fun _ _ _ =>
      .pure composes_balanced _
  define h env := dataConduct_level.obeys_define (fun h => Level.setBindings h env) h
  assign value _ := Level.setCdr _ _ value
  ready_of_kind _ := trivial
  ready_addRoot _ _ := trivial

/-! ## What was a root stays one -/

namespace Heap

theorem composes_keepsRoots : Composes KeepsRoots := ⟨.refl, .trans⟩

theorem symbols_insert (h : Heap) (o : Object) : (h.insert o).2.symbols = h.symbols := by
  unfold Heap.insert
  split
  · rfl
  · rfl

theorem rootEnv_insert (h : Heap) (o : Object) : (h.insert o).2.rootEnv = h.rootEnv := by
  unfold Heap.insert
  split
  · rfl
  · rfl

theorem symbols_allocate (h : Heap) (o : Object) :
    (heapAfter (HeapM.allocate o) h).symbols = h.symbols := by
  unfold heapAfter
  rcases HeapM.allocate_cases h o with ⟨_, step⟩ | ⟨_, step⟩
  · rw [step]
    exact (symbols_insert _ o).trans (symbols_makeRoom h)
  · rw [step]
    exact symbols_makeRoom h

namespace KeepsRoots

theorem insert (h : Heap) (o : Object) : h.KeepsRoots (h.insert o).2 :=
  .ofEq (rootEnv_insert h o) (symbols_insert h o) (Level.insert h o).roots_eq
    (Level.insert h o).pins_eq

theorem setCdr (h : Heap) (pair value : Value) : h.KeepsRoots (h.setCdr pair value) := by
  unfold Heap.setCdr
  split
  · exact .put h _ _
  · exact .refl h

theorem setBindings (h : Heap) (env : Env) (value : Value) :
    h.KeepsRoots (h.setBindings env value) := by
  unfold Heap.setBindings
  split
  · exact .put h _ _
  · exact .refl h

theorem allocate (h : Heap) (o : Object) : h.KeepsRoots (heapAfter (HeapM.allocate o) h) := by
  unfold heapAfter
  rcases HeapM.allocate_cases h o with ⟨_, step⟩ | ⟨_, step⟩
  · rw [step]
    exact (KeepsRoots.makeRoom h).trans (.insert _ o)
  · rw [step]
    exact .makeRoom h

/-- A symbol is only entered in the table if there was none of its name. -/
theorem enter {h : Heap} {name : String} (absent : h.symbols[name]? = none) (symbol : Value) :
    h.KeepsRoots { h with symbols := h.symbols.insert name symbol } := by
  refine ⟨rfl, rfl, fun other v found => ?_, List.suffix_refl _⟩
  rw [getElem?_symbols_insert, if_neg]
  · exact found
  · rintro rfl
    cases absent.symm.trans found

theorem intern (h : Heap) (name : String) :
    h.KeepsRoots (heapAfter (HeapM.intern name) h) := by
  refine HeapM.Obeys.get_bind ?_
  split
  · exact .pure composes_keepsRoots _
  · next absent =>
    refine .bind composes_keepsRoots (KeepsRoots.allocate h _) fun symbol h' step => ?_
    have symbols := symbols_allocate h (.symbol name)
    unfold heapAfter at symbols
    rw [step] at symbols
    exact .modify_bind composes_keepsRoots (.enter (symbols ▸ absent) symbol)
      (.pure composes_keepsRoots symbol)

end KeepsRoots

end Heap

theorem dataConduct_keepsRoots : DataConduct KeepsRoots KeepsRoots where
  along := composes_keepsRoots
  within := composes_keepsRoots
  weaken := id
  close := KeepsRoots.truncateRoots
  addRoot := KeepsRoots.addRoot
  note _ _ := .ofEq rfl rfl rfl rfl
  allocate h _ _ := .allocate h _
  intern := KeepsRoots.intern

/-- Every operation keeps what it finds as a root, the symbols that are interned among them. -/
theorem conduct_keepsRoots : Conduct (fun _ _ => True) KeepsRoots KeepsRoots where
  toDataConduct := dataConduct_keepsRoots
  child {h env} _ := by
    have c := dataConduct_keepsRoots
    refine c.scope (c.root_bind (.bind c.within (KeepsRoots.allocate _ _) fun _ _ _ => ?_))
    exact .pure c.within _
  define h env := dataConduct_keepsRoots.obeys_define (fun h => KeepsRoots.setBindings h env) h
  assign value _ := .setCdr _ _ value
  ready_of_kind _ := trivial
  ready_addRoot _ _ := trivial

end Lisplet
