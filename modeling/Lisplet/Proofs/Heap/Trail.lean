import Lisplet.Proofs.Conduct.Language
import Lisplet.Proofs.Heap.Pins

/-!
# Trail — how one heap comes of another

Whatever is done to a heap comes down to a few elementary changes and to collections. A `Change`
puts a new object into the arena, gives an object that is there other parts, or exchanges the roots;
it empties no slot. Every operation is a sequence of changes and collections (`Leads`), so what
these preserve holds after any operation.
-/

namespace Lisplet

open Heap.Operation (heapAfter)

namespace Heap

/-! ## Changes and collections -/

/-- An elementary change of a heap, which empties no slot. -/
inductive Change : Heap → Heap → Prop where
  | insert (h : Heap) {o : Object} : (∀ name, o ≠ .symbol name) → Change h (h.insert o).2
  /-- A new symbol goes into the arena and into the table at once. -/
  | intern (h : Heap) {name : String} : h.symbols[name]? = none →
      Change h { (h.insert (.symbol name)).2 with
        symbols := (h.insert (.symbol name)).2.symbols.insert name (h.insert (.symbol name)).1 }
  | update (h : Heap) {i : Nat} {old o : Object} : h.object? (.slot i) = some old →
      Updates old o → Change h (h.put i o)
  | reroot (h : Heap) (roots : RootStack) (pins : Array (Option Value)) (freePins : List Nat)
      (journal : Array Notice) : Change h { h with roots, pins, freePins, journal }

/-- `h'` comes of `h` by changes and collections. -/
inductive Leads (h : Heap) : Heap → Prop where
  | refl : Leads h h
  | change {h' h'' : Heap} : Leads h h' → Change h' h'' → Leads h h''
  | collect {h' : Heap} : Leads h h' → Leads h h'.collect.1

section Leading

variable {h h' h'' : Heap}

theorem Change.leads (c : h.Change h') : h.Leads h' := .change .refl c

/-- What changes and collections preserve holds at the end. -/
theorem Leads.preserves {P : Heap → Prop} (leads : h.Leads h')
    (change : ∀ {h h'}, P h → Change h h' → P h') (collect : ∀ {h}, P h → P h.collect.1)
    (start : P h) : P h' := by
  induction leads with
  | refl => exact start
  | change _ c ih => exact change ih c
  | collect _ ih => exact collect ih

theorem composes_leads : Composes Leads where
  refl _ := .refl
  trans := by
    intro h h' h'' first second
    induction second with
    | refl => exact first
    | change _ c ih => exact .change ih c
    | collect _ ih => exact .collect ih

/-! ## Marks and free slots -/

theorem marksClear_insert (clear : h.MarksClear) (o : Object) : (h.insert o).2.MarksClear := by
  intro slot member
  obtain ⟨i, slots, free, step, ⟨-, rfl⟩ | ⟨-, -, -, rfl⟩⟩ := insert_eq h o
  · rw [step] at member
    rcases Array.mem_or_eq_of_mem_setIfInBounds member with old | rfl
    · exact clear slot old
    · rfl
  · rw [step] at member
    rcases Array.mem_push.1 member with old | rfl
    · exact clear slot old
    · rfl

/-- No change puts a mark on a slot. -/
theorem Change.marksClear (c : h.Change h') (clear : h.MarksClear) : h'.MarksClear := by
  cases c with
  | insert _ => exact marksClear_insert clear _
  | intern _ => exact marksClear_insert clear _
  | @update i old o found _ =>
      intro slot member
      obtain ⟨j, listed⟩ := Array.mem_iff_getElem?.1 member
      have listed : (h.slots.modify i fun slot => { slot with object := some o })[j]? =
        some slot := listed
      rw [Array.getElem?_modify] at listed
      split at listed
      · obtain ⟨before, there, rfl⟩ := Option.map_eq_some_iff.1 listed
        exact clear before (Array.mem_of_getElem? there)
      · exact clear slot (Array.mem_of_getElem? listed)
  | reroot => exact clear

theorem Leads.marksClear (leads : h.Leads h') (clear : h.MarksClear) : h'.MarksClear :=
  leads.preserves (fun clear c => c.marksClear clear) marksClear_collect clear

/-- No change puts anything into a slot that is listed as free, or takes a slot off the list. -/
theorem Change.tidy (c : h.Change h') (tidy : h.Tidy) : h'.Tidy := by
  cases c with
  | insert _ => exact tidy.insert _
  | intern _ => exact (tidy.insert _).transfer rfl rfl
  | update found _ => exact tidy.put _ (occupied_of_object? found)
  | reroot => exact tidy.transfer rfl rfl

theorem Leads.tidy (leads : h.Leads h') (tidy : h.Tidy) : h'.Tidy :=
  leads.preserves (fun tidy c => c.tidy tidy) Tidy.collect tidy

end Leading

/-! ## Operations -/

namespace Leads

theorem reroot (h : Heap) (roots : RootStack) (journal : Array Notice) :
    h.Leads { h with roots, journal } := (Change.reroot h roots h.pins h.freePins journal).leads

theorem makeRoom (h : Heap) : h.Leads h.makeRoom := by
  unfold Heap.makeRoom
  split
  · exact .collect .refl
  · exact .refl

theorem addRoot (h : Heap) (v : Value) : h.Leads (h.addRoot v) := by
  unfold Heap.addRoot
  split
  · exact .refl
  · exact reroot h _ _

theorem allocate (h : Heap) {o : Object} (other : ∀ name, o ≠ .symbol name) :
    h.Leads (heapAfter (HeapM.allocate o) h) := by
  have made := makeRoom h
  unfold heapAfter
  rcases HeapM.allocate_cases h o with ⟨_, step⟩ | ⟨_, step⟩
  · rw [step]
    exact .change made (.insert _ other)
  · rw [step]
    exact made

/-- If the name is new, the table is extended as soon as there is a slot for the symbol. -/
theorem intern (h : Heap) (name : String) : h.Leads (heapAfter (HeapM.intern name) h) := by
  have made := makeRoom h
  unfold heapAfter
  rcases HeapM.intern_cases h name with ⟨_, _, step⟩ | ⟨absent, ⟨_, step⟩ | ⟨_, step⟩⟩
  · rw [step]
    exact .refl
  · rw [step]
    have absent : h.makeRoom.symbols[name]? = none := (symbols_makeRoom h).symm ▸ absent
    exact .change made (.intern _ absent)
  · rw [step]
    exact made

theorem setCar (h : Heap) (pair value : Value) : h.Leads (h.setCar pair value) := by
  unfold Heap.setCar
  split
  · next i car cdr found => exact (Change.update h found (.pair car cdr value cdr)).leads
  · exact .refl

theorem setCdr (h : Heap) (pair value : Value) : h.Leads (h.setCdr pair value) := by
  rcases setCdr_cases h pair value with ⟨i, car, cdr, _, found, step⟩ | ⟨_, step⟩
  · rw [step]
    exact (Change.update h found (.pair car cdr car value)).leads
  · rw [step]
    exact .refl

theorem setBindings (h : Heap) (env : Env) (value : Value) :
    h.Leads (h.setBindings env value) := by
  rcases setBindings_cases h env value with ⟨i, bindings, parent, _, found, step⟩ | ⟨_, step⟩
  · rw [step]
    exact (Change.update h found (.environment bindings value parent)).leads
  · rw [step]
    exact .refl

end Leads

end Heap

open Heap

theorem dataConduct_leads : DataConduct Leads Leads where
  along := composes_leads
  within := composes_leads
  weaken := id
  close leads := composes_leads.trans leads (.reroot _ _ _)
  addRoot := Leads.addRoot
  note h notice := .reroot h _ _
  allocate h o plain := by
    refine .allocate h fun name same => ?_
    rw [same] at plain
    cases plain
  intern := Leads.intern

/-- Every operation of the language comes down to changes and collections. -/
theorem conduct_leads : Conduct (fun _ _ => True) Leads Leads where
  toDataConduct := dataConduct_leads
  child {h env} _ := by
    have c := dataConduct_leads
    refine c.scope (c.root_bind (.bind c.within (Leads.allocate _ fun _ => nofun) fun _ _ _ => ?_))
    exact .pure c.within _
  define h env := dataConduct_leads.obeys_define (fun h => Leads.setBindings h env) h
  assign value _ := .setCdr _ _ value
  ready_of_kind _ := trivial
  ready_addRoot _ _ := trivial

theorem Service.leads_run (service : Service) (h : Heap) : h.Leads (service.run h) :=
  conduct_leads.whole_run service fun _ _ => trivial

theorem Heap.Operation.leads_run (op : Heap.Operation) (h : Heap) : h.Leads (op.run h) := by
  have repinned (h' : Heap) (same : h' = { h with pins := h'.pins, freePins := h'.freePins }) :
      h.Leads h' := same ▸ (Change.reroot h _ _ _ _).leads
  cases builds : op.builds with
  | true => exact Service.leads_run (.build op builds) h
  | false =>
      cases op with
      | setCar pair value => exact Leads.setCar h pair value
      | setCdr pair value => exact Leads.setCdr h pair value
      | root value => exact Leads.addRoot h value
      | truncateRoots height => exact Leads.reroot h _ _
      | pin value => exact repinned _ (Heap.pin_eq h value)
      | repin key value => exact repinned _ rfl
      | unpin key => exact repinned _ (Heap.unpin_eq h key)
      | collect => exact .collect .refl
      | _ => cases builds

end Lisplet
