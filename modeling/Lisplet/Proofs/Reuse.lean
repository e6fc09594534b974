import Lisplet.Command.Evaluate
import Lisplet.Proofs.Room
import Lisplet.Proofs.RoundTrip

/-!
# Reuse — one slot for one value after the other

A heap is `Heap.Spare` if it has room for one more object, if need be after a collection. It
stays so when it gets an object that nothing refers to, since the next collection frees the slot
again. So a text of integers, each of which is garbage once its result has been handed over, can
be evaluated where there is room for one of them, however many there are.
-/

namespace Lisplet

namespace Heap

/-! ## Garbage makes room -/

/-- A heap with room for one more object, if need be after a collection. -/
structure Spare (h : Heap) : Prop where
  wellFormed : h.WellFormed
  room : h.makeRoom.live < h.capacity

section Garbage

variable {h h' : Heap} {i j : Nat} {o : Object}

/-- What can be reached once an object has been placed was there before it. -/
theorem Places.occupied_of_reachable (p : h.Places i o h') (a : h.Arena)
    (reached : h'.Reachable j) : h.Occupied j := by
  -- Induction on the path: neither a root nor an old object names the new slot.
  induction reached with
  | start root _ => exact holds_slot_iff.1 (a.roots_held _ (p.isRoot_iff.1 root))
  | reference _ found member _ ih =>
      rw [p.object?_old ih] at found
      exact holds_slot_iff.1 (a.references_held _ _ found _ member)

theorem spare_of_room (w : h.WellFormed) (room : h.live < h.capacity) : h.Spare := by
  have unchanged : h.makeRoom = h := if_neg (Nat.not_le_of_lt room)
  refine ⟨w, ?_⟩
  rw [unchanged]
  exact room

/-- An object that nothing refers to takes no room for longer than to the next collection. -/
theorem Spare.insert (spare : h.Spare) (none : o.references = [])
    (other : ∀ name, o ≠ .symbol name) : (h.makeRoom.insert o).2.Spare := by
  have w := (Evolves.makeRoom spare.wellFormed).wellFormed
  have room : h.makeRoom.live < h.makeRoom.capacity := by
    rw [capacity_makeRoom]
    exact spare.room
  have held : ∀ v ∈ o.references, h.makeRoom.Holds v := by
    rw [none]
    exact fun v member => nomatch member
  have w' := w.insert room held other
  rcases w.places_insert o with ⟨i, _, p⟩
  have capacity : (h.makeRoom.insert o).2.capacity = h.makeRoom.capacity := by rw [p.unchanged]
  by_cases full : (h.makeRoom.insert o).2.capacity ≤ (h.makeRoom.insert o).2.live
  · have collected : (h.makeRoom.insert o).2.makeRoom = (h.makeRoom.insert o).2.collect.1 :=
      if_pos full
    have survivors : (h.makeRoom.insert o).2.collect.1.occupiedSlots ⊆
        h.makeRoom.occupiedSlots := by
      intro j member
      have kept := (occupied_collect_iff w'.marksClear j).1 (mem_occupiedSlots_iff.1 member)
      exact mem_occupiedSlots_iff.2 (p.occupied_of_reachable w.toArena kept.2)
    have fewer := (List.Nodup.subperm (occupiedSlots_nodup _) survivors).length_le
    refine ⟨w', ?_⟩
    rw [collected, capacity]
    calc
      (h.makeRoom.insert o).2.collect.1.live
          = (h.makeRoom.insert o).2.collect.1.occupiedSlots.length := w'.collect.live_eq
      _ ≤ h.makeRoom.occupiedSlots.length := fewer
      _ = h.makeRoom.live := w.live_eq.symm
      _ < h.makeRoom.capacity := room
  · exact spare_of_room w' (Nat.lt_of_not_le full)

/-- A root that has just been added can be dropped again without a trace. -/
theorem truncateRoots_addRoot (h : Heap) (v : Value) :
    (h.addRoot v).truncateRoots h.roots.length = h := by
  cases v with
  | nil => simp [addRoot, Value.isNil, truncateRoots, RootStack.truncate]
  | slot i => simp [addRoot, Value.isNil, truncateRoots, RootStack.truncate, RootStack.push]

end Garbage

end Heap

/-! ## Integers -/

theorem Heap.wellFormed_standard {capacity : Nat} {h : Heap}
    (made : Heap.standard capacity = .ok h) : h.WellFormed := by
  have w := Heap.wellFormed_empty capacity
  have held : (Heap.empty capacity).Holds (Heap.empty capacity).rootEnv.value :=
    w.roots_held _ .environment
  have kept : HeapM.Keeps ((Heap.empty capacity).rootEnv.definePrimitives Primitive.standard)
      (.empty capacity) fun _ _ => True := Env.keeps_definePrimitives w held
  unfold Heap.standard at made
  unfold HeapM.Keeps at kept
  dsimp only at made
  split at made
  · next step =>
    cases made
    rw [step] at kept
    exact kept.1.wellFormed
  · cases made

/-- A lexeme that is read as a certain integer. -/
def Lexeme.Spells (lexeme : Lexeme) (n : Int64) : Prop :=
  lexeme.token = .atom ∧ Atom.classify lexeme.text = .ok (.int n)

/-- An integer is read wherever there is room for it, if need be after a collection. -/
theorem Reader.read_integer {r : Reader} {h : Heap} {lexeme : Lexeme} {rest : List Lexeme}
    {n : Int64} (spare : h.Spare) (lexemes : r.lexemes = lexeme :: rest)
    (spells : lexeme.Spells n) :
    ∃ v h', r.read h =
        ⟨.ok (some v), { r with lexemes := rest, offset := lexeme.span.stop }, h'⟩ ∧
      h'.Spare ∧ h'.object? v = some (.int n) := by
  have w := (Heap.Evolves.makeRoom spare.wellFormed).wellFormed
  rcases w.places_insert (.int n) with ⟨i, value, p⟩
  have spare' := spare.insert (o := .int n) rfl fun _ => nofun
  have allocated : HeapM.allocate (.int n) h =
      .ok (.slot i) (h.makeRoom.insert (.int n)).2 := by
    rcases HeapM.allocate_cases h (.int n) with ⟨_, step⟩ | ⟨full, _⟩
    · rw [step, value]
    · exact absurd spare.room (Nat.not_lt_of_le full)
  have took : Reader.take [] lexeme h =
      .ok (.finished (.slot i)) ((h.makeRoom.insert (.int n)).2.addRoot (.slot i)) := by
    have step : Reader.take [] lexeme =
        Reader.deliverNew lexeme.span [] (HeapM.allocate (.int n)) := by
      simp only [Reader.take, spells.1, spells.2]
      rfl
    exact (congrFun step h).trans (Reader.deliverNew_ok allocated)
  have height : h.roots.length = (h.makeRoom.insert (.int n)).2.roots.length := by
    rw [p.unchanged, Heap.roots_makeRoom]
  refine ⟨.slot i, (h.makeRoom.insert (.int n)).2, ?_, spare', p.object?_new⟩
  unfold Reader.read
  rw [lexemes, Reader.takeAll, took]
  dsimp only
  rw [height, Heap.truncateRoots_addRoot]

namespace Evaluator

variable (ev : Evaluator) {h : Heap} {v : Value} {n : Int64}

/-- An integer evaluates to itself at any depth. -/
theorem eval_integer (found : h.object? v = some (.int n)) (room : Nat) (env : Env) :
    ev.eval room v env h = .ok v h := by
  have itself : h.isSelfEvaluating v = true := by
    cases v with
    | nil => cases found
    | slot i => simp [Heap.isSelfEvaluating, Heap.isNumber, Heap.kind, found, Object.kind,
        Kind.isNumber]
  unfold Evaluator.eval
  show (if h.isSelfEvaluating v = true then _ else _ : HeapM Fatal Value) h = _
  rw [if_pos itself]
  rfl

/-- So the evaluation of an integer leaves the heap as it was. -/
theorem evaluateForm_integer (found : h.object? v = some (.int n)) :
    ev.evaluateForm v h = .ok v h := by
  rcases h.addRoot_eq v with ⟨roots, rooted⟩
  have found' : (h.addRoot v).object? v = some (.int n) := by
    rw [rooted]
    exact found
  have step : ev.evaluateForm v h = .ok v ((h.addRoot v).truncateRoots h.roots.length) :=
    HeapM.scope_ok (ev.eval_integer found' ev.limit (h.addRoot v).rootEnv)
  rw [step, Heap.truncateRoots_addRoot]

/-- However the form symbols are interned, the heap evolves. -/
theorem keeps_make (w : h.WellFormed) (limit : Nat) :
    HeapM.Keeps (make limit) h fun _ _ => True := by
  refine .bind (Q := fun _ _ => True) ?_ fun _ _ e _ => .pure e.wellFormed trivial
  refine .bind (HeapM.keeps_intern w _) fun _ _ e _ => ?_
  refine .bind (HeapM.keeps_intern e.wellFormed _) fun _ _ e _ => ?_
  refine .bind (HeapM.keeps_intern e.wellFormed _) fun _ _ e _ => ?_
  refine .bind (HeapM.keeps_intern e.wellFormed _) fun _ _ e _ => ?_
  refine .bind (HeapM.keeps_intern e.wellFormed _) fun _ _ e _ => ?_
  refine .bind (HeapM.keeps_intern e.wellFormed _) fun _ _ e _ => ?_
  exact .pure e.wellFormed trivial

/-- With one slot more than the primitives and the form symbols take there is room to spare. -/
theorem spare_make {capacity : Nat} (room : 109 ≤ capacity) (limit : Nat) :
    ∃ h ev h', Heap.standard capacity = .ok h ∧ make limit h = .ok ev h' ∧ h'.Spare := by
  have bounds : 109 ≤ min capacity (Value.maxSlots - 1) := Nat.le_min.2 ⟨room, by decide⟩
  rcases Heap.standard_ok (Nat.le_trans (by decide) room) with ⟨h, step, capacity_eq, live⟩
  have w : h.WellFormed := Heap.wellFormed_standard step
  rcases fits_make limit h (by omega) with ⟨ev, h', made, capacity_eq', live'⟩
  have kept := keeps_make w limit
  unfold HeapM.Keeps at kept
  rw [made] at kept
  exact ⟨h, ev, h', step, made, Heap.spare_of_room kept.1.wellFormed (by omega)⟩

end Evaluator

end Lisplet
