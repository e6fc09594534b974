import Lisplet.Proofs.Frames.Endurance
import Lisplet.Proofs.Heap.Furnishing
import Lisplet.Proofs.Termination

/-!
# Frames — evaluation changes nothing but variables

Whatever has been done to a fresh heap, its frames are as they should be: every pair that binds a
symbol belongs to one place in one frame. So an assignment cannot touch anything else, and a
definition only puts a binding in front of those that are there. Evaluation does nothing else to
what was there before, whatever it is given and however it ends. On heaps that reading and
evaluation lead to, no pair of a frame can be got hold of as data, so data is left entirely alone.
-/

namespace Lisplet

open Heap.Operation (heapAfter)

/-! ## Heaps that have been worked on -/

/--
The heaps that come of a fresh one, with or without the standard primitives, by services of any
kind, whether these succeed or fail and whatever handles they are given, stale ones included, as
long as frames are made inside environments. Between services a collection may be run, and anything
may be rooted and pinned.
-/
inductive Worked : Heap → Prop where
  | empty (capacity : Nat) : Worked (.empty capacity)
  | standard {capacity : Nat} {h : Heap} : Heap.standard capacity = .ok h → Worked h
  | service {h : Heap} (service : Service) : Worked h →
      (∀ env ∈ service.parents, h.kind env.value = .environment) → Worked (service.run h)
  | root {h : Heap} (v : Value) : Worked h → Worked (h.addRoot v)
  | truncateRoots {h : Heap} (height : Nat) : Worked h → Worked (h.truncateRoots height)
  | pin {h : Heap} (v : Value) : Worked h → Worked (h.pin v).2
  | repin {h : Heap} (p : Pin) (v : Value) : Worked h → Worked (h.repin p v)
  | unpin {h : Heap} (p : Pin) : Worked h → Worked (h.unpin p)
  | collect {h : Heap} : Worked h → Worked h.collect.1

/-- Reading and evaluation are services. -/
theorem Reached.worked {h : Heap} (reached : Reached h) : Worked h := by
  induction reached with
  | empty capacity => exact .empty capacity
  | standard done => exact .standard done
  | read r _ ih => exact .service (.read r) ih nofun
  | make limit _ ih => exact .service (.make limit) ih nofun
  | @eval h ev room expr env _ _ _ ih => exact .service (.eval ev room expr env) ih nofun
  | root _ _ ih => exact .root _ ih
  | truncateRoots height _ ih => exact .truncateRoots height ih
  | pin _ _ ih => exact .pin _ ih
  | repin p _ _ ih => exact .repin p _ ih
  | unpin p _ ih => exact .unpin p ih
  | collect _ ih => exact .collect ih

theorem worked_withSymbols {capacity : Nat} {names : List String} (single : ("t" :: names).Nodup)
    (room : names.length + 2 ≤ (Heap.empty capacity).capacity) :
    Worked (Heap.withSymbols capacity names) := by
  induction names using List.reverseRecOn with
  | nil => exact .empty capacity
  | append_singleton names name ih =>
      rw [List.length_append, List.length_singleton] at room
      rw [← List.cons_append, List.nodup_append] at single
      have new : name ∉ "t" :: names := fun listed =>
        single.2.2 name listed name (List.mem_singleton_self name) rfl
      have step := Heap.intern_withSymbols capacity names new (by omega)
      have interned : Worked (heapAfter (HeapM.intern name) (Heap.withSymbols capacity names)) :=
        .service (.build (.intern name) rfl) (ih single.1 (by omega)) nofun
      unfold heapAfter at interned
      rwa [step] at interned

theorem worked_withPairs {h : Heap} (worked : Worked h) (pairs : List (Value × Value)) :
    Worked (h.withPairs pairs) := by
  induction pairs generalizing h with
  | nil => exact worked
  | cons pair pairs ih => exact ih (.service (.build (.cons pair.1 pair.2) rfl) worked nofun)

namespace Heap

variable {h h' : Heap} {i : Nat} {o : Object}

/-- In a fresh heap the root environment has no bindings, and the other object is a symbol. -/
theorem charted_empty (capacity : Nat) :
    (Heap.empty capacity).Charted fun i => ⟨if i = 0 then .frame else .data, 0⟩ := by
  refine ⟨(wellFormed_empty capacity).toArena.tidy, fun i o found => ?_⟩
  rw [object?_empty] at found
  match i with
  | 0 =>
      cases found
      exact .outermost rfl .nil
  | 1 =>
      cases found
      exact .data rfl nofun
  | i + 2 => simp at found

theorem framed_empty (capacity : Nat) : (Heap.empty capacity).Framed := by
  refine ⟨⟨_, charted_empty capacity⟩, fun i name found => ?_⟩
  rw [object?_empty] at found
  match i with
  | 0 => cases found
  | 1 =>
      cases found
      simp [symbols_empty]
  | i + 2 => simp at found

theorem Framed.collect (f : h.Framed) : h.collect.1.Framed := by
  rcases f.charted with ⟨c, a⟩
  refine ⟨⟨c, a.collect⟩, fun i name found => ?_⟩
  exact f.interned i name (((Obtains.collect a.marksClear).known i _ found).resolve_left nofun)

/-- Whatever has been done to a heap, its frames are as they should be. -/
theorem framed_of_worked (worked : Worked h) : h.Framed := by
  induction worked with
  | empty capacity => exact framed_empty capacity
  | @standard capacity h done =>
      exact (conduct_treats.whole_standard done (framed_empty capacity)).framed
  | service service _ ready ih => exact (conduct_treats.whole_run service ready ih).framed
  | root v _ ih => exact ih.addRoot v
  | truncateRoots height _ ih => exact ih.transfer rfl rfl rfl
  | pin v _ ih =>
      unfold Heap.pin
      split
      · exact ih.transfer rfl rfl rfl
      · exact ih.transfer rfl rfl rfl
  | repin p v _ ih => exact ih.transfer rfl rfl rfl
  | unpin p _ ih =>
      unfold Heap.unpin
      split
      · exact ih.transfer rfl rfl rfl
      · exact ih
  | collect _ ih => exact ih.collect

/-! ## Evaluation -/

/--
A slot that can be reached from the roots through data, that is, without passing through an
environment: program text, constants, lists of arguments and procedures.
-/
inductive Quoted (h : Heap) : Nat → Prop where
  | root {i : Nat} : h.IsRoot (.slot i) → h.Occupied i → Quoted h i
  | reference {i j : Nat} {o : Object} : Quoted h i → h.object? (.slot i) = some o →
      o.kind ≠ .environment → .slot j ∈ o.references → h.Occupied j → Quoted h j

/--
What is left alone: what is sheltered is in the same slot with the same content, but for new
bindings in front of those of an environment and other values of symbols. Where no program can get
hold of a pair that binds a symbol, data is left entirely alone.
-/
structure SparesAllButBindings (h h' : Heap) : Prop where
  sheltered : ∀ i o, h.Sheltered i → h.object? (.slot i) = some o → h.Renews h' i o
  quoted : Reached h → ∀ i o, h.Quoted i → h.object? (.slot i) = some o →
    o.kind ≠ .environment → h'.object? (.slot i) = some o

/-- What is reached through data is no pair of a frame. -/
theorem Quoted.expression {d : Termination.Layout} (a : Termination.Orderly d h)
    (q : h.Quoted i) : h.Expression (.slot i) := by
  induction q with
  | root root occupied =>
      have held := holds_slot_iff.2 occupied
      exact a.expression ((a.roots _ root).imp (⟨·, held⟩) (⟨·, held⟩))
  | reference _ found other member _ ih =>
      refine a.expression_of_reference ih found member fun _ _ same => ?_
      rw [same] at other
      exact absurd rfl other

theorem Quoted.sheltered {d : Termination.Layout} (a : Termination.Orderly d h)
    (q : h.Quoted i) : h.Sheltered i := by
  induction q with
  | root root occupied => exact .root root occupied
  | reference before found _ member occupied ih =>
      exact .reference ih found (fun binds => (before.expression a).2 _ rfl (.inr binds)) member
        occupied

theorem Respects.spares (r : h.Respects h') : h.SparesAllButBindings h' := by
  refine ⟨r.endures.renews, fun reached i o quoted found other => ?_⟩
  rcases Termination.exists_orderly reached with ⟨d, a⟩
  cases r.endures.renews i o (quoted.sheltered a) found with
  | same found' => exact found'
  | bindings _ _ => exact absurd rfl other
  | value binds _ => exact absurd (.inr binds) ((quoted.expression a).2 i rfl)

end Heap

/--
Evaluation, application and the evaluation of several expressions change nothing but variables, on
whatever heap, with whatever room and operands, and however they end.
-/
theorem evaluation_spares_all_but_bindings {h : Heap} (worked : Worked h) (ev : Evaluator)
    (room : Nat) :
    (∀ expr env, h.SparesAllButBindings (heapAfter (ev.eval room expr env) h)) ∧
      (∀ function args, h.SparesAllButBindings (heapAfter (ev.apply room function args) h)) ∧
      ∀ body env, h.SparesAllButBindings (heapAfter (ev.evaluateAll body env) h) := by
  have framed := Heap.framed_of_worked worked
  have spares (service : Service) (alone : service.parents = []) :
      h.SparesAllButBindings (service.run h) :=
    (Heap.conduct_treats.whole_run service (by simp [alone]) framed).spares
  exact ⟨fun expr env => spares (.eval ev room expr env) rfl,
    fun function args => spares (.apply ev room function args) rfl,
    fun body env => spares (.evaluateAll ev body env) rfl⟩

/--
The symbols `x` and `y` are in the slots 8 and 9, and `x` is bound to `t` by the pair in the slot
10. The slot 17 has the expression `(set! x (define y ()))`.
-/
def Heap.settled : Heap :=
  let bound := (Operation.define ⟨.slot 0⟩ (.slot 8) (.slot 1)).run
    (withSymbols 32 (Evaluator.formNames ++ ["x", "y"]))
  (bound.withPairs [(.nil, .nil), (.slot 9, .slot 12), (.slot 5, .slot 13), (.slot 14, .nil),
    (.slot 8, .slot 15), (.slot 4, .slot 16)]).addRoot (.slot 17)

/-- What is left of that heap when the expression has been evaluated. -/
def Heap.reset : Heap :=
  heapAfter (Evaluator.eval ⟨Evaluator.firstForms, 9⟩ 9 (.slot 17) ⟨.slot 0⟩) Heap.settled

/--
A variable has been defined in the root environment and another one has been assigned, and the
expression that did so is what it was.
-/
theorem evaluation_spares_settled :
    Worked Heap.settled ∧ (Heap.settled.Renews Heap.reset 0 (.environment (.slot 11) none) ∧
      Heap.reset.object? (.slot 0) = some (.environment (.slot 19) none)) ∧
    (Heap.settled.Renews Heap.reset 10 (.pair (.slot 8) (.slot 1)) ∧
      Heap.reset.object? (.slot 10) = some (.pair (.slot 8) .nil)) ∧
    Heap.settled.Renews Heap.reset 17 (.pair (.slot 4) (.slot 16)) ∧
      Heap.reset.object? (.slot 17) = some (.pair (.slot 4) (.slot 16)) := by
  have symbols : Worked (Heap.withSymbols 32 (Evaluator.formNames ++ ["x", "y"])) :=
    worked_withSymbols (by decide) (by decide)
  have worked : Worked Heap.settled :=
    .root _ (worked_withPairs (.service (.build (.define ⟨.slot 0⟩ (.slot 8) (.slot 1)) rfl) symbols
      nofun) _)
  have spares := ((evaluation_spares_all_but_bindings worked ⟨Evaluator.firstForms, 9⟩ 9).1
    (.slot 17) ⟨.slot 0⟩).sheltered
  have frame : Heap.settled.object? (.slot 0) = some (.environment (.slot 11) none) :=
    Heap.frame?_eq_some_iff.1 (by decide +kernel)
  have list : Heap.settled.object? (.slot 11) = some (.pair (.slot 10) .nil) :=
    Heap.pair?_eq_some_iff.1 (by decide +kernel)
  have binding : Heap.settled.object? (.slot 10) = some (.pair (.slot 8) (.slot 1)) :=
    Heap.pair?_eq_some_iff.1 (by decide +kernel)
  have expr : Heap.settled.object? (.slot 17) = some (.pair (.slot 4) (.slot 16)) :=
    Heap.pair?_eq_some_iff.1 (by decide +kernel)
  have outermost : Heap.settled.Sheltered 0 := .root .environment (Heap.occupied_of_object? frame)
  have listed : Heap.settled.Sheltered 11 := by
    refine .reference outermost frame (fun binds => ?_) List.mem_cons_self
      (Heap.occupied_of_object? list)
    obtain ⟨c, charted⟩ := (Heap.framed_of_worked worked).charted
    obtain ⟨_, _, same⟩ := charted.pair_of_isBinding binds frame
    cases same
  have bound : Heap.settled.Sheltered 10 :=
    .symbol listed list (Heap.occupied_of_object? binding)
  have rooted : Heap.settled.Sheltered 17 :=
    .root (.stack List.mem_cons_self) (Heap.occupied_of_object? expr)
  exact ⟨worked, ⟨spares 0 _ outermost frame, Heap.frame?_eq_some_iff.1 (by decide +kernel)⟩,
    ⟨spares 10 _ bound binding, Heap.pair?_eq_some_iff.1 (by decide +kernel)⟩,
    spares 17 _ rooted expr, Heap.pair?_eq_some_iff.1 (by decide +kernel)⟩

end Lisplet
