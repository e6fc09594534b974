import Lisplet.Proofs.Heap.Furnishing
import Lisplet.Proofs.Heap.History
import Lisplet.Proofs.Termination.Evaluation
import Lisplet.Proofs.Termination.Reading

/-!
# Termination — evaluation always ends

Evaluation nests no deeper than its limit, but between two nested evaluations it loops over lists,
environments and data, all of which programs build and some of which they change. No loop of it
runs for ever: on every heap that reading and evaluation can lead to, the evaluator with unbounded
loops gives a result, and it is the result of the evaluator whose loops are bounded.

Expressions are whatever is live but for the pairs of which an environment's bindings consist.
Those belong to the environment, which changes them: an assignment to a binding that was itself
being evaluated would drop what is still to be evaluated. No program gets hold of them. What has
been read is an expression, what an expression refers to is one, but for an environment's bindings,
and so are the value of a symbol and whatever evaluation gives.
-/

namespace Lisplet

open Heap.Operation (heapAfter)
open Simulation (Role)

/-! ## Reached heaps -/

/-- A live value that is no pair of an environment's own. -/
def Heap.Expression (h : Heap) (v : Value) : Prop :=
  h.Holds v ∧ ∀ i, v = .slot i → ¬ h.InFrame i

/-- A value that is a live environment. -/
def Heap.IsEnvironment (h : Heap) (v : Value) : Prop :=
  ∃ bindings parent, h.object? v = some (.environment bindings parent)

/--
The heaps that come of a fresh one, with or without the standard primitives, by reading and
evaluation, whether these succeed or fail. Between them a collection may be run, and values may be
rooted and pinned.
-/
inductive Reached : Heap → Prop where
  | empty (capacity : Nat) : Reached (.empty capacity)
  | standard {capacity : Nat} {h : Heap} : Heap.standard capacity = .ok h → Reached h
  | read {h : Heap} (r : Reader) : Reached h → Reached (r.read h).heap
  | make {h : Heap} (limit : Nat) : Reached h → Reached (heapAfter (Evaluator.make limit) h)
  | eval {h : Heap} (ev : Evaluator) (room : Nat) {expr : Value} {env : Env} : Reached h →
      h.Expression expr → h.IsEnvironment env.value →
        Reached (heapAfter (ev.eval room expr env) h)
  | root {h : Heap} {v : Value} : Reached h → h.Expression v → Reached (h.addRoot v)
  | truncateRoots {h : Heap} (height : Nat) : Reached h → Reached (h.truncateRoots height)
  | pin {h : Heap} {v : Value} : Reached h → h.Expression v → Reached (h.pin v).2
  | repin {h : Heap} (p : Pin) {v : Value} : Reached h → h.Expression v → Reached (h.repin p v)
  | unpin {h : Heap} (p : Pin) : Reached h → Reached (h.unpin p)
  | collect {h : Heap} : Reached h → Reached h.collect.1

namespace Termination

variable {d : Layout} {h : Heap} {v expr : Value} {env : Env}

/-! ## Expressions -/

/-- A pair of a frame is neither data nor an environment. -/
theorem Suited.expression (a : Suited d h) (used : Used d h .datum v ∨ Used d h .frame v) :
    h.Expression v := by
  refine ⟨used.elim Used.holds Used.holds, ?_⟩
  rintro i rfl owned
  have use : d i = .datum ∨ d i = .frame :=
    fills_datum_iff.1 (used.elim Used.fills fun used => used.fills.datum)
  rcases owned with on | ⟨list, rest, on, found⟩
  · rw [(a.used_of_onFrame on).fills.use nofun] at use
    exact use.elim nofun nofun
  · rw [(a.pair_used (a.used_of_onFrame on).fills found).1.fills.use nofun] at use
    exact use.elim nofun nofun

/-- All that a frame has of its own are pairs. -/
theorem Suited.expression_of_atom (a : Suited d h) {o : Object} (found : h.object? v = some o)
    (isAtom : o.kind ≠ .pair) : h.Expression v := by
  have holds := Heap.holds_of_object? found
  cases v with
  | nil => cases found
  | slot i =>
      have suits := a.suits i o found
      generalize use : d i = r at suits
      cases suits with
      | pair | spine | binding => exact absurd rfl isAtom
      | plain | procedure => exact a.expression (.inl ⟨.slot use, holds⟩)
      | root | child => exact a.expression (.inr ⟨.slot use, holds⟩)

theorem Arranged.used_of_expression (a : Arranged d h) (isExpr : h.Expression v) :
    Used d h .datum v ∨ Used d h .frame v := a.used_of_holds isExpr.1 isExpr.2

/-- Data may be an environment, so an expression may stand wherever data is wanted. -/
theorem Arranged.datum_of_expression (a : Arranged d h) (isExpr : h.Expression v) :
    Used d h .datum v :=
  (a.used_of_expression isExpr).elim id fun used => ⟨used.fills.datum, used.holds⟩

theorem Arranged.expression_of_reference {o : Object} {w : Value} (a : Arranged d h)
    (isExpr : h.Expression v) (found : h.object? v = some o) (member : w ∈ o.references)
    (outside : ∀ bindings parent, o = .environment bindings parent → w ≠ bindings) :
    h.Expression w := by
  have held := a.holds_reference found member
  have fills : Fills d .datum w ∨ Fills d .frame w := by
    cases v with
    | nil => cases found
    | slot i =>
        have notSpine : d i ≠ .spine := by
          have fills := (a.used_of_expression isExpr).elim Used.fills fun used => used.fills.datum
          rcases fills_datum_iff.1 fills with use | use
          · simp [use]
          · simp [use]
        cases w with
        | nil => exact .inl (.nil nofun)
        | slot k =>
            rcases a.reference_cases found member with
              use | ⟨_, ⟨parent, rfl⟩ | ⟨above, _⟩⟩ | ⟨_, above, _⟩
            · exact use.imp .slot .slot
            · exact absurd rfl (outside _ _ rfl)
            · exact absurd above notSpine
            · exact absurd above notSpine
  exact a.expression (fills.imp (⟨·, held⟩) (⟨·, held⟩))

theorem Suited.used_of_isEnvironment (a : Suited d h) (isEnv : h.IsEnvironment v) :
    Used d h .frame v := by
  rcases isEnv with ⟨bindings, parent, found⟩
  exact a.used_of_environment found

theorem completes_expression (ev : Evaluator) (room : Nat) (a : Orderly d h)
    (isExpr : h.Expression expr) (isEnv : h.IsEnvironment env.value) :
    Completes d h (Unbounded.eval ev room expr env) (ev.eval room expr env)
      fun d₁ h₁ v => Used d₁ h₁ .datum v ∨ Used d₁ h₁ .frame v := by
  have completes := completes_datum ev room a (a.used_of_isEnvironment isEnv)
    (a.datum_of_expression isExpr)
  exact completes.mono fun _ _ _ => .inl

/-! ## The layout of a reached heap -/

theorem exists_orderly_empty (capacity : Nat) : ∃ d, Orderly d (.empty capacity) := by
  refine ⟨fun i => if i = 0 then .frame else .datum,
    ⟨⟨⟨Heap.wellFormed_empty capacity, ?_, 0, ?_⟩, ?_, ?_⟩, ?_⟩⟩
  · intro i o found
    rw [Heap.object?_empty] at found
    match i with
    | 0 =>
        cases found
        exact .root (.nil nofun)
    | 1 =>
        cases found
        exact .plain rfl fun _ => nofun
    | i + 2 => simp at found
  · intro i o k found member
    rw [Heap.object?_empty] at found
    match i with
    | 0 =>
        cases found
        cases member
    | 1 =>
        cases found
        cases member
    | i + 2 => simp at found
  · intro i _ use
    split at use <;> cases use
  · intro i _ use
    split at use <;> cases use
  · intro v root
    rcases root.cases_of_symbols_empty _ rfl rfl with rfl | rfl | member
    · exact .inr (.slot (if_pos rfl))
    · exact .inl (.slot (if_neg (by decide)))
    · cases member

theorem Maintains.heapAfter {ε α : Type} {op : HeapM ε α} {Q : Layout → Heap → α → Prop}
    (m : Maintains d h op Q) : ∃ d', Orderly d' (heapAfter op h) := by
  unfold Maintains at m
  unfold Heap.Operation.heapAfter
  generalize op h = result at m ⊢
  cases m with
  | ok a _ _ => exact ⟨_, a⟩
  | error a _ => exact ⟨_, a⟩

theorem maintains_make (limit : Nat) (a : Orderly d h) :
    Maintains d h (Evaluator.make limit) fun _ _ _ => True := by
  refine .bind (Q := fun _ _ _ => True) ?_ fun _ _ _ a₁ _ _ => .pure a₁ trivial
  refine .bind (maintains_intern a _) fun _ _ _ a₁ _ _ => ?_
  refine .bind (maintains_intern a₁ _) fun _ _ _ a₂ _ _ => ?_
  refine .bind (maintains_intern a₂ _) fun _ _ _ a₃ _ _ => ?_
  refine .bind (maintains_intern a₃ _) fun _ _ _ a₄ _ _ => ?_
  refine .bind (maintains_intern a₄ _) fun _ _ _ a₅ _ _ => ?_
  refine .bind (maintains_intern a₅ _) fun _ _ _ a₆ _ _ => ?_
  exact .pure a₆ trivial

theorem exists_orderly_standard {capacity : Nat} (done : Heap.standard capacity = .ok h) :
    ∃ d, Orderly d h := by
  rcases exists_orderly_empty capacity with ⟨d, a⟩
  have used := a.used_of_isEnvironment (v := (Heap.empty capacity).rootEnv.value) ⟨.nil, none, rfl⟩
  have m := maintains_definePrimitives a used fun p (member : p ∈ Primitive.standard) => member
  unfold Maintains at m
  unfold Heap.standard at done
  dsimp only at done
  generalize (Heap.empty capacity).rootEnv.definePrimitives _ _ = result at m done
  cases m with
  | ok a _ _ =>
      cases done
      exact ⟨_, a⟩
  | error _ _ => cases done

/-- Whatever reading and evaluation have done, the heap is laid out. -/
theorem exists_orderly (reached : Reached h) : ∃ d, Orderly d h := by
  induction reached with
  | empty capacity => exact exists_orderly_empty capacity
  | standard done => exact exists_orderly_standard done
  | read r _ ih =>
      rcases ih with ⟨d, a⟩
      rcases read_kept r a with ⟨d', kept⟩
      exact ⟨d', kept.orderly⟩
  | make limit _ ih =>
      rcases ih with ⟨d, a⟩
      exact (maintains_make limit a).heapAfter
  | eval ev room _ isExpr isEnv ih =>
      rcases ih with ⟨d, a⟩
      exact (completes_expression ev room a isExpr isEnv).maintains.heapAfter
  | root _ isExpr ih =>
      rcases ih with ⟨d, a⟩
      exact ⟨d, a.addRoot (a.used_of_expression isExpr)⟩
  | truncateRoots height _ ih =>
      rcases ih with ⟨d, a⟩
      exact ⟨d, a.truncateRoots height⟩
  | pin _ isExpr ih =>
      rcases ih with ⟨d, a⟩
      exact ⟨d, a.pin (a.used_of_expression isExpr)⟩
  | repin p _ isExpr ih =>
      rcases ih with ⟨d, a⟩
      exact ⟨d, a.repin p (a.used_of_expression isExpr)⟩
  | unpin p _ ih =>
      rcases ih with ⟨d, a⟩
      exact ⟨d, a.unpin p⟩
  | collect _ ih =>
      rcases ih with ⟨d, a⟩
      exact ⟨d, a.collect⟩

end Termination

/-! ## Evaluation ends -/

open Termination

/-- What has been read is an expression. -/
theorem Reached.expression_of_read {h : Heap} (reached : Reached h) (r : Reader) {v : Value}
    (found : (r.read h).outcome = .ok (some v)) : (r.read h).heap.Expression v := by
  rcases exists_orderly reached with ⟨d, a⟩
  rcases read_kept r a with ⟨d', kept⟩
  exact kept.orderly.expression (.inl (kept.used v found))

/-- What an expression refers to is an expression, but for the bindings of an environment. -/
theorem Reached.expression_of_reference {h : Heap} (reached : Reached h) {v w : Value}
    {o : Object} (isExpr : h.Expression v) (found : h.object? v = some o)
    (member : w ∈ o.references)
    (outside : ∀ bindings parent, o = .environment bindings parent → w ≠ bindings) :
    h.Expression w := by
  rcases exists_orderly reached with ⟨d, a⟩
  exact a.expression_of_reference isExpr found member outside

/-- The value of a symbol is an expression. -/
theorem Reached.expression_of_lookup {h : Heap} (reached : Reached h) {env : Env}
    {symbol v : Value} (isEnv : h.IsEnvironment env.value)
    (found : env.lookup h symbol = .ok v) : h.Expression v := by
  rcases exists_orderly reached with ⟨d, a⟩
  exact a.expression (.inl (a.lookup_used (a.used_of_isEnvironment isEnv) found))

/-- A heap on which the text `(())` has been read, after an evaluator has been made. -/
def Heap.nested : Heap :=
  Reading.heap <| Reader.read
    { lexemes := [⟨.opening, "(", ⟨0, 1⟩⟩, ⟨.opening, "(", ⟨1, 2⟩⟩, ⟨.closing, ")", ⟨2, 3⟩⟩,
        ⟨.closing, ")", ⟨3, 4⟩⟩]
      offset := 0
      size := 4 } (.withSymbols 16 Evaluator.formNames)

theorem reached_made : Reached (.withSymbols 16 Evaluator.formNames) := by
  have reached := Reached.make 9 (.empty 16)
  unfold heapAfter at reached
  rwa [Evaluator.make_empty 9 (by decide)] at reached

theorem Heap.expression_nested : Heap.nested.Expression (.slot 8) :=
  Reached.expression_of_read reached_made _ (by rfl)

end Lisplet
