import Lisplet.Proofs.Forms
import Lisplet.Proofs.Heap.Furnishing
import Mathlib.Logic.Relation

/-!
# Propagation — the first error wins

`Enters ev whole part` says that the evaluation `whole` comes to evaluate a part of its expression,
everything before it having a value that is no error, and that `part` is the evaluation of that
part, on the heap that it finds. There is one constructor for each position that is evaluated. If
what is entered ends with an error value, so does the whole, with the same handle and on the same
heap, but for the roots that the whole lets go (`Enters.outcome_eq`); and so along any number of
such steps (`first_error_wins`).
-/

namespace Lisplet.Evaluator

open Relation (ReflTransGen)

/-! ## Checked values -/

section Checks

variable {α : Type} {op : HeapM Fatal Value} {v : Value} {h after : Heap}

/-- Once a part has a value, it depends on that value whether the form goes on. -/
theorem checked_apply (done : op h = .ok v after) (stop next : Value → HeapM Fatal α) :
    (op >>= fun v => get >>= fun h => if h.isError v then stop v else next v) h =
      if after.isError v then stop v after else next v after := by
  simp only [Bind.bind, EStateM.bind, done]
  exact ite_apply _ _ _ _

/-- An error ends the form. -/
theorem checked_of_error (done : op h = .ok v after) (isError : after.isError v = true)
    (stop next : Value → HeapM Fatal α) :
    (op >>= fun v => get >>= fun h => if h.isError v then stop v else next v) h =
      stop v after := (checked_apply done stop next).trans (if_pos isError)

/-- Anything else lets it go on. -/
theorem checked_of_fine (done : op h = .ok v after) (fine : after.isError v = false)
    (stop next : Value → HeapM Fatal α) :
    (op >>= fun v => get >>= fun h => if h.isError v then stop v else next v) h =
      next v after := (checked_apply done stop next).trans (if_neg (by simp [fine]))

/-- If the form has gone on or has ended, then the part has a value. -/
theorem exists_of_checked {a : α} {stop next : Value → HeapM Fatal α} {h' : Heap}
    (ends : (op >>= fun v => get >>= fun h => if h.isError v then stop v else next v) h =
      .ok a h') :
    ∃ v after, op h = .ok v after ∧
      ((after.isError v = true ∧ stop v after = .ok a h') ∨
        (after.isError v = false ∧ next v after = .ok a h')) := by
  rcases HeapM.exists_of_bind ends with ⟨v, after, done, -⟩
  refine ⟨v, after, done, ?_⟩
  rw [checked_apply done] at ends
  cases isError : after.isError v with
  | true =>
      rw [if_pos isError] at ends
      exact .inl ⟨rfl, ends⟩
  | false =>
      rw [if_neg (by simp [isError])] at ends
      exact .inr ⟨rfl, ends⟩

end Checks

/-! ## Walks along lists -/

/--
A walk of so many steps along a list comes to `part`, which is to be evaluated on `h'`. The parts
before it have values that are no errors, and `keep` is what is done with each of these.
-/
inductive ComesTo (evaluate : Value → HeapM Fatal Value) (keep : Heap → Value → Heap)
    (part : Value) (h' : Heap) : (steps : Nat) → (list : Value) → Heap → Prop where
  | here {steps : Nat} {list rest : Value} : h'.pair? list = some (part, rest) →
      ComesTo evaluate keep part h' (steps + 1) list h'
  | later {steps : Nat} {list first rest value : Value} {h h₁ : Heap} :
      h.pair? list = some (first, rest) → evaluate first h = .ok value h₁ →
        h₁.isError value = false → ComesTo evaluate keep part h' steps rest (keep h₁ value) →
          ComesTo evaluate keep part h' (steps + 1) list h

/-- The values of a sequence are not kept. -/
def unkept (h : Heap) (_ : Value) : Heap := h

namespace ComesTo

variable {evaluate : Value → HeapM Fatal Value} {part list error : Value} {steps : Nat}
  {h h' after : Heap}

/-- A sequence ends with the first error. -/
theorem sequenceWith_eq (comes : ComesTo evaluate unkept part h' steps list h)
    (done : evaluate part h' = .ok error after) (isError : after.isError error = true)
    (result : Value) : sequenceWith evaluate result steps list h = .ok error after := by
  -- Induction on the walk; the parts before the error are passed one by one.
  induction comes generalizing result with
  | here pair =>
      rw [sequenceWith, get_bind_apply, pair]
      exact checked_of_error done isError pure _
  | later pair first fine _ ih =>
      rw [sequenceWith, get_bind_apply, pair]
      exact (checked_of_fine first fine pure _).trans (ih _)

/-- So does a list of operands, whatever values have been found before. -/
theorem operandsWith_eq (comes : ComesTo evaluate Heap.addRoot part h' steps list h)
    (done : evaluate part h' = .ok error after) (isError : after.isError error = true)
    (found : List Value) :
    operandsWith evaluate found steps list h = .ok (.failed error) after := by
  induction comes generalizing found with
  | here pair =>
      rw [operandsWith, get_bind_apply, pair]
      exact checked_of_error done isError (fun v => pure (Operands.failed v)) _
  | later pair first fine _ ih =>
      rw [operandsWith, get_bind_apply, pair]
      exact (checked_of_fine first fine (fun v => pure (Operands.failed v)) _).trans (ih _)

end ComesTo

/-! ## What is entered -/

section Entering

variable (ev : Evaluator)

/--
All parts of an application have values that are no errors, so that `function` is about to be
applied to the list `args`.
-/
structure Calls (whole : Evaluating) (room : Nat) (function args : Value) (h' : Heap) : Prop where
  parts : ∃ head operands found h₁ h₂, ev.Compound whole .application head operands ∧
    ev.eval room head whole.env whole.opened = .ok function h₁ ∧ h₁.isError function = false ∧
    operandsWith (fun part => ev.eval room part whole.env) [] Value.maxSlots operands
      (h₁.addRoot function) = .ok (.values found) h₂ ∧
    HeapM.list found.reverse h₂ = .ok args h'

/--
The first evaluation comes to the second one, that of a part: of the operator or an operand; of the
test of a conditional or the branch that is chosen; of the value of an assignment or a definition;
of a part of a sequence, or of the body of the procedure that is called.
-/
inductive Enters (whole : Evaluating) : Evaluating → Prop where
  | operator {room : Nat} {head operands : Value} :
      ev.Compound whole .application head operands → whole.room = room + 1 →
        Enters whole ⟨room, head, whole.env, whole.opened⟩
  | operand {room : Nat} {head operands function part : Value} {h₁ h' : Heap} :
      ev.Compound whole .application head operands → whole.room = room + 1 →
      ev.eval room head whole.env whole.opened = .ok function h₁ → h₁.isError function = false →
      ComesTo (fun part => ev.eval room part whole.env) Heap.addRoot part h' Value.maxSlots operands
        (h₁.addRoot function) →
        Enters whole ⟨room, part, whole.env, h'⟩
  | test {room : Nat} {head operands test consequent : Value} {alternative : Option Value} :
      ev.Compound whole .conditional head operands → whole.room = room + 1 →
      whole.heap.items? operands = some (test :: consequent :: alternative.toList) →
        Enters whole ⟨room, test, whole.env, whole.opened⟩
  | consequent {room i : Nat} {head operands test consequent : Value} {alternative : Option Value}
      {h₁ : Heap} :
      ev.Compound whole .conditional head operands → whole.room = room + 1 →
      whole.heap.items? operands = some (test :: consequent :: alternative.toList) →
      ev.eval room test whole.env whole.opened = .ok (.slot i) h₁ → h₁.isError (.slot i) = false →
        Enters whole ⟨room, consequent, whole.env, h₁⟩
  | alternative {room : Nat} {head operands test consequent alternative : Value} {h₁ : Heap} :
      ev.Compound whole .conditional head operands → whole.room = room + 1 →
      whole.heap.items? operands = some [test, consequent, alternative] →
      ev.eval room test whole.env whole.opened = .ok .nil h₁ →
        Enters whole ⟨room, alternative, whole.env, h₁⟩
  | assigned {room : Nat} {head operands target source : Value} :
      ev.Compound whole .assignment head operands → whole.room = room + 1 →
      whole.heap.items? operands = some [target, source] → whole.heap.isSymbol target = true →
        Enters whole ⟨room, source, whole.env, whole.opened⟩
  | defined {room : Nat} {head operands target rest source : Value} :
      ev.Compound whole .definition head operands → whole.room = room + 1 →
      whole.heap.pair? operands = some (target, rest) → whole.heap.items? rest = some [source] →
      whole.heap.isSymbol target = true →
        Enters whole ⟨room, source, whole.env, whole.opened⟩
  | step {room : Nat} {head operands part : Value} {h' : Heap} :
      ev.Compound whole .sequence head operands → whole.room = room + 1 →
      ComesTo (fun part => ev.eval room part whole.env) unkept part h' Value.maxSlots operands
        whole.opened →
        Enters whole ⟨room, part, whole.env, h'⟩
  | body {room : Nat} {function args params body part : Value} {captured outer inner : Env}
      {h₁ h₂ h' : Heap} :
      ev.Calls whole (room + 1) function args h₁ → whole.room = room + 2 →
      h₁.object? function = some (.procedure params body captured) →
      h₁.env? captured.value = some outer →
      outer.extend params args ((h₁.addRoot function).addRoot args) = .ok (.ok inner) h₂ →
      ComesTo (fun part => ev.eval room part inner) unkept part h' Value.maxSlots body
        (h₂.addRoot inner.value) →
        Enters whole ⟨room, part, inner, h'⟩

end Entering

/-! ## One step -/

section Forms

variable {evaluate : Value → HeapM Fatal Value}
  {expr operands error test consequent : Value} {env : Env} {h after : Heap}

theorem choose_of_error (done : evaluate test h = .ok error after)
    (isError : after.isError error = true) (alternative : Option Value) :
    choose evaluate test consequent alternative h = .ok error after :=
  checked_of_error done isError pure _

/-- The conditional has two or three operands. -/
theorem ifForm_eq (alternative : Option Value)
    (shape : h.items? operands = some (test :: consequent :: alternative.toList)) :
    ifForm evaluate expr operands h = choose evaluate test consequent alternative h := by
  rw [ifForm, get_bind_apply, shape]
  cases alternative with
  | none => rfl
  | some _ => rfl

theorem setForm_of_error {target source : Value} (shape : h.items? operands = some [target, source])
    (isSymbol : h.isSymbol target = true) (done : evaluate source h = .ok error after)
    (isError : after.isError error = true) :
    setForm evaluate expr operands env h = .ok error after := by
  simp only [setForm, get_bind_apply, shape, isSymbol, if_true]
  exact checked_of_error done isError pure _

/-- A symbol is no pair, so the definition is not one of a procedure. -/
theorem defineForm_of_error {target rest source : Value}
    (shape : h.pair? operands = some (target, rest)) (isSymbol : h.isSymbol target = true)
    (value : h.items? rest = some [source]) (done : evaluate source h = .ok error after)
    (isError : after.isError error = true) :
    defineForm evaluate expr operands env h = .ok error after := by
  have plain : h.pair? target = none := Heap.pair?_of_isSymbol isSymbol
  simp only [defineForm, get_bind_apply, shape, plain, value, isSymbol, if_true]
  exact checked_of_error done isError pure _

end Forms

section Steps

variable {ev : Evaluator} {whole part : Evaluating} {error : Value} {after : Heap}

/-- The operator of an application is evaluated first. -/
theorem work_of_operator_error {room : Nat} {expr head operands : Value} {env : Env} {h : Heap}
    (done : ev.eval room head env h = .ok error after) (isError : after.isError error = true) :
    ev.work room .application expr head operands env h = .ok error after :=
  checked_of_error done isError pure _

/-- Then come the operands, on a heap on which its value is rooted. -/
theorem work_of_operator {room : Nat} {expr head operands function : Value} {env : Env}
    {h h₁ : Heap} (done : ev.eval room head env h = .ok function h₁)
    (fine : h₁.isError function = false) :
    ev.work room .application expr head operands env h =
      (operandsWith (fun part => ev.eval room part env) [] Value.maxSlots operands >>= fun
        | .values found => do ev.apply room function (← HeapM.list found.reverse)
        | .failed error => pure error
        | .improper => HeapM.malformed "application" expr : HeapM Fatal Value)
          (h₁.addRoot function) :=
  checked_of_fine done fine pure _

/-- An error in the body of a procedure ends its call. -/
theorem apply_of_error {room : Nat} {function args params body : Value} {captured outer inner : Env}
    {h h₁ h' : Heap} (procedure : h.object? function = some (.procedure params body captured))
    (isEnv : h.env? captured.value = some outer)
    (extends' : outer.extend params args ((h.addRoot function).addRoot args) = .ok (.ok inner) h₁)
    (comes : ComesTo (fun part => ev.eval room part inner) unkept part.expr h' Value.maxSlots body
      (h₁.addRoot inner.value))
    (done : ev.eval room part.expr inner h' = .ok error after)
    (isError : after.isError error = true) :
    ev.apply (room + 1) function args h = .ok error (after.truncateRoots h.roots.length) := by
  unfold apply
  rw [get_bind_apply, procedure]
  dsimp only
  rw [get_bind_apply, isEnv]
  refine HeapM.scope_ok ?_
  show (outer.extend params args >>= _ : HeapM Fatal Value) ((h.addRoot function).addRoot args) = _
  simp only [Bind.bind, EStateM.bind, extends']
  exact comes.sequenceWith_eq done isError .nil

/-- If the part ends with an error, so does the whole; the heap has only other roots. -/
theorem Enters.exists_roots (enters : ev.Enters whole part)
    (done : ev.outcome part = .ok error after) (isError : after.isError error = true) :
    ∃ roots, ev.outcome whole = .ok error { after with roots } := by
  -- One case for each position: what stands in front of it has been passed.
  cases enters with
  | operator c enough => exact ⟨_, c.outcome_of_work enough (work_of_operator_error done isError)⟩
  | operand c enough first fine comes =>
      refine ⟨_, c.outcome_of_work enough ((work_of_operator first fine).trans ?_)⟩
      simp only [Bind.bind, EStateM.bind, comes.operandsWith_eq done isError]
      rfl
  | test c enough shape =>
      refine ⟨_, c.outcome_of_work enough ?_⟩
      exact (ifForm_eq _ (Evaluating.items?_opened_eq_some shape)).trans
        (choose_of_error done isError _)
  | consequent c enough shape first fine =>
      refine ⟨_, c.outcome_of_work enough ?_⟩
      refine (ifForm_eq _ (Evaluating.items?_opened_eq_some shape)).trans ?_
      exact (checked_of_fine first fine pure _).trans done
  | @alternative room head operands test consequent _ h₁ c enough shape first =>
      refine ⟨_, c.outcome_of_work enough ?_⟩
      refine (ifForm_eq (some _) (Evaluating.items?_opened_eq_some shape)).trans ?_
      exact (checked_of_fine first rfl pure _).trans done
  | assigned c enough shape symbol =>
      refine ⟨_, c.outcome_of_work enough ?_⟩
      exact setForm_of_error (Evaluating.items?_opened_eq_some shape)
        ((whole.isSymbol_opened _).trans symbol) done isError
  | defined c enough shape value symbol =>
      refine ⟨_, c.outcome_of_work enough ?_⟩
      exact defineForm_of_error ((whole.pair?_opened _).trans shape)
        ((whole.isSymbol_opened _).trans symbol) (Evaluating.items?_opened_eq_some value) done
        isError
  | step c enough comes =>
      exact ⟨_, c.outcome_of_work enough (comes.sequenceWith_eq done isError .nil)⟩
  | @body room function args _ _ _ _ _ _ h₁ _ _ calls enough procedure isEnv extends' comes =>
      rcases calls.parts with ⟨head, operands, found, h₂, h₃, c, first, fine, values, list⟩
      -- The call lets its own roots go before the application does.
      have called := apply_of_error procedure isEnv extends' comes done isError
      have worked : ev.work (room + 1) .application whole.expr head operands whole.env
          whole.opened = .ok error (after.truncateRoots h₁.roots.length) := by
        rw [work_of_operator first fine]
        simp only [Bind.bind, EStateM.bind, values, list]
        exact called
      have ends := c.outcome_of_work enough worked
      exact ⟨_, ends⟩

/-- The roots that are left are those that the whole has found. -/
theorem Enters.outcome_eq (enters : ev.Enters whole part)
    (done : ev.outcome part = .ok error after) (isError : after.isError error = true) :
    ev.outcome whole = .ok error { after with roots := whole.heap.roots } := by
  rcases enters.exists_roots done isError with ⟨roots, ends⟩
  have same : roots = whole.heap.roots := roots_of_outcome ends
  rw [ends, same]

end Steps

/-! ## Any number of steps -/

/--
If evaluation comes from part to part, nested to any depth, to one that ends with an error value,
then it ends with that same value, and on the heap that was left when the error came about, but for
the roots. So nothing after the error is evaluated, bound, set, applied or allocated.
-/
theorem first_error_wins (ev : Evaluator) {whole part : Evaluating}
    (enters : ReflTransGen ev.Enters whole part) {error : Value} {after : Heap}
    (done : ev.outcome part = .ok error after) (isError : after.isError error = true) :
    ev.outcome whole = .ok error { after with roots := whole.heap.roots } := by
  -- Induction from the inside out: the error passes through one expression after the other.
  induction enters using ReflTransGen.head_induction_on with
  | refl =>
      have same : after.roots = part.heap.roots := roots_of_outcome done
      rw [done, ← same]
  | head enters _ ih =>
      have ends := enters.outcome_eq ih isError
      exact ends

/--
The symbol `u`, which is not bound, is in the slot 8, and the slot 12 has the expression
`(begin (u) u)`.
-/
def mishap : Heap :=
  (Heap.withSymbols 16 (formNames ++ ["u"])).withPairs
    [(.slot 8, .nil), (.slot 8, .nil), (.slot 9, .slot 10), (.slot 7, .slot 11)]

/-- The evaluation of the whole expression, and that of its first part. -/
def mishaps : Evaluating × Evaluating :=
  let whole : Evaluating := ⟨9, .slot 12, ⟨.slot 0⟩, mishap⟩
  (whole, ⟨8, .slot 9, ⟨.slot 0⟩, whole.opened⟩)

/-- The operator of the first part is unbound, so the sequence ends with that error. -/
theorem first_error_wins_mishap :
    ∃ after : Heap, after.isError (.slot 13) = true ∧
      outcome ⟨firstForms, 9⟩ mishaps.1 =
        .ok (.slot 13) { after with roots := mishap.roots } := by
  have sequence : Compound ⟨firstForms, 9⟩ mishaps.1 .sequence (.slot 7) (.slot 11) :=
    ⟨by decide +kernel, nofun, rfl⟩
  have call : Compound ⟨firstForms, 9⟩ mishaps.2 .application (.slot 8) .nil :=
    ⟨by decide +kernel, nofun, rfl⟩
  have pair : mishaps.1.opened.pair? (.slot 11) = some (.slot 9, .slot 10) := by decide +kernel
  have first : Enters ⟨firstForms, 9⟩ mishaps.1 mishaps.2 := .step sequence rfl (.here pair)
  have second : Enters ⟨firstForms, 9⟩ mishaps.2 ⟨7, .slot 8, ⟨.slot 0⟩, mishaps.2.opened⟩ :=
    .operator call rfl
  have fails : (match outcome ⟨firstForms, 9⟩ ⟨7, .slot 8, ⟨.slot 0⟩, mishaps.2.opened⟩ with
      | .ok v after => (v, after.isError v)
      | .error _ _ => (.nil, false)) = (.slot 13, true) := by decide +kernel
  cases done : outcome ⟨firstForms, 9⟩ ⟨7, .slot 8, ⟨.slot 0⟩, mishaps.2.opened⟩ with
  | error e after =>
      rw [done] at fails
      cases fails
  | ok v after =>
      rw [done] at fails
      rcases Prod.mk.inj fails with ⟨rfl, isError⟩
      exact ⟨after, isError,
        first_error_wins ⟨firstForms, 9⟩ (.head first (.single second)) done isError⟩

end Lisplet.Evaluator
