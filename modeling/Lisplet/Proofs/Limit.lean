import Lisplet.Evaluator
import Lisplet.Proofs.Heap.Furnishing

/-!
# Limit — how deep evaluation may nest decides only whether it is cut off

An evaluation that does not reach its limit gives the same result at every greater limit, in the
same slots, and leaves the same heap. `Extends op op'` says that `op'` does what `op` does unless
`op` is cut off. The rules follow the way operations are put together; in particular the room that
an evaluation has taken is given back however it ends, so that what comes after it has as much
room as before.
-/

namespace Lisplet

/-- Whether an evaluation has ended because too many others were nested in it. -/
def CutOff {α : Type} (result : EStateM.Result Fatal Heap α) : Prop :=
  ∃ limit h, result = .error (.recursionLimit limit) h

instance {α : Type} (result : EStateM.Result Fatal Heap α) : Decidable (CutOff result) :=
  match result with
  | .error (.recursionLimit limit) h => isTrue ⟨limit, h, rfl⟩
  | .error (.outOfMemory _ _) _ => isFalse nofun
  | .error (.exit _) _ => isFalse nofun
  | .ok _ _ => isFalse nofun

/-- Unless the first operation is cut off, the second does the same. -/
def Extends {α : Type} (op op' : HeapM Fatal α) : Prop := ∀ h, CutOff (op h) ∨ op' h = op h

namespace Extends

variable {α β : Type} {op op' : HeapM Fatal α}

theorem refl (op : HeapM Fatal α) : Extends op op := fun _ => .inr rfl

theorem cut (limit : Nat) (op : HeapM Fatal α) : Extends (throw (.recursionLimit limit)) op :=
  fun h => .inl ⟨limit, h, rfl⟩

theorem get_bind {f f' : Heap → HeapM Fatal β} (extends' : ∀ h, Extends (f h) (f' h)) :
    Extends (get >>= f) (get >>= f') := fun h => extends' h h

theorem bind {next next' : α → HeapM Fatal β} (first : Extends op op')
    (rest : ∀ a, Extends (next a) (next' a)) : Extends (op >>= next) (op' >>= next') := by
  intro h
  simp only [Bind.bind, EStateM.bind]
  rcases first h with ⟨limit, h₁, cut⟩ | same
  · rw [cut]
    exact .inl ⟨limit, h₁, rfl⟩
  · rw [same]
    cases op h with
    | error e h₁ => exact .inr rfl
    | ok a h₁ => exact rest a h₁

/-- The roots are dropped above the same height, whether the body is cut off or not. -/
theorem scope (body : Extends op op') : Extends (HeapM.scope op) (HeapM.scope op') := by
  intro h
  unfold HeapM.scope
  rcases body h with ⟨limit, h₁, cut⟩ | same
  · rw [cut]
    exact .inl ⟨limit, _, rfl⟩
  · rw [same]
    exact .inr rfl

theorem ite {c : Prop} [Decidable c] {yes yes' no no' : HeapM Fatal α}
    (ifTrue : Extends yes yes') (ifFalse : Extends no no') :
    Extends (if c then yes else no) (if c then yes' else no') := by
  by_cases holds : c
  · rw [if_pos holds, if_pos holds]
    exact ifTrue
  · rw [if_neg holds, if_neg holds]
    exact ifFalse

end Extends

namespace Evaluator

/-! ## Loops -/

section Loops

variable {evaluate evaluate' : Value → HeapM Fatal Value}

theorem sequenceWith_extends (parts : ∀ part, Extends (evaluate part) (evaluate' part))
    (steps : Nat) (result list : Value) :
    Extends (sequenceWith evaluate result steps list)
      (sequenceWith evaluate' result steps list) := by
  induction steps generalizing result list with
  | zero => exact .refl _
  | succ steps ih =>
      refine .get_bind fun h => ?_
      cases h.pair? list with
      | none => exact .refl _
      | some pair =>
          refine .bind (parts pair.1) fun result => .get_bind fun h => ?_
          exact .ite (.refl _) (ih result pair.2)

theorem operandsWith_extends (parts : ∀ part, Extends (evaluate part) (evaluate' part))
    (steps : Nat) (found : List Value) (list : Value) :
    Extends (operandsWith evaluate found steps list) (operandsWith evaluate' found steps list) := by
  induction steps generalizing found list with
  | zero => exact .refl _
  | succ steps ih =>
      refine .get_bind fun h => ?_
      cases h.pair? list with
      | none => exact .refl _
      | some pair =>
          refine .bind (parts pair.1) fun value => .get_bind fun h => .ite (.refl _) ?_
          exact .bind (.refl _) fun _ => ih (value :: found) pair.2

end Loops

/-! ## Special forms -/

section Forms

variable {evaluate evaluate' : Value → HeapM Fatal Value}

theorem choose_extends (parts : ∀ part, Extends (evaluate part) (evaluate' part))
    (test consequent : Value) (alternative : Option Value) :
    Extends (choose evaluate test consequent alternative)
      (choose evaluate' test consequent alternative) := by
  refine .bind (parts test) fun outcome => .get_bind fun h => .ite (.refl _) ?_
  cases outcome with
  | slot i => exact parts consequent
  | nil =>
      cases alternative with
      | none => exact .refl _
      | some alternative => exact parts alternative

theorem ifForm_extends (parts : ∀ part, Extends (evaluate part) (evaluate' part))
    (expr operands : Value) :
    Extends (ifForm evaluate expr operands) (ifForm evaluate' expr operands) := by
  refine .get_bind fun h => ?_
  split
  · exact choose_extends parts _ _ none
  · exact choose_extends parts _ _ (some _)
  · exact .refl _

theorem setForm_extends (parts : ∀ part, Extends (evaluate part) (evaluate' part))
    (expr operands : Value) (env : Env) :
    Extends (setForm evaluate expr operands env) (setForm evaluate' expr operands env) := by
  refine .get_bind fun h => ?_
  split
  · refine .get_bind fun h => .ite ?_ (.refl _)
    exact .bind (parts _) fun value => .refl _
  · exact .refl _

theorem defineForm_extends (parts : ∀ part, Extends (evaluate part) (evaluate' part))
    (expr operands : Value) (env : Env) :
    Extends (defineForm evaluate expr operands env) (defineForm evaluate' expr operands env) := by
  refine .get_bind fun h => ?_
  cases h.pair? operands with
  | none => exact .refl _
  | some pair =>
      refine .get_bind fun h => ?_
      cases h.pair? pair.1 with
      | some _ => exact .refl _
      | none =>
          refine .get_bind fun h => ?_
          split
          · refine .get_bind fun h => .ite ?_ (.refl _)
            exact .bind (parts _) fun value => .refl _
          · exact .refl _

theorem application_extends {apply apply' : Value → Value → HeapM Fatal Value}
    (parts : ∀ part, Extends (evaluate part) (evaluate' part))
    (applies : ∀ f args, Extends (apply f args) (apply' f args)) (expr head operands : Value) :
    Extends (application evaluate apply expr head operands)
      (application evaluate' apply' expr head operands) := by
  refine .bind (parts head) fun function => .get_bind fun h => .ite (.refl _) ?_
  refine .bind (.refl _) fun _ => ?_
  refine .bind (operandsWith_extends parts _ _ _) fun operands => ?_
  cases operands with
  | values found => exact .bind (.refl _) fun args => applies function args
  | failed error => exact .refl _
  | improper => exact .refl _

end Forms

/-! ## Evaluation and application -/

section Rooms

variable {forms : Forms} {d d' : Nat}

/-- With more room left evaluation goes on in the same way, if it does with the room inside it. -/
theorem eval_extends {room room' : Nat} (le : room ≤ room')
    (evaluates : ∀ r r', room = r + 1 → room' = r' + 1 → ∀ expr env,
      Extends (eval ⟨forms, d⟩ r expr env) (eval ⟨forms, d'⟩ r' expr env))
    (applies : ∀ r r', room = r + 1 → room' = r' + 1 → ∀ f args,
      Extends (apply ⟨forms, d⟩ r f args) (apply ⟨forms, d'⟩ r' f args))
    (expr : Value) (env : Env) :
    Extends (eval ⟨forms, d⟩ room expr env) (eval ⟨forms, d'⟩ room' expr env) := by
  unfold eval
  refine .get_bind fun h => .ite (.refl _) (.ite (.refl _) ?_)
  cases h.pair? expr with
  | none => exact .refl _
  | some pair =>
      cases room with
      | zero => exact .cut d _
      | succ r =>
          rcases Nat.exists_eq_add_of_lt le with ⟨more, rfl⟩
          have parts : ∀ part, Extends (eval ⟨forms, d⟩ r part env)
              (eval ⟨forms, d'⟩ (r + more) part env) := fun part =>
            evaluates r (r + more) rfl rfl part env
          refine .scope (.bind (.refl _) fun _ => .bind (.refl _) fun _ => ?_)
          refine .ite (.refl _) ?_
          refine .ite (ifForm_extends parts _ _) ?_
          refine .ite (setForm_extends parts _ _ _) ?_
          refine .ite (defineForm_extends parts _ _ _) ?_
          refine .ite (.refl _) ?_
          refine .ite (sequenceWith_extends parts _ _ _) ?_
          exact application_extends parts (applies r (r + more) rfl rfl) _ _ _

theorem apply_extends {room room' : Nat} (le : room ≤ room')
    (evaluates : ∀ r r', room = r + 1 → room' = r' + 1 → ∀ expr env,
      Extends (eval ⟨forms, d⟩ r expr env) (eval ⟨forms, d'⟩ r' expr env)) (f args : Value) :
    Extends (apply ⟨forms, d⟩ room f args) (apply ⟨forms, d'⟩ room' f args) := by
  unfold apply
  refine .get_bind fun h => ?_
  cases h.object? f with
  | none => exact .refl _
  | some o =>
      cases o with
      | procedure params body captured =>
          refine .get_bind fun h => ?_
          cases h.env? captured.value with
          | none => exact .refl _
          | some captured =>
              cases room with
              | zero => exact .cut d _
              | succ r =>
                  rcases Nat.exists_eq_add_of_lt le with ⟨more, rfl⟩
                  refine .scope (.bind (.refl _) fun _ => .bind (.refl _) fun _ => ?_)
                  refine .bind (.refl _) fun extended => ?_
                  cases extended with
                  | error e => exact .refl _
                  | ok env =>
                      refine .bind (.refl _) fun _ => ?_
                      exact sequenceWith_extends (fun part =>
                        evaluates r (r + more) rfl rfl part env) _ _ _
      | _ => exact .refl _

/-- Neither the limit nor the room that is left matters, unless it is used up. -/
theorem extends_of_le {room room' : Nat} (le : room ≤ room') :
    (∀ expr env, Extends (eval ⟨forms, d⟩ room expr env) (eval ⟨forms, d'⟩ room' expr env)) ∧
      ∀ f args, Extends (apply ⟨forms, d⟩ room f args) (apply ⟨forms, d'⟩ room' f args) := by
  -- Induction on the smaller room, for evaluation and application together.
  induction room generalizing room' with
  | zero => exact ⟨eval_extends le nofun nofun, apply_extends le nofun⟩
  | succ room ih =>
      have evaluates : ∀ r r', room + 1 = r + 1 → room' = r' + 1 → ∀ expr env,
          Extends (eval ⟨forms, d⟩ r expr env) (eval ⟨forms, d'⟩ r' expr env) := by
        rintro r r' ⟨⟩ rfl
        exact (ih (Nat.le_of_succ_le_succ le)).1
      have applies : ∀ r r', room + 1 = r + 1 → room' = r' + 1 → ∀ f args,
          Extends (apply ⟨forms, d⟩ r f args) (apply ⟨forms, d'⟩ r' f args) := by
        rintro r r' ⟨⟩ rfl
        exact (ih (Nat.le_of_succ_le_succ le)).2
      exact ⟨eval_extends le evaluates applies, apply_extends le evaluates⟩

end Rooms

/--
A limit decides only whether evaluation is cut off. If it is not, then at every greater limit the
outcome is the same: the same value or the same failure, and the same heap in all its parts.
-/
theorem evaluate_eq_of_le (forms : Forms) {d d' : Nat} (le : d ≤ d') (expr : Value) (env : Env)
    (h : Heap) (notCut : ¬ CutOff (evaluate ⟨forms, d⟩ expr env h)) :
    evaluate ⟨forms, d'⟩ expr env h = evaluate ⟨forms, d⟩ expr env h :=
  ((extends_of_le le).1 expr env h).resolve_left notCut

/-- A heap with the expression `(begin (begin))` in its slot 10. -/
def doublyNested : Heap :=
  (Heap.withSymbols 16 formNames).withPairs
    [(.slot 7, .nil), (.slot 8, .nil), (.slot 7, .slot 9)]

/-- The expression takes two levels, so a limit of one cuts it off and a third changes nothing. -/
theorem evaluate_eq_of_le_doublyNested :
    CutOff (evaluate ⟨firstForms, 1⟩ (.slot 10) ⟨.slot 0⟩ doublyNested) ∧ 2 ≤ 3 ∧
      ¬ CutOff (evaluate ⟨firstForms, 2⟩ (.slot 10) ⟨.slot 0⟩ doublyNested) ∧
      evaluate ⟨firstForms, 3⟩ (.slot 10) ⟨.slot 0⟩ doublyNested =
        evaluate ⟨firstForms, 2⟩ (.slot 10) ⟨.slot 0⟩ doublyNested := by
  have notCut : ¬ CutOff (evaluate ⟨firstForms, 2⟩ (.slot 10) ⟨.slot 0⟩ doublyNested) := by
    decide +kernel
  exact ⟨by decide +kernel, by decide, notCut,
    evaluate_eq_of_le firstForms (by decide) _ _ _ notCut⟩

end Evaluator

end Lisplet
