import Lisplet.Evaluator
import Lisplet.Proofs.Simulation.Calling

/-!
# Evaluation — expressions that correspond have corresponding values

Each special form and each loop of the evaluator agrees on corresponding heaps if the evaluation
of parts does; so evaluation and application agree by induction on the room that is left. What a
form still needs after a part has been evaluated must be kept meanwhile: the expression and the
environment are rooted by the evaluation they belong to, and values by the form that needs them.
-/

namespace Lisplet

namespace Simulation

open Evaluator

/-! ## What is kept during an evaluation -/

/-- Evaluators with the same limit, whose form symbols are twins. -/
structure Settled (ev ev' : Evaluator) (ρ : Pairing) (h : Heap) : Prop where
  limit_eq : ev'.limit = ev.limit
  quote : Kept ρ h .datum ev.forms.quote ev'.forms.quote
  conditional : Kept ρ h .datum ev.forms.conditional ev'.forms.conditional
  assignment : Kept ρ h .datum ev.forms.assignment ev'.forms.assignment
  definition : Kept ρ h .datum ev.forms.definition ev'.forms.definition
  abstraction : Kept ρ h .datum ev.forms.abstraction ev'.forms.abstraction
  sequence : Kept ρ h .datum ev.forms.sequence ev'.forms.sequence

/-- Evaluators and environments in which parts of a form are evaluated. -/
structure Setting (ev ev' : Evaluator) (env env' : Env) (ρ : Pairing) (h : Heap) : Prop where
  settled : Settled ev ev' ρ h
  env : Kept ρ h .frame env.value env'.value

variable {ev ev' : Evaluator} {env env' : Env} {ρ σ : Pairing} {h h' h₁ : Heap}
  {v v' expr expr' operands operands' : Value}

theorem Retains.settled (k : Retains ρ h σ h₁) (settled : Settled ev ev' ρ h) :
    Settled ev ev' σ h₁ where
  limit_eq := settled.limit_eq
  quote := k.kept settled.quote
  conditional := k.kept settled.conditional
  assignment := k.kept settled.assignment
  definition := k.kept settled.definition
  abstraction := k.kept settled.abstraction
  sequence := k.kept settled.sequence

theorem Retains.setting (k : Retains ρ h σ h₁) (setting : Setting ev ev' env env' ρ h) :
    Setting ev ev' env env' σ h₁ :=
  ⟨k.settled setting.settled, k.kept setting.env⟩

/-- Two ways of evaluating a part agree wherever the setting is kept. -/
def Evaluates (ev ev' : Evaluator) (env env' : Env)
    (evaluate evaluate' : Value → HeapM Fatal Value) : Prop :=
  ∀ ρ h h' part part', Simulates ρ h h' → Setting ev ev' env env' ρ h →
    Twins ρ .datum part part' →
      Agrees ρ h h' (evaluate part) (evaluate' part') fun σ _ v v' => Answers σ v v'

/-- Two ways of applying a value agree wherever the evaluators are settled. -/
def Applies (ev ev' : Evaluator) (apply apply' : Value → Value → HeapM Fatal Value) : Prop :=
  ∀ ρ h h' f f' args args', Simulates ρ h h' → Settled ev ev' ρ h → Twins ρ .datum f f' →
    Twins ρ .datum args args' →
      Agrees ρ h h' (apply f args) (apply' f' args') fun σ _ v v' => Answers σ v v'

/-! ## Results that may be error values -/

/-- An answer is an error value on both sides or on neither. -/
theorem Corresponds.answer_cases (c : Corresponds ρ h h') (answers : Answers ρ v v') :
    (h.isError v = true ∧ h'.isError v' = true ∧ Twins ρ .fault v v') ∨
      (h.isError v = false ∧ h'.isError v' = false ∧ Twins ρ .datum v v') := by
  rcases answers with twins | twins
  · have isData := c.isError_of_datum twins
    exact .inr ⟨isData, (c.isError_eq twins).trans isData, twins⟩
  · rcases twins.cases with ⟨rfl, rfl⟩ | ⟨i, j, rfl, rfl, _⟩
    · exact .inr ⟨rfl, rfl, trivial⟩
    · have isFault := c.isError_of_fault twins
      exact .inl ⟨isFault, (c.isError_eq twins).trans isFault, twins⟩

/-- After a part has been evaluated an error value ends the form, and data lets it go on. -/
theorem Agrees.checked {α : Type} {op op' : HeapM Fatal Value}
    {stop next stop' next' : Value → HeapM Fatal α} {R : Pairing → Heap → α → α → Prop}
    (k : Agrees ρ h h' op op' fun σ _ v v' => Answers σ v v')
    (stops : ∀ σ h₁ h₁' v v', Simulates σ h₁ h₁' → Twins σ .fault v v' →
      Agrees σ h₁ h₁' (stop v) (stop' v') R)
    (continues : ∀ σ h₁ h₁' v v', Simulates σ h₁ h₁' → Retains ρ h σ h₁ → Twins σ .datum v v' →
      Agrees σ h₁ h₁' (next v) (next' v') R) :
    Agrees ρ h h' (op >>= fun v => get >>= fun h => if h.isError v then stop v else next v)
      (op' >>= fun v => get >>= fun h => if h.isError v then stop' v else next' v) R := by
  refine .bind k fun σ h₁ h₁' v v' s retains answers => .get_bind ?_
  rcases s.answer_cases answers with ⟨isError, isError', twins⟩ | ⟨isData, isData', twins⟩
  · rw [isError, isError']
    exact stops σ h₁ h₁' v v' s twins
  · rw [isData, isData']
    exact continues σ h₁ h₁' v v' s retains twins

/-- An error value that ends a form is what the form gives. -/
theorem Agrees.passed {op op' : HeapM Fatal Value} {next next' : Value → HeapM Fatal Value}
    (k : Agrees ρ h h' op op' fun σ _ v v' => Answers σ v v')
    (continues : ∀ σ h₁ h₁' v v', Simulates σ h₁ h₁' → Retains ρ h σ h₁ → Twins σ .datum v v' →
      Agrees σ h₁ h₁' (next v) (next' v') fun σ _ v v' => Answers σ v v') :
    Agrees ρ h h'
      (op >>= fun v => get >>= fun h => if h.isError v then Pure.pure v else next v)
      (op' >>= fun v => get >>= fun h => if h.isError v then Pure.pure v else next' v)
      fun σ _ v v' => Answers σ v v' :=
  k.checked (fun _ _ _ _ _ s twins => .pure s (.inr twins)) continues

/-! ## Loops -/

section Loops

variable {evaluate evaluate' : Value → HeapM Fatal Value}

/-- The list is kept, and with it what is left of it after each element. -/
theorem agrees_sequenceWith (evaluates : Evaluates ev ev' env env' evaluate evaluate')
    {result result' list list' : Value} (steps : Nat) (s : Simulates ρ h h')
    (setting : Setting ev ev' env env' ρ h) (answers : Answers ρ result result')
    (kept : Kept ρ h .datum list list') :
    Agrees ρ h h' (sequenceWith evaluate result steps list)
      (sequenceWith evaluate' result' steps list') fun σ _ v v' => Answers σ v v' := by
  -- Induction on the steps that are left, for whatever pairing there is by then.
  induction steps generalizing ρ h h' result result' list list' with
  | zero => exact .pure s answers
  | succ steps ih =>
      refine .get_bind ?_
      rcases rel_cases (kept.pair?_rel s.toCorresponds) with ⟨ends, ends'⟩ |
        ⟨⟨first, rest⟩, ⟨first', rest'⟩, goes, goes', keptFirst, keptRest⟩
      · rw [ends, ends']
        exact .pure s answers
      · rw [goes, goes']
        refine .passed (evaluates ρ h h' first first' s setting keptFirst.twins) ?_
        intro σ h₁ h₁' v v' s₁ retains twins
        exact ih s₁ (retains.setting setting) (.inl twins) (retains.kept keptRest)

/-- What became of corresponding lists of operands. -/
inductive OperandsAgree (ρ : Pairing) (h : Heap) : Operands → Operands → Prop where
  | values {found found' : List Value} : List.Forall₂ (Kept ρ h .datum) found found' →
      OperandsAgree ρ h (.values found) (.values found')
  | failed {v v' : Value} : Twins ρ .fault v v' → OperandsAgree ρ h (.failed v) (.failed v')
  | improper : OperandsAgree ρ h .improper .improper

theorem agrees_operandsWith (evaluates : Evaluates ev ev' env env' evaluate evaluate')
    {found found' : List Value} {list list' : Value} (steps : Nat) (s : Simulates ρ h h')
    (setting : Setting ev ev' env env' ρ h)
    (keptFound : List.Forall₂ (Kept ρ h .datum) found found')
    (kept : Kept ρ h .datum list list') :
    Agrees ρ h h' (operandsWith evaluate found steps list)
      (operandsWith evaluate' found' steps list') fun σ h₁ x x' => OperandsAgree σ h₁ x x' := by
  -- As before, with all values found so far rooted and so kept.
  induction steps generalizing ρ h h' found found' list list' with
  | zero => exact .pure s .improper
  | succ steps ih =>
      refine .get_bind ?_
      rcases rel_cases (kept.pair?_rel s.toCorresponds) with ⟨ends, ends'⟩ |
        ⟨⟨first, rest⟩, ⟨first', rest'⟩, goes, goes', keptFirst, keptRest⟩
      · rw [ends, ends']
        dsimp only
        rw [kept.twins.isNil_eq]
        split
        · exact .pure s (.values keptFound)
        · exact .pure s .improper
      · rw [goes, goes']
        refine .checked (evaluates ρ h h' first first' s setting keptFirst.twins) ?_ ?_
        · exact fun σ h₁ h₁' v v' s₁ twins => .pure s₁ (.failed twins)
        · intro σ h₁ h₁' v v' s₁ retains twins
          refine .root_bind s₁ twins fun s₂ keptValue => ?_
          -- Each value is rooted before the next operand is evaluated.
          have retains := retains.trans (.addRoot σ h₁ v)
          exact ih s₂ (retains.setting setting)
            (.cons keptValue (keptFound.imp fun _ _ => retains.kept)) (retains.kept keptRest)

end Loops

/-! ## Special forms -/

section Forms

variable {evaluate evaluate' : Value → HeapM Fatal Value}

theorem agrees_quoteForm (s : Simulates ρ h h') (twinsExpr : Twins ρ .datum expr expr')
    (twins : Twins ρ .datum operands operands') :
    Agrees ρ h h' (quoteForm expr operands) (quoteForm expr' operands')
      fun σ _ v v' => Answers σ v v' := by
  refine .get_bind ?_
  rcases rel_cases (s.items?_rel twins) with ⟨none, none'⟩ | ⟨items, items', found, found', twins⟩
  · rw [none, none']
    exact agrees_malformed s "quote" twinsExpr
  · rw [found, found']
    rcases twins with _ | ⟨first, _ | ⟨second, rest⟩⟩
    · exact agrees_malformed s "quote" twinsExpr
    · exact .pure s (.inl first)
    · exact agrees_malformed s "quote" twinsExpr

theorem agrees_choose (evaluates : Evaluates ev ev' env env' evaluate evaluate')
    (s : Simulates ρ h h') (setting : Setting ev ev' env env' ρ h)
    {test test' consequent consequent' : Value} {alternative alternative' : Option Value}
    (twinsTest : Twins ρ .datum test test')
    (keptConsequent : Kept ρ h .datum consequent consequent')
    (keptAlternative : Option.Rel (Kept ρ h .datum) alternative alternative') :
    Agrees ρ h h' (choose evaluate test consequent alternative)
      (choose evaluate' test' consequent' alternative') fun σ _ v v' => Answers σ v v' := by
  refine .passed (evaluates ρ h h' test test' s setting twinsTest) ?_
  intro σ h₁ h₁' outcome outcome' s₁ retains twins
  have setting := retains.setting setting
  rcases twins.cases with ⟨rfl, rfl⟩ | ⟨i, j, rfl, rfl, _⟩
  · cases keptAlternative with
    | none => exact .pure s₁ (.inl trivial)
    | some kept => exact evaluates _ _ _ _ _ s₁ setting (retains.kept kept).twins
  · exact evaluates _ _ _ _ _ s₁ setting (retains.kept keptConsequent).twins

theorem agrees_ifForm (evaluates : Evaluates ev ev' env env' evaluate evaluate')
    (s : Simulates ρ h h') (setting : Setting ev ev' env env' ρ h)
    (twinsExpr : Twins ρ .datum expr expr') (kept : Kept ρ h .datum operands operands') :
    Agrees ρ h h' (ifForm evaluate expr operands) (ifForm evaluate' expr' operands')
      fun σ _ v v' => Answers σ v v' := by
  refine .get_bind ?_
  rcases rel_cases (kept.items?_rel s) with ⟨none, none'⟩ | ⟨items, items', found, found', kept⟩
  · rw [none, none']
    exact agrees_malformed s "if" twinsExpr
  · rw [found, found']
    rcases kept with _ | ⟨test, _ | ⟨consequent, _ | ⟨alternative, _ | ⟨further, rest⟩⟩⟩⟩
    · exact agrees_malformed s "if" twinsExpr
    · exact agrees_malformed s "if" twinsExpr
    · exact agrees_choose evaluates s setting test.twins consequent .none
    · exact agrees_choose evaluates s setting test.twins consequent (.some alternative)
    · exact agrees_malformed s "if" twinsExpr

theorem agrees_setForm (evaluates : Evaluates ev ev' env env' evaluate evaluate')
    (s : Simulates ρ h h') (setting : Setting ev ev' env env' ρ h)
    (twinsExpr : Twins ρ .datum expr expr') (kept : Kept ρ h .datum operands operands') :
    Agrees ρ h h' (setForm evaluate expr operands env) (setForm evaluate' expr' operands' env')
      fun σ _ v v' => Answers σ v v' := by
  refine .get_bind ?_
  rcases rel_cases (kept.items?_rel s) with ⟨none, none'⟩ | ⟨items, items', found, found', kept⟩
  · rw [none, none']
    exact agrees_malformed s "set!" twinsExpr
  · rw [found, found']
    rcases kept with _ | ⟨target, _ | ⟨source, _ | ⟨further, rest⟩⟩⟩
    · exact agrees_malformed s "set!" twinsExpr
    · exact agrees_malformed s "set!" twinsExpr
    · refine .get_bind ?_
      rw [s.isSymbol_eq target.twins]
      split
      · refine .passed (evaluates ρ h h' _ _ s setting source.twins) ?_
        intro σ h₁ h₁' value value' s₁ retains twins
        have keptEnv := retains.kept setting.env
        refine .bind (agrees_set s₁ keptEnv.twins (retains.kept target).twins twins) ?_
        -- The assigned value is not rooted, but an assignment leaves all pairs as they are.
        rintro τ h₂ h₂' _ _ s₂ _ ⟨binds, rfl⟩
        cases binds with
        | ok _ => exact .pure s₂ (.inl twins)
        | error kind message => exact agrees_toValue s₂ kind message
      · exact (agrees_wrongKind s _ _ target.twins).mono fun _ _ _ _ twins => .inr twins
    · exact agrees_malformed s "set!" twinsExpr

theorem agrees_defineProcedure (s : Simulates ρ h h') {name name' params params' body body' : Value}
    (keptEnv : Kept ρ h .frame env.value env'.value) (keptName : Kept ρ h .datum name name')
    (twinsParams : Twins ρ .datum params params') (twinsBody : Twins ρ .datum body body') :
    Agrees ρ h h' (defineProcedure name params body env) (defineProcedure name' params' body' env')
      fun σ _ v v' => Answers σ v v' := by
  refine .get_bind ?_
  rw [s.isSymbol_eq keptName.twins]
  split
  · refine .bind (agrees_procedure s twinsParams twinsBody keptEnv.twins) ?_
    intro σ h₁ h₁' procedure procedure' s₁ retains twins
    -- The new procedure is all that needs a root; name and environment are kept already.
    refine .root_bind s₁ twins fun s₂ kept => ?_
    have retains := retains.trans (.addRoot σ h₁ procedure)
    have keptEnv := retains.kept keptEnv
    refine .bind (agrees_define s₂ keptEnv.twins (retains.kept keptName).twins kept.twins) ?_
    intro τ h₃ h₃' _ _ s₃ retains' _
    exact .pure s₃ (.inl (retains'.kept kept).twins)
  · exact (agrees_wrongKind s _ _ keptName.twins).mono fun _ _ _ _ twins => .inr twins

theorem agrees_defineForm (evaluates : Evaluates ev ev' env env' evaluate evaluate')
    (s : Simulates ρ h h') (setting : Setting ev ev' env env' ρ h)
    (twinsExpr : Twins ρ .datum expr expr') (kept : Kept ρ h .datum operands operands') :
    Agrees ρ h h' (defineForm evaluate expr operands env)
      (defineForm evaluate' expr' operands' env') fun σ _ v v' => Answers σ v v' := by
  refine .get_bind ?_
  rcases rel_cases (kept.pair?_rel s.toCorresponds) with ⟨ends, ends'⟩ |
    ⟨⟨target, rest⟩, ⟨target', rest'⟩, goes, goes', keptTarget, keptRest⟩
  · rw [ends, ends']
    exact agrees_malformed s "define" twinsExpr
  · rw [goes, goes']
    refine .get_bind ?_
    rcases rel_cases (keptTarget.pair?_rel s.toCorresponds) with ⟨isAtom, isAtom'⟩ |
      ⟨⟨name, params⟩, ⟨name', params'⟩, isPair, isPair', keptName, keptParams⟩
    · rw [isAtom, isAtom']
      refine .get_bind ?_
      rcases rel_cases (keptRest.items?_rel s) with ⟨none, none'⟩ |
        ⟨items, items', found, found', keptItems⟩
      · rw [none, none']
        exact agrees_malformed s "define" twinsExpr
      · rw [found, found']
        rcases keptItems with _ | ⟨source, _ | ⟨second, more⟩⟩
        · exact agrees_malformed s "define" twinsExpr
        · refine .get_bind ?_
          rw [s.isSymbol_eq keptTarget.twins]
          split
          · refine .passed (evaluates ρ h h' _ _ s setting source.twins) ?_
            intro σ h₁ h₁' value value' s₁ retains twins
            refine .root_bind s₁ twins fun s₂ keptValue => ?_
            have retains := retains.trans (.addRoot σ h₁ value)
            refine .bind (agrees_define s₂ (retains.kept setting.env).twins
              (retains.kept keptTarget).twins twins) ?_
            intro τ h₃ h₃' _ _ s₃ retains' _
            exact .pure s₃ (.inl (retains'.kept keptValue).twins)
          · exact (agrees_wrongKind s _ _ keptTarget.twins).mono fun _ _ _ _ twins => .inr twins
        · exact agrees_malformed s "define" twinsExpr
    · rw [isPair, isPair']
      exact agrees_defineProcedure s setting.env keptName keptParams.twins keptRest.twins

theorem agrees_lambdaForm (s : Simulates ρ h h') (twinsEnv : Twins ρ .frame env.value env'.value)
    (twinsExpr : Twins ρ .datum expr expr') (twins : Twins ρ .datum operands operands') :
    Agrees ρ h h' (lambdaForm expr operands env) (lambdaForm expr' operands' env')
      fun σ _ v v' => Answers σ v v' := by
  refine .get_bind ?_
  rcases rel_cases (s.pair?_rel twins) with ⟨ends, ends'⟩ |
    ⟨⟨params, body⟩, ⟨params', body'⟩, goes, goes', twinsParams, twinsBody⟩
  · rw [ends, ends']
    exact agrees_malformed s "lambda" twinsExpr
  · rw [goes, goes']
    refine .get_bind ?_
    rcases rel_cases (s.items?_rel twinsBody) with ⟨none, none'⟩ | ⟨items, items', found, found', _⟩
    · rw [none, none']
      exact agrees_malformed s "lambda" twinsExpr
    · rw [found, found']
      exact (agrees_procedure s twinsParams twinsBody twinsEnv).mono fun _ _ _ _ twins => .inl twins

theorem agrees_application (evaluates : Evaluates ev ev' env env' evaluate evaluate')
    {apply apply' : Value → Value → HeapM Fatal Value} (applies : Applies ev ev' apply apply')
    {head head' : Value} (s : Simulates ρ h h') (setting : Setting ev ev' env env' ρ h)
    (keptExpr : Kept ρ h .datum expr expr') (twinsHead : Twins ρ .datum head head')
    (kept : Kept ρ h .datum operands operands') :
    Agrees ρ h h' (application evaluate apply expr head operands)
      (application evaluate' apply' expr' head' operands') fun σ _ v v' => Answers σ v v' := by
  refine .passed (evaluates ρ h h' head head' s setting twinsHead) ?_
  intro σ h₁ h₁' function function' s₁ retains twins
  refine .root_bind s₁ twins fun s₂ keptFunction => ?_
  have retains := retains.trans (.addRoot σ h₁ function)
  have setting := retains.setting setting
  have keptOperands := retains.kept kept
  have keptExpr := retains.kept keptExpr
  refine .bind (agrees_operandsWith evaluates Value.maxSlots s₂ setting .nil keptOperands) ?_
  intro τ h₃ h₃' found found' s₃ retains' agree
  cases agree with
  | failed twins => exact .pure s₃ (.inr twins)
  | improper => exact agrees_malformed s₃ "application" (retains'.kept keptExpr).twins
  | values keptFound =>
      -- The values found so far are rooted until the list of arguments is built.
      have twinsFound := keptFound.imp fun _ _ kept => kept.twins
      refine .bind (agrees_list s₃ (List.rel_reverse twinsFound)) ?_
      intro υ h₄ h₄' args args' s₄ retains'' twinsArgs
      have retains := retains'.trans retains''
      exact applies _ _ _ _ _ _ _ s₄ (retains.settled setting.settled)
        (retains.kept keptFunction).twins twinsArgs

end Forms

/-! ## Evaluation and application -/

section Rooms

theorem agrees_ite {α : Type} {c c' : Prop} [Decidable c] [Decidable c']
    {yes no yes' no' : HeapM Fatal α} {R : Pairing → Heap → α → α → Prop} (same : c ↔ c')
    (agreesYes : Agrees ρ h h' yes yes' R) (agreesNo : Agrees ρ h h' no no' R) :
    Agrees ρ h h' (if c then yes else no) (if c' then yes' else no') R := by
  by_cases holds : c
  · rw [if_pos holds, if_pos (same.1 holds)]
    exact agreesYes
  · rw [if_neg holds, if_neg (fun holds' => holds (same.2 holds'))]
    exact agreesNo

/-- Evaluation agrees if it does with less room, in which parts are evaluated. -/
theorem evaluates_eval (room : Nat)
    (evaluates : ∀ r, room = r + 1 → ∀ env env', Evaluates ev ev' env env'
      (fun part => ev.eval r part env) (fun part => ev'.eval r part env'))
    (applies : ∀ r, room = r + 1 → Applies ev ev' (ev.apply r) (ev'.apply r)) (env env' : Env) :
    Evaluates ev ev' env env' (fun part => ev.eval room part env)
      (fun part => ev'.eval room part env') := by
  intro ρ h h' expr expr' s setting twins
  dsimp only
  unfold Evaluator.eval
  refine .get_bind ?_
  rw [s.isSelfEvaluating_eq twins, s.isSymbol_eq twins]
  -- A value of its own, a variable, or a form; the kind is the same on both sides.
  refine agrees_ite Iff.rfl (.pure s (.inl twins)) (agrees_ite Iff.rfl ?_ ?_)
  · exact agrees_valueOr s (s.lookup_binds setting.env.twins twins)
  rcases rel_cases (s.pair?_rel twins) with ⟨ends, ends'⟩ |
    ⟨⟨head, operands⟩, ⟨head', operands'⟩, goes, goes', _⟩
  · rw [ends, ends']
    exact .pure s (.inl twins)
  rw [goes, goes']
  cases room with
  | zero =>
      dsimp only
      rw [setting.settled.limit_eq]
      exact .throw _
  | succ room =>
      have evaluates := evaluates room rfl env env'
      have applies := applies room rfl
      refine .scope s ?_ fun _ _ _ _ _ answers => answers
      refine .root_bind s twins fun s₁ keptExpr => ?_
      refine .root_bind s₁ setting.env.twins fun s₂ _ => ?_
      have retains := (Retains.addRoot ρ h expr).trans (.addRoot ρ _ env.value)
      have setting := retains.setting setting
      have forms := setting.settled
      have keptExpr := keptExpr.addRoot env.value
      have parts := keptExpr.pair?_rel s₂.toCorresponds
      rw [pair?_addRoot, pair?_addRoot, pair?_addRoot, pair?_addRoot, goes, goes'] at parts
      rcases parts with ⟨keptHead, keptOperands⟩ | _
      -- A symbol begins a special form on one side exactly if its twin does on the other.
      have same : ∀ {f f'}, Twins ρ .datum f f' → (head = f ↔ head' = f') :=
        fun twins => s₂.twins_eq_iff keptHead.twins twins
      refine agrees_ite (same forms.quote.twins) ?_ ?_
      · exact agrees_quoteForm s₂ twins keptOperands.twins
      refine agrees_ite (same forms.conditional.twins) ?_ ?_
      · exact agrees_ifForm evaluates s₂ setting twins keptOperands
      refine agrees_ite (same forms.assignment.twins) ?_ ?_
      · exact agrees_setForm evaluates s₂ setting twins keptOperands
      refine agrees_ite (same forms.definition.twins) ?_ ?_
      · exact agrees_defineForm evaluates s₂ setting twins keptOperands
      refine agrees_ite (same forms.abstraction.twins) ?_ ?_
      · exact agrees_lambdaForm s₂ setting.env.twins twins keptOperands.twins
      refine agrees_ite (same forms.sequence.twins) ?_ ?_
      · exact agrees_sequenceWith evaluates _ s₂ setting (.inl trivial) keptOperands
      exact agrees_application evaluates applies s₂ setting keptExpr keptHead.twins keptOperands

theorem Corresponds.env?_rel (c : Corresponds ρ h h') (twins : Twins ρ .frame v v') :
    Option.Rel (fun e e' : Env => Twins ρ .frame e.value e'.value) (h.env? v) (h'.env? v') := by
  unfold Heap.env?
  rw [c.kind_eq twins]
  split
  · exact .some twins
  · exact .none

/-- Application agrees if evaluation does with less room, in which a body is evaluated. -/
theorem applies_apply (room : Nat)
    (evaluates : ∀ r, room = r + 1 → ∀ env env', Evaluates ev ev' env env'
      (fun part => ev.eval r part env) (fun part => ev'.eval r part env')) :
    Applies ev ev' (ev.apply room) (ev'.apply room) := by
  intro ρ h h' f f' args args' s settled twins twinsArgs
  unfold Evaluator.apply
  refine .get_bind ?_
  rcases rel_cases (s.object?_rel twins) with ⟨found, found'⟩ | ⟨o, o', found, found', alike⟩
  · rw [found, found']
    exact agrees_notCallable s twins
  rw [found, found']
  cases alike with
  | pair _ _ => exact agrees_notCallable s twins
  | @plain o isPlain =>
      cases o with
      | primitive p => exact agrees_call s isPlain twinsArgs
      | procedure _ _ _ => exact absurd isPlain id
      | _ => exact agrees_notCallable s twins
  | @procedure params params' body body' env env' twinsParams twinsBody twinsEnv =>
      refine .get_bind ?_
      rcases rel_cases (s.env?_rel twinsEnv) with ⟨none, none'⟩ |
        ⟨captured, captured', isEnv, isEnv', twinsCaptured⟩
      · rw [none, none']
        exact agrees_complaint s _ _
      rw [isEnv, isEnv']
      cases room with
      | zero =>
          dsimp only
          rw [settled.limit_eq]
          exact .throw _
      | succ room =>
          refine .scope s ?_ fun _ _ _ _ _ answers => answers
          refine .root_bind s twins fun s₁ keptFunction => ?_
          refine .root_bind s₁ twinsArgs fun s₂ _ => ?_
          have retains := (Retains.addRoot ρ h f).trans (.addRoot ρ _ args)
          have settled := retains.settled settled
          -- The body stays in place as part of the procedure, which is rooted.
          have keptBody : Kept ρ ((h.addRoot f).addRoot args) .datum body body' := by
            rcases twins.cases with ⟨rfl, rfl⟩ | ⟨i, j, rfl, rfl, paired⟩
            · cases found
            · have tethered := keptFunction.tethered.addRoot args
              refine ⟨.part tethered paired (o := .procedure params body env) ?_ ?_, twinsBody⟩
              · rw [Heap.object?_addRoot, Heap.object?_addRoot, found]
              · simp [Object.references]
          refine .bind (agrees_extend s₂ twinsCaptured twinsParams twinsArgs) ?_
          intro σ h₃ h₃' child child' s₃ retains' binds
          cases binds with
          | error kind message => exact agrees_toValue s₃ kind message
          | @ok child child' twinsChild =>
              refine .root_bind s₃ twinsChild fun s₄ keptChild => ?_
              have retains := retains'.trans (.addRoot σ h₃ child.value)
              exact agrees_sequenceWith (evaluates room rfl child child') _ s₄
                ⟨retains.settled settled, keptChild⟩ (.inl trivial) (retains.kept keptBody)

/-- With whatever room is left, evaluation and application agree. -/
theorem evaluates_and_applies (ev ev' : Evaluator) (room : Nat) :
    (∀ env env', Evaluates ev ev' env env' (fun part => ev.eval room part env)
      (fun part => ev'.eval room part env')) ∧
        Applies ev ev' (ev.apply room) (ev'.apply room) := by
  -- Induction on the room, for evaluation and application together.
  induction room with
  | zero => exact ⟨evaluates_eval 0 nofun nofun, applies_apply 0 nofun⟩
  | succ room ih =>
      have evaluates : ∀ r, room + 1 = r + 1 → ∀ env env', Evaluates ev ev' env env'
          (fun part => ev.eval r part env) (fun part => ev'.eval r part env') := by
        intro r same
        rw [← Nat.succ.inj same]
        exact ih.1
      have applies : ∀ r, room + 1 = r + 1 → Applies ev ev' (ev.apply r) (ev'.apply r) := by
        intro r same
        rw [← Nat.succ.inj same]
        exact ih.2
      exact ⟨evaluates_eval (room + 1) evaluates applies, applies_apply (room + 1) evaluates⟩

end Rooms

end Simulation

end Lisplet
