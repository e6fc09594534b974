import Lisplet.Proofs.Termination.Calling

/-!
# Evaluation — evaluation comes to an end

Each loop and each special form of the evaluator comes to an end if the evaluation of parts does;
so evaluation and application do, by induction on the room that is left. A loop over expressions
goes along a list that is kept while its elements are evaluated, and no list is as long as the
steps that the bounded loops may take.
-/

namespace Lisplet

namespace Termination

open Evaluator
open Simulation (Role)

variable {d : Layout} {h : Heap} {v expr operands : Value} {env : Env}

/-! ## Parts -/

/-- Parts are evaluated to an end wherever the environment is kept. -/
def Evaluates (env : Env) (evaluate' : Value → UnboundedM Value)
    (evaluate : Value → HeapM Fatal Value) : Prop :=
  ∀ d h part, Orderly d h → Kept d h .frame env.value → Used d h .datum part →
    Completes d h (evaluate' part) (evaluate part) fun d₁ h₁ v => Used d₁ h₁ .datum v

/-- Values are applied to an end. -/
def Applies (apply' : Value → Value → UnboundedM Value)
    (apply : Value → Value → HeapM Fatal Value) : Prop :=
  ∀ d h f args, Orderly d h → Used d h .datum f → Used d h .datum args →
    Completes d h (apply' f args) (apply f args) fun d₁ h₁ v => Used d₁ h₁ .datum v

/-- After a part has been evaluated an error value ends the form, and other data lets it go on. -/
theorem Completes.checked {α : Type} {op' : UnboundedM Value} {op : HeapM Fatal Value}
    {stop' next' : Value → UnboundedM α} {stop next : Value → HeapM Fatal α}
    {R : Layout → Heap → α → Prop}
    (c : Completes d h op' op fun d₁ h₁ v => Used d₁ h₁ .datum v)
    (stops : ∀ d₁ h₁ v, Orderly d₁ h₁ → Used d₁ h₁ .datum v →
      Completes d₁ h₁ (stop' v) (stop v) R)
    (continues : ∀ d₁ h₁ v, Orderly d₁ h₁ → Retains d h d₁ h₁ → Used d₁ h₁ .datum v →
      Completes d₁ h₁ (next' v) (next v) R) :
    Completes d h
      (op' >>= fun v => getThe Heap >>= fun h => if h.isError v then stop' v else next' v)
      (op >>= fun v => get >>= fun h => if h.isError v then stop v else next v) R := by
  refine .bind c fun d₁ h₁ v a retains used => .get_bind ?_
  exact .ite (fun _ => stops d₁ h₁ v a used) fun _ => continues d₁ h₁ v a retains used

/-- An error value that ends a form is what the form gives. -/
theorem Completes.passed {op' : UnboundedM Value} {op : HeapM Fatal Value}
    {next' : Value → UnboundedM Value} {next : Value → HeapM Fatal Value}
    (c : Completes d h op' op fun d₁ h₁ v => Used d₁ h₁ .datum v)
    (continues : ∀ d₁ h₁ v, Orderly d₁ h₁ → Retains d h d₁ h₁ → Used d₁ h₁ .datum v →
      Completes d₁ h₁ (next' v) (next v) fun d₁ h₁ v => Used d₁ h₁ .datum v) :
    Completes d h
      (op' >>= fun v => getThe Heap >>= fun h => if h.isError v then Pure.pure v else next' v)
      (op >>= fun v => get >>= fun h => if h.isError v then Pure.pure v else next v)
      fun d₁ h₁ v => Used d₁ h₁ .datum v :=
  c.checked (fun _ _ _ a used => .pure a used) continues

/-! ## Loops -/

section Loops

variable {evaluate' : Value → UnboundedM Value} {evaluate : Value → HeapM Fatal Value}
  {list tail : Value} {items : List Value}

/-- A list has fewer pairs than a loop over it may take steps. -/
theorem Suited.length_lt (a : Suited d h) (spine : h.Spine list items tail) :
    items.length < Value.maxSlots := by
  have bound := spine.length_le
  have slots := a.size_le
  have capacity := a.capacity_lt
  have small : 2 < Value.maxSlots := by decide
  omega

/-- The list is kept, and with it what is left of it after each element. -/
theorem completes_sequence (evaluates : Evaluates env evaluate' evaluate) {result : Value}
    {steps : Nat} (a : Orderly d h) (keptEnv : Kept d h .frame env.value)
    (used : Used d h .datum result) (kept : Kept d h .datum list)
    (spine : h.Spine list items tail) (enough : items.length < steps) :
    Completes d h (Unbounded.sequence evaluate' result list)
      (sequenceWith evaluate result steps list) fun d₁ h₁ v => Used d₁ h₁ .datum v := by
  -- Induction on the elements, for whatever layout there is by then.
  induction items generalizing d h result list steps with
  | nil =>
      cases spine with
      | done ends =>
      rcases steps with _ | steps
      · cases enough
      rw [Unbounded.sequence_eq]
      refine .get_bind ?_
      rw [ends]
      exact .pure a used
  | cons first items ih =>
      cases spine with
      | step goes rest =>
      rcases steps with _ | steps
      · cases enough
      rw [Unbounded.sequence_eq]
      refine .get_bind ?_
      rw [goes]
      have parts := kept.parts a.toSuited goes
      refine .passed (evaluates d h first a keptEnv (parts.1.used a.toWellFormed)) ?_
      intro d₁ h₁ v a₁ retains used
      exact ih a₁ (retains.kept keptEnv) used (retains.kept parts.2)
        (retains.spine a.toSuited a₁.toSuited parts.2 rest) (Nat.lt_of_succ_lt_succ enough)

/-- What became of a list of operands. -/
inductive OperandsUsed (d : Layout) (h : Heap) : Operands → Prop where
  | values {found : List Value} : (∀ v ∈ found, Kept d h .datum v) →
      OperandsUsed d h (.values found)
  | failed {v : Value} : Used d h .datum v → OperandsUsed d h (.failed v)
  | improper : OperandsUsed d h .improper

theorem completes_operands (evaluates : Evaluates env evaluate' evaluate) {found : List Value}
    {steps : Nat} (a : Orderly d h) (keptEnv : Kept d h .frame env.value)
    (keptFound : ∀ v ∈ found, Kept d h .datum v) (kept : Kept d h .datum list)
    (spine : h.Spine list items tail) (enough : items.length < steps) :
    Completes d h (Unbounded.operands evaluate' found list)
      (operandsWith evaluate found steps list) fun d₁ h₁ x => OperandsUsed d₁ h₁ x := by
  -- As before, with all values found so far rooted and so kept.
  induction items generalizing d h found list steps with
  | nil =>
      cases spine with
      | done ends =>
      rcases steps with _ | steps
      · cases enough
      rw [Unbounded.operands_eq]
      refine .get_bind ?_
      rw [ends]
      refine .pure a ?_
      split
      · exact .values keptFound
      · exact .improper
  | cons first items ih =>
      cases spine with
      | step goes rest =>
      rcases steps with _ | steps
      · cases enough
      rw [Unbounded.operands_eq]
      refine .get_bind ?_
      rw [goes]
      have parts := kept.parts a.toSuited goes
      refine .checked (evaluates d h first a keptEnv (parts.1.used a.toWellFormed)) ?_ ?_
      · exact fun d₁ h₁ v a₁ used => .pure a₁ (.failed used)
      · intro d₁ h₁ v a₁ retains used
        refine .root_bind a₁ used (.inl rfl) fun a₂ keptValue => ?_
        -- Each value is rooted before the next operand is evaluated.
        have retains := retains.trans (.addRoot d₁ h₁ v)
        refine ih a₂ (retains.kept keptEnv) ?_ (retains.kept parts.2)
          (retains.spine a.toSuited a₂.toSuited parts.2 rest) (Nat.lt_of_succ_lt_succ enough)
        exact List.forall_mem_cons.2 ⟨keptValue, fun u member => retains.kept (keptFound u member)⟩

end Loops

/-! ## Special forms -/

section Forms

variable {evaluate' : Value → UnboundedM Value} {evaluate : Value → HeapM Fatal Value}

/-- The elements of a proper list that is kept are kept. -/
theorem Kept.items (kept : Kept d h .datum operands) (a : Orderly d h) {items : List Value}
    (found : h.items? operands = some items) : ∀ v ∈ items, Kept d h .datum v := by
  rcases a.items_used (kept.used a.toWellFormed) found with ⟨⟨tail, spine⟩, _⟩
  exact (kept.spine a.toSuited spine).1

theorem completes_quoteForm (a : Orderly d h) (usedExpr : Used d h .datum expr)
    (used : Used d h .datum operands) :
    Completes d h (Unbounded.quoteForm expr operands) (quoteForm expr operands)
      fun d₁ h₁ v => Used d₁ h₁ .datum v := by
  refine .get_bind (.await_bind (a.items?_ends used) ?_)
  cases found : h.items? operands with
  | none => exact completes_malformed a "quote" usedExpr
  | some items =>
      have parts := (a.items_used used found).2
      rcases items with _ | ⟨first, _ | ⟨second, rest⟩⟩
      · exact completes_malformed a "quote" usedExpr
      · exact .pure a (parts first List.mem_cons_self)
      · exact completes_malformed a "quote" usedExpr

theorem completes_choose (evaluates : Evaluates env evaluate' evaluate) (a : Orderly d h)
    (keptEnv : Kept d h .frame env.value) {test consequent : Value} {alternative : Option Value}
    (usedTest : Used d h .datum test) (keptConsequent : Kept d h .datum consequent)
    (keptAlternative : ∀ v, alternative = some v → Kept d h .datum v) :
    Completes d h (Unbounded.choose evaluate' test consequent alternative)
      (choose evaluate test consequent alternative) fun d₁ h₁ v => Used d₁ h₁ .datum v := by
  refine .passed (evaluates d h test a keptEnv usedTest) ?_
  intro d₁ h₁ outcome a₁ retains _
  have keptEnv := retains.kept keptEnv
  cases outcome with
  | nil =>
      cases alternative with
      | none => exact .pure a₁ (.nil d₁ h₁ nofun)
      | some v =>
          have kept := retains.kept (keptAlternative v rfl)
          exact evaluates d₁ h₁ v a₁ keptEnv (kept.used a₁.toWellFormed)
  | slot i =>
      have kept := retains.kept keptConsequent
      exact evaluates d₁ h₁ consequent a₁ keptEnv (kept.used a₁.toWellFormed)

theorem completes_ifForm (evaluates : Evaluates env evaluate' evaluate) (a : Orderly d h)
    (keptEnv : Kept d h .frame env.value) (usedExpr : Used d h .datum expr)
    (kept : Kept d h .datum operands) :
    Completes d h (Unbounded.ifForm evaluate' expr operands) (ifForm evaluate expr operands)
      fun d₁ h₁ v => Used d₁ h₁ .datum v := by
  refine .get_bind (.await_bind (a.items?_ends (kept.used a.toWellFormed)) ?_)
  cases found : h.items? operands with
  | none => exact completes_malformed a "if" usedExpr
  | some items =>
      have parts := kept.items a found
      rcases items with _ | ⟨test, _ | ⟨consequent, _ | ⟨alternative, _ | ⟨further, rest⟩⟩⟩⟩
      · exact completes_malformed a "if" usedExpr
      · exact completes_malformed a "if" usedExpr
      · exact completes_choose evaluates a keptEnv ((parts test (by simp)).used a.toWellFormed)
          (parts consequent (by simp)) nofun
      · refine completes_choose evaluates a keptEnv ((parts test (by simp)).used a.toWellFormed)
          (parts consequent (by simp)) ?_
        rintro _ ⟨⟩
        exact parts alternative (by simp)
      · exact completes_malformed a "if" usedExpr

theorem completes_setForm (evaluates : Evaluates env evaluate' evaluate) (a : Orderly d h)
    (keptEnv : Kept d h .frame env.value) (usedExpr : Used d h .datum expr)
    (kept : Kept d h .datum operands) :
    Completes d h (Unbounded.setForm evaluate' expr operands env)
      (setForm evaluate expr operands env) fun d₁ h₁ v => Used d₁ h₁ .datum v := by
  refine .get_bind (.await_bind (a.items?_ends (kept.used a.toWellFormed)) ?_)
  cases found : h.items? operands with
  | none => exact completes_malformed a "set!" usedExpr
  | some items =>
      have parts := kept.items a found
      rcases items with _ | ⟨target, _ | ⟨source, _ | ⟨further, rest⟩⟩⟩
      · exact completes_malformed a "set!" usedExpr
      · exact completes_malformed a "set!" usedExpr
      · have keptTarget := parts target (by simp)
        have keptSource := parts source (by simp)
        refine .get_bind (.ite (fun _ => ?_) fun _ => .lift (maintains_wrongKind a _ _ _))
        refine .passed (evaluates d h source a keptEnv (keptSource.used a.toWellFormed)) ?_
        intro d₁ h₁ value a₁ retains used
        -- The assigned value is not rooted, but an assignment allocates nothing.
        refine .bind (completes_set a₁ (retains.used keptEnv a₁.toWellFormed)
          (retains.used keptTarget a₁.toWellFormed) used) ?_
        intro d₂ h₂ x a₂ _ used
        cases x with
        | ok _ => exact .pure a₂ used
        | error e => exact .lift (maintains_toValue a₂ e)
      · exact completes_malformed a "set!" usedExpr

theorem maintains_defineProcedure (a : Orderly d h) {name params body : Value}
    (keptEnv : Kept d h .frame env.value) (keptName : Kept d h .datum name)
    (usedParams : Used d h .datum params) (usedBody : Used d h .datum body) :
    Maintains d h (defineProcedure name params body env)
      fun d₁ h₁ v => Used d₁ h₁ .datum v := by
  refine .get_bind ?_
  split
  · refine .bind (maintains_procedure a usedParams usedBody (keptEnv.used a.toWellFormed)) ?_
    intro d₁ h₁ procedure a₁ retains used
    -- The new procedure is all that needs a root; name and environment are kept already.
    refine .root_bind a₁ used (.inl rfl) fun a₂ kept => ?_
    have retains := retains.trans (.addRoot d₁ h₁ procedure)
    refine .bind (maintains_define a₂ (retains.used keptEnv a₂.toWellFormed)
      (retains.used keptName a₂.toWellFormed) (kept.used a₂.toWellFormed)) ?_
    intro d₃ h₃ _ a₃ retains' _
    exact .pure a₃ (retains'.used kept a₃.toWellFormed)
  · exact maintains_wrongKind a _ _ _

theorem completes_defineForm (evaluates : Evaluates env evaluate' evaluate) (a : Orderly d h)
    (keptEnv : Kept d h .frame env.value) (usedExpr : Used d h .datum expr)
    (kept : Kept d h .datum operands) :
    Completes d h (Unbounded.defineForm evaluate' expr operands env)
      (defineForm evaluate expr operands env) fun d₁ h₁ v => Used d₁ h₁ .datum v := by
  refine .get_bind ?_
  cases goes : h.pair? operands with
  | none => exact completes_malformed a "define" usedExpr
  | some parts =>
      rcases parts with ⟨target, rest⟩
      have parts := kept.parts a.toSuited goes
      refine .get_bind ?_
      cases isPair : h.pair? target with
      | some shape =>
          rcases shape with ⟨name, params⟩
          have shape := parts.1.parts a.toSuited isPair
          exact .lift (maintains_defineProcedure a keptEnv shape.1
            (shape.2.used a.toWellFormed) (parts.2.used a.toWellFormed))
      | none =>
          refine .get_bind (.await_bind (a.items?_ends (parts.2.used a.toWellFormed)) ?_)
          cases found : h.items? rest with
          | none => exact completes_malformed a "define" usedExpr
          | some items =>
              have keptItems := parts.2.items a found
              rcases items with _ | ⟨source, _ | ⟨second, more⟩⟩
              · exact completes_malformed a "define" usedExpr
              · have keptSource := keptItems source (by simp)
                refine .get_bind (.ite (fun _ => ?_) fun _ => .lift (maintains_wrongKind a _ _ _))
                refine .passed (evaluates d h source a keptEnv (keptSource.used a.toWellFormed)) ?_
                intro d₁ h₁ value a₁ retains used
                refine .root_bind a₁ used (.inl rfl) fun a₂ keptValue => ?_
                have retains := retains.trans (.addRoot d₁ h₁ value)
                refine .bind (.lift (maintains_define a₂
                  (retains.used keptEnv a₂.toWellFormed)
                  (retains.used parts.1 a₂.toWellFormed)
                  (keptValue.used a₂.toWellFormed))) ?_
                intro d₃ h₃ _ a₃ retains' _
                exact .pure a₃ (retains'.used keptValue a₃.toWellFormed)
              · exact completes_malformed a "define" usedExpr

theorem completes_lambdaForm (a : Orderly d h) (usedEnv : Used d h .frame env.value)
    (usedExpr : Used d h .datum expr) (used : Used d h .datum operands) :
    Completes d h (Unbounded.lambdaForm expr operands env) (lambdaForm expr operands env)
      fun d₁ h₁ v => Used d₁ h₁ .datum v := by
  refine .get_bind ?_
  cases goes : h.pair? operands with
  | none => exact completes_malformed a "lambda" usedExpr
  | some parts =>
      rcases parts with ⟨params, body⟩
      have parts := a.part_used used goes
      refine .get_bind (.await_bind (a.items?_ends parts.2) ?_)
      cases h.items? body with
      | none => exact completes_malformed a "lambda" usedExpr
      | some items => exact .lift (maintains_procedure a parts.1 parts.2 usedEnv)

theorem completes_application (evaluates : Evaluates env evaluate' evaluate)
    {apply' : Value → Value → UnboundedM Value} {apply : Value → Value → HeapM Fatal Value}
    (applies : Applies apply' apply) {head : Value} (a : Orderly d h)
    (keptEnv : Kept d h .frame env.value) (keptExpr : Kept d h .datum expr)
    (usedHead : Used d h .datum head) (kept : Kept d h .datum operands) :
    Completes d h (Unbounded.application evaluate' apply' expr head operands)
      (application evaluate apply expr head operands) fun d₁ h₁ v => Used d₁ h₁ .datum v := by
  refine .passed (evaluates d h head a keptEnv usedHead) ?_
  intro d₁ h₁ function a₁ retains used
  refine .root_bind a₁ used (.inl rfl) fun a₂ keptFunction => ?_
  have retains := retains.trans (.addRoot d₁ h₁ function)
  have keptOperands := retains.kept kept
  rcases a₂.exists_spine (.inl rfl) (keptOperands.used a₂.toWellFormed) with
    ⟨items, tail, spine, _⟩
  refine .bind (completes_operands evaluates a₂ (retains.kept keptEnv) (List.forall_mem_nil _)
    keptOperands spine (a₂.length_lt spine)) ?_
  intro d₃ h₃ x a₃ retains' became
  cases became with
  | failed used => exact .pure a₃ used
  | improper =>
      have keptExpr := retains'.kept (retains.kept keptExpr)
      exact completes_malformed a₃ "application" (keptExpr.used a₃.toWellFormed)
  | values keptFound =>
      -- The values found so far are rooted until the list of arguments is built.
      refine .bind (.lift (maintains_list a₃ fun v member =>
        (keptFound v (List.mem_reverse.1 member)).used a₃.toWellFormed)) ?_
      intro d₄ h₄ args a₄ retains'' usedArgs
      have keptFunction := retains''.kept (retains'.kept keptFunction)
      exact applies d₄ h₄ function args a₄ (keptFunction.used a₄.toWellFormed) usedArgs

end Forms

/-! ## Procedures -/

section Procedures

variable {params body : Value}

theorem Suited.standard_of_primitive (a : Suited d h) (fills : Fills d .datum v) {p : Primitive}
    (found : h.object? v = some (.primitive p)) : p ∈ Primitive.standard := by
  cases a.suits_of_fills fills found (fun _ => nofun) with
  | plain _ standard => exact standard p rfl

theorem Suited.procedure_used (a : Suited d h) (fills : Fills d .datum v)
    (found : h.object? v = some (.procedure params body env)) :
    Used d h .datum params ∧ Used d h .datum body ∧ Used d h .frame env.value := by
  have held {w : Value} := a.holds_reference found (w := w)
  cases a.suits_of_fills fills found (fun _ => nofun) with
  | plain none _ => cases none
  | procedure params body env =>
      exact ⟨⟨params, held (by simp [Object.references])⟩,
        ⟨body, held (by simp [Object.references])⟩, ⟨env, held (by simp [Object.references])⟩⟩

theorem Kept.procedure_body (kept : Kept d h .datum v) (a : Suited d h)
    (fills : Fills d .datum body) (found : h.object? v = some (.procedure params body env)) :
    Kept d h .datum body := by
  rcases kept with ⟨tethered, _ | use | use⟩
  · cases found
  · exact ⟨.part tethered use found (by simp [Object.references]), fills⟩
  · rcases a.exists_environment_of_use use found with ⟨_, _, same⟩
    cases same

theorem value_of_env? {env : Env} (isEnv : h.env? v = some env) : v = env.value := by
  unfold Heap.env? at isEnv
  split at isEnv
  · cases isEnv
    rfl
  · cases isEnv

end Procedures

/-! ## Evaluation and application -/

section Rooms

variable {ev : Evaluator}

/-- Evaluation ends if it does with less room, in which parts are evaluated. -/
theorem completes_eval (room : Nat)
    (evaluates : ∀ r, room = r + 1 → ∀ env, Evaluates env
      (fun part => Unbounded.eval ev r part env) fun part => ev.eval r part env)
    (applies : ∀ r, room = r + 1 → Applies (Unbounded.apply ev r) (ev.apply r)) {d : Layout}
    {h : Heap} (a : Orderly d h) (usedEnv : Used d h .frame env.value)
    (used : Used d h .datum expr) :
    Completes d h (Unbounded.eval ev room expr env) (ev.eval room expr env)
      fun d₁ h₁ v => Used d₁ h₁ .datum v := by
  unfold Unbounded.eval Evaluator.eval
  refine .get_bind ?_
  -- A value of its own, a variable, or a form.
  refine .ite (fun _ => .pure a used) fun _ => .ite (fun _ => ?_) fun _ => ?_
  · refine .await_bind (a.lookup_ends usedEnv used) (.lift (maintains_valueOr a fun v found => ?_))
    exact a.lookup_used usedEnv found
  cases goes : h.pair? expr with
  | none => exact .pure a used
  | some parts =>
      rcases parts with ⟨head, operands⟩
      cases room with
      | zero => exact .throw a _
      | succ room =>
          have evaluates := evaluates room rfl env
          have applies := applies room rfl
          refine .scope ?_ fun _ _ _ height used => used.truncateRoots height
          refine .root_bind a used (.inl rfl) fun a₁ keptExpr => ?_
          refine .root_bind a₁ (usedEnv.addRoot expr) (.inr rfl) fun a₂ keptEnv => ?_
          have keptExpr := keptExpr.addRoot env.value
          have usedExpr := keptExpr.used a₂.toWellFormed
          have parts := keptExpr.parts a₂.toSuited (by
            rw [Simulation.pair?_addRoot, Simulation.pair?_addRoot, goes])
          have usedOperands := parts.2.used a₂.toWellFormed
          refine .ite (fun _ => completes_quoteForm a₂ usedExpr usedOperands) fun _ => ?_
          refine .ite (fun _ => completes_ifForm evaluates a₂ keptEnv usedExpr parts.2) fun _ => ?_
          refine .ite (fun _ => completes_setForm evaluates a₂ keptEnv usedExpr parts.2) fun _ => ?_
          refine .ite (fun _ => completes_defineForm evaluates a₂ keptEnv usedExpr parts.2)
            fun _ => ?_
          refine .ite (fun _ => completes_lambdaForm a₂ (keptEnv.used a₂.toWellFormed) usedExpr
            usedOperands) fun _ => ?_
          refine .ite (fun _ => ?_) fun _ => ?_
          · rcases a₂.exists_spine (.inl rfl) usedOperands with ⟨items, tail, spine, _⟩
            exact completes_sequence evaluates a₂ keptEnv (.nil _ _ nofun) parts.2 spine
              (a₂.length_lt spine)
          · exact completes_application evaluates applies a₂ keptEnv keptExpr
              (parts.1.used a₂.toWellFormed) parts.2

/-- Application ends if evaluation does with less room, in which a body is evaluated. -/
theorem applies_apply (room : Nat)
    (evaluates : ∀ r, room = r + 1 → ∀ env, Evaluates env
      (fun part => Unbounded.eval ev r part env) fun part => ev.eval r part env) :
    Applies (Unbounded.apply ev room) (ev.apply room) := by
  intro d h f args a used usedArgs
  unfold Unbounded.apply Evaluator.apply
  refine .get_bind ?_
  cases found : h.object? f with
  | none => exact completes_notCallable a used
  | some o =>
      cases o with
      | primitive p => exact completes_call a (a.standard_of_primitive used.fills found) usedArgs
      | procedure params body captured =>
          rcases a.procedure_used used.fills found with ⟨usedParams, usedBody, usedEnv⟩
          refine .get_bind ?_
          cases isEnv : h.env? captured.value with
          | none => exact .lift (maintains_raise a _ _)
          | some env =>
              rw [value_of_env? isEnv] at usedEnv
              cases room with
              | zero => exact .throw a _
              | succ room =>
                  refine .scope ?_ fun _ _ _ height used => used.truncateRoots height
                  refine .root_bind a used (.inl rfl) fun a₁ keptFunction => ?_
                  refine .root_bind a₁ (usedArgs.addRoot f) (.inl rfl) fun a₂ _ => ?_
                  -- The body stays in place as part of the procedure, which is rooted.
                  have foundThere : ((h.addRoot f).addRoot args).object? f =
                      some (.procedure params body captured) := by
                    rw [Heap.object?_addRoot, Heap.object?_addRoot, found]
                  have keptBody := (keptFunction.addRoot args).procedure_body a₂.toSuited
                    usedBody.fills foundThere
                  refine .bind (completes_extend a₂ ((usedEnv.addRoot f).addRoot args)
                    ((usedParams.addRoot f).addRoot args) (usedArgs.addRoot f |>.addRoot args)) ?_
                  intro d₃ h₃ x a₃ retains made
                  cases x with
                  | error e => exact .lift (maintains_toValue a₃ e)
                  | ok child =>
                      refine .root_bind a₃ (made child rfl) (.inr rfl) fun a₄ keptChild => ?_
                      have retains := retains.trans (.addRoot d₃ h₃ child.value)
                      have keptBody := retains.kept keptBody
                      rcases a₄.exists_spine (.inl rfl) (keptBody.used a₄.toWellFormed) with
                        ⟨items, tail, spine, _⟩
                      exact completes_sequence (evaluates room rfl child) a₄ keptChild
                        (.nil _ _ nofun) keptBody spine (a₄.length_lt spine)
      | _ => exact completes_notCallable a used

/-- With whatever room is left, evaluation and application come to an end. -/
theorem evaluates_and_applies (ev : Evaluator) (room : Nat) :
    (∀ env, Evaluates env (fun part => Unbounded.eval ev room part env)
      fun part => ev.eval room part env) ∧ Applies (Unbounded.apply ev room) (ev.apply room) := by
  -- Induction on the room, for evaluation and application together.
  induction room with
  | zero =>
      refine ⟨fun env d h part a keptEnv used => ?_, applies_apply 0 nofun⟩
      exact completes_eval 0 nofun nofun a (keptEnv.used a.toWellFormed) used
  | succ room ih =>
      have evaluates : ∀ r, room + 1 = r + 1 → ∀ env, Evaluates env
          (fun part => Unbounded.eval ev r part env) fun part => ev.eval r part env := by
        rintro r ⟨⟩
        exact ih.1
      have applies : ∀ r, room + 1 = r + 1 → Applies (Unbounded.apply ev r) (ev.apply r) := by
        rintro r ⟨⟩
        exact ih.2
      refine ⟨fun env d h part a keptEnv used => ?_, applies_apply (room + 1) evaluates⟩
      exact completes_eval (room + 1) evaluates applies a (keptEnv.used a.toWellFormed) used

/-- Data is evaluated to an end, with whatever room there is. -/
theorem completes_datum (ev : Evaluator) (room : Nat) (a : Orderly d h)
    (usedEnv : Used d h .frame env.value) (used : Used d h .datum expr) :
    Completes d h (Unbounded.eval ev room expr env) (ev.eval room expr env)
      fun d₁ h₁ v => Used d₁ h₁ .datum v := by
  refine completes_eval room ?_ ?_ a usedEnv used
  · exact fun r _ => (evaluates_and_applies ev r).1
  · exact fun r _ => (evaluates_and_applies ev r).2

end Rooms

end Termination

end Lisplet
