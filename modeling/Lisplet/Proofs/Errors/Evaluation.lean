import Lisplet.Proofs.Errors.Storage
import Lisplet.Proofs.Termination.Evaluation

/-!
# Evaluation — what is evaluated stores no errors

Evaluation makes error values, but each is what some evaluation gives, and an error value that a
part of a form gives ends the form. What a form stores has been found to be no error; it is still
none after further evaluations, because it is kept while they make errors of their own. So a heap
that is untainted before an evaluation is untainted after it, however it ends.
-/

namespace Lisplet

namespace Termination

open Evaluator HeapM
open Simulation (Role)

variable {d d' : Layout} {h h' : Heap} {v expr operands args : Value} {env : Env}

/-! ## Error values -/

theorem Retains.isError (k : Retains d h d' h') (a' : Suited d' h') (kept : Kept d h .datum v)
    (proper : h.isError v = false) : h'.isError v = false := by
  rcases kept with ⟨tethered, _ | use | use⟩
  · rfl
  · rw [Heap.isError_eq_false_iff] at proper ⊢
    rwa [k.objects _ tethered use]
  · rcases k.exists_environment a' tethered use with ⟨_, _, found⟩
    exact Heap.isError_of_object? found nofun

theorem Orderly.isError_frame (a : Orderly d h) (used : Used d h .frame v) :
    h.isError v = false := by
  rcases used with ⟨fills, held⟩
  cases fills with
  | nil other => exact absurd rfl other
  | slot use =>
      rcases Heap.occupied_iff.1 (Heap.holds_slot_iff.1 held) with ⟨o, found⟩
      rcases a.exists_environment (.slot use) found with ⟨bindings, parent, rfl⟩
      exact Heap.isError_of_object? found nofun

/-- A new error value is put where no reference leads. -/
theorem leaves_raise (w : h.WellFormed) (t : h.Untainted) (kind : ErrorKind) (message : String) :
    Leaves h (raise kind message) := by
  have room := (Heap.gains_makeRoom h).untainted t nofun nofun
  have w' := (Heap.Evolves.makeRoom w).wellFormed
  unfold Leaves Cleans raise
  rcases allocate_cases h (.error kind message) with ⟨_, step⟩ | ⟨_, step⟩
  · rw [step]
    rcases w'.places_insert (.error kind message) with ⟨i, _, p⟩
    refine .ok (fun v o u found member => ?_) trivial
    rw [p.object?_eq] at found
    split at found
    · cases found
      cases member
    · have other : u ≠ .slot i := by
        rintro rfl
        exact p.fresh (Heap.holds_slot_iff.1 (w'.holds_reference found member))
      have proper := room v o u found member
      rw [Heap.isError_eq_false_iff] at proper ⊢
      rwa [p.object?_eq, if_neg other]
  · rw [step]
    exact .error room

/-- An operation that keeps the heap orderly besides lets others follow it. -/
theorem Cleans.bind_upkept {ε α β : Type} {op : HeapM ε α} {next : α → HeapM ε β}
    {Q : Layout → Heap → α → Prop} {P : Heap → α → Prop} {R : Heap → β → Prop}
    (m : Maintains d h op Q) (c : Cleans h op P)
    (continues : ∀ d₁ h₁ x, Orderly d₁ h₁ → Retains d h d₁ h₁ → Q d₁ h₁ x → h₁.Untainted →
      P h₁ x → Cleans h₁ (next x) R) : Cleans h (op >>= next) R := by
  refine c.bind fun h₁ x step t p => ?_
  unfold Maintains at m
  rw [step] at m
  cases m with
  | ok a retains q => exact continues _ h₁ x a retains q t p

/-- After a part has been evaluated an error value ends the form, and other values let it go on. -/
theorem Cleans.checked {α : Type} {op : HeapM Fatal Value} {stop next : Value → HeapM Fatal α}
    {R : Heap → α → Prop} (m : Maintains d h op fun d₁ h₁ v => Used d₁ h₁ .datum v)
    (c : Leaves h op) (stops : ∀ h₁ v, h₁.Untainted → Cleans h₁ (stop v) R)
    (continues : ∀ d₁ h₁ v, Orderly d₁ h₁ → Retains d h d₁ h₁ → Used d₁ h₁ .datum v →
      h₁.Untainted → h₁.isError v = false → Cleans h₁ (next v) R) :
    Cleans h (op >>= fun v => get >>= fun h => if h.isError v then stop v else next v) R := by
  refine Cleans.bind_upkept m c fun d₁ h₁ v a retains used t _ => .get_bind ?_
  refine .ite (fun _ => stops h₁ v t) fun proper => ?_
  exact continues d₁ h₁ v a retains used t (Bool.eq_false_of_not_eq_true proper)

/-! ## Complaints -/

section Complaints

theorem leaves_wrongKind (w : h.WellFormed) (t : h.Untainted) (who expected : String) (v : Value) :
    Leaves h (wrongKind who expected v) := .get_bind (leaves_raise w t _ _)

theorem leaves_malformed (w : h.WellFormed) (t : h.Untainted) (form : String) (v : Value) :
    Leaves h (malformed form v) := .get_bind (leaves_raise w t _ _)

theorem leaves_notCallable (w : h.WellFormed) (t : h.Untainted) (v : Value) :
    Leaves h (notCallable v) := .get_bind (leaves_raise w t _ _)

theorem leaves_toValue (w : h.WellFormed) (t : h.Untainted) (e : BindingError) :
    Leaves h e.toValue := leaves_raise w t _ _

end Complaints

/-! ## Primitives -/

section Primitives

theorem leaves_withOne (w : h.WellFormed) (t : h.Untainted) (who : String)
    (proper : h.isError args = false) {body : Value → HeapM Fatal Value}
    (continues : ∀ x, h.isError x = false → Leaves h (body x)) :
    Leaves h (withOne who args body) := by
  refine .get_bind ?_
  cases found : h.items? args with
  | none => exact leaves_raise w t _ _
  | some items =>
      have parts := t.items proper found
      rcases items with _ | ⟨x, _ | ⟨y, rest⟩⟩
      · exact leaves_raise w t _ _
      · exact continues x (parts x List.mem_cons_self)
      · exact leaves_raise w t _ _

theorem leaves_withTwo (w : h.WellFormed) (t : h.Untainted) (who : String)
    (proper : h.isError args = false) {body : Value → Value → HeapM Fatal Value}
    (continues : ∀ x y, h.isError x = false → h.isError y = false → Leaves h (body x y)) :
    Leaves h (withTwo who args body) := by
  refine .get_bind ?_
  cases found : h.items? args with
  | none => exact leaves_raise w t _ _
  | some items =>
      have parts := t.items proper found
      rcases items with _ | ⟨x, _ | ⟨y, _ | ⟨z, rest⟩⟩⟩
      · exact leaves_raise w t _ _
      · exact leaves_raise w t _ _
      · exact continues x y (parts x List.mem_cons_self) (parts y (by simp))
      · exact leaves_raise w t _ _

theorem leaves_car (w : h.WellFormed) (t : h.Untainted) (who : String) (v : Value) :
    Leaves h (car who v) := by
  refine .ite (fun _ => .pure t trivial) fun _ => .get_bind ?_
  cases h.car? v with
  | some part => exact .pure t trivial
  | none => exact leaves_wrongKind w t who _ v

theorem leaves_cdr (w : h.WellFormed) (t : h.Untainted) (who : String) (v : Value) :
    Leaves h (cdr who v) := by
  refine .ite (fun _ => .pure t trivial) fun _ => .get_bind ?_
  cases h.cdr? v with
  | some part => exact .pure t trivial
  | none => exact leaves_wrongKind w t who _ v

theorem leaves_operand (w : h.WellFormed) (t : h.Untainted) (who : String) (v : Value) :
    Leaves h (operand who v) := by
  refine .get_bind ?_
  split
  · exact .pure t trivial
  · exact .pure t trivial
  · exact .pure t trivial
  · exact Leaves.map (leaves_raise w t _ _) _
  · exact Leaves.map (leaves_wrongKind w t who _ v) _

theorem leaves_operandsOnto (a : Orderly d h) (t : h.Untainted) (who : String)
    (found : List Number) (items : List Value) : Leaves h (operandsOnto who found items) := by
  induction items generalizing d h found with
  | nil => exact .pure t trivial
  | cons v items ih =>
      refine Cleans.bind_upkept (maintains_operand a who v)
        (leaves_operand a.toWellFormed t who v) ?_
      intro d₁ h₁ x a₁ _ _ t₁ _
      cases x with
      | ok n => exact ih a₁ t₁ (n :: found)
      | error e => exact .pure t₁ trivial

theorem leaves_withNumbers (a : Orderly d h) (t : h.Untainted) (who : String)
    {body : List Number → HeapM Fatal Value}
    (continues : ∀ d₁ h₁ numbers, Orderly d₁ h₁ → h₁.Untainted → Leaves h₁ (body numbers)) :
    Leaves h (withNumbers who args body) := by
  refine .get_bind ?_
  cases h.items? args with
  | none => exact leaves_raise a.toWellFormed t _ _
  | some items =>
      refine Cleans.bind_upkept (maintains_operandsOnto a who [] items)
        (leaves_operandsOnto a t who [] items) ?_
      intro d₁ h₁ x a₁ _ _ t₁ _
      cases x with
      | ok numbers => exact continues d₁ h₁ numbers.reverse a₁ t₁
      | error e => exact .pure t₁ trivial

theorem leaves_arithmetic (a : Orderly d h) (t : h.Untainted) (op : Operator) :
    Leaves h (arithmetic op args) := by
  refine .ite (fun _ => leaves_raise a.toWellFormed t _ _) fun _ => ?_
  refine leaves_withNumbers a t op.name fun d₁ h₁ numbers a₁ t₁ => ?_
  split
  · next n _ =>
    cases n with
    | int n =>
        exact (builds_atom (o := .int n) t₁ (fun _ _ => nofun) rfl).leaves
    | float x =>
        exact (builds_atom (o := .float x) t₁ (fun _ _ => nofun) rfl).leaves
  · exact leaves_raise a₁.toWellFormed t₁ _ _
  · exact leaves_raise a₁.toWellFormed t₁ _ _

theorem leaves_comparison (a : Orderly d h) (t : h.Untainted) (c : Comparison) :
    Leaves h (comparison c args) := by
  unfold comparison
  dsimp only
  refine leaves_withNumbers a t c.name fun d₁ h₁ numbers a₁ t₁ => ?_
  exact .ite (fun _ => leaves_raise a₁.toWellFormed t₁ _ _) fun _ => .get_bind (.pure t₁ trivial)

/-- The primitives of the root environment store their arguments only in pairs. -/
theorem leaves_call (a : Orderly d h) (t : h.Untainted) {p : Primitive}
    (standard : p ∈ Primitive.standard) (proper : h.isError args = false) :
    Leaves h (p.call args) := by
  have w := a.toWellFormed
  cases p with
  | list => exact .pure t trivial
  | cons =>
      refine leaves_withTwo w t _ proper fun x y properX properY => ?_
      exact (builds_cons t properX properY).leaves
  | car => exact leaves_withOne w t _ proper fun x _ => leaves_car w t _ x
  | cdr => exact leaves_withOne w t _ proper fun x _ => leaves_cdr w t _ x
  | same => exact leaves_withTwo w t _ proper fun x y _ _ => .get_bind (.pure t trivial)
  | equal => exact leaves_withTwo w t _ proper fun x y _ _ => .get_bind (.pure t trivial)
  | question q => exact leaves_withOne w t _ proper fun x _ => .get_bind (.pure t trivial)
  | arithmetic op => exact leaves_arithmetic a t op
  | comparison c => exact leaves_comparison a t c
  | error =>
      refine .get_bind ?_
      cases h.items? args with
      | none => exact leaves_raise w t _ _
      | some items => exact leaves_raise w t _ _
  | exit => exact .get_bind (.throw t _)
  -- These belong to the register machine, whose environment is another one.
  | print | lookupVariable | setVariable | defineVariable | extendEnvironment
  | globalEnvironment => exact absurd standard (by decide)

end Primitives

/-! ## Loops -/

section Parts

/-- Wherever the environment is kept, the evaluation of a part leaves the heap untainted. -/
def PartsLeave (env : Env) (evaluate : Value → HeapM Fatal Value) : Prop :=
  ∀ d h part, Orderly d h → Kept d h .frame env.value → Used d h .datum part → h.Untainted →
    Leaves h (evaluate part)

/-- Applying a value to arguments that are no errors leaves the heap untainted. -/
def CallsLeave (apply : Value → Value → HeapM Fatal Value) : Prop :=
  ∀ d h f args, Orderly d h → Used d h .datum f → Used d h .datum args → h.Untainted →
    h.isError args = false → Leaves h (apply f args)

variable {evaluate' : Value → UnboundedM Value} {evaluate : Value → HeapM Fatal Value}
  {list : Value}

theorem leaves_sequence (evaluates : Evaluates env evaluate' evaluate)
    (parts : PartsLeave env evaluate) {result : Value} {steps : Nat} (a : Orderly d h)
    (keptEnv : Kept d h .frame env.value) (kept : Kept d h .datum list) (t : h.Untainted) :
    Leaves h (sequenceWith evaluate result steps list) := by
  induction steps generalizing d h result list with
  | zero => exact .pure t trivial
  | succ steps ih =>
      refine .get_bind ?_
      cases goes : h.pair? list with
      | none => exact .pure t trivial
      | some pair =>
          rcases pair with ⟨first, rest⟩
          have kept := kept.parts a.toSuited goes
          have used := kept.1.used a.toWellFormed
          refine Cleans.checked (evaluates d h first a keptEnv used).maintains
            (parts d h first a keptEnv used t) (fun _ _ t₁ => .pure t₁ trivial) ?_
          intro d₁ h₁ v a₁ retains _ t₁ _
          exact ih a₁ (retains.kept keptEnv) (retains.kept kept.2) t₁

/-- The values found so far are no errors when they are found, and rooted from then on. -/
theorem cleans_operands (evaluates : Evaluates env evaluate' evaluate)
    (parts : PartsLeave env evaluate) {found : List Value} {steps : Nat} (a : Orderly d h)
    (keptEnv : Kept d h .frame env.value) (kept : Kept d h .datum list) (t : h.Untainted)
    (keptFound : ∀ v ∈ found, Kept d h .datum v) (proper : ∀ v ∈ found, h.isError v = false) :
    Cleans h (operandsWith evaluate found steps list) fun h₁ x =>
      ∀ values, x = .values values → ∀ v ∈ values, h₁.isError v = false := by
  induction steps generalizing d h found list with
  | zero => exact .pure t nofun
  | succ steps ih =>
      refine .get_bind ?_
      cases goes : h.pair? list with
      | none =>
          refine .pure t fun values same => ?_
          split at same
          · cases same
            exact proper
          · cases same
      | some pair =>
          rcases pair with ⟨first, rest⟩
          have kept := kept.parts a.toSuited goes
          have used := kept.1.used a.toWellFormed
          refine Cleans.checked (evaluates d h first a keptEnv used).maintains
            (parts d h first a keptEnv used t) (fun _ _ t₁ => .pure t₁ nofun) ?_
          intro d₁ h₁ v a₁ retains used t₁ properValue
          refine .root_bind t₁ fun t₂ spares => ?_
          have rooted := a₁.addRoot (.inl used)
          have keptValue : Kept d₁ (h₁.addRoot v) .datum v := ⟨tethered_addRoot d₁ h₁ v, used.fills⟩
          have retains := retains.trans (.addRoot d₁ h₁ v)
          refine ih rooted (retains.kept keptEnv) (retains.kept kept.2) t₂ ?_ ?_
          · exact List.forall_mem_cons.2
              ⟨keptValue, fun u member => retains.kept (keptFound u member)⟩
          · refine List.forall_mem_cons.2 ⟨spares v properValue, fun u member => ?_⟩
            exact retains.isError rooted.toSuited (keptFound u member) (proper u member)

/-! ## Special forms -/

theorem leaves_quoteForm (w : h.WellFormed) (t : h.Untainted) :
    Leaves h (quoteForm expr operands) := by
  refine .get_bind ?_
  split
  · exact .pure t trivial
  · exact leaves_malformed w t _ _

theorem leaves_choose (evaluates : Evaluates env evaluate' evaluate)
    (parts : PartsLeave env evaluate) (a : Orderly d h) (keptEnv : Kept d h .frame env.value)
    (t : h.Untainted) {test consequent : Value} {alternative : Option Value}
    (usedTest : Used d h .datum test) (keptConsequent : Kept d h .datum consequent)
    (keptAlternative : ∀ v, alternative = some v → Kept d h .datum v) :
    Leaves h (choose evaluate test consequent alternative) := by
  refine Cleans.checked (evaluates d h test a keptEnv usedTest).maintains
    (parts d h test a keptEnv usedTest t) (fun _ _ t₁ => .pure t₁ trivial) ?_
  intro d₁ h₁ outcome a₁ retains _ t₁ _
  have keptEnv := retains.kept keptEnv
  cases outcome with
  | nil =>
      cases alternative with
      | none => exact .pure t₁ trivial
      | some v =>
          have kept := retains.kept (keptAlternative v rfl)
          exact parts d₁ h₁ v a₁ keptEnv (kept.used a₁.toWellFormed) t₁
  | slot i =>
      have kept := retains.kept keptConsequent
      exact parts d₁ h₁ consequent a₁ keptEnv (kept.used a₁.toWellFormed) t₁

theorem leaves_ifForm (evaluates : Evaluates env evaluate' evaluate)
    (parts : PartsLeave env evaluate) (a : Orderly d h) (keptEnv : Kept d h .frame env.value)
    (kept : Kept d h .datum operands) (t : h.Untainted) :
    Leaves h (ifForm evaluate expr operands) := by
  refine .get_bind ?_
  split
  · next test consequent found =>
    have items := kept.items a found
    exact leaves_choose evaluates parts a keptEnv t ((items test (by simp)).used a.toWellFormed)
      (items consequent (by simp)) nofun
  · next test consequent alternative found =>
    have items := kept.items a found
    refine leaves_choose evaluates parts a keptEnv t ((items test (by simp)).used a.toWellFormed)
      (items consequent (by simp)) ?_
    rintro _ ⟨⟩
    exact items alternative (by simp)
  · exact leaves_malformed a.toWellFormed t _ _

/-- An assignment has found its value to be no error. -/
theorem leaves_setForm (evaluates : Evaluates env evaluate' evaluate)
    (parts : PartsLeave env evaluate) (a : Orderly d h) (keptEnv : Kept d h .frame env.value)
    (kept : Kept d h .datum operands) (t : h.Untainted) :
    Leaves h (setForm evaluate expr operands env) := by
  refine .get_bind ?_
  split
  · next target source found =>
    have items := kept.items a found
    have keptTarget := items target (by simp)
    have usedSource := (items source (by simp)).used a.toWellFormed
    refine .get_bind (.ite (fun _ => ?_) fun _ => leaves_wrongKind a.toWellFormed t _ _ _)
    refine Cleans.checked (evaluates d h source a keptEnv usedSource).maintains
      (parts d h source a keptEnv usedSource t) (fun _ _ t₁ => .pure t₁ trivial) ?_
    intro d₁ h₁ value a₁ retains used t₁ proper
    refine Cleans.bind_upkept (completes_set a₁ (retains.used keptEnv a₁.toWellFormed)
      (retains.used keptTarget a₁.toWellFormed) used).maintains (builds_set t₁ proper).leaves ?_
    intro d₂ h₂ x a₂ _ _ t₂ _
    cases x with
    | ok _ => exact .pure t₂ trivial
    | error e => exact leaves_toValue a₂.toWellFormed t₂ e
  · exact leaves_malformed a.toWellFormed t _ _

theorem leaves_defineProcedure (a : Orderly d h) {name params body : Value} (t : h.Untainted)
    (usedEnv : Used d h .frame env.value)
    (properParams : h.isError params = false) (properBody : h.isError body = false) :
    Leaves h (defineProcedure name params body env) := by
  refine .get_bind (.ite (fun isSymbol => ?_) fun _ => leaves_wrongKind a.toWellFormed t _ _ _)
  have properName := Heap.isError_of_symbol isSymbol
  refine Builds.leaves (P := fun _ _ => True) ?_
  refine .bind (builds_procedure t properParams properBody (a.isError_frame usedEnv)) ?_
  intro h₁ procedure t₁ spares proper
  refine .root_bind t₁ fun t₂ spares' => ?_
  refine .bind (builds_define t₂ (spares' name (spares name properName))
    (spares' procedure proper)) ?_
  exact fun _ _ t₃ _ _ => .pure t₃ trivial

/-- A definition has found its value to be no error. -/
theorem leaves_defineForm (evaluates : Evaluates env evaluate' evaluate)
    (parts : PartsLeave env evaluate) (a : Orderly d h) (keptEnv : Kept d h .frame env.value)
    (kept : Kept d h .datum operands) (t : h.Untainted) :
    Leaves h (defineForm evaluate expr operands env) := by
  have w := a.toWellFormed
  refine .get_bind ?_
  cases goes : h.pair? operands with
  | none => exact leaves_malformed w t _ _
  | some pair =>
      rcases pair with ⟨target, rest⟩
      have kept := kept.parts a.toSuited goes
      have proper := t.parts goes
      refine .get_bind ?_
      cases isPair : h.pair? target with
      | some shape =>
          rcases shape with ⟨name, params⟩
          exact leaves_defineProcedure a t (keptEnv.used w) (t.parts isPair).2 proper.2
      | none =>
          refine .get_bind ?_
          split
          · next source found =>
            have usedSource := (kept.2.items a found source (by simp)).used w
            refine .get_bind (.ite (fun _ => ?_) fun _ => leaves_wrongKind w t _ _ _)
            refine Cleans.checked (evaluates d h source a keptEnv usedSource).maintains
              (parts d h source a keptEnv usedSource t) (fun _ _ t₁ => .pure t₁ trivial) ?_
            intro d₁ h₁ value a₁ retains _ t₁ properValue
            -- The symbol is part of the form and so has been kept all the while.
            have properTarget := retains.isError a₁.toSuited kept.1 proper.1
            refine Builds.leaves (P := fun _ _ => True) (.root_bind t₁ fun t₂ spares => ?_)
            refine .bind (builds_define t₂ (spares target properTarget)
              (spares value properValue)) ?_
            exact fun _ _ t₃ _ _ => .pure t₃ trivial
          · exact leaves_malformed w t _ _

theorem leaves_lambdaForm (a : Orderly d h) (usedEnv : Used d h .frame env.value)
    (t : h.Untainted) : Leaves h (lambdaForm expr operands env) := by
  refine .get_bind ?_
  cases goes : h.pair? operands with
  | none => exact leaves_malformed a.toWellFormed t _ _
  | some pair =>
      have proper := t.parts goes
      refine .get_bind ?_
      split
      · exact (builds_procedure t proper.1 proper.2 (a.isError_frame usedEnv)).leaves
      · exact leaves_malformed a.toWellFormed t _ _

/-- The list of arguments is built of values that are no errors. -/
theorem leaves_application (evaluates : Evaluates env evaluate' evaluate)
    (parts : PartsLeave env evaluate) {apply : Value → Value → HeapM Fatal Value}
    (calls : CallsLeave apply) {head : Value} (a : Orderly d h)
    (keptEnv : Kept d h .frame env.value) (usedHead : Used d h .datum head)
    (kept : Kept d h .datum operands) (t : h.Untainted) :
    Leaves h (application evaluate apply expr head operands) := by
  refine Cleans.checked (evaluates d h head a keptEnv usedHead).maintains
    (parts d h head a keptEnv usedHead t) (fun _ _ t₁ => .pure t₁ trivial) ?_
  intro d₁ h₁ function a₁ retains used t₁ _
  refine .root_bind t₁ fun t₂ _ => ?_
  have a₂ := a₁.addRoot (.inl used)
  have keptFunction : Kept d₁ (h₁.addRoot function) .datum function :=
    ⟨tethered_addRoot d₁ h₁ function, used.fills⟩
  have retains := retains.trans (.addRoot d₁ h₁ function)
  have keptEnv := retains.kept keptEnv
  have kept := retains.kept kept
  rcases a₂.exists_spine (.inl rfl) (kept.used a₂.toWellFormed) with ⟨items, tail, spine, _⟩
  refine Cleans.bind_upkept (completes_operands evaluates a₂ keptEnv (List.forall_mem_nil _)
    kept spine (a₂.length_lt spine)).maintains
    (cleans_operands evaluates parts a₂ keptEnv kept t₂ (List.forall_mem_nil _)
      (List.forall_mem_nil _)) ?_
  intro d₃ h₃ x a₃ retains' became t₃ proper
  cases became with
  | failed _ => exact .pure t₃ trivial
  | improper => exact leaves_malformed a₃.toWellFormed t₃ _ _
  | @values found keptFound =>
      have usedFound : ∀ v ∈ found.reverse, Used d₃ h₃ .datum v := fun v member =>
        (keptFound v (List.mem_reverse.1 member)).used a₃.toWellFormed
      have properFound : ∀ v ∈ found.reverse, h₃.isError v = false := fun v member =>
        proper found rfl v (List.mem_reverse.1 member)
      refine Cleans.bind_upkept (maintains_list a₃ usedFound)
        (builds_list t₃ properFound).cleans ?_
      intro d₄ h₄ args a₄ retains'' usedArgs t₄ properArgs
      have keptFunction := retains''.kept (retains'.kept keptFunction)
      exact calls d₄ h₄ function args a₄ (keptFunction.used a₄.toWellFormed) usedArgs t₄ properArgs

end Parts

/-! ## Evaluation and application -/

section Rooms

variable {ev : Evaluator}

/-- Evaluation leaves the heap untainted if it does with less room, in which parts are evaluated. -/
theorem leaves_eval (room : Nat)
    (parts : ∀ r, room = r + 1 → ∀ env, PartsLeave env fun part => ev.eval r part env)
    (calls : ∀ r, room = r + 1 → CallsLeave (ev.apply r)) {d : Layout} {h : Heap}
    (a : Orderly d h) (usedEnv : Used d h .frame env.value) (used : Used d h .datum expr)
    (t : h.Untainted) : Leaves h (ev.eval room expr env) := by
  unfold Evaluator.eval
  refine .get_bind ?_
  refine .ite (fun _ => .pure t trivial) fun _ => .ite (fun _ => ?_) fun _ => ?_
  · cases env.lookup h expr with
    | ok v => exact .pure t trivial
    | error e => exact leaves_toValue a.toWellFormed t e
  cases goes : h.pair? expr with
  | none => exact .pure t trivial
  | some pair =>
      rcases pair with ⟨head, operands⟩
      cases room with
      | zero => exact .throw t _
      | succ room =>
          have evaluates := (evaluates_and_applies ev room).1 env
          have parts := parts room rfl env
          have calls := calls room rfl
          refine .scope ?_ fun _ _ _ _ => trivial
          refine .root_bind t fun t₁ _ => .root_bind t₁ fun t₂ _ => ?_
          have a₁ := a.addRoot (.inl used)
          have usedEnv₁ := usedEnv.addRoot expr
          have a₂ := a₁.addRoot (.inr usedEnv₁)
          have w := a₂.toWellFormed
          have keptExpr : Kept d ((h.addRoot expr).addRoot env.value) .datum expr :=
            Kept.addRoot ⟨tethered_addRoot d h expr, used.fills⟩ env.value
          have keptEnv : Kept d ((h.addRoot expr).addRoot env.value) .frame env.value :=
            ⟨tethered_addRoot d _ env.value, usedEnv.fills⟩
          have kept := keptExpr.parts a₂.toSuited (by
            rw [Simulation.pair?_addRoot, Simulation.pair?_addRoot, goes])
          refine .ite (fun _ => leaves_quoteForm w t₂) fun _ => ?_
          refine .ite (fun _ => leaves_ifForm evaluates parts a₂ keptEnv kept.2 t₂) fun _ => ?_
          refine .ite (fun _ => leaves_setForm evaluates parts a₂ keptEnv kept.2 t₂) fun _ => ?_
          refine .ite (fun _ => leaves_defineForm evaluates parts a₂ keptEnv kept.2 t₂)
            fun _ => ?_
          refine .ite (fun _ => leaves_lambdaForm a₂ (keptEnv.used w) t₂) fun _ => ?_
          refine .ite (fun _ => leaves_sequence evaluates parts a₂ keptEnv kept.2 t₂) fun _ => ?_
          exact leaves_application evaluates parts calls a₂ keptEnv (kept.1.used w) kept.2 t₂

/-- The body of a procedure is evaluated where its parameters are bound to no error values. -/
theorem calls_apply (room : Nat)
    (parts : ∀ r, room = r + 1 → ∀ env, PartsLeave env fun part => ev.eval r part env) :
    CallsLeave (ev.apply room) := by
  intro d h f args a used usedArgs t properArgs
  unfold Evaluator.apply
  refine .get_bind ?_
  cases found : h.object? f with
  | none => exact leaves_notCallable a.toWellFormed t f
  | some o =>
      cases o with
      | primitive p => exact leaves_call a t (a.standard_of_primitive used.fills found) properArgs
      | procedure params body captured =>
          rcases a.procedure_used used.fills found with ⟨usedParams, usedBody, usedEnv⟩
          have properParams := t f _ params found (by simp [Object.references])
          refine .get_bind ?_
          cases isEnv : h.env? captured.value with
          | none => exact leaves_raise a.toWellFormed t _ _
          | some env =>
              rw [value_of_env? isEnv] at usedEnv
              cases room with
              | zero => exact .throw t _
              | succ room =>
                  have evaluates := (evaluates_and_applies ev room).1
                  refine .scope ?_ fun _ _ _ _ => trivial
                  refine .root_bind t fun t₁ spares₁ => .root_bind t₁ fun t₂ spares₂ => ?_
                  have a₁ := a.addRoot (.inl used)
                  have a₂ := a₁.addRoot (.inl (usedArgs.addRoot f))
                  have keptFunction : Kept d ((h.addRoot f).addRoot args) .datum f :=
                    Kept.addRoot ⟨tethered_addRoot d h f, used.fills⟩ args
                  have keptBody := keptFunction.procedure_body a₂.toSuited usedBody.fills (by
                    rw [Heap.object?_addRoot, Heap.object?_addRoot, found])
                  have usedEnv := (usedEnv.addRoot f).addRoot args
                  have since := spares₁.trans spares₂
                  refine Cleans.bind_upkept (completes_extend a₂ usedEnv
                    ((usedParams.addRoot f).addRoot args)
                    ((usedArgs.addRoot f).addRoot args)).maintains
                    (builds_extend t₂ (a₂.isError_frame usedEnv) (since params properParams)
                      (since args properArgs)).leaves ?_
                  intro d₃ h₃ x a₃ retains made t₃ _
                  cases x with
                  | error e => exact leaves_toValue a₃.toWellFormed t₃ e
                  | ok child =>
                      have usedChild := made child rfl
                      refine .root_bind t₃ fun t₄ _ => ?_
                      have a₄ := a₃.addRoot (.inr usedChild)
                      have keptChild : Kept d₃ (h₃.addRoot child.value) .frame child.value :=
                        ⟨tethered_addRoot d₃ h₃ child.value, usedChild.fills⟩
                      have retains := retains.trans (.addRoot d₃ h₃ child.value)
                      exact leaves_sequence (evaluates child) (parts room rfl child) a₄ keptChild
                        (retains.kept keptBody) t₄
      | _ => exact leaves_notCallable a.toWellFormed t f

/-- With whatever room is left, evaluation and application leave an untainted heap untainted. -/
theorem parts_and_calls (ev : Evaluator) (room : Nat) :
    (∀ env, PartsLeave env fun part => ev.eval room part env) ∧ CallsLeave (ev.apply room) := by
  -- Induction on the room, for evaluation and application together.
  induction room with
  | zero =>
      refine ⟨fun env d h part a keptEnv used t => ?_, calls_apply 0 nofun⟩
      exact leaves_eval 0 nofun nofun a (keptEnv.used a.toWellFormed) used t
  | succ room ih =>
      have parts : ∀ r, room + 1 = r + 1 → ∀ env,
          PartsLeave env fun part => ev.eval r part env := by
        rintro r ⟨⟩
        exact ih.1
      have calls : ∀ r, room + 1 = r + 1 → CallsLeave (ev.apply r) := by
        rintro r ⟨⟩
        exact ih.2
      refine ⟨fun env d h part a keptEnv used t => ?_, calls_apply (room + 1) parts⟩
      exact leaves_eval (room + 1) parts calls a (keptEnv.used a.toWellFormed) used t

/-- Data is evaluated without any error value being stored. -/
theorem leaves_datum (ev : Evaluator) (room : Nat) (a : Orderly d h)
    (usedEnv : Used d h .frame env.value) (used : Used d h .datum expr) (t : h.Untainted) :
    Leaves h (ev.eval room expr env) := by
  refine leaves_eval room ?_ ?_ a usedEnv used t
  · exact fun r _ => (parts_and_calls ev r).1
  · exact fun r _ => (parts_and_calls ev r).2

end Rooms

end Termination

end Lisplet
