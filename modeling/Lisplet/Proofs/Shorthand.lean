import Lisplet.Proofs.Bindings
import Lisplet.Proofs.Heap.Rooting
import Lisplet.Proofs.Improper
import Lisplet.Proofs.Limit

/-!
# Shorthand — what the definition of a procedure abbreviates

`(define (name . params) . body)` makes a procedure at once and binds it; in
`(define name (lambda params . body))` the procedure is the value of an expression that is evaluated
first. The second way roots more, and checks the value before it binds it. Whatever it roots in
addition is part of an expression that is rooted, and a procedure is no error. So both ways allocate
the same objects in the same slots, collect at the same moments, and fail in the same way when there
is no room (`shorthand_eq_definition`).
-/

namespace Lisplet

open Heap.Operation (heapAfter)
open HeapM (Obeys)

/-! ## Heaps with other roots -/

namespace Heap

variable {ε α : Type} {h k k' : Heap} {op op' : HeapM ε α}

theorem mem_roots_addRoot (h : Heap) (v : Value) : v ∈ (h.addRoot v).roots.values ∨ v = .nil := by
  cases v with
  | nil => exact .inr rfl
  | slot i => exact .inl List.mem_cons_self

theorem Rerooted.scope {r r' : EStateM.Result ε Heap α} (both : Matches Rerooted r r')
    (h : Heap) :
    Matches Rerooted (HeapM.scope (fun _ => r) h) (HeapM.scope (fun _ => r') h) := by
  unfold HeapM.scope
  cases both with
  | ok v related => exact .ok v (related.truncateRoots _ _)
  | error e related => exact .error e (related.truncateRoots _ _)

theorem Rerooted.eq_of_level (r : k.Rerooted k') (level : h.Level k) (level' : h.Level k') :
    k' = k := by
  have same : k.roots = k'.roots := level.roots_eq.trans level'.roots_eq.symm
  rcases r with ⟨roots, rfl⟩
  exact congrArg (fun roots => { k with roots }) same.symm

/-- Two operations that leave the roots as they were leave the same heap. -/
theorem Rerooted.result_eq (both : Matches Rerooted (op h) (op' h)) (level : Obeys Level h op)
    (level' : Obeys Level h op') : op' h = op h := by
  unfold Obeys heapAfter at level level'
  generalize op h = r at both level
  generalize op' h = r' at both level'
  cases both with
  | ok v related => rw [related.eq_of_level level level']
  | error e related => rw [related.eq_of_level level level']

end Heap

namespace Evaluator

open Heap

/-! ## Both ways -/

/-- The expression is a form with these operands. -/
def Begins (ev : Evaluator) (h : Heap) (expr : Value) (form : Form) (operands : Value) : Prop :=
  ∃ head, h.pair? expr = some (head, operands) ∧ ev.forms.formOf head = form

/--
`short` is `(define (name . params) . body)`, and `long` is `(define name (lambda params . body))`.
The name is a symbol and the body a proper list; `params` may be anything.
-/
structure Abbreviates (ev : Evaluator) (h : Heap) (short long name params body : Value) :
    Prop where
  short : ∃ operands, ev.Begins h short .definition operands ∧ Names h operands name params body
  long : ∃ operands rest source parts, ev.Begins h long .definition operands ∧
    h.pair? operands = some (name, rest) ∧ h.items? rest = some [source] ∧
    ev.Begins h source .abstraction parts ∧ h.pair? parts = some (params, body)
  isSymbol : h.isSymbol name = true
  proper : ∃ items, h.items? body = some items

/-- What a definition does with the value that it has found. -/
def bound (name : Value) (env : Env) (value : Value) : HeapM Fatal Value := do
  HeapM.root value
  env.define name value
  pure value

section Ways

variable {ev : Evaluator} {base h h' : Heap} {name params body v : Value} {env : Env}

theorem defineProcedure_eq (isSymbol : h.isSymbol name = true) :
    defineProcedure name params body env h =
      (HeapM.procedure params body env >>= bound name env) h := by
  rw [defineProcedure, get_bind_apply, if_pos isSymbol]
  rfl

/-- What is bound to a name on heaps that are alike. -/
theorem bound_matches (a : base.Alike h h') (name : Value) (env : Env) (v : Value) :
    Matches Rerooted (bound name env v h) (bound name env v h') := by
  refine .bind (R := base.Alike) (.ok () (a.addRoot v)) (fun _ _ _ a => ?_) fun _ _ a => a.rerooted
  exact .bind (a.define env name v) (fun _ _ _ related => .ok v related) fun _ _ related => related

/-- A procedure is no error. -/
theorem isError_of_procedure (t : h.Tidy) (done : HeapM.procedure params body env h = .ok v h') :
    h'.isError v = false := by
  have object := object?_of_procedure t done
  cases v with
  | nil => cases object
  | slot i => simp [Heap.isError, Heap.kind, object, Object.kind]

end Ways

section Definitions

variable {ev : Evaluator} (whole : Evaluating) {name params body : Value} {room : Nat}

/-- The expression is compound, as none is in the slot of `t`. -/
theorem Begins.exists_compound {form : Form} {operands : Value} (worked : Worked whole.heap)
    (begins : ev.Begins whole.heap whole.expr form operands) :
    ∃ head, ev.Compound whole form head operands := by
  rcases begins with ⟨head, pair, rfl⟩
  exact ⟨head, compound_of_worked ev whole worked pair⟩

theorem Begins.opened {expr operands : Value} {form : Form}
    (begins : ev.Begins whole.heap expr form operands) :
    ev.Begins whole.opened expr form operands := by
  rcases begins with ⟨head, pair, isForm⟩
  exact ⟨head, (whole.pair?_opened expr).trans pair, isForm⟩

/-- The shorthand makes the procedure itself. -/
theorem outcome_of_names (worked : Worked whole.heap) {operands : Value}
    (begins : ev.Begins whole.heap whole.expr .definition operands)
    (names : Names whole.heap operands name params body)
    (isSymbol : whole.heap.isSymbol name = true) (enough : whole.room = room + 1) :
    ev.outcome whole = HeapM.scope (fun _ =>
      (HeapM.procedure params body whole.env >>= bound name whole.env) whole.opened)
        whole.heap := by
  rcases begins.exists_compound whole worked with ⟨head, c⟩
  rw [c.outcome_succ enough, work_of_names names,
    defineProcedure_eq ((whole.isSymbol_opened name).trans isSymbol)]

/-- Otherwise the value is evaluated, and bound if it is no error. -/
theorem outcome_of_value (worked : Worked whole.heap) {operands rest source : Value}
    (begins : ev.Begins whole.heap whole.expr .definition operands)
    (pair : whole.heap.pair? operands = some (name, rest))
    (value : whole.heap.items? rest = some [source]) (isSymbol : whole.heap.isSymbol name = true)
    (enough : whole.room = room + 1) :
    ev.outcome whole = HeapM.scope (fun _ =>
      (ev.eval room source whole.env >>= fun v => get >>= fun h =>
        if h.isError v then pure v else bound name whole.env v : HeapM Fatal Value) whole.opened)
        whole.heap := by
  rcases begins.exists_compound whole worked with ⟨head, c⟩
  have plain := pair?_of_isSymbol isSymbol
  have value' := Evaluating.items?_opened_eq_some value
  rw [← whole.pair?_opened] at pair plain
  rw [← whole.isSymbol_opened] at isSymbol
  have done : ev.work room .definition whole.expr head operands whole.env whole.opened =
      (ev.eval room source whole.env >>= fun v => get >>= fun h =>
        if h.isError v then pure v else bound name whole.env v : HeapM Fatal Value)
          whole.opened := by
    show defineForm _ whole.expr operands whole.env whole.opened = _
    simp only [defineForm, get_bind_apply, pair, plain, value', isSymbol, if_true]
    rfl
  rw [c.outcome_succ enough, done]

/-- The value of `(lambda params . body)` is made with two more roots. -/
theorem outcome_of_abstraction (worked : Worked whole.heap) {parts : Value}
    (begins : ev.Begins whole.heap whole.expr .abstraction parts)
    (pair : whole.heap.pair? parts = some (params, body))
    (proper : ∃ items, whole.heap.items? body = some items) (enough : whole.room = room + 1) :
    ev.outcome whole = HeapM.scope (fun _ => HeapM.procedure params body whole.env whole.opened)
      whole.heap := by
  rcases begins.exists_compound whole worked with ⟨head, c⟩
  rcases proper with ⟨items, proper⟩
  have proper' := Evaluating.items?_opened_eq_some proper
  rw [← whole.pair?_opened] at pair
  have done : ev.work room .abstraction whole.expr head parts whole.env whole.opened =
      HeapM.procedure params body whole.env whole.opened := by
    show lambdaForm whole.expr parts whole.env whole.opened = _
    simp only [lambdaForm, get_bind_apply, pair, proper']
  rw [c.outcome_succ enough, done]

end Definitions

/-! ## Step by step -/

section Steps

variable {ev : Evaluator} {base h h' h₁ h₂ : Heap} {name params body v : Value} {env : Env}

/-- Both definitions do their work on heaps that are alike. -/
theorem alike_opened {short long : Value} (t : h.Tidy) (kept : h.Anchored short)
    (kept' : h.Anchored long) (room : Nat) (env : Env) :
    h.Alike (Evaluating.opened ⟨room, short, env, h⟩) (Evaluating.opened ⟨room, long, env, h⟩) := by
  have a : h.Alike (h.addRoot short) h := ((Alike.refl t).addRoot_right (.inr kept)).symm
  exact (a.addRoot_right (.inr kept')).addRoot env.value

/-- The expression and the environment are kept anyway, so rooting them makes no difference. -/
theorem procedure_matches (worked : Worked h₂) (a : base.Alike h₁ h₂) {source parts : Value}
    (begins : ev.Begins h₂ source .abstraction parts) (pair : h₂.pair? parts = some (params, body))
    (proper : ∃ items, h₂.items? body = some items) (kept : base.Anchored source)
    (rooted : env.value ∈ h₁.roots.values ∨ base.Anchored env.value) (room : Nat) :
    Matches base.Alike (HeapM.procedure params body env h₁) (ev.eval (room + 1) source env h₂) := by
  have made := outcome_of_abstraction ⟨room + 1, source, env, h₂⟩ worked begins pair
    proper rfl
  have level := dataConduct_level.obeys_procedure h₁ params body env
  have keeps : Obeys KeepsRoots h₂ (fun _ => HeapM.procedure params body env
      (Evaluating.opened ⟨room + 1, source, env, h₂⟩)) :=
    ((KeepsRoots.addRoot _ _).trans (.addRoot _ _)).trans
      (dataConduct_keepsRoots.obeys_procedure _ params body env)
  have both := ((a.addRoot_right (.inr kept)).addRoot_right rooted).procedure params body env
  unfold outcome at made
  rw [made]
  exact a.scope_right level keeps both

/-- So the same is bound, or neither way has come to bind anything. -/
theorem binding_matches (t : h₁.Tidy) {op : HeapM Fatal Value}
    (both : Matches base.Alike (HeapM.procedure params body env h₁) (op h₂)) (name : Value) :
    Matches Rerooted ((HeapM.procedure params body env >>= bound name env) h₁)
      ((op >>= fun v => get >>= fun h => if h.isError v then pure v else bound name env v :
        HeapM Fatal Value) h₂) := by
  generalize first : HeapM.procedure params body env h₁ = r at both
  generalize second : op h₂ = r' at both
  cases both with
  | error e a =>
      simp only [Bind.bind, EStateM.bind, first, second]
      exact .error e a.rerooted
  | @ok v k k' a =>
      have fine : k'.isError v = false := by
        have fine := isError_of_procedure t first
        rcases a.rerooted with ⟨roots, rfl⟩
        exact fine
      rw [checked_of_fine second fine]
      simp only [Bind.bind, EStateM.bind, first]
      exact bound_matches a name env v

end Steps

/-! ## The whole of it -/

section Whole

variable {ev : Evaluator} {h : Heap} {short long name params body : Value} {room : Nat} {env : Env}

/-- The second way takes room for two nested evaluations. -/
theorem Abbreviates.exists_room (a : ev.Abbreviates h short long name params body)
    (worked : Worked h) (fits : ¬ CutOff (ev.eval room long env h)) : ∃ more, room = more + 2 := by
  rcases a.long with ⟨operands, rest, source, parts, begins, pair, value, begins', -⟩
  match room with
  | 0 =>
      rcases begins.exists_compound ⟨0, long, env, h⟩ worked with ⟨head, c⟩
      exact absurd ⟨_, _, c.outcome_zero rfl⟩ fits
  | 1 =>
      have defines := outcome_of_value ⟨1, long, env, h⟩ worked begins pair value a.isSymbol rfl
      have worked' : Worked (Evaluating.opened ⟨1, long, env, h⟩) := .root _ (.root _ worked)
      rcases (begins'.opened ⟨1, long, env, h⟩).exists_compound
        ⟨0, source, env, Evaluating.opened ⟨1, long, env, h⟩⟩ worked' with ⟨head, c⟩
      have none := c.outcome_zero rfl
      unfold outcome at none defines
      refine absurd ⟨ev.limit,
        (Evaluating.opened ⟨1, long, env, h⟩).truncateRoots h.roots.length, ?_⟩ fits
      rw [defines]
      simp only [HeapM.scope, Bind.bind, EStateM.bind, none]
  | more + 2 => exact ⟨more, rfl⟩

/-- Both ways have the same result, on the same heap. -/
theorem Abbreviates.eval_eq (a : ev.Abbreviates h short long name params body) (worked : Worked h)
    (kept : h.Anchored short) (kept' : h.Anchored long)
    (fits : ¬ CutOff (ev.eval room long env h)) :
    ev.eval room long env h = ev.eval room short env h := by
  rcases a.exists_room worked fits with ⟨more, rfl⟩
  rcases a.short with ⟨operands, begins, names⟩
  rcases a.long with ⟨operands', rest, source, parts, begins', pair, value, abstraction, parts'⟩
  rcases a.proper with ⟨items, proper⟩
  have tidy := (named_of_worked worked).tidy
  have alike := alike_opened tidy kept kept' (more + 2) env
  have keptSource : h.Anchored source := by
    rcases begins' with ⟨head, compound, -⟩
    cases items?_eq_some_iff.1 value with
    | step first _ =>
        exact .car (.cdr (.cdr kept' (pair?_eq_some_iff.1 compound)) (pair?_eq_some_iff.1 pair))
          (pair?_eq_some_iff.1 first)
  have rooted : env.value ∈ (Evaluating.opened ⟨more + 2, short, env, h⟩).roots.values ∨
      h.Anchored env.value :=
    (mem_roots_addRoot _ env.value).imp_right fun (isNil : env.value = .nil) => isNil ▸ .nil
  have worked' : Worked (Evaluating.opened ⟨more + 2, long, env, h⟩) := .root _ (.root _ worked)
  have both := procedure_matches worked' alike (abstraction.opened _)
    ((Evaluating.pair?_opened _ parts).trans parts')
    ⟨items, Evaluating.items?_opened_eq_some proper⟩ keptSource rooted more
  have bindings := binding_matches (alike.saved.tidy) both name
  have defines := outcome_of_names ⟨more + 2, short, env, h⟩ worked begins names a.isSymbol rfl
  have defines' := outcome_of_value ⟨more + 2, long, env, h⟩ worked begins' pair value
    a.isSymbol rfl
  have same : Matches Rerooted (ev.outcome ⟨more + 2, short, env, h⟩)
      (ev.outcome ⟨more + 2, long, env, h⟩) := by
    rw [defines, defines']
    exact Rerooted.scope bindings h
  exact Rerooted.result_eq same (conduct_level.obeys_eval h ev _ short env)
    (conduct_level.obeys_eval h ev _ long env)

/-- The new binding is in front of the older ones of the environment. -/
theorem exists_binding {base h₁ h' : Heap} {c : Chart} {v w : Value} (charted : h₁.Charted c)
    (saved : base.Saved h₁) (root : base.IsRoot env.value)
    (isEnv : base.IsEnvironment env.value) (done : bound name env v h₁ = .ok w h')
    (height : Nat) :
    ∃ binding, env.ownBinding? (h'.truncateRoots height) name = some binding ∧
      (h'.truncateRoots height).cdr? binding = some v := by
  rcases HeapM.exists_of_bind done with ⟨_, _, ⟨⟩, rest⟩
  rcases HeapM.exists_of_bind rest with ⟨_, h₂, defined, ⟨⟩⟩
  have saved' : base.Saved (h₁.addRoot v) := (Saves.addRoot h₁ v).saved saved
  have kept : env.IsKept (h₁.addRoot v) := by
    rcases isEnv with ⟨bindings, parent, found⟩
    cases slot : env.value with
    | nil =>
        rw [slot] at found
        cases found
    | slot e =>
        rw [slot] at found root
        have reached : base.Reachable e := .start root (occupied_of_object? found)
        rw [Env.IsKept, slot]
        exact ⟨⟨bindings, parent, (saved'.kept e reached).trans found⟩, e, rfl,
          saved'.reachable reached⟩
  rcases (charted.addRoot v).defines_of_ok kept defined with ⟨e, b, s, rfl, defines⟩
  have defines := defines.truncateRoots height
  refine ⟨.slot b, (defines.ownBinding?_self (charted.addRoot v) kept name).trans (if_pos rfl), ?_⟩
  rw [cdr?, pair?_eq_some_iff.2 defines.binding]
  rfl

/-- What the shorthand makes is the procedure, bound to its name in the environment. -/
theorem Abbreviates.binds (a : ev.Abbreviates h short long name params body) (worked : Worked h)
    {v : Value} {h' : Heap} (ends : ev.eval (room + 1) short env h = .ok v h') :
    h'.object? v = some (.procedure params body env) ∧
      (h.IsEnvironment env.value →
        ∃ binding, env.ownBinding? h' name = some binding ∧ h'.cdr? binding = some v) := by
  let whole : Evaluating := ⟨room + 1, short, env, h⟩
  rcases a.short with ⟨operands, begins, names⟩
  have framed : whole.opened.Framed := framed_opened worked
  rcases framed.charted with ⟨c, charted⟩
  have symbol := (whole.isSymbol_opened name).trans a.isSymbol
  have defines := outcome_of_names whole worked begins names a.isSymbol rfl
  rcases HeapM.exists_of_scope (defines.symm.trans ends) with ⟨h₁, done, rfl⟩
  refine ⟨?_, fun isEnv => ?_⟩
  · have object := object?_of_defineProcedure framed symbol ((defineProcedure_eq symbol).trans done)
    exact object
  · rcases HeapM.exists_of_bind done with ⟨procedure, h₂, made, rest⟩
    have treats := (dataConduct_treats.obeys_procedure whole.opened params body env).of_ok made
    have saves := ((dataConduct_saves whole.opened).obeys_procedure _ params body env).of_ok made
    rcases (treats framed).framed.charted with ⟨c', charted'⟩
    have root : whole.opened.IsRoot env.value := by
      rcases mem_roots_addRoot (h.addRoot short) env.value with member | isNil
      · exact .stack member
      · rcases isEnv with ⟨_, _, found⟩
        rw [isNil] at found
        cases found
    have isEnv' : whole.opened.IsEnvironment env.value := by
      rwa [IsEnvironment, whole.object?_opened]
    have same : procedure = v := by
      rcases HeapM.exists_of_bind rest with ⟨_, _, ⟨⟩, rest⟩
      rcases HeapM.exists_of_bind rest with ⟨_, _, _, ⟨⟩⟩
      rfl
    exact same ▸ exists_binding charted' (saves.saved (.refl charted.toTidy)) root isEnv' rest _

end Whole

/--
Both ways of defining a procedure have the same result, a failure for want of room included, and
leave the same heap in all its parts. If it is a value, then that is the procedure, and the nearest
environment binds the name to it.
-/
theorem shorthand_eq_definition {ev : Evaluator} {h : Heap} {short long name params body : Value}
    {room : Nat} {env : Env} (worked : Worked h)
    (a : ev.Abbreviates h short long name params body) (kept : h.Anchored short)
    (kept' : h.Anchored long) (fits : ¬ CutOff (ev.eval room long env h)) :
    ev.eval room long env h = ev.eval room short env h ∧
      ∀ v h', ev.eval room short env h = .ok v h' →
        h'.object? v = some (.procedure params body env) ∧
          (h.IsEnvironment env.value →
            ∃ binding, env.ownBinding? h' name = some binding ∧ h'.cdr? binding = some v) := by
  refine ⟨a.eval_eq worked kept kept' fits, fun v h' ends => ?_⟩
  rcases a.exists_room worked fits with ⟨more, rfl⟩
  exact a.binds worked ends

/--
The symbols `f` and `x` are in the slots 8 and 9. The slot 14 has the expression `(define (f x) x)`,
and the slot 19 has `(define f (lambda (x) x))`.
-/
def identity : Heap :=
  (((Heap.withSymbols 32 (formNames ++ ["f", "x"])).withPairs
    [(.slot 9, .nil), (.slot 9, .nil), (.slot 8, .slot 10), (.slot 12, .slot 11),
      (.slot 5, .slot 13), (.slot 10, .slot 11), (.slot 6, .slot 15), (.slot 16, .nil),
      (.slot 8, .slot 17), (.slot 5, .slot 18)]).addRoot (.slot 14)).addRoot (.slot 19)

/-- Both ways make the procedure in the slot 20 and bind `f` to it. -/
theorem shorthand_eq_definition_identity :
    ∃ h', eval ⟨firstForms, 9⟩ 9 (.slot 19) ⟨.slot 0⟩ identity = .ok (.slot 20) h' ∧
      eval ⟨firstForms, 9⟩ 9 (.slot 14) ⟨.slot 0⟩ identity = .ok (.slot 20) h' ∧
      h'.object? (.slot 20) = some (.procedure (.slot 10) (.slot 11) ⟨.slot 0⟩) ∧
      ∃ binding, Env.ownBinding? ⟨.slot 0⟩ h' (.slot 8) = some binding ∧
        h'.cdr? binding = some (.slot 20) := by
  have abbreviates : Abbreviates ⟨firstForms, 9⟩ identity (.slot 14) (.slot 19) (.slot 8) (.slot 10)
      (.slot 11) := by
    constructor
    case short =>
      exact ⟨.slot 13, ⟨.slot 5, by decide +kernel, rfl⟩, .slot 12, by decide +kernel,
        by decide +kernel⟩
    case long =>
      exact ⟨.slot 18, .slot 17, .slot 16, .slot 15, ⟨.slot 5, by decide +kernel, rfl⟩,
        by decide +kernel, by decide +kernel, ⟨.slot 6, by decide +kernel, rfl⟩, by decide +kernel⟩
    case isSymbol => decide +kernel
    case proper => exact ⟨[.slot 9], by decide +kernel⟩
  have kept : identity.Anchored (.slot 14) :=
    .root (.stack (List.mem_cons_of_mem _ List.mem_cons_self))
  have kept' : identity.Anchored (.slot 19) := .root (.stack List.mem_cons_self)
  have fits : ¬ CutOff (eval ⟨firstForms, 9⟩ 9 (.slot 19) ⟨.slot 0⟩ identity) := by decide +kernel
  have value : (match eval ⟨firstForms, 9⟩ 9 (.slot 14) ⟨.slot 0⟩ identity with
      | .ok v _ => some v
      | .error _ _ => none) = some (.slot 20) := by decide +kernel
  have worked : Worked identity :=
    .root _ (.root _ (worked_withPairs (worked_withSymbols (by decide) (by decide)) _))
  have both := shorthand_eq_definition worked abbreviates kept kept' fits
  have isEnv : identity.IsEnvironment (.slot 0) :=
    ⟨.nil, none, Heap.frame?_eq_some_iff.1 (by decide +kernel)⟩
  cases ends : eval ⟨firstForms, 9⟩ 9 (.slot 14) ⟨.slot 0⟩ identity with
  | error e h' =>
      rw [ends] at value
      cases value
  | ok v h' =>
      rw [ends] at value
      cases value
      obtain ⟨procedure, binds⟩ := both.2 _ h' ends
      exact ⟨h', both.1.trans ends, rfl, procedure, binds isEnv⟩

end Evaluator

end Lisplet
