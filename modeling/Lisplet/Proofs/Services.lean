import Lisplet.Proofs.Conduct.Language
import Lisplet.Proofs.Machine.Primitives
import Lisplet.Proofs.Termination

/-!
# Services — what is given expressions gives expressions

Whoever asks for a service hands over expressions and live environments. Then the heap is orderly
afterwards, whatever has been kept is still in its place, and what the service gives is data. So it
may be handed over again.
-/

namespace Lisplet

open Termination

/-! ## What may be asked for -/

namespace Heap.Operation

/-- The environments that a call is given. -/
def envs : Heap.Operation → List Env
  | procedure _ _ env | define env _ _ | set env _ _ | child env | extend env _ _
  | definePrimitives env _ => [env]
  | _ => []

/-- The primitives that a call puts on the heap. -/
def primitives : Heap.Operation → List Primitive
  | primitive p => [p]
  | definePrimitives _ primitives => primitives
  | _ => []

/-- What an operation gives, if it succeeds. -/
def outcome {ε α : Type} (f : α → List Value) (op : HeapM ε α) (h : Heap) : List Value :=
  match op h with
  | .ok a _ => f a
  | .error .. => []

/-- The value or the environment that a call gives, if it gives one. -/
def given : Heap.Operation → Heap → List Value
  | int n => outcome List.singleton (HeapM.int n)
  | float x => outcome List.singleton (HeapM.float x)
  | ratio numer denom => outcome List.singleton (HeapM.ratio numer denom)
  | fixnum n => outcome List.singleton (HeapM.fixnum n)
  | string text => outcome List.singleton (HeapM.string text)
  | intern name => outcome List.singleton (HeapM.intern name)
  | cons car cdr => outcome List.singleton (HeapM.cons car cdr)
  | list items => outcome List.singleton (HeapM.list items)
  | error kind message => outcome List.singleton (HeapM.raise kind message)
  | primitive p => outcome List.singleton (HeapM.primitive p)
  | procedure params body env => outcome List.singleton (HeapM.procedure params body env)
  | child env => outcome (fun env : Env => [env.value]) (HeapM.child env)
  | extend env params args =>
      outcome (fun found => found.toOption.toList.map Env.value) (env.extend params args)
  | _ => fun _ => []

/-- A scope leaves what its body leaves, without the roots that the body has added. -/
theorem heapAfter_scope {ε α : Type} (op : HeapM ε α) (h : Heap) :
    heapAfter (HeapM.scope op) h = (heapAfter op h).truncateRoots h.roots.length := by
  unfold heapAfter HeapM.scope
  dsimp only
  cases op h <;> rfl

end Heap.Operation

/--
A service is given expressions and live environments. Who evaluates the expressions of a body one
after the other, or calls an operation of the register machine, must have rooted what it hands over.
-/
def Service.Permitted (h : Heap) : Service → Prop
  | .build op _ => (∀ v ∈ op.handles, h.Expression v) ∧
      (∀ env ∈ op.envs, h.IsEnvironment env.value) ∧ ∀ p ∈ op.primitives, p ∈ Primitive.standard
  | .primitive p args => h.Expression args ∧ (p ∈ Primitive.standard ∨ h.IsRoot args)
  | .eval _ _ expr env | .evaluate expr env => h.Expression expr ∧ h.IsEnvironment env.value
  | .apply _ _ function args => h.Expression function ∧ h.Expression args
  | .evaluateAll _ body env => h.Expression body ∧ h.IsRoot body ∧ h.IsEnvironment env.value ∧
      h.IsRoot env.value
  | .make _ | .read _ | .readAll _ | .readOne _ => True

open Heap.Operation (heapAfter outcome)

/-- What a service gives. -/
def Service.given : Service → Heap → List Value
  | build op _ => op.given
  | primitive p args => outcome List.singleton (p.call args)
  | make _ => fun _ => []
  | eval ev room expr env => outcome List.singleton (ev.eval room expr env)
  | apply ev room function args => outcome List.singleton (ev.apply room function args)
  | evaluateAll ev body env => outcome List.singleton (ev.evaluateAll body env)
  | evaluate expr env => outcome List.singleton (Lisplet.evaluate expr env)
  | read r => fun h => (r.read h).outcome.toOption.join.toList
  | readAll source => outcome id (Reader.readAll source)
  | readOne source => outcome List.singleton (Reader.readOne source)

/-! ## Services keep the heap orderly -/

namespace Termination

variable {d : Layout} {h : Heap} {v : Value}

/-- Whatever was kept is still there on an orderly heap, and what has been given is data. -/
def Endures (d : Layout) (h h' : Heap) (given : List Value) : Prop :=
  ∃ d', Orderly d' h' ∧ Retains d h d' h' ∧ ∀ v ∈ given, Used d' h' .datum v

section Outcome

variable {ε α : Type} {op : HeapM ε α} {Q : Layout → Heap → α → Prop} {f : α → List Value}

theorem Maintains.endures (m : Maintains d h op Q)
    (used : ∀ d₁ h₁ x, Orderly d₁ h₁ → Q d₁ h₁ x → ∀ v ∈ f x, Used d₁ h₁ .datum v) :
    Endures d h (Heap.Operation.heapAfter op h) (outcome f op h) := by
  unfold Maintains at m
  unfold Heap.Operation.heapAfter outcome
  generalize op h = result at m ⊢
  cases m with
  | ok a k q => exact ⟨_, a, k, used _ _ _ a q⟩
  | error a k => exact ⟨_, a, k, List.forall_mem_nil _⟩

theorem Maintains.endures_value {op : HeapM ε Value}
    (m : Maintains d h op fun d₁ h₁ v => Used d₁ h₁ .datum v) :
    Endures d h (Heap.Operation.heapAfter op h) (outcome List.singleton op h) :=
  m.endures fun _ _ _ _ used => List.forall_mem_singleton.2 used

theorem Maintains.endures_nil (m : Maintains d h op Q) :
    Endures d h (Heap.Operation.heapAfter op h) [] := by
  obtain ⟨d', a, k, -⟩ := m.endures (f := fun _ => []) fun _ _ _ _ _ => List.forall_mem_nil _
  exact ⟨d', a, k, List.forall_mem_nil _⟩

end Outcome

theorem Orderly.kept_of_root (a : Orderly d h) (root : h.IsRoot v) : Kept d h .datum v :=
  ⟨.root root, (a.roots v root).elim id Fills.datum⟩

theorem Orderly.keptEnv_of_root (a : Orderly d h) (isEnv : h.IsEnvironment v)
    (root : h.IsRoot v) : Kept d h .frame v :=
  ⟨.root root, (a.used_of_isEnvironment isEnv).fills⟩

theorem endures_atom (a : Orderly d h) {o : Object} (none : o.references = [])
    (standard : ∀ p, o = .primitive p → p ∈ Primitive.standard)
    (other : ∀ name, o ≠ .symbol name) :
    Endures d h (heapAfter (HeapM.allocate o) h)
      (outcome List.singleton (HeapM.allocate o) h) :=
  (maintains_atom a none standard other).endures_value

theorem endures_build (a : Orderly d h) {op : Heap.Operation} (builds : op.builds = true)
    (handles : ∀ v ∈ op.handles, h.Expression v)
    (envs : ∀ env ∈ op.envs, h.IsEnvironment env.value)
    (standard : ∀ p ∈ op.primitives, p ∈ Primitive.standard) :
    Endures d h (op.run h) (op.given h) := by
  have isDatum (v : Value) (member : v ∈ op.handles) : Used d h .datum v :=
    a.datum_of_expression (handles v member)
  have isFrame {env : Env} (member : env ∈ op.envs) : Used d h .frame env.value :=
    a.used_of_isEnvironment (envs env member)
  cases op with
  | int n => exact endures_atom a rfl (fun _ => nofun) fun _ => nofun
  | float x => exact endures_atom a rfl (fun _ => nofun) fun _ => nofun
  | ratio numer denom => exact endures_atom a rfl (fun _ => nofun) fun _ => nofun
  | fixnum n => exact endures_atom a rfl (fun _ => nofun) fun _ => nofun
  | string text => exact endures_atom a rfl (fun _ => nofun) fun _ => nofun
  | error kind message => exact (maintains_raise a kind message).endures_value
  | intern name =>
      refine (maintains_intern a name).endures fun _ _ symbol a₁ kept => ?_
      exact List.forall_mem_singleton.2 (kept.used a₁.toWellFormed)
  | primitive p =>
      refine endures_atom a rfl ?_ fun _ => nofun
      rintro _ ⟨⟩
      exact standard p (List.mem_singleton_self p)
  | cons car cdr =>
      have first := isDatum car (by simp [Heap.Operation.handles])
      have second := isDatum cdr (by simp [Heap.Operation.handles])
      exact ((maintains_cons a first second).mono fun _ _ _ made => made.used).endures_value
  | list items => exact (maintains_list a isDatum).endures_value
  | procedure params body env =>
      have isParams := isDatum params (by simp [Heap.Operation.handles])
      have isBody := isDatum body (by simp [Heap.Operation.handles])
      have isEnv := isFrame (List.mem_singleton_self env)
      exact (maintains_procedure a isParams isBody isEnv).endures_value
  | define env symbol value =>
      have isSymbol := isDatum symbol (by simp [Heap.Operation.handles])
      have isValue := isDatum value (by simp [Heap.Operation.handles])
      have isEnv := isFrame (List.mem_singleton_self env)
      exact (maintains_define a isEnv isSymbol isValue).endures_nil
  | set env symbol value =>
      have isSymbol := isDatum symbol (by simp [Heap.Operation.handles])
      have isValue := isDatum value (by simp [Heap.Operation.handles])
      have isEnv := isFrame (List.mem_singleton_self env)
      exact (completes_set a isEnv isSymbol isValue).maintains.endures_nil
  | child env =>
      refine (maintains_child a (isFrame (List.mem_singleton_self env))).endures ?_
      exact fun _ _ _ _ used => List.forall_mem_singleton.2 ⟨used.fills.datum, used.holds⟩
  | extend env params args =>
      have isParams := isDatum params (by simp [Heap.Operation.handles])
      have isArgs := isDatum args (by simp [Heap.Operation.handles])
      have isEnv := isFrame (List.mem_singleton_self env)
      refine (completes_extend a isEnv isParams isArgs).maintains.endures fun _ _ found _ used => ?_
      cases found with
      | error e => exact List.forall_mem_nil _
      | ok child =>
          have used := used child rfl
          exact List.forall_mem_singleton.2 ⟨used.fills.datum, used.holds⟩
  | definePrimitives env primitives =>
      have isEnv := isFrame (List.mem_singleton_self env)
      exact (maintains_definePrimitives a isEnv standard).endures_nil
  | _ => cases builds

theorem endures_run (a : Orderly d h) (service : Service) (permitted : service.Permitted h) :
    Endures d h (service.run h) (service.given h) := by
  cases service with
  | build op builds => exact endures_build a builds permitted.1 permitted.2.1 permitted.2.2
  | primitive p args =>
      rcases permitted.2 with standard | root
      · have used := a.datum_of_expression permitted.1
        exact (completes_call a standard used).maintains.endures_value
      · exact (completes_primitive a p (a.kept_of_root root)).maintains.endures_value
  | make limit => exact (maintains_make limit a).endures_nil
  | eval ev room expr env =>
      have used := a.datum_of_expression permitted.1
      have usedEnv := a.used_of_isEnvironment permitted.2
      exact (completes_datum ev room a usedEnv used).maintains.endures_value
  | apply ev room function args =>
      have used := a.datum_of_expression permitted.1
      have usedArgs := a.datum_of_expression permitted.2
      have applies := (evaluates_and_applies ev room).2
      exact (applies d h function args a used usedArgs).maintains.endures_value
  | evaluateAll ev body env =>
      rcases permitted with ⟨-, root, isEnv, envRoot⟩
      have keptBody := a.kept_of_root root
      rcases a.exists_spine (.inl rfl) (keptBody.used a.toWellFormed) with ⟨items, tail, spine, _⟩
      have evaluates := (evaluates_and_applies ev ev.limit).1 env
      exact (completes_sequence evaluates a (a.keptEnv_of_root isEnv envRoot) (.nil d h nofun)
        keptBody spine (a.length_lt spine)).maintains.endures_value
  | evaluate expr env =>
      have usedEnv := a.used_of_isEnvironment permitted.2
      refine Maintains.endures_value (.scope ?_ fun _ _ _ height used => used.truncateRoots height)
      refine .root_bind a (a.datum_of_expression permitted.1) (.inl rfl) fun a₁ keptExpr => ?_
      refine .root_bind a₁ (usedEnv.addRoot expr) (.inr rfl) fun a₂ keptEnv => ?_
      refine .bind (maintains_make _ a₂) fun d₃ h₃ ev a₃ k _ => ?_
      have usedExpr := k.used (keptExpr.addRoot env.value) a₃.toWellFormed
      have evaluates := (evaluates_and_applies ev ev.limit).1 env
      exact (evaluates d₃ h₃ expr a₃ (k.kept keptEnv) usedExpr).maintains
  | read r =>
      rcases read_kept r a with ⟨d', kept⟩
      refine ⟨d', kept.orderly, kept.retains, fun v member => kept.used v ?_⟩
      unfold Service.given at member
      dsimp only at member
      generalize (r.read h).outcome = result at member ⊢
      rcases result with _ | _ | form
      · cases member
      · cases member
      · rw [List.mem_singleton.1 member]
  | readAll source => exact (maintains_readAll a source).endures fun _ _ _ _ used => used
  | readOne source => exact (maintains_readOne a source).endures_value

end Termination

end Lisplet
