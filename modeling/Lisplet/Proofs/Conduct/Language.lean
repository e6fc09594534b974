import Lisplet.Proofs.Conduct

/-!
# Language — what holds of evaluation and of reading

A conduct that the elementary operations respect is respected by evaluation, application and
reading, with whatever room they have and however they end; for reading, which makes data only, the
constructors are enough. `Service` lists what may be asked of the system in one type, and
`Conduct.whole_run` says it of all services.
-/

namespace Lisplet

open Heap.Operation (heapAfter)

namespace DataConduct

open HeapM

variable {whole inside : Heap → Heap → Prop} {h : Heap}

/-- Nothing but symbols is needed to make an evaluator. -/
theorem obeys_make (c : DataConduct whole inside) (h : Heap) (limit : Nat) :
    Obeys whole h (Evaluator.make limit) := by
  refine .bind c.along ?_ fun _ _ _ => .pure c.along _
  refine .bind c.along (c.intern h _) fun _ h₁ _ => ?_
  refine .bind c.along (c.intern h₁ _) fun _ h₂ _ => ?_
  refine .bind c.along (c.intern h₂ _) fun _ h₃ _ => ?_
  refine .bind c.along (c.intern h₃ _) fun _ h₄ _ => ?_
  refine .bind c.along (c.intern h₄ _) fun _ h₅ _ => ?_
  exact .bind c.along (c.intern h₅ _) fun _ _ _ => .pure c.along _

/-! ## Reading -/

section Reading

open Reader

variable (c : DataConduct whole inside)
include c

theorem obeys_deliver (h : Heap) (span : Text.Span) (datum : Value) (stack : List OpenForm) :
    Obeys inside h (deliver span datum stack) := by
  -- Induction on the open forms: a quoted datum is handed on to the next one.
  induction stack generalizing h datum with
  | nil => exact .pure c.within _
  | cons form stack ih =>
      cases form with
      | quote mark =>
          refine .bind c.within (c.partly (.mapError (c.intern h "quote") _)) fun symbol h₁ _ => ?_
          refine .bind c.within (c.partly (.mapError (c.obeys_list h₁ [symbol, datum]) _))
            fun quoted h₂ _ => ?_
          exact c.root_bind (ih _ quoted)
      | list items ending opening =>
          cases ending with
          | proper => exact .pure c.within _
          | awaited => exact .pure c.within _
          | given tail => exact .throw c.within _

theorem obeys_deliverNew (span : Text.Span) (stack : List OpenForm) {op : HeapM Fatal Value}
    (obeys : Obeys whole h op) : Obeys inside h (deliverNew span stack op) :=
  .bind c.within (c.partly (.mapError obeys _)) fun datum _ _ =>
    c.root_bind (c.obeys_deliver _ span datum stack)

theorem obeys_close (h : Heap) (span : Text.Span) (stack : List OpenForm) :
    Obeys inside h (Reader.close span stack) := by
  unfold Reader.close
  split
  · exact c.obeys_deliverNew span _ (c.obeys_consAll h _ _)
  · exact c.obeys_deliverNew span _ (c.obeys_consAll h _ _)
  · exact .throw c.within _
  · exact .throw c.within _
  · exact .throw c.within _

theorem obeys_dot (h : Heap) (span : Text.Span) (stack : List OpenForm) :
    Obeys inside h (dot span stack) := by
  unfold dot
  split
  · exact .pure c.within _
  · exact .throw c.within _

theorem obeys_atom (h : Heap) (span : Text.Span) (stack : List OpenForm) (a : Atom) :
    Obeys inside h (atom span stack a) := by
  cases a with
  | int n => exact c.obeys_deliverNew span stack (c.allocate h rfl)
  | float x => exact c.obeys_deliverNew span stack (c.allocate h rfl)
  | ratio numer denom => exact c.obeys_deliverNew span stack (c.allocate h rfl)
  | nil => exact c.obeys_deliver h span .nil stack
  | symbol name => exact c.obeys_deliverNew span stack (c.intern h name)
  | dot => exact c.obeys_dot h span stack

theorem obeys_take (h : Heap) (stack : List OpenForm) (lexeme : Lexeme) :
    Obeys inside h (take stack lexeme) := by
  unfold take
  dsimp only
  split
  · exact .pure c.within _
  · exact .pure c.within _
  · exact .pure c.within _
  · exact c.obeys_close h _ stack
  · split
    · exact c.obeys_deliverNew _ stack (c.allocate h rfl)
    · exact .throw c.within _
  · exact .throw c.within _
  · split
    · exact c.obeys_atom h _ stack _
    · exact .throw c.within _
  · exact .throw c.within _

theorem inside_takeAll (h : Heap) (r : Reader) (stack : List OpenForm) (lexemes : List Lexeme) :
    inside h (r.takeAll stack lexemes h).heap := by
  induction lexemes generalizing h stack with
  | nil => exact c.within.refl h
  | cons lexeme lexemes ih =>
      have first := c.obeys_take h stack lexeme
      unfold Obeys heapAfter at first
      unfold takeAll
      rcases step : take stack lexeme h with ⟨stack' | datum, h'⟩ | ⟨e, h'⟩
      · rw [step] at first
        exact c.within.trans first (ih h' stack')
      · rw [step] at first
        exact first
      · rw [step] at first
        exact first

/-- Reading an expression drops what it has rooted. -/
theorem whole_read (h : Heap) (r : Reader) : whole h (r.read h).heap :=
  c.close (c.inside_takeAll h r [] r.lexemes)

theorem inside_readAllOnto (h : Heap) (r : Reader) (found : List Value) :
    inside h (r.readAllOnto found h).2 := by
  have first := c.weaken (c.whole_read h r)
  unfold readAllOnto
  split
  · next form r' h' step =>
    -- Every form that has been read is rooted, and the rest is shorter.
    rw [step] at first
    exact c.within.trans (c.within.trans first (c.addRoot h' form))
      (inside_readAllOnto (h'.addRoot form) r' (form :: found))
  · next step =>
    rw [step] at first
    exact first
  · next step =>
    rw [step] at first
    exact first
termination_by r.lexemes.length
decreasing_by exact length_lt_of_read ‹_›

theorem obeys_readAll (h : Heap) (source : String) : Obeys whole h (readAll source) := by
  refine c.scope ?_
  have all := c.inside_readAllOnto h (ofSource source) []
  unfold Obeys heapAfter
  dsimp only
  rcases step : (ofSource source).readAllOnto [] h with ⟨_ | _, h'⟩
  · rwa [step] at all
  · rwa [step] at all

theorem obeys_readOne (h : Heap) (source : String) : Obeys whole h (readOne source) := by
  have one := c.whole_read h (ofSource source)
  unfold Obeys heapAfter readOne
  rcases step : (ofSource source).read h with ⟨_ | _ | form, r, h'⟩
  · rwa [step] at one
  · rwa [step] at one
  · rw [step] at one
    dsimp only
    cases r.lexemes with
    | nil => exact one
    | cons lexeme lexemes => exact one

end Reading

end DataConduct

namespace Conduct

open HeapM

variable {ready : Heap → Env → Prop} {whole inside : Heap → Heap → Prop} {h : Heap}

/-! ## Evaluation -/

section Evaluation

variable (c : Conduct ready whole inside)
include c

section Forms

variable {evaluate : Value → HeapM Fatal Value} (parts : ∀ part h, Obeys whole h (evaluate part))
include parts

/-- The values of the operands stay rooted, so a loop over operands is no whole. -/
theorem obeys_operandsWith (h : Heap) (found : List Value) (steps : Nat) (list : Value) :
    Obeys inside h (Evaluator.operandsWith evaluate found steps list) := by
  induction steps generalizing h found list with
  | zero => exact .pure c.within _
  | succ steps ih =>
      refine .get_bind ?_
      split
      · exact .pure c.within _
      · next expr rest _ =>
        refine .bind c.within (c.partly (parts expr h)) fun value h' _ => .get_bind ?_
        split
        · exact .pure c.within _
        · exact c.root_bind (ih _ (value :: found) rest)

theorem obeys_choose (h : Heap) (test consequent : Value) (alternative : Option Value) :
    Obeys whole h (Evaluator.choose evaluate test consequent alternative) := by
  refine .bind c.along (parts test h) fun outcome h' _ => .get_bind ?_
  split
  · exact .pure c.along _
  · split
    · exact parts consequent h'
    · exact parts _ h'
    · exact .pure c.along _

theorem obeys_ifForm (h : Heap) (expr operands : Value) :
    Obeys whole h (Evaluator.ifForm evaluate expr operands) := by
  refine .get_bind ?_
  split
  · exact c.obeys_choose parts h _ _ _
  · exact c.obeys_choose parts h _ _ _
  · exact c.obeys_malformed h _ _

theorem obeys_setForm (h : Heap) (expr operands : Value) (env : Env) :
    Obeys whole h (Evaluator.setForm evaluate expr operands env) := by
  refine .get_bind ?_
  split
  · next target source _ =>
    refine .get_bind ?_
    split
    · refine .bind c.along (parts source h) fun value h' _ => .get_bind ?_
      split
      · exact .pure c.along _
      · refine .bind c.along (c.obeys_set h' env target value) fun done h'' _ => ?_
        cases done with
        | ok _ => exact .pure c.along _
        | error e => exact c.obeys_raise h'' _ _
    · exact c.obeys_wrongKind h _ _ _
  · exact c.obeys_malformed h _ _

omit parts in
theorem obeys_defineProcedure (h : Heap) (name params body : Value) (env : Env) :
    Obeys inside h (Evaluator.defineProcedure name params body env) := by
  refine .get_bind ?_
  split
  · refine .bind c.within (c.partly (c.obeys_procedure h params body env)) fun procedure h' _ => ?_
    refine c.root_bind ?_
    exact .bind c.within (c.partly (c.define _ env name procedure)) fun _ _ _ => .pure c.within _
  · exact c.partly (c.obeys_wrongKind h _ _ _)

theorem obeys_defineForm (h : Heap) (expr operands : Value) (env : Env) :
    Obeys inside h (Evaluator.defineForm evaluate expr operands env) := by
  refine .get_bind ?_
  split
  · exact c.partly (c.obeys_malformed h _ _)
  · next target rest _ =>
    refine .get_bind ?_
    split
    · exact c.obeys_defineProcedure h _ _ rest env
    · refine .get_bind ?_
      split
      · next source _ =>
        refine .get_bind ?_
        split
        · refine .bind c.within (c.partly (parts source h)) fun value h' _ => .get_bind ?_
          split
          · exact .pure c.within _
          · refine c.root_bind ?_
            exact .bind c.within (c.partly (c.define _ env target value)) fun _ _ _ =>
              .pure c.within _
        · exact c.partly (c.obeys_wrongKind h _ _ _)
      · exact c.partly (c.obeys_malformed h _ _)

omit parts in
theorem obeys_quoteForm (h : Heap) (expr operands : Value) :
    Obeys whole h (Evaluator.quoteForm expr operands) := by
  refine .get_bind ?_
  split
  · exact .pure c.along _
  · exact c.obeys_malformed h _ _

omit parts in
theorem obeys_lambdaForm (h : Heap) (expr operands : Value) (env : Env) :
    Obeys whole h (Evaluator.lambdaForm expr operands env) := by
  refine .get_bind ?_
  split
  · exact c.obeys_malformed h _ _
  · refine .get_bind ?_
    split
    · exact c.obeys_procedure h _ _ env
    · exact c.obeys_malformed h _ _

theorem obeys_application {apply : Value → Value → HeapM Fatal Value}
    (applies : ∀ function args h, Obeys whole h (apply function args)) (h : Heap)
    (expr head operands : Value) :
    Obeys inside h (Evaluator.application evaluate apply expr head operands) := by
  refine .bind c.within (c.partly (parts head h)) fun function h' _ => .get_bind ?_
  split
  · exact .pure c.within _
  · refine c.root_bind ?_
    refine .bind c.within (c.obeys_operandsWith parts _ [] _ operands) fun found h'' _ => ?_
    cases found with
    | values found =>
        exact .bind c.within (c.partly (c.obeys_list h'' found.reverse)) fun args h''' _ =>
          c.partly (applies function args h''')
    | failed error => exact .pure c.within _
    | improper => exact c.partly (c.obeys_malformed h'' _ _)

end Forms

/-- Evaluation with some room obeys what evaluation and application with less room do. -/
theorem obeys_eval_of (ev : Evaluator) {room : Nat}
    (evaluates : ∀ r, room = r + 1 → ∀ expr env h, Obeys whole h (ev.eval r expr env))
    (applies : ∀ r, room = r + 1 → ∀ function args h, Obeys whole h (ev.apply r function args))
    (expr : Value) (env : Env) (h : Heap) : Obeys whole h (ev.eval room expr env) := by
  unfold Evaluator.eval
  refine .get_bind (.ite (fun _ => .pure c.along _) fun _ => ?_)
  refine .ite (fun _ => c.obeys_valueOr h _ _) fun _ => ?_
  split
  · exact .pure c.along _
  · next head operands _ =>
    cases room with
    | zero => exact .throw c.along _
    | succ room =>
        have parts : ∀ part h, Obeys whole h (ev.eval room part env) :=
          fun part h => evaluates room rfl part env h
        refine c.scope (c.root_bind (c.root_bind ?_))
        refine .ite (fun _ => c.partly (c.obeys_quoteForm _ expr operands)) fun _ => ?_
        refine .ite (fun _ => c.partly (c.obeys_ifForm parts _ expr operands)) fun _ => ?_
        refine .ite (fun _ => c.partly (c.obeys_setForm parts _ expr operands env)) fun _ => ?_
        refine .ite (fun _ => c.obeys_defineForm parts _ expr operands env) fun _ => ?_
        refine .ite (fun _ => c.partly (c.obeys_lambdaForm _ expr operands env)) fun _ => ?_
        refine .ite (fun _ => c.partly (.sequenceWith c.along parts _ _ operands)) fun _ => ?_
        exact c.obeys_application parts (applies room rfl) _ expr head operands

theorem obeys_apply_of (ev : Evaluator) {room : Nat}
    (evaluates : ∀ r, room = r + 1 → ∀ expr env h, Obeys whole h (ev.eval r expr env))
    (function args : Value) (h : Heap) : Obeys whole h (ev.apply room function args) := by
  unfold Evaluator.apply
  refine .get_bind ?_
  split
  · next p _ => exact c.obeys_call h p args
  · next params body captured _ =>
    refine .get_bind ?_
    split
    · exact c.obeys_raise h _ _
    · next env found =>
      cases room with
      | zero => exact .throw c.along _
      | succ room =>
          have isReady := c.ready_addRoot args (c.ready_addRoot function (c.ready_of_env? found))
          refine c.scope (c.root_bind (c.root_bind ?_))
          refine .bind c.within (c.partly (c.obeys_extend isReady params args)) fun made h' _ => ?_
          cases made with
          | error e => exact c.partly (c.obeys_raise h' _ _)
          | ok inner =>
              refine c.root_bind (c.partly (.sequenceWith c.along ?_ _ _ body))
              exact fun part h => evaluates room rfl part inner h
  · exact .get_bind (c.obeys_raise h _ _)

theorem obeys_eval_and_apply (ev : Evaluator) (room : Nat) :
    (∀ expr env h, Obeys whole h (ev.eval room expr env)) ∧
      ∀ function args h, Obeys whole h (ev.apply room function args) := by
  induction room with
  | zero => exact ⟨c.obeys_eval_of ev nofun nofun, c.obeys_apply_of ev nofun⟩
  | succ room ih =>
      have evaluates : ∀ r, room + 1 = r + 1 → ∀ expr env h,
          Obeys whole h (ev.eval r expr env) := by
        rintro _ ⟨⟩
        exact ih.1
      refine ⟨c.obeys_eval_of ev evaluates ?_, c.obeys_apply_of ev evaluates⟩
      rintro _ ⟨⟩
      exact ih.2

theorem obeys_eval (h : Heap) (ev : Evaluator) (room : Nat) (expr : Value) (env : Env) :
    Obeys whole h (ev.eval room expr env) := (c.obeys_eval_and_apply ev room).1 expr env h

theorem obeys_apply (h : Heap) (ev : Evaluator) (room : Nat) (function args : Value) :
    Obeys whole h (ev.apply room function args) :=
  (c.obeys_eval_and_apply ev room).2 function args h

theorem obeys_evaluateAll (h : Heap) (ev : Evaluator) (body : Value) (env : Env) :
    Obeys whole h (ev.evaluateAll body env) :=
  .sequenceWith c.along (fun part h => c.obeys_eval h ev ev.limit part env) _ _ body

theorem obeys_evaluate (h : Heap) (expr : Value) (env : Env) : Obeys whole h (evaluate expr env) :=
  c.scope <| c.root_bind <| c.root_bind <| .bind c.within (c.partly (c.obeys_make _ _))
    fun ev _ _ => c.partly (c.obeys_eval _ ev ev.limit expr env)

end Evaluation

end Conduct

/-! ## Services -/

/-- Whether an operation on a heap makes something and neither manages roots nor changes pairs. -/
def Heap.Operation.builds : Heap.Operation → Bool
  | .setCar .. | .setCdr .. | .root _ | .truncateRoots _ | .pin _ | .repin .. | .unpin _
  | .collect => false
  | _ => true

/-- What may be asked of a constructor, an environment, a primitive, the evaluator or the reader. -/
inductive Service where
  | build (op : Heap.Operation) (builds : op.builds = true)
  | primitive (p : Primitive) (args : Value)
  | make (limit : Nat)
  | eval (ev : Evaluator) (room : Nat) (expr : Value) (env : Env)
  | apply (ev : Evaluator) (room : Nat) (function args : Value)
  | evaluateAll (ev : Evaluator) (body : Value) (env : Env)
  | evaluate (expr : Value) (env : Env)
  | read (r : Reader)
  | readAll (source : String)
  | readOne (source : String)

namespace Service

/-- The heap after a service, whether it succeeds or fails. -/
def run : Service → Heap → Heap
  | build op _ => op.run
  | primitive p args => heapAfter (p.call args)
  | make limit => heapAfter (Evaluator.make limit)
  | eval ev room expr env => heapAfter (ev.eval room expr env)
  | apply ev room function args => heapAfter (ev.apply room function args)
  | evaluateAll ev body env => heapAfter (ev.evaluateAll body env)
  | evaluate expr env => heapAfter (Lisplet.evaluate expr env)
  | read r => fun h => (r.read h).heap
  | readAll source => heapAfter (Reader.readAll source)
  | readOne source => heapAfter (Reader.readOne source)

/-- The environments inside which a frame is made without a look at them. -/
def parents : Service → List Env
  | build (.child env) _ | build (.extend env _ _) _ => [env]
  | _ => []

end Service

theorem Conduct.whole_run {ready : Heap → Env → Prop} {whole inside : Heap → Heap → Prop}
    (c : Conduct ready whole inside) (service : Service) {h : Heap}
    (isReady : ∀ env ∈ service.parents, ready h env) : whole h (service.run h) := by
  cases service with
  | primitive p args => exact c.obeys_call h p args
  | make limit => exact c.obeys_make h limit
  | eval ev room expr env => exact c.obeys_eval h ev room expr env
  | apply ev room function args => exact c.obeys_apply h ev room function args
  | evaluateAll ev body env => exact c.obeys_evaluateAll h ev body env
  | evaluate expr env => exact c.obeys_evaluate h expr env
  | read r => exact c.whole_read h r
  | readAll source => exact c.obeys_readAll h source
  | readOne source => exact c.obeys_readOne h source
  | build op builds =>
      cases op with
      | int n => exact c.allocate h rfl
      | float x => exact c.allocate h rfl
      | ratio numer denom => exact c.allocate h rfl
      | fixnum n => exact c.allocate h rfl
      | string text => exact c.allocate h rfl
      | error kind message => exact c.obeys_raise h kind message
      | primitive p => exact c.allocate h rfl
      | intern name => exact c.intern h name
      | cons car cdr => exact c.obeys_cons h car cdr
      | list items => exact c.obeys_list h items
      | procedure params body env => exact c.obeys_procedure h params body env
      | define env symbol value => exact c.define h env symbol value
      | set env symbol value => exact c.obeys_set h env symbol value
      | child env => exact c.child (isReady env (List.mem_singleton_self env))
      | extend env params args =>
          exact c.obeys_extend (isReady env (List.mem_singleton_self env)) params args
      | definePrimitives env primitives => exact c.obeys_definePrimitives h env primitives
      | _ => cases builds

end Lisplet
