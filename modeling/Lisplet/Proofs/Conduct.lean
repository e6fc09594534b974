import Lisplet.Evaluator
import Lisplet.Proofs.Heap.History

/-!
# Conduct — what holds of every operation of the language

Everything that evaluation and reading do to a heap is put together from a few elementary
operations, in scopes that drop the roots they have added. A `Conduct` is a pair of relations
between a heap and what is left of it, one for what has been done in the middle of a scope and one
for what is done as a whole, that the elementary operations respect. Then every operation of the
language respects them, from the constructors to evaluation and reading, whatever it is given and
whatever it ends with. The rules follow the way operations are put together.
-/

namespace Lisplet

open Heap.Operation (heapAfter heapAfter_of_standard)

/-! ## Operations that obey a relation -/

/-- A relation between a heap and a later one that can be carried from operation to operation. -/
structure Heap.Composes (R : Heap → Heap → Prop) : Prop where
  refl (h : Heap) : R h h
  trans {h h' h'' : Heap} : R h h' → R h' h'' → R h h''

/-- An object that may be allocated by itself: symbols are interned, and frames have a parent. -/
def Object.isPlain : Object → Bool
  | .symbol _ | .environment .. => false
  | _ => true

/-- Whether a primitive binds symbols or gives them other values. -/
def Primitive.changesEnvironment : Primitive → Bool
  | .setVariable | .defineVariable | .extendEnvironment => true
  | _ => false

namespace HeapM

variable {ε ε' α β : Type} {R : Heap → Heap → Prop} {h : Heap}

/-- Whatever an operation ends with, `R` holds between `h` and the heap that it leaves. -/
def Obeys (R : Heap → Heap → Prop) (h : Heap) (op : HeapM ε α) : Prop := R h (heapAfter op h)

namespace Obeys

variable {op : HeapM ε α} {next : α → HeapM ε β}

theorem pure (c : Heap.Composes R) (a : α) : Obeys R h (Pure.pure a : HeapM ε α) := c.refl h

theorem throw (c : Heap.Composes R) (e : ε) : Obeys R h (throw e : HeapM ε α) := c.refl h

theorem get_bind {f : Heap → HeapM ε β} (obeys : Obeys R h (f h)) : Obeys R h (get >>= f) := obeys

theorem bind (c : Heap.Composes R) (first : Obeys R h op)
    (rest : ∀ a h', op h = .ok a h' → Obeys R h' (next a)) : Obeys R h (op >>= next) := by
  unfold Obeys heapAfter at first
  show R h (heapAfter (op >>= next) h)
  unfold heapAfter
  simp only [Bind.bind, EStateM.bind]
  cases step : op h with
  | ok a h' =>
      rw [step] at first
      exact c.trans first (rest a h' step)
  | error e h' =>
      rw [step] at first
      exact first

theorem modify_bind {f : Heap → Heap} {next : Unit → HeapM ε β} (c : Heap.Composes R)
    (first : R h (f h)) (rest : Obeys R (f h) (next ())) : Obeys R h (modify f >>= next) :=
  c.trans first rest

theorem map (obeys : Obeys R h op) (f : α → β) : Obeys R h (f <$> op) := by
  unfold Obeys heapAfter at obeys ⊢
  simp only [Functor.map, EStateM.map]
  cases step : op h with
  | ok a h' => rwa [step] at obeys
  | error e h' => rwa [step] at obeys

theorem mapError (obeys : Obeys R h op) (f : ε → ε') : Obeys R h (HeapM.mapError f op) := by
  unfold Obeys heapAfter at obeys ⊢
  unfold HeapM.mapError
  cases step : op h with
  | ok a h' => rwa [step] at obeys
  | error e h' => rwa [step] at obeys

theorem ite {p : Prop} [Decidable p] {yes no : HeapM ε α} (ifTrue : p → Obeys R h yes)
    (ifFalse : ¬ p → Obeys R h no) : Obeys R h (if p then yes else no) := by
  split
  · next holds => exact ifTrue holds
  · next fails => exact ifFalse fails

/-- A loop over a list obeys what its body obeys. -/
theorem sequenceWith (c : Heap.Composes R) {evaluate : Value → HeapM Fatal Value}
    (parts : ∀ part h, Obeys R h (evaluate part)) (steps : Nat) (result list : Value) :
    Obeys R h (Evaluator.sequenceWith evaluate result steps list) := by
  induction steps generalizing h result list with
  | zero => exact .pure c _
  | succ steps ih =>
      refine .get_bind ?_
      split
      · exact .pure c _
      · next expr rest _ =>
        refine .bind c (parts expr h) fun result h' _ => .get_bind ?_
        exact .ite (fun _ => .pure c _) fun _ => ih result rest

/-- Binding parameters to arguments obeys what each of the definitions does. -/
theorem bindAll (c : Heap.Composes R) {env : Env}
    (defines : ∀ h symbol value, Obeys R h (env.define symbol value)) (params : List Value)
    (tail args : Value) : Obeys R h (env.bindAll params tail args) := by
  induction params generalizing h args with
  | nil =>
      unfold Env.bindAll
      split
      · exact defines h tail args
      · exact .pure c _
  | cons param params ih =>
      refine .get_bind ?_
      split
      · next arg rest _ => exact .bind c (defines h param arg) fun _ _ _ => ih rest
      · exact .pure c _

end Obeys

end HeapM

/-- A new environment with the parameters bound to arguments that are known to fit. -/
def Env.populate (env : Env) (params args : Value) : HeapM Fatal (Except BindingError Env) := do
  let child ← HeapM.child env
  HeapM.root child.value
  let (names, tail) := (← get).spine params
  child.bindAll names tail args
  pure (.ok child)

/--
What making data does to a heap. `whole` holds of an operation that drops the roots it has added,
`inside` also in the middle of one.
-/
structure DataConduct (whole inside : Heap → Heap → Prop) : Prop where
  along : Heap.Composes whole
  within : Heap.Composes inside
  weaken {h h' : Heap} : whole h h' → inside h h'
  close {h h' : Heap} : inside h h' → whole h (h'.truncateRoots h.roots.length)
  addRoot (h : Heap) (v : Value) : inside h (h.addRoot v)
  note (h : Heap) (notice : Notice) : whole h (h.note notice)
  allocate (h : Heap) {o : Object} : o.isPlain = true → whole h (heapAfter (HeapM.allocate o) h)
  intern (h : Heap) (name : String) : whole h (heapAfter (HeapM.intern name) h)

/--
What the elementary operations do to a heap, those on environments included. `ready` says inside
what environments a frame may be made.
-/
structure Conduct (ready : Heap → Env → Prop) (whole inside : Heap → Heap → Prop) : Prop extends
    DataConduct whole inside where
  child {h : Heap} {env : Env} : ready h env → whole h (heapAfter (HeapM.child env) h)
  define (h : Heap) (env : Env) (symbol value : Value) :
    whole h (heapAfter (env.define symbol value) h)
  assign {h : Heap} {env : Env} {symbol binding : Value} (value : Value) :
    env.binding? h symbol = some binding → whole h (h.setCdr binding value)
  ready_of_kind {h : Heap} {env : Env} : h.kind env.value = .environment → ready h env
  ready_addRoot {h : Heap} {env : Env} (v : Value) : ready h env → ready (h.addRoot v) env

namespace DataConduct

open HeapM

variable {ε α β : Type} {whole inside : Heap → Heap → Prop} {h : Heap}

/-- What is done in a scope is done as a whole. -/
theorem scope (c : DataConduct whole inside) {body : HeapM ε α} (obeys : Obeys inside h body) :
    Obeys whole h (HeapM.scope body) := by
  unfold Obeys heapAfter at obeys ⊢
  unfold HeapM.scope
  cases step : body h with
  | ok a h' =>
      rw [step] at obeys
      exact c.close obeys
  | error e h' =>
      rw [step] at obeys
      exact c.close obeys

/-- A whole operation may be part of a scope. -/
theorem partly (c : DataConduct whole inside) {op : HeapM ε α} (obeys : Obeys whole h op) :
    Obeys inside h op := c.weaken obeys

theorem root_bind (c : DataConduct whole inside) {v : Value} {next : Unit → HeapM ε β}
    (rest : Obeys inside (h.addRoot v) (next ())) : Obeys inside h (root v >>= next) :=
  .modify_bind c.within (c.addRoot h v) rest

theorem addRoots (c : DataConduct whole inside) (h : Heap) (values : List Value) :
    inside h (values.foldl Heap.addRoot h) := by
  induction values generalizing h with
  | nil => exact c.within.refl h
  | cons v values ih => exact c.within.trans (c.addRoot h v) (ih _)

theorem notes (c : DataConduct whole inside) (h : Heap) (notice : Heap → α → Notice)
    (items : List α) : whole h (items.foldl (fun h item => h.note (notice h item)) h) := by
  induction items generalizing h with
  | nil => exact c.along.refl h
  | cons item items ih => exact c.along.trans (c.note h _) (ih _)

/-! ## Constructors -/

section Constructors

variable (c : DataConduct whole inside)
include c

theorem obeys_raise (h : Heap) (kind : ErrorKind) (message : String) :
    Obeys whole h (raise kind message) := c.allocate h rfl

theorem obeys_wrongKind (h : Heap) (who expected : String) (found : Value) :
    Obeys whole h (wrongKind who expected found) := .get_bind (c.obeys_raise h _ _)

theorem obeys_malformed (h : Heap) (form : String) (expr : Value) :
    Obeys whole h (malformed form expr) := .get_bind (c.obeys_raise h _ _)

theorem obeys_cons (h : Heap) (car cdr : Value) : Obeys whole h (cons car cdr) :=
  c.scope (c.root_bind (c.root_bind (c.partly (c.allocate _ rfl))))

theorem obeys_consAll (h : Heap) (list : Value) (items : List Value) :
    Obeys whole h (consAll list items) := by
  induction items generalizing h list with
  | nil => exact .pure c.along list
  | cons item items ih => exact .bind c.along (c.obeys_cons h item list) fun pair h' _ => ih h' pair

theorem obeys_list (h : Heap) (items : List Value) : Obeys whole h (list items) :=
  c.scope (.modify_bind c.within (c.addRoots h items) (c.partly (c.obeys_consAll _ _ _)))

theorem obeys_procedure (h : Heap) (params body : Value) (env : Env) :
    Obeys whole h (procedure params body env) :=
  c.scope (c.root_bind (c.root_bind (c.root_bind (c.partly (c.allocate _ rfl)))))

end Constructors

/-! ## Environments -/

section Environments

variable (c : DataConduct whole inside)
include c

/-- A definition makes two pairs and puts them in front of the bindings. -/
theorem obeys_define {env : Env} (sets : ∀ h value, whole h (h.setBindings env value)) (h : Heap)
    (symbol value : Value) : Obeys whole h (env.define symbol value) := by
  refine c.scope (c.root_bind ?_)
  refine .bind c.within (c.partly (c.obeys_cons _ symbol value)) fun binding h₁ _ => ?_
  refine .get_bind (.bind c.within (c.partly (c.obeys_cons h₁ binding _)) fun bindings h₂ _ => ?_)
  exact c.weaken (sets h₂ bindings)

theorem obeys_extend_of_populate {env : Env} {params args : Value}
    (populates : Obeys inside ((h.addRoot params).addRoot args) (env.populate params args)) :
    Obeys whole h (env.extend params args) := by
  refine .get_bind ?_
  split
  · exact .pure c.along _
  · dsimp only
    split
    · exact .pure c.along _
    · exact c.scope (c.root_bind (c.root_bind populates))

end Environments

/-! ## Primitives -/

section Primitives

variable (c : DataConduct whole inside)
include c

theorem obeys_withNone (who : String) (args : Value) {body : HeapM Fatal Value}
    (obeys : Obeys whole h body) : Obeys whole h (withNone who args body) := by
  refine .get_bind ?_
  split
  · exact obeys
  · exact c.obeys_raise h _ _
  · exact c.obeys_raise h _ _

theorem obeys_withOne (who : String) (args : Value) {body : Value → HeapM Fatal Value}
    (obeys : ∀ a, Obeys whole h (body a)) : Obeys whole h (withOne who args body) := by
  refine .get_bind ?_
  split
  · exact obeys _
  · exact c.obeys_raise h _ _
  · exact c.obeys_raise h _ _

theorem obeys_withTwo (who : String) (args : Value) {body : Value → Value → HeapM Fatal Value}
    (obeys : ∀ a b, Obeys whole h (body a b)) : Obeys whole h (withTwo who args body) := by
  refine .get_bind ?_
  split
  · exact obeys _ _
  · exact c.obeys_raise h _ _
  · exact c.obeys_raise h _ _

theorem obeys_withThree (who : String) (args : Value)
    {body : Value → Value → Value → HeapM Fatal Value}
    (obeys : ∀ a b d, Obeys whole h (body a b d)) : Obeys whole h (withThree who args body) := by
  refine .get_bind ?_
  split
  · exact obeys _ _ _
  · exact c.obeys_raise h _ _
  · exact c.obeys_raise h _ _

theorem obeys_withSymbol (who : String) (value : Value) {body : HeapM Fatal Value}
    (obeys : Obeys whole h body) : Obeys whole h (withSymbol who value body) := by
  refine .get_bind ?_
  split
  · exact obeys
  · exact c.obeys_wrongKind h _ _ _

/-- What is handed on is an environment. -/
theorem obeys_withEnv (who : String) (value : Value) {body : Env → HeapM Fatal Value}
    (obeys : ∀ env, h.env? value = some env → Obeys whole h (body env)) :
    Obeys whole h (withEnv who value body) := by
  refine .get_bind ?_
  split
  · next env found => exact obeys env found
  · exact c.obeys_wrongKind h _ _ _

theorem obeys_valueOr {α : Type} (h : Heap) (f : α → Value) (result : Except BindingError α) :
    Obeys whole h (valueOr f result) := by
  cases result with
  | ok a => exact .pure c.along _
  | error e => exact c.obeys_raise h _ _

theorem obeys_part (h : Heap) (who : String) (list : Value) (part? : Heap → Value → Option Value) :
    Obeys whole h (do
      if list.isNil then pure .nil
      else
        match part? (← get) list with
        | some value => pure value
        | none => wrongKind who "pair" list : HeapM Fatal Value) := by
  split
  · exact .pure c.along _
  · refine .get_bind ?_
    split
    · exact .pure c.along _
    · exact c.obeys_wrongKind h _ _ _

theorem obeys_operand (h : Heap) (who : String) (value : Value) :
    Obeys whole h (operand who value) := by
  refine .get_bind ?_
  split
  · exact .pure c.along _
  · exact .pure c.along _
  · exact .pure c.along _
  · exact .map (c.obeys_raise h _ _) _
  · exact .map (c.obeys_wrongKind h _ _ _) _

theorem obeys_operandsOnto (h : Heap) (who : String) (found : List Number) (values : List Value) :
    Obeys whole h (operandsOnto who found values) := by
  induction values generalizing h found with
  | nil => exact .pure c.along _
  | cons value values ih =>
      refine .bind c.along (c.obeys_operand h who value) fun result h' _ => ?_
      cases result with
      | ok n => exact ih h' (n :: found)
      | error e => exact .pure c.along _

theorem obeys_withNumbers (h : Heap) (who : String) (args : Value)
    {body : List Number → HeapM Fatal Value} (obeys : ∀ numbers h', Obeys whole h' (body numbers)) :
    Obeys whole h (withNumbers who args body) := by
  refine .get_bind ?_
  split
  · exact c.obeys_raise h _ _
  · refine .bind c.along (c.obeys_operandsOnto h who [] _) fun result h' _ => ?_
    cases result with
    | ok found => exact obeys _ h'
    | error e => exact .pure c.along _

theorem obeys_arithmetic (h : Heap) (op : Operator) (args : Value) :
    Obeys whole h (arithmetic op args) := by
  unfold arithmetic
  dsimp only
  split
  · exact c.obeys_raise h _ _
  · refine c.obeys_withNumbers h _ args fun numbers h' => ?_
    split
    · next n _ =>
      cases n with
      | int n => exact c.allocate h' rfl
      | float x => exact c.allocate h' rfl
    · exact c.obeys_raise h' _ _
    · exact c.obeys_raise h' _ _

theorem obeys_comparison (h : Heap) (op : Comparison) (args : Value) :
    Obeys whole h (comparison op args) := by
  unfold comparison
  refine c.obeys_withNumbers h _ args fun numbers h' => ?_
  dsimp only
  split
  · exact c.obeys_raise h' _ _
  · exact .get_bind (.pure c.along _)

theorem obeys_custom (h : Heap) (who : String) (args : Value) :
    Obeys whole h (custom who args) := by
  refine .get_bind ?_
  split
  · exact c.obeys_raise h _ _
  · exact c.obeys_raise h _ _

theorem obeys_printAll (h : Heap) (args : Value) : Obeys whole h (printAll args) :=
  .modify_bind c.along (c.notes h (fun h item => .printed (h.display item)) (h.spine args).1)
    (.pure c.along _)

/-- A primitive that changes no environment may be called with anything in any state. -/
theorem obeys_call_data (h : Heap) {p : Primitive} (data : p.changesEnvironment = false)
    (args : Value) : Obeys whole h (p.call args) := by
  cases p with
  | list => exact .pure c.along args
  | cons => exact c.obeys_withTwo _ args fun a b => c.obeys_cons h a b
  | car => exact c.obeys_withOne _ args fun a => c.obeys_part h _ a Heap.car?
  | cdr => exact c.obeys_withOne _ args fun a => c.obeys_part h _ a Heap.cdr?
  | same => exact c.obeys_withTwo _ args fun a b => .get_bind (.pure c.along _)
  | equal => exact c.obeys_withTwo _ args fun a b => .get_bind (.pure c.along _)
  | question q => exact c.obeys_withOne _ args fun a => .get_bind (.pure c.along _)
  | arithmetic op => exact c.obeys_arithmetic h op args
  | comparison op => exact c.obeys_comparison h op args
  | error => exact c.obeys_custom h _ args
  | exit => exact .get_bind (.throw c.along _)
  | print => exact c.obeys_printAll h args
  | lookupVariable =>
      exact c.obeys_withTwo _ args fun symbol value => c.obeys_withSymbol _ symbol <|
        c.obeys_withEnv _ value fun env _ => .get_bind (c.obeys_valueOr h _ _)
  | setVariable | defineVariable | extendEnvironment => cases data
  | globalEnvironment => exact c.obeys_withNone _ args (.get_bind (.pure c.along _))

end Primitives

end DataConduct

namespace Conduct

open HeapM

variable {ready : Heap → Env → Prop} {whole inside : Heap → Heap → Prop} {h : Heap}

/-! ## Environments -/

section Environments

variable (c : Conduct ready whole inside)
include c

theorem obeys_set (h : Heap) (env : Env) (symbol value : Value) :
    Obeys whole h (env.set symbol value) := by
  unfold Obeys heapAfter
  rcases env.set_cases symbol value h with ⟨binding, found, step⟩ | ⟨_, step⟩
  · rw [step]
    exact c.assign value found
  · rw [step]
    exact c.along.refl h

theorem obeys_populate {env : Env} (isReady : ready h env) (params args : Value) :
    Obeys inside h (env.populate params args) := by
  refine .bind c.within (c.partly (c.child isReady)) fun child h' _ => ?_
  refine c.root_bind (.get_bind ?_)
  exact .bind c.within (c.partly (.bindAll c.along (fun h => c.define h child) _ _ args))
    fun _ _ _ => .pure c.within _

theorem obeys_extend {env : Env} (isReady : ready h env) (params args : Value) :
    Obeys whole h (env.extend params args) :=
  c.obeys_extend_of_populate
    (c.obeys_populate (c.ready_addRoot args (c.ready_addRoot params isReady)) params args)

theorem obeys_definePrimitive (h : Heap) (env : Env) (p : Primitive) :
    Obeys whole h (env.definePrimitive p) :=
  .bind c.along (c.intern h p.name) fun name h₁ _ =>
    .bind c.along (c.allocate h₁ rfl) fun value h₂ _ => c.define h₂ env name value

theorem obeys_definePrimitives (h : Heap) (env : Env) (primitives : List Primitive) :
    Obeys whole h (env.definePrimitives primitives) := by
  have defines : ∀ h, Obeys whole h (primitives.forM env.definePrimitive) := by
    induction primitives with
    | nil => exact fun h => .pure c.along _
    | cons p primitives ih =>
        exact fun h => .bind c.along (c.obeys_definePrimitive h env p) fun _ h' _ => ih h'
  exact c.scope (c.root_bind (c.partly (defines _)))

theorem whole_standard {capacity : Nat} (done : Heap.standard capacity = .ok h) :
    whole (Heap.empty capacity) h :=
  heapAfter_of_standard done ▸ c.obeys_definePrimitives _ _ Primitive.standard

end Environments

/-! ## Primitives -/

section Primitives

variable (c : Conduct ready whole inside)
include c

theorem ready_of_env? {value : Value} {env : Env} (found : h.env? value = some env) :
    ready h env := by
  refine c.ready_of_kind ?_
  unfold Heap.env? at found
  split at found
  · next isEnv =>
    cases found
    exact eq_of_beq isEnv
  · cases found

/-- A primitive may be called with anything in any state. -/
theorem obeys_call (h : Heap) (p : Primitive) (args : Value) : Obeys whole h (p.call args) := by
  cases p with
  | setVariable =>
      exact c.obeys_withThree _ args fun symbol new value => c.obeys_withSymbol _ symbol <|
        c.obeys_withEnv _ value fun env _ =>
          .bind c.along (c.obeys_set h env symbol new) fun _ h' _ => c.obeys_valueOr h' _ _
  | defineVariable =>
      exact c.obeys_withThree _ args fun symbol new value => c.obeys_withSymbol _ symbol <|
        c.obeys_withEnv _ value fun env _ =>
          .bind c.along (c.define h env symbol new) fun _ _ _ => .pure c.along _
  | extendEnvironment =>
      exact c.obeys_withThree _ args fun params values value => c.obeys_withEnv _ value
        fun env found => .bind c.along (c.obeys_extend (c.ready_of_env? found) params values)
          fun _ h' _ => c.obeys_valueOr h' _ _
  | _ => exact c.obeys_call_data h rfl args

end Primitives

end Conduct

end Lisplet
