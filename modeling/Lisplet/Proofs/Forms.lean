import Lisplet.Proofs.Balance
import Lisplet.Proofs.Conduct.Language
import Lisplet.Proofs.Heap.Growth
import Lisplet.Proofs.Heap.Spine

/-!
# Forms — what a compound expression is

A compound expression is a pair, and the handle that it begins with decides which form it is of.
What evaluation does with it is the work of that form, done in a scope with the expression and the
environment rooted. `outcome_of_work` says so for evaluations that end with a value.
-/

namespace Lisplet

/-- What an operation obeys holds if it ends with a value. -/
theorem HeapM.Obeys.of_ok {ε α : Type} {R : Heap → Heap → Prop} {op : HeapM ε α} {a : α}
    {h h' : Heap} (obeys : HeapM.Obeys R h op) (done : op h = .ok a h') : R h h' := by
  unfold HeapM.Obeys Heap.Operation.heapAfter at obeys
  rwa [done] at obeys

/-- If an operation ends with a value, then so does its first step. -/
theorem HeapM.exists_of_bind {ε α β : Type} {op : HeapM ε α} {next : α → HeapM ε β} {b : β}
    {h h' : Heap} (ends : (op >>= next) h = .ok b h') :
    ∃ a h₁, op h = .ok a h₁ ∧ next a h₁ = .ok b h' := by
  simp only [Bind.bind, EStateM.bind] at ends
  cases first : op h with
  | error e h₁ =>
      rw [first] at ends
      cases ends
  | ok a h₁ =>
      rw [first] at ends
      exact ⟨a, h₁, rfl, ends⟩

/-- A scope ends as its body does, with the roots dropped. -/
theorem HeapM.exists_of_scope {ε α : Type} {body : HeapM ε α} {a : α} {h h' : Heap}
    (ends : HeapM.scope body h = .ok a h') :
    ∃ h₁, body h = .ok a h₁ ∧ h' = h₁.truncateRoots h.roots.length := by
  unfold HeapM.scope at ends
  cases done : body h with
  | error e h₁ =>
      rw [done] at ends
      cases ends
  | ok a h₁ =>
      rw [done] at ends
      cases ends
      exact ⟨h₁, rfl, rfl⟩

/-- What a compound expression can be. -/
inductive Form where
  | quote
  | conditional
  | assignment
  | definition
  | abstraction
  | sequence
  | application
  deriving DecidableEq, Repr

/-- What messages call a form. -/
def Form.name : Form → String
  | .quote => "quote"
  | .conditional => "if"
  | .assignment => "set!"
  | .definition => "define"
  | .abstraction => "lambda"
  | .sequence => "begin"
  | .application => "application"

/-- The form that begins with `head`: an application, unless it is one of the form symbols. -/
def Forms.formOf (forms : Forms) (head : Value) : Form :=
  if head = forms.quote then .quote
  else if head = forms.conditional then .conditional
  else if head = forms.assignment then .assignment
  else if head = forms.definition then .definition
  else if head = forms.abstraction then .abstraction
  else if head = forms.sequence then .sequence
  else .application

/-- An evaluation that is about to be made: what is evaluated, where, and with how much room. -/
structure Evaluating where
  room : Nat
  expr : Value
  env : Env
  heap : Heap

/-- The heap on which the parts are evaluated: the expression and the environment are rooted. -/
def Evaluating.opened (e : Evaluating) : Heap := (e.heap.addRoot e.expr).addRoot e.env.value

namespace Evaluator

variable {ev : Evaluator} {e : Evaluating} {form : Form} {head operands : Value}

/-- What the evaluation ends with. -/
def outcome (ev : Evaluator) (e : Evaluating) : EStateM.Result Fatal Heap Value :=
  ev.eval e.room e.expr e.env e.heap

/-- The expression is a compound one of this form. The symbol `t` is none, whatever its slot has. -/
structure Compound (ev : Evaluator) (e : Evaluating) (form : Form) (head operands : Value) :
    Prop where
  pair : e.heap.pair? e.expr = some (head, operands)
  notTruth : e.expr ≠ e.heap.t
  isForm : ev.forms.formOf head = form

/-- What is done with a compound expression of some form, with room for the parts. -/
def work (ev : Evaluator) (room : Nat) (form : Form) (expr head operands : Value) (env : Env) :
    HeapM Fatal Value :=
  match form with
  | .quote => quoteForm expr operands
  | .conditional => ifForm (fun part => ev.eval room part env) expr operands
  | .assignment => setForm (fun part => ev.eval room part env) expr operands env
  | .definition => defineForm (fun part => ev.eval room part env) expr operands env
  | .abstraction => lambdaForm expr operands env
  | .sequence => sequenceWith (fun part => ev.eval room part env) .nil Value.maxSlots operands
  | .application =>
      application (fun part => ev.eval room part env) (fun f args => ev.apply room f args)
        expr head operands

/-- The forms are told apart in the order in which evaluation asks for them. -/
theorem work_formOf (room : Nat) (expr : Value) (env : Env) :
    ev.work room (ev.forms.formOf head) expr head operands env =
      if head = ev.forms.quote then quoteForm expr operands
      else if head = ev.forms.conditional then
        ifForm (fun part => ev.eval room part env) expr operands
      else if head = ev.forms.assignment then
        setForm (fun part => ev.eval room part env) expr operands env
      else if head = ev.forms.definition then
        defineForm (fun part => ev.eval room part env) expr operands env
      else if head = ev.forms.abstraction then lambdaForm expr operands env
      else if head = ev.forms.sequence then
        sequenceWith (fun part => ev.eval room part env) .nil Value.maxSlots operands
      else
        application (fun part => ev.eval room part env) (fun f args => ev.apply room f args)
          expr head operands := by
  have chosen (c : Prop) [Decidable c] (form form' : Form) :
      ev.work room (if c then form else form') expr head operands env =
        if c then ev.work room form expr head operands env
        else ev.work room form' expr head operands env :=
    apply_ite (fun form => ev.work room form expr head operands env) c form form'
  simp only [Forms.formOf, chosen]
  rfl

/-- An evaluation leaves the roots as it has found them. -/
theorem roots_of_outcome {v : Value} {h' : Heap} (ends : ev.outcome e = .ok v h') :
    h'.roots = e.heap.roots :=
  ((conduct_level.obeys_eval e.heap ev e.room e.expr e.env).of_ok ends).roots_eq

namespace Compound

theorem object (c : ev.Compound e form head operands) :
    e.heap.object? e.expr = some (.pair head operands) := Heap.pair?_eq_some_iff.1 c.pair

/-- A compound expression does not evaluate to itself. -/
theorem not_isSelfEvaluating (c : ev.Compound e form head operands) :
    e.heap.isSelfEvaluating e.expr = false := by
  have object := c.object
  have notTruth := c.notTruth
  cases name : e.expr with
  | nil =>
      rw [name] at object
      cases object
  | slot i =>
      rw [name] at object notTruth
      have kind : e.heap.kind (.slot i) = .pair := by simp [Heap.kind, object, Object.kind]
      simp [Heap.isSelfEvaluating, Heap.isNumber, Heap.isString, kind, notTruth, Value.isNil,
        Kind.isNumber]

theorem not_isSymbol (c : ev.Compound e form head operands) :
    e.heap.isSymbol e.expr = false := by
  have object := c.object
  cases name : e.expr with
  | nil => rfl
  | slot i =>
      rw [name] at object
      simp [Heap.isSymbol, Heap.kind, object, Object.kind]

/-- Without room nothing compound is evaluated. -/
theorem outcome_zero (c : ev.Compound e form head operands) (none : e.room = 0) :
    ev.outcome e = .error (.recursionLimit ev.limit) e.heap := by
  unfold outcome eval
  rw [get_bind_apply, if_neg (by simp [c.not_isSelfEvaluating]),
    if_neg (by simp [c.not_isSymbol]), c.pair, none]
  rfl

/-- With room the work is done in a scope. -/
theorem outcome_succ (c : ev.Compound e form head operands) {room : Nat}
    (enough : e.room = room + 1) :
    ev.outcome e =
      HeapM.scope (fun _ => ev.work room form e.expr head operands e.env e.opened) e.heap := by
  have asked : ev.work room (ev.forms.formOf head) e.expr head operands e.env = _ :=
    work_formOf room e.expr e.env
  rw [c.isForm] at asked
  unfold outcome eval
  rw [get_bind_apply, if_neg (by simp [c.not_isSelfEvaluating]),
    if_neg (by simp [c.not_isSymbol]), c.pair, enough, asked]
  rfl

/-- If the work ends with a value, then so does the evaluation, and its roots are dropped. -/
theorem outcome_of_work (c : ev.Compound e form head operands) {room : Nat}
    (enough : e.room = room + 1) {v : Value} {h' : Heap}
    (done : ev.work room form e.expr head operands e.env e.opened = .ok v h') :
    ev.outcome e = .ok v (h'.truncateRoots e.heap.roots.length) := by
  rw [c.outcome_succ enough]
  exact HeapM.scope_ok done

/-- If an evaluation ends with a value, then that is what the work has ended with. -/
theorem exists_work (c : ev.Compound e form head operands) {v : Value} {h' : Heap}
    (ends : ev.outcome e = .ok v h') :
    ∃ room h₁, e.room = room + 1 ∧
      ev.work room form e.expr head operands e.env e.opened = .ok v h₁ ∧
      h' = { h₁ with roots := e.heap.roots } := by
  have roots := roots_of_outcome ends
  cases enough : e.room with
  | zero =>
      rw [c.outcome_zero enough] at ends
      cases ends
  | succ room =>
      rw [c.outcome_succ enough] at ends
      rcases HeapM.exists_of_scope ends with ⟨h₁, done, rfl⟩
      exact ⟨room, h₁, rfl, done, congrArg (fun roots => { h₁ with roots }) roots⟩

end Compound

end Evaluator

/-! ## The shape of a compound expression -/

theorem Heap.pair?_of_isSymbol {h : Heap} {v : Value} (symbol : h.isSymbol v = true) :
    h.pair? v = none := by
  have kind := eq_of_beq symbol
  unfold Heap.kind at kind
  unfold pair?
  split at kind
  · cases kind
  · split at kind
    · next o found =>
      rw [found]
      cases o with
      | pair _ _ => cases kind
      | _ => rfl
    · cases kind

namespace Evaluating

variable {e : Evaluating} {v : Value} {items : List Value}

theorem isRoot_opened (e : Evaluating) : e.opened.IsRoot e.expr ∨ e.expr = .nil := by
  cases name : e.expr with
  | nil => exact .inr rfl
  | slot i =>
      have rooted : (e.heap.addRoot (.slot i)).IsRoot (.slot i) := .stack List.mem_cons_self
      rw [opened, name]
      exact .inl ((Heap.KeepsRoots.addRoot _ _).isRoot rooted)

@[simp]
theorem object?_opened (e : Evaluating) (v : Value) : e.opened.object? v = e.heap.object? v := by
  simp [opened]

/-- Nothing but the roots is different. -/
theorem exists_opened (e : Evaluating) : ∃ roots, e.opened = { e.heap with roots } := by
  rcases e.heap.addRoot_eq e.expr with ⟨roots, same⟩
  rcases (e.heap.addRoot e.expr).addRoot_eq e.env.value with ⟨roots', same'⟩
  exact ⟨roots', by rw [opened, same', same]⟩

theorem opened_eq (e : Evaluating) : { e.opened with roots := e.heap.roots } = e.heap := by
  rcases e.exists_opened with ⟨roots, same⟩
  rw [same]

/-- With the roots of the evaluation lists are what they were. -/
theorem pair?_opened (e : Evaluating) (v : Value) : e.opened.pair? v = e.heap.pair? v :=
  Heap.pair?_congr e.object?_opened v

theorem kind_opened (e : Evaluating) (v : Value) : e.opened.kind v = e.heap.kind v := by
  simp [Heap.kind]

theorem isSymbol_opened (e : Evaluating) (v : Value) :
    e.opened.isSymbol v = e.heap.isSymbol v := by
  rw [Heap.isSymbol, kind_opened, Heap.isSymbol]

/-- What is written does not depend on the roots. -/
theorem write_opened (e : Evaluating) (v : Value) : e.opened.write v = e.heap.write v := by
  rcases e.exists_opened with ⟨roots, same⟩
  rw [same]
  with_unfolding_all rfl

theorem items?_opened_eq_some (found : e.heap.items? v = some items) :
    e.opened.items? v = some items :=
  Heap.items?_eq_some_iff.2 ((Heap.items?_eq_some_iff.1 found).congr e.object?_opened)

end Evaluating

end Lisplet
