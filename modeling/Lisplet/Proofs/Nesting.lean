import Lisplet.Proofs.Balance
import Lisplet.Proofs.Conduct.Language

/-!
# Nesting — what is opened is closed

Evaluation is told how much room it has, and hands less of it on to its parts. Here the same
evaluator is written down with a count of the compound evaluations that are open, kept beside the
heap: one is opened unless there are as many as the limit allows, and it is closed however its body
ends. The two agree in their outcome and in the heap they leave, and the count is given back as it
was found. So are the roots and the pins, by this and by everything else that may be asked of the
system.
-/

namespace Lisplet

open Heap.Operation (heapAfter)

/-- A heap with the number of compound evaluations that are open on it. -/
structure Counted where
  heap : Heap
  depth : Nat

/-- An operation that may open evaluations and may fail. -/
abbrev CountedM := EStateM Fatal Counted

namespace Counted

section Operations

variable {α : Type}

/-- What came of an operation on the heap, with a count beside it. -/
def beside (depth : Nat) : EStateM.Result Fatal Heap α → EStateM.Result Fatal Counted α
  | .ok a h => .ok a ⟨h, depth⟩
  | .error e h => .error e ⟨h, depth⟩

/-- An operation that opens no evaluation. -/
def lift (op : HeapM Fatal α) : CountedM α := fun s => beside s.depth (op s.heap)

def look : CountedM Heap := fun s => .ok s.heap s

/--
Opens an evaluation, unless there are as many as the limit allows, and runs `body`. Whatever the
outcome, the roots that it has left are dropped and the evaluation is closed.
-/
def frame (limit : Nat) (body : CountedM α) : CountedM α := fun s =>
  if limit ≤ s.depth then .error (.recursionLimit limit) s
  else
    match body { s with depth := s.depth + 1 } with
    | .ok a s' => .ok a ⟨s'.heap.truncateRoots s.heap.roots.length, s'.depth - 1⟩
    | .error e s' => .error e ⟨s'.heap.truncateRoots s.heap.roots.length, s'.depth - 1⟩

end Operations

/-! ## Loops and special forms -/

section Forms

variable (evaluate : Value → CountedM Value)

def sequenceWith (result : Value) : (steps : Nat) → Value → CountedM Value
  | 0, _ => pure result
  | steps + 1, list => do
    match (← look).pair? list with
    | none => pure result
    | some (expr, rest) =>
      let result ← evaluate expr
      if (← look).isError result then pure result
      else sequenceWith result steps rest

def operandsWith (found : List Value) : (steps : Nat) → Value → CountedM Evaluator.Operands
  | 0, _ => pure .improper
  | steps + 1, list => do
    match (← look).pair? list with
    | none => pure (if list.isNil then .values found else .improper)
    | some (expr, rest) =>
      let value ← evaluate expr
      if (← look).isError value then pure (.failed value)
      else
        lift (HeapM.root value)
        operandsWith (value :: found) steps rest

def choose (test consequent : Value) (alternative : Option Value) : CountedM Value := do
  let outcome ← evaluate test
  if (← look).isError outcome then pure outcome
  else
    match outcome, alternative with
    | .slot _, _ => evaluate consequent
    | .nil, some alternative => evaluate alternative
    | .nil, none => pure .nil

def ifForm (expr operands : Value) : CountedM Value := do
  match (← look).items? operands with
  | some [test, consequent] => choose evaluate test consequent none
  | some [test, consequent, alternative] => choose evaluate test consequent (some alternative)
  | _ => lift (HeapM.malformed "if" expr)

def setForm (expr operands : Value) (env : Env) : CountedM Value := do
  match (← look).items? operands with
  | some [target, source] =>
    if (← look).isSymbol target then
      let value ← evaluate source
      if (← look).isError value then pure value
      else
        match ← lift (env.set target value) with
        | .ok () => pure value
        | .error e => lift e.toValue
    else lift (HeapM.wrongKind "set!" "symbol" target)
  | _ => lift (HeapM.malformed "set!" expr)

def defineForm (expr operands : Value) (env : Env) : CountedM Value := do
  match (← look).pair? operands with
  | none => lift (HeapM.malformed "define" expr)
  | some (target, rest) =>
    match (← look).pair? target with
    | some (name, params) => lift (Evaluator.defineProcedure name params rest env)
    | none =>
      match (← look).items? rest with
      | some [source] =>
        if (← look).isSymbol target then
          let value ← evaluate source
          if (← look).isError value then pure value
          else
            lift (HeapM.root value)
            lift (env.define target value)
            pure value
        else lift (HeapM.wrongKind "define" "symbol" target)
      | _ => lift (HeapM.malformed "define" expr)

def application (apply : Value → Value → CountedM Value) (expr head operands : Value) :
    CountedM Value := do
  let function ← evaluate head
  if (← look).isError function then pure function
  else
    lift (HeapM.root function)
    match ← operandsWith evaluate [] Value.maxSlots operands with
    | .values found => do
      let args ← lift (HeapM.list found.reverse)
      apply function args
    | .failed error => pure error
    | .improper => lift (HeapM.malformed "application" expr)

end Forms

/-! ## Evaluation and application -/

mutual

/--
Evaluates an expression, with the count deciding whether it may be opened. The `fuel` is for the
recursion alone; it must not be less than what the limit still allows.
-/
def evalWith (ev : Evaluator) (fuel : Nat) (expr : Value) (env : Env) : CountedM Value := do
  let h ← look
  if h.isSelfEvaluating expr then pure expr
  else if h.isSymbol expr then lift (HeapM.valueOr id (env.lookup h expr))
  else
    match h.pair? expr with
    | none => pure expr
    | some (head, operands) => frame ev.limit do
      lift (HeapM.root expr)
      lift (HeapM.root env.value)
      match fuel with
      | 0 => throw (.recursionLimit ev.limit)
      | fuel + 1 =>
        if head = ev.forms.quote then lift (Evaluator.quoteForm expr operands)
        else if head = ev.forms.conditional then
          ifForm (fun part => evalWith ev fuel part env) expr operands
        else if head = ev.forms.assignment then
          setForm (fun part => evalWith ev fuel part env) expr operands env
        else if head = ev.forms.definition then
          defineForm (fun part => evalWith ev fuel part env) expr operands env
        else if head = ev.forms.abstraction then lift (Evaluator.lambdaForm expr operands env)
        else if head = ev.forms.sequence then
          sequenceWith (fun part => evalWith ev fuel part env) .nil Value.maxSlots operands
        else
          application (fun part => evalWith ev fuel part env)
            (fun f args => applyWith ev fuel f args) expr head operands

def applyWith (ev : Evaluator) (fuel : Nat) (function args : Value) : CountedM Value := do
  match (← look).object? function with
  | some (.primitive p) => lift (p.call args)
  | some (.procedure params body captured) =>
    match (← look).env? captured.value with
    | none => lift (HeapM.raise .typeError "procedure has no environment")
    | some captured => frame ev.limit do
      lift (HeapM.root function)
      lift (HeapM.root args)
      match ← lift (captured.extend params args) with
      | .error e => lift e.toValue
      | .ok env =>
        lift (HeapM.root env.value)
        match fuel with
        | 0 => throw (.recursionLimit ev.limit)
        | fuel + 1 => sequenceWith (fun part => evalWith ev fuel part env) .nil Value.maxSlots body
  | _ => lift (HeapM.notCallable function)

end

/-- The fuel is looked at last, when a body is to be evaluated. -/
theorem applyWith_eq (ev : Evaluator) (fuel : Nat) (function args : Value) :
    applyWith ev fuel function args = (do
      match (← look).object? function with
      | some (.primitive p) => lift (p.call args)
      | some (.procedure params body captured) =>
        match (← look).env? captured.value with
        | none => lift (HeapM.raise .typeError "procedure has no environment")
        | some captured => frame ev.limit do
          lift (HeapM.root function)
          lift (HeapM.root args)
          match ← lift (captured.extend params args) with
          | .error e => lift e.toValue
          | .ok env =>
            lift (HeapM.root env.value)
            match fuel with
            | 0 => throw (.recursionLimit ev.limit)
            | fuel + 1 =>
              sequenceWith (fun part => evalWith ev fuel part env) .nil Value.maxSlots body
      | _ => lift (HeapM.notCallable function)) := by
  cases fuel with
  | zero => rfl
  | succ fuel => rfl

/-- Evaluates an expression. No more evaluations can be opened than the limit allows in all. -/
def eval (ev : Evaluator) (expr : Value) (env : Env) : CountedM Value :=
  evalWith ev ev.limit expr env

def apply (ev : Evaluator) (function args : Value) : CountedM Value :=
  applyWith ev ev.limit function args

def evaluateAll (ev : Evaluator) (body : Value) (env : Env) : CountedM Value :=
  sequenceWith (fun part => eval ev part env) .nil Value.maxSlots body

/-! ## The count is given back -/

section Agreement

variable {α β : Type} {depth limit : Nat}

/-- With so many evaluations open, `op'` does what `op` does and leaves as many open. -/
def Agrees (depth : Nat) (op' : CountedM α) (op : HeapM Fatal α) : Prop :=
  ∀ h, op' ⟨h, depth⟩ = beside depth (op h)

namespace Agrees

variable {op' : CountedM α} {op : HeapM Fatal α}

theorem lift (op : HeapM Fatal α) : Agrees depth (Counted.lift op) op := fun _ => rfl

theorem pure (a : α) : Agrees depth (Pure.pure a) (Pure.pure a) := fun _ => rfl

theorem look_bind {f' : Heap → CountedM β} {f : Heap → HeapM Fatal β}
    (agrees : ∀ h, Agrees depth (f' h) (f h)) : Agrees depth (look >>= f') (get >>= f) :=
  fun h => agrees h h

theorem bind {next' : α → CountedM β} {next : α → HeapM Fatal β} (first : Agrees depth op' op)
    (rest : ∀ a, Agrees depth (next' a) (next a)) :
    Agrees depth (op' >>= next') (op >>= next) := by
  intro h
  simp only [Bind.bind, EStateM.bind]
  rw [first h]
  cases op h with
  | ok a h' => exact rest a h'
  | error e h' => rfl

theorem ite {p : Prop} [Decidable p] {yes' no' : CountedM α} {yes no : HeapM Fatal α}
    (ifTrue : Agrees depth yes' yes) (ifFalse : Agrees depth no' no) :
    Agrees depth (if p then yes' else no') (if p then yes else no) := by
  by_cases holds : p
  · rw [if_pos holds, if_pos holds]
    exact ifTrue
  · rw [if_neg holds, if_neg holds]
    exact ifFalse

/-- Below the limit the body runs one level deeper, in a scope of its own. -/
theorem frame (room : depth < limit) (body : Agrees (depth + 1) op' op) :
    Agrees depth (Counted.frame limit op') (HeapM.scope op) := by
  intro h
  unfold Counted.frame HeapM.scope
  rw [if_neg (Nat.not_le_of_lt room)]
  dsimp only
  rw [body h]
  cases op h with
  | ok a h' => rfl
  | error e h' => rfl

theorem frame_full (full : limit ≤ depth) :
    Agrees depth (Counted.frame limit op') (throw (.recursionLimit limit)) := by
  intro h
  unfold Counted.frame
  rw [if_pos full]
  rfl

end Agrees

section Forms

variable {evaluate' : Value → CountedM Value} {evaluate : Value → HeapM Fatal Value}
  (parts : ∀ part, Agrees depth (evaluate' part) (evaluate part))
include parts

theorem agrees_sequenceWith (steps : Nat) (result list : Value) :
    Agrees depth (sequenceWith evaluate' result steps list)
      (Evaluator.sequenceWith evaluate result steps list) := by
  induction steps generalizing result list with
  | zero => exact .pure _
  | succ steps ih =>
      refine .look_bind fun h => ?_
      cases h.pair? list with
      | none => exact .pure _
      | some pair =>
          refine .bind (parts pair.1) fun result => .look_bind fun h => ?_
          exact .ite (.pure _) (ih result pair.2)

theorem agrees_operandsWith (found : List Value) (steps : Nat) (list : Value) :
    Agrees depth (operandsWith evaluate' found steps list)
      (Evaluator.operandsWith evaluate found steps list) := by
  induction steps generalizing found list with
  | zero => exact .pure _
  | succ steps ih =>
      refine .look_bind fun h => ?_
      cases h.pair? list with
      | none => exact .pure _
      | some pair =>
          refine .bind (parts pair.1) fun value => .look_bind fun h => .ite (.pure _) ?_
          exact .bind (.lift _) fun _ => ih (value :: found) pair.2

theorem agrees_choose (test consequent : Value) (alternative : Option Value) :
    Agrees depth (choose evaluate' test consequent alternative)
      (Evaluator.choose evaluate test consequent alternative) := by
  refine .bind (parts test) fun outcome => .look_bind fun h => .ite (.pure _) ?_
  cases outcome with
  | slot _ => exact parts consequent
  | nil =>
      cases alternative with
      | none => exact .pure _
      | some alternative => exact parts alternative

theorem agrees_ifForm (expr operands : Value) :
    Agrees depth (ifForm evaluate' expr operands) (Evaluator.ifForm evaluate expr operands) := by
  refine .look_bind fun h => ?_
  rcases h.items? operands with
    _ | _ | ⟨test, _ | ⟨consequent, _ | ⟨alternative, _ | ⟨_, _⟩⟩⟩⟩
  · exact .lift _
  · exact .lift _
  · exact .lift _
  · exact agrees_choose parts test consequent none
  · exact agrees_choose parts test consequent (some alternative)
  · exact .lift _

theorem agrees_setForm (expr operands : Value) (env : Env) :
    Agrees depth (setForm evaluate' expr operands env)
      (Evaluator.setForm evaluate expr operands env) := by
  refine .look_bind fun h => ?_
  rcases h.items? operands with _ | _ | ⟨target, _ | ⟨source, _ | ⟨_, _⟩⟩⟩
  · exact .lift _
  · exact .lift _
  · exact .lift _
  · refine .look_bind fun h => .ite ?_ (.lift _)
    refine .bind (parts source) fun value => .look_bind fun h => .ite (.pure _) ?_
    refine .bind (.lift _) fun done => ?_
    cases done with
    | ok _ => exact .pure _
    | error e => exact .lift _
  · exact .lift _

theorem agrees_defineForm (expr operands : Value) (env : Env) :
    Agrees depth (defineForm evaluate' expr operands env)
      (Evaluator.defineForm evaluate expr operands env) := by
  refine .look_bind fun h => ?_
  cases h.pair? operands with
  | none => exact .lift _
  | some pair =>
      refine .look_bind fun h => ?_
      cases h.pair? pair.1 with
      | some inner => exact .lift _
      | none =>
          refine .look_bind fun h => ?_
          rcases h.items? pair.2 with _ | _ | ⟨source, _ | ⟨_, _⟩⟩
          · exact .lift _
          · exact .lift _
          · refine .look_bind fun h => .ite ?_ (.lift _)
            refine .bind (parts source) fun value => .look_bind fun h => .ite (.pure _) ?_
            exact .bind (.lift _) fun _ => .bind (.lift _) fun _ => .pure _
          · exact .lift _

theorem agrees_application {apply' : Value → Value → CountedM Value}
    {apply : Value → Value → HeapM Fatal Value}
    (applies : ∀ f args, Agrees depth (apply' f args) (apply f args)) (expr head operands : Value) :
    Agrees depth (application evaluate' apply' expr head operands)
      (Evaluator.application evaluate apply expr head operands) := by
  refine .bind (parts head) fun function => .look_bind fun h => .ite (.pure _) ?_
  refine .bind (.lift _) fun _ => .bind (agrees_operandsWith parts [] _ operands) fun found => ?_
  cases found with
  | values found => exact .bind (.lift _) fun args => applies function args
  | failed error => exact .pure _
  | improper => exact .lift _

end Forms

/-- Below the limit, evaluation with the count goes on as evaluation with one less room. -/
theorem agrees_evalWith (ev : Evaluator) {fuel room : Nat} (left : room = ev.limit - depth)
    (enough : room ≤ fuel)
    (evaluates : ∀ f r, fuel = f + 1 → room = r + 1 → ∀ expr env,
      Agrees (depth + 1) (evalWith ev f expr env) (ev.eval r expr env))
    (applies : ∀ f r, fuel = f + 1 → room = r + 1 → ∀ function args,
      Agrees (depth + 1) (applyWith ev f function args) (ev.apply r function args))
    (expr : Value) (env : Env) :
    Agrees depth (evalWith ev fuel expr env) (ev.eval room expr env) := by
  unfold evalWith Evaluator.eval
  refine .look_bind fun h => .ite (.pure _) (.ite (.lift _) ?_)
  cases h.pair? expr with
  | none => exact .pure _
  | some pair =>
      cases room with
      | zero => exact .frame_full (by omega)
      | succ r =>
          rcases Nat.exists_eq_add_of_lt enough with ⟨more, rfl⟩
          have parts : ∀ part, Agrees (depth + 1) (evalWith ev (r + more) part env)
              (ev.eval r part env) := fun part => evaluates (r + more) r rfl rfl part env
          refine .frame (by omega) (.bind (.lift _) fun _ => .bind (.lift _) fun _ => ?_)
          refine .ite (.lift _) (.ite (agrees_ifForm parts _ _) ?_)
          refine .ite (agrees_setForm parts _ _ _) (.ite (agrees_defineForm parts _ _ _) ?_)
          refine .ite (.lift _) (.ite (agrees_sequenceWith parts _ _ _) ?_)
          exact agrees_application parts (applies (r + more) r rfl rfl) _ _ _

theorem agrees_applyWith (ev : Evaluator) {fuel room : Nat} (left : room = ev.limit - depth)
    (enough : room ≤ fuel)
    (evaluates : ∀ f r, fuel = f + 1 → room = r + 1 → ∀ expr env,
      Agrees (depth + 1) (evalWith ev f expr env) (ev.eval r expr env))
    (function args : Value) :
    Agrees depth (applyWith ev fuel function args) (ev.apply room function args) := by
  rw [applyWith_eq]
  unfold Evaluator.apply
  refine .look_bind fun h => ?_
  cases h.object? function with
  | none => exact .lift _
  | some o =>
      cases o with
      | primitive p => exact .lift _
      | procedure params body captured =>
          refine .look_bind fun h => ?_
          cases h.env? captured.value with
          | none => exact .lift _
          | some captured =>
              cases room with
              | zero => exact .frame_full (by omega)
              | succ r =>
                  rcases Nat.exists_eq_add_of_lt enough with ⟨more, rfl⟩
                  refine .frame (by omega) (.bind (.lift _) fun _ => .bind (.lift _) fun _ => ?_)
                  refine .bind (.lift _) fun made => ?_
                  cases made with
                  | error e => exact .lift _
                  | ok inner =>
                      refine .bind (.lift _) fun _ => ?_
                      have parts : ∀ part, Agrees (depth + 1) (evalWith ev (r + more) part inner)
                          (ev.eval r part inner) := fun part =>
                        evaluates (r + more) r rfl rfl part inner
                      exact agrees_sequenceWith parts _ _ body
      | _ => exact .lift _

/-- The count takes the place of the room, as long as the fuel does not run out first. -/
theorem agrees_evalWith_and_applyWith (ev : Evaluator) {fuel room : Nat}
    (left : room = ev.limit - depth) (enough : room ≤ fuel) :
    (∀ expr env, Agrees depth (evalWith ev fuel expr env) (ev.eval room expr env)) ∧
      ∀ function args, Agrees depth (applyWith ev fuel function args)
        (ev.apply room function args) := by
  -- Induction on the fuel: what is inside a frame has less of it, and less room.
  induction fuel generalizing depth room with
  | zero =>
      exact ⟨agrees_evalWith ev left enough nofun nofun, agrees_applyWith ev left enough nofun⟩
  | succ fuel ih =>
      have inner : ∀ f r, fuel + 1 = f + 1 → room = r + 1 → f = fuel ∧ r = ev.limit - (depth + 1) ∧
          r ≤ f := by omega
      have evaluates : ∀ f r, fuel + 1 = f + 1 → room = r + 1 → ∀ expr env,
          Agrees (depth + 1) (evalWith ev f expr env) (ev.eval r expr env) := by
        intro f r isFuel isRoom
        rcases inner f r isFuel isRoom with ⟨rfl, left, enough⟩
        exact (ih left enough).1
      refine ⟨agrees_evalWith ev left enough evaluates ?_,
        agrees_applyWith ev left enough evaluates⟩
      intro f r isFuel isRoom
      rcases inner f r isFuel isRoom with ⟨rfl, left, enough⟩
      exact (ih left enough).2

theorem agrees_eval (ev : Evaluator) (depth : Nat) (expr : Value) (env : Env) :
    Agrees depth (eval ev expr env) (ev.eval (ev.limit - depth) expr env) :=
  (agrees_evalWith_and_applyWith ev rfl (Nat.sub_le _ _)).1 expr env

theorem agrees_apply (ev : Evaluator) (depth : Nat) (function args : Value) :
    Agrees depth (apply ev function args) (ev.apply (ev.limit - depth) function args) :=
  (agrees_evalWith_and_applyWith ev rfl (Nat.sub_le _ _)).2 function args

end Agreement

end Counted

/-! ## Balance -/

/--
Whatever is asked of the system, on any heap and however it ends, leaves the roots as they were,
one by one, and the pins, used or not. And evaluation that counts how deep it is nested leaves the
count as it was, with the outcome and the heap of evaluation that is told how much room is left.
-/
theorem services_are_balanced :
    (∀ (service : Service) (h : Heap),
      (service.run h).roots.values = h.roots.values ∧ (service.run h).pins = h.pins ∧
        (service.run h).freePins = h.freePins) ∧
    ∀ (ev : Evaluator) (h : Heap) (depth : Nat),
      (∀ expr env, Counted.eval ev expr env ⟨h, depth⟩ =
        Counted.beside depth (ev.eval (ev.limit - depth) expr env h)) ∧
      (∀ function args, Counted.apply ev function args ⟨h, depth⟩ =
        Counted.beside depth (ev.apply (ev.limit - depth) function args h)) ∧
      ∀ body env, Counted.evaluateAll ev body env ⟨h, depth⟩ =
        Counted.beside depth (Evaluator.sequenceWith
          (fun part => ev.eval (ev.limit - depth) part env) .nil Value.maxSlots body h) := by
  refine ⟨fun service h => ?_, fun ev h depth => ⟨?_, ?_, ?_⟩⟩
  · have level := conduct_level.whole_run service (h := h) fun _ _ => trivial
    exact ⟨congrArg RootStack.values level.roots_eq, level.pins_eq, level.freePins_eq⟩
  · exact fun expr env => Counted.agrees_eval ev depth expr env h
  · exact fun function args => Counted.agrees_apply ev depth function args h
  · intro body env
    exact Counted.agrees_sequenceWith (fun part => Counted.agrees_eval ev depth part env) _ _ body h

end Lisplet
