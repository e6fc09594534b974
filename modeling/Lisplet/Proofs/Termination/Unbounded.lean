import Lisplet.Evaluator
import Mathlib.Data.PFun

/-!
# Unbounded — evaluation with nothing to stop its loops

The walks of the evaluator along lists, outwards from environments and through data stop after
so many steps at the latest, and so always end. Here the same evaluator is written down with
loops that nothing stops: each goes on until it comes to an end by itself, and if it never does,
the result is `none`. Only the nesting of evaluations is limited, as it is there. What has no
loop over the heap is taken over with `lift`.
-/

namespace Lisplet

/-- A computation on a heap that may fail, and that may never end. -/
abbrev UnboundedM (α : Type) := ExceptT Fatal (StateT Heap Option) α

namespace Unbounded

section Operations

variable {α : Type}

/-- How an operation came out, as a result and the heap it left. -/
def outcome : EStateM.Result Fatal Heap α → Except Fatal α × Heap
  | .ok a h => (.ok a, h)
  | .error e h => (.error e, h)

/-- An operation that has no loop, or one over a list that is at hand. -/
def lift (op : HeapM Fatal α) : UnboundedM α := ExceptT.mk fun h => some (outcome (op h))

/-- Goes on if and when a walk has come to its end. -/
def await (walk : Option α) : UnboundedM α := ExceptT.mk fun h => walk.map fun a => (.ok a, h)

/-- Drops the roots that `body` has left above the present height. -/
def scope (body : UnboundedM α) : UnboundedM α := ExceptT.mk fun h =>
  (body.run h).map fun (result, h') => (result, h'.truncateRoots h.roots.length)

end Operations

noncomputable section

/-! ## Loops that nothing stops -/

section Loop

variable {σ β : Type}

/-- What happens in a round, as a partial function. -/
def rounds (round : σ → Option (β ⊕ σ)) : σ →. β ⊕ σ := fun s => Part.ofOption (round s)

/--
Goes round until a round gives a result, with `.inl`, and not something to go on from, with `.inr`.
If that never happens, or if a round does not end, there is no result.
-/
def loop (round : σ → Option (β ⊕ σ)) (s : σ) : Option β :=
  open Classical in ((rounds round).fix s).toOption

variable {round : σ → Option (β ⊕ σ)} {b : β} {s : σ}

theorem mem_rounds_iff {next : β ⊕ σ} : next ∈ rounds round s ↔ next ∈ round s :=
  Part.mem_ofOption

theorem mem_loop_iff : b ∈ loop round s ↔ b ∈ (rounds round).fix s := by
  classical exact Part.mem_toOption

/-- A loop is one round and, unless that gives the result, the loop from where it led. -/
theorem loop_eq (round : σ → Option (β ⊕ σ)) (s : σ) :
    loop round s = (round s).bind (Sum.elim some (loop round)) := by
  refine Option.ext fun b => ?_
  rw [← Option.mem_def, mem_loop_iff, PFun.mem_fix_iff]
  simp only [mem_rounds_iff, ← mem_loop_iff]
  rcases round s with _ | b' | s' <;> simp [eq_comm]

/-- What holds before the last round, and before each round if behind it, holds at the start. -/
theorem loop_induction {motive : σ → Prop} (ends : loop round s = some b)
    (last : ∀ s, round s = some (.inl b) → motive s)
    (before : ∀ s s', round s = some (.inr s') → motive s' → motive s) : motive s :=
  PFun.fixInduction' (mem_loop_iff.1 ends) (fun s done => last s (mem_rounds_iff.1 done))
    fun s s' _ goes => before s s' (mem_rounds_iff.1 goes)

/-- The same with rounds that work on the heap; a failure ends the loop. -/
def loopM (round : σ → UnboundedM (β ⊕ σ)) (s : σ) : UnboundedM β := ExceptT.mk fun h =>
  loop (fun (s, h) => ((round s).run h).map fun
    | (.ok (.inl b), h) => .inl (.ok b, h)
    | (.ok (.inr s), h) => .inr (s, h)
    | (.error e, h) => .inl (.error e, h)) (s, h)

theorem loopM_eq (round : σ → UnboundedM (β ⊕ σ)) (s : σ) :
    loopM round s = round s >>= Sum.elim pure (loopM round) := by
  funext h
  refine (loop_eq _ (s, h)).trans ?_
  dsimp only
  show _ = ((round s).run h).bind _
  rcases (round s).run h with _ | ⟨_ | _ | _, h'⟩ <;> rfl

end Loop

/-! ## Walks -/

section Walks

variable (h : Heap)

/-- The elements along a spine, after those in `found`, the latest first, and what it ends in. -/
def spineOnto (found : List Value) (list : Value) : Option (List Value × Value) :=
  loop (fun (found, list) =>
    match h.pair? list with
    | some (car, cdr) => some (.inr (car :: found, cdr))
    | none => some (.inl (found.reverse, list))) (found, list)

theorem spineOnto_eq (found : List Value) (list : Value) :
    spineOnto h found list = match h.pair? list with
      | some (car, cdr) => spineOnto h (car :: found) cdr
      | none => some (found.reverse, list) := by
  refine (loop_eq _ (found, list)).trans ?_
  dsimp only
  rcases h.pair? list with _ | ⟨car, cdr⟩ <;> rfl

def spine (list : Value) : Option (List Value × Value) := spineOnto h [] list

/-- The elements of a list, if it is a proper one. -/
def items? (list : Value) : Option (Option (List Value)) := do
  let (items, tail) ← spine h list
  pure (if tail.isNil then some items else none)

/-- How many pairs a spine has, counted on from `count`. -/
def lengthOnto (count : Nat) (list : Value) : Option Nat :=
  loop (fun (count, list) =>
    match h.pair? list with
    | some (_, cdr) => some (.inr (count + 1, cdr))
    | none => some (.inl count)) (count, list)

theorem lengthOnto_eq (count : Nat) (list : Value) :
    lengthOnto h count list = match h.pair? list with
      | some (_, cdr) => lengthOnto h (count + 1) cdr
      | none => some count := by
  refine (loop_eq _ (count, list)).trans ?_
  dsimp only
  rcases h.pair? list with _ | ⟨car, cdr⟩ <;> rfl

/-- How many pairs a spine has; what it ends in does not matter. -/
def listLength (list : Value) : Option Nat := lengthOnto h 0 list

/-- The first element of a list that satisfies a condition. -/
def find? (condition : Value → Bool) (list : Value) : Option (Option Value) :=
  loop (fun list =>
    match h.pair? list with
    | some (car, cdr) => if condition car then some (.inl (some car)) else some (.inr cdr)
    | none => some (.inl none)) list

theorem find?_eq (condition : Value → Bool) (list : Value) :
    find? h condition list = match h.pair? list with
      | some (car, cdr) => if condition car then some (some car) else find? h condition cdr
      | none => some none := by
  refine (loop_eq _ list).trans ?_
  rcases h.pair? list with _ | ⟨car, cdr⟩
  · rfl
  · dsimp only
    split <;> rfl

/-- The nearest binding of a symbol. -/
def binding? (symbol : Value) (env : Env) : Option (Option Value) :=
  loop (fun env => do
    match ← find? h (fun binding => h.car? binding == some symbol) (env.bindings h) with
    | some binding => pure (.inl (some binding))
    | none =>
      match env.parent? h with
      | some parent => pure (.inr parent)
      | none => pure (.inl none)) env

theorem binding?_eq (symbol : Value) (env : Env) :
    binding? h symbol env = (do
      match ← find? h (fun binding => h.car? binding == some symbol) (env.bindings h) with
      | some binding => pure (some binding)
      | none =>
        match env.parent? h with
        | some parent => binding? h symbol parent
        | none => pure none) := by
  refine (loop_eq _ env).trans ?_
  rcases find? h (fun binding => h.car? binding == some symbol) (env.bindings h) with
    _ | _ | binding
  · rfl
  · simp only [Option.bind_eq_bind, Option.bind_some]
    rcases env.parent? h with _ | parent <;> rfl
  · rfl

/-- What is still to be printed. -/
inductive Part where
  /-- A whole value. -/
  | value (value : Value)
  /-- What follows an element of a list, with the closing parenthesis. -/
  | tail (value : Value)

/-- Prints parts one after the other. -/
def printAll (style : Style) (out : String) (parts : List Part) : Option String :=
  loop (fun (out, parts) =>
    match parts with
    | [] => some (.inl out)
    | .value v :: parts =>
      match h.pair? v with
      | some (car, cdr) => some (.inr (out.push '(', .value car :: .tail cdr :: parts))
      | none => some (.inr (out ++ h.atomText style v, parts))
    | .tail v :: parts =>
      match h.pair? v with
      | some (car, cdr) => some (.inr (out.push ' ', .value car :: .tail cdr :: parts))
      | none =>
        if v.isNil then some (.inr (out.push ')', parts))
        else some (.inr ((out ++ " . " ++ h.atomText style v).push ')', parts))) (out, parts)

section Printing

variable (style : Style) (out : String) (v : Value) (parts : List Part)

theorem printAll_nil : printAll h style out [] = some out := loop_eq _ (out, [])

theorem printAll_value :
    printAll h style out (.value v :: parts) = match h.pair? v with
      | some (car, cdr) => printAll h style (out.push '(') (.value car :: .tail cdr :: parts)
      | none => printAll h style (out ++ h.atomText style v) parts := by
  refine (loop_eq _ (out, .value v :: parts)).trans ?_
  dsimp only
  rcases h.pair? v with _ | ⟨car, cdr⟩ <;> rfl

theorem printAll_tail :
    printAll h style out (.tail v :: parts) = match h.pair? v with
      | some (car, cdr) => printAll h style (out.push ' ') (.value car :: .tail cdr :: parts)
      | none =>
        if v.isNil then printAll h style (out.push ')') parts
        else printAll h style ((out ++ " . " ++ h.atomText style v).push ')') parts := by
  refine (loop_eq _ (out, .tail v :: parts)).trans ?_
  dsimp only
  rcases h.pair? v with _ | ⟨car, cdr⟩
  · dsimp only
    split <;> rfl
  · rfl

end Printing

/-- The printed form of a value. -/
def print (style : Style) (value : Value) : Option String := printAll h style "" [.value value]

/-- Whether all of some pairs of values are equal. -/
def equalAll (pending : List (Value × Value)) : Option Bool :=
  loop (fun pending =>
    match pending with
    | [] => some (.inl true)
    | (left, right) :: pending =>
      if left == right then some (.inr pending)
      else
        match h.object? left, h.object? right with
        | some (.pair car cdr), some (.pair car' cdr') =>
          some (.inr ((car, car') :: (cdr, cdr') :: pending))
        | some x, some y => if x.sameAtom y then some (.inr pending) else some (.inl false)
        | _, _ => some (.inl false)) pending

theorem equalAll_nil : equalAll h [] = some true := loop_eq _ []

theorem equalAll_cons (left right : Value) (pending : List (Value × Value)) :
    equalAll h ((left, right) :: pending) =
      if left == right then equalAll h pending
      else
        match h.object? left, h.object? right with
        | some (.pair car cdr), some (.pair car' cdr') =>
          equalAll h ((car, car') :: (cdr, cdr') :: pending)
        | some x, some y => if x.sameAtom y then equalAll h pending else some false
        | _, _ => some false := by
  refine (loop_eq _ ((left, right) :: pending)).trans ?_
  dsimp only
  split
  · rfl
  · split
    · rfl
    · split <;> rfl
    · rfl

def equal (left right : Value) : Option Bool := equalAll h [(left, right)]

end Walks

/-! ## Environments -/

section Environments

variable (h : Heap) (env : Env)

def unbound (symbol : Value) : Option BindingError :=
  match h.symbolName? symbol with
  | some name => some (.unbound name)
  | none => do pure (.unbound (← print h .write symbol))

def lookup (symbol : Value) : Option (Except BindingError Value) := do
  match (← binding? h symbol env).bind h.cdr? with
  | some value => pure (.ok value)
  | none => pure (.error (← unbound h symbol))

/-- The shape of a parameter list. -/
def shape (params : Value) : Option (Except BindingError Env.Shape) := do
  let (items, tail) ← spine h params
  match items.find? fun param => !h.isSymbol param with
  | some param => pure (.error (.notASymbol (← print h .write param)))
  | none =>
    if tail.isNil then pure (.ok ⟨items.length, false⟩)
    else if h.isSymbol tail then pure (.ok ⟨items.length, true⟩)
    else pure (.error (.notASymbol (← print h .write tail)))

/-- Changes the nearest binding of a symbol. -/
def set (symbol value : Value) : UnboundedM (Except BindingError Unit) := do
  let h ← getThe Heap
  match ← await (binding? h symbol env) with
  | some binding =>
    lift (modify fun h => h.setCdr binding value)
    pure (.ok ())
  | none => pure (.error (← await (unbound h symbol)))

/-- A new environment inside this one in which the parameters are bound to the arguments. -/
def extend (params args : Value) : UnboundedM (Except BindingError Env) := do
  let h ← getThe Heap
  match ← await (shape h params) with
  | .error e => pure (.error e)
  | .ok s =>
    let got := (← await (spine h args)).1.length
    if !s.accepts got then pure (.error (.arity s.required got s.variadic))
    else scope do
      lift (HeapM.root params)
      lift (HeapM.root args)
      let child ← lift (HeapM.child env)
      lift (HeapM.root child.value)
      let (names, tail) ← await (spine (← getThe Heap) params)
      lift (child.bindAll names tail args)
      pure (.ok child)

end Environments

/-! ## Primitives -/

section Primitives

/-- The error value of an expression that does not have the shape of its form. -/
def malformed (form : String) (expr : Value) : UnboundedM Value := do
  let text ← await (print (← getThe Heap) .write expr)
  lift (HeapM.raise .typeError s!"malformed {form}: {text}")

def notCallable (found : Value) : UnboundedM Value := do
  let text ← await (print (← getThe Heap) .write found)
  lift (HeapM.raise .notCallable s!"not callable: {text}")

/-- Runs `body` on the elements of an argument list. -/
def withItems (who : String) (args : Value) (body : List Value → UnboundedM Value) :
    UnboundedM Value := do
  match ← await (items? (← getThe Heap) args) with
  | some items => body items
  | none => lift (HeapM.improperArguments who)

def withNone (who : String) (args : Value) (body : UnboundedM Value) : UnboundedM Value :=
  withItems who args fun
    | [] => body
    | items => lift (HeapM.wrongCount who 0 items.length)

def withOne (who : String) (args : Value) (body : Value → UnboundedM Value) : UnboundedM Value :=
  withItems who args fun
    | [a] => body a
    | items => lift (HeapM.wrongCount who 1 items.length)

def withTwo (who : String) (args : Value) (body : Value → Value → UnboundedM Value) :
    UnboundedM Value :=
  withItems who args fun
    | [a, b] => body a b
    | items => lift (HeapM.wrongCount who 2 items.length)

def withThree (who : String) (args : Value) (body : Value → Value → Value → UnboundedM Value) :
    UnboundedM Value :=
  withItems who args fun
    | [a, b, c] => body a b c
    | items => lift (HeapM.wrongCount who 3 items.length)

def withSymbol (who : String) (value : Value) (body : UnboundedM Value) : UnboundedM Value := do
  if (← getThe Heap).isSymbol value then body else lift (HeapM.wrongKind who "symbol" value)

def withEnv (who : String) (value : Value) (body : Env → UnboundedM Value) :
    UnboundedM Value := do
  match (← getThe Heap).env? value with
  | some env => body env
  | none => lift (HeapM.wrongKind who "environment" value)

/-- Runs `body` on the numbers in an argument list. -/
def withNumbers (who : String) (args : Value) (body : List Number → HeapM Fatal Value) :
    UnboundedM Value :=
  withItems who args fun items => do
    match ← lift (HeapM.operandsOnto who [] items) with
    | .ok found => lift (body found.reverse)
    | .error e => pure e

def arithmetic (op : Operator) (args : Value) : UnboundedM Value := do
  let who := op.name
  if (op = .sub ∨ op = .div) ∧ args.isNil then
    lift (HeapM.raise .arityMismatch s!"{who} expects at least 1 argument, got 0")
  else
    withNumbers who args fun numbers =>
      match Number.apply op numbers with
      | .ok n => HeapM.number n
      | .error .overflow => HeapM.raise .overflow s!"integer overflow in {who}"
      | .error .divisionByZero => HeapM.raise .divisionByZero "division by zero"

def comparison (c : Comparison) (args : Value) : UnboundedM Value :=
  let who := c.name
  withNumbers who args fun numbers => do
    let got := numbers.length
    if got < 2 then
      HeapM.raise .arityMismatch s!"{who} expects at least 2 arguments, got {got}"
    else pure ((← get).boolean (Number.chained c numbers))

/-- An error value with the displayed arguments as its message. -/
def custom (who : String) (args : Value) : UnboundedM Value :=
  withItems who args fun items => do
    let texts ← await (items.mapM (print (← getThe Heap) .display))
    lift (HeapM.raise .custom (" ".intercalate texts))

/-- Records each element of a list in the journal as it is displayed. -/
def record (args : Value) : UnboundedM Value := do
  let h ← getThe Heap
  let items := (← await (spine h args)).1
  let texts ← await (items.mapM (print h .display))
  lift (modify fun h => texts.foldl (fun h text => h.note (.printed text)) h)
  pure .nil

/-- Calls a primitive with a list of arguments. -/
def call (p : Primitive) (args : Value) : UnboundedM Value :=
  match p with
  | .list => pure args
  | .cons => withTwo p.name args fun a b => lift (HeapM.cons a b)
  | .car => withOne p.name args fun list => lift (HeapM.car p.name list)
  | .cdr => withOne p.name args fun list => lift (HeapM.cdr p.name list)
  | .same => withTwo p.name args fun a b => do pure ((← getThe Heap).boolean (a == b))
  | .equal => withTwo p.name args fun a b => do
    let h ← getThe Heap
    pure (h.boolean (← await (equal h a b)))
  | .question q => withOne p.name args fun a => do
    let h ← getThe Heap
    pure (h.boolean (q.answer h a))
  | .arithmetic op => arithmetic op args
  | .comparison c => comparison c args
  | .error => custom p.name args
  | .exit => lift do throw (.exit (HeapM.exitStatus (← get) args))
  | .print => record args
  | .lookupVariable => withTwo p.name args fun symbol env =>
    withSymbol p.name symbol <| withEnv p.name env fun env => do
      lift (HeapM.valueOr id (← await (lookup (← getThe Heap) env symbol)))
  | .setVariable => withThree p.name args fun symbol value env =>
    withSymbol p.name symbol <| withEnv p.name env fun env => do
      lift (HeapM.valueOr (fun _ => value) (← set env symbol value))
  | .defineVariable => withThree p.name args fun symbol value env =>
    withSymbol p.name symbol <| withEnv p.name env fun env => lift do
      env.define symbol value
      pure value
  | .extendEnvironment => withThree p.name args fun params values env =>
    withEnv p.name env fun env => do
      lift (HeapM.valueOr Env.value (← extend env params values))
  | .globalEnvironment => withNone p.name args do pure (← getThe Heap).rootEnv.value

end Primitives

/-! ## Loops over expressions -/

section Loops

/--
Evaluates the elements of a list in order up to the first error value. The result is that of the
last evaluation.
-/
def sequence (evaluate : Value → UnboundedM Value) (result list : Value) : UnboundedM Value :=
  loopM (fun (result, list) => do
    match (← getThe Heap).pair? list with
    | none => pure (.inl result)
    | some (expr, rest) =>
      let result ← evaluate expr
      if (← getThe Heap).isError result then pure (.inl result)
      else pure (.inr (result, rest))) (result, list)

theorem sequence_eq (evaluate : Value → UnboundedM Value) (result list : Value) :
    sequence evaluate result list = (do
      match (← getThe Heap).pair? list with
      | none => pure result
      | some (expr, rest) =>
        let result ← evaluate expr
        if (← getThe Heap).isError result then pure result
        else sequence evaluate result rest) := by
  refine (loopM_eq _ (result, list)).trans ?_
  rw [bind_assoc]
  refine bind_congr fun h => ?_
  rcases h.pair? list with _ | ⟨expr, rest⟩
  · rfl
  · simp only [bind_assoc]
    refine bind_congr fun result => bind_congr fun h => ?_
    split <;> rfl

/-- Evaluates the elements of a list in order, and roots their values. -/
def operands (evaluate : Value → UnboundedM Value) (found : List Value) (list : Value) :
    UnboundedM Evaluator.Operands :=
  loopM (fun (found, list) => do
    match (← getThe Heap).pair? list with
    | none => pure (.inl (if list.isNil then .values found else .improper))
    | some (expr, rest) =>
      let value ← evaluate expr
      if (← getThe Heap).isError value then pure (.inl (.failed value))
      else
        lift (HeapM.root value)
        pure (.inr (value :: found, rest))) (found, list)

theorem operands_eq (evaluate : Value → UnboundedM Value) (found : List Value) (list : Value) :
    operands evaluate found list = (do
      match (← getThe Heap).pair? list with
      | none => pure (if list.isNil then .values found else .improper)
      | some (expr, rest) =>
        let value ← evaluate expr
        if (← getThe Heap).isError value then pure (.failed value)
        else
          lift (HeapM.root value)
          operands evaluate (value :: found) rest) := by
  refine (loopM_eq _ (found, list)).trans ?_
  rw [bind_assoc]
  refine bind_congr fun h => ?_
  rcases h.pair? list with _ | ⟨expr, rest⟩
  · rfl
  · simp only [bind_assoc]
    refine bind_congr fun value => bind_congr fun h => ?_
    split <;> rfl

end Loops

/-! ## Special forms -/

section Forms

variable (evaluate : Value → UnboundedM Value)

def quoteForm (expr operands : Value) : UnboundedM Value := do
  match ← await (items? (← getThe Heap) operands) with
  | some [datum] => pure datum
  | _ => malformed "quote" expr

def choose (test consequent : Value) (alternative : Option Value) : UnboundedM Value := do
  let outcome ← evaluate test
  if (← getThe Heap).isError outcome then pure outcome
  else
    match outcome, alternative with
    | .slot _, _ => evaluate consequent
    | .nil, some alternative => evaluate alternative
    | .nil, none => pure .nil

def ifForm (expr operands : Value) : UnboundedM Value := do
  match ← await (items? (← getThe Heap) operands) with
  | some [test, consequent] => choose evaluate test consequent none
  | some [test, consequent, alternative] => choose evaluate test consequent (some alternative)
  | _ => malformed "if" expr

def setForm (expr operands : Value) (env : Env) : UnboundedM Value := do
  match ← await (items? (← getThe Heap) operands) with
  | some [target, source] =>
    if (← getThe Heap).isSymbol target then
      let value ← evaluate source
      if (← getThe Heap).isError value then pure value
      else
        match ← set env target value with
        | .ok () => pure value
        | .error e => lift e.toValue
    else lift (HeapM.wrongKind "set!" "symbol" target)
  | _ => malformed "set!" expr

def defineForm (expr operands : Value) (env : Env) : UnboundedM Value := do
  match (← getThe Heap).pair? operands with
  | none => malformed "define" expr
  | some (target, rest) =>
    match (← getThe Heap).pair? target with
    | some (name, params) => lift (Evaluator.defineProcedure name params rest env)
    | none =>
      match ← await (items? (← getThe Heap) rest) with
      | some [source] =>
        if (← getThe Heap).isSymbol target then
          let value ← evaluate source
          if (← getThe Heap).isError value then pure value
          else
            lift (HeapM.root value)
            lift (env.define target value)
            pure value
        else lift (HeapM.wrongKind "define" "symbol" target)
      | _ => malformed "define" expr

def lambdaForm (expr operands : Value) (env : Env) : UnboundedM Value := do
  match (← getThe Heap).pair? operands with
  | none => malformed "lambda" expr
  | some (params, body) =>
    match ← await (items? (← getThe Heap) body) with
    | some _ => lift (HeapM.procedure params body env)
    | none => malformed "lambda" expr

def application (apply : Value → Value → UnboundedM Value) (expr head args : Value) :
    UnboundedM Value := do
  let function ← evaluate head
  if (← getThe Heap).isError function then pure function
  else
    lift (HeapM.root function)
    match ← operands evaluate [] args with
    | .values found => do
      let args ← lift (HeapM.list found.reverse)
      apply function args
    | .failed error => pure error
    | .improper => malformed "application" expr

end Forms

/-! ## Evaluation and application -/

mutual

/-- Evaluates an expression with room for so many nested compound evaluations. -/
def eval (ev : Evaluator) (room : Nat) (expr : Value) (env : Env) : UnboundedM Value := do
  let h ← getThe Heap
  if h.isSelfEvaluating expr then pure expr
  else if h.isSymbol expr then lift (HeapM.valueOr id (← await (lookup h env expr)))
  else
    match h.pair? expr with
    | none => pure expr
    | some (head, args) =>
      match room with
      | 0 => throw (.recursionLimit ev.limit)
      | room + 1 => scope do
        lift (HeapM.root expr)
        lift (HeapM.root env.value)
        if head = ev.forms.quote then quoteForm expr args
        else if head = ev.forms.conditional then
          ifForm (fun part => eval ev room part env) expr args
        else if head = ev.forms.assignment then
          setForm (fun part => eval ev room part env) expr args env
        else if head = ev.forms.definition then
          defineForm (fun part => eval ev room part env) expr args env
        else if head = ev.forms.abstraction then lambdaForm expr args env
        else if head = ev.forms.sequence then
          sequence (fun part => eval ev room part env) .nil args
        else
          application (fun part => eval ev room part env) (fun f args => apply ev room f args)
            expr head args

/-- Applies a primitive or a procedure to a list of arguments. -/
def apply (ev : Evaluator) (room : Nat) (function args : Value) : UnboundedM Value := do
  match (← getThe Heap).object? function with
  | some (.primitive p) => call p args
  | some (.procedure params body captured) =>
    match (← getThe Heap).env? captured.value with
    | none => lift (HeapM.raise .typeError "procedure has no environment")
    | some captured =>
      match room with
      | 0 => throw (.recursionLimit ev.limit)
      | room + 1 => scope do
        lift (HeapM.root function)
        lift (HeapM.root args)
        match ← extend captured params args with
        | .error e => lift e.toValue
        | .ok env =>
          lift (HeapM.root env.value)
          sequence (fun part => eval ev room part env) .nil body
  | _ => notCallable function

end

end

end Unbounded

end Lisplet
