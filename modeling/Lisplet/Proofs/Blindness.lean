import Lisplet.Proofs.Heap.Outfit

/-!
# Blindness — operations that do not look at pins

An operation is blind if on parallel heaps it has the same result and leaves parallel heaps. Reading
is blind, allocation is because a collection keeps the same slots on both sides, and what is put
together from blind operations is blind. So is every primitive.
-/

namespace Lisplet

/-- Results that are the same, but for states that are related. -/
inductive Matches {ε σ α : Type} (R : σ → σ → Prop) :
    EStateM.Result ε σ α → EStateM.Result ε σ α → Prop where
  | ok (a : α) {s s' : σ} : R s s' → Matches R (.ok a s) (.ok a s')
  | error (e : ε) {s s' : σ} : R s s' → Matches R (.error e s) (.error e s')

namespace Matches

variable {ε σ α β : Type} {R S : σ → σ → Prop} {s s' : σ} {op op' : EStateM ε σ α}

theorem bind {next next' : α → EStateM ε σ β} (first : Matches R (op s) (op' s'))
    (rest : ∀ a s₁ s₁', R s₁ s₁' → Matches S (next a s₁) (next' a s₁'))
    (weaken : ∀ s₁ s₁', R s₁ s₁' → S s₁ s₁') :
    Matches S ((op >>= next) s) ((op' >>= next') s') := by
  simp only [Bind.bind, EStateM.bind]
  generalize op s = r at first
  generalize op' s' = r' at first
  cases first with
  | ok a related => exact rest a _ _ related
  | error e related => exact .error e (weaken _ _ related)

theorem map (f : α → β) (both : Matches R (op s) (op' s')) :
    Matches R ((f <$> op) s) ((f <$> op') s') := by
  simp only [Functor.map, EStateM.map]
  generalize op s = r at both
  generalize op' s' = r' at both
  cases both with
  | ok a related => exact .ok (f a) related
  | error e related => exact .error e related

end Matches

namespace HeapM

variable {ε α β : Type}

/-- On parallel heaps the operation has the same result. -/
structure Blind (op : HeapM ε α) : Prop where
  matches_of {h h' : Heap} : h.Parallel h' → Matches Heap.Parallel (op h) (op h')

/-! ## Rules -/

namespace Blind

variable {op : HeapM ε α} {next : α → HeapM ε β}

theorem pure (a : α) : Blind (Pure.pure a : HeapM ε α) := ⟨fun p => .ok a p⟩

theorem throw (e : ε) : Blind (throw e : HeapM ε α) := ⟨fun p => .error e p⟩

theorem modify {f : Heap → Heap} (maps : ∀ {h h' : Heap}, h.Parallel h' → (f h).Parallel (f h')) :
    Blind (modify f : HeapM ε Unit) := ⟨fun p => .ok () (maps p)⟩

/-- What is read must not depend on the outfit. -/
theorem get_bind {f : Heap → HeapM ε β} (same : ∀ h o, f (h.fit o) = f h)
    (blind : ∀ h, Blind (f h)) : Blind (get >>= f) := by
  refine ⟨fun {h h'} p => ?_⟩
  have rest := (blind h).matches_of p
  obtain ⟨o, rfl⟩ := p.repinned.fitted
  show Matches _ (f h h) (f (h.fit o) (h.fit o))
  rwa [same]

theorem bind (first : Blind op) (rest : ∀ a, Blind (next a)) : Blind (op >>= next) :=
  ⟨fun p => (first.matches_of p).bind (fun a _ _ q => (rest a).matches_of q) fun _ _ q => q⟩

theorem map (blind : Blind op) (f : α → β) : Blind (f <$> op) :=
  ⟨fun p => (blind.matches_of p).map f⟩

theorem ite {p : Prop} [Decidable p] {yes no : HeapM ε α} (ifTrue : Blind yes)
    (ifFalse : Blind no) : Blind (if p then yes else no) := by
  split
  · exact ifTrue
  · exact ifFalse

theorem root (v : Value) : Blind (root v : HeapM ε Unit) := .modify fun p => p.addRoot v

/-- The root stacks have the same height at the beginning, and so at the end. -/
theorem scope (blind : Blind op) : Blind (scope op) := by
  refine ⟨fun {h h'} p => ?_⟩
  have done := blind.matches_of p
  have height : h'.roots.length = h.roots.length := by
    obtain ⟨o, rfl⟩ := p.repinned.fitted
    rfl
  have truncated {k k' : Heap} (q : k.Parallel k') :
      (k.truncateRoots h.roots.length).Parallel (k'.truncateRoots h.roots.length) :=
    q.map (f := fun k => k.truncateRoots h.roots.length) (fun _ _ => rfl) q.marksClear
  unfold HeapM.scope
  rw [height]
  generalize op h = r at done
  generalize op h' = r' at done
  cases done with
  | ok a q => exact .ok a (truncated q)
  | error e q => exact .error e (truncated q)

end Blind

/-! ## Constructors -/

theorem blind_allocate (o : Object) : Blind (allocate o) := by
  refine ⟨fun {h h'} p => ?_⟩
  have made := p.makeRoom
  unfold allocate
  generalize h.makeRoom = k at made
  generalize h'.makeRoom = k' at made
  have inserted : (k.insert o).2.Parallel (k'.insert o).2 :=
    made.map (f := fun h => (h.insert o).2) (fun h _ => by rw [Heap.insert_fit])
      (Heap.marksClear_insert made.marksClear o)
  -- After the collections both heaps are full, or neither is.
  obtain ⟨outfit, rfl⟩ := made.repinned.fitted
  have live : (k.fit outfit).live = k.live := rfl
  have capacity : (k.fit outfit).capacity = k.capacity := rfl
  dsimp only
  rw [live, capacity]
  split
  · exact .error _ made
  · have value : ((k.fit outfit).insert o).1 = (k.insert o).1 := by rw [Heap.insert_fit]
    rw [value]
    exact .ok _ inserted

theorem blind_raise (kind : ErrorKind) (message : String) : Blind (raise kind message) :=
  blind_allocate _

theorem blind_wrongKind (who expected : String) (found : Value) :
    Blind (wrongKind who expected found) :=
  .get_bind (fun _ _ => rfl) fun _ => blind_raise _ _

theorem blind_cons (car cdr : Value) : Blind (cons car cdr) :=
  .scope (.bind (.root car) fun _ => .bind (.root cdr) fun _ => blind_allocate _)

theorem blind_consAll (list : Value) (items : List Value) : Blind (consAll list items) := by
  induction items generalizing list with
  | nil => exact .pure list
  | cons item items ih => exact .bind (blind_cons item list) ih

theorem blind_list (items : List Value) : Blind (list items) :=
  .scope (.bind (.modify fun p => p.addRoots items) fun _ => blind_consAll _ _)

theorem blind_child (env : Env) : Blind (child env) :=
  .scope (.bind (.root _) fun _ => .bind (blind_allocate _) fun _ => .pure _)

end HeapM

/-! ## Environments -/

namespace Env

open HeapM

variable (env : Env)

theorem blind_define (symbol value : Value) : Blind (env.define symbol value) := by
  refine .scope (.bind (.root _) fun _ => .bind (blind_cons symbol value) fun binding => ?_)
  refine .get_bind (fun _ _ => rfl) fun _ => .bind (blind_cons binding _) fun bindings => ?_
  exact .modify fun p => p.setBindings env bindings

theorem blind_set (symbol value : Value) : Blind (env.set symbol value) := by
  refine .get_bind (fun h o => by simp only [Heap.binding?_fit, Heap.unbound_fit]) fun h => ?_
  split
  · next binding _ => exact .bind (.modify fun p => p.setCdr binding value) fun _ => .pure _
  · exact .pure _

theorem blind_bindAll (params : List Value) (tail args : Value) :
    Blind (env.bindAll params tail args) := by
  induction params generalizing args with
  | nil =>
      unfold Env.bindAll
      split
      · exact env.blind_define tail args
      · exact .pure _
  | cons param params ih =>
      refine .get_bind (fun _ _ => rfl) fun h => ?_
      split
      · next arg rest _ => exact .bind (env.blind_define param arg) fun _ => ih rest
      · exact .pure _

theorem blind_extend (params args : Value) : Blind (env.extend params args) := by
  refine .get_bind (fun h o => by simp only [Heap.shape_fit, Heap.listLength_fit]) fun h => ?_
  split
  · exact .pure _
  · refine .ite (.pure _) (.scope ?_)
    refine .bind (.root params) fun _ => .bind (.root args) fun _ => ?_
    refine .bind (blind_child env) fun child => .bind (.root child.value) fun _ => ?_
    refine .get_bind (fun h o => by simp only [Heap.spine_fit]) fun h => ?_
    exact .bind (child.blind_bindAll _ _ args) fun _ => .pure _

end Env

namespace HeapM

/-! ## Arguments -/

section Arguments

variable (who : String) (args : Value)

theorem blind_withNone {body : HeapM Fatal Value} (blind : Blind body) :
    Blind (withNone who args body) := by
  refine .get_bind (fun h o => by simp only [Heap.items?_fit]) fun h => ?_
  split
  · exact blind
  · exact blind_raise _ _
  · exact blind_raise _ _

theorem blind_withOne {body : Value → HeapM Fatal Value} (blind : ∀ a, Blind (body a)) :
    Blind (withOne who args body) := by
  refine .get_bind (fun h o => by simp only [Heap.items?_fit]) fun h => ?_
  split
  · exact blind _
  · exact blind_raise _ _
  · exact blind_raise _ _

theorem blind_withTwo {body : Value → Value → HeapM Fatal Value}
    (blind : ∀ a b, Blind (body a b)) : Blind (withTwo who args body) := by
  refine .get_bind (fun h o => by simp only [Heap.items?_fit]) fun h => ?_
  split
  · exact blind _ _
  · exact blind_raise _ _
  · exact blind_raise _ _

theorem blind_withThree {body : Value → Value → Value → HeapM Fatal Value}
    (blind : ∀ a b c, Blind (body a b c)) : Blind (withThree who args body) := by
  refine .get_bind (fun h o => by simp only [Heap.items?_fit]) fun h => ?_
  split
  · exact blind _ _ _
  · exact blind_raise _ _
  · exact blind_raise _ _

theorem blind_withSymbol (value : Value) {body : HeapM Fatal Value} (blind : Blind body) :
    Blind (withSymbol who value body) :=
  .get_bind (fun _ _ => rfl) fun _ => .ite blind (blind_wrongKind _ _ _)

theorem blind_withEnv (value : Value) {body : Env → HeapM Fatal Value}
    (blind : ∀ env, Blind (body env)) : Blind (withEnv who value body) := by
  refine .get_bind (fun _ _ => rfl) fun h => ?_
  split
  · exact blind _
  · exact blind_wrongKind _ _ _

end Arguments

theorem blind_valueOr {α : Type} (f : α → Value) (result : Except BindingError α) :
    Blind (valueOr f result) := by
  cases result with
  | ok a => exact .pure _
  | error e => exact blind_raise _ _

/-! ## Arithmetic -/

theorem blind_operand (who : String) (value : Value) : Blind (operand who value) := by
  refine .get_bind (fun _ _ => rfl) fun h => ?_
  split
  · exact .pure _
  · exact .pure _
  · exact .pure _
  · exact .map (blind_raise _ _) _
  · exact .map (blind_wrongKind _ _ _) _

theorem blind_operandsOnto (who : String) (found : List Number) (values : List Value) :
    Blind (operandsOnto who found values) := by
  induction values generalizing found with
  | nil => exact .pure _
  | cons value values ih =>
      refine .bind (blind_operand who value) fun result => ?_
      cases result with
      | ok n => exact ih (n :: found)
      | error e => exact .pure _

theorem blind_withNumbers (who : String) (args : Value) {body : List Number → HeapM Fatal Value}
    (blind : ∀ numbers, Blind (body numbers)) : Blind (withNumbers who args body) := by
  refine .get_bind (fun h o => by simp only [Heap.items?_fit]) fun h => ?_
  split
  · exact blind_raise _ _
  · refine .bind (blind_operandsOnto who [] _) fun result => ?_
    cases result with
    | ok found => exact blind _
    | error e => exact .pure _

theorem blind_number (n : Number) : Blind (number n) := by
  cases n with
  | int n => exact blind_allocate _
  | float x => exact blind_allocate _

theorem blind_arithmetic (op : Operator) (args : Value) : Blind (arithmetic op args) := by
  refine .ite (blind_raise _ _) (blind_withNumbers _ args fun numbers => ?_)
  split
  · exact blind_number _
  · exact blind_raise _ _
  · exact blind_raise _ _

theorem blind_comparison (op : Comparison) (args : Value) : Blind (comparison op args) := by
  unfold comparison
  refine blind_withNumbers _ args fun numbers => ?_
  exact .ite (blind_raise _ _) (.get_bind (fun _ _ => rfl) fun _ => .pure _)

/-! ## Data and control -/

theorem blind_part (who : String) (list : Value) (part? : Heap → Value → Option Value)
    (same : ∀ h o, part? (Heap.fit h o) list = part? h list) :
    Blind (do
      if list.isNil then pure .nil
      else
        match part? (← get) list with
        | some value => pure value
        | none => wrongKind who "pair" list : HeapM Fatal Value) := by
  refine .ite (.pure _) (.get_bind (fun h o => by simp only [same]) fun h => ?_)
  split
  · exact .pure _
  · exact blind_wrongKind _ _ _

theorem blind_custom (who : String) (args : Value) : Blind (custom who args) := by
  refine .get_bind (fun h o => ?_) fun h => ?_
  · have display : (h.fit o).display = h.display := funext (h.display_fit o)
    simp only [Heap.items?_fit, display]
  · split
    · exact blind_raise _ _
    · exact blind_raise _ _

theorem blind_printAll (args : Value) : Blind (printAll args) := by
  refine .bind (.modify fun {h h'} p => ?_) fun _ => .pure _
  have same : h'.spine args = h.spine args := by
    obtain ⟨o, rfl⟩ := p.repinned.fitted
    exact h.spine_fit o args
  rw [same]
  clear same
  -- What is printed goes into the journals, so the heaps change from item to item.
  induction (h.spine args).1 generalizing h h' with
  | nil => exact p
  | cons item items ih =>
      have text : h'.display item = h.display item := by
        obtain ⟨o, rfl⟩ := p.repinned.fitted
        exact h.display_fit o item
      rw [List.foldl_cons, List.foldl_cons, text]
      exact ih (p.note _)

end HeapM

open HeapM in
/-- Nothing that a primitive does depends on what is pinned, but for the slots that are. -/
theorem Primitive.blind_call (p : Primitive) (args : Value) : Blind (p.call args) := by
  cases p with
  | list => exact .pure args
  | cons => exact blind_withTwo _ args blind_cons
  | car => exact blind_withOne _ args fun a => blind_part _ a Heap.car? fun _ _ => rfl
  | cdr => exact blind_withOne _ args fun a => blind_part _ a Heap.cdr? fun _ _ => rfl
  | same => exact blind_withTwo _ args fun a b => .get_bind (fun _ _ => rfl) fun _ => .pure _
  | equal =>
      exact blind_withTwo _ args fun a b =>
        .get_bind (fun h o => by simp only [Heap.equal_fit]; rfl) fun _ => .pure _
  | question q =>
      exact blind_withOne _ args fun a => .get_bind (fun _ _ => by cases q <;> rfl) fun _ => .pure _
  | arithmetic op => exact blind_arithmetic op args
  | comparison op => exact blind_comparison op args
  | error => exact blind_custom _ args
  | exit => exact .get_bind (fun _ _ => rfl) fun _ => .throw _
  | print => exact blind_printAll args
  | lookupVariable =>
      exact blind_withTwo _ args fun symbol value => blind_withSymbol _ symbol <|
        blind_withEnv _ value fun env =>
          .get_bind (fun h o => by simp only [Heap.lookup_fit]) fun _ => blind_valueOr _ _
  | setVariable =>
      exact blind_withThree _ args fun symbol new value => blind_withSymbol _ symbol <|
        blind_withEnv _ value fun env => .bind (env.blind_set symbol new) fun _ => blind_valueOr _ _
  | defineVariable =>
      exact blind_withThree _ args fun symbol new value => blind_withSymbol _ symbol <|
        blind_withEnv _ value fun env => .bind (env.blind_define symbol new) fun _ => .pure _
  | extendEnvironment =>
      exact blind_withThree _ args fun params values value => blind_withEnv _ value fun env =>
        .bind (env.blind_extend params values) fun _ => blind_valueOr _ _
  | globalEnvironment =>
      exact blind_withNone _ args (.get_bind (fun _ _ => rfl) fun _ => .pure _)

end Lisplet
