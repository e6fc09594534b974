import Lisplet.Proofs.Errors.Storage
import Lisplet.Proofs.Heap.Footprint
import Lisplet.Proofs.Search
import Lisplet.Proofs.Shorthand

/-!
# Atomicity — a binding is made as a whole or not at all

A definition allocates two pairs and an extension an environment and two pairs for each parameter,
and memory may run out at any of these allocations, after a collection has taken away what is not
in use. Until everything is there nothing is changed that the roots lead to. So after a failure
every environment binds what it did before, and after a definition every lookup finds the new value
or what it found before (`bindings_are_all_or_nothing`).
-/

namespace Lisplet

open Heap.Operation (heapAfter)

namespace Heap

/--
What can be reached is as it was. From every environment that is kept each symbol means what it did,
and its list of bindings has the elements and the length that it had.
-/
structure Unaltered (h h' : Heap) : Prop where
  kept : ∀ i, h.Reachable i → h'.object? (.slot i) = h.object? (.slot i)
  lookup_eq : ∀ (f : Env) s, f.IsKept h → h.isSymbol s = true → f.lookup h' s = f.lookup h s
  spine_iff : ∀ (f : Env) items tail, f.IsKept h →
    (h'.Spine (f.bindings h') items tail ↔ h.Spine (f.bindings h) items tail)
  length_eq : ∀ (f : Env) items tail, f.IsKept h → h.Spine (f.bindings h) items tail →
    h'.listLength (f.bindings h') = h.listLength (f.bindings h)

/--
The symbol means the new value where it has been defined. From every environment that is kept each
symbol means what it did, unless it is this symbol and means the new value.
-/
structure Defined (h : Heap) (env : Env) (symbol value : Value) (h' : Heap) : Prop where
  lookup_self : env.lookup h' symbol = .ok value
  lookup_cases : ∀ (f : Env) s, f.IsKept h → h.isSymbol s = true →
    f.lookup h' s = f.lookup h s ∨ s = symbol ∧ f.lookup h' s = .ok value

variable {h h₁ h₂ h' : Heap} {env f : Env} {b s e : Nat} {bindings symbol value v : Value}
  {parent : Option Env}

/-! ## What is in use -/

theorem within_of_isKept (kept : env.IsKept h) : h.Within h.IsRoot env.value := .inr kept.2

/-- What is not changed where it can be reached looks the same from every environment there. -/
theorem WellFormed.unaltered (w : h.WellFormed)
    (kept : ∀ i, h.Reachable i → h'.object? (.slot i) = h.object? (.slot i)) :
    h.Unaltered h' := by
  have agree := w.toArena.agree kept
  have spines (f : Env) (items : List Value) (tail : Value) (keptF : f.IsKept h) :
      h'.Spine (f.bindings h') items tail ↔ h.Spine (f.bindings h) items tail := by
    have inside := within_of_isKept keptF
    have inside' : h.Within h.IsRoot (f.bindings h) := (agree.inside_bindings inside).elim id .inl
    rw [agree.bindings_eq inside]
    exact ⟨agree.symm.spine inside', agree.spine inside'⟩
  refine ⟨kept, fun f s keptF isSymbol => ?_, spines, fun f items tail keptF spine => ?_⟩
  · rcases symbol_reachable w.interned isSymbol with ⟨i, name, rfl, found, reached⟩
    exact agree.lookup_eq (within_of_isKept keptF) found ((kept i reached).trans found)
  · rw [listLength_eq spine, listLength_eq ((spines f items tail keptF).2 spine)]

/-! ## A new binding -/

/-- `h'` is a heap in which the pairs of a new binding belong to the environment in the slot `e`. -/
structure Commits (h : Heap) (e b s : Nat) (symbol value : Value) (h' : Heap) : Prop where
  frame : ∃ bindings parent, h.object? (.slot e) = some (.environment bindings parent) ∧
    h'.object? (.slot e) = some (.environment (.slot s) parent) ∧
    h'.object? (.slot s) = some (.pair (.slot b) bindings)
  binding : h'.object? (.slot b) = some (.pair symbol value)
  kept : ∀ i, h.Reachable i → i ≠ e → h'.object? (.slot i) = h.object? (.slot i)

namespace Commits

theorem truncateRoots (d : h.Commits e b s symbol value h') (height : Nat) :
    h.Commits e b s symbol value (h'.truncateRoots height) := ⟨d.frame, d.binding, d.kept⟩

theorem frame?_eq (d : h.Commits e b s symbol value h') (keptF : h.Within h.IsRoot f.value)
    (other : f ≠ ⟨.slot e⟩) : h'.frame? f.value = h.frame? f.value := by
  rcases keptF with isNil | ⟨i, name, reached⟩
  · rw [isNil]
    rfl
  · have different : i ≠ e := by
      rintro rfl
      exact other (congrArg Env.mk name)
    rw [name, frame?, frame?, d.kept i reached different]

theorem parent?_eq (d : h.Commits e b s symbol value h') (keptF : h.Within h.IsRoot f.value) :
    f.parent? h' = f.parent? h := by
  by_cases same : f = ⟨.slot e⟩
  · rcases d.frame with ⟨bindings, parent, before, after, -⟩
    rw [same, Env.parent?_eq before, Env.parent?_eq after]
  · rw [Env.parent?, Env.parent?, d.frame?_eq keptF same]

section Committing

variable (d : h.Commits e b s symbol value h') (w : h.WellFormed)
include d w

/-- Nothing but the environment is different. -/
theorem samePairs : SamePairs (h.Within h.IsRoot) h h' := by
  rcases d.frame with ⟨bindings, parent, before, after, -⟩
  refine ⟨fun v within => ?_, fun v car cdr within goes => ?_⟩
  · rcases within with rfl | ⟨i, rfl, reached⟩
    · rfl
    · by_cases same : i = e
      · rw [same, pair?, pair?, before, after]
      · rw [pair?, pair?, d.kept i reached same]
  · have closed := w.toArena.within_reference within (pair?_eq_some_iff.1 goes)
    exact ⟨closed car (by simp [Object.references]), closed cdr (by simp [Object.references])⟩

/-- What the other environments bind is what they bound. -/
theorem ownBinding?_eq (keptF : h.Within h.IsRoot f.value) (other : f ≠ ⟨.slot e⟩)
    (symbol' : Value) : f.ownBinding? h' symbol' = f.ownBinding? h symbol' := by
  have frame := d.frame?_eq keptF other
  unfold Env.ownBinding? Env.bindings
  rw [frame]
  cases found : h.frame? f.value with
  | none =>
      dsimp only
      rw [find?_nil, find?_nil]
  | some frame =>
      rcases frame with ⟨bindings, parent⟩
      have object := frame?_eq_some_iff.1 found
      exact (d.samePairs w).findBinding_eq (w.toArena.within_bindings keptF object)

variable (reached : h.Reachable e)
include reached

/-- The new binding is in front of those that the environment had. -/
theorem ownBinding?_self (other : Value) :
    (⟨.slot e⟩ : Env).ownBinding? h' other =
      if other = symbol then some (.slot b) else (⟨.slot e⟩ : Env).ownBinding? h other := by
  rcases d.frame with ⟨bindings, parent, before, after, list⟩
  have within : h.Within h.IsRoot bindings :=
    w.toArena.within_bindings (.inr ⟨e, rfl, reached⟩) before
  have car : h'.car? (.slot b) = some symbol := by
    rw [car?, pair?_eq_some_iff.2 d.binding]
    rfl
  unfold Env.ownBinding?
  rw [Env.bindings_eq before, Env.bindings_eq after, find?_cons (pair?_eq_some_iff.2 list), car,
    (d.samePairs w).findBinding_eq within]
  by_cases same : other = symbol
  · simp [same]
  · have differs : (symbol == other) = false := beq_false_of_ne (Ne.symm same)
    simp [same, differs]

/-- On the way outwards the new binding is found, or what was found before. -/
theorem ownBinding?_cases (keptF : h.Within h.IsRoot f.value) (symbol' : Value) :
    f.ownBinding? h' symbol' = f.ownBinding? h symbol' ∨
      symbol' = symbol ∧ f.ownBinding? h' symbol' = some (.slot b) := by
  by_cases same : f = ⟨.slot e⟩
  · subst same
    rw [d.ownBinding?_self w reached]
    by_cases isSymbol : symbol' = symbol
    · exact .inr ⟨isSymbol, if_pos isSymbol⟩
    · exact .inl (if_neg isSymbol)
  · exact .inl (d.ownBinding?_eq w keptF same symbol')

theorem nearest {k : Nat} {symbol' : Value} (keptF : h.Within h.IsRoot f.value)
    (nearest : h.Nearest symbol' f k v) : h.Within h.IsRoot v ∧
      (f.binding? h' symbol' = some v ∨
        symbol' = symbol ∧ f.binding? h' symbol' = some (.slot b)) := by
  -- Induction on the way to what was found before; the new binding may come first.
  have agree : Agree (h.Within h.IsRoot) h h := w.toArena.agree fun _ _ => rfl
  refine ⟨agree.inside_binding keptF (binding?_eq_some_iff.2 ⟨k, nearest⟩), ?_⟩
  induction nearest with
  | here own =>
      rcases d.ownBinding?_cases w reached keptF symbol' with same | ⟨isSymbol, new⟩
      · exact .inl (binding?_of_own (same.trans own))
      · exact .inr ⟨isSymbol, binding?_of_own new⟩
  | outside none goes _ ih =>
      rcases d.ownBinding?_cases w reached keptF symbol' with same | ⟨isSymbol, new⟩
      · rw [binding?_of_parent (same.trans none) ((d.parent?_eq keptF).trans goes)]
        exact ih (agree.inside_parent keptF goes)
      · exact .inr ⟨isSymbol, binding?_of_own new⟩

theorem nearest_new {k : Nat} {symbol' : Value} (keptF : h.Within h.IsRoot f.value)
    (nearest : h'.Nearest symbol' f k v) :
    f.binding? h symbol' = some v ∨ symbol' = symbol ∧ v = .slot b := by
  have agree : Agree (h.Within h.IsRoot) h h := w.toArena.agree fun _ _ => rfl
  induction nearest with
  | here own =>
      rcases d.ownBinding?_cases w reached keptF symbol' with same | ⟨isSymbol, new⟩
      · exact .inl (binding?_of_own (same.symm.trans own))
      · exact .inr ⟨isSymbol, Option.some.inj (own.symm.trans new)⟩
  | outside none goes _ ih =>
      have goes' := (d.parent?_eq keptF).symm.trans goes
      rcases d.ownBinding?_cases w reached keptF symbol' with same | ⟨isSymbol, new⟩
      · rw [binding?_of_parent (same.symm.trans none) goes']
        exact ih (agree.inside_parent keptF goes')
      · cases none.symm.trans new

theorem binding?_cases (keptF : h.Within h.IsRoot f.value) (symbol' : Value) :
    f.binding? h' symbol' = f.binding? h symbol' ∧
        (∀ v, f.binding? h symbol' = some v → h.Within h.IsRoot v) ∨
      symbol' = symbol ∧ f.binding? h' symbol' = some (.slot b) := by
  cases before : f.binding? h symbol' with
  | some v =>
      rcases binding?_eq_some_iff.1 before with ⟨k, nearest⟩
      rcases d.nearest w reached keptF nearest with ⟨within, same | new⟩
      · refine .inl ⟨same, ?_⟩
        rintro _ ⟨⟩
        exact within
      · exact .inr new
  | none =>
      cases after : f.binding? h' symbol' with
      | none => exact .inl ⟨rfl, nofun⟩
      | some v =>
          rcases binding?_eq_some_iff.1 after with ⟨k, nearest⟩
          rcases d.nearest_new w reached keptF nearest with same | ⟨isSymbol, rfl⟩
          · cases before.symm.trans same
          · exact .inr ⟨isSymbol, rfl⟩

/-- So the binding is seen as a whole wherever it is seen. -/
theorem defined : h.Defined ⟨.slot e⟩ symbol value h' := by
  have new {f : Env} {symbol' : Value} (found : f.binding? h' symbol' = some (.slot b)) :
      f.lookup h' symbol' = .ok value := by
    refine lookup_of_cdr found ?_
    rw [cdr?, pair?_eq_some_iff.2 d.binding]
    rfl
  have own := d.ownBinding?_self w reached symbol
  refine ⟨new (binding?_of_own (own.trans (if_pos rfl))), fun f symbol' keptF isSymbol => ?_⟩
  rcases d.binding?_cases w reached (within_of_isKept keptF) symbol' with
    ⟨same, within⟩ | ⟨isSame, found⟩
  · rcases symbol_reachable w.interned isSymbol with ⟨i, name, rfl, found, reachedI⟩
    rcases d.frame with ⟨bindings, parent, before, -⟩
    have different : i ≠ e := by
      rintro rfl
      cases found.symm.trans before
    refine .inl (lookup_congr found ((d.kept i reachedI different).trans found) same ?_)
    intro v isBinding
    rw [cdr?, cdr?, (d.samePairs w).pair?_eq v (within v isBinding)]
  · exact .inr ⟨isSame, new found⟩

end Committing

end Commits

/-! ## Definitions -/

/-- A definition that succeeds commits its binding, whatever has been allocated before. -/
theorem commits_of_define (kept : env.IsKept h) (saved : h.Saved h₁) (c : h₁.Counted)
    (done : env.define symbol value h₁ = .ok () h') :
    ∃ e b s, env = ⟨.slot e⟩ ∧ h.Reachable e ∧ h.Commits e b s symbol value h' := by
  rcases kept with ⟨⟨bindings, parent, found⟩, e, name, reached⟩
  obtain rfl : env = ⟨.slot e⟩ := congrArg Env.mk name
  have found₁ := (saved.kept e reached).trans found
  rcases c.define_cases found₁ symbol value with
    ⟨_, _, _, _, step, _⟩ | ⟨b, s, h₂, step, acquires, _, foundB, foundS⟩
  · cases step.symm.trans done
  cases step.symm.trans done
  have needed {i : Nat} (reached : h.Reachable i) : h₁.Needed [.slot e, symbol, value] i :=
    (saved.reachable reached).mono fun _ => .inl
  have foundE := (acquires.kept e (needed reached)).trans found₁
  have apart {k : Nat} {car cdr : Value} (foundK : h₂.object? (.slot k) = some (.pair car cdr)) :
      Value.slot k ≠ .slot e := by
    intro same
    rw [same, foundE] at foundK
    cases foundK
  refine ⟨e, b, s, rfl, reached, ⟨bindings, parent, found, ?_, ?_⟩, ?_, fun i reachedI other => ?_⟩
  · exact object?_put_self (occupied_of_object? foundE)
  · exact (object?_put_ne (apart foundS)).trans foundS
  · exact (object?_put_ne (apart foundB)).trans foundB
  · refine (object?_put_ne fun same => other (Value.slot.inj same)).trans ?_
    exact (acquires.kept i (needed reachedI)).trans (saved.kept i reachedI)

theorem spares_setCdr (h : Heap) (binding value : Value) : h.Spares (h.setCdr binding value) := by
  rcases setCdr_cases h binding value with ⟨i, car, cdr, _, _, step⟩ | ⟨_, step⟩
  · rw [step]
    exact (gains_put h i _).spares (List.forall_mem_singleton.2 fun _ _ => nofun)
  · rw [step]
    exact .refl h

/-- A definition makes no error values. -/
theorem spares_define (kept : env.IsKept h) (c : h.Counted)
    (done : env.define symbol value h = .ok () h') : h.Spares h' := by
  rcases kept with ⟨⟨bindings, parent, found⟩, e, name, _⟩
  obtain rfl : env = ⟨.slot e⟩ := congrArg Env.mk name
  rcases c.define_cases found symbol value with
    ⟨_, _, _, _, step, _⟩ | ⟨b, s, h₂, step, acquires, _, foundB, foundS⟩
  · cases step.symm.trans done
  cases step.symm.trans done
  intro v fine
  refine isError_eq_false_iff.2 fun kind message isError => ?_
  cases v with
  | nil => cases isError
  | slot i =>
      by_cases same : i = e
      · have needed : h.Needed [.slot e, symbol, value] e :=
          .start (.inr List.mem_cons_self) (occupied_of_object? found)
        have occupied := acquires.occupied needed
        subst same
        cases (object?_put_self occupied).symm.trans isError
      · have before := (object?_put_ne fun isE => same (Value.slot.inj isE)).symm.trans isError
        refine isError_eq_false_iff.1 fine kind message ?_
        refine acquires.object?_of_old before fun isNew => ?_
        rcases List.mem_pair.1 isNew with rfl | rfl
        · cases foundB.symm.trans before
        · cases foundS.symm.trans before

end Heap

/-! ## Failures -/

/-- A binding operation has failed, with an error of its own or for want of memory. -/
def Env.Fails {α : Type} (outcome : EStateM.Result Fatal Heap (Except BindingError α))
    (h' : Heap) : Prop :=
  (∃ e, outcome = .error e h') ∨ ∃ e, outcome = .ok (.error e) h'

/-- An evaluation has failed, with an error value or with a fatal condition. -/
def Evaluator.Fails (outcome : EStateM.Result Fatal Heap Value) (h' : Heap) : Prop :=
  (∃ e, outcome = .error e h') ∨ ∃ v, outcome = .ok v h' ∧ h'.isError v = true

/-- What the operation obeys holds of the heap that it has failed with. -/
theorem Env.Fails.obeys {α : Type} {R : Heap → Heap → Prop} {h h' : Heap}
    {op : HeapM Fatal (Except BindingError α)} (fails : Env.Fails (op h) h')
    (obeys : HeapM.Obeys R h op) : R h h' := by
  rcases fails with ⟨e, step⟩ | ⟨e, step⟩
  · exact HeapM.Aborts.ofObeys obeys e h' step
  · exact obeys.of_ok step

theorem Evaluator.Fails.obeys {R : Heap → Heap → Prop} {h h' : Heap} {op : HeapM Fatal Value}
    (fails : Evaluator.Fails (op h) h') (obeys : HeapM.Obeys R h op) : R h h' := by
  rcases fails with ⟨e, step⟩ | ⟨v, step, _⟩
  · exact HeapM.Aborts.ofObeys obeys e h' step
  · exact obeys.of_ok step

open Heap

section Failing

variable {h h' : Heap} {env : Env} {symbol value : Value}

/-- An assignment that fails has done nothing. -/
theorem Env.eq_of_set_fails (fails : Env.Fails (env.set symbol value h) h') : h' = h := by
  rcases env.set_cases symbol value h with ⟨_, _, step⟩ | ⟨_, step⟩
  · rw [step] at fails
    rcases fails with ⟨_, ⟨⟩⟩ | ⟨_, ⟨⟩⟩
  · rw [step] at fails
    rcases fails with ⟨_, ⟨⟩⟩ | ⟨_, ⟨⟩⟩
    rfl

end Failing

namespace Evaluator

/-! ## Forms that bind -/

/-- What an assignment does with the value that it has found. -/
def assigned (target : Value) (env : Env) (value : Value) : HeapM Fatal Value := do
  match ← env.set target value with
  | .ok () => pure value
  | .error e => e.toValue

/--
The evaluation has come to bind the symbol `target` on the heap `h`: the value of an assignment or
a definition has been computed, or the expression is a definition of a procedure, which computes
nothing before.
-/
inductive ComesToBind (ev : Evaluator) (whole : Evaluating) : Form → Value → Heap → Prop where
  | assignment {room : Nat} {head operands target source value : Value} {h : Heap} :
      ev.Compound whole .assignment head operands → whole.room = room + 1 →
      whole.heap.items? operands = some [target, source] → whole.heap.isSymbol target = true →
      ev.eval room source whole.env whole.opened = .ok value h → h.isError value = false →
        ComesToBind ev whole .assignment target h
  | definition {room : Nat} {head operands rest target source value : Value} {h : Heap} :
      ev.Compound whole .definition head operands → whole.room = room + 1 →
      whole.heap.pair? operands = some (target, rest) → whole.heap.items? rest = some [source] →
      whole.heap.isSymbol target = true →
      ev.eval room source whole.env whole.opened = .ok value h → h.isError value = false →
        ComesToBind ev whole .definition target h
  | procedure {room : Nat} {head operands target params body : Value} :
      ev.Compound whole .definition head operands → whole.room = room + 1 →
      Names whole.heap operands target params body → whole.heap.isSymbol target = true →
        ComesToBind ev whole .definition target whole.opened

section Work

variable {ev : Evaluator} {whole : Evaluating} {form : Form} {target value params body : Value}
  {env : Env} {h h₁ h' : Heap}

/-- What is left to do, on the heap on which it is done. -/
inductive Remaining (h : Heap) (target : Value) (env : Env) : Form → HeapM Fatal Value → Prop where
  | assign {value : Value} : h.isError value = false →
      Remaining h target env .assignment (assigned target env value)
  | bind {value : Value} : h.isError value = false →
      Remaining h target env .definition (bound target env value)
  | procedure (params body : Value) :
      Remaining h target env .definition (HeapM.procedure params body env >>= bound target env)

theorem ComesToBind.exists_remaining (c : ev.ComesToBind whole form target h) :
    ∃ op, Remaining h target whole.env form op ∧
      ev.outcome whole = HeapM.scope (fun _ => op h) whole.heap := by
  cases c with
  | @assignment room head operands target source value h c enough shape isSymbol done fine =>
      have shape := Evaluating.items?_opened_eq_some shape
      have isSymbol := (whole.isSymbol_opened target).trans isSymbol
      refine ⟨_, .assign fine, ?_⟩
      have worked : ev.work room .assignment whole.expr head operands whole.env whole.opened =
          assigned target whole.env value h := by
        show setForm _ whole.expr operands whole.env whole.opened = _
        simp only [setForm, get_bind_apply, shape, isSymbol, if_true]
        exact checked_of_fine done fine pure _
      rw [c.outcome_succ enough, worked]
  | @definition room head operands rest target source value h c enough pair shape isSymbol done
      fine =>
      have plain := pair?_of_isSymbol isSymbol
      have shape := Evaluating.items?_opened_eq_some shape
      rw [← whole.pair?_opened] at pair plain
      have isSymbol := (whole.isSymbol_opened target).trans isSymbol
      refine ⟨_, .bind fine, ?_⟩
      have worked : ev.work room .definition whole.expr head operands whole.env whole.opened =
          bound target whole.env value h := by
        show defineForm _ whole.expr operands whole.env whole.opened = _
        simp only [defineForm, get_bind_apply, pair, plain, shape, isSymbol, if_true]
        exact checked_of_fine done fine pure _
      rw [c.outcome_succ enough, worked]
  | @procedure room head operands target params body c enough names isSymbol =>
      refine ⟨_, .procedure params body, ?_⟩
      rw [c.outcome_succ enough, work_of_names names,
        defineProcedure_eq ((whole.isSymbol_opened target).trans isSymbol)]

variable {op : HeapM Fatal Value} {v : Value}

/-- What is left of a definition fails at once, or comes to bind a value that is no error. -/
theorem Remaining.cases_of_definition (r : Remaining h target env .definition op)
    (w : h.WellFormed) :
    (∃ e h', op h = .error e h' ∧ h.Saved h') ∨
    ∃ v h₁, op h = bound target env v h₁ ∧ h.Saved h₁ ∧ h₁.Counted ∧ h₁.isError v = false := by
  have unchanged := Saved.refl w.tidy
  cases r with
  | @bind value fine => exact .inr ⟨value, h, rfl, unchanged, w.toArena.counted, fine⟩
  | procedure params body =>
      have saves := (dataConduct_saves h).obeys_procedure h params body env
      have counted := (constructs_procedure h params body env).counted w.toArena.counted
      unfold HeapM.Obeys heapAfter at saves
      unfold heapAfter at counted
      simp only [Bind.bind, EStateM.bind]
      cases step : HeapM.procedure params body env h with
      | error e h' =>
          rw [step] at saves
          exact .inl ⟨e, h', rfl, saves.saved unchanged⟩
      | ok v h₁ =>
          rw [step] at saves counted
          exact .inr ⟨v, h₁, rfl, saves.saved unchanged, counted, isError_of_procedure w.tidy step⟩

/-- An environment stays in use with all that is. -/
theorem isKept_of_saved (kept : env.IsKept h) (saved : h.Saved h') : env.IsKept h' := by
  rcases kept with ⟨⟨bindings, parent, found⟩, i, name, reached⟩
  rw [Env.IsKept, name]
  rw [name] at found
  exact ⟨⟨bindings, parent, (saved.kept i reached).trans found⟩, i, rfl, saved.reachable reached⟩

/-- A definition that fails has changed nothing that is in use; else it has defined. -/
theorem bound_cases (kept : env.IsKept h) (saved : h.Saved h₁) (c : h₁.Counted)
    (fine : h₁.isError v = false) :
    (∃ e h', bound target env v h₁ = .error e h' ∧ h.Saved h') ∨
    ∃ h', bound target env v h₁ = .ok v h' ∧ h'.isError v = false ∧
      env.define target v (h₁.addRoot v) = .ok () h' := by
  have saved' := (Saves.addRoot h₁ v).saved saved
  have aborts : HeapM.Aborts h.Saves (h₁.addRoot v) (env.define target v) :=
    HeapM.aborts_define _ env target v
  have fine' := (gains_addRoot h₁ v).spares (List.forall_mem_nil _) v fine
  have body : bound target env v h₁ =
      (env.define target v >>= fun _ => pure v : HeapM Fatal Value) (h₁.addRoot v) := rfl
  rw [body]
  simp only [Bind.bind, EStateM.bind]
  cases step : env.define target v (h₁.addRoot v) with
  | error e h' => exact .inl ⟨e, h', rfl, (aborts e h' step).saved saved'⟩
  | ok _ h' =>
      have spares := spares_define (isKept_of_saved kept saved') (c.addRoots [v]) step
      exact .inr ⟨h', rfl, spares v fine', rfl⟩

/-- An assignment that fails has changed nothing. -/
theorem kept_of_assigned_fails (t : h.Tidy) (fine : h.isError value = false)
    (fails : Fails (assigned target env value h) h') : h.Saved h' := by
  have steps : assigned target env value h =
      match env.set target value h with
      | .ok (.ok ()) h₁ => .ok value h₁
      | .ok (.error e) h₁ => e.toValue h₁
      | .error e h₁ => .error e h₁ := by
    unfold assigned
    simp only [Bind.bind, EStateM.bind]
    rcases env.set target value h with ⟨⟨e⟩ | ⟨⟩, h₁⟩ | ⟨e, h₁⟩ <;> rfl
  rw [steps] at fails
  rcases env.set_cases target value h with ⟨binding, _, step⟩ | ⟨_, step⟩
  · rw [step] at fails
    rcases fails with ⟨_, ⟨⟩⟩ | ⟨_, ⟨⟩, isError⟩
    cases (spares_setCdr h binding value value fine).symm.trans isError
  · rw [step] at fails
    have raised : Fails ((Env.unbound h target).toValue h) h' := fails
    exact (raised.obeys ((dataConduct_saves h).obeys_raise h _ _)).saved (.refl t)

/-- Whatever is left to do, it changes nothing that is in use if it fails. -/
theorem Remaining.saved_of_fails (r : Remaining h target env form op) (w : h.WellFormed)
    (kept : env.IsKept h) (fails : Fails (op h) h') : h.Saved h' := by
  cases form with
  | assignment =>
      cases r with
      | assign fine => exact kept_of_assigned_fails w.tidy fine fails
  | definition =>
      rcases r.cases_of_definition w with ⟨e, h₁, step, saved⟩ | ⟨v, h₁, step, saved, c, fine⟩
      · rw [step] at fails
        rcases fails with ⟨_, ⟨⟩⟩ | ⟨_, ⟨⟩, _⟩
        exact saved
      rw [step] at fails
      rcases bound_cases kept saved c fine with ⟨e, h₂, step', saved'⟩ | ⟨h₂, step', fine', _⟩
      · rw [step'] at fails
        rcases fails with ⟨_, ⟨⟩⟩ | ⟨_, ⟨⟩, _⟩
        exact saved'
      · rw [step'] at fails
        rcases fails with ⟨_, ⟨⟩⟩ | ⟨_, ⟨⟩, isError⟩
        cases fine'.symm.trans isError
  | _ => cases r

theorem Remaining.defined (r : Remaining h target env .definition op) (w : h.WellFormed)
    (kept : env.IsKept h) (ends : op h = .ok v h') (height : Nat) :
    h.Defined env target v (h'.truncateRoots height) := by
  rcases r.cases_of_definition w with ⟨e, h₁, step, _⟩ | ⟨v', h₁, step, saved, c, fine⟩
  · cases step.symm.trans ends
  rcases bound_cases kept saved c fine with ⟨e, h₂, step', _⟩ | ⟨h₂, step', _, done⟩
  · cases step'.symm.trans (step.symm.trans ends)
  · cases step'.symm.trans (step.symm.trans ends)
    have saved' := (Saves.addRoot h₁ v).saved saved
    rcases commits_of_define kept saved' (c.addRoots [v]) done with
      ⟨e, b, s, rfl, reached, commits⟩
    exact (commits.truncateRoots height).defined w reached

theorem Fails.of_scope {r : EStateM.Result Fatal Heap Value} {k : Heap}
    (fails : Fails (HeapM.scope (fun _ => r) k) h') :
    ∃ h₁, Fails r h₁ ∧ h' = h₁.truncateRoots k.roots.length := by
  unfold HeapM.scope at fails
  cases r with
  | error e h₁ =>
      rcases fails with ⟨_, ⟨⟩⟩ | ⟨_, ⟨⟩, _⟩
      exact ⟨h₁, .inl ⟨e, rfl⟩, rfl⟩
  | ok v h₁ =>
      rcases fails with ⟨_, ⟨⟩⟩ | ⟨_, ⟨⟩, isError⟩
      exact ⟨h₁, .inr ⟨v, rfl, isError⟩, rfl⟩

end Work

end Evaluator

/--
On a well-formed heap of any capacity, with an environment that can be reached from the roots: a
definition, an assignment or an extension that fails leaves all lookups, the lists of bindings and
the roots as they were. So does an assignment or a definition that is evaluated, from the moment on
when its value has been computed; the roots are then those from before the evaluation. A definition
that does not fail is visible from its environment and nowhere in part.
-/
theorem bindings_are_all_or_nothing {h : Heap} (w : h.WellFormed) {env : Env}
    (kept : env.IsKept h) :
    (∀ symbol value h',
      (∀ e, env.define symbol value h = .error e h' → h.Unaltered h' ∧ h'.roots = h.roots) ∧
      (env.define symbol value h = .ok () h' → h.Defined env symbol value h') ∧
      (Env.Fails (env.set symbol value h) h' → h.Unaltered h' ∧ h'.roots = h.roots)) ∧
    (∀ params args h', Env.Fails (env.extend params args h) h' →
      h.Unaltered h' ∧ h'.roots = h.roots) ∧
    ∀ (ev : Evaluator) (whole : Evaluating) form target, whole.env = env →
      ev.ComesToBind whole form target h →
        (∀ h', Evaluator.Fails (ev.outcome whole) h' →
          h.Unaltered h' ∧ h'.roots = whole.heap.roots) ∧
        ∀ v h', form = .definition → ev.outcome whole = .ok v h' →
          h.Defined env target v h' := by
  have unchanged := Saved.refl w.tidy
  refine ⟨fun symbol value h' => ⟨fun e fails => ?_, fun done => ?_, fun fails => ?_⟩,
    fun params args h' fails => ?_, fun ev whole form target isEnv comes => ?_⟩
  · have saved := (HeapM.aborts_define h env symbol value e h' fails).saved unchanged
    have level := HeapM.Aborts.ofObeys (conduct_level.define h env symbol value) e h' fails
    exact ⟨w.unaltered saved.kept, level.roots_eq⟩
  · rcases commits_of_define kept unchanged w.toArena.counted done with
      ⟨e, b, s, rfl, reached, commits⟩
    exact commits.defined w reached
  · rw [Env.eq_of_set_fails fails]
    exact ⟨w.unaltered fun _ _ => rfl, rfl⟩
  · have saved := (fails.obeys (HeapM.saves_extend h env params args)).saved unchanged
    have level := fails.obeys (conduct_level.obeys_extend trivial params args)
    exact ⟨w.unaltered saved.kept, level.roots_eq⟩
  · subst isEnv
    rcases comes.exists_remaining with ⟨op, remaining, ends⟩
    refine ⟨fun h' fails => ⟨?_, ?_⟩, fun v h' isDefinition done => ?_⟩
    · rw [ends] at fails
      rcases fails.of_scope with ⟨h₁, failed, rfl⟩
      exact w.unaltered (remaining.saved_of_fails w kept failed).kept
    · exact (fails.obeys (conduct_level.obeys_eval _ ev _ _ _)).roots_eq
    · subst isDefinition
      rcases HeapM.exists_of_scope (ends.symm.trans done) with ⟨h₁, bound, rfl⟩
      exact remaining.defined w kept bound _

/--
A full heap in which `t` is bound to nil by the pair in the slot 2, and with a pair in the slot 4
that nobody needs.
-/
def shadowing : Heap :=
  (Heap.Operation.cons .nil .nil).run
    ((Heap.Operation.define ⟨.slot 0⟩ (.slot 1) .nil).run (.empty 5))

theorem wellFormed_shadowing : shadowing.WellFormed := by
  have t : (Heap.empty 5).Holds (.slot 1) := Heap.holds_slot_iff.2 (by decide)
  have environment : (Heap.empty 5).Holds (.slot 0) := Heap.holds_slot_iff.2 (by decide)
  have bound := (Heap.Operation.define ⟨.slot 0⟩ (.slot 1) .nil).run_spec (Heap.wellFormed_empty 5)
    (List.forall_mem_cons.2 ⟨environment, List.forall_mem_cons.2 ⟨t,
      List.forall_mem_singleton.2 (Heap.holds_nil _)⟩⟩)
  refine ((Heap.Operation.cons .nil .nil).run_spec bound.1 fun v member => ?_).1
  rcases List.mem_pair.1 member with rfl | rfl
  · exact Heap.holds_nil _
  · exact Heap.holds_nil _

theorem needed_shadowing {operands : List Value}
    (plain : ∀ v ∈ operands, v = .slot 0 ∨ v = .slot 1) (i : Nat) :
    i ∈ [0, 1, 2, 3] ↔ shadowing.Needed operands i := by
  have frame : shadowing.frame? (.slot 0) = some (.slot 3, none) := by decide +kernel
  have symbol : shadowing.object? (.slot 1) = some (.symbol "t") := rfl
  have list : shadowing.pair? (.slot 3) = some (.slot 2, .nil) := by decide +kernel
  have pair : shadowing.pair? (.slot 2) = some (.slot 1, .nil) := by decide +kernel
  rw [Heap.frame?_eq_some_iff] at frame
  rw [Heap.pair?_eq_some_iff] at list pair
  refine ⟨fun member => ?_, fun needed => needed.mem_of_closed (fun k isStart => ?_) ?_⟩
  · have environment : shadowing.Needed operands 0 :=
      .start (.inl .environment) (Heap.occupied_of_object? frame)
    have bindings : shadowing.Needed operands 3 :=
      .reference environment frame (by simp [Object.references]) (Heap.occupied_of_object? list)
    have binding : shadowing.Needed operands 2 :=
      .reference bindings list (by simp [Object.references]) (Heap.occupied_of_object? pair)
    have name : shadowing.Needed operands 1 :=
      .reference binding pair (by simp [Object.references]) (Heap.occupied_of_object? symbol)
    simp only [List.mem_cons, List.not_mem_nil, or_false] at member
    rcases member with rfl | rfl | rfl | rfl
    · exact environment
    · exact name
    · exact binding
    · exact bindings
  · have first : k = 0 ∨ k = 1 := by
      rcases isStart with root | listed
      · rcases root.cases_of_symbols_empty 5 rfl rfl with same | same | member
        · exact .inl (Value.slot.inj same)
        · exact .inr (Value.slot.inj same)
        · cases member
      · exact (plain _ listed).imp Value.slot.inj Value.slot.inj
    rcases first with rfl | rfl
    · decide
    · decide
  · simp [frame, symbol, list, pair, Object.references]

/-- A pair is put into one of the slots that there are. -/
theorem lt_capacity_of_cons {h h' : Heap} {car cdr : Value} {i : Nat} (w : h.WellFormed)
    (car_held : h.Holds car) (cdr_held : h.Holds cdr)
    (made : HeapM.cons car cdr h = .ok (.slot i) h') (occupied : h'.Occupied i) :
    h'.WellFormed ∧ h'.capacity = h.capacity ∧ i < max 2 h.capacity := by
  have after : (Heap.Operation.cons car cdr).run h = h' := by
    show heapAfter (HeapM.cons car cdr) h = h'
    unfold heapAfter
    rw [made]
  have spec := (Heap.Operation.cons car cdr).run_spec w
    (List.forall_mem_cons.2 ⟨car_held, List.forall_mem_singleton.2 cdr_held⟩)
  rw [after] at spec
  refine ⟨spec.1, spec.2, (Heap.lt_size_of_occupied occupied).trans_le ?_⟩
  rw [← spec.2]
  exact spec.1.size_le

/-- The slot 4 is collected for the pair of the binding, which leads to the name at least. -/
theorem cons_shadowing :
    ∃ h₁, HeapM.cons (.slot 1) (.slot 1) (shadowing.addRoot (.slot 0)) = .ok (.slot 4) h₁ ∧
      h₁.WellFormed ∧ h₁.capacity = 5 ∧ h₁.object? (.slot 4) = some (.pair (.slot 1) (.slot 1)) ∧
      ∀ operands, .slot 4 ∈ operands → ∀ i < 5, h₁.Needed operands i := by
  have t : shadowing.Holds (.slot 1) := Heap.holds_slot_iff.2 (by decide +kernel)
  have environment : shadowing.Holds (.slot 0) := Heap.holds_slot_iff.2 (by decide +kernel)
  have w := wellFormed_shadowing.addRoot environment
  have c := w.toArena.counted
  have needed (i : Nat) : i ∈ [0, 1, 2, 3] ↔
      (shadowing.addRoot (.slot 0)).Needed [.slot 1, .slot 1] i :=
    (needed_shadowing (by simp) i).trans Heap.needed_addRoot_iff.symm
  rcases c.cons_cases (.slot 1) (.slot 1) with
    ⟨_, _, h₁, step, _⟩ | ⟨i, h₁, step, acquires, roots, found⟩
  · have allocates := (Heap.constructs_cons _ (.slot 1) (.slot 1)).allocates c
    have full := (allocates.fails_iff.1 ⟨_, _, step⟩).2
    rw [Heap.demand_eq_length (by decide) needed] at full
    exact absurd full (by decide +kernel)
  · have occupied := Heap.occupied_of_object? found
    rcases lt_capacity_of_cons w t t step occupied with ⟨w₁, capacity, low⟩
    have five : (shadowing.addRoot (.slot 0)).capacity = 5 := by decide +kernel
    have other := acquires.fresh i List.mem_cons_self
    rw [← needed] at other
    obtain rfl : i = 4 := by
      simp only [List.mem_cons, List.not_mem_nil, or_false] at other
      omega
    refine ⟨h₁, step, w₁, capacity.trans five, found, fun operands member k low => ?_⟩
    rcases Nat.lt_succ_iff_lt_or_eq.1 low with low | rfl
    · refine acquires.needed_pair roots found member ((needed k).1 ?_)
      simp only [List.mem_cons, List.not_mem_nil, or_false]
      omega
    · exact .start (.inr member) occupied

/-- The pair of the binding can be made, but then there is no slot left for the list. -/
theorem define_shadowing :
    ∃ e h', (Env.mk (.slot 0)).define (.slot 1) (.slot 1) shadowing = .error e h' ∧
      h'.object? (.slot 4) = some (.pair (.slot 1) (.slot 1)) := by
  rcases cons_shadowing with ⟨h₁, step, w, capacity, found, needed⟩
  rw [define_eq, step]
  dsimp only
  have four := Heap.holds_of_object? found
  rcases w.toArena.counted.cons_cases (.slot 4) ((Env.mk (.slot 0)).bindings h₁) with
    ⟨_, _, h₂, step', acquires, _⟩ | ⟨i, h₂, step', acquires, _, found'⟩
  · rw [step']
    exact ⟨_, _, rfl, (acquires.kept 4 (needed _ List.mem_cons_self 4 (by decide))).trans found⟩
  · have list := (Env.mk (.slot 0)).holds_bindings w
    rcases lt_capacity_of_cons w four list step' (Heap.occupied_of_object? found') with ⟨_, _, low⟩
    rw [capacity] at low
    exact absurd (needed _ List.mem_cons_self i low) (acquires.fresh i List.mem_cons_self)

theorem bindings_are_all_or_nothing_shadowing :
    shadowing.WellFormed ∧ (Env.mk (.slot 0)).IsKept shadowing ∧ ¬ shadowing.Reachable 4 ∧
      ∃ e h', (Env.mk (.slot 0)).define (.slot 1) (.slot 1) shadowing = .error e h' ∧
        h'.object? (.slot 4) ≠ shadowing.object? (.slot 4) ∧
        (Env.mk (.slot 0)).lookup h' (.slot 1) = .ok .nil ∧ h'.roots = shadowing.roots := by
  have w := wellFormed_shadowing
  have isFrame : shadowing.frame? (.slot 0) = some (.slot 3, none) := by decide +kernel
  have frame := Heap.frame?_eq_some_iff.1 isFrame
  have kept : (Env.mk (.slot 0)).IsKept shadowing :=
    ⟨⟨.slot 3, none, frame⟩, 0, rfl, .start .environment (Heap.occupied_of_object? frame)⟩
  have garbage : ¬ shadowing.Reachable 4 := by
    rw [← Heap.needed_nil_iff, ← needed_shadowing (List.forall_mem_nil _)]
    decide
  have isPair : shadowing.pair? (.slot 4) = some (.nil, .nil) := by decide +kernel
  rcases define_shadowing with ⟨e, h', step, found⟩
  have whole := bindings_are_all_or_nothing w kept
  rcases (whole.1 (.slot 1) (.slot 1) h').1 e step with ⟨unaltered, roots⟩
  refine ⟨w, kept, garbage, e, h', step, ?_, ?_, roots⟩
  · rw [found, Heap.pair?_eq_some_iff.1 isPair]
    nofun
  · rw [unaltered.lookup_eq _ _ kept (by decide +kernel)]
    decide +kernel

end Lisplet
