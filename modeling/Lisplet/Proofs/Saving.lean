import Lisplet.Proofs.Balance

/-!
# Saving — what survives a call that fails

Making data leaves everything alone that the roots keep, however often it collects in between.
`Heap.Saves` says this relative to a heap `base` that was there earlier, so that a new environment
may still be filled: `base` does not know it. A primitive that changes environments `base` does know
does so last, after all that may fail, so a call that fails has changed nothing that `base` can
reach (`HeapM.aborts_call`).
-/

namespace Lisplet

open Heap.Operation (heapAfter)

namespace Heap

variable {base h h' : Heap} {env : Env} {i : Nat}

/-- `h` is a later state of `base` in which all that `base` can reach is as it was. -/
structure Saved (base h : Heap) : Prop where
  tidy : h.Tidy
  roots : base.KeepsRoots h
  kept : ∀ i, base.Reachable i → h.object? (.slot i) = base.object? (.slot i)

/-- `h'` has the roots of `h`, and if all that `base` can reach was still as it was, it still is. -/
structure Saves (base h h' : Heap) : Prop where
  roots : h.KeepsRoots h'
  saved : base.Saved h → base.Saved h'

/-! ## Elementary changes -/

namespace Saved

theorem refl (tidy : h.Tidy) : h.Saved h := ⟨tidy, .refl h, fun _ _ => rfl⟩

theorem reachable (s : base.Saved h) (reached : base.Reachable i) : h.Reachable i := by
  have same : h.ReachableFrom base.IsRoot i := reached.transfer s.kept
  exact same.mono fun _ root => s.roots.isRoot root

/-- The arena is as before, whatever else is different. -/
theorem transfer (s : base.Saved h) (roots : base.KeepsRoots h') (slots : h'.slots = h.slots)
    (free : h'.free = h.free) : base.Saved h' := by
  refine ⟨s.tidy.transfer slots free, roots, fun i reached => ?_⟩
  rw [object?_slot, slots]
  exact s.kept i reached

theorem makeRoom (s : base.Saved h) : base.Saved h.makeRoom := by
  have roots := s.roots.trans (.makeRoom h)
  unfold Heap.makeRoom at roots ⊢
  split
  · next full =>
    rw [if_pos full] at roots
    refine ⟨s.tidy.collect, roots, fun i reached => ?_⟩
    rw [object?_collect_of_reachable s.tidy.marksClear (s.reachable reached)]
    exact s.kept i reached
  · exact s

/-- The slot that is filled was empty, so it was not in use by `base`. -/
theorem insert (s : base.Saved h) (o : Object) : base.Saved (h.insert o).2 := by
  rcases s.tidy.places_insert o with ⟨i, _, p⟩
  refine ⟨s.tidy.insert o, s.roots.trans p.keepsRoots, fun j reached => ?_⟩
  rw [p.object?_old (s.reachable reached).occupied]
  exact s.kept j reached

/-- An environment that `base` cannot reach may get other bindings. -/
theorem setBindings (s : base.Saved h) (hidden : ∀ i, env.value = .slot i → ¬ base.Reachable i)
    (value : Value) : base.Saved (h.setBindings env value) := by
  rcases setBindings_cases h env value with ⟨i, _, parent, name, found, step⟩ | ⟨_, step⟩
  · rw [step]
    refine ⟨s.tidy.put _ (occupied_of_object? found), s.roots.trans (.put h i _),
      fun j reached => ?_⟩
    rw [object?_put_ne]
    · exact s.kept j reached
    · rintro ⟨⟩
      exact hidden i name reached
  · rw [step]
    exact s

end Saved

namespace Saves

theorem composes (base : Heap) : Composes base.Saves where
  refl h := ⟨.refl h, id⟩
  trans s s' := ⟨s.roots.trans s'.roots, fun before => s'.saved (s.saved before)⟩

theorem ofSame (roots : h.KeepsRoots h') (slots : h'.slots = h.slots)
    (free : h'.free = h.free) : base.Saves h h' :=
  ⟨roots, fun s => s.transfer (s.roots.trans roots) slots free⟩

theorem truncateRoots (s : base.Saves h h') :
    base.Saves h (h'.truncateRoots h.roots.length) := by
  refine ⟨s.roots.truncateRoots, fun before => ?_⟩
  exact (s.saved before).transfer (before.roots.trans s.roots.truncateRoots) rfl rfl

theorem addRoot (h : Heap) (v : Value) : base.Saves h (h.addRoot v) := by
  have roots := KeepsRoots.addRoot h v
  unfold Heap.addRoot at roots ⊢
  split
  · exact (composes base).refl h
  · next some =>
    rw [if_neg some] at roots
    exact ofSame roots rfl rfl

theorem allocate (h : Heap) (o : Object) : base.Saves h (heapAfter (HeapM.allocate o) h) := by
  refine ⟨.allocate h o, fun s => ?_⟩
  unfold heapAfter
  rcases HeapM.allocate_cases h o with ⟨_, step⟩ | ⟨_, step⟩
  · rw [step]
    exact s.makeRoom.insert o
  · rw [step]
    exact s.makeRoom

theorem intern (h : Heap) (name : String) : base.Saves h (heapAfter (HeapM.intern name) h) := by
  refine HeapM.Obeys.get_bind ?_
  split
  · exact .pure (composes base) _
  · next absent =>
    refine .bind (composes base) (Saves.allocate h _) fun symbol h' step => ?_
    have symbols := symbols_allocate h (.symbol name)
    unfold heapAfter at symbols
    rw [step] at symbols
    exact .modify_bind (composes base) (ofSame (.enter (symbols ▸ absent) symbol) rfl rfl)
      (.pure (composes base) symbol)

end Saves

end Heap

open Heap

/-- Making data changes nothing that is kept. -/
theorem dataConduct_saves (base : Heap) : DataConduct base.Saves base.Saves where
  along := Saves.composes base
  within := Saves.composes base
  weaken := id
  close := Saves.truncateRoots
  addRoot := Saves.addRoot
  note _ _ := .ofSame (.ofEq rfl rfl rfl rfl) rfl rfl
  allocate h _ _ := .allocate h _
  intern := Saves.intern

namespace HeapM

variable {ε α β : Type} {base h : Heap} {env : Env}

/-! ## New environments -/

theorem saves_child (h : Heap) (env : Env) : Obeys base.Saves h (child env) := by
  have c := dataConduct_saves base
  exact c.scope (c.root_bind (.bind c.within (Saves.allocate _ _) fun _ _ _ => .pure c.within _))

/-- A new environment is in a slot that was not in use. -/
theorem child_hidden (s : base.Saved h) {child : Env} {h' : Heap}
    (made : HeapM.child env h = .ok child h') :
    ∀ i, child.value = .slot i → ¬ base.Reachable i := by
  have body : HeapM.child env h = scope (fun _ =>
      (allocate (.environment .nil (some env)) >>= fun v => pure ⟨v⟩ : HeapM Fatal Env)
        (h.addRoot env.value)) h := rfl
  have s' := ((Saves.addRoot h env.value).saved s).makeRoom
  rw [body] at made
  simp only [scope, Bind.bind, EStateM.bind] at made
  rcases allocate_cases (h.addRoot env.value) (.environment .nil (some env)) with
    ⟨_, step⟩ | ⟨_, step⟩
  · rw [step] at made
    cases made
    intro i name reached
    rcases s'.tidy.places_insert (.environment .nil (some env)) with ⟨j, value, p⟩
    cases value.symm.trans name
    exact p.fresh (s'.reachable reached).occupied
  · rw [step] at made
    cases made

/-- A new environment is filled before anything that is kept refers to it. -/
theorem saves_populate (h : Heap) (env : Env) (params args : Value) :
    Obeys base.Saves h (env.populate params args) := by
  refine ⟨conduct_keepsRoots.obeys_populate trivial params args, fun s => ?_⟩
  have c := dataConduct_saves base
  have saves : Obeys base.Saves h (env.populate params args) := by
    refine .bind c.along (saves_child h env) fun child h' made => c.root_bind (.get_bind ?_)
    have hidden := child_hidden s made
    have sets : ∀ h value, base.Saves h (h.setBindings child value) := fun h value =>
      ⟨.setBindings h child value, fun s => s.setBindings hidden value⟩
    exact .bind c.along (.bindAll c.along (c.obeys_define sets) _ _ args) fun _ _ _ =>
      .pure c.along _
  exact saves.saved s

theorem saves_extend (h : Heap) (env : Env) (params args : Value) :
    Obeys base.Saves h (env.extend params args) :=
  (dataConduct_saves base).obeys_extend_of_populate (saves_populate _ env params args)

/-! ## Failing -/

/-- If an operation fails, `R` holds between `h` and the heap that it leaves. -/
def Aborts (R : Heap → Heap → Prop) (h : Heap) (op : HeapM ε α) : Prop :=
  ∀ e h', op h = .error e h' → R h h'

namespace Aborts

variable {R : Heap → Heap → Prop} {op op' : HeapM ε α} {next : α → HeapM ε β}

theorem ofObeys (obeys : Obeys R h op) : Aborts R h op := by
  intro e h' fails
  unfold Obeys heapAfter at obeys
  rwa [fails] at obeys

/-- An operation that succeeds has nothing to leave as it was. -/
theorem ofOk {a : α} {h' : Heap} (succeeds : op h = .ok a h') : Aborts R h op := by
  intro e h'' fails
  cases succeeds.symm.trans fails

theorem congr (same : op h = op' h) (aborts : Aborts R h op') : Aborts R h op :=
  fun e h' fails => aborts e h' (same.symm.trans fails)

theorem get_bind {f : Heap → HeapM ε β} (aborts : Aborts R h (f h)) :
    Aborts R h (get >>= f) := aborts

/-- Only what comes last may do more than `R` allows. -/
theorem bind (c : Composes R) (first : Obeys R h op)
    (rest : ∀ a h', op h = .ok a h' → Aborts R h' (next a)) : Aborts R h (op >>= next) := by
  intro e h' fails
  unfold Obeys heapAfter at first
  simp only [Bind.bind, EStateM.bind] at fails
  cases step : op h with
  | ok a h₁ =>
      rw [step] at first fails
      exact c.trans first (rest a h₁ step e h' fails)
  | error e₁ h₁ =>
      rw [step] at first fails
      cases fails
      exact first

/-- Handing on a value cannot fail any more. -/
theorem bind_pure {f : α → β} (aborts : Aborts R h op) :
    Aborts R h (op >>= fun a => pure (f a)) := by
  intro e h' fails
  simp only [Bind.bind, EStateM.bind] at fails
  cases step : op h with
  | ok a h₁ =>
      rw [step] at fails
      cases fails
  | error e₁ h₁ =>
      rw [step] at fails
      cases fails
      exact aborts _ _ step

theorem scope (close : ∀ h', R h h' → R h (h'.truncateRoots h.roots.length))
    (aborts : Aborts R h op) : Aborts R h (HeapM.scope op) := by
  intro e h' fails
  unfold HeapM.scope at fails
  cases step : op h with
  | ok a h₁ =>
      rw [step] at fails
      cases fails
  | error e₁ h₁ =>
      rw [step] at fails
      cases fails
      exact close h₁ (aborts _ h₁ step)

end Aborts

section Calls

variable {who : String} {value args : Value}

theorem aborts_raise (h : Heap) (kind : ErrorKind) (message : String) :
    Aborts base.Saves h (raise kind message) :=
  .ofObeys ((dataConduct_saves base).obeys_raise h kind message)

theorem aborts_withThree {body : Value → Value → Value → HeapM Fatal Value}
    (aborts : ∀ a b c, Aborts base.Saves h (body a b c)) :
    Aborts base.Saves h (withThree who args body) := by
  refine .get_bind ?_
  split
  · exact aborts _ _ _
  · exact aborts_raise h _ _
  · exact aborts_raise h _ _

theorem aborts_withSymbol {body : HeapM Fatal Value} (aborts : Aborts base.Saves h body) :
    Aborts base.Saves h (withSymbol who value body) := by
  refine .get_bind ?_
  split
  · exact aborts
  · exact .ofObeys ((dataConduct_saves base).obeys_wrongKind h _ _ _)

theorem aborts_withEnv {body : Env → HeapM Fatal Value}
    (aborts : ∀ env, Aborts base.Saves h (body env)) :
    Aborts base.Saves h (withEnv who value body) := by
  refine .get_bind ?_
  split
  · exact aborts _
  · exact .ofObeys ((dataConduct_saves base).obeys_wrongKind h _ _ _)

/-- An assignment fails without having assigned anything. -/
theorem aborts_assign (h : Heap) (env : Env) (symbol value : Value) :
    Aborts base.Saves h (env.set symbol value >>= valueOr fun _ => value) := by
  rcases env.set_cases symbol value h with ⟨binding, _, step⟩ | ⟨_, step⟩
  · have succeeds : (env.set symbol value >>= valueOr fun _ => value : HeapM Fatal Value) h =
        .ok value (h.setCdr binding value) := by
      simp only [Bind.bind, EStateM.bind, step]
      rfl
    exact .ofOk succeeds
  · have raises : (env.set symbol value >>= valueOr fun _ => value : HeapM Fatal Value) h =
        (Env.unbound h symbol).toValue h := by
      simp only [Bind.bind, EStateM.bind, step]
      rfl
    exact .congr raises (aborts_raise h _ _)

/-- A definition changes the bindings last, once both of its pairs are made. -/
theorem aborts_define (h : Heap) (env : Env) (symbol value : Value) :
    Aborts base.Saves h (env.define symbol value) := by
  have c := dataConduct_saves base
  refine .scope (fun _ => c.close) (.bind c.along (Saves.addRoot h env.value) fun _ h₀ _ => ?_)
  refine .bind c.along (c.obeys_cons h₀ symbol value) fun binding h₁ _ => ?_
  refine .get_bind (.bind c.along (c.obeys_cons h₁ binding _) fun bindings h₂ _ => ?_)
  have done : (modify fun h => h.setBindings env bindings : HeapM Fatal Unit) h₂ =
      .ok () (h₂.setBindings env bindings) := rfl
  exact .ofOk done

/-- A call of a primitive that fails has changed nothing that is kept. -/
theorem aborts_call (h : Heap) (p : Primitive) (args : Value) :
    Aborts base.Saves h (p.call args) := by
  have c := dataConduct_saves base
  cases p with
  | setVariable =>
      exact aborts_withThree fun symbol value env => aborts_withSymbol <| aborts_withEnv fun env =>
        aborts_assign h env symbol value
  | defineVariable =>
      exact aborts_withThree fun symbol value env => aborts_withSymbol <| aborts_withEnv fun env =>
        .bind_pure (aborts_define h env symbol value)
  | extendEnvironment =>
      refine aborts_withThree fun params values env => aborts_withEnv fun env => .ofObeys ?_
      exact .bind c.along (saves_extend h env params values) fun _ h' _ => c.obeys_valueOr h' _ _
  | _ => exact .ofObeys (c.obeys_call_data h rfl args)

end Calls

end HeapM

end Lisplet
