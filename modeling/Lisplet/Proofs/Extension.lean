import Lisplet.Proofs.Filling

/-!
# Extension — parameters are bound as they are written

An extension looks at the parameters twice: it first counts them and finds out whether all are
symbols, and then binds them one by one while it takes the arguments apart. Whatever the parameters
and the arguments are, the two agree. An extension that refuses its parameters or the number of its
arguments has allocated nothing. Otherwise it makes an environment in which every symbol means what
the last parameter of that name was given, with the rest parameter coming last
(`parameters_are_bound_exactly`).
-/

namespace Lisplet

open Heap.Operation (heapAfter)

/-! ## Shapes -/

/-- A list of parameters has symbols as its elements and ends in nil or in one more symbol. -/
def Heap.IsParameterList (h : Heap) (names : List Value) (tail : Value) : Prop :=
  (∀ name ∈ names, h.isSymbol name = true) ∧ (tail = .nil ∨ h.isSymbol tail = true)

/-- There is an argument for each parameter, and none is left unless there is a rest parameter. -/
def Env.Suffice (names : List Value) (tail : Value) (values : List Value) : Prop :=
  names.length ≤ values.length ∧ (tail = .nil → values.length ≤ names.length)

namespace Env

open Heap

variable {h : Heap} {params args tail : Value} {names values : List Value}

/-- A list of parameters has its shape, and what is none is refused for something that is in it. -/
theorem shape_cases (spine : h.Spine params names tail) :
    (h.IsParameterList names tail ∧ shape h params = .ok ⟨names.length, !tail.isNil⟩) ∨
    ¬ h.IsParameterList names tail ∧ ∃ v ∈ names ++ [tail], h.isSymbol v = false ∧
      shape h params = .error (.notASymbol (h.write v)) := by
  unfold shape
  rw [spine_eq spine]
  dsimp only
  cases misfit : names.find? fun param => !h.isSymbol param with
  | some v =>
      have member := List.mem_of_find?_eq_some misfit
      have isNone : h.isSymbol v = false := by simpa using List.find?_some misfit
      refine .inr ⟨fun fits => ?_, v, List.mem_append_left _ member, isNone, rfl⟩
      cases (fits.1 v member).symm.trans isNone
  | none =>
      have symbols : ∀ name ∈ names, h.isSymbol name = true := by
        simpa using List.find?_eq_none.1 misfit
      cases tail with
      | nil => exact .inl ⟨⟨symbols, .inl rfl⟩, rfl⟩
      | slot i =>
          dsimp only
          cases isSymbol : h.isSymbol (.slot i) with
          | true => exact .inl ⟨⟨symbols, .inr isSymbol⟩, rfl⟩
          | false =>
              refine .inr ⟨fun fits => ?_, .slot i, by simp, isSymbol, rfl⟩
              rcases fits.2 with isNil | isSymbol'
              · cases isNil
              · cases isSymbol.symm.trans isSymbol'

theorem accepts_iff (names : List Value) (tail : Value) (values : List Value) :
    (Shape.mk names.length !tail.isNil).accepts values.length = true ↔
      Suffice names tail values := by
  cases tail with
  | nil => simp [Shape.accepts, Suffice, Value.isNil]
  | slot i => simp [Shape.accepts, Suffice, Value.isNil]

/-- An extension that refuses its operands has done nothing. -/
theorem extend_eq (env : Env) (parameters : h.Spine params names tail)
    (arguments : h.Spine args values .nil) :
    (h.IsParameterList names tail ∧ Suffice names tail values ∧ env.extend params args h =
      HeapM.scope (fun _ => env.populate params args ((h.addRoot params).addRoot args)) h) ∨
    (h.IsParameterList names tail ∧ ¬ Suffice names tail values ∧ env.extend params args h =
      .ok (.error (.arity names.length values.length !tail.isNil)) h) ∨
    ¬ h.IsParameterList names tail ∧ ∃ v ∈ names ++ [tail], h.isSymbol v = false ∧
      env.extend params args h = .ok (.error (.notASymbol (h.write v))) h := by
  unfold extend
  rw [get_bind_apply, listLength_eq arguments]
  rcases shape_cases parameters with ⟨fits, shape⟩ | ⟨misfit, v, member, isNone, shape⟩
  · rw [shape]
    dsimp only
    by_cases enough : Suffice names tail values
    · have accepted := (accepts_iff names tail values).2 enough
      refine .inl ⟨fits, enough, ?_⟩
      rw [accepted]
      rfl
    · have refused := Bool.eq_false_iff.2 (mt (accepts_iff names tail values).1 enough)
      refine .inr (.inl ⟨fits, enough, ?_⟩)
      rw [refused]
      rfl
  · rw [shape]
    exact .inr (.inr ⟨misfit, v, member, isNone, rfl⟩)

end Env

namespace Heap

variable {h h₁ h' : Heap} {env : Env} {params args tail symbol value : Value}
  {names values : List Value} {operands : List Value} {new : List Nat} {c i : Nat}

/-! ## What is the same afterwards -/

/--
`h'` has a new environment in the slot `made`, if there is one, and no other environment is
different: it was there before with all that it leads to, and every symbol meant the same in it.
-/
structure Adds (h : Heap) (operands : List Value) (made : Option Nat) (h' : Heap) : Prop where
  fresh : ∀ c ∈ made, ¬ h.Needed operands c
  kept : ∀ i, h.Needed operands i → h'.object? (.slot i) = h.object? (.slot i)
  others : ∀ i, h'.IsEnvironment (.slot i) → i ∉ made → h.Intact h' i
  lookup_eq : ∀ i s, h'.IsEnvironment (.slot i) → i ∉ made → h.isSymbol s = true →
    (Env.mk (.slot i)).lookup h' s = (Env.mk (.slot i)).lookup h s

/-- What is intact is looked up as before, since symbols are always kept. -/
theorem WellFormed.adds (w : h.WellFormed) {made : Option Nat}
    (acquires : h.Acquires operands new h') (member : ∀ c ∈ made, c ∈ new)
    (lone : ∀ i ∈ new, i ∉ made → ∀ bindings parent,
      h'.object? (.slot i) ≠ some (.environment bindings parent)) :
    h.Adds operands made h' := by
  have others (i : Nat) (isEnv : h'.IsEnvironment (.slot i)) (other : i ∉ made) :
      h.Intact h' i := by
    rcases isEnv with ⟨bindings, parent, found⟩
    refine ((acquires.old i (occupied_of_object? found)).resolve_left fun isNew => ?_).1
    exact lone i isNew other bindings parent found
  refine ⟨fun c isMade => acquires.fresh c (member c isMade), acquires.kept, others, ?_⟩
  intro i s isEnv other isSymbol
  have intact := others i isEnv other
  have agree := w.toArena.agree intact.2
  rcases symbol_reachable w.interned isSymbol with ⟨k, name, rfl, found, reached⟩
  have needed : h.Needed operands k := reached.mono fun _ => .inl
  exact agree.lookup_eq (.inr ⟨i, rfl, .start rfl intact.1⟩) found
    ((acquires.kept k needed).trans found)

theorem Begun.adds (w : h.WellFormed) (g : h.Begun operands c new h') :
    h.Adds operands (some c) h' := by
  refine w.adds g.acquires (fun k isMade => ?_) fun i member other => ?_
  · cases isMade
    exact g.member
  · exact g.lone i member fun same => other (congrArg some same.symm)

/-! ## What symbols mean -/

/--
In the new environment, the rest parameter means what is left of the arguments, any other parameter
means the argument at the last place where it stands, and any other symbol means what it means
outside.
-/
structure Binds (h : Heap) (env : Env) (names : List Value) (tail : Value) (values : List Value)
    (args : Value) (child : Env) (h' : Heap) : Prop where
  parent?_eq : child.parent? h' = some env
  rest : tail ≠ .nil → child.lookup h' tail = .ok (h.rest names.length args) ∧
    h.Spine (h.rest names.length args) (values.drop names.length) .nil
  parameter : ∀ i name, names[i]? = some name → name ∉ names.drop (i + 1) → name ≠ tail →
    ∃ value, values[i]? = some value ∧ child.lookup h' name = .ok value
  inherited : ∀ s, h.isSymbol s = true → s ∉ names → s ≠ tail →
    child.lookup h' s = env.lookup h s

section Matching

theorem lookup_rest (other : symbol ≠ tail) :
    (h.matched names tail values args).lookup symbol =
      (names.zip values).reverse.lookup symbol := by
  unfold matched
  rw [List.lookup_append]
  cases tail with
  | nil => rfl
  | slot i => simp [Value.isNil, List.lookup_cons, beq_false_of_ne other]

theorem lookup_matched_tail (isRest : tail ≠ .nil) :
    (h.matched names tail values args).lookup tail = some (h.rest names.length args) := by
  unfold matched
  cases tail with
  | nil => exact absurd rfl isRest
  | slot i => simp [Value.isNil]

/-- Later entries come first, so the last one of a name is found. -/
theorem lookup_matched_parameter (enough : names.length ≤ values.length)
    (found : names[i]? = some symbol) (last : symbol ∉ names.drop (i + 1))
    (other : symbol ≠ tail) :
    ∃ value, values[i]? = some value ∧
      (h.matched names tail values args).lookup symbol = some value := by
  rcases List.getElem?_eq_some_iff.1 found with ⟨inside, rfl⟩
  have inside' : i < values.length := Nat.lt_of_lt_of_le inside enough
  refine ⟨values[i], List.getElem?_eq_getElem inside', ?_⟩
  have length : i < (names.zip values).length := by simp [inside, inside']
  have split : names.zip values = (names.zip values).take i ++
      (names[i], values[i]) :: (names.zip values).drop (i + 1) := by
    rw [← List.getElem_zip (h := length), List.getElem_cons_drop, List.take_append_drop]
  rw [lookup_rest other, List.lookup_eq_some_iff]
  refine ⟨((names.zip values).drop (i + 1)).reverse, ((names.zip values).take i).reverse, ?_, ?_⟩
  · conv_lhs => rw [split]
    simp
  · intro p member
    have first := List.mem_map_of_mem (f := Prod.fst) (List.mem_reverse.1 member)
    rw [List.map_drop, List.map_fst_zip enough] at first
    exact bne_iff_ne.2 fun same => last (same ▸ first)

theorem lookup_matched_none (absent : symbol ∉ names) (other : symbol ≠ tail) :
    (h.matched names tail values args).lookup symbol = none := by
  rw [lookup_rest other, List.lookup_eq_none_iff]
  intro p member
  have first := (List.of_mem_zip (List.mem_reverse.1 member)).1
  exact bne_iff_ne.2 fun same => absent (same ▸ first)

end Matching

section Looking

variable {entries : List (Value × Value)}

theorem Filled.parent?_eq (f : h.Filled operands env c new entries h') :
    (Env.mk (.slot c)).parent? h' = some env := by
  rcases f.frame with ⟨list, found, _⟩
  exact Env.parent?_eq found

/-- A symbol that has an entry means its value. -/
theorem Filled.lookup_of_some (f : h.Filled operands env c new entries h')
    (entry : entries.lookup symbol = some value) :
    (Env.mk (.slot c)).lookup h' symbol = .ok value := by
  rcases f.frame with ⟨list, found, filled⟩
  have finds := filled.find?_eq symbol
  rw [entry] at finds
  rcases finds with ⟨b, own, cdr⟩
  have listed : (Env.mk (.slot c)).bindings h' = list := Env.bindings_eq found
  rw [← listed] at own
  exact lookup_of_cdr (binding?_of_own own) cdr

/-- A symbol that has none means what it means outside, where nothing has changed. -/
theorem Filled.lookup_of_none (f : h.Filled operands env c new entries h') (w : h.WellFormed)
    (live : h.IsEnvironment env.value) (outer : env.value ∈ operands)
    (isSymbol : h.isSymbol symbol = true) (entry : entries.lookup symbol = none) :
    (Env.mk (.slot c)).lookup h' symbol = env.lookup h symbol := by
  rcases f.frame with ⟨list, found, filled⟩
  have finds := filled.find?_eq symbol
  rw [entry] at finds
  have listed : (Env.mk (.slot c)).bindings h' = list := Env.bindings_eq found
  rw [← listed] at finds
  have outside : (Env.mk (.slot c)).lookup h' symbol = env.lookup h' symbol := by
    unfold Env.lookup
    rw [binding?_of_parent finds f.parent?_eq]
  rw [outside]
  have agree := w.toArena.agree f.acquires.kept
  rcases symbol_reachable w.interned isSymbol with ⟨k, name, rfl, foundK, reached⟩
  refine agree.lookup_eq ?_ foundK ((f.acquires.kept k (reached.mono fun _ => .inl)).trans foundK)
  rcases live with ⟨bindings, parent, foundE⟩
  cases isSlot : env.value with
  | nil => exact .inl rfl
  | slot e =>
      rw [isSlot] at foundE
      exact .inr ⟨e, rfl, .start (.inr (isSlot ▸ outer)) (occupied_of_object? foundE)⟩

theorem Filled.binds (f : h.Filled operands env c new (h.matched names tail values args) h')
    (w : h.WellFormed) (live : h.IsEnvironment env.value) (outer : env.value ∈ operands)
    (arguments : h.Spine args values .nil) (enough : names.length ≤ values.length) :
    h.Binds env names tail values args ⟨.slot c⟩ h' := by
  refine ⟨f.parent?_eq, fun isRest => ⟨f.lookup_of_some (lookup_matched_tail isRest), ?_⟩, ?_, ?_⟩
  · exact spine_rest arguments enough
  · intro i name found last other
    rcases lookup_matched_parameter enough found last other with ⟨value, isValue, entry⟩
    exact ⟨value, isValue, f.lookup_of_some entry⟩
  · exact fun s isSymbol absent other =>
      f.lookup_of_none w live outer isSymbol (lookup_matched_none absent other)

end Looking

/-! ## The whole of it -/

theorem populate_eq (h : Heap) (env : Env) (params args : Value) :
    env.populate params args h =
      match HeapM.child env h with
      | .error e h₁ => .error e h₁
      | .ok child h₁ =>
        match child.bindAll ((h₁.addRoot child.value).spine params).1
          ((h₁.addRoot child.value).spine params).2 args (h₁.addRoot child.value) with
        | .error e h₂ => .error e h₂
        | .ok _ h₂ => .ok (.ok child) h₂ := by
  have body : env.populate params args h = (HeapM.child env >>= fun child h₁ =>
      (child.bindAll ((h₁.addRoot child.value).spine params).1
        ((h₁.addRoot child.value).spine params).2 args >>= fun _ => pure (.ok child) :
          HeapM Fatal (Except BindingError Env)) (h₁.addRoot child.value) :
            HeapM Fatal (Except BindingError Env)) h := rfl
  rw [body]
  simp only [Bind.bind, EStateM.bind]
  cases HeapM.child env h with
  | error e h₁ => rfl
  | ok child h₁ =>
      dsimp only
      cases child.bindAll _ _ args (h₁.addRoot child.value) <;> rfl

/-- A list is there if it has an element or ends in something that is there. -/
theorem within_of_spine {start : Value → Prop} {v tail : Value} {items : List Value}
    (spine : h.Spine v items tail) (isStart : start v)
    (ends : tail = .nil ∨ ∃ o, h.object? tail = some o) : h.Within start v := by
  have there : v = .nil ∨ ∃ o, h.object? v = some o := by
    cases spine with
    | done _ => exact ends
    | step goes _ => exact .inr ⟨_, pair?_eq_some_iff.1 goes⟩
  rcases there with isNil | ⟨o, found⟩
  · exact .inl isNil
  · cases v with
    | nil => exact .inl rfl
    | slot i => exact .inr ⟨i, rfl, .start isStart (occupied_of_object? found)⟩

/-- With the parameters and the arguments rooted, a new environment is made and filled. -/
theorem WellFormed.populate_cases (w : h.WellFormed) (env : Env)
    (parameters : h.Spine params names tail) (arguments : h.Spine args values .nil)
    (fits : h.IsParameterList names tail) (enough : names.length ≤ values.length) :
    (∃ live capacity made h', env.populate params args ((h.addRoot params).addRoot args) =
        .error (.outOfMemory live capacity) h' ∧
      h.Adds [params, args, env.value] made (h'.truncateRoots h.roots.length)) ∨
    ∃ c new h', env.populate params args ((h.addRoot params).addRoot args) =
        .ok (.ok ⟨.slot c⟩) h' ∧
      h.Filled [params, args, env.value] env c new (h.matched names tail values args) h' := by
  rw [populate_eq]
  rcases Filling.start w.toArena.counted env params args with
    ⟨live, capacity, h₁, step, acquires⟩ | ⟨c, h₁, step, filling⟩
  · refine .inl ⟨live, capacity, none, h₁, by rw [step], ?_⟩
    exact w.adds (acquires.truncateRoots _) nofun (List.forall_mem_nil _)
  rw [step]
  dsimp only
  -- The parameters are listed only now, and they are the same as before.
  have agree := w.toArena.agree filling.acquires.kept
  have ends : tail = .nil ∨ ∃ o, h.object? tail = some o := by
    refine fits.2.imp_right fun isSymbol => ?_
    rcases symbol_reachable w.interned isSymbol with ⟨k, name, rfl, found, _⟩
    exact ⟨_, found⟩
  have spine := agree.spine (within_of_spine parameters (.inr (by simp)) ends) parameters
  rw [spine_eq spine]
  rcases filling.bindAll w.toArena tail arguments enough
    (within_of_spine arguments (.inr (by simp)) (.inl rfl)) with
    ⟨live, capacity, new, h', step, begun⟩ | ⟨new, h', step, filled⟩
  · exact .inl ⟨live, capacity, some c, h', by rw [step], (begun.truncateRoots _).adds w⟩
  · rw [List.append_nil] at filled
    exact .inr ⟨c, new, h', by rw [step], filled.toFilled⟩

/-- So an extension that is not refused either has made an environment or has run out of memory. -/
theorem WellFormed.made_of_scope (w : h.WellFormed) (live : h.IsEnvironment env.value)
    (parameters : h.Spine params names tail) (arguments : h.Spine args values .nil)
    (fits : h.IsParameterList names tail) (enough : names.length ≤ values.length)
    (step : env.extend params args h =
      HeapM.scope (fun _ => env.populate params args ((h.addRoot params).addRoot args)) h) :
    (∃ live capacity made h', env.extend params args h = .error (.outOfMemory live capacity) h' ∧
      h.Adds [params, args, env.value] made h') ∨
    ∃ c h', env.extend params args h = .ok (.ok ⟨.slot c⟩) h' ∧
      h.Adds [params, args, env.value] (some c) h' ∧
      h.Binds env names tail values args ⟨.slot c⟩ h' := by
  rw [step]
  unfold HeapM.scope
  rcases w.populate_cases env parameters arguments fits enough with
    ⟨live, capacity, made, h', fails, adds⟩ | ⟨c, new, h', succeeds, filled⟩
  · rw [fails]
    exact .inl ⟨live, capacity, made, _, rfl, adds⟩
  · rw [succeeds]
    have filled := filled.truncateRoots h.roots.length
    exact .inr ⟨c, _, rfl, filled.adds w, filled.binds w live (by simp) arguments enough⟩

end Heap

/--
An extension is refused if its parameters are no list of parameters, and otherwise if the arguments
do not suffice for them; it has then done nothing. If it is not refused, it makes an environment in
which all parameters are bound, unless memory runs out, and in either case no other environment is
different.
-/
theorem parameters_are_bound_exactly {h : Heap} (w : h.WellFormed) {env : Env}
    (live : h.IsEnvironment env.value) {params args tail : Value} {names values : List Value}
    (parameters : h.Spine params names tail) (arguments : h.Spine args values .nil) :
    ((∃ found h', env.extend params args h = .ok (.error (.notASymbol found)) h') ↔
      ¬ h.IsParameterList names tail) ∧
    ((∃ expected got variadic h',
        env.extend params args h = .ok (.error (.arity expected got variadic)) h') ↔
      h.IsParameterList names tail ∧ ¬ Env.Suffice names tail values) ∧
    (∀ e h', env.extend params args h = .ok (.error e) h' → h' = h ∧
      (e = .arity names.length values.length !tail.isNil ∨
        ∃ v ∈ names ++ [tail], h.isSymbol v = false ∧ e = .notASymbol (h.write v))) ∧
    (h.IsParameterList names tail → Env.Suffice names tail values →
      (∃ live capacity made h', env.extend params args h = .error (.outOfMemory live capacity) h' ∧
        h.Adds [params, args, env.value] made h') ∨
      ∃ c h', env.extend params args h = .ok (.ok ⟨.slot c⟩) h' ∧
        h.Adds [params, args, env.value] (some c) h' ∧
        h.Binds env names tail values args ⟨.slot c⟩ h') := by
  rcases Env.extend_eq env parameters arguments with
    ⟨fits, suffice, step⟩ | ⟨fits, refused, step⟩ | ⟨misfit, v, member, isNone, step⟩
  · have made := w.made_of_scope live parameters arguments fits suffice.1 step
    have accepted (e : BindingError) (h' : Heap) :
        env.extend params args h ≠ .ok (.error e) h' := by
      intro refused
      rcases made with ⟨_, _, _, _, fails, _⟩ | ⟨_, _, succeeds, _⟩
      · cases fails.symm.trans refused
      · cases succeeds.symm.trans refused
    refine ⟨⟨?_, fun misfit => absurd fits misfit⟩, ⟨?_, fun both => absurd suffice both.2⟩,
      fun e h' refused => absurd refused (accepted e h'), fun _ _ => made⟩
    · rintro ⟨_, _, refused⟩
      exact absurd refused (accepted _ _)
    · rintro ⟨_, _, _, _, refused⟩
      exact absurd refused (accepted _ _)
  · rw [step]
    refine ⟨⟨?_, fun misfit => absurd fits misfit⟩,
      ⟨fun _ => ⟨fits, refused⟩, fun _ => ⟨_, _, _, _, rfl⟩⟩, ?_,
      fun _ suffice => absurd suffice refused⟩
    · rintro ⟨_, _, ⟨⟩⟩
    · rintro e h' ⟨⟩
      exact ⟨rfl, .inl rfl⟩
  · rw [step]
    refine ⟨⟨fun _ => misfit, fun _ => ⟨_, _, rfl⟩⟩, ⟨?_, fun both => absurd both.1 misfit⟩, ?_,
      fun fits _ => absurd fits misfit⟩
    · rintro ⟨_, _, _, _, ⟨⟩⟩
    · rintro e h' ⟨⟩
      exact ⟨rfl, .inr ⟨v, member, isNone, rfl⟩⟩

/-- The slot 2 has the parameters `(t . t)`, and the slot 3 the arguments `(t)`. -/
def Heap.twofold : Heap :=
  (((Heap.empty 16).insert (.pair (.slot 1) (.slot 1))).2.insert (.pair (.slot 1) .nil)).2

theorem Heap.wellFormed_twofold : Heap.twofold.WellFormed := by
  have w := (Heap.wellFormed_empty 16).insert (o := .pair (.slot 1) (.slot 1)) (by decide) ?_
    fun _ => nofun
  · refine w.insert (by decide) (fun v member => ?_) fun _ => nofun
    rcases List.mem_pair.1 member with rfl | rfl
    · exact holds_slot_iff.2 rfl
    · exact holds_nil _
  · intro v member
    rcases List.mem_pair.1 member with rfl | rfl
    · exact holds_slot_iff.2 rfl
    · exact holds_slot_iff.2 rfl

/-- The rest parameter comes last, so `t` means what is left of the arguments. -/
theorem parameters_are_bound_exactly_twofold :
    ∃ c h', (Env.mk (.slot 0)).extend (.slot 2) (.slot 3) .twofold = .ok (.ok ⟨.slot c⟩) h' ∧
      (Env.mk (.slot c)).lookup h' (.slot 1) = .ok .nil := by
  have live : Heap.twofold.IsEnvironment (Env.mk (.slot 0)).value := ⟨.nil, none, rfl⟩
  have parameters : Heap.twofold.Spine (.slot 2) [.slot 1] (.slot 1) := .step rfl (.done rfl)
  have arguments : Heap.twofold.Spine (.slot 3) [.slot 1] .nil := .step rfl (.done rfl)
  have fits : Heap.twofold.IsParameterList [.slot 1] (.slot 1) :=
    ⟨List.forall_mem_singleton.2 rfl, .inr rfl⟩
  have room : (match (Env.mk (.slot 0)).extend (.slot 2) (.slot 3) .twofold with
      | .ok _ _ => true
      | .error _ _ => false) = true := by decide +kernel
  rcases (parameters_are_bound_exactly Heap.wellFormed_twofold live parameters arguments).2.2.2 fits
    ⟨Nat.le_refl 1, nofun⟩ with ⟨_, _, _, _, fails, _⟩ | ⟨c, h', succeeds, _, binds⟩
  · rw [fails] at room
    cases room
  · exact ⟨c, h', succeeds, (binds.rest nofun).1⟩

end Lisplet
