import Lisplet.Proofs.Environment
import Lisplet.Proofs.Simulation.Appearance
import Lisplet.Proofs.Simulation.Construction

/-!
# Binding — environments that correspond

Looking up, defining and assigning a symbol and binding parameters do the same on corresponding
heaps. Where they fail, they fail for the same reason, in words that resemble each other.
-/

namespace Lisplet

namespace Simulation

open Text (Resembles)

/-- Two binding operations both succeed, or fail with messages that resemble each other. -/
inductive Binds {α β : Type} (R : α → β → Prop) :
    Except BindingError α → Except BindingError β → Prop where
  | ok {a : α} {b : β} : R a b → Binds R (.ok a) (.ok b)
  | error {e e' : BindingError} : e'.kind = e.kind → Resembles e.message e'.message →
      Binds R (.error e) (.error e')

variable {ρ : Pairing} {h h' : Heap} {env env' : Env} {symbol symbol' value value' : Value}

/-! ## Looking up -/

theorem Simulates.unbound_binds {α β : Type} {R : α → β → Prop} (s : Simulates ρ h h')
    (twins : Twins ρ .datum symbol symbol') :
    Binds R (.error (Env.unbound h symbol)) (.error (Env.unbound h' symbol')) := by
  refine .error rfl ?_
  have name : Resembles ((h.symbolName? symbol).getD (h.write symbol))
      ((h'.symbolName? symbol').getD (h'.write symbol')) := by
    rw [s.symbolName?_eq twins]
    cases h.symbolName? symbol with
    | some name => exact .refl name
    | none => exact s.print_resembles twins .write
  exact (Text.Resembles.refl "unbound variable: ").append name

theorem Simulates.lookup_binds (s : Simulates ρ h h')
    (twinsEnv : Twins ρ .frame env.value env'.value) (twins : Twins ρ .datum symbol symbol') :
    Binds (Twins ρ .datum) (env.lookup h symbol) (env'.lookup h' symbol') := by
  unfold Env.lookup
  rcases rel_cases (s.binding?_rel twinsEnv twins) with ⟨none, none'⟩ |
    ⟨binding, binding', found, found', twinBinding⟩
  · rw [none, none']
    exact s.unbound_binds twins
  · rw [found, found']
    simp only [Option.bind_some]
    rcases rel_cases (s.cdr?_rel twinBinding) with ⟨ends, ends'⟩ | ⟨v, v', goes, goes', twinValue⟩
    · rw [ends, ends']
      exact s.unbound_binds twins
    · rw [goes, goes']
      exact .ok twinValue

/-! ## Defining and assigning -/

theorem agrees_define (s : Simulates ρ h h') (twinsEnv : Twins ρ .frame env.value env'.value)
    (twinSymbol : Twins ρ .datum symbol symbol') (twinValue : Twins ρ .datum value value') :
    Agrees ρ h h' (env.define symbol value) (env'.define symbol' value')
      fun _ _ _ _ => True := by
  refine .scope s ?_ fun _ _ _ _ _ _ => trivial
  refine .root_bind s twinsEnv fun s₁ keptEnv => ?_
  refine .bind (agrees_cons s₁ (.binding twinSymbol twinValue)) ?_
  intro σ h₂ h₂' binding binding' s₂ retains twinBinding
  refine .get_bind ?_
  -- The environment is rooted, so its bindings are still there to be extended.
  have keptEnv := retains.kept keptEnv
  have twinBindings := (s₂.frame_twins keptEnv.twins).1
  refine .bind (agrees_cons s₂ (.spine twinBinding twinBindings)) ?_
  intro τ h₃ h₃' list list' s₃ retains' twinList
  exact agrees_setBindings s₃ (retains'.kept keptEnv).twins twinList

/-- An assignment allocates nothing, so all pairs stay. -/
theorem agrees_set (s : Simulates ρ h h') (twinsEnv : Twins ρ .frame env.value env'.value)
    (twinSymbol : Twins ρ .datum symbol symbol') (twinValue : Twins ρ .datum value value') :
    Agrees ρ h h' (env.set symbol value) (env'.set symbol' value')
      fun σ _ x x' => Binds (fun _ _ => True) x x' ∧ σ = ρ := by
  unfold Agrees
  -- Either the symbol is bound on both sides or on neither.
  rcases rel_cases (s.binding?_rel twinsEnv twinSymbol) with ⟨none, none'⟩ |
    ⟨binding, binding', found, found', twinBinding⟩
  · rcases env.set_cases symbol value h with ⟨binding, found, _⟩ | ⟨_, step⟩
    · rw [none] at found
      cases found
    · rcases env'.set_cases symbol' value' h' with ⟨binding', found', _⟩ | ⟨_, step'⟩
      · rw [none'] at found'
        cases found'
      · rw [step, step']
        exact .ends s (.refl ρ h) ⟨s.unbound_binds twinSymbol, rfl⟩
  · rcases env.set_cases symbol value h with ⟨b, same, step⟩ | ⟨none, _⟩
    · rcases env'.set_cases symbol' value' h' with ⟨b', same', step'⟩ | ⟨none', _⟩
      · rw [found] at same
        rw [found'] at same'
        cases same
        cases same'
        have changed := simulates_setCdr s twinBinding twinValue
        rw [step, step']
        exact .ends changed.1 changed.2 ⟨.ok trivial, rfl⟩
      · rw [found'] at none'
        cases none'
    · rw [found] at none
      cases none

theorem agrees_definePrimitive (s : Simulates ρ h h')
    (keptEnv : Kept ρ h .frame env.value env'.value) {p : Primitive}
    (standard : p ∈ Primitive.standard) :
    Agrees ρ h h' (env.definePrimitive p) (env'.definePrimitive p) fun _ _ _ _ => True := by
  refine .bind (agrees_intern s p.name) ?_
  intro σ h₁ h₁' name name' s₁ retains keptName
  refine .bind (agrees_atom s₁ (o := .primitive p) standard fun _ => nofun) ?_
  intro τ h₂ h₂' value value' s₂ retains' twinValue
  have keptEnv := (retains.trans retains').kept keptEnv
  exact agrees_define s₂ keptEnv.twins (retains'.kept keptName).twins twinValue

theorem agrees_definePrimitives (s : Simulates ρ h h')
    (twinsEnv : Twins ρ .frame env.value env'.value) {primitives : List Primitive}
    (standard : ∀ p ∈ primitives, p ∈ Primitive.standard) :
    Agrees ρ h h' (env.definePrimitives primitives) (env'.definePrimitives primitives)
      fun _ _ _ _ => True := by
  -- Induction on the table, with the environment kept while the pairing changes.
  have defines : ∀ ρ h h', Simulates ρ h h' → Kept ρ h .frame env.value env'.value →
      Agrees ρ h h' (primitives.forM env.definePrimitive) (primitives.forM env'.definePrimitive)
        fun _ _ _ _ => True := by
    induction primitives with
    | nil => exact fun ρ h h' s _ => .pure s trivial
    | cons p primitives ih =>
        intro ρ h h' s keptEnv
        have first := standard p List.mem_cons_self
        have rest := ih fun q member => standard q (List.mem_cons_of_mem p member)
        refine .bind (agrees_definePrimitive s keptEnv first) ?_
        intro σ h₁ h₁' _ _ s₁ retains _
        exact rest σ h₁ h₁' s₁ (retains.kept keptEnv)
  refine .scope s ?_ fun _ _ _ _ _ _ => trivial
  exact .root_bind s twinsEnv fun s₁ keptEnv => defines _ _ _ s₁ keptEnv

/-! ## Parameters -/

section Parameters

variable {params params' args args' tail tail' : Value}

theorem Simulates.notASymbol_binds {α β : Type} {R : α → β → Prop} (s : Simulates ρ h h')
    (twins : Twins ρ .datum value value') :
    Binds R (.error (.notASymbol (h.write value))) (.error (.notASymbol (h'.write value'))) :=
  .error rfl ((Text.Resembles.refl "parameter is not a symbol: ").append
    (s.print_resembles twins .write))

theorem Simulates.shape_binds (s : Simulates ρ h h') (twins : Twins ρ .datum params params') :
    Binds Eq (Env.shape h params) (Env.shape h' params') := by
  rcases s.exists_spine (.inl rfl) twins with
    ⟨items, tail, items', tail', spine, spine', twinItems, twinTail⟩
  -- The first parameter that is no symbol has the same place in both lists.
  have misplaced := find?_rel twinItems (fun param => !h.isSymbol param)
    (fun param => !h'.isSymbol param) fun v v' twins => by rw [s.isSymbol_eq twins]
  unfold Env.shape
  rw [Heap.spine_eq spine, Heap.spine_eq spine']
  dsimp only
  rcases rel_cases misplaced with ⟨none, none'⟩ | ⟨param, param', found, found', twinParam⟩
  · rw [none, none', twinTail.isNil_eq, s.isSymbol_eq twinTail, twinItems.length_eq]
    dsimp only
    split
    · exact .ok rfl
    · split
      · exact .ok rfl
      · exact s.notASymbol_binds twinTail
  · rw [found, found']
    exact s.notASymbol_binds twinParam

theorem agrees_bindAll {params params' : List Value} (s : Simulates ρ h h')
    (keptEnv : Kept ρ h .frame env.value env'.value)
    (keptParams : List.Forall₂ (Kept ρ h .datum) params params')
    (keptTail : Kept ρ h .datum tail tail') (keptArgs : Kept ρ h .datum args args') :
    Agrees ρ h h' (env.bindAll params tail args) (env'.bindAll params' tail' args')
      fun _ _ _ _ => True := by
  -- Induction on the parameters; what is left of the arguments stays kept.
  induction params generalizing ρ h h' params' args args' with
  | nil =>
      cases keptParams
      unfold Env.bindAll
      rw [keptTail.twins.isNil_eq]
      split
      · exact agrees_define s keptEnv.twins keptTail.twins keptArgs.twins
      · exact .pure s trivial
  | cons param params ih =>
      rcases keptParams with _ | ⟨keptParam, keptParams⟩
      refine .get_bind ?_
      rcases rel_cases (keptArgs.pair?_rel s.toCorresponds) with ⟨ends, ends'⟩ |
        ⟨⟨arg, rest⟩, ⟨arg', rest'⟩, goes, goes', keptArg, keptRest⟩
      · rw [ends, ends']
        exact .pure s trivial
      · rw [goes, goes']
        refine .bind (agrees_define s keptEnv.twins keptParam.twins keptArg.twins) ?_
        intro σ h₁ h₁' _ _ s₁ retains _
        exact ih s₁ (retains.kept keptEnv) (keptParams.imp fun _ _ => retains.kept)
          (retains.kept keptTail) (retains.kept keptRest)

theorem agrees_extend (s : Simulates ρ h h') (twinsEnv : Twins ρ .frame env.value env'.value)
    (twinParams : Twins ρ .datum params params') (twinArgs : Twins ρ .datum args args') :
    Agrees ρ h h' (env.extend params args) (env'.extend params' args') fun σ _ x x' =>
      Binds (fun child child' : Env => Twins σ .frame child.value child'.value) x x' := by
  refine .get_bind ?_
  have shapes := s.shape_binds twinParams
  generalize Env.shape h params = x at shapes ⊢
  generalize Env.shape h' params' = x' at shapes ⊢
  cases shapes with
  | error kind message => exact .pure s (.error kind message)
  | @ok shape _ same =>
      cases same
      dsimp only
      rw [s.listLength_eq twinArgs]
      split
      · exact .pure s (.error rfl (.refl _))
      · refine .scope s ?_ fun _ _ _ _ _ bound => bound
        refine .root_bind s twinParams fun s₁ keptParams => ?_
        refine .root_bind s₁ twinArgs fun s₂ keptArgs => ?_
        refine .bind (agrees_child s₂ twinsEnv) ?_
        intro σ h₃ h₃' child child' s₃ retains twinChild
        refine .root_bind s₃ twinChild fun s₄ keptChild => ?_
        refine .get_bind ?_
        -- Rooted before the child was made, the lists are the same in all that follows.
        have keptParams := (retains.kept (keptParams.addRoot args)).addRoot child.value
        have keptArgs := (retains.kept keptArgs).addRoot child.value
        rcases s₄.exists_spine (.inl rfl) keptParams.twins with
          ⟨names, tail, names', tail', spine, spine', twinNames, twinTail⟩
        have tethered := keptParams.spine s₄.toCorresponds spine
        have keptNames := ((List.forall₂_and_left names names').2 ⟨tethered.1, twinNames⟩).imp
          fun u u' kept => (⟨kept.1, kept.2⟩ : Kept σ _ .datum u u')
        rw [Heap.spine_eq spine, Heap.spine_eq spine']
        refine .bind (agrees_bindAll s₄ keptChild keptNames ⟨tethered.2, twinTail⟩ keptArgs) ?_
        intro τ h₅ h₅' _ _ s₅ retains' _
        exact .pure s₅ (.ok (retains'.kept keptChild).twins)

end Parameters

/-! ## Error values -/

/-- What a form may give: corresponding data or corresponding error values. -/
def Answers (ρ : Pairing) (v v' : Value) : Prop := Twins ρ .datum v v' ∨ Twins ρ .fault v v'

theorem agrees_toValue (s : Simulates ρ h h') {e e' : BindingError} (kind : e'.kind = e.kind)
    (message : Resembles e.message e'.message) :
    Agrees ρ h h' e.toValue e'.toValue fun σ _ v v' => Answers σ v v' := by
  unfold BindingError.toValue
  rw [kind]
  exact (agrees_raise s e.kind message).mono fun _ _ _ _ twins => .inr twins

end Simulation

end Lisplet
