import Lisplet.Primitive.Call
import Lisplet.Proofs.Simulation.Binding

/-!
# Calling — primitives on arguments that correspond

Each primitive that the root environment binds gives corresponding results for corresponding
arguments. The arguments are not rooted; so a primitive must have read all it needs of them
before it allocates, or root them itself.
-/

namespace Lisplet

namespace Simulation

open HeapM

variable {ρ : Pairing} {h h' : Heap} {args args' v v' w w' : Value}

/-! ## Complaints -/

theorem agrees_complaint (s : Simulates ρ h h') (kind : ErrorKind) (message : String) :
    Agrees ρ h h' (raise kind message) (raise kind message) fun σ _ v v' => Answers σ v v' :=
  (agrees_raise s kind (.refl message)).mono fun _ _ _ _ twins => .inr twins

theorem agrees_wrongKind {r : Role} (s : Simulates ρ h h') (who expected : String)
    (twins : Twins ρ r v v') :
    Agrees ρ h h' (wrongKind who expected v) (wrongKind who expected v')
      fun σ _ v v' => Twins σ .fault v v' := by
  refine .get_bind ?_
  rw [s.kind_eq twins]
  exact agrees_raise s .typeError (.refl _)

theorem agrees_malformed (s : Simulates ρ h h') (form : String) (twins : Twins ρ .datum v v') :
    Agrees ρ h h' (malformed form v) (malformed form v') fun σ _ v v' => Answers σ v v' := by
  refine .get_bind ?_
  refine (agrees_raise s .typeError ?_).mono fun _ _ _ _ twins => .inr twins
  exact (Text.Resembles.refl _).append (s.print_resembles twins .write)

theorem agrees_notCallable (s : Simulates ρ h h') (twins : Twins ρ .datum v v') :
    Agrees ρ h h' (notCallable v) (notCallable v') fun σ _ v v' => Answers σ v v' := by
  refine .get_bind ?_
  refine (agrees_raise s .notCallable ?_).mono fun _ _ _ _ twins => .inr twins
  exact (Text.Resembles.refl _).append (s.print_resembles twins .write)

theorem agrees_valueOr {x x' : Except BindingError Value} (s : Simulates ρ h h')
    (binds : Binds (Twins ρ .datum) x x') :
    Agrees ρ h h' (valueOr id x) (valueOr id x') fun σ _ v v' => Answers σ v v' := by
  cases binds with
  | ok twins => exact .pure s (.inl twins)
  | error kind message => exact agrees_toValue s kind message

/-! ## Argument lists -/

theorem agrees_withOne (s : Simulates ρ h h') (who : String) (twins : Twins ρ .datum args args')
    {body body' : Value → HeapM Fatal Value}
    (continues : ∀ a a', Twins ρ .datum a a' →
      Agrees ρ h h' (body a) (body' a') fun σ _ v v' => Answers σ v v') :
    Agrees ρ h h' (withOne who args body) (withOne who args' body')
      fun σ _ v v' => Answers σ v v' := by
  refine .get_bind ?_
  rcases rel_cases (s.items?_rel twins) with ⟨none, none'⟩ | ⟨items, items', found, found', twins⟩
  · rw [none, none']
    exact agrees_complaint s _ _
  · rw [found, found']
    rcases twins with _ | ⟨first, _ | ⟨second, rest⟩⟩
    · exact agrees_complaint s _ _
    · exact continues _ _ first
    · dsimp only [List.length_cons]
      rw [rest.length_eq]
      exact agrees_complaint s _ _

theorem agrees_withTwo (s : Simulates ρ h h') (who : String) (twins : Twins ρ .datum args args')
    {body body' : Value → Value → HeapM Fatal Value}
    (continues : ∀ a a' b b', Twins ρ .datum a a' → Twins ρ .datum b b' →
      Agrees ρ h h' (body a b) (body' a' b') fun σ _ v v' => Answers σ v v') :
    Agrees ρ h h' (withTwo who args body) (withTwo who args' body')
      fun σ _ v v' => Answers σ v v' := by
  refine .get_bind ?_
  rcases rel_cases (s.items?_rel twins) with ⟨none, none'⟩ | ⟨items, items', found, found', twins⟩
  · rw [none, none']
    exact agrees_complaint s _ _
  · rw [found, found']
    rcases twins with _ | ⟨first, _ | ⟨second, _ | ⟨third, rest⟩⟩⟩
    · exact agrees_complaint s _ _
    · exact agrees_complaint s _ _
    · exact continues _ _ _ _ first second
    · dsimp only [List.length_cons]
      rw [rest.length_eq]
      exact agrees_complaint s _ _

/-! ## Lists and questions -/

/-- A part of a pair is given if there is one, and otherwise the argument is complained of. -/
theorem agrees_part {x x' : Option Value} (s : Simulates ρ h h') (who : String)
    (twins : Twins ρ .datum v v') (parts : Option.Rel (Twins ρ .datum) x x') :
    Agrees ρ h h'
      (match x with
        | some part => pure part
        | none => wrongKind who "pair" v)
      (match x' with
        | some part => pure part
        | none => wrongKind who "pair" v')
      fun σ _ v v' => Answers σ v v' := by
  cases parts with
  | none => exact (agrees_wrongKind s who "pair" twins).mono fun _ _ _ _ twins => .inr twins
  | some twinPart => exact .pure s (.inl twinPart)

theorem agrees_car (s : Simulates ρ h h') (who : String) (twins : Twins ρ .datum v v') :
    Agrees ρ h h' (HeapM.car who v) (HeapM.car who v') fun σ _ v v' => Answers σ v v' := by
  unfold HeapM.car
  rw [twins.isNil_eq]
  split
  · exact .pure s (.inl trivial)
  · exact .get_bind (agrees_part s who twins (s.car?_rel twins))

theorem agrees_cdr (s : Simulates ρ h h') (who : String) (twins : Twins ρ .datum v v') :
    Agrees ρ h h' (HeapM.cdr who v) (HeapM.cdr who v') fun σ _ v v' => Answers σ v v' := by
  unfold HeapM.cdr
  rw [twins.isNil_eq]
  split
  · exact .pure s (.inl trivial)
  · exact .get_bind (agrees_part s who twins (s.cdr?_rel twins))

theorem Corresponds.answer_eq (c : Corresponds ρ h h') (q : Question)
    (twins : Twins ρ .datum v v') : q.answer h' v' = q.answer h v := by
  cases q with
  | isNull | isFalse => exact twins.isNil_eq
  | isAtom => exact congrArg not (c.isPair_eq twins)
  | isPair => exact c.isPair_eq twins
  | isNumber => exact c.isNumber_eq twins
  | isSymbol => exact c.isSymbol_eq twins
  | isString => exact c.isString_eq twins
  | isProcedure => simp only [Question.answer, Heap.isProcedure, c.kind_eq twins]

/-! ## Numbers -/

/-- Two operands are the same number, and no pair is lost on the way; or both are complained of. -/
inductive Yields {α : Type} (ρ σ : Pairing) : Except Value α → Except Value α → Prop where
  | ok (a : α) : σ = ρ → Yields ρ σ (.ok a) (.ok a)
  | error {v v' : Value} : Twins σ .fault v v' → Yields ρ σ (.error v) (.error v')

theorem agrees_operand (s : Simulates ρ h h') (who : String) (twins : Twins ρ .datum v v') :
    Agrees ρ h h' (operand who v) (operand who v') fun σ _ x x' => Yields ρ σ x x' := by
  -- Every object but a number is complained of by its kind, which is the same.
  have wrong : Agrees ρ h h'
      (.error <$> wrongKind who "number" v : HeapM Fatal (Except Value Number))
      (.error <$> wrongKind who "number" v') fun σ _ x x' => Yields ρ σ x x' :=
    (agrees_wrongKind s who "number" twins).map fun _ _ _ _ twins => .error twins
  refine .get_bind ?_
  rcases rel_cases (s.object?_rel twins) with ⟨found, found'⟩ | ⟨o, o', found, found', alike⟩
  · rw [found, found']
    exact wrong
  · rw [found, found']
    cases alike with
    | @plain o isPlain =>
        cases o with
        | int n | fixnum n => exact .pure s (.ok (Number.int n) rfl)
        | float x => exact .pure s (.ok (Number.float x) rfl)
        | ratio numer denom =>
            exact (agrees_raise s .typeError (.refl _)).map fun _ _ _ _ twins => .error twins
        | _ => exact wrong
    | pair _ _ => exact wrong
    | procedure _ _ _ => exact wrong

theorem agrees_operandsOnto {items items' : List Value} (s : Simulates ρ h h') (who : String)
    (found : List Number) (twins : List.Forall₂ (Twins ρ .datum) items items') :
    Agrees ρ h h' (operandsOnto who found items) (operandsOnto who found items')
      fun σ _ x x' => Yields ρ σ x x' := by
  -- Only a complaint allocates, and then no further operand is looked at.
  induction items generalizing h h' items' found with
  | nil =>
      cases twins
      exact .pure s (.ok found rfl)
  | cons v items ih =>
      rcases twins with _ | ⟨twin, twins⟩
      refine .bind (agrees_operand s who twin) ?_
      rintro σ h₁ h₁' _ _ s₁ _ (⟨n, rfl⟩ | complaint)
      · exact ih s₁ (n :: found) twins
      · exact .pure s₁ (.error complaint)

theorem agrees_withNumbers (s : Simulates ρ h h') (who : String)
    (twins : Twins ρ .datum args args') {body : List Number → HeapM Fatal Value}
    (continues : ∀ σ h₁ h₁' numbers, Simulates σ h₁ h₁' →
      Agrees σ h₁ h₁' (body numbers) (body numbers) fun σ _ v v' => Answers σ v v') :
    Agrees ρ h h' (withNumbers who args body) (withNumbers who args' body)
      fun σ _ v v' => Answers σ v v' := by
  refine .get_bind ?_
  rcases rel_cases (s.items?_rel twins) with ⟨none, none'⟩ | ⟨items, items', found, found', twins⟩
  · rw [none, none']
    exact agrees_complaint s _ _
  · rw [found, found']
    refine .bind (agrees_operandsOnto s who [] twins) ?_
    rintro σ h₁ h₁' _ _ s₁ _ (⟨numbers, _⟩ | complaint)
    · exact continues σ h₁ h₁' numbers.reverse s₁
    · exact .pure s₁ (.inr complaint)

theorem agrees_number (s : Simulates ρ h h') (n : Number) :
    Agrees ρ h h' (number n) (number n) fun σ _ v v' => Answers σ v v' := by
  cases n with
  | int n => exact (agrees_atom s (o := .int n) trivial fun _ => nofun).mono fun _ _ _ _ => .inl
  | float x => exact (agrees_atom s (o := .float x) trivial fun _ => nofun).mono fun _ _ _ _ => .inl

theorem agrees_arithmetic (s : Simulates ρ h h') (op : Operator)
    (twins : Twins ρ .datum args args') :
    Agrees ρ h h' (arithmetic op args) (arithmetic op args') fun σ _ v v' => Answers σ v v' := by
  unfold arithmetic
  dsimp only
  rw [twins.isNil_eq]
  split
  · exact agrees_complaint s _ _
  · refine agrees_withNumbers s op.name twins fun σ h₁ h₁' numbers s₁ => ?_
    split
    · exact agrees_number s₁ _
    · exact agrees_complaint s₁ _ _
    · exact agrees_complaint s₁ _ _

theorem agrees_comparison (s : Simulates ρ h h') (c : Comparison)
    (twins : Twins ρ .datum args args') :
    Agrees ρ h h' (comparison c args) (comparison c args') fun σ _ v v' => Answers σ v v' := by
  unfold comparison
  dsimp only
  refine agrees_withNumbers s c.name twins fun σ h₁ h₁' numbers s₁ => ?_
  split
  · exact agrees_complaint s₁ _ _
  · exact .get_bind (.pure s₁ (.inl (s₁.boolean_twins _)))

/-! ## Control -/

theorem agrees_custom (s : Simulates ρ h h') (who : String) (twins : Twins ρ .datum args args') :
    Agrees ρ h h' (custom who args) (custom who args') fun σ _ v v' => Answers σ v v' := by
  refine .get_bind ?_
  rcases rel_cases (s.items?_rel twins) with ⟨none, none'⟩ | ⟨items, items', found, found', twins⟩
  · rw [none, none']
    exact agrees_complaint s _ _
  · rw [found, found']
    refine (agrees_raise s .custom ?_).mono fun _ _ _ _ twins => .inr twins
    refine intercalate_resembles " " ?_
    rw [List.forall₂_map_left_iff, List.forall₂_map_right_iff]
    exact twins.imp fun v v' twins => s.print_resembles twins .display

theorem Corresponds.int?_eq (c : Corresponds ρ h h') (twins : Twins ρ .datum v v') :
    h'.int? v' = h.int? v := by
  unfold Heap.int?
  rcases rel_cases (c.object?_rel twins) with ⟨found, found'⟩ | ⟨o, o', found, found', alike⟩
  · rw [found, found']
  · rw [found, found']
    cases alike with
    | _ => rfl

theorem Corresponds.exitStatus_eq (c : Corresponds ρ h h') (twins : Twins ρ .datum args args') :
    exitStatus h' args' = exitStatus h args := by
  have asked : (h'.car? args').bind h'.int? = (h.car? args).bind h.int? := by
    rcases rel_cases (c.car?_rel twins) with ⟨none, none'⟩ | ⟨v, v', found, found', twin⟩
    · rw [none, none']
      rfl
    · rw [found, found']
      exact c.int?_eq twin
  unfold exitStatus
  rw [asked]

/-! ## All primitives -/

theorem agrees_call (s : Simulates ρ h h') {p : Primitive} (standard : p ∈ Primitive.standard)
    (twins : Twins ρ .datum args args') :
    Agrees ρ h h' (p.call args) (p.call args') fun σ _ v v' => Answers σ v v' := by
  cases p with
  | list => exact .pure s (.inl twins)
  | cons =>
      refine agrees_withTwo s _ twins fun a a' b b' twinA twinB => ?_
      exact (agrees_cons s (.pair twinA twinB)).mono fun _ _ _ _ twins => .inl twins
  | car => exact agrees_withOne s _ twins fun a a' twin => agrees_car s _ twin
  | cdr => exact agrees_withOne s _ twins fun a a' twin => agrees_cdr s _ twin
  | same =>
      refine agrees_withTwo s _ twins fun a a' b b' twinA twinB => ?_
      have same : (a' == b') = (a == b) := by
        rw [Bool.eq_iff_iff, beq_iff_eq, beq_iff_eq]
        exact (s.twins_eq_iff twinA twinB).symm
      refine .get_bind (.pure s (.inl ?_))
      rw [same]
      exact s.boolean_twins _
  | equal =>
      refine agrees_withTwo s _ twins fun a a' b b' twinA twinB => ?_
      refine .get_bind (.pure s (.inl ?_))
      rw [s.equal_eq twinA twinB]
      exact s.boolean_twins _
  | question q =>
      refine agrees_withOne s _ twins fun a a' twin => ?_
      refine .get_bind (.pure s (.inl ?_))
      rw [s.answer_eq q twin]
      exact s.boolean_twins _
  | arithmetic op => exact agrees_arithmetic s op twins
  | comparison c => exact agrees_comparison s c twins
  | error => exact agrees_custom s _ twins
  | exit =>
      refine .get_bind ?_
      rw [s.exitStatus_eq twins]
      exact .throw _
  -- These belong to the register machine, whose environment is another one.
  | print | lookupVariable | setVariable | defineVariable | extendEnvironment
  | globalEnvironment => exact absurd standard (by decide)

end Simulation

end Lisplet
