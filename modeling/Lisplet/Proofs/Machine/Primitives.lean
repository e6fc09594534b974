import Lisplet.Proofs.Termination.Evaluation

/-!
# Primitives — the operations of a register machine come to an end

A machine calls the primitives that the root environment binds and some of its own, which print and
which work on environments. These too come to an end with unbounded walks and keep the heap orderly,
if the arguments are kept: a definition allocates, and gives back one of its arguments after that.
-/

namespace Lisplet

namespace Termination

variable {d : Layout} {h : Heap} {v args : Value}

/-! ## Arguments that are kept -/

section Arguments

theorem completes_withThree (a : Orderly d h) (who : String) (kept : Kept d h .datum args)
    {body' : Value → Value → Value → UnboundedM Value}
    {body : Value → Value → Value → HeapM Fatal Value}
    (continues : ∀ x y z, Kept d h .datum x → Kept d h .datum y → Kept d h .datum z →
      Completes d h (body' x y z) (body x y z) fun d₁ h₁ v => Used d₁ h₁ .datum v) :
    Completes d h (Unbounded.withThree who args body') (HeapM.withThree who args body)
      fun d₁ h₁ v => Used d₁ h₁ .datum v := by
  refine .get_bind (.await_bind (a.items?_ends (kept.used a.toWellFormed)) ?_)
  cases found : h.items? args with
  | none => exact .lift (maintains_raise a _ _)
  | some items =>
      have parts := kept.items a found
      rcases items with _ | ⟨x, _ | ⟨y, _ | ⟨z, _ | ⟨u, rest⟩⟩⟩⟩
      · exact .lift (maintains_raise a _ _)
      · exact .lift (maintains_raise a _ _)
      · exact .lift (maintains_raise a _ _)
      · exact continues x y z (parts x (by simp)) (parts y (by simp)) (parts z (by simp))
      · exact .lift (maintains_raise a _ _)

theorem completes_withNone (a : Orderly d h) (who : String) (used : Used d h .datum args)
    {body' : UnboundedM Value} {body : HeapM Fatal Value}
    (continues : Completes d h body' body fun d₁ h₁ v => Used d₁ h₁ .datum v) :
    Completes d h (Unbounded.withNone who args body') (HeapM.withNone who args body)
      fun d₁ h₁ v => Used d₁ h₁ .datum v := by
  refine .get_bind (.await_bind (a.items?_ends used) ?_)
  cases found : h.items? args with
  | none => exact .lift (maintains_raise a _ _)
  | some items =>
      rcases items with _ | ⟨x, rest⟩
      · exact continues
      · exact .lift (maintains_raise a _ _)

theorem completes_withSymbol (a : Orderly d h) (who : String) (symbol : Value)
    {body' : UnboundedM Value} {body : HeapM Fatal Value}
    (continues : Completes d h body' body fun d₁ h₁ v => Used d₁ h₁ .datum v) :
    Completes d h (Unbounded.withSymbol who symbol body') (HeapM.withSymbol who symbol body)
      fun d₁ h₁ v => Used d₁ h₁ .datum v :=
  .get_bind (.ite (fun _ => continues) fun _ => .lift (maintains_wrongKind a _ _ _))

theorem Suited.used_of_env? (a : Suited d h) {env : Env} (isEnv : h.env? v = some env) :
    Used d h .frame env.value := by
  obtain rfl := value_of_env? isEnv
  unfold Heap.env? Heap.kind at isEnv
  cases env with
  | mk value =>
      cases value with
      | nil => cases isEnv
      | slot i =>
          dsimp only at isEnv
          cases found : h.object? (.slot i) with
          | none => simp [found] at isEnv
          | some o =>
              cases o with
              | environment bindings parent => exact a.used_of_environment found
              | _ => simp [found, Object.kind] at isEnv

theorem completes_withEnv (a : Orderly d h) (who : String) (value : Value)
    {body' : Env → UnboundedM Value} {body : Env → HeapM Fatal Value}
    (continues : ∀ env : Env, Used d h .frame env.value →
      Completes d h (body' env) (body env) fun d₁ h₁ v => Used d₁ h₁ .datum v) :
    Completes d h (Unbounded.withEnv who value body') (HeapM.withEnv who value body)
      fun d₁ h₁ v => Used d₁ h₁ .datum v := by
  refine .get_bind ?_
  cases isEnv : h.env? value with
  | none => exact .lift (maintains_wrongKind a _ _ _)
  | some env => exact continues env (a.used_of_env? isEnv)

end Arguments

/-! ## Printing -/

section Printing

/-- Notes in the journal are no change to any object. -/
theorem notes_eq {items : List Value} (denoted : ∀ v ∈ items, ∃ tree, h.Denotes v tree)
    {h' : Heap} (same : ∀ v, h'.object? v = h.object? v) :
    items.foldl (fun h v => h.note (.printed (h.display v))) h' =
      (items.map h.display).foldl (fun h text => h.note (.printed text)) h' := by
  induction items generalizing h' with
  | nil => rfl
  | cons v items ih =>
      rcases denoted v List.mem_cons_self with ⟨tree, denotes⟩
      have there : h'.Denotes v tree := denotes.transfer fun u o found => (same u).trans found
      have text : h'.display v = h.display v :=
        (Heap.print_eq .display there).trans (Heap.print_eq .display denotes).symm
      rw [List.foldl_cons, List.map_cons, List.foldl_cons, text]
      exact ih (fun u member => denoted u (List.mem_cons_of_mem v member)) same

theorem orderly_notes (a : Orderly d h) (texts : List String) :
    Orderly d (texts.foldl (fun h text => h.note (.printed text)) h) ∧
      Retains d h d (texts.foldl (fun h text => h.note (.printed text)) h) := by
  induction texts generalizing h with
  | nil => exact ⟨a, .refl d h⟩
  | cons text texts ih =>
      have noted := a.note (.printed text)
      have retains : Retains d h d (h.note (.printed text)) :=
        ⟨.ofEq rfl rfl rfl rfl, fun _ _ => rfl, fun _ _ _ => rfl⟩
      exact ⟨(ih noted).1, retains.trans (ih noted).2⟩

theorem completes_record (a : Orderly d h) (used : Used d h .datum args) :
    Completes d h (Unbounded.record args) (HeapM.printAll args)
      fun d₁ h₁ v => Used d₁ h₁ .datum v := by
  rcases a.exists_spine (.inl rfl) used with ⟨items, tail, spine, all, _⟩
  have printed := mapM_eq_some fun v member => a.print_ends .display (all v member)
  have noted : items.foldl (fun h v => h.note (.printed (h.display v))) h =
      (items.map h.display).foldl (fun h text => h.note (.printed text)) h :=
    notes_eq (fun v member => a.exists_denotes (all v member)) fun _ => rfl
  have kept := orderly_notes a (items.map h.display)
  refine .look_bind (.await_bind (a.spine_ends used) ?_)
  rw [Heap.spine_eq spine]
  refine .await_bind printed (.bind (Q := fun _ _ _ => True) (.modify ?_ kept.1 kept.2 trivial) ?_)
  · rw [Heap.spine_eq spine]
    exact noted
  · exact fun d₁ h₁ _ a₁ _ _ => .pure a₁ (.nil d₁ h₁ nofun)

end Printing

/-! ## All primitives -/

theorem maintains_valueOr_env {x : Except BindingError Env} (a : Orderly d h)
    (used : ∀ env, x = .ok env → Used d h .frame env.value) :
    Maintains d h (HeapM.valueOr Env.value x) fun d₁ h₁ v => Used d₁ h₁ .datum v := by
  cases x with
  | ok env => exact .pure a ⟨(used env rfl).fills.datum, (used env rfl).holds⟩
  | error e => exact maintains_toValue a e

/-- Every primitive comes to an end on arguments that are kept. -/
theorem completes_primitive (a : Orderly d h) (p : Primitive) (kept : Kept d h .datum args) :
    Completes d h (Unbounded.call p args) (p.call args) fun d₁ h₁ v => Used d₁ h₁ .datum v := by
  have used := kept.used a.toWellFormed
  by_cases standard : p ∈ Primitive.standard
  · exact completes_call a standard used
  cases p with
  | print => exact completes_record a used
  | lookupVariable =>
      refine completes_withTwo a _ used fun symbol env usedSymbol _ => ?_
      refine completes_withSymbol a _ symbol (completes_withEnv a _ env fun env usedEnv => ?_)
      refine .get_bind (.await_bind (a.lookup_ends usedEnv usedSymbol) ?_)
      exact .lift (maintains_valueOr a fun v found => a.lookup_used usedEnv found)
  | setVariable =>
      refine completes_withThree a _ kept fun symbol value env keptSymbol keptValue _ => ?_
      refine completes_withSymbol a _ symbol (completes_withEnv a _ env fun env usedEnv => ?_)
      refine .bind (completes_set a usedEnv (keptSymbol.used a.toWellFormed)
        (keptValue.used a.toWellFormed)) fun d₁ h₁ x a₁ _ usedValue => .lift ?_
      cases x with
      | ok _ => exact .pure a₁ usedValue
      | error e => exact maintains_toValue a₁ e
  | defineVariable =>
      refine completes_withThree a _ kept fun symbol value env keptSymbol keptValue _ => ?_
      refine completes_withSymbol a _ symbol (completes_withEnv a _ env fun env usedEnv => ?_)
      -- The new pairs may take any slot but that of the value, which the arguments keep.
      refine .lift (.bind (maintains_define a usedEnv (keptSymbol.used a.toWellFormed)
        (keptValue.used a.toWellFormed)) fun d₁ h₁ _ a₁ retains _ => ?_)
      exact .pure a₁ (retains.used keptValue a₁.toWellFormed)
  | extendEnvironment =>
      refine completes_withThree a _ kept fun params values env keptParams keptValues _ => ?_
      refine completes_withEnv a _ env fun env usedEnv => ?_
      refine .bind (completes_extend a usedEnv (keptParams.used a.toWellFormed)
        (keptValues.used a.toWellFormed)) fun d₁ h₁ x a₁ _ made => ?_
      exact .lift (maintains_valueOr_env a₁ made)
  | globalEnvironment =>
      refine completes_withNone a _ used (.get_bind (.pure a ?_))
      have held := a.roots_held _ .environment
      exact ⟨(a.roots _ .environment).elim id Fills.datum, held⟩
  | question q => cases q <;> exact absurd (by decide) standard
  | arithmetic op => cases op <;> exact absurd (by decide) standard
  | comparison c => cases c <;> exact absurd (by decide) standard
  | _ => exact absurd (by decide) standard

end Termination

end Lisplet
