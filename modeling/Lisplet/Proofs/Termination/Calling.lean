import Lisplet.Proofs.Termination.Operations
import Lisplet.Proofs.Termination.Walks

/-!
# Calling — assignments, extensions and primitives come to an end

An assignment, the extension of an environment and each primitive that the root environment binds
come to an end with unbounded walks too, and keep the heap orderly. The arguments of a primitive
are not rooted; so it must have read all it needs of them before it allocates, or root them itself.
-/

namespace Lisplet

namespace Termination

open Simulation (Role)

variable {d : Layout} {h : Heap} {v args : Value} {env : Env}

/-! ## Assignments -/

section Assignments

variable {symbol value binding : Value}

/-- An assignment changes a binding, which is not part of data. -/
theorem maintains_setCdr (a : Orderly d h) (isBinding : Used d h .binding binding)
    (used : Used d h .datum value) :
    Maintains d h (modify fun h => h.setCdr binding value : HeapM Fatal Unit)
      fun d₁ h₁ _ => Used d₁ h₁ .datum value := by
  have changed := a.setCdr isBinding used
  show Upkept d h _ (.ok () (h.setCdr binding value))
  rcases Heap.setCdr_cases h binding value with ⟨i, car, cdr, rfl, found, step⟩ | ⟨_, step⟩
  · rw [step] at changed ⊢
    refine .ok changed ⟨.put h i _, fun _ _ => rfl, fun k _ use => ?_⟩ ⟨used.fills, ?_⟩
    · rw [Heap.object?_put_ne]
      rintro ⟨⟩
      rw [isBinding.fills.use nofun] at use
      cases use
    · exact (Heap.holds_put_iff (Heap.occupied_of_object? found)).2 used.holds
  · rw [step]
    exact .ok a (.refl d h) used

theorem completes_set (a : Orderly d h) (usedEnv : Used d h .frame env.value)
    (usedSymbol : Used d h .datum symbol) (used : Used d h .datum value) :
    Completes d h (Unbounded.set env symbol value) (env.set symbol value)
      fun d₁ h₁ _ => Used d₁ h₁ .datum value := by
  refine .get_bind (.await_bind (a.binding?_ends usedEnv symbol) ?_)
  cases found : env.binding? h symbol with
  | some binding =>
      refine .bind (.lift (maintains_setCdr a (a.binding_used usedEnv found) used)) ?_
      exact fun d₁ h₁ _ a₁ _ used => .pure a₁ used
  | none => exact .await_bind (a.unbound_ends usedSymbol) (.pure a used)

end Assignments

/-! ## Extensions -/

theorem completes_extend {params : Value} (a : Orderly d h) (usedEnv : Used d h .frame env.value)
    (usedParams : Used d h .datum params) (usedArgs : Used d h .datum args) :
    Completes d h (Unbounded.extend env params args) (env.extend params args)
      fun d₁ h₁ x => ∀ child : Env, x = .ok child → Used d₁ h₁ .frame child.value := by
  refine .get_bind (.await_bind (a.shape_ends usedParams) ?_)
  cases Env.shape h params with
  | error e => exact .pure a nofun
  | ok s =>
      refine .await_bind (a.spine_ends usedArgs) ?_
      refine .ite (fun _ => .pure a nofun) fun _ => ?_
      refine .scope ?_ fun _ _ _ height used child same =>
        (used child same).truncateRoots height
      refine .root_bind a usedParams (.inl rfl) fun a₁ keptParams => ?_
      refine .root_bind a₁ (usedArgs.addRoot params) (.inl rfl) fun a₂ keptArgs => ?_
      refine .bind (.lift (maintains_child a₂ ((usedEnv.addRoot params).addRoot args))) ?_
      intro d₃ h₃ child a₃ retains usedChild
      refine .root_bind a₃ usedChild (.inr rfl) fun a₄ keptChild => ?_
      -- Parameters and arguments lie below the child on the root stack.
      have retains := retains.trans (.addRoot d₃ h₃ child.value)
      have keptParams := retains.kept (keptParams.addRoot args)
      have keptArgs := retains.kept keptArgs
      refine .get_bind (.await_bind (a₄.spine_ends (keptParams.used a₄.toWellFormed)) ?_)
      rcases a₄.exists_spine (.inl rfl) (keptParams.used a₄.toWellFormed) with
        ⟨items, tail, spine, _⟩
      have parts := keptParams.spine a₄.toSuited spine
      rw [Heap.spine_eq spine]
      refine .bind (.lift (maintains_bindAll a₄ keptChild parts.1 parts.2 keptArgs)) ?_
      intro d₅ h₅ _ a₅ retains' _
      refine .pure a₅ fun _ same => ?_
      cases same
      exact retains'.used keptChild a₅.toWellFormed

/-! ## Complaints -/

theorem maintains_wrongKind (a : Orderly d h) (who expected : String) (found : Value) :
    Maintains d h (HeapM.wrongKind who expected found) fun d₁ h₁ v => Used d₁ h₁ .datum v :=
  .get_bind (maintains_raise a _ _)

theorem completes_malformed (a : Orderly d h) (form : String) (used : Used d h .datum v) :
    Completes d h (Unbounded.malformed form v) (HeapM.malformed form v)
      fun d₁ h₁ v => Used d₁ h₁ .datum v :=
  .get_bind (.await_bind (a.print_ends .write used) (.lift (maintains_raise a _ _)))

theorem completes_notCallable (a : Orderly d h) (used : Used d h .datum v) :
    Completes d h (Unbounded.notCallable v) (HeapM.notCallable v)
      fun d₁ h₁ v => Used d₁ h₁ .datum v :=
  .get_bind (.await_bind (a.print_ends .write used) (.lift (maintains_raise a _ _)))

theorem maintains_toValue (a : Orderly d h) (e : BindingError) :
    Maintains d h e.toValue fun d₁ h₁ v => Used d₁ h₁ .datum v := maintains_raise a _ _

theorem maintains_valueOr {x : Except BindingError Value} (a : Orderly d h)
    (used : ∀ v, x = .ok v → Used d h .datum v) :
    Maintains d h (HeapM.valueOr id x) fun d₁ h₁ v => Used d₁ h₁ .datum v := by
  cases x with
  | ok v => exact .pure a (used v rfl)
  | error e => exact maintains_toValue a e

/-! ## Argument lists -/

theorem completes_withOne (a : Orderly d h) (who : String) (used : Used d h .datum args)
    {body' : Value → UnboundedM Value} {body : Value → HeapM Fatal Value}
    (continues : ∀ x, Used d h .datum x →
      Completes d h (body' x) (body x) fun d₁ h₁ v => Used d₁ h₁ .datum v) :
    Completes d h (Unbounded.withOne who args body') (HeapM.withOne who args body)
      fun d₁ h₁ v => Used d₁ h₁ .datum v := by
  refine .get_bind (.await_bind (a.items?_ends used) ?_)
  cases found : h.items? args with
  | none => exact .lift (maintains_raise a _ _)
  | some items =>
      have parts := (a.items_used used found).2
      rcases items with _ | ⟨x, _ | ⟨y, rest⟩⟩
      · exact .lift (maintains_raise a _ _)
      · exact continues x (parts x List.mem_cons_self)
      · exact .lift (maintains_raise a _ _)

theorem completes_withTwo (a : Orderly d h) (who : String) (used : Used d h .datum args)
    {body' : Value → Value → UnboundedM Value} {body : Value → Value → HeapM Fatal Value}
    (continues : ∀ x y, Used d h .datum x → Used d h .datum y →
      Completes d h (body' x y) (body x y) fun d₁ h₁ v => Used d₁ h₁ .datum v) :
    Completes d h (Unbounded.withTwo who args body') (HeapM.withTwo who args body)
      fun d₁ h₁ v => Used d₁ h₁ .datum v := by
  refine .get_bind (.await_bind (a.items?_ends used) ?_)
  cases found : h.items? args with
  | none => exact .lift (maintains_raise a _ _)
  | some items =>
      have parts := (a.items_used used found).2
      rcases items with _ | ⟨x, _ | ⟨y, _ | ⟨z, rest⟩⟩⟩
      · exact .lift (maintains_raise a _ _)
      · exact .lift (maintains_raise a _ _)
      · exact continues x y (parts x List.mem_cons_self) (parts y (by simp))
      · exact .lift (maintains_raise a _ _)

/-! ## Lists and truth values -/

theorem Suited.part_used (a : Suited d h) (used : Used d h .datum v) {car cdr : Value}
    (goes : h.pair? v = some (car, cdr)) : Used d h .datum car ∧ Used d h .datum cdr :=
  a.pair_used used.fills (Heap.pair?_eq_some_iff.1 goes)

theorem maintains_car (a : Orderly d h) (who : String) (used : Used d h .datum v) :
    Maintains d h (HeapM.car who v) fun d₁ h₁ v => Used d₁ h₁ .datum v := by
  unfold HeapM.car
  split
  · exact .pure a (.nil d h nofun)
  · refine .get_bind ?_
    split
    · next part found =>
      rcases Option.map_eq_some_iff.1 found with ⟨⟨car, cdr⟩, goes, rfl⟩
      exact .pure a (a.part_used used goes).1
    · exact maintains_wrongKind a _ _ _

theorem maintains_cdr (a : Orderly d h) (who : String) (used : Used d h .datum v) :
    Maintains d h (HeapM.cdr who v) fun d₁ h₁ v => Used d₁ h₁ .datum v := by
  unfold HeapM.cdr
  split
  · exact .pure a (.nil d h nofun)
  · refine .get_bind ?_
    split
    · next part found =>
      rcases Option.map_eq_some_iff.1 found with ⟨⟨car, cdr⟩, goes, rfl⟩
      exact .pure a (a.part_used used goes).2
    · exact maintains_wrongKind a _ _ _

theorem Orderly.boolean_used (a : Orderly d h) (b : Bool) : Used d h .datum (h.boolean b) := by
  cases b with
  | false => exact .nil d h nofun
  | true => exact (a.kept_of_symbol a.canonical).used a.toWellFormed

/-! ## Numbers -/

/-- An operand that is no number is complained of. -/
theorem maintains_operand (a : Orderly d h) (who : String) (v : Value) :
    Maintains d h (HeapM.operand who v)
      fun d₁ h₁ x => ∀ e, x = .error e → Used d₁ h₁ .datum e := by
  have wrong : Maintains d h
      (.error <$> HeapM.wrongKind who "number" v : HeapM Fatal (Except Value Number))
      fun d₁ h₁ x => ∀ e, x = .error e → Used d₁ h₁ .datum e := by
    refine (maintains_wrongKind a who "number" v).map fun d₁ h₁ x used e same => ?_
    cases same
    exact used
  refine .get_bind ?_
  split
  · exact .pure a nofun
  · exact .pure a nofun
  · exact .pure a nofun
  · refine (maintains_raise a _ _).map fun d₁ h₁ x used e same => ?_
    cases same
    exact used
  · exact wrong

theorem maintains_operandsOnto (a : Orderly d h) (who : String) (found : List Number)
    (items : List Value) :
    Maintains d h (HeapM.operandsOnto who found items)
      fun d₁ h₁ x => ∀ e, x = .error e → Used d₁ h₁ .datum e := by
  induction items generalizing d h found with
  | nil => exact .pure a nofun
  | cons v items ih =>
      refine .bind (maintains_operand a who v) ?_
      intro d₁ h₁ x a₁ _ complains
      cases x with
      | ok n => exact ih a₁ (n :: found)
      | error e =>
          refine .pure a₁ fun _ same => ?_
          cases same
          exact complains e rfl

theorem completes_withNumbers (a : Orderly d h) (who : String) (used : Used d h .datum args)
    {body : List Number → HeapM Fatal Value}
    (continues : ∀ d₁ h₁ numbers, Orderly d₁ h₁ →
      Maintains d₁ h₁ (body numbers) fun d₁ h₁ v => Used d₁ h₁ .datum v) :
    Completes d h (Unbounded.withNumbers who args body) (HeapM.withNumbers who args body)
      fun d₁ h₁ v => Used d₁ h₁ .datum v := by
  refine .get_bind (.await_bind (a.items?_ends used) ?_)
  cases h.items? args with
  | none => exact .lift (maintains_raise a _ _)
  | some items =>
      refine .bind (.lift (maintains_operandsOnto a who [] items)) ?_
      intro d₁ h₁ x a₁ _ complains
      cases x with
      | ok numbers => exact .lift (continues d₁ h₁ numbers.reverse a₁)
      | error e => exact .pure a₁ (complains e rfl)

theorem maintains_number (a : Orderly d h) (n : Number) :
    Maintains d h (HeapM.number n) fun d₁ h₁ v => Used d₁ h₁ .datum v := by
  cases n with
  | int n => exact maintains_atom a rfl (fun _ => nofun) fun _ => nofun
  | float x => exact maintains_atom a rfl (fun _ => nofun) fun _ => nofun

theorem completes_arithmetic (a : Orderly d h) (op : Operator) (used : Used d h .datum args) :
    Completes d h (Unbounded.arithmetic op args) (HeapM.arithmetic op args)
      fun d₁ h₁ v => Used d₁ h₁ .datum v := by
  refine .ite (fun _ => .lift (maintains_raise a _ _)) fun _ => ?_
  refine completes_withNumbers a op.name used fun d₁ h₁ numbers a₁ => ?_
  split
  · exact maintains_number a₁ _
  · exact maintains_raise a₁ _ _
  · exact maintains_raise a₁ _ _

theorem completes_comparison (a : Orderly d h) (c : Comparison) (used : Used d h .datum args) :
    Completes d h (Unbounded.comparison c args) (HeapM.comparison c args)
      fun d₁ h₁ v => Used d₁ h₁ .datum v := by
  unfold Unbounded.comparison HeapM.comparison
  dsimp only
  refine completes_withNumbers a c.name used fun d₁ h₁ numbers a₁ => ?_
  split
  · exact maintains_raise a₁ _ _
  · exact .get_bind (.pure a₁ (a₁.boolean_used _))

/-! ## All primitives -/

theorem mapM_eq_some {α β : Type} {f : α → Option β} {g : α → β} {l : List α}
    (all : ∀ x ∈ l, f x = some (g x)) : l.mapM f = some (l.map g) := by
  induction l with
  | nil => rfl
  | cons x l ih =>
      have rest := ih fun y member => all y (List.mem_cons_of_mem x member)
      rw [List.mapM_cons, all x List.mem_cons_self, rest]
      rfl

theorem completes_custom (a : Orderly d h) (who : String) (used : Used d h .datum args) :
    Completes d h (Unbounded.custom who args) (HeapM.custom who args)
      fun d₁ h₁ v => Used d₁ h₁ .datum v := by
  refine .get_bind (.await_bind (a.items?_ends used) ?_)
  cases found : h.items? args with
  | none => exact .lift (maintains_raise a _ _)
  | some items =>
      have parts := (a.items_used used found).2
      have printed := mapM_eq_some fun v member => a.print_ends .display (parts v member)
      exact .look_bind (.await_bind printed (.lift (maintains_raise a _ _)))

theorem completes_call (a : Orderly d h) {p : Primitive} (standard : p ∈ Primitive.standard)
    (used : Used d h .datum args) :
    Completes d h (Unbounded.call p args) (p.call args) fun d₁ h₁ v => Used d₁ h₁ .datum v := by
  cases p with
  | list => exact .pure a used
  | cons =>
      refine completes_withTwo a _ used fun x y usedX usedY => .lift ?_
      exact (maintains_cons a usedX usedY).mono fun _ _ _ made => made.used
  | car => exact completes_withOne a _ used fun x usedX => .lift (maintains_car a _ usedX)
  | cdr => exact completes_withOne a _ used fun x usedX => .lift (maintains_cdr a _ usedX)
  | same =>
      exact completes_withTwo a _ used fun x y _ _ => .get_bind (.pure a (a.boolean_used _))
  | equal =>
      refine completes_withTwo a _ used fun x y usedX usedY => .get_bind ?_
      exact .await_bind (a.equal_ends usedX usedY) (.pure a (a.boolean_used _))
  | question q =>
      exact completes_withOne a _ used fun x _ => .get_bind (.pure a (a.boolean_used _))
  | arithmetic op => exact completes_arithmetic a op used
  | comparison c => exact completes_comparison a c used
  | error => exact completes_custom a _ used
  | exit => exact .lift (.get_bind (.throw a _))
  -- These belong to the register machine, whose environment is another one.
  | print | lookupVariable | setVariable | defineVariable | extendEnvironment
  | globalEnvironment => exact absurd standard (by decide)

end Termination

end Lisplet
