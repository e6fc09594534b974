import Lisplet.Evaluator
import Lisplet.Proofs.Heap.Evolution

/-!
# Room — how many objects an operation needs

`HeapM.Fits n op` says that `op` succeeds on every heap with room for `n` more objects, and fills
no more slots than that. Costs add up as operations are put together; so it can be counted how
much capacity a heap with the standard primitives takes.
-/

namespace Lisplet

namespace HeapM

variable {ε α β : Type} {m n : Nat}

/-- With room for `n` more objects an operation succeeds, and fills no more slots. -/
def Fits (n : Nat) (op : HeapM ε α) : Prop :=
  ∀ h : Heap, h.live + n ≤ h.capacity →
    ∃ a h', op h = .ok a h' ∧ h'.capacity = h.capacity ∧ h'.live ≤ h.live + n

namespace Fits

variable {op : HeapM ε α} {next : α → HeapM ε β}

theorem pure (a : α) : Fits 0 (Pure.pure a : HeapM ε α) :=
  fun h _ => ⟨a, h, rfl, rfl, Nat.le_refl _⟩

theorem modify {f : Heap → Heap} (capacity : ∀ h, (f h).capacity = h.capacity)
    (live : ∀ h, (f h).live = h.live) : Fits 0 (modify f : HeapM ε Unit) :=
  fun h _ => ⟨(), f h, rfl, capacity h, Nat.le_of_eq (live h)⟩

theorem get_bind {f : Heap → HeapM ε β} (fits : ∀ h, Fits n (f h)) : Fits n (get >>= f) :=
  fun h room => fits h h room

theorem bind (fits : Fits m op) (continues : ∀ a, Fits n (next a)) :
    Fits (m + n) (op >>= next) := by
  intro h room
  rcases fits h (by omega) with ⟨a, h₁, step, capacity₁, live₁⟩
  rcases continues a h₁ (by omega) with ⟨b, h₂, step', capacity₂, live₂⟩
  refine ⟨b, h₂, ?_, capacity₂.trans capacity₁, by omega⟩
  simp only [Bind.bind, EStateM.bind, step, step']

theorem mono (fits : Fits m op) (le : m ≤ n) : Fits n op := by
  intro h room
  rcases fits h (by omega) with ⟨a, h₁, step, capacity₁, live₁⟩
  exact ⟨a, h₁, step, capacity₁, by omega⟩

theorem scope (fits : Fits n op) : Fits n (HeapM.scope op) := by
  intro h room
  rcases fits h room with ⟨a, h₁, step, capacity₁, live₁⟩
  refine ⟨a, h₁.truncateRoots h.roots.length, ?_, capacity₁, live₁⟩
  unfold HeapM.scope
  rw [step]

end Fits

/-! ## Constructors -/

theorem fits_root (v : Value) : Fits 0 (root v : HeapM ε Unit) := by
  refine .modify (fun h => ?_) fun h => ?_
  · unfold Heap.addRoot
    split
    · rfl
    · rfl
  · unfold Heap.addRoot
    split
    · rfl
    · rfl

theorem fits_allocate (o : Object) : Fits 1 (allocate o) := by
  intro h room
  -- Where there is room nothing is collected.
  have noCollection : h.makeRoom = h := if_neg (by omega)
  rcases allocate_cases h o with ⟨_, step⟩ | ⟨full, _⟩
  · rcases Heap.insert_eq h o with ⟨i, slots, free, inserted, _⟩
    rw [noCollection, inserted] at step
    exact ⟨_, _, step, rfl, Nat.le_refl _⟩
  · rw [noCollection] at full
    omega

theorem fits_intern (name : String) : Fits 1 (intern name) := by
  refine .get_bind fun h => ?_
  split
  · next symbol _ => exact (Fits.pure symbol).mono (by omega)
  · refine .bind (n := 0) (fits_allocate _) fun symbol => ?_
    exact .bind (m := 0) (n := 0) (.modify (fun _ => rfl) fun _ => rfl) fun _ => .pure symbol

theorem fits_cons (car cdr : Value) : Fits 1 (cons car cdr) := by
  refine .scope ?_
  refine .bind (m := 0) (n := 1) (fits_root car) fun _ => ?_
  exact .bind (m := 0) (n := 1) (fits_root cdr) fun _ => fits_allocate _

/-- A list takes a pair for each of its elements. -/
theorem fits_consAll (list : Value) (items : List Value) :
    Fits items.length (consAll list items) := by
  induction items generalizing list with
  | nil => exact .pure list
  | cons item items ih =>
      refine (Fits.bind (fits_cons item list) fun list => ih list).mono ?_
      rw [List.length_cons]
      omega

theorem fits_list (items : List Value) : Fits items.length (list items) := by
  have roots (items : List Value) (h : Heap) :
      (items.foldl Heap.addRoot h).capacity = h.capacity ∧
        (items.foldl Heap.addRoot h).live = h.live := by
    induction items generalizing h with
    | nil => exact ⟨rfl, rfl⟩
    | cons item items ih =>
        rw [List.foldl_cons, (ih _).1, (ih _).2, Heap.addRoot]
        split
        · exact ⟨rfl, rfl⟩
        · exact ⟨rfl, rfl⟩
  refine .scope ((Fits.bind (m := 0) ?_ fun _ => fits_consAll .nil items.reverse).mono ?_)
  · exact .modify (fun h => (roots items h).1) fun h => (roots items h).2
  · rw [List.length_reverse]
    omega

end HeapM

open HeapM

/-! ## Environments -/

namespace Env

variable (env : Env)

theorem fits_setBindings (list : Value) :
    Fits 0 (modify fun h => h.setBindings env list : HeapM Fatal Unit) := by
  refine .modify (fun h => ?_) fun h => ?_
  · rcases Heap.setBindings_cases h env list with ⟨_, _, _, _, _, step⟩ | ⟨_, step⟩
    · rw [step]
      rfl
    · rw [step]
  · rcases Heap.setBindings_cases h env list with ⟨_, _, _, _, _, step⟩ | ⟨_, step⟩
    · rw [step]
      rfl
    · rw [step]

theorem fits_define (symbol value : Value) : Fits 2 (env.define symbol value) := by
  refine .scope ?_
  refine .bind (m := 0) (n := 2) (fits_root _) fun _ => ?_
  refine .bind (m := 1) (n := 1) (fits_cons symbol value) fun binding => .get_bind fun h => ?_
  exact .bind (n := 0) (fits_cons _ _) fun list => env.fits_setBindings list

theorem fits_definePrimitive (p : Primitive) : Fits 4 (env.definePrimitive p) := by
  refine .bind (m := 1) (n := 3) (fits_intern _) fun name => ?_
  exact .bind (m := 1) (n := 2) (fits_allocate _) fun value => env.fits_define name value

/-- Each primitive takes a symbol, the primitive itself, and two pairs. -/
theorem fits_definePrimitives (primitives : List Primitive) :
    Fits (4 * primitives.length) (env.definePrimitives primitives) := by
  -- Induction on the table, at the cost of four objects for each entry.
  have defines : Fits (4 * primitives.length) (primitives.forM env.definePrimitive) := by
    induction primitives with
    | nil => exact .pure ()
    | cons p primitives ih =>
        refine (Fits.bind (env.fits_definePrimitive p) fun _ => ih).mono ?_
        rw [List.length_cons]
        omega
  refine .scope ((Fits.bind (m := 0) (fits_root _) fun _ => defines).mono ?_)
  omega

end Env

/-- The standard primitives fit into a heap with room for 102 objects. -/
theorem Heap.standard_ok {capacity : Nat} (room : 102 ≤ capacity) :
    ∃ h, Heap.standard capacity = .ok h ∧ h.capacity = min capacity (Value.maxSlots - 1) ∧
      h.live ≤ 102 := by
  have bounds : 102 ≤ min capacity (Value.maxSlots - 1) := Nat.le_min.2 ⟨room, by decide⟩
  have fits : Fits 100 ((Heap.empty capacity).rootEnv.definePrimitives Primitive.standard) :=
    ((Heap.empty capacity).rootEnv.fits_definePrimitives Primitive.standard).mono (by decide)
  rcases fits (.empty capacity) bounds with ⟨_, h, step, same, live⟩
  refine ⟨h, ?_, same, live⟩
  unfold Heap.standard
  dsimp only
  rw [step]

/-! ## Evaluators -/

namespace Evaluator

theorem fits_make (limit : Nat) : Fits 6 (make limit) := by
  refine .bind (m := 6) (n := 0) ?_ fun forms => .pure _
  refine .bind (m := 1) (n := 5) (fits_intern _) fun _ => ?_
  refine .bind (m := 1) (n := 4) (fits_intern _) fun _ => ?_
  refine .bind (m := 1) (n := 3) (fits_intern _) fun _ => ?_
  refine .bind (m := 1) (n := 2) (fits_intern _) fun _ => ?_
  refine .bind (m := 1) (n := 1) (fits_intern _) fun _ => ?_
  exact .bind (m := 1) (n := 0) (fits_intern _) fun _ => .pure _

end Evaluator

end Lisplet
