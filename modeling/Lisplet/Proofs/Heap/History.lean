import Lisplet.Proofs.Environment

/-!
# History — the invariant after any sequence of operations

An `Operation` is one call on a heap or on an environment with all its arguments. `Later h h'`
says that `h'` can be reached from `h` by operations whose handles are nil or live when they
are used, whether the operations succeed or fail, with scopes opened and closed in between.
Every heap that is later than a new one satisfies the representation invariant.
-/

namespace Lisplet

namespace Heap

/-! ## Operations -/

/-- One call that changes a heap, with its arguments. -/
inductive Operation where
  | int (n : Int64)
  | float (x : Float)
  | ratio (numer denom : Int64)
  | fixnum (n : Int64)
  | string (text : String)
  | intern (name : String)
  | cons (car cdr : Value)
  | list (items : List Value)
  | error (kind : ErrorKind) (message : String)
  | primitive (p : Primitive)
  | procedure (params body : Value) (env : Env)
  | setCar (pair value : Value)
  | setCdr (pair value : Value)
  | root (value : Value)
  | truncateRoots (height : Nat)
  | pin (value : Value)
  | repin (pin : Pin) (value : Value)
  | unpin (pin : Pin)
  | collect
  | define (env : Env) (symbol value : Value)
  | set (env : Env) (symbol value : Value)
  | child (env : Env)
  | extend (env : Env) (params args : Value)
  | definePrimitives (env : Env) (primitives : List Primitive)

section Capacity

variable (h : Heap) (p v : Value)

theorem capacity_setCar : (h.setCar p v).capacity = h.capacity := by
  unfold setCar
  split
  · rfl
  · rfl

theorem capacity_setCdr : (h.setCdr p v).capacity = h.capacity := by
  unfold setCdr
  split
  · rfl
  · rfl

end Capacity

namespace Operation

/-- The handles that a call is given. -/
def handles : Operation → List Value
  | cons car cdr => [car, cdr]
  | list items => items
  | procedure params body env => [params, body, env.value]
  | setCar pair value | setCdr pair value => [pair, value]
  | root value | pin value | repin _ value => [value]
  | define env symbol value | set env symbol value => [env.value, symbol, value]
  | child env | definePrimitives env _ => [env.value]
  | extend env params args => [env.value, params, args]
  | _ => []

/-- The heap that is left by an operation, whether it succeeds or fails. -/
def heapAfter {ε α : Type} (op : HeapM ε α) (h : Heap) : Heap :=
  match op h with
  | .ok _ h' | .error _ h' => h'

/-- A heap with the standard primitives is what their definition leaves of an empty one. -/
theorem heapAfter_of_standard {capacity : Nat} {h : Heap}
    (done : Heap.standard capacity = .ok h) :
    heapAfter ((Heap.empty capacity).rootEnv.definePrimitives Primitive.standard)
      (Heap.empty capacity) = h := by
  unfold Heap.standard at done
  unfold heapAfter
  dsimp only at done
  split at done
  · next step =>
    cases done
    rw [step]
  · cases done

/-- The heap after a call, whether it succeeds or fails. -/
def run : Operation → Heap → Heap
  | int n => heapAfter (HeapM.int n)
  | float x => heapAfter (HeapM.float x)
  | ratio numer denom => heapAfter (HeapM.ratio numer denom)
  | fixnum n => heapAfter (HeapM.fixnum n)
  | string text => heapAfter (HeapM.string text)
  | intern name => heapAfter (HeapM.intern name)
  | cons car cdr => heapAfter (HeapM.cons car cdr)
  | list items => heapAfter (HeapM.list items)
  | error kind message => heapAfter (HeapM.raise kind message)
  | primitive p => heapAfter (HeapM.primitive p)
  | procedure params body env => heapAfter (HeapM.procedure params body env)
  | setCar pair value => fun h => h.setCar pair value
  | setCdr pair value => fun h => h.setCdr pair value
  | root value => fun h => h.addRoot value
  | truncateRoots height => fun h => h.truncateRoots height
  | pin value => fun h => (h.pin value).2
  | repin key value => fun h => h.repin key value
  | unpin key => fun h => h.unpin key
  | collect => fun h => h.collect.1
  | define env symbol value => heapAfter (env.define symbol value)
  | set env symbol value => heapAfter (env.set symbol value)
  | child env => heapAfter (HeapM.child env)
  | extend env params args => heapAfter (env.extend params args)
  | definePrimitives env primitives => heapAfter (env.definePrimitives primitives)

/-! ## One call -/

section Step

variable {h : Heap}

/-- An operation that lets the heap evolve keeps it well-formed, and its capacity too. -/
theorem keeps_heapAfter {ε α : Type} {op : HeapM ε α} {Q : α → Heap → Prop}
    (k : HeapM.Keeps op h Q) :
    (heapAfter op h).WellFormed ∧ (heapAfter op h).capacity = h.capacity := by
  have e : h.Evolves (heapAfter op h) := by
    unfold HeapM.Keeps at k
    unfold heapAfter
    rcases step : op h with ⟨a, h'⟩ | ⟨e, h'⟩
    · rw [step] at k
      exact k.1
    · rw [step] at k
      exact k
  exact ⟨e.wellFormed, e.capacity_eq⟩

/-- One call keeps the invariant, whether it succeeds or fails. -/
theorem run_spec (op : Operation) (w : h.WellFormed) (held : ∀ v ∈ op.handles, h.Holds v) :
    (op.run h).WellFormed ∧ (op.run h).capacity = h.capacity := by
  -- Six of the constructors allocate one object without references.
  have atom : ∀ o : Object, o.references = [] → (∀ name, o ≠ .symbol name) →
      (heapAfter (HeapM.allocate o) h).WellFormed ∧
        (heapAfter (HeapM.allocate o) h).capacity = h.capacity :=
    fun o none other => keeps_heapAfter (HeapM.keeps_atom w none other)
  cases op with
  | int n => exact atom (.int n) rfl fun _ => nofun
  | float x => exact atom (.float x) rfl fun _ => nofun
  | ratio numer denom => exact atom (.ratio numer denom) rfl fun _ => nofun
  | fixnum n => exact atom (.fixnum n) rfl fun _ => nofun
  | string text => exact atom (.string text) rfl fun _ => nofun
  | primitive p => exact atom (.primitive p) rfl fun _ => nofun
  | error kind message => exact keeps_heapAfter (HeapM.keeps_raise w kind message)
  | intern name => exact keeps_heapAfter (HeapM.keeps_intern w name)
  | cons car cdr =>
      have heldCar := held car (by simp [handles])
      have heldCdr := held cdr (by simp [handles])
      exact keeps_heapAfter (HeapM.keeps_cons w heldCar heldCdr)
  | list items => exact keeps_heapAfter (HeapM.keeps_list w held)
  | procedure params body env =>
      have heldParams := held params (by simp [handles])
      have heldBody := held body (by simp [handles])
      have heldEnv := held env.value (by simp [handles])
      exact keeps_heapAfter (HeapM.keeps_procedure w heldParams heldBody heldEnv)
  | setCar pair value =>
      exact ⟨w.setCar pair (held value (by simp [handles])), capacity_setCar h pair value⟩
  | setCdr pair value =>
      exact ⟨w.setCdr pair (held value (by simp [handles])), capacity_setCdr h pair value⟩
  | root value =>
      have e := Heap.Evolves.addRoot w (held value (by simp [handles]))
      exact ⟨e.wellFormed, e.capacity_eq⟩
  | truncateRoots height => exact ⟨w.truncateRoots height, rfl⟩
  | pin value =>
      refine ⟨w.pin (held value (by simp [handles])), ?_⟩
      show (h.pin value).2.capacity = _
      unfold Heap.pin
      split
      · rfl
      · rfl
  | repin key value => exact ⟨w.repin key (held value (by simp [handles])), rfl⟩
  | unpin key =>
      refine ⟨w.unpin key, ?_⟩
      show (h.unpin key).capacity = _
      unfold Heap.unpin
      split
      · rfl
      · rfl
  | collect => exact ⟨w.collect, rfl⟩
  | define env symbol value =>
      have heldEnv := held env.value (by simp [handles])
      have heldSymbol := held symbol (by simp [handles])
      have heldValue := held value (by simp [handles])
      exact keeps_heapAfter (Env.keeps_define w heldEnv heldSymbol heldValue)
  | set env symbol value =>
      have heldValue := held value (by simp [handles])
      show (heapAfter (env.set symbol value) h).WellFormed ∧
        (heapAfter (env.set symbol value) h).capacity = h.capacity
      rcases Env.set_cases env symbol value h with ⟨binding, _, step⟩ | ⟨_, step⟩
      · unfold heapAfter
        rw [step]
        exact ⟨w.setCdr binding heldValue, capacity_setCdr h binding value⟩
      · unfold heapAfter
        rw [step]
        exact ⟨w, rfl⟩
  | child env =>
      have heldEnv := held env.value (by simp [handles])
      exact keeps_heapAfter (HeapM.keeps_child w heldEnv)
  | extend env params args =>
      have heldEnv := held env.value (by simp [handles])
      have heldParams := held params (by simp [handles])
      have heldArgs := held args (by simp [handles])
      exact keeps_heapAfter (Env.keeps_extend w heldEnv heldParams heldArgs)
  | definePrimitives env primitives =>
      have heldEnv := held env.value (by simp [handles])
      exact keeps_heapAfter (Env.keeps_definePrimitives w heldEnv)

end Step

end Operation

/-! ## Any sequence of calls -/

/-- What a heap may become by calls that are only given handles that are nil or live. -/
inductive Later : Heap → Heap → Prop where
  | refl (h : Heap) : Later h h
  | step {h h' : Heap} (op : Operation) :
      Later h h' → (∀ v ∈ op.handles, h'.Holds v) → Later h (op.run h')
  /-- A scope opened at `h'` is closed at `h''`, however the calls inside it ended. -/
  | scope {h h' h'' : Heap} :
      Later h h' → Later h' h'' → Later h (h''.truncateRoots h'.roots.length)

theorem Later.wellFormed {h h' : Heap} (later : Later h h') (w : h.WellFormed) :
    h'.WellFormed ∧ h'.capacity = h.capacity := by
  -- Induction on the sequence; a scope is two sequences and one truncation.
  induction later with
  | refl h => exact ⟨w, rfl⟩
  | step op _ held ih =>
      have before := ih w
      have after := op.run_spec before.1 held
      exact ⟨after.1, after.2.trans before.2⟩
  | scope _ _ ih ih' =>
      have opened := ih w
      have closed := ih' opened.1
      exact ⟨closed.1.truncateRoots _, closed.2.trans opened.2⟩

/--
The representation invariant holds after any sequence of operations on a new heap. The arena
stays within the capacity, or the two slots that a new heap takes in any case, so that every
index fits a handle.
-/
theorem arena_of_later (n : Nat) {h : Heap} (later : Later (Heap.empty n) h) :
    h.live = h.occupiedSlots.length ∧
      h.free.Nodup ∧
      (∀ i, i ∈ h.free ↔ i < h.slots.size ∧ ¬ h.Occupied i) ∧
      h.MarksClear ∧
      (∀ i o, h.object? (.slot i) = some o → ∀ v ∈ o.references, h.Holds v) ∧
      (∃ bindings parent, h.object? h.rootEnv.value = some (.environment bindings parent)) ∧
      h.capacity = min n (Value.maxSlots - 1) ∧
      h.slots.size ≤ max 2 h.capacity ∧
      ∀ i, i < h.slots.size → i < Value.maxSlots := by
  rcases later.wellFormed (wellFormed_empty n) with ⟨w, capacity⟩
  have size := w.size_le
  have bound := w.capacity_lt
  rcases w.rootEnv_frame with ⟨bindings, frame⟩
  refine ⟨w.live_eq, w.free_nodup, w.mem_free_iff, w.marksClear, w.references_held,
    ⟨bindings, none, frame⟩, capacity, size, ?_⟩
  intro i inside
  have two : 2 < Value.maxSlots := by decide
  omega

/--
A pair and then a definition, which collects and still finds the heap full, inside a scope of
a heap with room for one value more than a new one has.
-/
def crowded : Heap :=
  ((Operation.define ⟨.slot 0⟩ (.slot 1) (.slot 2)).run
    ((Operation.cons (.slot 1) .nil).run (empty 3))).truncateRoots (empty 3).roots.length

theorem arena_of_later_crowded :
    Later (Heap.empty 3) crowded ∧
      crowded.live = crowded.occupiedSlots.length ∧
      crowded.free.Nodup ∧
      (∀ i, i ∈ crowded.free ↔ i < crowded.slots.size ∧ ¬ crowded.Occupied i) ∧
      crowded.MarksClear ∧
      (∀ i o, crowded.object? (.slot i) = some o → ∀ v ∈ o.references, crowded.Holds v) ∧
      (∃ bindings parent,
        crowded.object? crowded.rootEnv.value = some (.environment bindings parent)) ∧
      crowded.capacity = min 3 (Value.maxSlots - 1) ∧
      crowded.slots.size ≤ max 2 crowded.capacity ∧
      ∀ i, i < crowded.slots.size → i < Value.maxSlots := by
  have t : (empty 3).Holds (.slot 1) := holds_slot_iff.2 (by decide)
  have consed : Later (empty 3) ((Operation.cons (.slot 1) .nil).run (empty 3)) := by
    refine .step _ (.refl _) fun v member => ?_
    rcases List.mem_pair.1 member with rfl | rfl
    · exact t
    · exact holds_nil _
  have defined := consed.step (.define ⟨.slot 0⟩ (.slot 1) (.slot 2)) fun v member => by
    have listed : v = .slot 0 ∨ v = .slot 1 ∨ v = .slot 2 := by
      simpa [Operation.handles] using member
    rcases listed with rfl | rfl | rfl
    · exact holds_slot_iff.2 (by decide)
    · exact holds_slot_iff.2 (by decide)
    · exact holds_slot_iff.2 (by decide)
  have later : Later (empty 3) crowded := .scope (.refl _) defined
  exact ⟨later, arena_of_later 3 later⟩

end Heap

end Lisplet
