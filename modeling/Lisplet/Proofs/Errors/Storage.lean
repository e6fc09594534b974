import Lisplet.Environment
import Lisplet.Proofs.Heap.Evolution

/-!
# Storage — what is built of values that are no errors

A heap is untainted if none of its objects refers to an error value. It stays so as long as nothing
is stored but values that are no errors. An operation that makes no error value itself needs to
know no more about the heap: whatever is no error before it is none afterwards (`Spares`), even if
a slot has been emptied and filled again meanwhile. `Builds h op P` says both of an operation.
-/

namespace Lisplet

namespace Heap

/-! ## Untainted heaps -/

/-- No object of the heap refers to an error value. -/
def Untainted (h : Heap) : Prop :=
  ∀ v o w, h.object? v = some o → w ∈ o.references → h.isError w = false

/-- Whatever is no error value in `h` is none in `h'`. -/
def Spares (h h' : Heap) : Prop := ∀ v, h.isError v = false → h'.isError v = false

/-- Whatever object `h'` has, `h` has it in the same place, or it is a new one. -/
def Gains (h : Heap) (new : List Object) (h' : Heap) : Prop :=
  ∀ v o, h'.object? v = some o → h.object? v = some o ∨ o ∈ new

section Changes

variable {h h' h'' : Heap} {new : List Object} {o : Object} {v : Value}

theorem isError_eq_false_iff :
    h.isError v = false ↔ ∀ kind message, h.object? v ≠ some (.error kind message) := by
  unfold isError kind
  cases v with
  | nil => simp [object?_nil]
  | slot i =>
      cases h.object? (.slot i) with
      | none => simp
      | some o => cases o <;> simp [Object.kind]

theorem isError_of_object? (found : h.object? v = some o)
    (proper : ∀ kind message, o ≠ .error kind message) : h.isError v = false := by
  refine isError_eq_false_iff.2 fun kind message isError => ?_
  rw [found] at isError
  exact proper kind message (Option.some.inj isError)

@[simp]
theorem isError_nil (h : Heap) : h.isError .nil = false := rfl

theorem isError_of_symbol (isSymbol : h.isSymbol v = true) : h.isError v = false := by
  have kind : h.kind v = .symbol := eq_of_beq isSymbol
  unfold isError
  rw [kind]
  rfl

theorem Spares.refl (h : Heap) : h.Spares h := fun _ isProper => isProper

theorem Spares.trans (s : h.Spares h') (s' : h'.Spares h'') : h.Spares h'' :=
  fun v isProper => s' v (s v isProper)

/-- The parts of a pair are no errors. -/
theorem Untainted.parts (t : h.Untainted) {car cdr : Value} (goes : h.pair? v = some (car, cdr)) :
    h.isError car = false ∧ h.isError cdr = false := by
  have found := pair?_eq_some_iff.1 goes
  exact ⟨t v _ car found (by simp [Object.references]),
    t v _ cdr found (by simp [Object.references])⟩

namespace Gains

theorem refl (h : Heap) : h.Gains [] h := fun _ _ => .inl

theorem trans (g : h.Gains [] h') (g' : h'.Gains new h'') : h.Gains new h'' := by
  intro v o found
  rcases g' v o found with old | member
  · exact (g v o old).imp_right fun none => nomatch none
  · exact .inr member

theorem spares (g : h.Gains new h') (proper : ∀ o ∈ new, ∀ kind message, o ≠ .error kind message) :
    h.Spares h' := by
  intro v isProper
  refine isError_eq_false_iff.2 fun kind message found => ?_
  rcases g v _ found with old | member
  · exact isError_eq_false_iff.1 isProper kind message old
  · exact proper _ member kind message rfl

/-- New objects that refer to no errors leave a heap untainted, if they are no errors themselves. -/
theorem untainted (g : h.Gains new h') (t : h.Untainted)
    (proper : ∀ o ∈ new, ∀ kind message, o ≠ .error kind message)
    (sound : ∀ o ∈ new, ∀ w ∈ o.references, h.isError w = false) : h'.Untainted := by
  intro v o w found member
  refine g.spares proper w ?_
  rcases g v o found with old | listed
  · exact t v o w old member
  · exact sound o listed w member

end Gains

/-! ## Making room -/

theorem object_finish (m : Marking) (i : Nat) :
    m.finish[i]?.map Slot.object = m.slots[i]?.map Slot.object := by
  fun_induction Marking.finish m with
  | case1 m none => rfl
  | case2 m j pending next ih => exact ih.trans (Marking.object_visitAll _ _ i)

/-- A collection leaves each slot as it is or empties it. -/
theorem gains_collect (h : Heap) : h.Gains [] h.collect.1 := by
  intro v o found
  cases v with
  | nil => cases found
  | slot i =>
      have step : h.collect.1.slots =
          (h.markFrom (h.startsIn (h.symbols.toList.map Prod.snd))).slots.map Slot.swept := rfl
      rw [object?_slot, step, Array.getElem?_map] at found
      have kept := object_finish
        (Marking.visitAll ⟨h.slots, []⟩ (h.startsIn (h.symbols.toList.map Prod.snd))) i
      rw [Marking.object_visitAll] at kept
      have view : h.object? (.slot i) = (Option.map Slot.object h.slots[i]?).join :=
        Slot.bind_object _
      rw [view, ← kept]
      unfold markFrom at found
      generalize (Marking.finish _)[i]? = slot at found ⊢
      cases slot with
      | none => cases found
      | some slot =>
          simp only [Slot.swept, Option.map_some, Option.bind_some] at found
          split at found
          · exact .inl found
          · cases found

theorem gains_makeRoom (h : Heap) : h.Gains [] h.makeRoom := by
  unfold makeRoom
  split
  · exact gains_collect h
  · exact .refl h

/-- A new object goes into some slot and changes no other. -/
theorem gains_insert (h : Heap) (o : Object) : h.Gains [o] (h.insert o).2 := by
  intro v x found
  cases v with
  | nil => cases found
  | slot i =>
      have view : h.object? (.slot i) = h.slots[i]?.bind Slot.object := rfl
      rw [view]
      rcases insert_eq h o with ⟨j, slots, free, step, ⟨_, rfl⟩ | ⟨_, _, _, rfl⟩⟩
      · rw [step, object?_slot, Array.getElem?_setIfInBounds] at found
        split at found
        · split at found
          · cases found
            exact .inr List.mem_cons_self
          · cases found
        · exact .inl found
      · rw [step, object?_slot, Array.getElem?_push] at found
        split at found
        · cases found
          exact .inr List.mem_cons_self
        · exact .inl found

theorem isError_insert (h : Heap) (proper : ∀ kind message, o ≠ .error kind message) :
    (h.insert o).2.isError (h.insert o).1 = false := by
  refine isError_eq_false_iff.2 fun kind message found => ?_
  rcases insert_eq h o with ⟨i, slots, free, step, ⟨_, rfl⟩ | ⟨_, _, rfl, rfl⟩⟩
  · rw [step, object?_slot, Array.getElem?_setIfInBounds, if_pos rfl] at found
    split at found
    · exact proper kind message (Option.some.inj found)
    · cases found
  · rw [step, object?_slot, Array.getElem?_push, if_pos rfl] at found
    exact proper kind message (Option.some.inj found)

/-! ## Roots and changes in place -/

theorem gains_addRoot (h : Heap) (v : Value) : h.Gains [] (h.addRoot v) := by
  unfold addRoot
  split
  · exact .refl h
  · exact .refl h

/-- Changing the object in a slot brings in the new one. -/
theorem gains_put (h : Heap) (i : Nat) (o : Object) : h.Gains [o] (h.put i o) := by
  intro v x found
  cases v with
  | nil => cases found
  | slot j =>
      rw [object?_put] at found
      split at found
      · split at found
        · cases found
        · cases found
          exact .inr List.mem_cons_self
      · exact .inl found

/-- A binding may be changed to a value that is no error. -/
theorem Untainted.setCdr (t : h.Untainted) {p : Value} (proper : h.isError v = false) :
    (h.setCdr p v).Untainted ∧ h.Spares (h.setCdr p v) := by
  rcases setCdr_cases h p v with ⟨i, car, cdr, rfl, found, step⟩ | ⟨_, step⟩
  · rw [step]
    have parts := t.parts (pair?_eq_some_iff.2 found)
    have gains := gains_put h i (.pair car v)
    refine ⟨gains.untainted t ?_ ?_, gains.spares ?_⟩
    · exact List.forall_mem_singleton.2 fun _ _ => nofun
    · refine List.forall_mem_singleton.2 fun w member => ?_
      rcases List.mem_pair.1 member with rfl | rfl
      · exact parts.1
      · exact proper
    · exact List.forall_mem_singleton.2 fun _ _ => nofun
  · rw [step]
    exact ⟨t, .refl h⟩

/-- An environment may take over a list of bindings. -/
theorem Untainted.setBindings (t : h.Untainted) {env : Env} (proper : h.isError v = false) :
    (h.setBindings env v).Untainted ∧ h.Spares (h.setBindings env v) := by
  rcases setBindings_cases h env v with ⟨i, bindings, parent, _, found, step⟩ | ⟨_, step⟩
  · rw [step]
    have gains := gains_put h i (.environment v parent)
    refine ⟨gains.untainted t ?_ ?_, gains.spares ?_⟩
    · exact List.forall_mem_singleton.2 fun _ _ => nofun
    · refine List.forall_mem_singleton.2 fun w member => ?_
      have old := t (.slot i) _ w found
      cases parent with
      | none =>
          cases List.mem_singleton.1 member
          exact proper
      | some parent =>
          rcases List.mem_pair.1 member with rfl | rfl
          · exact proper
          · exact old (by simp [Object.references])
    · exact List.forall_mem_singleton.2 fun _ _ => nofun
  · rw [step]
    exact ⟨t, .refl h⟩

end Changes

end Heap

namespace HeapM

/-! ## Operations on untainted heaps -/

variable {ε α β : Type}

/-- An operation ends on an untainted heap; and if it succeeds, `P` holds. -/
inductive Clean (P : Heap → α → Prop) : EStateM.Result ε Heap α → Prop where
  | ok {x : α} {h : Heap} : h.Untainted → P h x → Clean P (.ok x h)
  | error {e : ε} {h : Heap} : h.Untainted → Clean P (.error e h)

/-- Whatever an operation ends with, the heap is untainted; and if it succeeds, `P` holds. -/
def Cleans (h : Heap) (op : HeapM ε α) (P : Heap → α → Prop) : Prop := Clean P (op h)

namespace Cleans

variable {h : Heap} {op : HeapM ε α} {next : α → HeapM ε β} {P P' : Heap → α → Prop}
  {R : Heap → β → Prop} {v : Value}

theorem pure (t : h.Untainted) {x : α} (p : P h x) : Cleans h (Pure.pure x : HeapM ε α) P :=
  .ok t p

theorem throw (t : h.Untainted) (e : ε) : Cleans h (throw e : HeapM ε α) P := .error t

theorem get_bind {f : Heap → HeapM ε β} (c : Cleans h (f h) R) : Cleans h (get >>= f) R := c

theorem bind (c : Cleans h op P)
    (continues : ∀ h₁ x, op h = .ok x h₁ → h₁.Untainted → P h₁ x → Cleans h₁ (next x) R) :
    Cleans h (op >>= next) R := by
  unfold Cleans at c ⊢
  simp only [Bind.bind, EStateM.bind]
  generalize result : op h = r at c
  cases c with
  | error t => exact .error t
  | ok t p => exact continues _ _ result t p

theorem mono (c : Cleans h op P) (weaker : ∀ h₁ x, P h₁ x → P' h₁ x) : Cleans h op P' := by
  unfold Cleans at c ⊢
  generalize op h = r at c
  cases c with
  | error t => exact .error t
  | ok t p => exact .ok t (weaker _ _ p)

theorem scope (c : Cleans h op P)
    (stable : ∀ h₁ x height, P h₁ x → P (h₁.truncateRoots height) x) :
    Cleans h (HeapM.scope op) P := by
  unfold Cleans at c ⊢
  unfold HeapM.scope
  generalize op h = r at c
  cases c with
  | error t => exact .error t
  | ok t p => exact .ok t (stable _ _ _ p)

theorem root_bind (t : h.Untainted) {next : Unit → HeapM ε β}
    (continues : (h.addRoot v).Untainted → h.Spares (h.addRoot v) →
      Cleans (h.addRoot v) (next ()) R) : Cleans h (HeapM.root v >>= next) R := by
  have gains := Heap.gains_addRoot h v
  exact continues (gains.untainted t nofun nofun) (gains.spares nofun)

theorem ite {c : Prop} [Decidable c] {yes no : HeapM ε α} (ifTrue : c → Cleans h yes P)
    (ifFalse : ¬ c → Cleans h no P) : Cleans h (if c then yes else no) P := by
  by_cases holds : c
  · rw [if_pos holds]
    exact ifTrue holds
  · rw [if_neg holds]
    exact ifFalse holds

end Cleans

/-- Whatever an operation ends with, nothing in the heap refers to an error value. -/
def Leaves (h : Heap) (op : HeapM ε α) : Prop := Cleans h op fun _ _ => True

theorem Leaves.map {h : Heap} {op : HeapM ε α} (l : Leaves h op) (f : α → β) :
    Leaves h (f <$> op) := by
  rw [map_eq_pure_bind]
  exact Cleans.bind l fun _ _ _ t _ => .pure t trivial

/-! ## Operations that make no error value -/

/-- An operation that makes no error value, and stores none. -/
def Builds (h : Heap) (op : HeapM ε α) (P : Heap → α → Prop) : Prop :=
  Cleans h op fun h' x => h.Spares h' ∧ P h' x

namespace Builds

variable {h : Heap} {op : HeapM ε α} {next : α → HeapM ε β} {P : Heap → α → Prop}
  {R : Heap → β → Prop} {v : Value}

theorem cleans (b : Builds h op P) : Cleans h op P := Cleans.mono b fun _ _ p => p.2

theorem leaves (b : Builds h op P) : Leaves h op := b.cleans.mono fun _ _ _ => trivial

theorem pure (t : h.Untainted) {x : α} (p : P h x) : Builds h (Pure.pure x : HeapM ε α) P :=
  Cleans.pure t ⟨.refl h, p⟩

theorem get_bind {f : Heap → HeapM ε β} (b : Builds h (f h) R) : Builds h (get >>= f) R := b

theorem bind (b : Builds h op P)
    (continues : ∀ h₁ x, h₁.Untainted → h.Spares h₁ → P h₁ x → Builds h₁ (next x) R) :
    Builds h (op >>= next) R := by
  refine Cleans.bind b fun h₁ x _ t p => ?_
  exact Cleans.mono (continues h₁ x t p.1 p.2) fun _ _ q => ⟨p.1.trans q.1, q.2⟩

theorem scope (b : Builds h op P)
    (stable : ∀ h₁ x height, P h₁ x → P (h₁.truncateRoots height) x) :
    Builds h (HeapM.scope op) P :=
  Cleans.scope b fun _ _ _ p => ⟨p.1, stable _ _ _ p.2⟩

theorem root_bind (t : h.Untainted) {next : Unit → HeapM ε β}
    (continues : (h.addRoot v).Untainted → h.Spares (h.addRoot v) →
      Builds (h.addRoot v) (next ()) R) : Builds h (HeapM.root v >>= next) R :=
  Cleans.root_bind t fun t₁ spares =>
    Cleans.mono (continues t₁ spares) fun _ _ q => ⟨spares.trans q.1, q.2⟩

/-- A change of the heap by itself. -/
theorem modify {f : Heap → Heap} (changed : (f h).Untainted ∧ h.Spares (f h)) :
    Builds h (modify f : HeapM ε Unit) fun _ _ => True :=
  Clean.ok changed.1 ⟨changed.2, trivial⟩

end Builds

end HeapM

open HeapM

/-! ## Constructors -/

section Constructors

variable {h : Heap} {o : Object} {car cdr : Value} {env : Env}

/-- The value that an operation gives is no error. -/
abbrev IsProper (h : Heap) (v : Value) : Prop := h.isError v = false

theorem builds_allocate (t : h.Untainted) (proper : ∀ kind message, o ≠ .error kind message)
    (sound : ∀ w ∈ o.references, h.isError w = false) : Builds h (allocate o) IsProper := by
  have gains := (Heap.gains_makeRoom h).trans (Heap.gains_insert h.makeRoom o)
  have single : ∀ x ∈ [o], ∀ kind message, x ≠ .error kind message :=
    List.forall_mem_singleton.2 proper
  unfold Builds Cleans
  rcases allocate_cases h o with ⟨_, step⟩ | ⟨_, step⟩
  · rw [step]
    exact .ok (gains.untainted t single (List.forall_mem_singleton.2 sound))
      ⟨gains.spares single, h.makeRoom.isError_insert proper⟩
  · rw [step]
    exact .error ((Heap.gains_makeRoom h).untainted t nofun nofun)

theorem builds_atom (t : h.Untainted) (proper : ∀ kind message, o ≠ .error kind message)
    (none : o.references = []) : Builds h (allocate o) IsProper := by
  refine builds_allocate t proper fun w member => ?_
  rw [none] at member
  cases member

theorem builds_intern (w : h.SymbolTable) (t : h.Untainted) (name : String) :
    Builds h (intern name) IsProper := by
  refine .get_bind ?_
  split
  · next symbol found => exact .pure t (Heap.isError_of_object? (w.named name symbol found) nofun)
  · refine .bind (builds_atom t (fun _ _ => nofun) rfl) fun h₁ symbol t₁ _ proper => ?_
    refine .bind (P := fun h _ => h.isError symbol = false) ?_ fun _ _ t _ proper => .pure t proper
    exact Clean.ok t₁ ⟨.refl h₁, proper⟩

theorem builds_cons (t : h.Untainted) (properCar : h.isError car = false)
    (properCdr : h.isError cdr = false) : Builds h (cons car cdr) IsProper := by
  refine .scope ?_ fun _ _ _ proper => proper
  refine .root_bind t fun t₁ spares => .root_bind t₁ fun t₂ spares' => ?_
  refine builds_allocate t₂ (fun _ _ => nofun) fun w member => spares' w (spares w ?_)
  rcases List.mem_pair.1 member with rfl | rfl
  · exact properCar
  · exact properCdr

theorem builds_consAll {list : Value} {items : List Value} (t : h.Untainted)
    (proper : h.isError list = false) (sound : ∀ v ∈ items, h.isError v = false) :
    Builds h (consAll list items) IsProper := by
  induction items generalizing h list with
  | nil => exact .pure t proper
  | cons item items ih =>
      rcases List.forall_mem_cons.1 sound with ⟨first, rest⟩
      refine .bind (builds_cons t first proper) fun h₁ v t₁ spares proper => ?_
      exact ih t₁ proper fun u member => spares u (rest u member)

theorem addRoots_untainted {items : List Value} (t : h.Untainted) :
    (items.foldl Heap.addRoot h).Untainted ∧ h.Spares (items.foldl Heap.addRoot h) := by
  induction items generalizing h with
  | nil => exact ⟨t, .refl h⟩
  | cons item items ih =>
      have gains := Heap.gains_addRoot h item
      rcases ih (gains.untainted t nofun nofun) with ⟨t₁, spares⟩
      exact ⟨t₁, (gains.spares nofun).trans spares⟩

theorem builds_list {items : List Value} (t : h.Untainted)
    (sound : ∀ v ∈ items, h.isError v = false) : Builds h (HeapM.list items) IsProper := by
  refine .scope ?_ fun _ _ _ proper => proper
  refine .bind (.modify (addRoots_untainted t)) fun h₁ _ t₁ spares _ => ?_
  exact builds_consAll t₁ h₁.isError_nil fun v member =>
    spares v (sound v (List.mem_reverse.1 member))

theorem builds_procedure {params body : Value} (t : h.Untainted)
    (properParams : h.isError params = false) (properBody : h.isError body = false)
    (properEnv : h.isError env.value = false) :
    Builds h (HeapM.procedure params body env) IsProper := by
  refine .scope ?_ fun _ _ _ proper => proper
  refine .root_bind t fun t₁ spares₁ => .root_bind t₁ fun t₂ spares₂ => ?_
  refine .root_bind t₂ fun t₃ spares₃ => ?_
  refine builds_allocate t₃ (fun _ _ => nofun) fun w member => ?_
  refine spares₃ w (spares₂ w (spares₁ w ?_))
  have listed : w = params ∨ w = body ∨ w = env.value := by
    simpa [Object.references] using member
  rcases listed with rfl | rfl | rfl
  · exact properParams
  · exact properBody
  · exact properEnv

theorem builds_child (t : h.Untainted) (proper : h.isError env.value = false) :
    Builds h (HeapM.child env) fun h (child : Env) => h.isError child.value = false := by
  refine .scope ?_ fun _ _ _ proper => proper
  refine .root_bind t fun t₁ spares => ?_
  refine .bind (builds_allocate t₁ (fun _ _ => nofun) fun w member => ?_) fun h₂ v t₂ _ proper =>
    .pure t₂ proper
  rcases List.mem_pair.1 member with rfl | rfl
  · exact Heap.isError_nil _
  · exact spares _ proper

end Constructors

/-! ## Definitions and parameters -/

section Definitions

variable {h : Heap} {env : Env} {symbol value : Value}

/-- What is in the place of bindings is no error, whether the value is an environment or not. -/
theorem Heap.Untainted.bindings (t : h.Untainted) (env : Env) :
    h.isError (env.bindings h) = false := by
  unfold Env.bindings
  split
  · next bindings parent found =>
    have object := Heap.frame?_eq_some_iff.1 found
    exact t env.value _ bindings object (Object.bindings_mem_references bindings parent)
  · rfl

theorem builds_define (t : h.Untainted) (properSymbol : h.isError symbol = false)
    (proper : h.isError value = false) :
    Builds h (env.define symbol value) fun _ _ => True := by
  refine .scope ?_ fun _ _ _ _ => trivial
  refine .root_bind t fun t₁ spares => ?_
  refine .bind (builds_cons t₁ (spares symbol properSymbol) (spares value proper)) ?_
  intro h₂ binding t₂ _ proper
  refine .get_bind (.bind (builds_cons t₂ proper (t₂.bindings env)) ?_)
  exact fun h₃ bindings t₃ _ proper => .modify (t₃.setBindings proper)

theorem builds_set (t : h.Untainted) (proper : h.isError value = false) :
    Builds h (env.set symbol value) fun _ _ => True := by
  refine .get_bind ?_
  split
  · exact .bind (.modify (t.setCdr proper)) fun _ _ t₁ _ _ => .pure t₁ trivial
  · exact .pure t trivial

/-- Parameters are bound to the elements of a list, which are no errors. -/
theorem builds_bindAll {params : List Value} {tail args : Value} (t : h.Untainted)
    (properParams : ∀ v ∈ params, h.isError v = false) (properTail : h.isError tail = false)
    (properArgs : h.isError args = false) :
    Builds h (env.bindAll params tail args) fun _ _ => True := by
  induction params generalizing h args with
  | nil =>
      unfold Env.bindAll
      split
      · exact builds_define t properTail properArgs
      · exact .pure t trivial
  | cons param params ih =>
      rcases List.forall_mem_cons.1 properParams with ⟨first, rest⟩
      refine .get_bind ?_
      split
      · next arg others goes =>
        have parts := t.parts goes
        refine .bind (builds_define t first parts.1) fun h₁ _ t₁ spares _ => ?_
        exact ih t₁ (fun v member => spares v (rest v member)) (spares tail properTail)
          (spares others parts.2)
      · exact .pure t trivial

/-- The elements and the tail of a list are no errors. -/
theorem Heap.Untainted.spineOnto (t : h.Untainted) {found : Array Value} {steps : Nat} {v : Value}
    (properFound : ∀ u ∈ found, h.isError u = false) (proper : h.isError v = false) :
    (∀ u ∈ (h.spineOnto found steps v).1, h.isError u = false) ∧
      h.isError (h.spineOnto found steps v).2 = false := by
  induction steps generalizing found v with
  | zero => exact ⟨properFound, proper⟩
  | succ steps ih =>
      unfold Heap.spineOnto
      split
      · next car cdr goes =>
        have parts := t.parts goes
        refine ih (fun u member => ?_) parts.2
        rcases Array.mem_push.1 member with old | rfl
        · exact properFound u old
        · exact parts.1
      · exact ⟨properFound, proper⟩

theorem Heap.Untainted.spine (t : h.Untainted) {v : Value} (proper : h.isError v = false) :
    (∀ u ∈ (h.spine v).1, h.isError u = false) ∧ h.isError (h.spine v).2 = false := by
  have parts : (∀ u ∈ (h.spineOnto #[] h.slots.size v).1, h.isError u = false) ∧
      h.isError (h.spineOnto #[] h.slots.size v).2 = false := t.spineOnto (by simp) proper
  exact ⟨fun u member => parts.1 u (Array.mem_toList_iff.1 member), parts.2⟩

theorem Heap.Untainted.items (t : h.Untainted) {v : Value} {items : List Value}
    (proper : h.isError v = false) (found : h.items? v = some items) :
    ∀ u ∈ items, h.isError u = false := by
  have parts := (t.spine proper).1
  unfold Heap.items? at found
  split at found
  · next elements step =>
    cases found
    rw [step] at parts
    exact parts
  · cases found

theorem builds_extend {params args : Value} (t : h.Untainted)
    (properEnv : h.isError env.value = false) (properParams : h.isError params = false)
    (properArgs : h.isError args = false) : Builds h (env.extend params args) fun _ _ => True := by
  refine .get_bind ?_
  split
  · exact .pure t trivial
  · next s _ =>
    dsimp only
    split
    · exact .pure t trivial
    · refine .scope ?_ fun _ _ _ _ => trivial
      refine .root_bind t fun t₁ spares₁ => .root_bind t₁ fun t₂ spares₂ => ?_
      have since := spares₁.trans spares₂
      refine .bind (builds_child t₂ (since _ properEnv)) fun h₃ child t₃ spares₃ _ => ?_
      refine .root_bind t₃ fun t₄ spares₄ => .get_bind ?_
      have since := (since.trans spares₃).trans spares₄
      have parts := t₄.spine (since params properParams)
      refine .bind (builds_bindAll t₄ parts.1 parts.2 (since args properArgs)) ?_
      exact fun _ _ t₅ _ _ => .pure t₅ trivial

end Definitions

end Lisplet
