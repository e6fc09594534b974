import Lisplet.Proofs.Blindness
import Lisplet.Proofs.Frames.Definition
import Lisplet.Proofs.Saving

/-!
# Rooting — roots that make no difference

A value that is kept anyway may be rooted once more, and nothing but the root stack is different.
`Alike base h h'` says of two heaps that they have come of `base` with different roots, and that
what is a root of one only was kept by `base` already. So a collection empties the same slots on
both sides, an allocation takes the same slot or fails in the same way, and a scope leads back to
the roots there were. What data is made on one side is made on the other.
-/

namespace Lisplet

open Heap.Operation (heapAfter)
open HeapM (Obeys)

namespace Heap

variable {base h h' k k' : Heap} {v : Value} {i : Nat}

/-! ## Kept values -/

/-- A collection reaches what the roots keep as part of a list. -/
theorem Anchored.reachable (anchored : h.Anchored v) :
    ∀ i, v = .slot i → h.Occupied i → h.Reachable i := by
  induction anchored with
  | nil => nofun
  | root root =>
      rintro i rfl occupied
      exact .start root occupied
  | @car p car cdr _ found ih =>
      rintro i rfl occupied
      cases p with
      | nil => cases found
      | slot k =>
          refine .reference (ih k rfl (occupied_of_object? found)) found ?_ occupied
          simp [Object.references]
  | @cdr p car cdr _ found ih =>
      rintro i rfl occupied
      cases p with
      | nil => cases found
      | slot k =>
          refine .reference (ih k rfl (occupied_of_object? found)) found ?_ occupied
          simp [Object.references]

/-- What `base` keeps as part of a list is still so kept. -/
theorem Saved.anchored (s : base.Saved h) (anchored : base.Anchored v) : h.Anchored v := by
  have pairs {p car cdr : Value} (anchored : base.Anchored p)
      (found : base.object? p = some (.pair car cdr)) : h.object? p = some (.pair car cdr) := by
    cases p with
    | nil => cases found
    | slot k =>
        exact (s.kept k (anchored.reachable k rfl (occupied_of_object? found))).trans found
  induction anchored with
  | nil => exact .nil
  | root root => exact .root (s.roots.isRoot root)
  | car before found ih => exact .car ih (pairs before found)
  | cdr before found ih => exact .cdr ih (pairs before found)

/-- The roots may be those of an earlier state. -/
theorem Saved.withRoots (s : base.Saved h) (s' : base.Saved k) :
    base.Saved { k with roots := h.roots } :=
  s'.transfer ⟨s'.roots.rootEnv_eq, s'.roots.pins_eq, s'.roots.symbols_extend,
    s.roots.roots_suffix⟩ rfl rfl

/-- Dropping the roots that have been added gives back those there were. -/
theorem KeepsRoots.truncateRoots_eq (keeps : h.KeepsRoots h') :
    h'.truncateRoots h.roots.length = { h' with roots := h.roots } :=
  congrArg (fun roots => { h' with roots }) (RootStack.eq_of_values keeps.values_truncateRoots)

/-! ## Heaps that are alike -/

/-- `h'` is `h` with other roots. -/
def Rerooted (h h' : Heap) : Prop := ∃ roots, h' = { h with roots }

theorem Rerooted.truncateRoots (r : h.Rerooted h') (height height' : Nat) :
    (h.truncateRoots height).Rerooted (h'.truncateRoots height') := by
  rcases r with ⟨roots, rfl⟩
  exact ⟨_, rfl⟩

theorem Rerooted.setBindings (r : h.Rerooted h') (env : Env) (bindings : Value) :
    (h.setBindings env bindings).Rerooted (h'.setBindings env bindings) := by
  rcases r with ⟨roots, rfl⟩
  refine ⟨roots, ?_⟩
  have same : ({ h with roots } : Heap).object? env.value = h.object? env.value := rfl
  unfold Heap.setBindings
  rw [same]
  split
  · rfl
  · rfl

/--
Two later states of `base` that are the same but for their roots, where a root of one is a root of
the other or was kept by `base`.
-/
structure Alike (base h h' : Heap) : Prop where
  rerooted : h.Rerooted h'
  saved : base.Saved h
  saved' : base.Saved h'
  there : ∀ v ∈ h.roots.values, v ∈ h'.roots.values ∨ base.Anchored v
  back : ∀ v ∈ h'.roots.values, v ∈ h.roots.values ∨ base.Anchored v

namespace Alike

theorem refl (t : h.Tidy) : h.Alike h h :=
  ⟨⟨h.roots, rfl⟩, .refl t, .refl t, fun _ => .inl, fun _ => .inl⟩

theorem symm (a : base.Alike h h') : base.Alike h' h := by
  refine ⟨?_, a.saved', a.saved, a.back, a.there⟩
  rcases a.rerooted with ⟨roots, rfl⟩
  exact ⟨h.roots, rfl⟩

/-- One root more on both sides. -/
theorem addRoot (a : base.Alike h h') (v : Value) : base.Alike (h.addRoot v) (h'.addRoot v) := by
  have rooted : base.Saved (h.addRoot v) := (Saves.addRoot h v).saved a.saved
  have rooted' : base.Saved (h'.addRoot v) := (Saves.addRoot h' v).saved a.saved'
  unfold Heap.addRoot at rooted rooted' ⊢
  split
  · exact a
  · next some =>
    rw [if_neg some] at rooted rooted'
    refine ⟨?_, rooted, rooted', fun w member => ?_, fun w member => ?_⟩
    · rcases a.rerooted with ⟨roots, rfl⟩
      exact ⟨_, rfl⟩
    · rcases List.mem_cons.1 member with rfl | member
      · exact .inl List.mem_cons_self
      · exact (a.there w member).imp_left (List.mem_cons_of_mem v)
    · rcases List.mem_cons.1 member with rfl | member
      · exact .inl List.mem_cons_self
      · exact (a.back w member).imp_left (List.mem_cons_of_mem v)

/-- One root more on one side, where it is kept anyway. -/
theorem addRoot_right (a : base.Alike h h') (kept : v ∈ h.roots.values ∨ base.Anchored v) :
    base.Alike h (h'.addRoot v) := by
  have rooted' : base.Saved (h'.addRoot v) := (Saves.addRoot h' v).saved a.saved'
  unfold Heap.addRoot at rooted' ⊢
  split
  · exact a
  · next some =>
    rw [if_neg some] at rooted'
    refine ⟨?_, a.saved, rooted', fun w member => ?_, fun w member => ?_⟩
    · rcases a.rerooted with ⟨roots, rfl⟩
      exact ⟨_, rfl⟩
    · exact (a.there w member).imp_left (List.mem_cons_of_mem v)
    · rcases List.mem_cons.1 member with rfl | member
      · exact kept
      · exact a.back w member

/-- What has been done since is kept, and the roots are those there were. -/
theorem withRoots (a : base.Alike h h') (b : base.Alike k k') :
    base.Alike { k with roots := h.roots } { k' with roots := h'.roots } := by
  refine ⟨?_, a.saved.withRoots b.saved, a.saved'.withRoots b.saved', a.there, a.back⟩
  rcases b.rerooted with ⟨roots, rfl⟩
  exact ⟨h'.roots, rfl⟩

/-! ## Allocating -/

theorem anchored_of_isRoot (a : base.Alike h h') (root : h.IsRoot v) : h'.Anchored v := by
  have roots := a.there
  have kept := a.saved'
  rcases a.rerooted with ⟨_, rfl⟩
  cases root with
  | environment => exact .root .environment
  | symbol found => exact .root (.symbol found)
  | pin found => exact .root (.pin found)
  | stack member =>
      rcases roots _ member with member | anchored
      · exact .root (.stack member)
      · exact kept.anchored anchored

theorem object?_eq (a : base.Alike h h') (v : Value) : h'.object? v = h.object? v := by
  rcases a.rerooted with ⟨_, rfl⟩
  rfl

theorem reachable_of (a : base.Alike h h') (reached : h.Reachable i) : h'.Reachable i := by
  -- Induction on the way there: only where it starts is there a difference.
  induction reached with
  | @start i root occupied =>
      have occupied' : h'.Occupied i := by rwa [Occupied, a.object?_eq]
      exact (a.anchored_of_isRoot root).reachable i rfl occupied'
  | reference _ found member occupied ih =>
      exact .reference ih ((a.object?_eq _).trans found) member (by rwa [Occupied, a.object?_eq])

/-- Marking starts from other roots, and marks the same slots. -/
theorem slots_markFrom (a : base.Alike h h') :
    (h'.markFrom (h'.startsIn (h'.symbols.toList.map Prod.snd))).slots =
      (h.markFrom (h.startsIn (h.symbols.toList.map Prod.snd))).slots := by
  have slots : h'.slots = h.slots := by
    rcases a.rerooted with ⟨_, rfl⟩
    rfl
  have reach (i : Nat) : h'.Reachable i ↔ h.Reachable i := ⟨a.symm.reachable_of, a.reachable_of⟩
  have starts (h : Heap) (i : Nat) :
      h.ReachableFrom (· ∈ h.startsIn (h.symbols.toList.map Prod.snd)) i ↔ h.Reachable i :=
    reachableFrom_startsIn_iff (.refl _) i
  refine Array.ext_getElem? fun i => ?_
  have same := (starts h' i).trans ((reach i).trans (starts h i).symm)
  rw [markFrom_slots a.saved.tidy.marksClear, markFrom_slots a.saved'.tidy.marksClear, slots]
  exact congrArg (fun b => (h.slots[i]?).map fun slot : Slot => { slot with marked := b })
    (decide_eq_decide.2 same)

/-- So a collection leaves heaps that are alike. -/
theorem makeRoom (a : base.Alike h h') : base.Alike h.makeRoom h'.makeRoom := by
  refine ⟨?_, a.saved.makeRoom, a.saved'.makeRoom, ?_, ?_⟩
  · have marked := a.slots_markFrom
    rcases a.rerooted with ⟨roots, rfl⟩
    refine ⟨roots, ?_⟩
    have collected : ({ h with roots } : Heap).collect.1 = { h.collect.1 with roots } := by
      show ({ ({ h with roots } : Heap) with
        slots := (({ h with roots } : Heap).markFrom
          (({ h with roots } : Heap).startsIn (h.symbols.toList.map Prod.snd))).slots } :
            Heap).sweep.1 = _
      rw [marked]
      rfl
    have same : ({ h with roots } : Heap).makeRoom =
        if h.capacity ≤ h.live then ({ h with roots } : Heap).collect.1 else { h with roots } := rfl
    rw [same, collected]
    unfold Heap.makeRoom
    split
    · rfl
    · rfl
  · simpa only [roots_makeRoom] using fun v member => a.there v member
  · simpa only [roots_makeRoom] using fun v member => a.back v member

theorem insert (a : base.Alike h h') (o : Object) :
    (h'.insert o).1 = (h.insert o).1 ∧ base.Alike (h.insert o).2 (h'.insert o).2 := by
  have same : h'.insert o = ((h.insert o).1, { (h.insert o).2 with roots := h'.roots }) := by
    rcases a.rerooted with ⟨roots, rfl⟩
    unfold Heap.insert
    dsimp only
    split
    · rfl
    · rfl
  have roots : (h.insert o).2.roots = h.roots := (Level.insert h o).roots_eq
  have roots' : (h'.insert o).2.roots = h'.roots := (Level.insert h' o).roots_eq
  refine ⟨by rw [same], ⟨h'.roots, by rw [same]⟩, a.saved.insert o, a.saved'.insert o, ?_, ?_⟩
  · rw [roots, roots']
    exact a.there
  · rw [roots, roots']
    exact a.back

/-- An object goes into the same slot on both sides, or there is no room for it on either. -/
theorem allocate (a : base.Alike h h') (o : Object) :
    Matches base.Alike (HeapM.allocate o h) (HeapM.allocate o h') := by
  have made := a.makeRoom
  have capacity : h'.makeRoom.capacity = h.makeRoom.capacity ∧
      h'.makeRoom.live = h.makeRoom.live := by
    rcases made.rerooted with ⟨_, same⟩
    rw [same]
    exact ⟨rfl, rfl⟩
  unfold HeapM.allocate
  dsimp only
  rw [capacity.1, capacity.2]
  split
  · exact .error _ made
  · rw [(made.insert o).1]
    exact .ok _ (made.insert o).2

/-! ## Scopes -/

section Scopes

variable {ε α : Type} {body body' : HeapM ε α}

/-- Both scopes drop the roots that they have added. -/
theorem scope (a : base.Alike h h') (keeps : Obeys KeepsRoots h body)
    (keeps' : Obeys KeepsRoots h' body') (both : Matches base.Alike (body h) (body' h')) :
    Matches base.Alike (HeapM.scope body h) (HeapM.scope body' h') := by
  unfold Obeys heapAfter at keeps keeps'
  unfold HeapM.scope
  generalize body h = r at both keeps
  generalize body' h' = r' at both keeps'
  cases both with
  | ok v b =>
      dsimp only
      rw [keeps.truncateRoots_eq, keeps'.truncateRoots_eq]
      exact .ok v (a.withRoots b)
  | error e b =>
      dsimp only
      rw [keeps.truncateRoots_eq, keeps'.truncateRoots_eq]
      exact .error e (a.withRoots b)

/-- A scope may be there on one side only, if the other side has added no roots. -/
theorem scope_right (a : base.Alike h h') (level : Obeys Level h body)
    (keeps' : Obeys KeepsRoots h' body') (both : Matches base.Alike (body h) (body' h')) :
    Matches base.Alike (body h) (HeapM.scope body' h') := by
  unfold Obeys heapAfter at level keeps'
  unfold HeapM.scope
  generalize body h = r at both level
  generalize body' h' = r' at both keeps'
  cases both with
  | @ok v k k' b =>
      have same : k = { k with roots := h.roots } :=
        congrArg (fun roots => { k with roots }) level.roots_eq
      dsimp only
      rw [keeps'.truncateRoots_eq, same]
      exact .ok v (a.withRoots b)
  | @error e k k' b =>
      have same : k = { k with roots := h.roots } :=
        congrArg (fun roots => { k with roots }) level.roots_eq
      dsimp only
      rw [keeps'.truncateRoots_eq, same]
      exact .error e (a.withRoots b)

end Scopes

/-! ## Pairs, procedures and definitions -/

theorem cons (a : base.Alike h h') (car cdr : Value) :
    Matches base.Alike (HeapM.cons car cdr h) (HeapM.cons car cdr h') := by
  have keeps (h : Heap) : Obeys (ε := Fatal) KeepsRoots h (do
      HeapM.root car
      HeapM.root cdr
      HeapM.allocate (.pair car cdr)) :=
    dataConduct_keepsRoots.root_bind (dataConduct_keepsRoots.root_bind (KeepsRoots.allocate _ _))
  exact a.scope (keeps h) (keeps h') (((a.addRoot car).addRoot cdr).allocate _)

theorem procedure (a : base.Alike h h') (params body : Value) (env : Env) :
    Matches base.Alike (HeapM.procedure params body env h)
      (HeapM.procedure params body env h') := by
  have keeps (h : Heap) : Obeys (ε := Fatal) KeepsRoots h (do
      HeapM.root params
      HeapM.root body
      HeapM.root env.value
      HeapM.allocate (.procedure params body env)) :=
    dataConduct_keepsRoots.root_bind
      (dataConduct_keepsRoots.root_bind
        (dataConduct_keepsRoots.root_bind (KeepsRoots.allocate _ _)))
  exact a.scope (keeps h) (keeps h')
    ((((a.addRoot params).addRoot body).addRoot env.value).allocate _)

/-- A definition changes an environment that `base` may know, so all that is left is the roots. -/
theorem define (a : base.Alike h h') (env : Env) (symbol value : Value) :
    Matches Rerooted (env.define symbol value h) (env.define symbol value h') := by
  have first := (a.addRoot env.value).cons symbol value
  rw [define_eq, define_eq]
  generalize HeapM.cons symbol value (h.addRoot env.value) = r at first
  generalize HeapM.cons symbol value (h'.addRoot env.value) = r' at first
  cases first with
  | error e a₁ => exact .error e (a₁.rerooted.truncateRoots _ _)
  | @ok binding h₁ h₁' a₁ =>
      have same : env.bindings h₁' = env.bindings h₁ := by
        rcases a₁.rerooted with ⟨roots, rfl⟩
        rfl
      have second := a₁.cons binding (env.bindings h₁)
      dsimp only
      rw [same]
      generalize HeapM.cons binding (env.bindings h₁) h₁ = r at second
      generalize HeapM.cons binding (env.bindings h₁) h₁' = r' at second
      cases second with
      | error e a₂ => exact .error e (a₂.rerooted.truncateRoots _ _)
      | ok list a₂ => exact .ok () ((a₂.rerooted.setBindings env list).truncateRoots _ _)

end Alike

end Heap

end Lisplet
