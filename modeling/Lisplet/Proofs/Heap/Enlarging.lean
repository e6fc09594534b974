import Lisplet.Proofs.Errors.Storage
import Lisplet.Proofs.Frames.Endurance
import Lisplet.Proofs.Heap.Retention

/-!
# Enlarging — what definitions leave as it was

A definition makes two pairs, each of which may take a collection, and then it puts a binding in
front of those that its environment has. Where one definition follows another, the later ones may
collect when the environment is no longer what it was. What could be reached at first can still be
reached then, since the older bindings are a tail of the new ones (`Enlarges`).
-/

namespace Lisplet

open Heap.Operation (heapAfter)

namespace Heap

/-- What has become of an object where `env` may have got bindings in front of those it had. -/
inductive Enlarged (env : Env) (h : Heap) (i : Nat) : Object → Prop where
  | same {o : Object} : h.object? (.slot i) = some o → Enlarged env h i o
  | bindings {bindings bindings' : Value} {parent : Option Env} : env.value = .slot i →
      h.object? (.slot i) = some (.environment bindings' parent) → h.EndsIn bindings bindings' →
        Enlarged env h i (.environment bindings parent)

/-- `h` is a later state of `base` in which `env` may have got bindings and nothing else is new. -/
structure Enlarges (base : Heap) (env : Env) (h : Heap) : Prop where
  tidy : h.Tidy
  roots : base.KeepsRoots h
  kept : ∀ i o, base.Reachable i → base.object? (.slot i) = some o → Enlarged env h i o

/-- `h'` has the roots of `h`, and no more than `env` has got bindings on the way. -/
structure Enlarging (base : Heap) (env : Env) (h h' : Heap) : Prop where
  roots : h.KeepsRoots h'
  enlarges : base.Enlarges env h → base.Enlarges env h'

section Enlarging

variable {base h h' : Heap} {env : Env} {i j : Nat} {o : Object} {v tail symbol value : Value}
  {bindings : Value} {parent : Option Env}

theorem Enlarged.occupied (e : Enlarged env h i o) : h.Occupied i := by
  cases e with
  | same found => exact occupied_of_object? found
  | bindings _ found _ => exact occupied_of_object? found

namespace EndsIn

/-- A tail of a list can be reached with the list. -/
theorem reachable (ends : h.EndsIn tail v)
    (listed : ∀ k, v = .slot k → h.Occupied k → h.Reachable k) (same : tail = .slot j)
    (occupied : h.Occupied j) : h.Reachable j := by
  induction ends with
  | here => exact listed j same occupied
  | @later v car cdr found _ ih =>
      cases v with
      | nil => cases found
      | slot k =>
          have reached := listed k rfl (occupied_of_object? found)
          refine ih fun m isCdr inside => .reference reached found ?_ inside
          simp [Object.references, isCdr]

/-- A list is what it was as long as nothing in it has changed. -/
theorem transfer (ends : h.EndsIn tail v)
    (listed : ∀ k, v = .slot k → h.Occupied k → h.Reachable k)
    (kept : ∀ i, h.Reachable i → h'.object? (.slot i) = h.object? (.slot i)) :
    h'.EndsIn tail v := by
  induction ends with
  | here => exact .here
  | @later v car cdr found _ ih =>
      cases v with
      | nil => cases found
      | slot k =>
          have reached := listed k rfl (occupied_of_object? found)
          refine .later ((kept k reached).trans found) (ih fun m isCdr inside => ?_)
          exact .reference reached found (by simp [Object.references, isCdr]) inside

/-- No environment is in a list. -/
theorem put (ends : h.EndsIn tail v)
    (found : h.object? (.slot i) = some (.environment bindings parent)) (o : Object) :
    (h.put i o).EndsIn tail v := by
  induction ends with
  | here => exact .here
  | later goes _ ih =>
      refine .later ((object?_put_ne ?_).trans goes) ih
      rintro rfl
      cases found.symm.trans goes

end EndsIn

namespace Enlarges

theorem refl (tidy : h.Tidy) : h.Enlarges env h := ⟨tidy, .refl h, fun _ _ _ found => .same found⟩

/-- What could be reached still can, through the new bindings where need be. -/
theorem reachable (a : base.Enlarges env h) (reached : base.Reachable i) : h.Reachable i := by
  have occupied {k : Nat} (reached : base.Reachable k) : h.Occupied k := by
    obtain ⟨o, found⟩ := occupied_iff.1 reached.occupied
    exact (a.kept k o reached found).occupied
  induction reached with
  | start root before => exact .start (a.roots.isRoot root) (occupied (.start root before))
  | @reference i j o before found member inside ih =>
      have there := occupied (.reference before found member inside)
      cases a.kept i o before found with
      | same found' => exact .reference ih found' member there
      | @bindings bindings bindings' parent _ found' ends =>
          rcases Object.mem_references_environment_iff.1 member with same | ⟨p, rfl, same⟩
          · -- The older bindings are a tail of those that the environment has now.
            refine ends.reachable (fun k isList listed => ?_) same.symm there
            exact .reference ih found' (isList ▸ Object.bindings_mem_references _ _) listed
          · exact .reference ih found' (by simp [Object.references, same]) there

theorem saved_trans (a : base.Enlarges env h) (s : h.Saved h') : base.Enlarges env h' := by
  refine ⟨s.tidy, a.roots.trans s.roots, fun i o reached found => ?_⟩
  have same := s.kept i (a.reachable reached)
  cases a.kept i o reached found with
  | same found' => exact .same (same.trans found')
  | @bindings _ _ parent name found' ends =>
      refine .bindings name (same.trans found') (ends.transfer (fun k isList listed => ?_) s.kept)
      exact .reference (a.reachable reached) found'
        (isList ▸ Object.bindings_mem_references _ _) listed

theorem truncateRoots (a : base.Enlarges env h) (s : base.Enlarging env h h') :
    base.Enlarges env (h'.truncateRoots h.roots.length) := by
  refine ⟨(s.enlarges a).tidy.transfer rfl rfl, a.roots.trans s.roots.truncateRoots, ?_⟩
  intro i o reached found
  have same (v : Value) : (h'.truncateRoots h.roots.length).object? v = h'.object? v := rfl
  cases (s.enlarges a).kept i o reached found with
  | same found' => exact .same found'
  | bindings name found' ends => exact .bindings name found' (ends.congr same)

/-- The list that an environment takes over begins with one pair in front of the older bindings. -/
theorem setBindings (a : base.Enlarges env h) (binding : Value)
    (listed : ∀ bindings parent, h.object? env.value = some (.environment bindings parent) →
      h.object? v = some (.pair binding bindings)) : base.Enlarges env (h.setBindings env v) := by
  rcases setBindings_cases h env v with ⟨e, bindings, parent, name, found, step⟩ | ⟨_, step⟩
  · have inFront := listed bindings parent (name ▸ found)
    have isPair : v ≠ .slot e := by
      rintro rfl
      cases found.symm.trans inFront
    have occupied := occupied_of_object? found
    have list : (h.put e (.environment v parent)).EndsIn bindings v :=
      .later ((object?_put_ne isPair).trans inFront) .here
    rw [step]
    refine ⟨a.tidy.put _ occupied, a.roots.trans (.put h e _), fun i o reached before => ?_⟩
    by_cases same : i = e
    · -- The new pair comes in front, whether or not there have been definitions before.
      subst same
      cases a.kept i o reached before with
      | same found' =>
          cases found.symm.trans found'
          exact .bindings name (object?_put_self occupied) list
      | bindings _ found' ends =>
          cases found.symm.trans found'
          exact .bindings name (object?_put_self occupied) ((ends.put found _).trans list)
    · have other : Value.slot i ≠ .slot e := fun eq => same (Value.slot.inj eq)
      cases a.kept i o reached before with
      | same found' => exact .same ((object?_put_ne other).trans found')
      | bindings name' _ _ => exact absurd (name'.symm.trans name) other
  · rw [step]
    exact a

theorem retains (a : base.Enlarges env h) : base.Retains (some env.value) base.IsRoot h := by
  intro i o reached found
  cases a.kept i o reached found with
  | same found' => exact .inl found'
  | @bindings bindings bindings' parent name found' _ =>
      exact .inr ⟨congrArg some name, _, .environment bindings bindings' parent, found'⟩

end Enlarges

theorem composes_enlarging (base : Heap) (env : Env) : Composes (base.Enlarging env) where
  refl h := ⟨.refl h, id⟩
  trans s s' := ⟨s.roots.trans s'.roots, fun a => s'.enlarges (s.enlarges a)⟩

theorem Saves.enlarging (s : h.Saves h h') : base.Enlarging env h h' :=
  ⟨s.roots, fun a => a.saved_trans (s.saved (.refl a.tidy))⟩

/-- Making data adds no bindings. -/
theorem dataConduct_enlarging (base : Heap) (env : Env) :
    DataConduct (base.Enlarging env) (base.Enlarging env) where
  along := composes_enlarging base env
  within := composes_enlarging base env
  weaken := id
  close s := ⟨s.roots.truncateRoots, fun a => a.truncateRoots s⟩
  addRoot h v := (Saves.addRoot h v).enlarging
  note h notice := ((dataConduct_saves h).note h notice).enlarging
  allocate h o _ := (Saves.allocate h o).enlarging
  intern h name := (Saves.intern h name).enlarging

/-- A pair that has been made is where its handle says, and nothing else is new. -/
theorem object?_of_cons {car cdr : Value} (tidy : h.Tidy)
    (made : HeapM.cons car cdr h = .ok v h') :
    h'.object? v = some (.pair car cdr) ∧ h.Gains [.pair car cdr] h' := by
  have rooted : h.Saved ((h.addRoot car).addRoot cdr) :=
    (Saves.addRoot _ cdr).saved ((Saves.addRoot h car).saved (.refl tidy))
  have gains : h.Gains [.pair car cdr] (((h.addRoot car).addRoot cdr).makeRoom.insert
      (.pair car cdr)).2 :=
    (gains_addRoot h car).trans <| (gains_addRoot _ cdr).trans <| (gains_makeRoom _).trans <|
      gains_insert _ _
  rcases HeapM.cons_cases car cdr h with ⟨_, step⟩ | ⟨e, step⟩
  · cases step.symm.trans made
    obtain ⟨i, value, places⟩ := rooted.makeRoom.tidy.places_insert (.pair car cdr)
    refine ⟨?_, gains⟩
    rw [value]
    exact places.object?_new
  · cases step.symm.trans made

/-- A definition makes two pairs, of which the second becomes the list of bindings. -/
theorem Enlarging.define (base h : Heap) (env : Env) (symbol value : Value) :
    base.Enlarging env h (heapAfter (env.define symbol value) h) := by
  have c := dataConduct_enlarging base env
  refine ⟨conduct_keepsRoots.define h env symbol value, fun a => ?_⟩
  have first := c.obeys_cons (h.addRoot env.value) symbol value
  unfold HeapM.Obeys heapAfter at first
  unfold heapAfter
  rw [define_eq]
  cases made : HeapM.cons symbol value (h.addRoot env.value) with
  | error e h₁ =>
      rw [made] at first
      exact a.truncateRoots (c.along.trans (c.addRoot h env.value) first)
  | ok binding h₁ =>
      rw [made] at first
      have second := c.obeys_cons h₁ binding (env.bindings h₁)
      have sofar := c.along.trans (c.addRoot h env.value) first
      have tidy := (sofar.enlarges a).tidy
      unfold HeapM.Obeys heapAfter at second
      dsimp only
      cases made' : HeapM.cons binding (env.bindings h₁) h₁ with
      | error e h₂ =>
          rw [made'] at second
          exact a.truncateRoots (c.along.trans sofar second)
      | ok list h₂ =>
          rw [made'] at second
          obtain ⟨there, gains⟩ := object?_of_cons tidy made'
          have sets : base.Enlarging env h₂ (h₂.setBindings env list) := by
            refine ⟨.setBindings h₂ env list, fun a₂ => a₂.setBindings binding ?_⟩
            intro bindings parent found
            -- Whatever is an environment by now was the same one before the second pair was made.
            rcases gains _ _ found with found₁ | isNew
            · rwa [Env.bindings_eq found₁] at there
            · cases List.mem_singleton.1 isNew
          exact a.truncateRoots (c.along.trans (c.along.trans sofar second) sets)

theorem Enlarging.definePrimitives (base h : Heap) (env : Env) (primitives : List Primitive) :
    base.Enlarging env h (heapAfter (env.definePrimitives primitives) h) := by
  have c := dataConduct_enlarging base env
  have defines (h : Heap) :
      HeapM.Obeys (base.Enlarging env) h (primitives.forM env.definePrimitive) := by
    induction primitives generalizing h with
    | nil => exact .pure c.along _
    | cons p primitives ih =>
        refine .bind c.along (.bind c.along (c.intern h p.name) fun name h₁ _ => ?_) fun _ h' _ =>
          ih h'
        exact .bind c.along (c.allocate h₁ rfl) fun value h₂ _ => .define base h₂ env name value
  exact c.scope (c.root_bind (defines _))

end Enlarging

end Heap

end Lisplet
