import Lisplet.Proofs.Heap.Evolution
import Lisplet.Proofs.Heap.Spine
import Lisplet.Proofs.Reading.Phrase

/-!
# Depiction — trees on a heap

A value depicts a tree if its pairs unfold to it, whatever slots they are in. Atoms refer to
nothing, so a tree stays depicted as long as the roots keep the value, also while the heap is
collected. Beside it stand the rules for the constructors: a list that is built from values which
show trees depicts the list of these trees.
-/

namespace Lisplet

namespace Heap

/-- A value is a finite structure of pairs over atoms, and `t` is that structure. -/
inductive Depicts (h : Heap) : Value → Tree → Prop where
  | nil : Depicts h .nil .nil
  | leaf {v : Value} {o : Object} :
      h.object? v = some o → o.references = [] → Depicts h v (.leaf o)
  | pair {v car cdr : Value} {a d : Tree} :
      h.object? v = some (.pair car cdr) → Depicts h car a → Depicts h cdr d →
        Depicts h v (.pair a d)

section Depicting

variable {h h' : Heap} {v : Value} {t : Tree}

theorem Depicts.unique {t' : Tree} (one : h.Depicts v t) (other : h.Depicts v t') : t = t' := by
  induction one generalizing t' with
  | nil =>
      cases other with
      | nil => rfl
      | leaf found _ => cases found
      | pair found _ _ => cases found
  | leaf found none =>
      cases other with
      | nil => cases found
      | leaf found' _ =>
          rw [found] at found'
          cases found'
          rfl
      | pair found' _ _ =>
          rw [found] at found'
          cases found'
          cases none
  | pair found _ _ ihCar ihCdr =>
      cases other with
      | nil => cases found
      | leaf found' none =>
          rw [found] at found'
          cases found'
          cases none
      | pair found' car' cdr' =>
          rw [found] at found'
          cases found'
          rw [ihCar car', ihCdr cdr']

theorem Depicts.holds (depicts : h.Depicts v t) : h.Holds v := by
  cases depicts with
  | nil => exact holds_nil h
  | leaf found _ => exact holds_of_object? found
  | pair found _ _ => exact holds_of_object? found

/-- A heap with the same objects depicts the same trees. -/
theorem Depicts.transfer (kept : ∀ v o, h.object? v = some o → h'.object? v = some o)
    (depicts : h.Depicts v t) : h'.Depicts v t := by
  induction depicts with
  | nil => exact .nil
  | leaf found none => exact .leaf (kept _ _ found) none
  | pair found _ _ ihCar ihCdr => exact .pair (kept _ _ found) ihCar ihCdr

theorem Depicts.addRoot (depicts : h.Depicts v t) (u : Value) : (h.addRoot u).Depicts v t := by
  refine depicts.transfer fun v o found => ?_
  unfold Heap.addRoot
  split
  · exact found
  · exact found

theorem Depicts.addRoots (depicts : h.Depicts v t) (vs : List Value) :
    (vs.foldl Heap.addRoot h).Depicts v t := by
  induction vs generalizing h with
  | nil => exact depicts
  | cons u vs ih => exact ih (depicts.addRoot u)

theorem Depicts.truncateRoots (depicts : h.Depicts v t) (height : Nat) :
    (h.truncateRoots height).Depicts v t :=
  Depicts.transfer (h := h) (fun _ _ found => found) depicts

/-- What depicts the list of some trees is a list of values that depict them. -/
theorem Depicts.exists_spine {ts : List Tree} (depicts : h.Depicts v (Tree.nil.after ts)) :
    ∃ items, h.Spine v items .nil ∧ List.Forall₂ h.Depicts items ts := by
  induction ts generalizing v with
  | nil =>
      cases depicts
      exact ⟨[], .done rfl, .nil⟩
  | cons t ts ih =>
      rcases depicts with _ | _ | ⟨found, car, cdr⟩
      rcases ih cdr with ⟨items, spine, depicted⟩
      exact ⟨_ :: items, .step (by rw [pair?, found]) spine, .cons car depicted⟩

theorem Depicts.symbolName? {name : String} (depicts : h.Depicts v (.leaf (.symbol name))) :
    h.symbolName? v = some name := by
  rcases depicts with _ | ⟨found, _⟩
  rw [Heap.symbolName?, found]

/-- A value that the roots keep, and the tree it depicts. -/
structure Shows (h : Heap) (v : Value) (t : Tree) : Prop where
  anchored : h.Anchored v
  depicts : h.Depicts v t

theorem Shows.nil (h : Heap) : h.Shows .nil .nil := ⟨.nil, .nil⟩

theorem Evolves.depicts (e : h.Evolves h') (anchored : h.Anchored v) (depicts : h.Depicts v t) :
    h'.Depicts v t := by
  -- Induction on the tree; the parts of an anchored pair are anchored.
  induction depicts with
  | nil => exact .nil
  | @leaf v o found none =>
      refine .leaf (e.objects_kept _ _ anchored found ?_) none
      intro isEnvironment
      cases o with
      | environment bindings parent =>
          cases parent with
          | none => cases none
          | some parent => cases none
      | _ => cases isEnvironment
  | pair found _ _ ihCar ihCdr =>
      exact .pair (e.pairs_kept _ _ _ anchored found) (ihCar (anchored.car found))
        (ihCdr (anchored.cdr found))

/-- What is shown stays so, whatever is collected meanwhile. -/
theorem Evolves.shows (e : h.Evolves h') (shown : h.Shows v t) : h'.Shows v t :=
  ⟨e.anchored shown.anchored, e.depicts shown.anchored shown.depicts⟩

/-- Rooting a value is enough for it to show what it depicts. -/
theorem Depicts.shows_addRoot (depicts : h.Depicts v t) : (h.addRoot v).Shows v t := by
  refine ⟨?_, depicts.addRoot v⟩
  cases v with
  | nil => exact .nil
  | slot i => exact .root (.stack List.mem_cons_self)

end Depicting

end Heap

namespace HeapM

variable {h : Heap}

/-- An object without references depicts itself. -/
theorem keeps_leaf {o : Object} (w : h.WellFormed) (none : o.references = [])
    (other : ∀ name, o ≠ .symbol name) :
    Keeps (allocate o) h fun v h' => h'.Depicts v (.leaf o) := by
  refine (keeps_allocate w ?_ other).mono fun v h' _ found => .leaf found none
  intro v member
  rw [none] at member
  cases member

/-- The table of symbols is a root, so a symbol is kept as soon as it is interned. -/
theorem keeps_symbol (w : h.WellFormed) (name : String) :
    Keeps (intern name) h fun v h' => h'.Shows v (.leaf (.symbol name)) := by
  refine (keeps_intern w name).mono fun v h' e named => ⟨.root (.symbol named), ?_⟩
  exact .leaf (e.wellFormed.named name v named) rfl

theorem keeps_pair {car cdr : Value} {a d : Tree} (w : h.WellFormed)
    (depictsCar : h.Depicts car a) (depictsCdr : h.Depicts cdr d) :
    Keeps (cons car cdr) h fun v h' => h'.Depicts v (.pair a d) := by
  refine .scope (Q := fun v h' => h'.Depicts v (.pair a d)) ?_ fun _ _ height depicts =>
    depicts.truncateRoots height
  -- Both parts are rooted by the time the pair is allocated.
  have e₁ := Heap.Evolves.addRoot w depictsCar.holds
  have e₂ := Heap.Evolves.addRoot e₁.wellFormed (depictsCdr.addRoot car).holds
  have showsCar := e₂.shows depictsCar.shows_addRoot
  have showsCdr := (depictsCdr.addRoot car).shows_addRoot
  refine .bind (.modify (Q := fun _ h' => h' = h.addRoot car) e₁ rfl) ?_
  rintro _ h₁ _ rfl
  refine .bind (.modify (Q := fun _ h' => h' = (h.addRoot car).addRoot cdr) e₂ rfl) ?_
  rintro _ h₂ _ rfl
  refine (keeps_allocate (o := .pair car cdr) e₂.wellFormed ?_ fun _ => nofun).mono
    fun v h' e found => ?_
  · intro v member
    rcases List.mem_pair.1 member with rfl | rfl
    · exact showsCar.anchored
    · exact showsCdr.anchored
  · exact .pair found (e.shows showsCar).depicts (e.shows showsCdr).depicts

/-- Values that show trees, put in front of a list, depict the list of these trees. -/
theorem keeps_after {items : List Value} {ts : List Tree} {list : Value} {t : Tree}
    (w : h.WellFormed) (depicts : h.Depicts list t) (shown : List.Forall₂ h.Shows items ts) :
    Keeps (consAll list items) h fun v h' => h'.Depicts v (t.after ts.reverse) := by
  -- The list so far is not kept by the roots; each pair roots it while it is extended.
  induction items generalizing h list t ts with
  | nil =>
      cases shown
      exact .pure w depicts
  | cons item items ih =>
      rcases shown with _ | ⟨shownItem, shown⟩
      refine .bind (keeps_pair w shownItem.depicts depicts) fun v h' e depicts' => ?_
      refine (ih e.wellFormed depicts' (shown.imp fun _ _ => e.shows)).mono
        fun v h'' _ whole => ?_
      simpa [Tree.after] using whole

theorem keeps_listOf {items : List Value} {ts : List Tree} (w : h.WellFormed)
    (depicted : List.Forall₂ h.Depicts items ts) :
    Keeps (list items) h fun v h' => h'.Depicts v (Tree.nil.after ts) := by
  rcases List.forall₂_iff_get.1 depicted with ⟨length, depicts⟩
  have held : ∀ v ∈ items, h.Holds v := by
    intro v member
    rcases List.mem_iff_get.1 member with ⟨i, rfl⟩
    exact (depicts i.val i.isLt (length ▸ i.isLt)).holds
  have added := evolves_addRoots w held
  have shown : List.Forall₂ (items.foldl Heap.addRoot h).Shows items ts :=
    List.forall₂_iff_get.2 ⟨length, fun i inItems inTrees =>
      ⟨added.2 _ (List.getElem_mem inItems), (depicts i inItems inTrees).addRoots items⟩⟩
  refine .scope (Q := fun v h' => h'.Depicts v (Tree.nil.after ts)) ?_ fun _ _ height depicts =>
    depicts.truncateRoots height
  refine .bind (.modify (Q := fun _ h' => List.Forall₂ h'.Shows items ts) added.1 shown)
    fun _ h₁ e₁ shown₁ => ?_
  have whole := keeps_after e₁.wellFormed .nil (List.rel_reverse shown₁)
  rwa [List.reverse_reverse] at whole

end HeapM

end Lisplet
