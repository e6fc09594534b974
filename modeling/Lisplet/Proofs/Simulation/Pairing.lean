import Lisplet.Proofs.Heap.Evolution
import Lisplet.Proofs.Simulation.Resemblance
import Mathlib.Data.List.Forall2

/-!
# Pairing — two heaps that hold the same values in different slots

Two runs of a program with different capacities collect at different times and so put the same
values into different slots. A `Pairing` says which slots of the two heaps correspond, and what
each of them is used for. `Simulates ρ h h'` is the invariant of two such runs: whatever a
collection of either heap would keep is paired, and paired slots hold the same object up to the
pairing. Data without cycles is ranked, so that walks over it end on both sides.
-/

namespace Lisplet

namespace Simulation

/-! ## Pairings -/

/-- What a slot is used for in a run. -/
inductive Role where
  /-- A value that a program can hold. -/
  | datum
  /-- An error value, which is never part of another value. -/
  | fault
  /-- An environment. -/
  | frame
  /-- A pair of the list of bindings of an environment. -/
  | spine
  /-- The pair of a symbol and its value. -/
  | binding

/-- Which slots of two heaps correspond, and in which role. -/
abbrev Pairing := Role → Nat → Nat → Prop

/-- Values that correspond: both nil, or the handles of slots that are paired. -/
def Twins (ρ : Pairing) (role : Role) : Value → Value → Prop
  | .nil, .nil => True
  | .slot i, .slot j => ρ role i j
  | _, _ => False

/-- Objects without references that a program can hold. -/
def IsPlain : Object → Prop
  | .int _ | .float _ | .ratio .. | .fixnum _ | .string _ | .symbol _ => True
  | .primitive p => p ∈ Primitive.standard
  | _ => False

theorem references_of_isPlain {o : Object} (isPlain : IsPlain o) : o.references = [] := by
  cases o with
  | int _ | float _ | ratio _ _ | fixnum _ | string _ | symbol _ | primitive _ => rfl
  | _ => exact absurd isPlain id

/-- What two slots of a role hold when they correspond. -/
inductive Alike (ρ : Pairing) : Role → Object → Object → Prop where
  | plain {o : Object} : IsPlain o → Alike ρ .datum o o
  | pair {car car' cdr cdr' : Value} : Twins ρ .datum car car' → Twins ρ .datum cdr cdr' →
      Alike ρ .datum (.pair car cdr) (.pair car' cdr')
  | procedure {params params' body body' : Value} {env env' : Env} :
      Twins ρ .datum params params' → Twins ρ .datum body body' →
        Twins ρ .frame env.value env'.value →
          Alike ρ .datum (.procedure params body env) (.procedure params' body' env')
  | fault (kind : ErrorKind) {message message' : String} : Text.Resembles message message' →
      Alike ρ .fault (.error kind message) (.error kind message')
  | root {bindings bindings' : Value} : Twins ρ .spine bindings bindings' →
      Alike ρ .frame (.environment bindings none) (.environment bindings' none)
  | child {bindings bindings' : Value} {parent parent' : Env} :
      Twins ρ .spine bindings bindings' → Twins ρ .frame parent.value parent'.value →
        Alike ρ .frame (.environment bindings (some parent))
          (.environment bindings' (some parent'))
  | spine {binding binding' rest rest' : Value} : Twins ρ .binding binding binding' →
      Twins ρ .spine rest rest' → Alike ρ .spine (.pair binding rest) (.pair binding' rest')
  | binding {symbol symbol' value value' : Value} : Twins ρ .datum symbol symbol' →
      Twins ρ .datum value value' →
        Alike ρ .binding (.pair symbol value) (.pair symbol' value')

section Twin

variable {ρ σ : Pairing} {role : Role} {v v' : Value} {o o' : Object}

theorem Twins.nil (ρ : Pairing) (role : Role) : Twins ρ role .nil .nil := trivial

theorem Twins.cases (twins : Twins ρ role v v') :
    (v = .nil ∧ v' = .nil) ∨ ∃ i j, v = .slot i ∧ v' = .slot j ∧ ρ role i j := by
  cases v with
  | nil =>
      cases v' with
      | nil => exact .inl ⟨rfl, rfl⟩
      | slot j => cases twins
  | slot i =>
      cases v' with
      | nil => cases twins
      | slot j => exact .inr ⟨i, j, rfl, rfl, twins⟩

theorem Twins.slot {i : Nat} (twins : Twins ρ role (.slot i) v') :
    ∃ j, v' = .slot j ∧ ρ role i j := by
  cases v' with
  | nil => cases twins
  | slot j => exact ⟨j, rfl, twins⟩

theorem Twins.isNil_eq (twins : Twins ρ role v v') : v'.isNil = v.isNil := by
  rcases twins.cases with ⟨rfl, rfl⟩ | ⟨i, j, rfl, rfl, _⟩
  · rfl
  · rfl

theorem Twins.mono (more : ∀ i, v = .slot i → ∀ j, ρ role i j → σ role i j)
    (twins : Twins ρ role v v') : Twins σ role v v' := by
  rcases twins.cases with ⟨rfl, rfl⟩ | ⟨i, j, rfl, rfl, paired⟩
  · trivial
  · exact more i rfl j paired

/-- Objects stay alike if their references stay paired. -/
theorem Alike.mono (more : ∀ r i, .slot i ∈ o.references → ∀ j, ρ r i j → σ r i j)
    (alike : Alike ρ role o o') : Alike σ role o o' := by
  -- Every component of an object is one of its references.
  have twin : ∀ {r w w'}, w ∈ o.references → Twins ρ r w w' → Twins σ r w w' := by
    intro r w w' member twins
    refine twins.mono fun i same j paired => ?_
    subst same
    exact more r i member j paired
  cases alike with
  | plain isPlain => exact .plain isPlain
  | pair car cdr =>
      exact .pair (twin (by simp [Object.references]) car) (twin (by simp [Object.references]) cdr)
  | procedure params body env =>
      exact .procedure (twin (by simp [Object.references]) params)
        (twin (by simp [Object.references]) body) (twin (by simp [Object.references]) env)
  | fault kind same => exact .fault kind same
  | root bindings => exact .root (twin (by simp [Object.references]) bindings)
  | child bindings parent =>
      exact .child (twin (by simp [Object.references]) bindings)
        (twin (by simp [Object.references]) parent)
  | spine binding rest =>
      exact .spine (twin (by simp [Object.references]) binding)
        (twin (by simp [Object.references]) rest)
  | binding symbol value =>
      exact .binding (twin (by simp [Object.references]) symbol)
        (twin (by simp [Object.references]) value)

/-- The references of objects that are alike correspond one by one. -/
theorem Alike.references (alike : Alike ρ role o o') :
    List.Forall₂ (fun w w' => ∃ r, Twins ρ r w w') o.references o'.references := by
  cases alike with
  | plain isPlain =>
      rw [references_of_isPlain isPlain]
      exact .nil
  | pair car cdr => exact .cons ⟨_, car⟩ (.cons ⟨_, cdr⟩ .nil)
  | procedure params body env => exact .cons ⟨_, params⟩ (.cons ⟨_, body⟩ (.cons ⟨_, env⟩ .nil))
  | fault kind same => exact .nil
  | root bindings => exact .cons ⟨_, bindings⟩ .nil
  | child bindings parent => exact .cons ⟨_, bindings⟩ (.cons ⟨_, parent⟩ .nil)
  | spine binding rest => exact .cons ⟨_, binding⟩ (.cons ⟨_, rest⟩ .nil)
  | binding symbol value => exact .cons ⟨_, symbol⟩ (.cons ⟨_, value⟩ .nil)

/-- A slot that an object refers to has its twin at the same place of the twin object. -/
theorem Alike.reference_twin (alike : Alike ρ role o o') {i : Nat}
    (member : .slot i ∈ o.references) : ∃ r j, ρ r i j ∧ .slot j ∈ o'.references := by
  rcases List.mem_iff_getElem.1 member with ⟨n, inside, same⟩
  -- Both objects have the same number of references, in the same order.
  have inside' : n < o'.references.length := alike.references.length_eq ▸ inside
  rcases List.Forall₂.get alike.references inside inside' with ⟨r, twins⟩
  rw [List.get_eq_getElem, same] at twins
  rcases twins.slot with ⟨j, same', paired⟩
  refine ⟨r, j, paired, ?_⟩
  rw [← same', List.get_eq_getElem]
  exact List.getElem_mem inside'

end Twin

theorem rel_cases {α β : Type} {R : α → β → Prop} {x : Option α} {y : Option β}
    (rel : Option.Rel R x y) :
    (x = none ∧ y = none) ∨ ∃ a b, x = some a ∧ y = some b ∧ R a b := by
  cases rel with
  | none => exact .inl ⟨rfl, rfl⟩
  | some related => exact .inr ⟨_, _, rfl, rfl, related⟩

/-! ## Both ways -/

section Flip

variable {ρ : Pairing} {role : Role}

/-- A pairing seen from the other heap. -/
def Pairing.flip (ρ : Pairing) : Pairing := fun role i j => ρ role j i

theorem Twins.flip {v v' : Value} (twins : Twins ρ role v v') : Twins ρ.flip role v' v := by
  rcases twins.cases with ⟨rfl, rfl⟩ | ⟨i, j, rfl, rfl, paired⟩
  · trivial
  · exact paired

theorem Alike.flip {o o' : Object} (alike : Alike ρ role o o') : Alike ρ.flip role o' o := by
  cases alike with
  | plain isPlain => exact .plain isPlain
  | pair car cdr => exact .pair car.flip cdr.flip
  | procedure params body env => exact .procedure params.flip body.flip env.flip
  | fault kind same => exact .fault kind (Text.Resemble.symm same)
  | root bindings => exact .root bindings.flip
  | child bindings parent => exact .child bindings.flip parent.flip
  | spine binding rest => exact .spine binding.flip rest.flip
  | binding symbol value => exact .binding symbol.flip value.flip

end Flip

/-! ## The invariant -/

/-- Paired slots hold the same objects up to the pairing, and the roots of both heaps are paired. -/
structure Corresponds (ρ : Pairing) (h h' : Heap) : Prop where
  unique : ∀ r s i j k, ρ r i j → ρ s i k → r = s ∧ j = k
  injective : ∀ r s i j k, ρ r i k → ρ s j k → i = j
  alike : ∀ r i j, ρ r i j → ∃ o o', h.object? (.slot i) = some o ∧
    h'.object? (.slot j) = some o' ∧ Alike ρ r o o'
  rootEnv : Twins ρ .frame h.rootEnv.value h'.rootEnv.value
  symbols : ∀ name : String, Option.Rel (Twins ρ .datum) h.symbols[name]? h'.symbols[name]?
  roots : List.Forall₂ (fun v v' => ∃ r, Twins ρ r v v') h.roots.values h'.roots.values
  pins : h.pins = #[] ∧ h'.pins = #[]

/-- The references along which data without cycles goes on. -/
def descent : Role → Object → List Value
  | .datum, .pair car cdr => [car, cdr]
  | .spine, .pair _ rest => [rest]
  | .frame, .environment _ (some parent) => [parent.value]
  | _, _ => []

/-- Every slot has a rank above those of the slots that follow it in data without cycles. -/
def Ranked (ρ : Pairing) (h : Heap) (rank : Nat → Nat) : Prop :=
  ∀ role i j o k, ρ role i j → h.object? (.slot i) = some o → .slot k ∈ descent role o →
    rank k < rank i

/-- The invariant of two runs of a program, the second of which has no less capacity. -/
structure Simulates (ρ : Pairing) (h h' : Heap) : Prop extends Corresponds ρ h h' where
  left : h.WellFormed
  right : h'.WellFormed
  capacity_le : h.capacity ≤ h'.capacity
  ranked : ∃ rank, Ranked ρ h rank

theorem mem_references_of_mem_descent {role : Role} {o : Object} {v : Value}
    (member : v ∈ descent role o) : v ∈ o.references := by
  unfold descent at member
  split at member
  · exact member
  · exact List.mem_cons_of_mem _ member
  · exact List.mem_cons_of_mem _ member
  · cases member

namespace Corresponds

variable {ρ : Pairing} {h h' : Heap} {r q : Role} {v w v' w' : Value}

theorem occupied (c : Corresponds ρ h h') {i j : Nat} (paired : ρ r i j) : h.Occupied i := by
  rcases c.alike r i j paired with ⟨o, _, found, _, _⟩
  exact Heap.occupied_of_object? found

/-- What a paired slot refers to is paired. -/
theorem reference_twin (c : Corresponds ρ h h') {i j k : Nat} {o : Object} (paired : ρ r i j)
    (found : h.object? (.slot i) = some o) (member : .slot k ∈ o.references) :
    ∃ q l o', ρ q k l ∧ h'.object? (.slot j) = some o' ∧ .slot l ∈ o'.references := by
  rcases c.alike r i j paired with ⟨o₁, o', found₁, found', alike⟩
  rw [found] at found₁
  cases found₁
  rcases alike.reference_twin member with ⟨q, l, paired', member'⟩
  exact ⟨q, l, o', paired', found', member'⟩

theorem flip (c : Corresponds ρ h h') : Corresponds ρ.flip h' h := by
  -- Seen from the other heap, the two conditions of a bijection change places.
  constructor
  · intro r s i j k one other
    have same := c.injective r s j k i one other
    subst same
    exact ⟨(c.unique r s j i i one other).1, rfl⟩
  · intro r s i j k one other
    exact (c.unique r s k i j one other).2
  · intro r i j paired
    rcases c.alike r j i paired with ⟨o, o', found, found', alike⟩
    exact ⟨o', o, found', found, alike.flip⟩
  · exact c.rootEnv.flip
  · intro name
    rcases rel_cases (c.symbols name) with ⟨none, none'⟩ | ⟨v, v', found, found', twins⟩
    · rw [none, none']
      exact .none
    · rw [found, found']
      exact .some twins.flip
  · refine List.Forall₂.flip (c.roots.imp fun v v' twins => ?_)
    rcases twins with ⟨r, twins⟩
    exact ⟨r, twins.flip⟩
  · exact c.pins.symm

/-- A value has one twin, whatever it is used for. -/
theorem twin_unique (c : Corresponds ρ h h') (one : Twins ρ r v v') (other : Twins ρ q v w') :
    v' = w' := by
  rcases one.cases with ⟨rfl, rfl⟩ | ⟨i, j, rfl, rfl, paired⟩
  · rcases other.cases with ⟨_, rfl⟩ | ⟨_, _, isSlot, _⟩
    · rfl
    · cases isSlot
  · rcases other.slot with ⟨k, rfl, paired'⟩
    rw [(c.unique r q i j k paired paired').2]

/-- Values are the same exactly if their twins are. -/
theorem twins_eq_iff (c : Corresponds ρ h h') (one : Twins ρ r v v') (other : Twins ρ q w w') :
    v = w ↔ v' = w' := by
  constructor
  · rintro rfl
    exact c.twin_unique one other
  · rintro rfl
    exact c.flip.twin_unique one.flip other.flip

end Corresponds

end Simulation

end Lisplet
