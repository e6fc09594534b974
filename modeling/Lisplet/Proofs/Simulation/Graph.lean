import Lisplet.Proofs.Simulation.Binding

/-!
# Graph — the same value in two heaps

Two values are the same if the graphs of objects that hang on them are: there is a one-to-one
renaming of slots under which the objects have the same payloads and refer to each other in the
same way. In the message of an error value the number of a slot may have been written down, and
only there may two payloads differ.
-/

namespace Lisplet

/-- The same handle, but for the renaming of its slot. -/
def Value.Renamed (R : Nat → Nat → Prop) : Value → Value → Prop
  | .nil, .nil => True
  | .slot i, .slot j => R i j
  | _, _ => False

/-- Objects of the same payload that refer to the same slots, but for their renaming. -/
inductive Object.Renamed (R : Nat → Nat → Prop) : Object → Object → Prop where
  | same {o : Object} : o.references = [] → Renamed R o o
  | error (kind : ErrorKind) {message message' : String} : Text.Resembles message message' →
      Renamed R (.error kind message) (.error kind message')
  | pair {car car' cdr cdr' : Value} : car.Renamed R car' → cdr.Renamed R cdr' →
      Renamed R (.pair car cdr) (.pair car' cdr')
  | procedure {params params' body body' : Value} {env env' : Env} : params.Renamed R params' →
      body.Renamed R body' → env.value.Renamed R env'.value →
        Renamed R (.procedure params body env) (.procedure params' body' env')
  | environment {bindings bindings' : Value} {parent parent' : Option Env} :
      bindings.Renamed R bindings' →
        Option.Rel (fun e e' : Env => e.value.Renamed R e'.value) parent parent' →
          Renamed R (.environment bindings parent) (.environment bindings' parent')

namespace Heap

/-- A one-to-one renaming of slots that leads from objects to the same objects. -/
structure Isomorphism (R : Nat → Nat → Prop) (h h' : Heap) : Prop where
  functional : ∀ i j k, R i j → R i k → j = k
  injective : ∀ i j k, R i k → R j k → i = j
  objects : ∀ i j, R i j → ∃ o o', h.object? (.slot i) = some o ∧
    h'.object? (.slot j) = some o' ∧ o.Renamed R o'

/-- The same value in two heaps. -/
def Same (h : Heap) (v : Value) (h' : Heap) (v' : Value) : Prop :=
  ∃ R, Isomorphism R h h' ∧ v.Renamed R v'

end Heap

namespace Simulation

variable {ρ : Pairing} {h h' : Heap} {r : Role} {v v' : Value}

/-- The renaming behind a pairing, whatever the slots are used for. -/
def Pairing.renaming (ρ : Pairing) : Nat → Nat → Prop := fun i j => ∃ r, ρ r i j

theorem Twins.renamed (twins : Twins ρ r v v') : v.Renamed ρ.renaming v' := by
  rcases twins.cases with ⟨rfl, rfl⟩ | ⟨i, j, rfl, rfl, paired⟩
  · trivial
  · exact ⟨r, paired⟩

theorem Alike.renamed {o o' : Object} (alike : Alike ρ r o o') : o.Renamed ρ.renaming o' := by
  cases alike with
  | plain isPlain => exact .same (references_of_isPlain isPlain)
  | pair car cdr => exact .pair car.renamed cdr.renamed
  | procedure params body env => exact .procedure params.renamed body.renamed env.renamed
  | fault kind same => exact .error kind same
  | root bindings => exact .environment bindings.renamed .none
  | child bindings parent => exact .environment bindings.renamed (.some parent.renamed)
  | spine binding rest => exact .pair binding.renamed rest.renamed
  | binding symbol value => exact .pair symbol.renamed value.renamed

theorem Corresponds.isomorphism (c : Corresponds ρ h h') :
    Heap.Isomorphism ρ.renaming h h' := by
  constructor
  · rintro i j k ⟨r, one⟩ ⟨q, other⟩
    exact (c.unique r q i j k one other).2
  · rintro i j k ⟨r, one⟩ ⟨q, other⟩
    exact c.injective r q i j k one other
  · rintro i j ⟨r, paired⟩
    rcases c.alike r i j paired with ⟨o, o', found, found', alike⟩
    exact ⟨o, o', found, found', alike.renamed⟩

/-- Answers that correspond are the same value. -/
theorem Corresponds.same_of_answers (c : Corresponds ρ h h') (answers : Answers ρ v v') :
    h.Same v h' v' := by
  rcases answers with twins | twins
  · exact ⟨ρ.renaming, c.isomorphism, twins.renamed⟩
  · exact ⟨ρ.renaming, c.isomorphism, twins.renamed⟩

end Simulation

end Lisplet
