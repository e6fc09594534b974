import Lisplet.Proofs.Frames
import Lisplet.Proofs.Heap.Enlarging
import Lisplet.Proofs.Heap.Outfit

/-!
# Keeping — what keeps a pinned value alive

Whatever is called next on a heap, all that can be reached from a value with a pin is there
afterwards, in the slots it was in, but for what the call itself changes (`Heap.KeepsAlive`). An
operation or a primitive changes one object at most, whatever heap it is called on. Evaluation may
change any number of variables, and what could be reached through the old value of one may be
collected while it goes on; beyond that it changes nothing.
-/

namespace Lisplet

open Heap.Operation (heapAfter)

/-- Whether a service evaluates, so that it may define and assign any number of variables. -/
def Service.evaluates : Service → Bool
  | eval .. | apply .. | evaluateAll .. | evaluate .. => true
  | _ => false

namespace Heap

/-- What a call gives other parts. -/
def Operation.altered? (h : Heap) : Operation → Option Value
  | setCar pair _ | setCdr pair _ => some pair
  | define env _ _ | definePrimitives env _ => some env.value
  | set env symbol _ => env.binding? h symbol
  | _ => none

/-- A slot that can be reached from `v` without passing through the value of a variable. -/
inductive ShelteredFrom (h : Heap) (v : Value) : Nat → Prop where
  | start {i : Nat} : v = .slot i → h.Occupied i → ShelteredFrom h v i
  | reference {i j : Nat} {o : Object} : ShelteredFrom h v i → h.object? (.slot i) = some o →
      ¬ h.IsBinding (.slot i) → .slot j ∈ o.references → h.Occupied j → ShelteredFrom h v j
  | symbol {i j : Nat} {cdr : Value} : ShelteredFrom h v i →
      h.object? (.slot i) = some (.pair (.slot j) cdr) → h.Occupied j → ShelteredFrom h v j

/-- All that can be reached from `v` survives whatever is done next. -/
structure KeepsAlive (h : Heap) (v : Value) : Prop where
  collect : h.Secures v
  operation (op : Operation) : h.Retains (op.altered? h) (· = v) (op.run h)
  service (service : Service) : service.evaluates = false →
    ∃ altered, h.Retains altered (· = v) (service.run h)
  evaluation (service : Service) : Worked h →
    (∀ env ∈ service.parents, h.kind env.value = .environment) →
      ∀ i o, h.ShelteredFrom v i → h.object? (.slot i) = some o → h.Renews (service.run h) i o

section Keeping

variable {h : Heap} {v : Value} {i key : Nat}

theorem ShelteredFrom.sheltered (root : h.IsRoot v) (s : h.ShelteredFrom v i) : h.Sheltered i := by
  induction s with
  | start same occupied => exact .root (same ▸ root) occupied
  | reference _ found other member occupied ih => exact .reference ih found other member occupied
  | symbol _ found occupied ih => exact .symbol ih found occupied

theorem Operation.retains_run (op : Operation) (tidy : h.Tidy) :
    h.Retains (op.altered? h) h.IsRoot (op.run h) := by
  have c := dataConduct_saves h
  have saved := Saved.refl tidy
  have builds {h' : Heap} (saves : h.Saves h h') : h.Retains none h.IsRoot h' :=
    (saves.saved saved).retains none
  cases op with
  | int n => exact builds (c.allocate h rfl)
  | float x => exact builds (c.allocate h rfl)
  | ratio numer denom => exact builds (c.allocate h rfl)
  | fixnum n => exact builds (c.allocate h rfl)
  | string text => exact builds (c.allocate h rfl)
  | intern name => exact builds (c.intern h name)
  | cons car cdr => exact builds (c.obeys_cons h car cdr)
  | list items => exact builds (c.obeys_list h items)
  | error kind message => exact builds (c.obeys_raise h kind message)
  | primitive p => exact builds (c.allocate h rfl)
  | procedure params body env => exact builds (c.obeys_procedure h params body env)
  | setCar pair value => exact saved.retains_setCar pair value
  | setCdr pair value => exact saved.retains_setCdr pair value
  | root value => exact builds (Saves.addRoot h value)
  | truncateRoots height => exact .ofSame fun _ => rfl
  | pin value => exact .ofSame (Repinned.pin h value).object?_eq
  | repin key value => exact .ofSame fun _ => rfl
  | unpin key => exact .ofSame (Repinned.unpin h key).object?_eq
  | collect =>
      exact fun i o reached found =>
        .inl ((object?_collect_of_reachable tidy.marksClear reached).trans found)
  | define env symbol value =>
      exact ((Enlarging.define h h env symbol value).enlarges (.refl tidy)).retains
  | set env symbol value =>
      show h.Retains (env.binding? h symbol) h.IsRoot (heapAfter (env.set symbol value) h)
      unfold heapAfter
      rcases env.set_cases symbol value h with ⟨binding, found, step⟩ | ⟨_, step⟩
      · rw [step, found]
        exact saved.retains_setCdr binding value
      · rw [step]
        exact .ofSame fun _ => rfl
  | child env => exact builds (HeapM.saves_child h env)
  | extend env params args => exact builds (HeapM.saves_extend h env params args)
  | definePrimitives env primitives =>
      exact ((Enlarging.definePrimitives h h env primitives).enlarges (.refl tidy)).retains

theorem exists_retains_run (service : Service) (plain : service.evaluates = false)
    (tidy : h.Tidy) : ∃ altered, h.Retains altered h.IsRoot (service.run h) := by
  have c := dataConduct_saves h
  have saved := Saved.refl tidy
  cases service with
  | build op _ => exact ⟨_, op.retains_run tidy⟩
  | primitive p args => exact HeapM.amends_call h p args saved
  | make limit => exact Saves.amends (c.obeys_make h limit) saved
  | read r => exact Saves.amends (c.whole_read h r) saved
  | readAll source => exact Saves.amends (c.obeys_readAll h source) saved
  | readOne source => exact Saves.amends (c.obeys_readOne h source) saved
  | eval | apply | evaluateAll | evaluate => cases plain

/-- A pin keeps alive what it holds. -/
theorem keepsAlive_of_pinned (tidy : h.Tidy) (held : h.pins[key]? = some (some v)) :
    h.KeepsAlive v := by
  have root : h.IsRoot v := .pin held
  have fewer : ∀ w, w = v → h.IsRoot w := fun w same => same ▸ root
  constructor
  case collect => exact root.secures tidy.marksClear
  case operation => exact fun op => (op.retains_run tidy).mono fewer
  case service =>
    intro service plain
    obtain ⟨altered, retains⟩ := exists_retains_run service plain tidy
    exact ⟨altered, retains.mono fewer⟩
  case evaluation =>
    intro service worked ready i o sheltered found
    have respects := conduct_treats.whole_run service ready (framed_of_worked worked)
    exact respects.endures.renews i o (sheltered.sheltered root) found

end Keeping

end Heap

end Lisplet
