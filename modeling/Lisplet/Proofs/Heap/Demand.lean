import Lisplet.Proofs.Saving
import Mathlib.Data.Set.Card

/-!
# Demand — what an operation needs

What an operation on the heap needs is what can be reached from the roots and from the values that
it works with, its operands. To root the operands makes no difference to that, and no more is needed
than is occupied. What a slot refers to is `Heap.Intact` if all of it is as it was.
-/

namespace Lisplet

namespace Heap

/-- The slot can be reached from the roots or from the values an operation works with. -/
def Needed (h : Heap) (operands : List Value) (i : Nat) : Prop :=
  h.ReachableFrom (fun v => h.IsRoot v ∨ v ∈ operands) i

/-- How many slots are needed. -/
noncomputable def demand (h : Heap) (operands : List Value) : Nat :=
  {i | h.Needed operands i}.ncard

/-- The slot was occupied before, and all that could be reached from it then is as it was. -/
def Intact (h h' : Heap) (i : Nat) : Prop :=
  h.Occupied i ∧ ∀ k, h.ReachableFrom (· = .slot i) k → h'.object? (.slot k) = h.object? (.slot k)

/-- The free list names empty slots only, and the occupied ones are counted. -/
structure Counted (h : Heap) : Prop extends h.Tidy where
  live_eq : h.live = h.occupiedSlots.length

theorem Arena.counted {h : Heap} (a : h.Arena) : h.Counted := ⟨a.tidy, a.live_eq⟩

section Needing

variable {h h' : Heap} {operands more : List Value} {i : Nat} {v : Value}

/-- Only the objects and the slots to start from make a difference. -/
theorem ReachableFrom.congr {start start' : Value → Prop}
    (objects : ∀ v, h'.object? v = h.object? v) (starts : ∀ i, start (.slot i) → start' (.slot i))
    (reached : h.ReachableFrom start i) : h'.ReachableFrom start' i := by
  have occupied {i : Nat} (before : h.Occupied i) : h'.Occupied i := by rwa [Occupied, objects]
  induction reached with
  | start isStart before => exact .start (starts _ isStart) (occupied before)
  | reference _ found member before ih =>
      exact .reference ih ((objects _).trans found) member (occupied before)

theorem KeepsRoots.addRoots (h : Heap) (operands : List Value) :
    h.KeepsRoots (operands.foldl Heap.addRoot h) := by
  induction operands generalizing h with
  | nil => exact .refl h
  | cons v operands ih => exact (KeepsRoots.addRoot h v).trans (ih (h.addRoot v))

theorem ReachableFrom.trans {start : Value → Prop} {k : Nat} (reached : h.ReachableFrom start i)
    (leads : h.ReachableFrom (· = .slot i) k) : h.ReachableFrom start k := by
  induction leads with
  | start same _ =>
      cases same
      exact reached
  | reference _ found member occupied ih => exact .reference ih found member occupied

theorem needed_nil_iff : h.Needed [] i ↔ h.Reachable i := by
  constructor
  · exact .mono fun v root => root.resolve_right List.not_mem_nil
  · exact .mono fun v => .inl

theorem isRoot_addRoot_iff : (h.addRoot v).IsRoot (.slot i) ↔ h.IsRoot (.slot i) ∨ .slot i = v := by
  refine ⟨isRoot_of_addRoot, ?_⟩
  rintro (root | rfl)
  · exact (KeepsRoots.addRoot h v).isRoot root
  · exact .stack List.mem_cons_self

theorem needed_addRoot_iff : (h.addRoot v).Needed more i ↔ h.Needed (v :: more) i := by
  have starts (i : Nat) : (h.addRoot v).IsRoot (.slot i) ∨ .slot i ∈ more ↔
      h.IsRoot (.slot i) ∨ .slot i ∈ v :: more := by
    rw [isRoot_addRoot_iff, List.mem_cons, or_assoc]
  constructor
  · exact .congr (fun w => (object?_addRoot h v w).symm) fun i => (starts i).1
  · exact .congr (object?_addRoot h v) fun i => (starts i).2

/-- To root a value is to need it. -/
theorem needed_addRoots_iff (operands : List Value) :
    (operands.foldl addRoot h).Needed more i ↔ h.Needed (operands ++ more) i := by
  induction operands generalizing h with
  | nil => exact .rfl
  | cons v operands ih =>
      rw [List.foldl_cons, ih]
      exact needed_addRoot_iff

theorem demand_addRoots (h : Heap) (operands : List Value) :
    (operands.foldl addRoot h).demand [] = h.demand operands := by
  have same : ∀ i, (operands.foldl addRoot h).Needed [] i ↔ h.Needed operands i := by
    intro i
    rw [needed_addRoots_iff, List.append_nil]
  exact congrArg Set.ncard (Set.ext same)

theorem demand_congr (same : ∀ i, h.IsRoot (.slot i) ∨ .slot i ∈ operands ↔
    h.IsRoot (.slot i) ∨ .slot i ∈ more) : h.demand operands = h.demand more := by
  refine congrArg Set.ncard (Set.ext fun i => ⟨?_, ?_⟩)
  · exact .congr (fun _ => rfl) fun i => (same i).1
  · exact .congr (fun _ => rfl) fun i => (same i).2

theorem isRoot_addRoots (member : .slot i ∈ operands) :
    (operands.foldl addRoot h).IsRoot (.slot i) := by
  induction operands generalizing h with
  | nil => cases member
  | cons v operands ih =>
      rcases List.mem_cons.1 member with rfl | later
      · exact (KeepsRoots.addRoots _ operands).isRoot (isRoot_addRoot_iff.2 (.inr rfl))
      · exact ih later

/-- Where no reference leads out of a list with all starting points, nothing else is needed. -/
theorem Needed.mem_of_closed {slots : List Nat}
    (starts : ∀ k, h.IsRoot (.slot k) ∨ .slot k ∈ operands → k ∈ slots)
    (closed : ∀ k ∈ slots, ∀ o, h.object? (.slot k) = some o →
      ∀ j, .slot j ∈ o.references → j ∈ slots)
    (needed : h.Needed operands i) : i ∈ slots := by
  induction needed with
  | start isStart _ => exact starts _ isStart
  | reference _ found member _ ih => exact closed _ ih _ found _ member

theorem demand_eq_length {slots : List Nat} (nodup : slots.Nodup)
    (listed : ∀ i, i ∈ slots ↔ h.Needed operands i) : h.demand operands = slots.length := by
  have set : {i | h.Needed operands i} = slots.toFinset := by
    ext i
    rw [Set.mem_ofPred_eq, Finset.mem_coe, List.mem_toFinset, listed]
  rw [demand, set, Set.ncard_coe_finset, List.toFinset_card_of_nodup nodup]

theorem addRoots_eq (h : Heap) (operands : List Value) :
    ∃ roots, operands.foldl addRoot h = { h with roots } := by
  induction operands generalizing h with
  | nil => exact ⟨h.roots, rfl⟩
  | cons v operands ih =>
      rcases addRoot_eq h v with ⟨roots, step⟩
      rcases ih (h.addRoot v) with ⟨roots', rest⟩
      refine ⟨roots', ?_⟩
      rw [List.foldl_cons, rest, step]

theorem Counted.reroot (c : h.Counted) (roots : RootStack) : { h with roots }.Counted :=
  ⟨c.toTidy.transfer rfl rfl, c.live_eq⟩

theorem Counted.put (c : h.Counted) (occupied : h.Occupied i) (o : Object) :
    (h.put i o).Counted :=
  ⟨c.toTidy.put o occupied, c.live_eq.trans (occupiedSlots_put occupied o ▸ rfl)⟩

theorem Counted.addRoots (c : h.Counted) (operands : List Value) :
    (operands.foldl addRoot h).Counted := by
  rcases addRoots_eq h operands with ⟨roots, same⟩
  rw [same]
  exact c.reroot roots

theorem finite_needed (h : Heap) (operands : List Value) : {i | h.Needed operands i}.Finite :=
  (Set.finite_lt_nat h.slots.size).subset fun _ needed => lt_size_of_occupied needed.occupied

/-- Nothing that is not occupied is needed. -/
theorem Counted.demand_le_live (c : h.Counted) (operands : List Value) :
    h.demand operands ≤ h.live := by
  have within : {i | h.Needed operands i} ⊆ (h.occupiedSlots.toFinset : Set Nat) := by
    intro i needed
    exact Finset.mem_coe.2 (List.mem_toFinset.2 (mem_occupiedSlots_iff.2 needed.occupied))
  calc
    h.demand operands ≤ (h.occupiedSlots.toFinset : Set Nat).ncard := Set.ncard_le_ncard within
    _ = h.live := by
      rw [Set.ncard_coe_finset, List.toFinset_card_of_nodup (occupiedSlots_nodup h), c.live_eq]

end Needing

end Heap

end Lisplet
