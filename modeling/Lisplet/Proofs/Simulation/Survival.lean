import Lisplet.Proofs.Simulation.Pairing
import Mathlib.Data.List.Perm.Subperm

/-!
# Survival — corresponding heaps keep corresponding slots

Paired slots can be reached from the roots of both heaps or of neither, so that a collection of
either heap leaves a pairing of the slots that are still in use. As many slots survive on one
side as on the other; so the heap with more capacity has room wherever the other one has.
-/

namespace Lisplet

namespace Simulation

variable {ρ : Pairing} {h h' : Heap}

/-! ## What can be reached -/

namespace Corresponds

/-- A root has a twin, which is a root of the other heap. -/
theorem root_twin (c : Corresponds ρ h h') {v : Value} (root : h.IsRoot v) :
    ∃ r v', Twins ρ r v v' ∧ h'.IsRoot v' := by
  cases root with
  | environment => exact ⟨.frame, h'.rootEnv.value, c.rootEnv, .environment⟩
  | @symbol name v found =>
      rcases rel_cases (c.symbols name) with ⟨none, _⟩ | ⟨_, v', same, found', twins⟩
      · rw [found] at none
        cases none
      · rw [found] at same
        cases same
        exact ⟨.datum, v', twins, .symbol found'⟩
  | stack member =>
      rcases List.mem_iff_getElem.1 member with ⟨n, inside, rfl⟩
      have inside' : n < h'.roots.values.length := c.roots.length_eq ▸ inside
      rcases List.Forall₂.get c.roots inside inside' with ⟨r, twins⟩
      exact ⟨r, h'.roots.values[n], twins, .stack (List.getElem_mem inside')⟩
  | pin found =>
      rw [c.pins.1] at found
      simp at found

theorem reachable_twin (c : Corresponds ρ h h') (w : h'.WellFormed) {i : Nat}
    (reached : h.Reachable i) : ∃ r j, ρ r i j ∧ h'.Reachable j := by
  -- Induction on the path: roots have twins that are roots, and references follow suit.
  induction reached with
  | start root _ =>
      rcases c.root_twin root with ⟨r, v', twins, root'⟩
      rcases twins.slot with ⟨j, rfl, paired⟩
      exact ⟨r, j, paired, w.reachable_of_root root'⟩
  | @reference i k o _ found member _ ih =>
      rcases ih with ⟨r, j, paired, reached'⟩
      rcases c.reference_twin paired found member with ⟨q, l, o', paired', found', member'⟩
      exact ⟨q, l, paired', w.reachable_of_reference reached' found' member'⟩

/-- Of two paired slots both can be reached or neither. -/
theorem reachable_iff (c : Corresponds ρ h h') (w : h.WellFormed) (w' : h'.WellFormed) {r : Role}
    {i j : Nat} (paired : ρ r i j) : h.Reachable i ↔ h'.Reachable j := by
  constructor
  · intro reached
    rcases c.reachable_twin w' reached with ⟨q, k, paired', reached'⟩
    rw [(c.unique r q i j k paired paired').2]
    exact reached'
  · intro reached
    rcases c.flip.reachable_twin w reached with ⟨q, k, paired', reached'⟩
    rw [c.injective r q i k j paired paired']
    exact reached'

end Corresponds

/-! ## Making room -/

section Room

theorem object?_makeRoom (w : h.WellFormed) {i : Nat} (reached : h.Reachable i) :
    h.makeRoom.object? (.slot i) = h.object? (.slot i) := by
  unfold Heap.makeRoom
  split
  · exact Heap.object?_collect_of_reachable w.marksClear reached
  · rfl

theorem occupied_makeRoom (w : h.WellFormed) {i : Nat} (reached : h.Reachable i) :
    h.makeRoom.Occupied i := by
  unfold Heap.Occupied
  rw [object?_makeRoom w reached]
  exact reached.occupied

/-- The paired slots that a collection would keep. -/
def survivors (ρ : Pairing) (h : Heap) : Pairing := fun role i j => ρ role i j ∧ h.Reachable i

namespace Simulates

/-- With the surviving pairs only, both heaps may be collected or not. -/
theorem makeRoom (s : Simulates ρ h h') : Simulates (survivors ρ h) h.makeRoom h'.makeRoom := by
  have e := Heap.Evolves.makeRoom s.left
  have e' := Heap.Evolves.makeRoom s.right
  -- A survivor keeps its object on either side, and so does its twin.
  have kept : ∀ {r i j}, survivors ρ h r i j →
      h.makeRoom.object? (.slot i) = h.object? (.slot i) ∧
        h'.makeRoom.object? (.slot j) = h'.object? (.slot j) := by
    intro r i j paired
    refine ⟨object?_makeRoom s.left paired.2, object?_makeRoom s.right ?_⟩
    exact (s.reachable_iff s.left s.right paired.1).1 paired.2
  have rooted : ∀ {r v v'}, h.IsRoot v → Twins ρ r v v' → Twins (survivors ρ h) r v v' := by
    intro r v v' root twins
    refine twins.mono fun i same j paired => ⟨paired, ?_⟩
    subst same
    exact s.left.reachable_of_root root
  refine ⟨⟨?_, ?_, ?_, ?_, ?_, ?_, ?_⟩, e.wellFormed, e'.wellFormed, ?_, ?_⟩
  · exact fun r q i j k one other => s.unique r q i j k one.1 other.1
  · exact fun r q i j k one other => s.injective r q i j k one.1 other.1
  · intro r i j paired
    rcases s.alike r i j paired.1 with ⟨o, o', found, found', alike⟩
    refine ⟨o, o', (kept paired).1.trans found, (kept paired).2.trans found', ?_⟩
    refine alike.mono fun q k member l paired' => ⟨paired', ?_⟩
    exact s.left.reachable_of_reference paired.2 found member
  · rw [Heap.rootEnv_makeRoom, Heap.rootEnv_makeRoom]
    exact rooted .environment s.rootEnv
  · intro name
    rw [Heap.symbols_makeRoom, Heap.symbols_makeRoom]
    rcases rel_cases (s.symbols name) with ⟨none, none'⟩ | ⟨v, v', found, found', twins⟩
    · rw [none, none']
      exact .none
    · have root : h.IsRoot v := .symbol found
      rw [found, found']
      exact .some (rooted root twins)
  · rw [Heap.roots_makeRoom, Heap.roots_makeRoom]
    have members : ∀ v ∈ h.roots.values, h.IsRoot v := fun v member => .stack member
    refine ((List.forall₂_and_left _ _).2 ⟨members, s.roots⟩).imp fun v v' both => ?_
    rcases both with ⟨root, r, twins⟩
    exact ⟨r, rooted root twins⟩
  · rw [Heap.pins_makeRoom, Heap.pins_makeRoom]
    exact s.pins
  · rw [Heap.capacity_makeRoom, Heap.capacity_makeRoom]
    exact s.capacity_le
  · rcases s.ranked with ⟨rank, ranked⟩
    refine ⟨rank, fun r i j o k paired found member => ?_⟩
    rw [(kept paired).1] at found
    exact ranked r i j o k paired.1 found member

/-- If the heap with less capacity has room, so has the other. -/
theorem room (s : Simulates ρ h h') (room : h.makeRoom.live < h.capacity) :
    h'.makeRoom.live < h'.capacity := by
  -- Only a full heap collects on the right; otherwise there is room as it is.
  by_cases full : h'.capacity ≤ h'.live
  · have w := (Heap.Evolves.makeRoom s.left).wellFormed
    have w' := s.right.collect
    have twin : ∀ j, h'.Reachable j → ∃ i, h.Reachable i ∧ ∃ r, ρ r i j := by
      intro j reached
      rcases s.flip.reachable_twin s.left reached with ⟨r, i, paired, reached'⟩
      exact ⟨i, reached', r, paired⟩
    choose! twinOf reached paired using twin
    -- What a collection keeps on the right has its own occupied slot on the left.
    have kept : ∀ j ∈ h'.collect.1.occupiedSlots, h'.Reachable j := by
      intro j member
      have occupied := Heap.mem_occupiedSlots_iff.1 member
      exact ((Heap.occupied_collect_iff s.right.marksClear j).1 occupied).2
    have nodup : (h'.collect.1.occupiedSlots.map twinOf).Nodup := by
      refine List.Nodup.map_on ?_ (Heap.occupiedSlots_nodup _)
      intro j member k member' same
      rcases paired j (kept j member) with ⟨r, one⟩
      rcases paired k (kept k member') with ⟨q, other⟩
      rw [← same] at other
      exact (s.unique r q _ j k one other).2
    have inside : h'.collect.1.occupiedSlots.map twinOf ⊆ h.makeRoom.occupiedSlots := by
      intro i member
      rcases List.mem_map.1 member with ⟨j, survives, rfl⟩
      exact Heap.mem_occupiedSlots_iff.2 (occupied_makeRoom s.left (reached j (kept j survives)))
    have counted := (List.Nodup.subperm nodup inside).length_le
    rw [List.length_map, ← w'.live_eq, ← w.live_eq] at counted
    have capacities := s.capacity_le
    have collected : h'.makeRoom = h'.collect.1 := if_pos full
    rw [collected]
    omega
  · have unchanged : h'.makeRoom = h' := if_neg full
    rw [unchanged]
    exact Nat.lt_of_not_le full

end Simulates

end Room

end Simulation

end Lisplet
