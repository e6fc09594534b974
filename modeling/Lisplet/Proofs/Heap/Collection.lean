import Lisplet.Proofs.Heap.Marking
import Mathlib.Data.List.Basic

/-!
# Collection — what a collection leaves of a heap

A collection of a heap without marks keeps exactly the reachable slots, each with its object,
and touches nothing else. The main statement is `collect_exact`; before it stand the effect of
a collection on a single slot, on the number of occupied slots, and the fact that the symbol
table may be visited in any order.
-/

namespace Lisplet

namespace Heap

variable {h : Heap} {symbols : List Value}

/-! ## A single slot -/

theorem reachableFrom_startsIn_iff (order : symbols.Perm (h.symbols.toList.map Prod.snd))
    (i : Nat) : h.ReachableFrom (· ∈ h.startsIn symbols) i ↔ h.Reachable i := by
  constructor
  · exact .mono fun v member => (mem_startsIn_iff order).1 member
  · exact .mono fun v root => (mem_startsIn_iff order).2 root

theorem size_markFrom (clear : h.MarksClear) (starts : List Value) :
    (h.markFrom starts).slots.size = h.slots.size := by
  -- The marks are known slot by slot only; a size is read off the indices in range.
  have agree : ∀ i : Nat, i < (h.markFrom starts).slots.size ↔ i < h.slots.size := by
    intro i
    have slot := markFrom_slots clear starts i
    have absent : (h.markFrom starts).slots[i]? = none ↔ h.slots[i]? = none := by
      rw [slot, Option.map_eq_none_iff]
    rw [Array.getElem?_eq_none_iff, Array.getElem?_eq_none_iff] at absent
    omega
  have below := agree h.slots.size
  have above := agree (h.markFrom starts).slots.size
  omega

/-- Marking depends on the values it starts from only as a set. -/
theorem markFrom_congr (clear : h.MarksClear) {starts starts' : List Value}
    (same : ∀ v, v ∈ starts ↔ v ∈ starts') : h.markFrom starts = h.markFrom starts' := by
  have slots : (h.markFrom starts).slots = (h.markFrom starts').slots := by
    refine Array.ext_getElem? fun i => ?_
    have reached : h.ReachableFrom (· ∈ starts) i ↔ h.ReachableFrom (· ∈ starts') i :=
      ⟨.mono fun v => (same v).1, .mono fun v => (same v).2⟩
    rw [markFrom_slots clear, markFrom_slots clear, decide_eq_decide.2 reached]
  have rebuild : ∀ list, h.markFrom list = { h with slots := (h.markFrom list).slots } :=
    fun _ => rfl
  rw [rebuild starts, rebuild starts', slots]

/-- The order in which the symbol table is visited makes no difference. -/
theorem collectIn_eq_collect (clear : h.MarksClear)
    (order : symbols.Perm (h.symbols.toList.map Prod.snd)) : h.collectIn symbols = h.collect := by
  have same : ∀ v, v ∈ h.startsIn symbols ↔ v ∈ h.startsIn (h.symbols.toList.map Prod.snd) := by
    intro v
    exact (mem_startsIn_iff order).trans (mem_startsIn_iff (.refl _)).symm
  unfold collect collectIn
  rw [markFrom_congr clear same]

open Classical in
/-- A collection empties a slot that cannot be reached, and clears every mark. -/
theorem collect_slots (clear : h.MarksClear) (i : Nat) :
    h.collect.1.slots[i]? =
      h.slots[i]?.map fun slot => ⟨if h.Reachable i then slot.object else none, false⟩ := by
  have reached := reachableFrom_startsIn_iff (h := h) (.refl _) i
  have step : h.collect.1.slots =
      (h.markFrom (h.startsIn (h.symbols.toList.map Prod.snd))).slots.map Slot.swept := rfl
  rw [step, Array.getElem?_map, markFrom_slots clear, Option.map_map]
  congr 1
  funext slot
  simp only [Function.comp_apply, Slot.swept, decide_eq_true_eq, reached]

open Classical in
theorem object?_collect (clear : h.MarksClear) (i : Nat) :
    h.collect.1.object? (.slot i) = if h.Reachable i then h.object? (.slot i) else none := by
  rw [object?_slot, object?_slot, collect_slots clear]
  by_cases reached : h.Reachable i
  · cases h.slots[i]? <;> simp [reached]
  · cases h.slots[i]? <;> simp [reached]

theorem size_collect (clear : h.MarksClear) : h.collect.1.slots.size = h.slots.size := by
  have step : h.collect.1.slots.size =
      (h.markFrom (h.startsIn (h.symbols.toList.map Prod.snd))).slots.size := Array.size_map
  exact step.trans (size_markFrom clear _)

theorem occupied_collect_iff (clear : h.MarksClear) (i : Nat) :
    h.collect.1.Occupied i ↔ h.Occupied i ∧ h.Reachable i := by
  unfold Occupied
  rw [object?_collect clear]
  by_cases reached : h.Reachable i
  · simp [reached]
  · simp [reached]

theorem object?_collect_of_reachable (clear : h.MarksClear) {i : Nat} (reached : h.Reachable i) :
    h.collect.1.object? (.slot i) = h.object? (.slot i) := by
  rw [object?_collect clear, if_pos reached]

theorem marksClear_collect (clear : h.MarksClear) : h.collect.1.MarksClear := by
  intro slot member
  rcases Array.mem_iff_getElem?.1 member with ⟨i, found⟩
  rw [collect_slots clear] at found
  rcases Option.map_eq_some_iff.1 found with ⟨old, _, rfl⟩
  rfl

/-! ## The emptied slots -/

/-- The slots that the sweep empties, in ascending order. -/
theorem mem_garbage_iff (clear : h.MarksClear) (i : Nat) :
    i ∈ (h.markFrom (h.startsIn (h.symbols.toList.map Prod.snd))).garbage ↔
      h.Occupied i ∧ ¬ h.Reachable i := by
  have reached := reachableFrom_startsIn_iff (h := h) (.refl _) i
  unfold garbage
  rw [List.mem_filter, List.mem_range, size_markFrom clear, markFrom_slots clear]
  unfold Occupied
  rw [object?_slot]
  rcases slot : h.slots[i]? with _ | ⟨object, marked⟩
  · simp
  · have inside : i < h.slots.size := (Array.getElem?_eq_some_iff.1 slot).1
    simp [inside, Slot.isGarbage, reached]

theorem garbage_sorted (h : Heap) : h.garbage.Pairwise (· < ·) :=
  List.pairwise_lt_range.filter _

/-- Every occupied slot is either kept or emptied. -/
theorem length_occupiedSlots_collect (clear : h.MarksClear) :
    h.collect.1.occupiedSlots.length +
        (h.markFrom (h.startsIn (h.symbols.toList.map Prod.snd))).garbage.length =
      h.occupiedSlots.length := by
  classical
  have kept : h.collect.1.occupiedSlots = h.occupiedSlots.filter fun i => h.Reachable i := by
    unfold occupiedSlots
    rw [size_collect clear, List.filter_filter]
    refine List.filter_congr fun i _ => ?_
    rw [object?_collect clear]
    by_cases reached : h.Reachable i
    · simp [reached]
    · simp [reached]
  -- Both lists ascend and have the same members, so they are the same list.
  have emptied : (h.markFrom (h.startsIn (h.symbols.toList.map Prod.snd))).garbage =
      h.occupiedSlots.filter fun i => ! decide (h.Reachable i) := by
    refine List.Perm.eq_of_pairwise (fun a b _ _ below above => ?_) (garbage_sorted _) ?_ ?_
    · exact absurd (Nat.lt_trans below above) (Nat.lt_irrefl a)
    · exact (List.pairwise_lt_range.filter _).filter _
    · refine (List.perm_ext_iff_of_nodup ?_ ?_).2 fun i => ?_
      · exact (garbage_sorted _).imp Nat.ne_of_lt
      · exact ((List.pairwise_lt_range.filter _).filter _).imp Nat.ne_of_lt
      · rw [mem_garbage_iff clear, List.mem_filter, mem_occupiedSlots_iff]
        simp
  rw [kept, emptied, ← List.length_eq_length_filter_add]

/-- With the count of occupied slots kept, what is freed comes off it exactly. -/
theorem live_collect (clear : h.MarksClear) (counted : h.live = h.occupiedSlots.length) :
    h.collect.1.live = h.collect.1.occupiedSlots.length := by
  have split := length_occupiedSlots_collect clear
  have step : h.collect.1.live =
      h.live - (h.markFrom (h.startsIn (h.symbols.toList.map Prod.snd))).garbage.length := rfl
  omega

/-! ## A second collection -/

theorem IsRoot.transfer {h' : Heap} {v : Value} (environment : h'.rootEnv = h.rootEnv)
    (symbols : h'.symbols = h.symbols) (roots : h'.roots = h.roots) (pins : h'.pins = h.pins)
    (root : h.IsRoot v) : h'.IsRoot v := by
  cases root with
  | environment => exact environment ▸ .environment
  | symbol found => exact .symbol (symbols ▸ found)
  | stack member => exact .stack (roots ▸ member)
  | pin found => exact .pin (pins ▸ found)

theorem reachable_collect_iff (clear : h.MarksClear) (i : Nat) :
    h.collect.1.Reachable i ↔ h.Reachable i := by
  constructor
  · intro reached
    exact ((occupied_collect_iff clear i).1 reached.occupied).2
  · intro reached
    -- Reached slots keep their objects, so every path is still there.
    have transferred : h.collect.1.ReachableFrom h.IsRoot i :=
      reached.transfer fun j reachedJ => object?_collect_of_reachable clear reachedJ
    exact transferred.mono fun v root => IsRoot.transfer (h := h) rfl rfl rfl rfl root

/-- A collection right after another finds nothing to do. -/
theorem collect_collect (clear : h.MarksClear) :
    h.collect.1.collect =
      ({ h.collect.1 with collections := h.collect.1.collections + 1 },
        { freed := 0, live := h.collect.1.live }) := by
  have clear' := marksClear_collect clear
  have slots : h.collect.1.collect.1.slots = h.collect.1.slots := by
    refine Array.ext_getElem? fun i => ?_
    rw [collect_slots clear']
    rcases slot : h.collect.1.slots[i]? with _ | ⟨object, marked⟩
    · rfl
    · have unmarked : marked = false := clear' _ (Array.mem_of_getElem? slot)
      by_cases reached : h.collect.1.Reachable i
      · simp [reached, unmarked]
      · -- An occupied slot would have been reached, so this one is empty already.
        have empty : object = none := by
          cases object with
          | none => rfl
          | some o =>
              have occupied : h.collect.1.Occupied i := by
                refine occupied_of_object? (o := o) ?_
                rw [object?_slot, slot]
                rfl
              have kept := ((occupied_collect_iff clear i).1 occupied).2
              exact absurd ((reachable_collect_iff clear i).2 kept) reached
        simp [empty, unmarked]
  have none_emptied : (h.collect.1.markFrom
      (h.collect.1.startsIn (h.collect.1.symbols.toList.map Prod.snd))).garbage = [] := by
    refine List.eq_nil_iff_forall_not_mem.2 fun i member => ?_
    rcases (mem_garbage_iff clear' i).1 member with ⟨occupied, unreached⟩
    have kept := ((occupied_collect_iff clear i).1 occupied).2
    exact unreached ((reachable_collect_iff clear i).2 kept)
  have step : h.collect.1.collect =
      let emptied := (h.collect.1.markFrom
        (h.collect.1.startsIn (h.collect.1.symbols.toList.map Prod.snd))).garbage
      ({ h.collect.1 with
          slots := h.collect.1.collect.1.slots
          free := emptied.reverse ++ h.collect.1.free
          live := h.collect.1.live - emptied.length
          collections := h.collect.1.collections + 1 },
        { freed := emptied.length, live := h.collect.1.live - emptied.length }) := rfl
  rw [step, slots, none_emptied]
  rfl

/-! ## Exactness -/

/--
What a collection is to leave of `h`, and what it is to report. The free slots are listed in
the order in which they were emptied when `Heap.free`, whose head is used next, is reversed.
-/
structure CollectsTo (h h' : Heap) (report : Collected) : Prop where
  occupied_iff : ∀ i, h'.Occupied i ↔ h.Occupied i ∧ h.Reachable i
  object?_eq : ∀ i, h'.Occupied i → h'.object? (.slot i) = h.object? (.slot i)
  emptied : ∃ emptied : List Nat, emptied.Pairwise (· < ·) ∧
    (∀ i, i ∈ emptied ↔ h.Occupied i ∧ ¬ h'.Occupied i) ∧
    report.freed = emptied.length ∧ h'.live + emptied.length = h.live ∧
    h'.free.reverse = h.free.reverse ++ emptied
  live_eq : report.live = h'.live
  size_eq : h'.slots.size = h.slots.size
  marksClear : h'.MarksClear
  unchanged : h' =
    { h with
      slots := h'.slots
      free := h'.free
      live := h'.live
      collections := h.collections + 1 }

theorem collectsTo_collect (clear : h.MarksClear) (counted : h.live = h.occupiedSlots.length) :
    h.CollectsTo h.collect.1 h.collect.2 := by
  have split := length_occupiedSlots_collect clear
  constructor
  · exact occupied_collect_iff clear
  · intro i occupied
    exact object?_collect_of_reachable clear ((occupied_collect_iff clear i).1 occupied).2
  · refine ⟨(h.markFrom (h.startsIn (h.symbols.toList.map Prod.snd))).garbage,
      garbage_sorted _, ?_, rfl, ?_, ?_⟩
    · intro i
      rw [mem_garbage_iff clear, occupied_collect_iff clear]
      constructor
      · rintro ⟨occupied, unreached⟩
        exact ⟨occupied, fun both => unreached both.2⟩
      · rintro ⟨occupied, emptied⟩
        exact ⟨occupied, fun reached => emptied ⟨occupied, reached⟩⟩
    · have live := live_collect clear counted
      omega
    · have step : h.collect.1.free =
          (h.markFrom (h.startsIn (h.symbols.toList.map Prod.snd))).garbage.reverse ++ h.free := rfl
      rw [step, List.reverse_append, List.reverse_reverse]
  · rfl
  · exact size_collect clear
  · exact marksClear_collect clear
  · rfl

/--
A collection keeps exactly what is reachable, whatever the object graph looks like, in
whatever order the symbol table is visited, and a second one right after it does nothing.
-/
theorem collect_exact (h : Heap) (clear : h.MarksClear)
    (counted : h.live = h.occupiedSlots.length) :
    h.CollectsTo h.collect.1 h.collect.2 ∧
      (∀ symbols, symbols.Perm (h.symbols.toList.map Prod.snd) →
        h.collectIn symbols = h.collect) ∧
      h.collect.1.collect =
        ({ h.collect.1 with collections := h.collect.1.collections + 1 },
          { freed := 0, live := h.collect.1.live }) := by
  refine ⟨collectsTo_collect clear counted, ?_, collect_collect clear⟩
  intro symbols order
  exact collectIn_eq_collect clear order

/-- A heap with a garbage cycle of two pairs and a rooted pair whose car dangles. -/
def knotted : Heap :=
  { Heap.empty 8 with
    slots := #[⟨some (.environment .nil none), false⟩, ⟨some (.symbol "t"), false⟩,
      ⟨some (.pair (.slot 3) .nil), false⟩, ⟨some (.pair (.slot 2) (.slot 4)), false⟩,
      ⟨some (.pair (.slot 9) (.slot 4)), false⟩]
    live := 5
    roots := RootStack.empty.push (.slot 4) }

theorem collect_exact_knotted :
    knotted.MarksClear ∧ knotted.live = knotted.occupiedSlots.length ∧
      knotted.CollectsTo knotted.collect.1 knotted.collect.2 ∧
      (∀ symbols, symbols.Perm (knotted.symbols.toList.map Prod.snd) →
        knotted.collectIn symbols = knotted.collect) ∧
      knotted.collect.1.collect =
        ({ knotted.collect.1 with collections := knotted.collect.1.collections + 1 },
          { freed := 0, live := knotted.collect.1.live }) := by
  have clear : knotted.MarksClear := by decide
  have counted : knotted.live = knotted.occupiedSlots.length := by decide
  exact ⟨clear, counted, collect_exact knotted clear counted⟩

end Heap

end Lisplet
