import Lisplet.Proofs.Heap.Slots

/-!
# Reachability — the least set of slots closed under references

`Heap.ReachableFrom h start` is the set of occupied slots that can be reached from the values
satisfying `start` by following `Object.references` through occupied slots. References to empty
slots lead nowhere, and cycles are harmless since the set is defined inductively. A slot is
`Heap.Reachable` if it can be reached from one of the places that the collector starts from:

* the root environment,
* an interned symbol,
* a value on the root stack,
* a pinned value.
-/

namespace Lisplet

namespace Heap

/-! ## Following references -/

/-- The occupied slots that can be reached from the values that satisfy `start`. -/
inductive ReachableFrom (h : Heap) (start : Value → Prop) : Nat → Prop where
  | start {i : Nat} : start (.slot i) → h.Occupied i → ReachableFrom h start i
  | reference {i j : Nat} {o : Object} :
      ReachableFrom h start i → h.object? (.slot i) = some o → .slot j ∈ o.references →
        h.Occupied j → ReachableFrom h start j

/-- A value from which every collection starts. -/
inductive IsRoot (h : Heap) : Value → Prop where
  | environment : IsRoot h h.rootEnv.value
  | symbol {name : String} {value : Value} : h.symbols[name]? = some value → IsRoot h value
  | stack {value : Value} : value ∈ h.roots.values → IsRoot h value
  | pin {key : Nat} {value : Value} : h.pins[key]? = some (some value) → IsRoot h value

/-- An occupied slot that a collection is to keep. -/
def Reachable (h : Heap) (i : Nat) : Prop := h.ReachableFrom h.IsRoot i

namespace ReachableFrom

variable {h h' : Heap} {start start' : Value → Prop} {i : Nat}

theorem occupied (reached : h.ReachableFrom start i) : h.Occupied i := by
  cases reached with
  | start _ occupied => exact occupied
  | reference _ _ _ occupied => exact occupied

/-- With more values to start from, no fewer slots are reached. -/
theorem mono (more : ∀ v, start v → start' v) (reached : h.ReachableFrom start i) :
    h.ReachableFrom start' i := by
  induction reached with
  | start starts occupied => exact .start (more _ starts) occupied
  | reference _ found member occupied ih => exact .reference ih found member occupied

/-- What can be reached depends on the heap only through the objects that are reached. -/
theorem transfer (agree : ∀ j, h.ReachableFrom start j → h'.object? (.slot j) = h.object? (.slot j))
    (reached : h.ReachableFrom start i) : h'.ReachableFrom start i := by
  -- Both heaps have the same object in a reached slot, so it is occupied in both.
  have keeps : ∀ {j}, h.ReachableFrom start j → h'.Occupied j := by
    intro j reachedJ
    rcases occupied_iff.1 reachedJ.occupied with ⟨o, found⟩
    exact occupied_of_object? ((agree j reachedJ).trans found)
  induction reached with
  | start starts occupied =>
      exact .start starts (keeps (.start starts occupied))
  | reference before found member occupied ih =>
      have foundThere := (agree _ before).trans found
      exact .reference ih foundThere member (keeps (.reference before found member occupied))

end ReachableFrom

/-! ## The roots of a heap -/

section Roots

variable {h : Heap} {symbols : List Value} {v : Value}

theorem mem_symbolValues_iff :
    v ∈ h.symbols.toList.map Prod.snd ↔ ∃ name : String, h.symbols[name]? = some v := by
  constructor
  · intro member
    rcases List.mem_map.1 member with ⟨⟨name, value⟩, entry, rfl⟩
    exact ⟨name, Std.HashMap.mem_toList_iff_getElem?_eq_some.1 entry⟩
  · rintro ⟨name, found⟩
    refine List.mem_map.2 ⟨(name, v), ?_, rfl⟩
    exact Std.HashMap.mem_toList_iff_getElem?_eq_some.2 found

theorem mem_pinValues_iff :
    v ∈ h.pins.toList.filterMap id ↔ ∃ key : Nat, h.pins[key]? = some (some v) := by
  constructor
  · intro member
    rcases List.mem_filterMap.1 member with ⟨entry, listed, same⟩
    have held : some v ∈ h.pins := by
      have : entry = some v := same
      exact this ▸ Array.mem_toList_iff.1 listed
    rcases Array.mem_iff_getElem?.1 held with ⟨key, found⟩
    exact ⟨key, found⟩
  · rintro ⟨key, found⟩
    have held : some v ∈ h.pins := Array.mem_iff_getElem?.2 ⟨key, found⟩
    exact List.mem_filterMap.2 ⟨some v, Array.mem_toList_iff.2 held, rfl⟩

/-- Collection starts from the roots, in whatever order the symbol table is visited. -/
theorem mem_startsIn_iff (order : symbols.Perm (h.symbols.toList.map Prod.snd)) :
    v ∈ h.startsIn symbols ↔ h.IsRoot v := by
  have listed : v ∈ symbols ↔ ∃ name : String, h.symbols[name]? = some v :=
    order.mem_iff.trans mem_symbolValues_iff
  constructor
  · intro member
    rcases List.mem_cons.1 member with rfl | member
    · exact .environment
    · rcases List.mem_append.1 member with member | pinned
      · rcases List.mem_append.1 member with symbol | stacked
        · rcases listed.1 symbol with ⟨name, found⟩
          exact .symbol found
        · exact .stack (List.mem_reverse.1 stacked)
      · rcases mem_pinValues_iff.1 pinned with ⟨key, found⟩
        exact .pin found
  · intro root
    cases root with
    | environment => exact List.mem_cons_self
    | symbol found =>
        have : v ∈ symbols := listed.2 ⟨_, found⟩
        simp [startsIn, this]
    | stack stacked => simp [startsIn, stacked]
    | pin found =>
        have : v ∈ h.pins.toList.filterMap id := mem_pinValues_iff.2 ⟨_, found⟩
        exact List.mem_cons_of_mem _ (List.mem_append_right _ this)

end Roots

end Heap

end Lisplet
