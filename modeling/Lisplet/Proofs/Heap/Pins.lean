import Lisplet.Heap.Allocate
import Mathlib.Data.List.Nodup
import Mathlib.Tactic.Common

/-!
# Pins — who holds what

A ledger lists pins with the values they hold. A heap accounts for a ledger if the pins that are
held on it are exactly those of the ledger, each once and with the value that is listed. Pinning
puts an entry on the ledger, repinning changes the value of one, and unpinning takes one off; so
if several holders keep their own ledgers, none of them disturbs another.
-/

namespace Lisplet

theorem Pin.eq_of_index {p q : Pin} (same : p.index = q.index) : p = q := by
  cases p
  cases q
  cases same
  rfl

namespace Heap

/-- To pin a value changes the pins alone. -/
theorem pin_eq (h : Heap) (v : Value) :
    (h.pin v).2 = { h with pins := (h.pin v).2.pins, freePins := (h.pin v).2.freePins } := by
  unfold pin
  split
  · rfl
  · rfl

theorem unpin_eq (h : Heap) (p : Pin) :
    h.unpin p = { h with pins := (h.unpin p).pins, freePins := (h.unpin p).freePins } := by
  unfold unpin
  split
  · rfl
  · rfl

abbrev Ledger := List (Pin × Value)

/-- The pins that are held are those of the ledger, and they hold what it says. -/
structure Accounts (h : Heap) (ledger : Ledger) : Prop where
  free_nodup : h.freePins.Nodup
  mem_free_iff : ∀ i, i ∈ h.freePins ↔ h.pins[i]? = some none
  pins_nodup : (ledger.map Prod.fst).Nodup
  mem_iff : ∀ p v, (p, v) ∈ ledger ↔ h.pins[p.index]? = some (some v)

namespace Accounts

variable {h h' : Heap} {ledger ledger' : Ledger} {p : Pin} {u v : Value}

theorem perm (a : h.Accounts ledger) (same : ledger.Perm ledger') : h.Accounts ledger' where
  free_nodup := a.free_nodup
  mem_free_iff := a.mem_free_iff
  pins_nodup := (same.map _).nodup_iff.1 a.pins_nodup
  mem_iff p v := same.mem_iff.symm.trans (a.mem_iff p v)

/-- Only the pin table counts. -/
theorem of_eq (a : h.Accounts ledger) (pins : h'.pins = h.pins)
    (freePins : h'.freePins = h.freePins) : h'.Accounts ledger where
  free_nodup := freePins ▸ a.free_nodup
  mem_free_iff := by
    rw [pins, freePins]
    exact a.mem_free_iff
  pins_nodup := a.pins_nodup
  mem_iff := by
    rw [pins]
    exact a.mem_iff

theorem empty (capacity : Nat) : (Heap.empty capacity).Accounts [] where
  free_nodup := List.nodup_nil
  mem_free_iff i := by simp [Heap.empty]
  pins_nodup := List.nodup_nil
  mem_iff p v := by simp [Heap.empty]

/-! ## One entry more or less -/

/-- A pin that is not held yet comes to hold a value. -/
theorem cons (a : h.Accounts ledger) (idle : ∀ u, h.pins[p.index]? ≠ some (some u))
    (pins : ∀ j, h'.pins[j]? = if p.index = j then some (some v) else h.pins[j]?)
    (free_nodup : h'.freePins.Nodup)
    (mem_free : ∀ j, j ∈ h'.freePins ↔ j ∈ h.freePins ∧ p.index ≠ j) :
    h'.Accounts ((p, v) :: ledger) where
  free_nodup := free_nodup
  mem_free_iff j := by
    rw [mem_free, pins, a.mem_free_iff]
    split
    · next same => simp [same]
    · next other => simp [other]
  pins_nodup := by
    refine List.nodup_cons.2 ⟨fun listed => ?_, a.pins_nodup⟩
    obtain ⟨⟨p, u⟩, member, rfl⟩ := List.mem_map.1 listed
    exact idle u ((a.mem_iff p u).1 member)
  mem_iff q u := by
    rw [pins, List.mem_cons, a.mem_iff]
    split
    · next same =>
      obtain rfl := Pin.eq_of_index same
      simp [idle, eq_comm]
    · next other =>
      have different : q ≠ p := fun same => other (congrArg Pin.index same.symm)
      simp [different]

/-- A pin that is held comes to hold another value. -/
theorem replace (a : h.Accounts ((p, u) :: ledger))
    (pins : ∀ j, h'.pins[j]? = if p.index = j then some (some v) else h.pins[j]?)
    (freePins : h'.freePins = h.freePins) : h'.Accounts ((p, v) :: ledger) where
  free_nodup := freePins ▸ a.free_nodup
  mem_free_iff j := by
    rw [freePins, pins, a.mem_free_iff]
    split
    · next same =>
      subst same
      simp [(a.mem_iff p u).1 List.mem_cons_self]
    · exact Iff.rfl
  pins_nodup := a.pins_nodup
  mem_iff q w := by
    have rest := a.mem_iff q w
    rw [List.mem_cons] at rest
    rw [pins, List.mem_cons]
    have absent : p ∉ ledger.map Prod.fst := (List.nodup_cons.1 a.pins_nodup).1
    split
    · next same =>
      obtain rfl := Pin.eq_of_index same
      have unlisted : (p, w) ∉ ledger := fun listed => absent (List.mem_map_of_mem listed)
      simp [unlisted, eq_comm]
    · next other =>
      have different : q ≠ p := fun same => other (congrArg Pin.index same.symm)
      rw [← rest]
      simp [different]

/-- A pin that is held is given back. -/
theorem uncons (a : h.Accounts ((p, u) :: ledger))
    (pins : ∀ j, h'.pins[j]? = if p.index = j then some none else h.pins[j]?)
    (freePins : h'.freePins = p.index :: h.freePins) : h'.Accounts ledger where
  free_nodup := by
    rw [freePins]
    refine List.nodup_cons.2 ⟨fun free => ?_, a.free_nodup⟩
    have held := (a.mem_iff p u).1 List.mem_cons_self
    rw [(a.mem_free_iff _).1 free] at held
    cases held
  mem_free_iff j := by
    rw [freePins, pins, List.mem_cons, a.mem_free_iff]
    split
    · next same => simp [same]
    · next other => simp [Ne.symm other]
  pins_nodup := (List.nodup_cons.1 a.pins_nodup).2
  mem_iff q w := by
    have rest := a.mem_iff q w
    rw [List.mem_cons] at rest
    rw [pins]
    have absent : p ∉ ledger.map Prod.fst := (List.nodup_cons.1 a.pins_nodup).1
    split
    · next same =>
      obtain rfl := Pin.eq_of_index same
      have unlisted : (p, w) ∉ ledger := fun listed => absent (List.mem_map_of_mem listed)
      simp [unlisted]
    · next other =>
      have different : q ≠ p := fun same => other (congrArg Pin.index same.symm)
      rw [← rest]
      simp [different]

/-! ## Operations -/

theorem pin (a : h.Accounts ledger) (v : Value) :
    (h.pin v).2.Accounts (((h.pin v).1, v) :: ledger) := by
  unfold Heap.pin
  split
  · next i free found =>
    have nodup := a.free_nodup
    rw [found] at nodup
    have idle : h.pins[i]? = some none :=
      (a.mem_free_iff i).1 (found ▸ List.mem_cons_self)
    have inside := (Array.getElem?_eq_some_iff.1 idle).1
    refine a.cons (fun u held => ?_) (fun j => ?_) (List.nodup_cons.1 nodup).2 fun j => ?_
    · rw [idle] at held
      cases held
    · rw [Array.getElem?_setIfInBounds, if_pos inside]
    · rw [found, List.mem_cons]
      constructor
      · intro member
        refine ⟨.inr member, ?_⟩
        rintro rfl
        exact (List.nodup_cons.1 nodup).1 member
      · rintro ⟨rfl | member, other⟩
        · exact absurd rfl other
        · exact member
  · next found =>
    refine a.cons (fun u held => ?_) (fun j => ?_) (found ▸ List.nodup_nil) fun j => ?_
    · have inside := (Array.getElem?_eq_some_iff.1 held).1
      exact Nat.lt_irrefl _ inside
    · rw [Array.getElem?_push]
      simp only [eq_comm]
    · simp [found]

theorem repin (a : h.Accounts ((p, u) :: ledger)) (v : Value) :
    (h.repin p v).Accounts ((p, v) :: ledger) := by
  have held := (a.mem_iff p u).1 List.mem_cons_self
  have inside := (Array.getElem?_eq_some_iff.1 held).1
  refine a.replace (fun j => ?_) rfl
  exact (Array.getElem?_setIfInBounds).trans (by rw [if_pos inside])

theorem unpin (a : h.Accounts ((p, u) :: ledger)) : (h.unpin p).Accounts ledger := by
  have held := (a.mem_iff p u).1 List.mem_cons_self
  have inside := (Array.getElem?_eq_some_iff.1 held).1
  have step : h.unpin p =
      { h with pins := h.pins.setIfInBounds p.index none, freePins := p.index :: h.freePins } := by
    unfold Heap.unpin
    rw [held]
    rfl
  rw [step]
  refine a.uncons (fun j => ?_) rfl
  exact (Array.getElem?_setIfInBounds).trans (by rw [if_pos inside])

/-- Pins may be given back one by one. -/
theorem unpinAll (a : h.Accounts (ledger ++ ledger')) :
    (ledger.foldl (fun h entry => h.unpin entry.1) h).Accounts ledger' := by
  induction ledger generalizing h with
  | nil => exact a
  | cons entry ledger ih => exact ih a.unpin

theorem join_eq_none (a : h.Accounts ledger) (idle : p ∉ ledger.map Prod.fst) :
    h.pins[p.index]?.join = none := by
  cases found : h.pins[p.index]?.join with
  | none => rfl
  | some u =>
      have held : (p, u) ∈ ledger := (a.mem_iff p u).2 (Option.join_eq_some_iff.1 found)
      exact absurd (List.mem_map_of_mem held) idle

/-- Unpinning a pin that is not held does nothing. -/
theorem unpin_idle (a : h.Accounts ledger) (idle : p ∉ ledger.map Prod.fst) : h.unpin p = h := by
  unfold Heap.unpin
  rw [a.join_eq_none idle]

/-- A pin that is not held gives nil. -/
theorem pinned_idle (a : h.Accounts ledger) (idle : p ∉ ledger.map Prod.fst) :
    h.pinned p = .nil := by
  unfold Heap.pinned
  rw [a.join_eq_none idle]
  rfl

theorem pinned_eq (a : h.Accounts ledger) (listed : (p, v) ∈ ledger) : h.pinned p = v := by
  unfold Heap.pinned
  rw [(a.mem_iff p v).1 listed]
  rfl

/-- The entries of the pin table are the unused ones and those of the ledger. -/
theorem length_add_length (a : h.Accounts ledger) :
    h.freePins.length + ledger.length = h.pins.size := by
  have index_injective : Function.Injective Pin.index := fun _ _ same => Pin.eq_of_index same
  have table : (h.freePins ++ (ledger.map Prod.fst).map Pin.index).Perm
      (List.range h.pins.size) := by
    refine (List.perm_ext_iff_of_nodup ?_ List.nodup_range).2 fun i => ?_
    · refine List.nodup_append.2 ⟨a.free_nodup, a.pins_nodup.map index_injective, ?_⟩
      rintro i free j listed rfl
      obtain ⟨q, pin, rfl⟩ := List.mem_map.1 listed
      obtain ⟨⟨q, u⟩, member, rfl⟩ := List.mem_map.1 pin
      have held := (a.mem_iff q u).1 member
      rw [(a.mem_free_iff _).1 free] at held
      cases held
    · rw [List.mem_append, List.mem_range, a.mem_free_iff]
      constructor
      · rintro (idle | listed)
        · exact (Array.getElem?_eq_some_iff.1 idle).1
        · obtain ⟨q, pin, rfl⟩ := List.mem_map.1 listed
          obtain ⟨⟨q, u⟩, member, rfl⟩ := List.mem_map.1 pin
          exact (Array.getElem?_eq_some_iff.1 ((a.mem_iff q u).1 member)).1
      · intro inside
        cases found : h.pins[i] with
        | none => exact .inl (Array.getElem?_eq_some_iff.2 ⟨inside, found⟩)
        | some u =>
            have member := (a.mem_iff ⟨i⟩ u).2 (Array.getElem?_eq_some_iff.2 ⟨inside, found⟩)
            exact .inr (List.mem_map.2 ⟨⟨i⟩, List.mem_map_of_mem member, rfl⟩)
  have size := table.length_eq
  simpa only [List.length_append, List.length_map, List.length_range] using size

/-- There are as many pins held as the ledger has entries. -/
theorem pinCount_eq (a : h.Accounts ledger) : h.pinCount = ledger.length := by
  have size := a.length_add_length
  unfold Heap.pinCount
  omega

end Accounts

end Heap

end Lisplet
