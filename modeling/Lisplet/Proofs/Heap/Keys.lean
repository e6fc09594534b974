import Lisplet.Proofs.Heap.Keeping
import Mathlib.Data.Finmap

/-!
# Keys — pins as a finite map

The pins that have been granted and not given back are the keys of a finite map, under which the
values are found that were last given to them. Pinning inserts under a new key, repinning changes a
value and unpinning erases a key; all else that may happen to a heap leaves the map as it is, and
what can be reached from the values in it is kept alive (`Heap.KeepsAlive`). The indices of pins
that were given back are used again, which is why a key is new only as long as the list of unused
entries names each of them once (`Heap.Accounts`).
-/

namespace Lisplet

/-- The pins that are outstanding, with the values that they hold. -/
abbrev Outstanding := Finmap fun _ : Pin => Value

namespace Outstanding

variable {held : Outstanding} {p : Pin}

theorem insert_erase_self (held : Outstanding) (p : Pin) (v : Value) :
    (held.erase p).insert p v = held.insert p v := by
  refine Finmap.ext_lookup fun q => ?_
  by_cases here : q = p
  · subst here
    simp
  · rw [Finmap.lookup_insert_of_ne _ here, Finmap.lookup_insert_of_ne _ here,
      Finmap.lookup_erase_ne here]

theorem erase_of_lookup_eq_none (absent : held.lookup p = none) : held.erase p = held := by
  refine Finmap.ext_lookup fun q => ?_
  by_cases here : q = p
  · subst here
    rw [Finmap.lookup_erase, absent]
  · rw [Finmap.lookup_erase_ne here]

end Outstanding

namespace Heap

/-- The pin that a call is about, be it given to the call or by it. -/
def Operation.key? (h : Heap) : Operation → Option Pin
  | pin value => some (h.pin value).1
  | repin p _ | unpin p => some p
  | _ => none

/--
What is outstanding after a sequence of calls on a new heap. Only outstanding pins may be made to
hold another value. A pin may be given back again and again; if it has been granted anew in the
meantime, then it is the new grant that ends.
-/
inductive Grants : Heap → Outstanding → Prop where
  | empty (capacity : Nat) : Grants (Heap.empty capacity) ∅
  | pin {h : Heap} {held : Outstanding} (v : Value) :
      Grants h held → Grants (h.pin v).2 (held.insert (h.pin v).1 v)
  | repin {h : Heap} {held : Outstanding} {p : Pin} (v : Value) :
      Grants h held → p ∈ held → Grants (h.repin p v) (held.insert p v)
  | unpin {h : Heap} {held : Outstanding} (p : Pin) :
      Grants h held → Grants (h.unpin p) (held.erase p)
  /-- Any other call, such as an allocation or a collection. -/
  | operation {h : Heap} {held : Outstanding} (op : Operation) :
      Grants h held → op.key? h = none → Grants (op.run h) held
  | service {h : Heap} {held : Outstanding} (service : Service) :
      Grants h held → Grants (service.run h) held

/-! ## A ledger of what is outstanding -/

/-- A ledger lists what is outstanding. -/
def Tallies (ledger : Ledger) (held : Outstanding) : Prop :=
  ∀ p v, (p, v) ∈ ledger ↔ held.lookup p = some v

namespace Tallies

variable {ledger : Ledger} {held : Outstanding} {p : Pin} {u v : Value}

theorem empty : Tallies [] ∅ := fun p v => by simp

theorem mem_keys_iff (tallies : Tallies ledger held) : p ∈ ledger.map Prod.fst ↔ p ∈ held := by
  rw [Finmap.mem_iff, List.mem_map]
  constructor
  · rintro ⟨⟨p, v⟩, member, rfl⟩
    exact ⟨v, (tallies p v).1 member⟩
  · rintro ⟨v, found⟩
    exact ⟨(p, v), (tallies p v).2 found, rfl⟩

theorem cons (tallies : Tallies ledger held) (absent : p ∉ ledger.map Prod.fst) (v : Value) :
    Tallies ((p, v) :: ledger) (held.insert p v) := by
  intro q u
  rw [List.mem_cons, tallies q u]
  by_cases same : q = p
  · subst same
    have missing : held.lookup q = none :=
      Finmap.lookup_eq_none.2 (tallies.mem_keys_iff.not.1 absent)
    simp [missing, eq_comm]
  · rw [Finmap.lookup_insert_of_ne held same]
    simp [same]

theorem uncons (tallies : Tallies ((p, u) :: ledger) held) (absent : p ∉ ledger.map Prod.fst) :
    Tallies ledger (held.erase p) := by
  intro q w
  have whole := tallies q w
  rw [List.mem_cons] at whole
  by_cases same : q = p
  · subst same
    have unlisted : (q, w) ∉ ledger := fun listed => absent (List.mem_map_of_mem listed)
    simp [unlisted]
  · rw [Finmap.lookup_erase_ne same, ← whole]
    simp [same]

theorem replace (tallies : Tallies ((p, u) :: ledger) held) (absent : p ∉ ledger.map Prod.fst)
    (v : Value) : Tallies ((p, v) :: ledger) (held.insert p v) := by
  rw [← Outstanding.insert_erase_self]
  exact (tallies.uncons absent).cons absent v

theorem perm {ledger' : Ledger} (tallies : Tallies ledger held) (same : ledger.Perm ledger') :
    Tallies ledger' held := fun p v => same.mem_iff.symm.trans (tallies p v)

theorem length_eq (tallies : Tallies ledger held) (nodup : (ledger.map Prod.fst).Nodup) :
    ledger.length = held.keys.card := by
  have same : held.keys = (ledger.map Prod.fst).toFinset := by
    ext p
    rw [Finmap.mem_keys, List.mem_toFinset, tallies.mem_keys_iff]
  rw [same, List.toFinset_card_of_nodup nodup, List.length_map]

end Tallies

/-- What is outstanding is what the heap accounts for, and the heap is tidy. -/
structure Registers (h : Heap) (held : Outstanding) : Prop where
  accounts : ∃ ledger, h.Accounts ledger ∧ Tallies ledger held
  tidy : h.Tidy

section Registering

variable {h h' : Heap} {held : Outstanding} {p : Pin} {v : Value}

/-- An outstanding pin can be put on top of the ledger. -/
theorem Registers.exists_cons (r : h.Registers held) (found : held.lookup p = some v) :
    ∃ ledger, h.Accounts ((p, v) :: ledger) ∧ Tallies ((p, v) :: ledger) held := by
  obtain ⟨ledger, accounts, tallies⟩ := r.accounts
  have order := List.perm_cons_erase ((tallies p v).2 found)
  exact ⟨ledger.erase (p, v), accounts.perm order, tallies.perm order⟩

theorem Accounts.head_not_mem {ledger : Ledger} (a : h.Accounts ((p, v) :: ledger)) :
    p ∉ ledger.map Prod.fst := (List.nodup_cons.1 a.pins_nodup).1

theorem registers_empty (capacity : Nat) : (Heap.empty capacity).Registers ∅ :=
  ⟨⟨[], .empty capacity, .empty⟩, (wellFormed_empty capacity).tidy⟩

/-- Whatever leaves the pins as they are leaves what is outstanding as it is. -/
theorem Registers.of_leads (r : h.Registers held) (pins : h'.pins = h.pins)
    (freePins : h'.freePins = h.freePins) (leads : h.Leads h') : h'.Registers held := by
  obtain ⟨ledger, accounts, tallies⟩ := r.accounts
  exact ⟨⟨ledger, accounts.of_eq pins freePins, tallies⟩, leads.tidy r.tidy⟩

/-- Calls that are not about a pin touch none. -/
theorem Operation.pins_run {op : Operation} (other : op.key? h = none) :
    (op.run h).pins = h.pins ∧ (op.run h).freePins = h.freePins := by
  cases builds : op.builds with
  | true =>
      have level : h.Level (op.run h) :=
        conduct_level.whole_run (.build op builds) fun _ _ => trivial
      exact ⟨level.pins_eq, level.freePins_eq⟩
  | false =>
      cases op with
      | setCar pair value =>
          show (h.setCar pair value).pins = _ ∧ (h.setCar pair value).freePins = _
          unfold Heap.setCar
          split
          · exact ⟨rfl, rfl⟩
          · exact ⟨rfl, rfl⟩
      | setCdr pair value =>
          have level := Level.setCdr h pair value
          exact ⟨level.pins_eq, level.freePins_eq⟩
      | root value =>
          have balanced := Balanced.addRoot h value
          exact ⟨balanced.pins_eq, balanced.freePins_eq⟩
      | truncateRoots height => exact ⟨rfl, rfl⟩
      | collect => exact ⟨rfl, rfl⟩
      | pin | repin | unpin => cases other
      | _ => cases builds

theorem Registers.pin (r : h.Registers held) (v : Value) :
    (h.pin v).2.Registers (held.insert (h.pin v).1 v) := by
  obtain ⟨ledger, accounts, tallies⟩ := r.accounts
  have after := accounts.pin v
  have tidy : (h.pin v).2.Tidy := ((Operation.pin v).leads_run h).tidy r.tidy
  exact ⟨⟨_, after, tallies.cons after.head_not_mem v⟩, tidy⟩

theorem Registers.repin (r : h.Registers held) (outstanding : p ∈ held) (v : Value) :
    (h.repin p v).Registers (held.insert p v) := by
  obtain ⟨u, found⟩ := Finmap.mem_iff.1 outstanding
  obtain ⟨ledger, accounts, tallies⟩ := r.exists_cons found
  have tidy : (h.repin p v).Tidy := r.tidy.transfer rfl rfl
  exact ⟨⟨_, accounts.repin v, tallies.replace accounts.head_not_mem v⟩, tidy⟩

theorem Registers.unpin (r : h.Registers held) (p : Pin) :
    (h.unpin p).Registers (held.erase p) := by
  refine ⟨?_, ((Operation.unpin p).leads_run h).tidy r.tidy⟩
  cases found : held.lookup p with
  | some u =>
      obtain ⟨ledger, accounts, tallies⟩ := r.exists_cons found
      exact ⟨ledger, accounts.unpin, tallies.uncons accounts.head_not_mem⟩
  | none =>
      -- The pin is not outstanding, and neither the heap nor the map is changed.
      obtain ⟨ledger, accounts, tallies⟩ := r.accounts
      have unlisted := tallies.mem_keys_iff.not.2 (Finmap.lookup_eq_none.1 found)
      rw [Outstanding.erase_of_lookup_eq_none found, accounts.unpin_idle unlisted]
      exact ⟨ledger, accounts, tallies⟩

theorem Grants.registers (grants : h.Grants held) : h.Registers held := by
  induction grants with
  | empty capacity => exact registers_empty capacity
  | pin v _ ih => exact ih.pin v
  | repin v _ outstanding ih => exact ih.repin outstanding v
  | unpin p _ ih => exact ih.unpin p
  | operation op _ other ih =>
      have same := op.pins_run other
      exact ih.of_leads same.1 same.2 (op.leads_run _)
  | @service h held service _ ih =>
      have level : h.Level (service.run h) := conduct_level.whole_run service fun _ _ => trivial
      exact ih.of_leads level.pins_eq level.freePins_eq (service.leads_run h)

end Registering

/-! ## The finite map -/

section Mapping

variable {h : Heap} {held : Outstanding}

/-- A call changes what is found under its own pin only. -/
theorem Operation.pinned_run {op : Operation} {q : Pin} (other : op.key? h ≠ some q) :
    (op.run h).pinned q = h.pinned q := by
  have unused {p : Pin} (different : p ≠ q) : p.index ≠ q.index :=
    fun same => different (Pin.eq_of_index same)
  cases op with
  | pin v =>
      have different : (h.pin v).1 ≠ q := fun same => other (congrArg some same)
      show (h.pin v).2.pinned q = h.pinned q
      revert different
      unfold Heap.pin Heap.pinned
      split
      · next i free _ =>
        intro different
        have missed : i ≠ q.index := unused different
        simp only [Array.getElem?_setIfInBounds_ne missed]
      · intro different
        have missed : q.index ≠ h.pins.size := (unused different).symm
        simp only [Array.getElem?_push, if_neg missed]
  | repin p v =>
      have missed := unused fun same => other (congrArg some same)
      show (h.pins.setIfInBounds p.index (some v))[q.index]?.join.getD .nil = h.pinned q
      rw [Array.getElem?_setIfInBounds_ne missed]
      rfl
  | unpin p =>
      have missed := unused fun same => other (congrArg some same)
      show (h.unpin p).pinned q = h.pinned q
      unfold Heap.unpin Heap.pinned
      split
      · simp only [Array.getElem?_setIfInBounds_ne missed]
      · rfl
  | _ =>
      unfold Heap.pinned
      rw [(Operation.pins_run rfl).1]

theorem Registers.not_mem_pin (r : h.Registers held) (v : Value) : (h.pin v).1 ∉ held := by
  obtain ⟨ledger, accounts, tallies⟩ := r.accounts
  exact tallies.mem_keys_iff.not.1 (accounts.pin v).head_not_mem

theorem Registers.pinned_eq (r : h.Registers held) (p : Pin) :
    h.pinned p = (held.lookup p).getD .nil := by
  obtain ⟨ledger, accounts, tallies⟩ := r.accounts
  cases found : held.lookup p with
  | some v => exact accounts.pinned_eq ((tallies p v).2 found)
  | none =>
      have absent := Finmap.lookup_eq_none.1 found
      exact accounts.pinned_idle (tallies.mem_keys_iff.not.2 absent)

theorem Registers.length_add_card (r : h.Registers held) :
    h.freePins.length + held.keys.card = h.pins.size := by
  obtain ⟨ledger, accounts, tallies⟩ := r.accounts
  rw [← tallies.length_eq accounts.pins_nodup, accounts.length_add_length]

theorem Registers.keepsAlive {p : Pin} {v : Value} (r : h.Registers held)
    (found : held.lookup p = some v) : h.KeepsAlive v := by
  obtain ⟨ledger, accounts, tallies⟩ := r.accounts
  exact keepsAlive_of_pinned r.tidy ((accounts.mem_iff p v).1 ((tallies p v).2 found))

/--
Pins behave like a finite map with fresh keys. After any sequence of calls, a value is pinned under
a key that is not outstanding, every outstanding pin gives the value that was last given to it and
any other pin gives nil, and a call changes nothing under any pin but its own. There are as many
pins as are outstanding, in a count that never goes below nought. And a collection leaves every slot
as it is that can be reached from the value of an outstanding pin, as do all others that are run by
whatever is called next.
-/
theorem pins_are_a_finite_map (grants : h.Grants held) :
    (∀ v, (h.pin v).1 ∉ held) ∧
    (∀ p, h.pinned p = (held.lookup p).getD .nil) ∧
    (∀ (op : Operation) (q : Pin), op.key? h ≠ some q → (op.run h).pinned q = h.pinned q) ∧
    h.freePins.length ≤ h.pins.size ∧ h.pinCount = held.keys.card ∧
    ∀ p v, held.lookup p = some v → h.KeepsAlive v := by
  have r := grants.registers
  have table := r.length_add_card
  refine ⟨r.not_mem_pin, r.pinned_eq, fun op q => op.pinned_run, by omega, ?_, ?_⟩
  · unfold pinCount
    omega
  · exact fun p v found => r.keepsAlive found

/--
The pairs `(())` and `((()))` are made and pinned, and the pin of the first is given back twice. In
the end the second pair is pinned once more, and so the index of the first pin is used again.
-/
def reissued : Heap :=
  let one := (Operation.cons .nil .nil).run (Heap.empty 8)
  let two := (Operation.cons (.slot 2) .nil).run one
  let twice := ((two.pin (.slot 2)).2.pin (.slot 3)).2
  (((twice.unpin ⟨0⟩).unpin ⟨0⟩).pin (.slot 3)).2

/-- What is outstanding then. -/
def reissuedPins : Outstanding :=
  let both := (Finmap.insert ⟨0⟩ (.slot 2) ∅).insert ⟨1⟩ (.slot 3)
  ((both.erase ⟨0⟩).erase ⟨0⟩).insert ⟨0⟩ (.slot 3)

theorem pins_are_a_finite_map_reissued :
    reissued.Grants reissuedPins ∧ (reissued.pin (.slot 1)).1 ∉ reissuedPins ∧
      reissued.pinned ⟨0⟩ = .slot 3 ∧ reissued.pinCount = reissuedPins.keys.card ∧
      reissuedPins.lookup ⟨0⟩ = some (.slot 3) ∧
      reissued.collect.1.object? (.slot 3) = some (.pair (.slot 2) .nil) ∧
      reissued.collect.1.object? (.slot 2) = some (.pair .nil .nil) := by
  have grants : reissued.Grants reissuedPins :=
    .pin _ (.unpin _ (.unpin _ (.pin _ (.pin _ (.operation _ (.operation _ (.empty 8) rfl) rfl)))))
  have found : reissuedPins.lookup ⟨0⟩ = some (.slot 3) := Finmap.lookup_insert _
  obtain ⟨fresh, pinned, -, -, count, alive⟩ := pins_are_a_finite_map grants
  have secures := (alive _ _ found).collect
  have outer : reissued.object? (.slot 3) = some (.pair (.slot 2) .nil) := rfl
  have inner : reissued.object? (.slot 2) = some (.pair .nil .nil) := rfl
  have reached : reissued.ReachableFrom (· = .slot 3) 3 := .start rfl (occupied_of_object? outer)
  have reached' : reissued.ReachableFrom (· = .slot 3) 2 :=
    .reference reached outer (List.mem_cons_self) (occupied_of_object? inner)
  refine ⟨grants, fresh _, ?_, count, found, (secures 3 reached).trans outer,
    (secures 2 reached').trans inner⟩
  rw [pinned, found]
  rfl

end Mapping

end Heap

end Lisplet
