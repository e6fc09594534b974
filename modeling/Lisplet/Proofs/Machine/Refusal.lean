import Lisplet.Proofs.Machine.Holdings
import Lisplet.Proofs.Machine.WellFormed

/-!
# Refusal — what an installation that fails leaves behind

A program is taken apart, its registers come into being, and then its names are settled. If it
cannot be taken apart, nothing has happened to the machine. But if a name in it refers to nothing,
the registers are there by then; they stay, each of them with a pin, and so does all that the
machine had before.
-/

namespace Lisplet

namespace Heap

/-- A program with these elements can be taken apart. -/
structure TakesApart (h : Heap) (program : Value) (elements : List Value) : Prop where
  list : h.Spine program elements .nil
  parses : h.Parses elements
  single : (h.labelNames elements).Nodup

theorem exists_scan_iff {h : Heap} {program : Value} :
    (∃ listing, Listing.scan h program = .ok listing) ↔
      ∃ elements, h.TakesApart program elements := by
  constructor
  · rintro ⟨listing, scanned⟩
    rcases Listing.scan_eq_ok_iff.1 scanned with ⟨elements, spine, scannedOnto⟩
    rcases Listing.exists_scanOnto_iff.1 ⟨listing, scannedOnto⟩ with ⟨parses, single, -⟩
    exact ⟨elements, spine, parses, single⟩
  · rintro ⟨elements, spine, parses, single⟩
    have taken : ∃ listing, Listing.scanOnto h ⟨[], #[]⟩ elements = .ok listing :=
      Listing.exists_scanOnto_iff.2 ⟨parses, single, nofun⟩
    rcases taken with ⟨listing, scannedOnto⟩
    exact ⟨listing, Listing.scan_eq_ok_iff.2 ⟨elements, spine, scannedOnto⟩⟩

theorem TakesApart.congr {h h' : Heap} {program : Value} {elements : List Value}
    (same : ∀ v, h'.object? v = h.object? v) (t : h.TakesApart program elements) :
    h'.TakesApart program elements :=
  ⟨t.list.congr same, (parses_congr same).2 t.parses, (labelNames_congr same).symm ▸ t.single⟩

end Heap

namespace Bench

/-- The registers that a program with these elements brings into being on a machine. -/
def newcomers (b : Bench) (elements : List Value) : List String :=
  (((b.heap.instructions elements).filterMap Instruction.register?).filter fun name =>
    (b.machine.index? name).isNone).eraseDups

theorem newcomers_eq_nil_iff {b : Bench} {elements : List Value} :
    b.newcomers elements = [] ↔
      ∀ i ∈ b.heap.instructions elements, ∀ name, i.register? = some name →
        (b.machine.index? name).isSome := by
  rw [List.eq_nil_iff_forall_not_mem]
  unfold newcomers
  simp only [List.mem_eraseDups, List.mem_filter, List.mem_filterMap, Option.isNone_iff_eq_none,
    ← Option.not_isSome_iff_eq_none, not_and, not_not]
  exact ⟨fun none i member name writes => none name ⟨i, member, writes⟩,
    fun known name ⟨i, member, writes⟩ => known i member name writes⟩

/-- `b'` is `b` with some registers more, which nothing has been written to. -/
structure Gains (b : Bench) (new : List Register) (b' : Bench) : Prop where
  machine_eq : b'.machine = { b.machine with registers := b.machine.registers ++ new.toArray }
  isNew : ∀ register ∈ new, register.IsNew
  heap_eq : b'.heap = { b.heap with pins := b'.heap.pins, freePins := b'.heap.freePins }

section Failing

variable {b b' : Bench} {program source : Value} {others : Heap.Ledger} {e : AssemblyError}
  {new : List Register}

/-- The registers are brought into being while the list of the program is pinned. -/
theorem gains_declareAll (b : Bench) (program : Value) (names : List String) (pin : Pin) :
    ∃ new, new.map Register.name =
        (names.filter fun name => (b.machine.index? name).isNone).eraseDups ∧
      b.Gains new
        ⟨(names.foldl declare ⟨b.machine, (b.heap.pin program).2⟩).machine,
          (names.foldl declare ⟨b.machine, (b.heap.pin program).2⟩).heap.unpin pin⟩ := by
  obtain ⟨new, named, isNew, same⟩ :=
    machine_declareAll ⟨b.machine, (b.heap.pin program).2⟩ names
  refine ⟨new, named, same, isNew, ?_⟩
  dsimp only
  rw [Heap.unpin_eq, declareAll_eq]
  dsimp only
  rw [Heap.pin_eq]

/-- What comes of a failed installation depends on whether the program could be taken apart. -/
theorem gains_of_install (fails : install program b = .error e b') :
    ∃ new, b.Gains new b' ∧
      ((∀ elements, ¬ b.heap.TakesApart program elements) ∧ new = [] ∨
        ∃ elements, b.heap.TakesApart program elements ∧
          new.map Register.name = b.newcomers elements) := by
  have same := Heap.object?_pin b.heap program
  rw [install_eq] at fails
  rcases assembleLines_cases program (b.heap.pin program).1
      ⟨b.machine, (b.heap.pin program).2⟩ with ⟨_, failed, step⟩ |
    ⟨listing, declared, scanned, rfl, ⟨_, _, step⟩ | ⟨lines, _, step⟩⟩
  · rw [step] at fails
    cases fails
    rcases gains_declareAll b program [] (b.heap.pin program).1 with ⟨new, named, gains⟩
    cases List.map_eq_nil_iff.1 named
    refine ⟨[], gains, .inl ⟨fun elements apart => ?_, rfl⟩⟩
    rcases Heap.exists_scan_iff.2 ⟨elements, apart.congr same⟩ with ⟨listing, scanned⟩
    cases failed.symm.trans scanned
  · rw [step] at fails
    cases fails
    rcases gains_declareAll b program listing.registers (b.heap.pin program).1 with
      ⟨new, named, gains⟩
    refine ⟨new, gains, .inr ?_⟩
    rcases Listing.scan_eq_ok_iff.1 scanned with ⟨elements, spine, scannedOnto⟩
    rcases Listing.exists_scanOnto_iff.1 ⟨listing, scannedOnto⟩ with ⟨parses, single, -⟩
    have apart : b.heap.TakesApart program elements :=
      .congr (fun v => (same v).symm) ⟨spine, parses, single⟩
    refine ⟨elements, apart, named.trans ?_⟩
    have instructions : listing.lines.toList.map Prod.snd = b.heap.instructions elements := by
      simpa [Heap.instructions_congr same] using
        (Listing.scans_of_scanOnto scannedOnto).instructions
    unfold newcomers
    rw [← instructions, List.filterMap_map]
    rfl
  · rw [step] at fails
    cases fails

/-- A pin that is held goes on being held, with what it held. -/
theorem Gains.pins_kept (gains : b.Gains new b') (accounts : b.Accounts source others)
    (accounts' : b'.Accounts source others) {key : Nat} {v : Value}
    (held : b.heap.pins[key]? = some (some v)) : b'.heap.pins[key]? = some (some v) := by
  have listed := (accounts.mem_iff ⟨key⟩ v).2 held
  refine (accounts'.mem_iff ⟨key⟩ v).1 ?_
  rw [gains.machine_eq]
  simp only [Machine.holdings, List.mem_append, List.mem_cons, Array.toList_append,
    List.map_append] at listed ⊢
  tauto

/-- Every register that is new has a pin of its own. -/
theorem Gains.pinCount_eq (gains : b.Gains new b') (accounts : b.Accounts source others)
    (accounts' : b'.Accounts source others) :
    b'.heap.pinCount = b.heap.pinCount + new.length := by
  rw [Heap.Accounts.pinCount_eq accounts, Heap.Accounts.pinCount_eq accounts', gains.machine_eq]
  simp only [Machine.holdings, List.length_append, List.length_cons, List.length_map,
    Array.toList_append]
  omega

/--
An installation that fails leaves the machine as it was but for registers that are new: its
registers with what they hold, its program and labels, state, program counter, stack, counts and
flag are as before, and in the heap only pins are different. Those that were held still are, and
there is one more for every register that is new. These are the registers that the program writes
and the machine did not have, if the program can be taken apart, and else there are none. So the
machine and the number of pins are as before just when the program cannot be taken apart or writes
no other registers than those that are there.
-/
theorem failed_install_leaves_registers (accounts : b.Accounts source others)
    (fails : install program b = .error e b') :
    (∃ new, b.Gains new b' ∧
      (∀ (key : Nat) v, b.heap.pins[key]? = some (some v) → b'.heap.pins[key]? = some (some v)) ∧
      b'.heap.pinCount = b.heap.pinCount + new.length ∧
      ((∀ elements, ¬ b.heap.TakesApart program elements) ∧ new = [] ∨
        ∃ elements, b.heap.TakesApart program elements ∧
          new.map Register.name = b.newcomers elements)) ∧
    (b'.machine = b.machine ∧ b'.heap.pinCount = b.heap.pinCount ↔
      ∀ elements, b.heap.TakesApart program elements →
        ∀ i ∈ b.heap.instructions elements, ∀ name, i.register? = some name →
          (b.machine.index? name).isSome) := by
  have accounts' : b'.Accounts source others := by
    have kept := accounts_install accounts program
    rwa [fails] at kept
  rcases gains_of_install fails with ⟨new, gains, which⟩
  have count := gains.pinCount_eq accounts accounts'
  refine ⟨⟨new, gains, fun _ _ => gains.pins_kept accounts accounts', count, which⟩, ?_⟩
  constructor
  · rintro ⟨-, same⟩ elements apart
    have none : new = [] := List.length_eq_zero_iff.1 (by omega)
    rcases which with ⟨never, -⟩ | ⟨elements', apart', named⟩
    · exact absurd apart (never elements)
    · rcases apart.list.unique apart'.list with ⟨rfl, -⟩
      refine newcomers_eq_nil_iff.1 ?_
      rw [← named, none, List.map_nil]
  · intro known
    have none : new = [] := by
      rcases which with ⟨-, none⟩ | ⟨elements, apart, named⟩
      · exact none
      · rw [newcomers_eq_nil_iff.2 (known elements apart)] at named
        exact List.map_eq_nil_iff.1 named
    have machine := gains.machine_eq
    subst none
    exact ⟨by simpa using machine, by simpa using count⟩

end Failing

/-- A heap with the list `((assign r (const ())) (goto (label missing)))` in slot 16. -/
def misdirection : Heap :=
  { Heap.empty 32 with
    slots := #[
      .symbol "assign", .symbol "r", .symbol "const", .symbol "goto", .symbol "label",
      .symbol "missing",
      .pair .nil .nil, .pair (.slot 2) (.slot 6), .pair (.slot 7) .nil,
      .pair (.slot 1) (.slot 8), .pair (.slot 0) (.slot 9),
      .pair (.slot 5) .nil, .pair (.slot 4) (.slot 11), .pair (.slot 12) .nil,
      .pair (.slot 3) (.slot 13),
      .pair (.slot 14) .nil, .pair (.slot 10) (.slot 15)].map fun o => ⟨some o, false⟩ }

/-- A machine without registers, which the program would be the first to bring into being. -/
def misdirected : Bench := build { Setup.standard with operations := .empty } misdirection

/-- What an operation fails for. -/
def failure? {ε α : Type} : EStateM.Result ε Bench α → Option ε
  | .ok _ _ => none
  | .error e _ => some e

/-- The machine has no register before, and has the register `r` after the program was refused. -/
theorem failed_install_leaves_registers_misdirected :
    ∃ e b', misdirected.Accounts .nil [] ∧
      install (.slot 16) misdirected = .error e b' ∧
      e = .undefinedLabel "missing" ∧
      misdirected.machine.registers.size = 0 ∧
      b'.machine.registers.toList.map Register.name = ["r"] ∧
      (∃ new, misdirected.Gains new b' ∧
        (∀ (key : Nat) v, misdirected.heap.pins[key]? = some (some v) →
          b'.heap.pins[key]? = some (some v)) ∧
        b'.heap.pinCount = misdirected.heap.pinCount + new.length ∧
        ((∀ elements, ¬ misdirected.heap.TakesApart (.slot 16) elements) ∧ new = [] ∨
          ∃ elements, misdirected.heap.TakesApart (.slot 16) elements ∧
            new.map Register.name = misdirected.newcomers elements)) ∧
      (b'.machine = misdirected.machine ∧ b'.heap.pinCount = misdirected.heap.pinCount ↔
        ∀ elements, misdirected.heap.TakesApart (.slot 16) elements →
          ∀ i ∈ misdirected.heap.instructions elements, ∀ name, i.register? = some name →
            (misdirected.machine.index? name).isSome) := by
  have idle : misdirection.Accounts [] := (Heap.Accounts.empty 32).of_eq rfl rfl
  have accounts : misdirected.Accounts .nil [] := accounts_build idle _
  have fails : failure? (install (.slot 16) misdirected) = some (.undefinedLabel "missing") := by
    decide +kernel
  have named : (left (install (.slot 16) misdirected)).machine.registers.toList.map
      Register.name = ["r"] := by
    decide +kernel
  cases ran : install (.slot 16) misdirected with
  | ok _ b =>
      rw [ran] at fails
      cases fails
  | error e b =>
      rw [ran] at fails named
      exact ⟨e, b, accounts, rfl, Option.some.inj fails, rfl, named,
        failed_install_leaves_registers accounts ran⟩

end Bench

end Lisplet
