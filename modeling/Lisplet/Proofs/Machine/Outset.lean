import Lisplet.Proofs.Machine.Confinement
import Lisplet.Proofs.Machine.Watching
import Mathlib.Data.List.Dedup
import Mathlib.Data.List.Perm.Basic

/-!
# Outset — a watched machine begins as a twin of the same machine unwatched

Watching a machine makes it have more registers. Its program can still be assembled, and into the
same listing: what is written in a program is not what is pinned. So both machines begin with the
same program and with nothing but nil in their registers.
-/

namespace Lisplet

open Heap Relation

/-- The setup with nothing watched. -/
def Setup.unwatched (setup : Setup) : Setup := { setup with monitored := [], trace := false }

/-- An instruction of the program writes the register of this name or reads it. -/
def Heap.Mentions (h : Heap) (program : Value) (name : String) : Prop :=
  ∃ elements, h.Spine program elements .nil ∧
    ∃ i ∈ h.instructions elements, i.register? = some name ∨ name ∈ i.reads

/-! ## Fresh machines -/

namespace Machine

variable {setup : Setup} {m m' : Machine}

/-- Nothing has been executed, and nothing been stored. -/
structure Fresh (setup : Setup) (m : Machine) : Prop where
  operations_eq : m.operations = setup.operations
  stackLimit_eq : m.stackLimit = setup.stackLimit
  flag_eq : m.flag = .nil
  stack_eq : m.stack = #[]
  stats_eq : m.stats = ⟨0, 0, 0⟩
  pc_eq : m.pc = 0
  executed_eq : m.executed = 0
  registers : ∀ register ∈ m.registers, register.payload = .value .nil

theorem Fresh.withRegisters (f : m.Fresh setup) {registers : Array Register}
    (empty : ∀ register ∈ registers, register.payload = .value .nil) :
    ({ m with registers } : Machine).Fresh setup :=
  { f with registers := empty }

theorem Fresh.declared (f : m.Fresh setup) {new : List Register}
    (isNew : ∀ register ∈ new, register.IsNew) :
    ({ m with registers := m.registers ++ new.toArray } : Machine).Fresh setup := by
  refine f.withRegisters fun register member => ?_
  rcases Array.mem_append.1 member with old | added
  · exact f.registers register old
  · exact (isNew register (List.mem_toArray.1 added)).payload_eq

/-- Seeing to a machine leaves it fresh if nothing is stored. -/
theorem Fresh.tended (f : m.Fresh setup) (tended : m.Tended (fun _ => False) m') :
    m'.Fresh setup := by
  cases tended with
  | unchanged => exact f
  | store index stored => exact stored.elim
  | declare isNew => exact f.declared isNew
  | monitor index =>
      exact f.withRegisters (Bench.forall_mem_modify index f.registers f.registers)
  | trace on => exact { f with }

theorem Fresh.get?_getD (f : m.Fresh setup) (name : String) :
    (m.get? name).getD (.value .nil) = .value .nil := by
  cases found : m.get? name with
  | none => rfl
  | some payload =>
      obtain ⟨register, member, -, rfl⟩ := exists_of_get? found
      exact f.registers register member

end Machine

namespace Bench

section Building

variable {setup : Setup} {h : Heap} {b b' : Bench}

theorem fresh_build (setup : Setup) (h : Heap) : (build setup h).machine.Fresh setup := by
  have built := tended_build setup h
  generalize (build setup h).machine = m at built
  induction built with
  | refl => exact ⟨rfl, rfl, rfl, rfl, rfl, rfl, rfl, nofun⟩
  | tail _ tended ih => exact ih.tended tended

theorem fresh_install {program : Value} (f : b.machine.Fresh setup)
    (installed : install program b = .ok () b') :
    b'.machine.Fresh setup ∧ b'.machine.state = .installed := by
  obtain ⟨listing, lines, -, -, rfl⟩ := install_eq_ok_iff.1 installed
  obtain ⟨new, -, isNew, declared⟩ :=
    machine_declareAll ⟨b.machine, (b.heap.pin program).2⟩ listing.registers
  dsimp only
  rw [declared]
  exact ⟨{ f.declared isNew with }, rfl⟩

end Building

end Bench

/-! ## Names of registers -/

/-- The names with those of `more` that are new behind them, each once and the first one first. -/
def appendNew (names more : List String) : List String :=
  names ++ (more.filter fun name => name ∉ names).eraseDups

theorem mem_appendNew_iff {names more : List String} {name : String} :
    name ∈ appendNew names more ↔ name ∈ names ∨ name ∈ more := by
  rw [appendNew, List.mem_append, List.mem_eraseDups, List.mem_filter, decide_eq_true_iff]
  by_cases there : name ∈ names
  · simp [there]
  · simp [there]

theorem nodup_eraseDups (names : List String) : names.eraseDups.Nodup := by
  cases names with
  | nil => exact List.nodup_nil
  | cons name names =>
      rw [List.eraseDups_cons, List.nodup_cons, List.mem_eraseDups]
      exact ⟨by simp, nodup_eraseDups (names.filter fun other => !other == name)⟩
termination_by names.length
decreasing_by exact Nat.lt_succ_of_le (List.length_filter_le _ _)

theorem nodup_appendNew {names : List String} (single : names.Nodup) (more : List String) :
    (appendNew names more).Nodup := by
  refine single.append (nodup_eraseDups _) fun name there member => ?_
  rw [List.mem_eraseDups, List.mem_filter, decide_eq_true_iff] at member
  exact member.2 there

namespace Bench

section Naming

variable {b b' : Bench} {h : Heap}

theorem names_declareAll (b : Bench) (names : List String) :
    (names.foldl declare b).machine.names = appendNew b.machine.names names := by
  obtain ⟨new, registers, named, -⟩ := exists_declared b names
  have unknown (name : String) :
      (b.machine.index? name).isNone = decide (name ∉ b.machine.names) := by
    rw [Bool.eq_iff_iff, decide_eq_true_iff, Machine.mem_names_iff, ← Option.not_isSome,
      Bool.not_eq_true', Bool.not_eq_true]
  simp only [unknown] at named
  rw [Machine.names, registers, List.map_append, named]
  rfl

/-- What is there already stays where it is when it is monitored. -/
theorem names_declareMonitored {names : List String}
    (known : ∀ name ∈ names, name ∈ b.machine.names) :
    (names.foldl declareMonitored b).machine.names = b.machine.names := by
  induction names generalizing b with
  | nil => rfl
  | cons name names ih =>
      have same : (b.declareMonitored name).machine.names = b.machine.names := by
        obtain ⟨index, found⟩ := Option.isSome_iff_exists.1
          (Machine.mem_names_iff.1 (known name List.mem_cons_self))
        unfold declareMonitored
        rw [declare_of_some found]
        dsimp only
        rw [found]
        dsimp only
        rw [machine_monitor]
        exact Machine.names_modify _ index fun _ => rfl
      rw [List.foldl_cons, ih, same]
      intro other member
      rw [same]
      exact known other (List.mem_cons_of_mem name member)

/-- A fresh machine has the registers that have been asked for, each once. -/
theorem names_build (setup : Setup) (h : Heap) :
    (build setup h).machine.names = appendNew [] (setup.registers ++ setup.monitored) := by
  -- Names that are monitored are declared with the others and then found again.
  have declared := names_declareAll (empty setup.stackLimit setup.operations h)
    (setup.registers ++ setup.monitored)
  refine (names_declareMonitored fun name member => ?_).trans declared
  rw [declared, mem_appendNew_iff]
  exact .inr (List.mem_append_right _ member)

/-- A program adds the registers that it writes. -/
theorem names_install {program : Value} {listing : Listing}
    (installed : install program b = .ok () b')
    (scanned : Listing.scan (b.heap.pin program).2 program = .ok listing) :
    b'.machine.names = appendNew b.machine.names listing.registers := by
  obtain ⟨listing', lines, scanned', -, rfl⟩ := install_eq_ok_iff.1 installed
  cases scanned.symm.trans scanned'
  exact names_declareAll _ _

end Naming

/-! ## The same program -/

section Assembling

variable {h h' : Heap} {program : Value} {listing : Listing}

/-- A program is taken apart alike wherever its objects are the same and are written the same. -/
theorem scanOnto_repinned (r : h.Repinned h') {elements : List Value} {listing' : Listing}
    (scanned : Listing.scanOnto h listing elements = .ok listing') :
    Listing.scanOnto h' listing elements = .ok listing' := by
  have same := r.object?_eq
  induction elements generalizing listing with
  | nil => exact scanned
  | cons element elements ih =>
      unfold Listing.scanOnto at scanned ⊢
      rw [Heap.symbolName?_congr same]
      cases isLabel : h.symbolName? element with
      | some name =>
          rw [isLabel] at scanned
          dsimp only at scanned ⊢
          split at scanned
          · cases scanned
          · next new =>
            rw [if_neg new]
            exact ih scanned
      | none =>
          rw [isLabel] at scanned
          dsimp only at scanned ⊢
          cases parsed : Instruction.parse h element with
          | error e =>
              rw [parsed] at scanned
              cases scanned
          | ok instruction =>
              rw [parsed] at scanned
              rw [(Heap.parse_eq_ok_iff same).2 parsed, r.write_eq]
              exact ih scanned

theorem scan_repinned (r : h.Repinned h') (scanned : Listing.scan h program = .ok listing) :
    Listing.scan h' program = .ok listing := by
  obtain ⟨elements, spine, scanned⟩ := Listing.scan_eq_ok_iff.1 scanned
  exact Listing.scan_eq_ok_iff.2 ⟨elements, spine.congr r.object?_eq, scanOnto_repinned r scanned⟩

/-- A program that can be assembled can be where there are more registers. -/
theorem exists_install_of_more {b b' b₁ : Bench} (r : b.heap.Repinned b'.heap)
    (operations : b'.machine.operations = b.machine.operations)
    (more : ∀ name ∈ b.machine.names, name ∈ b'.machine.names)
    (installed : install program b = .ok () b₁) : ∃ b₁', install program b' = .ok () b₁' := by
  obtain ⟨listing, lines, scanned, resolved, -⟩ := install_eq_ok_iff.1 installed
  have pinned : (b.heap.pin program).2.Repinned (b'.heap.pin program).2 :=
    r.both (.pin _ _) (.pin _ _)
  let declared (b : Bench) : Bench :=
    listing.registers.foldl declare ⟨b.machine, (b.heap.pin program).2⟩
  have covers := Listing.exists_resolve_iff.1 ⟨lines, resolved⟩
  -- The same lines are settled with other indices; it is enough that each name is known.
  have known (name : String) (there : ((declared b).machine.index? name).isSome) :
      ((declared b').machine.index? name).isSome := by
    refine index?_declareAll.2 ((index?_declareAll.1 there).imp_left fun old => ?_)
    exact Machine.mem_names_iff.1 (more name (Machine.mem_names_iff.2 old))
  have operation : ((declared b').naming listing.labels).operation? =
      ((declared b).naming listing.labels).operation? := by
    unfold naming
    rw [operations_declareAll, operations_declareAll, operations]
  obtain ⟨lines', resolved'⟩ : ∃ lines',
      listing.resolve ((declared b').naming listing.labels) = .ok lines' := by
    refine Listing.exists_resolve_iff.2 fun i member => ?_
    have covered := covers i member
    refine ⟨fun name same => known name (covered.register name same), ?_, covered.labels,
      fun name mentioned => known name (covered.reads name mentioned)⟩
    rw [operation]
    exact covered.operation
  exact ⟨_, install_eq_ok_iff.2 ⟨listing, lines', scan_repinned pinned scanned, resolved', rfl⟩⟩

theorem stands_of_install {b b₁ : Bench} {source : Value} {others : Ledger}
    (a : b.Accounts source others) (single : b.machine.names.Nodup) (clear : b.heap.MarksClear)
    (installed : install program b = .ok () b₁)
    (scanned : Listing.scan (b.heap.pin program).2 program = .ok listing) :
    b₁.Stands listing program others := by
  obtain ⟨listing', scanned', follows⟩ := follows_of_install installed
  cases scanned.symm.trans scanned'
  have accounts := accounts_install a program
  have repinned := repinned_install b program
  rw [installed] at accounts repinned
  refine ⟨follows, accounts, ?_, repinned.leads.marksClear clear⟩
  rw [names_install installed scanned]
  exact nodup_appendNew single _

theorem assemble_eq_ok_iff {setup : Setup} {machine : Machine} :
    assemble setup program h = .ok machine h' ↔
      install program (build setup h) = .ok () ⟨machine, h'⟩ := by
  unfold assemble
  cases install program (build setup h) with
  | ok _ b => exact ⟨fun same => by cases same; rfl, fun same => by cases same; rfl⟩
  | error e b => exact ⟨nofun, nofun⟩

/-- Machines that have been given a program as soon as they were set up. -/
theorem alike_of_fresh {setup : Setup} {b b' : Bench} (f : b.machine.Fresh setup.unwatched)
    (f' : b'.machine.Fresh setup) (state : b'.machine.state = b.machine.state)
    (more : ∀ name ∈ b.machine.names, name ∈ b'.machine.names) (r : b.heap.Repinned b'.heap) :
    (b.symbolic listing).Alike Repinned (b'.symbolic listing) where
  rest_eq := by
    have operations := f'.operations_eq.trans f.operations_eq.symm
    have stackLimit := f'.stackLimit_eq.trans f.stackLimit_eq.symm
    have flag := f'.flag_eq.trans f.flag_eq.symm
    have stats := f'.stats_eq.trans f.stats_eq.symm
    have pc := f'.pc_eq.trans f.pc_eq.symm
    have executed := f'.executed_eq.trans f.executed_eq.symm
    simp only [symbolic, state, operations, stackLimit, flag, stats, pc, executed]
  stack_eq := by simp only [symbolic, f.stack_eq, f'.stack_eq]
  payload_eq name := by rw [payload_symbolic, payload_symbolic, f.get?_getD, f'.get?_getD]
  known name there :=
    (Machine.cell?_isSome _ name).2 (more name ((Machine.cell?_isSome _ name).1 there))
  heaps := r

/--
A program that can be assembled on a machine that is not watched can be where it is watched, and the
machines begin as twins. The registers that are watched are there besides the others.
-/
theorem exists_twins_of_assemble {setup : Setup} {machine : Machine} {others : Ledger}
    (a : h.Accounts others) (clear : h.MarksClear)
    (assembled : assemble setup.unwatched program h = .ok machine h') :
    ∃ listing machine' k', assemble setup program h = .ok machine' k' ∧
      Twins listing program others ⟨machine, h'⟩ ⟨machine', k'⟩ ∧
      ∀ name, name ∈ machine'.names ↔ name ∈ machine.names ∨ name ∈ setup.monitored := by
  have installed := assemble_eq_ok_iff.1 assembled
  have single (setup : Setup) : (build setup h).machine.names.Nodup := by
    rw [names_build]
    exact nodup_appendNew .nil _
  have more : ∀ name ∈ (build setup.unwatched h).machine.names,
      name ∈ (build setup h).machine.names := by
    intro name member
    rw [names_build, mem_appendNew_iff, List.mem_append] at member ⊢
    exact member.imp_right fun declared => .inl (declared.resolve_right List.not_mem_nil)
  have built : (build setup.unwatched h).heap.Repinned (build setup h).heap :=
    (Repinned.composes.refl h).both (repinned_build _ h) (repinned_build setup h)
  have operations : (build setup h).machine.operations =
      (build setup.unwatched h).machine.operations :=
    (fresh_build setup h).operations_eq.trans (fresh_build setup.unwatched h).operations_eq.symm
  obtain ⟨⟨machine', k'⟩, installed'⟩ := exists_install_of_more built operations more installed
  -- Both programs are taken apart into the same listing.
  obtain ⟨listing, scanned, -⟩ := follows_of_install installed
  have scanned' := scan_repinned (built.both (.pin _ program) (.pin _ program)) scanned
  have cleared (setup : Setup) : (build setup h).heap.MarksClear :=
    (repinned_build setup h).leads.marksClear clear
  have accounts (setup : Setup) : (build setup h).Accounts .nil others := accounts_build a setup
  have stands := stands_of_install (accounts _) (single _) (cleared _) installed scanned
  have stands' := stands_of_install (accounts _) (single _) (cleared _) installed' scanned'
  have names := names_install installed scanned
  have names' := names_install installed' scanned'
  obtain ⟨fresh, state⟩ := fresh_install (fresh_build setup.unwatched h) installed
  obtain ⟨fresh', state'⟩ := fresh_install (fresh_build setup h) installed'
  have heaps := repinned_install (build setup.unwatched h) program
  have heaps' := repinned_install (build setup h) program
  rw [installed] at heaps
  rw [installed'] at heaps'
  refine ⟨listing, machine', k', assemble_eq_ok_iff.2 installed', ⟨?_, stands, stands'⟩, ?_⟩
  · refine alike_of_fresh fresh fresh' (state'.trans state.symm) (fun name member => ?_)
      (built.both heaps heaps')
    rw [names, mem_appendNew_iff] at member
    rw [names', mem_appendNew_iff]
    exact member.imp_left (more name)
  · intro name
    rw [names, names', mem_appendNew_iff, mem_appendNew_iff, names_build, names_build,
      mem_appendNew_iff, mem_appendNew_iff, List.mem_append, List.mem_append]
    simp [Setup.unwatched, or_right_comm]

/-- On a machine without registers a program has those that it mentions. -/
theorem mem_names_of_assemble {setup : Setup} {machine : Machine}
    (undeclared : setup.registers = [] ∧ setup.monitored = [])
    (assembled : assemble setup program h = .ok machine h') {name : String} :
    name ∈ machine.names ↔ h.Mentions program name := by
  have installed := assemble_eq_ok_iff.1 assembled
  obtain ⟨elements, w⟩ := wellFormed_of_install installed
  obtain ⟨new, registers, named, -⟩ := (w.assembled installed).registers
  have same := (repinned_build setup h).object?_eq
  have absent (name : String) : name ∉ (build setup h).machine.names := by
    rw [names_build, undeclared.1, undeclared.2]
    exact List.not_mem_nil
  have vacant (name : String) : (build setup h).machine.index? name = none := by
    have absent := absent name
    rwa [Machine.mem_names_iff, Option.not_isSome_iff_eq_none] at absent
  -- What is only read has to be written somewhere, or the program could not be assembled.
  have written : name ∈ machine.names ↔
      ∃ i ∈ h.instructions elements, i.register? = some name := by
    have old : name ∉ (build setup h).machine.registers.toList.map Register.name := absent name
    rw [Heap.instructions_congr same] at named
    rw [Machine.names, registers, List.map_append, List.mem_append, or_iff_right old, named,
      List.mem_eraseDups, List.mem_filter, List.mem_filterMap, vacant]
    exact and_iff_left rfl
  rw [written]
  constructor
  · rintro ⟨i, member, writes⟩
    exact ⟨elements, w.list.congr fun v => (same v).symm, i, member, .inl writes⟩
  · rintro ⟨elements', spine, i, member, writes | reads⟩
    · obtain ⟨rfl, -⟩ := w.list.unique (spine.congr same)
      exact ⟨i, member, writes⟩
    · obtain ⟨rfl, -⟩ := w.list.unique (spine.congr same)
      have mentioned := w.registers i ((Heap.instructions_congr same).symm ▸ member) name reads
      rw [vacant, Heap.instructions_congr same] at mentioned
      rcases mentioned with there | written
      · cases there
      · exact written

end Assembling

end Bench

end Lisplet
