import Lisplet.Proofs.Machine.Executing
import Lisplet.Proofs.Machine.Refinement
import Lisplet.Proofs.Machine.Refusal
import Lisplet.Proofs.Machine.Workshop

/-!
# Confinement — a machine stays within its program

Labels are values of a kind: they are copied from register to register, saved, restored and jumped
to. So the program counter stays within the program only if every label that is held anywhere does.
Assembly sees to the labels and registers in the code (`Code.Fits`). What a machine is like then is
`Machine.Confined`, which instructions preserve, and so does a host that stores no labels but those
of the program.
-/

namespace Lisplet

/-! ## Code that fits -/

def Fetch.Fits (registers lines : Nat) : Fetch → Prop
  | .const _ => True
  | .label target => target ≤ lines
  | .register index => index < registers

/-- All that the code refers to exists, with so many registers and so many lines. -/
def Code.Fits (registers lines : Nat) : Code → Prop
  | .assign register source => register < registers ∧ source.Fits registers lines
  | .assignCall register c =>
    register < registers ∧ ∀ source ∈ c.operands, source.Fits registers lines
  | .test c | .perform c => ∀ source ∈ c.operands, source.Fits registers lines
  | .branch target | .jump target => target ≤ lines
  | .jumpRegister register | .restore register => register < registers
  | .save source => source.Fits registers lines

section Fitting

variable {registers registers' lines : Nat}

theorem Fetch.Fits.mono (le : registers ≤ registers') {source : Fetch}
    (fits : source.Fits registers lines) : source.Fits registers' lines := by
  cases source with
  | const datum => trivial
  | label target => exact fits
  | register index => exact Nat.lt_of_lt_of_le fits le

theorem Code.Fits.mono (le : registers ≤ registers') {code : Code}
    (fits : code.Fits registers lines) : code.Fits registers' lines := by
  cases code with
  | assign register source => exact ⟨Nat.lt_of_lt_of_le fits.1 le, fits.2.mono le⟩
  | assignCall register c =>
      exact ⟨Nat.lt_of_lt_of_le fits.1 le, fun source member => (fits.2 source member).mono le⟩
  | test c | perform c => exact fun source member => (fits source member).mono le
  | branch target | jump target => exact fits
  | jumpRegister register | restore register => exact Nat.lt_of_lt_of_le fits le
  | save source => exact Fetch.Fits.mono le fits

end Fitting

namespace Naming

variable {names : Naming} {registers lines : Nat}

/-- Every register that a name refers to is one of so many, and every label one of so many lines. -/
structure Bounded (names : Naming) (registers lines : Nat) : Prop where
  register_lt : ∀ name index, names.register? name = some index → index < registers
  label_le : ∀ name index, names.label? name = some index → index ≤ lines

namespace Bounded

variable (bounded : names.Bounded registers lines)
include bounded

theorem register {name : String} {index : Nat} (settled : names.register name = .ok index) :
    index < registers :=
  bounded.register_lt name index (register_eq_ok_iff.1 settled)

theorem label {name : String} {index : Nat} (settled : names.label name = .ok index) :
    index ≤ lines :=
  bounded.label_le name index (label_eq_ok_iff.1 settled)

theorem fetch {operand : Operand} {source : Fetch} (settled : names.fetch operand = .ok source) :
    source.Fits registers lines := by
  cases operand with
  | const datum =>
      cases settled
      trivial
  | label name =>
      obtain ⟨target, place, rfl⟩ := map_eq_ok_iff.1 settled
      exact bounded.label place
  | reg name =>
      obtain ⟨index, place, rfl⟩ := map_eq_ok_iff.1 settled
      exact bounded.register place

theorem call {name : String} {operands : List Operand} {c : Call}
    (settled : names.call name operands = .ok c) :
    ∀ source ∈ c.operands, source.Fits registers lines := by
  obtain ⟨-, -, sources⟩ := call_eq_ok_iff.1 settled
  intro source member
  obtain ⟨operand, -, fetched⟩ := exists_of_forall₂_right sources member
  exact bounded.fetch fetched

theorem resolve {instruction : Instruction} {code : Code}
    (settled : names.resolve instruction = .ok code) : code.Fits registers lines := by
  cases instruction with
  | assign register source =>
      cases source with
      | operand operand =>
          obtain ⟨index, place, rest⟩ := bind_eq_ok_iff.1 settled
          obtain ⟨source, fetched, same⟩ := bind_eq_ok_iff.1 rest
          cases same
          exact ⟨bounded.register place, bounded.fetch fetched⟩
      | op name operands =>
          obtain ⟨index, place, rest⟩ := bind_eq_ok_iff.1 settled
          obtain ⟨c, called, same⟩ := bind_eq_ok_iff.1 rest
          cases same
          exact ⟨bounded.register place, bounded.call called⟩
  | test name operands | perform name operands =>
      obtain ⟨c, called, rfl⟩ := map_eq_ok_iff.1 settled
      exact bounded.call called
  | branch label =>
      obtain ⟨target, place, rfl⟩ := map_eq_ok_iff.1 settled
      exact bounded.label place
  | goto location =>
      cases location with
      | label name =>
          obtain ⟨target, place, rfl⟩ := map_eq_ok_iff.1 settled
          exact bounded.label place
      | reg name =>
          obtain ⟨index, place, rfl⟩ := map_eq_ok_iff.1 settled
          exact bounded.register place
  | save location =>
      cases location with
      | label name | reg name =>
          obtain ⟨source, fetched, rfl⟩ := map_eq_ok_iff.1 settled
          exact bounded.fetch fetched
  | restore register =>
      obtain ⟨index, place, rfl⟩ := map_eq_ok_iff.1 settled
      exact bounded.register place

end Bounded

end Naming

/-- A label has no more instructions in front of it than there are. -/
theorem Listing.label_le_of_scanOnto {h : Heap} {elements : List Value} {listing listing' : Listing}
    (scanned : scanOnto h listing elements = .ok listing')
    (le : ∀ entry ∈ listing.labels, entry.2 ≤ listing.lines.size) :
    ∀ entry ∈ listing'.labels, entry.2 ≤ listing'.lines.size := by
  induction elements generalizing listing with
  | nil =>
      cases scanned
      exact le
  | cons element elements ih =>
      unfold scanOnto at scanned
      split at scanned
      · split at scanned
        · cases scanned
        · exact ih scanned (List.forall_mem_cons.2 ⟨Nat.le_refl _, le⟩)
      · split at scanned
        · cases scanned
        · refine ih scanned fun entry member => ?_
          rw [Array.size_push]
          exact Nat.le_succ_of_le (le entry member)

/-! ## Confined machines -/

/-- If it is a label, it is at most so many. -/
def Payload.Within (lines : Nat) : Payload → Prop
  | .value _ => True
  | .label index => index ≤ lines

theorem Payload.Within.mono {lines lines' : Nat} (le : lines ≤ lines') {payload : Payload}
    (within : payload.Within lines) : payload.Within lines' := by
  cases payload with
  | value v => trivial
  | label index => exact Nat.le_trans within le

/-- Every write to a register noted. Without such a register nothing changes. -/
def Machine.monitored (m : Machine) (index : Nat) : Machine :=
  { m with
    registers := m.registers.modify index fun register => { register with monitored := true } }

/-- All that the code of the machine refers to exists. -/
def Machine.Wired (m : Machine) : Prop :=
  ∀ program, m.program = some program → ∀ line ∈ program.lines,
    line.code.Fits m.registers.size m.lineCount

/-- Nothing that the machine has refers to what it has not. -/
structure Machine.Confined (m : Machine) : Prop where
  wired : m.Wired
  labels : ∀ name index, m.label? name = some index → index ≤ m.lineCount
  pc_le : m.pc ≤ m.lineCount
  registers : ∀ register ∈ m.registers, register.payload.Within m.lineCount
  stack : ∀ saved ∈ m.stack, saved.payload.Within m.lineCount
  halted : m.state = .halted → m.pc = m.lineCount

namespace Machine

variable {m m' : Machine}

/-- The program is the same, and there are no fewer registers. -/
structure Grows (m m' : Machine) : Prop where
  program_eq : m'.program = m.program
  size_le : m.registers.size ≤ m'.registers.size

theorem Grows.refl (m : Machine) : m.Grows m := ⟨rfl, Nat.le_refl _⟩

theorem Grows.trans {m'' : Machine} (g : m.Grows m') (g' : m'.Grows m'') : m.Grows m'' :=
  ⟨g'.program_eq.trans g.program_eq, Nat.le_trans g.size_le g'.size_le⟩

theorem Wired.grows (w : m.Wired) (g : m.Grows m') : m'.Wired := by
  have lineCount : m'.lineCount = m.lineCount := by
    unfold Machine.lineCount
    rw [g.program_eq]
  intro program installed line member
  rw [lineCount]
  exact (w program (g.program_eq.symm.trans installed) line member).mono g.size_le

theorem lineCount_of_none (none : m.program = none) : m.lineCount = 0 := by
  rw [lineCount, none]

theorem pc_lt_of_currentLine? {line : Line} (found : Bench.currentLine? m = some line) :
    m.pc < m.lineCount ∧ ∃ program, m.program = some program ∧ line ∈ program.lines := by
  obtain ⟨program, installed, there⟩ := Option.bind_eq_some_iff.1 found
  rw [lineCount, installed]
  exact ⟨(Array.getElem?_eq_some_iff.1 there).1, program, rfl, Array.mem_of_getElem? there⟩

namespace Confined

variable (c : m.Confined)
include c

theorem within_read (index : Nat) : (m.read index).Within m.lineCount := by
  unfold read
  split
  · next register there => exact c.registers register (Array.mem_of_getElem? there)
  · trivial

theorem within_fetch {source : Fetch} (fits : source.Fits m.registers.size m.lineCount) :
    (m.fetch source).Within m.lineCount := by
  cases source with
  | const datum => trivial
  | label target => exact fits
  | register index => exact c.within_read index

/-- Registers may be replaced and more may come, as long as what they hold is within the program. -/
theorem withRegisters {registers : Array Register} (size : m.registers.size ≤ registers.size)
    (within : ∀ register ∈ registers, register.payload.Within m.lineCount) :
    ({ m with registers } : Machine).Confined where
  wired := c.wired.grows ⟨rfl, size⟩
  labels := c.labels
  pc_le := c.pc_le
  registers := within
  stack := c.stack
  halted := c.halted

/-- So may be one register. -/
theorem modify (index : Nat) {change : Register → Register}
    (within : ∀ register ∈ m.registers, (change register).payload.Within m.lineCount) :
    ({ m with registers := m.registers.modify index change } : Machine).Confined :=
  c.withRegisters (Nat.le_of_eq Array.size_modify.symm)
    (Bench.forall_mem_modify index c.registers within)

theorem store (index : Nat) {payload : Payload} (within : payload.Within m.lineCount) :
    (m.store index payload).Confined := c.modify index fun _ _ => within

theorem monitored (index : Nat) : (m.monitored index).Confined := c.modify index c.registers

theorem declared {new : List Register} (isNew : ∀ register ∈ new, register.IsNew) :
    ({ m with registers := m.registers ++ new.toArray } : Machine).Confined := by
  refine c.withRegisters (by simp) fun register member => ?_
  rcases Array.mem_append.1 member with old | added
  · exact c.registers register old
  · rw [(isNew register (List.mem_toArray.1 added)).payload_eq]
    trivial

theorem pushed {saved : Saved} (within : saved.payload.Within m.lineCount) :
    (m.pushed saved).Confined where
  wired := c.wired
  labels := c.labels
  pc_le := c.pc_le
  registers := c.registers
  stack entry member := by
    rcases Array.mem_push.1 member with old | rfl
    · exact c.stack entry old
    · exact within
  halted := c.halted

theorem popped {stack : Array Saved} {saved : Saved} (whole : m.stack = stack.push saved) :
    (m.popped stack).Confined where
  wired := c.wired
  labels := c.labels
  pc_le := c.pc_le
  registers := c.registers
  stack entry member := c.stack entry (whole ▸ Array.mem_push_of_mem saved member)
  halted := c.halted

theorem movedTo {pc : Nat} (le : pc ≤ m.lineCount) (goesOn : m.state ≠ .halted) :
    (m.movedTo pc).Confined where
  wired := c.wired
  labels := c.labels
  pc_le := le
  registers := c.registers
  stack := c.stack
  halted halted := absurd halted goesOn

/-- Where a machine goes from a line, and what it stores there, is within the program. -/
theorem executes {line : Line} (found : Bench.currentLine? m = some line)
    (executes : m.Executes line.code m') : m'.Confined := by
  obtain ⟨inside, program, installed, member⟩ := pc_lt_of_currentLine? found
  have fits := c.wired program installed line member
  have goesOn : m.state ≠ .halted := fun halted => Nat.ne_of_lt inside (c.halted halted)
  -- Targets in the code are within the program; a label from a register is by the invariant.
  generalize line.code = code at executes fits
  cases executes with
  | assign register source => exact (c.store register (c.within_fetch fits.2)).movedTo inside goesOn
  | assignCall register call v =>
      have stored : (m.store register (.value v)).Confined := c.store register trivial
      exact stored.movedTo inside goesOn
  | test call flag =>
      have tested : ({ m with flag } : Machine).Confined :=
        ⟨c.wired, c.labels, c.pc_le, c.registers, c.stack, c.halted⟩
      exact tested.movedTo inside goesOn
  | passBranch target _ => exact c.movedTo inside goesOn
  | takeBranch target _ => exact c.movedTo fits goesOn
  | jump target => exact c.movedTo fits goesOn
  | @jumpRegister register target held =>
      have within := c.within_read register
      rw [held] at within
      exact c.movedTo within goesOn
  | perform call => exact c.movedTo inside goesOn
  | save source pin room => exact (c.pushed (c.within_fetch fits)).movedTo inside goesOn
  | @restore register stack saved whole =>
      have top : saved.payload.Within m.lineCount := c.stack saved (whole ▸ Array.mem_push_self)
      exact ((c.popped whole).store register top).movedTo inside goesOn

end Confined

theorem invariant_confined : Machine.Invariant Confined where
  started _ c := by
    exact ⟨c.wired, c.labels, Nat.zero_le _, c.registers, nofun, nofun⟩
  executes c found executes := by
    have c' := c.executes found executes
    exact ⟨c'.wired, c'.labels, c'.pc_le, c'.registers, c'.stack, c'.halted⟩
  settled {m} c := by
    refine ⟨c.wired, c.labels, c.pc_le, c.registers, c.stack, fun halted => ?_⟩
    by_cases atEnd : m.lineCount ≤ m.pc
    · exact Nat.le_antisymm c.pc_le atEnd
    · exact c.halted ((if_neg atEnd).symm.trans halted)

theorem Executes.grows {code : Code} (executes : m.Executes code m') : m.Grows m' := by
  have stored (m : Machine) (index : Nat) (payload : Payload) :
      m.registers.size ≤ (m.store index payload).registers.size :=
    Nat.le_of_eq Array.size_modify.symm
  cases executes with
  | assign register source => exact ⟨rfl, stored m register _⟩
  | assignCall register call v => exact ⟨rfl, stored m register _⟩
  | restore register _ => exact ⟨rfl, stored (m.popped _) register _⟩
  | _ => exact ⟨rfl, Nat.le_refl _⟩

theorem Executes.state_eq {code : Code} (executes : m.Executes code m') : m'.state = m.state := by
  cases executes <;> rfl

theorem invariant_grows (m : Machine) : Machine.Invariant m.Grows where
  started _ g := ⟨g.program_eq, g.size_le⟩
  executes g _ executes := by
    have g' := g.trans executes.grows
    exact ⟨g'.program_eq, g'.size_le⟩
  settled g := ⟨g.program_eq, g.size_le⟩

end Machine

/-! ## Machines that are seen to -/

/--
What may be done to a machine that is left where it is in its program. What is stored in its
registers satisfies `P`.
-/
inductive Machine.Tended (P : Payload → Prop) (m : Machine) : Machine → Prop
  | unchanged : Tended P m m
  | store (index : Nat) {payload : Payload} : P payload → Tended P m (m.store index payload)
  | declare {new : List Register} : (∀ register ∈ new, register.IsNew) →
      Tended P m { m with registers := m.registers ++ new.toArray }
  | monitor (index : Nat) : Tended P m (m.monitored index)
  | trace (on : Bool) : Tended P m { m with trace := on }

/-- A payload that is a label of the machine's program, if it is a label. -/
def Machine.Knows (m : Machine) (payload : Payload) : Prop :=
  ∀ index, payload = .label index → ∃ name, m.label? name = some index

namespace Machine

variable {P : Payload → Prop} {m m' : Machine}

theorem Tended.grows (tended : m.Tended P m') : m.Grows m' := by
  cases tended with
  | store index _ | monitor index => exact ⟨rfl, Nat.le_of_eq Array.size_modify.symm⟩
  | declare _ => exact ⟨rfl, by simp⟩
  | _ => exact ⟨rfl, Nat.le_refl _⟩

theorem Tended.imp {Q : Payload → Prop} (tended : m.Tended P m')
    (implies : ∀ payload, P payload → Q payload) : m.Tended Q m' := by
  cases tended with
  | unchanged => exact .unchanged
  | store index stored => exact .store index (implies _ stored)
  | declare isNew => exact .declare isNew
  | monitor index => exact .monitor index
  | trace on => exact .trace on

theorem Confined.within_of_knows (c : m.Confined) {payload : Payload} (knows : m.Knows payload) :
    payload.Within m.lineCount := by
  cases payload with
  | value v => trivial
  | label index =>
      obtain ⟨name, found⟩ := knows index rfl
      exact c.labels name index found

theorem Confined.tended (c : m.Confined) (tended : m.Tended m.Knows m') : m'.Confined := by
  cases tended with
  | unchanged => exact c
  | store index knows => exact c.store index (c.within_of_knows knows)
  | declare isNew => exact c.declared isNew
  | monitor index => exact c.monitored index
  | trace on => exact ⟨c.wired, c.labels, c.pc_le, c.registers, c.stack, c.halted⟩

end Machine

namespace Bench

/-! ## Fresh machines and new programs -/

section Installing

open Relation

variable {b b' : Bench}

theorem machine_monitor (b : Bench) (index : Nat) :
    (b.monitor index).machine = b.machine.monitored index := by
  unfold Machine.monitored
  cases there : b.machine.registers[index]? with
  | none => rw [monitor_of_none there, modify_of_none there]
  | some register => rw [monitor_eq there, modify_of_some there]

/-- A fresh machine comes of an empty one, and nothing is stored in its registers meanwhile. -/
theorem tended_build (setup : Setup) (h : Heap) :
    ReflTransGen (Machine.Tended fun _ => False)
      (empty setup.stackLimit setup.operations h).machine (build setup h).machine := by
  have declared (b : Bench) (names : List String) :
      b.machine.Tended (fun _ => False) (names.foldl declare b).machine := by
    obtain ⟨new, -, isNew, same⟩ := machine_declareAll b names
    exact same ▸ .declare isNew
  have monitored (names : List String) (b : Bench) :
      ReflTransGen (Machine.Tended fun _ => False) b.machine
        (names.foldl declareMonitored b).machine := by
    induction names generalizing b with
    | nil => exact .refl
    | cons name names ih =>
        refine .trans ?_ (ih (b.declareMonitored name))
        have first := ReflTransGen.single (declared b [name])
        unfold declareMonitored
        dsimp only
        split
        · next index _ =>
          exact first.tail (machine_monitor (b.declare name) index ▸ .monitor index)
        · exact first
  have first := declared (empty setup.stackLimit setup.operations h)
    (setup.registers ++ setup.monitored)
  exact ((ReflTransGen.single first).trans (monitored setup.monitored _)).tail (.trace setup.trace)

theorem confined_build (setup : Setup) (h : Heap) :
    (build setup h).machine.Confined ∧ (build setup h).machine.program = none := by
  have empty : (empty setup.stackLimit setup.operations h).machine.Confined :=
    ⟨nofun, nofun, Nat.le_refl 0, nofun, nofun, nofun⟩
  have built := tended_build setup h
  generalize (build setup h).machine = m at built
  induction built with
  | refl => exact ⟨empty, rfl⟩
  | tail _ tended ih =>
      exact ⟨ih.1.tended (tended.imp nofun), tended.grows.program_eq.trans ih.2⟩

/-- All that the code of a new program refers to exists, and so do its labels. -/
theorem wired_install {program : Value} (installed : install program b = .ok () b') :
    b'.machine.Wired ∧
      ∀ name index, b'.machine.label? name = some index → index ≤ b'.machine.lineCount := by
  obtain ⟨listing, lines, scanned, -, result⟩ := install_eq_ok_iff.1 installed
  obtain ⟨elements, -, taken⟩ := Listing.scan_eq_ok_iff.1 scanned
  obtain ⟨listing', scanned', follows⟩ := follows_of_install installed
  cases scanned.symm.trans scanned'
  have label_le (name : String) (index : Nat) (found : listing.labels.lookup name = some index) :
      index ≤ b'.machine.lineCount := by
    obtain ⟨before, after, split, -⟩ := List.lookup_eq_some_iff.1 found
    have member : (name, index) ∈ listing.labels := split ▸ List.mem_append_cons_self
    exact follows.lineCount_eq ▸ Listing.label_le_of_scanOnto taken nofun _ member
  have bounded : (b'.naming listing.labels).Bounded b'.machine.registers.size
      b'.machine.lineCount := by
    refine ⟨fun name index found => ?_, label_le⟩
    obtain ⟨register, there, -⟩ := Machine.register_of_index? found
    exact (Array.getElem?_eq_some_iff.1 there).1
  have labels (name : String) : b'.machine.label? name = listing.labels.lookup name := by
    rw [result]
    rfl
  refine ⟨fun p has line member => ?_, fun name index found =>
    label_le name index ((labels name).symm.trans found)⟩
  obtain ⟨p', has', settled⟩ := follows
  cases has.symm.trans has'
  obtain ⟨entry, -, -, resolved⟩ := exists_of_forall₂_right settled (Array.mem_toList_iff.2 member)
  exact bounded.resolve resolved

/-- A machine that had no program, and so no labels, is confined to the one that it is given. -/
theorem confined_install (c : b.machine.Confined) (vacant : b.machine.program = none)
    {program : Value} (installed : install program b = .ok () b') : b'.machine.Confined := by
  obtain ⟨wired, labels⟩ := wired_install installed
  obtain ⟨listing, lines, -, -, result⟩ := install_eq_ok_iff.1 installed
  obtain ⟨new, -, isNew, declared⟩ :=
    machine_declareAll ⟨b.machine, (b.heap.pin program).2⟩ listing.registers
  -- Without a program there are no labels at all, so those of the new one are the only ones.
  have old := c.declared isNew
  have noLines := Machine.lineCount_of_none vacant
  subst result
  refine ⟨wired, labels, ?_, fun register member => ?_, fun saved member => ?_, nofun⟩
  · show (listing.registers.foldl declare _).machine.pc ≤ _
    rw [declared]
    exact Nat.le_trans (noLines ▸ c.pc_le) (Nat.zero_le _)
  · have member : register ∈ (listing.registers.foldl declare _).machine.registers := member
    rw [declared] at member
    exact (noLines ▸ old.registers register member).mono (Nat.zero_le _)
  · have member : saved ∈ (listing.registers.foldl declare _).machine.stack := member
    rw [declared] at member
    exact (noLines ▸ c.stack saved member).mono (Nat.zero_le _)

end Installing

end Bench

/-! ## What may happen to a machine -/

/-- A request that leaves a machine where it is in its program. -/
def Request.Tends (P : Payload → Prop) (b : Bench) : Request → Prop
  | .declare _ | .monitor _ | .trace _ => True
  | .setRegister _ payload => P payload
  | .install program => ∃ e b', Bench.install program b = .error e b'
  | .start _ | .step | .run => False

namespace Bench

/-- The machine after a request, whether it fails or not. -/
def asked (b : Bench) (request : Request) : Bench :=
  let ⟨tenant, heap⟩ := Tenant.ask ⟨b.machine, .nil⟩ request b.heap
  ⟨tenant.machine, heap⟩

theorem tended_of_tends {P : Payload → Prop} {b : Bench} {request : Request}
    (tends : request.Tends P b) : b.machine.Tended P (b.asked request).machine := by
  cases request with
  | declare name =>
      obtain ⟨new, -, isNew, same⟩ := machine_declareAll b [name]
      exact same ▸ .declare isNew
  | setRegister name payload =>
      show b.machine.Tended P (left (setRegister name payload b)).machine
      unfold setRegister
      rw [get_bind_apply]
      cases b.machine.index? name with
      | none => exact .unchanged
      | some index => exact machine_write b index payload ▸ .store index tends
  | monitor name =>
      show b.machine.Tended P (left (monitorRegister name b)).machine
      unfold monitorRegister
      rw [get_bind_apply]
      cases b.machine.index? name with
      | none => exact .unchanged
      | some index => exact machine_monitor b index ▸ .monitor index
  | trace on => exact .trace on
  | install program =>
      obtain ⟨e, b', refused⟩ := tends
      obtain ⟨new, gains, -⟩ := gains_of_install refused
      have left : (b.asked (.install program)).machine = b'.machine := by
        unfold asked Tenant.ask
        dsimp only
        rw [refused]
        rfl
      rw [left, gains.machine_eq]
      exact .declare gains.isNew
  | start trace | step | run => exact tends.elim

/--
What may happen to a machine with its program, where `stored` says what may be stored in its
registers from outside. Others may do with the heap what they like.
-/
inductive Moves (stored : Machine → Payload → Prop) (b : Bench) : Bench → Prop
  | tend (request : Request) : request.Tends (stored b.machine) b → Moves stored b (b.asked request)
  | start (trace : Bool) : Moves stored b (left (start trace b))
  | step : Moves stored b (left (step b))
  | run : Moves stored b (left (run b))
  | elsewhere (h : Heap) : Moves stored b ⟨b.machine, h⟩

section Moving

open Relation

variable {stored : Machine → Payload → Prop} {b b' : Bench}

theorem Moves.grows (moves : b.Moves stored b') : b.machine.Grows b'.machine := by
  have invariant := Machine.invariant_grows b.machine
  have grows := Machine.Grows.refl b.machine
  cases moves with
  | tend request tends => exact (tended_of_tends tends).grows
  | start trace => exact invariant.start grows trace
  | step => exact invariant.step grows
  | run => exact invariant.run grows
  | elsewhere h => exact grows

theorem Moves.confined (moves : b.Moves Machine.Knows b') (c : b.machine.Confined) :
    b'.machine.Confined := by
  have invariant := Machine.invariant_confined
  cases moves with
  | tend request tends => exact c.tended (tended_of_tends tends)
  | start trace => exact invariant.start c trace
  | step => exact invariant.step c
  | run => exact invariant.run c
  | elsewhere h => exact c

theorem grows_of_moves (reaches : ReflTransGen (Moves stored) b b') :
    b.machine.Grows b'.machine := by
  induction reaches with
  | refl => exact .refl _
  | tail _ moves ih => exact ih.trans moves.grows

theorem confined_of_moves (reaches : ReflTransGen (Moves Machine.Knows) b b')
    (c : b.machine.Confined) : b'.machine.Confined := by
  induction reaches with
  | refl => exact c
  | tail _ moves ih => exact moves.confined ih

/-- A step that succeeds leaves a running machine, or one that has come to its end. -/
theorem settled_of_step {state : MachineState} (ran : step b = .ok state b') :
    state = b'.machine.state ∧
      (b' = b ∧ b.machine.state = .halted ∨
        ∃ m : Machine, m.state = .running ∧ b'.machine = m.settled) := by
  have runs {b : Bench} (running : b.machine.state = .running) (ran : step b = .ok state b') :
      state = b'.machine.state ∧ ∃ m : Machine, m.state = .running ∧ b'.machine = m.settled := by
    rcases step_cases running with ⟨e, b₁, failed, -⟩ |
      ⟨line, m, b₁, -, executes, done, same⟩ | ⟨-, done⟩
    · cases failed.symm.trans ran
    · cases done.symm.trans ran
      exact ⟨rfl, m.counted, executes.state_eq.trans running, same⟩
    · cases done.symm.trans ran
      exact ⟨rfl, b.machine, running, machine_haltAtEnd b⟩
  cases before : b.machine.state with
  | idle => cases (step_of_idle before).symm.trans ran
  | halted =>
      cases (step_of_halted before).symm.trans ran
      exact ⟨before.symm, .inl ⟨rfl, rfl⟩⟩
  | running => exact (runs before ran).imp_right .inr
  | installed =>
      rw [step_eq_of_installed before] at ran
      rcases start_cases b b.machine.trace with ⟨_, started⟩ | ⟨_, started⟩
      · rw [started] at ran
        cases ran
      · rw [started] at ran
        exact (runs rfl ran).imp_right .inr

theorem state_of_step (c : b.machine.Confined) {state : MachineState}
    (ran : step b = .ok state b') :
    state = b'.machine.state ∧
      (state = .halted ∧ b'.machine.pc = b'.machine.lineCount ∨
        state = .running ∧ b'.machine.pc < b'.machine.lineCount) := by
  have c' : b'.machine.Confined := by
    have kept := Machine.invariant_confined.step c
    rw [ran] at kept
    exact kept
  obtain ⟨rfl, ⟨rfl, halted⟩ | ⟨m, running, same⟩⟩ := settled_of_step ran
  · exact ⟨rfl, .inl ⟨halted, c.halted halted⟩⟩
  · refine ⟨rfl, ?_⟩
    rw [same] at c' ⊢
    by_cases atEnd : m.lineCount ≤ m.pc
    · exact .inl ⟨if_pos atEnd, Nat.le_antisymm c'.pc_le atEnd⟩
    · exact .inr ⟨(if_neg atEnd).trans running, Nat.lt_of_not_le atEnd⟩

/--
A machine never leaves its program. A fresh machine is given a program; before and after, anything
may happen to it, but no label is stored in its registers from outside that is not one of the
program. Then the program counter and every label in a register or on the stack are at most the
number of instructions, and all that the code refers to exists. A step that succeeds halts the
machine just when it comes to the end of the program, and a halted machine stays as it is.
-/
theorem never_leaves_program {setup : Setup} {h : Heap} {b₀ b₁ : Bench} {program : Value}
    (fresh : ReflTransGen (Moves Machine.Knows) (build setup h) b₀)
    (installed : install program b₀ = .ok () b₁)
    (reaches : ReflTransGen (Moves Machine.Knows) b₁ b) :
    ∃ p, b₁.machine.program = some p ∧ b.machine.program = some p ∧
      b.machine.pc ≤ p.lines.size ∧
      (∀ register ∈ b.machine.registers, register.payload.Within p.lines.size) ∧
      (∀ saved ∈ b.machine.stack, saved.payload.Within p.lines.size) ∧
      (∀ line ∈ p.lines, line.code.Fits b.machine.registers.size p.lines.size) ∧
      (∀ state b', step b = .ok state b' →
        state = b'.machine.state ∧
          (state = .halted ∧ b'.machine.pc = p.lines.size ∨
            state = .running ∧ b'.machine.pc < p.lines.size)) ∧
      (b.machine.state = .halted → step b = .ok .halted b) := by
  obtain ⟨built, vacant⟩ := confined_build setup h
  have given := confined_install (confined_of_moves fresh built)
    ((grows_of_moves fresh).program_eq.trans vacant) installed
  have c := confined_of_moves reaches given
  obtain ⟨listing, -, p, has, -⟩ := follows_of_install installed
  have kept : b.machine.program = some p := (grows_of_moves reaches).program_eq.trans has
  have lineCount {m : Machine} (has : m.program = some p) : m.lineCount = p.lines.size := by
    rw [Machine.lineCount, has]
  have fits := c.wired p kept
  have stays := c.pc_le
  have registers := c.registers
  have stack := c.stack
  rw [lineCount kept] at fits stays registers stack
  refine ⟨p, has, kept, stays, registers, stack, fits, fun state b' ran => ?_, step_of_halted⟩
  have kept' : b'.machine.program = some p := by
    have grows : b.machine.Grows (left (step b)).machine :=
      @Moves.grows Machine.Knows b _ .step
    rw [ran] at grows
    exact grows.program_eq.trans kept
  have outcome := state_of_step c ran
  rwa [lineCount kept'] at outcome

/-- A heap with the list `(again (save x) (goto (label again)))` in slot 13. -/
def circling : Heap :=
  { Heap.empty 16 with
    slots := #[
      .symbol "again", .symbol "save", .symbol "x", .symbol "goto", .symbol "label",
      .pair (.slot 2) .nil, .pair (.slot 1) (.slot 5),
      .pair (.slot 0) .nil, .pair (.slot 4) (.slot 7),
      .pair (.slot 8) .nil, .pair (.slot 3) (.slot 9),
      .pair (.slot 10) .nil, .pair (.slot 6) (.slot 11), .pair (.slot 0) (.slot 12)].map fun o =>
        ⟨some o, false⟩ }

/-- A machine whose stack has room for one entry, so that the program stops in its third step. -/
def circler : Bench := build { Setup.standard with stackLimit := 1, operations := .empty } circling

/-- The circling program, on a machine with one register more, which gets a label from outside. -/
theorem never_leaves_program_circler :
    ∃ b₀ b₁ b p, ReflTransGen (Moves Machine.Knows) circler b₀ ∧ install (.slot 13) b₀ = .ok () b₁ ∧
      ReflTransGen (Moves Machine.Knows) b₁ b ∧ b.machine.get? "y" = some (.label 0) ∧
      b₁.machine.program = some p ∧ b.machine.program = some p ∧
      b.machine.pc ≤ p.lines.size ∧
      (∀ register ∈ b.machine.registers, register.payload.Within p.lines.size) ∧
      (∀ saved ∈ b.machine.stack, saved.payload.Within p.lines.size) ∧
      (∀ line ∈ p.lines, line.code.Fits b.machine.registers.size p.lines.size) ∧
      (∀ state b', step b = .ok state b' →
        state = b'.machine.state ∧
          (state = .halted ∧ b'.machine.pc = p.lines.size ∨
            state = .running ∧ b'.machine.pc < p.lines.size)) ∧
      (b.machine.state = .halted → step b = .ok .halted b) := by
  let b₀ := circler.asked (.declare "y")
  have fresh : ReflTransGen (Moves Machine.Knows) circler b₀ :=
    .single (.tend (.declare "y") trivial)
  let b₁ := left (install (.slot 13) b₀)
  let b := b₁.asked (.setRegister "y" (.label 0))
  have labelled : b₁.machine.label? "again" = some 0 := by decide +kernel
  have stored : b.machine.get? "y" = some (.label 0) := by decide +kernel
  have installed : install (.slot 13) b₀ = .ok () b₁ := eq_ok_left (by decide +kernel)
  have knows : b₁.machine.Knows (.label 0) := by
    rintro _ ⟨⟩
    exact ⟨"again", labelled⟩
  have reaches : ReflTransGen (Moves Machine.Knows) b₁ b :=
    .single (.tend (.setRegister "y" (.label 0)) knows)
  obtain ⟨p, stays⟩ := never_leaves_program fresh installed reaches
  exact ⟨b₀, b₁, b, p, fresh, installed, reaches, stored, stays⟩

end Moving

end Bench

end Lisplet
