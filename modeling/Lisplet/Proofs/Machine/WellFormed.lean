import Lisplet.Proofs.Machine.Scanning

/-!
# Well-formed programs — when assembly succeeds, and with what result

Labels and registers may be used before they are introduced, so a program is taken apart, given
its registers and settled in three passes. Together these ask for one condition on the program as
a whole: it is a proper list, what is no label in it is an instruction, no label stands there
twice, and every name in an instruction refers to something (`Bench.WellFormed`). One lemma for
each pass says what it asks for and what it leaves.
-/

namespace Lisplet

/-! ## What an instruction mentions -/

def Operand.label? : Operand → Option String
  | .label name => some name
  | _ => none

def Operand.register? : Operand → Option String
  | .reg name => some name
  | _ => none

@[simp]
def Location.operand : Location → Operand
  | .label name => .label name
  | .reg name => .reg name

namespace Instruction

/-- What an instruction fetches, or where it goes. -/
@[simp]
def operands : Instruction → List Operand
  | .assign _ (.operand operand) => [operand]
  | .assign _ (.op _ operands) | .test _ operands | .perform _ operands => operands
  | .branch label => [.label label]
  | .goto location | .save location => [location.operand]
  | .restore _ => []

/-- The operation that an instruction names. -/
@[simp]
def operation? : Instruction → Option String
  | .assign _ (.op name _) | .test name _ | .perform name _ => some name
  | _ => none

/-- The labels that an instruction mentions. -/
def labels (i : Instruction) : List String := i.operands.filterMap Operand.label?

/-- The registers that an instruction mentions as `(reg r)`. -/
def reads (i : Instruction) : List String := i.operands.filterMap Operand.register?

end Instruction

/-! ## Settling -/

namespace Naming

variable {ω : Type} {names : Naming ω}

/-- Every name that an instruction mentions refers to something. -/
structure Covers (names : Naming ω) (i : Instruction) : Prop where
  register : ∀ name, i.register? = some name → (names.register? name).isSome
  operation : ∀ name, i.operation? = some name → (names.operation? name).isSome
  labels : ∀ name ∈ i.labels, (names.label? name).isSome
  reads : ∀ name ∈ i.reads, (names.register? name).isSome

theorem exists_register_iff {name : String} :
    (∃ index, names.register name = .ok index) ↔ (names.register? name).isSome := by
  simp only [register_eq_ok_iff, Option.isSome_iff_exists]

theorem exists_label_iff {name : String} :
    (∃ index, names.label name = .ok index) ↔ (names.label? name).isSome := by
  simp only [label_eq_ok_iff, Option.isSome_iff_exists]

theorem exists_fetch_iff {operand : Operand} :
    (∃ source, names.fetch operand = .ok source) ↔
      (∀ name, operand.label? = some name → (names.label? name).isSome) ∧
        ∀ name, operand.register? = some name → (names.register? name).isSome := by
  cases operand with
  | const datum => exact ⟨fun _ => ⟨nofun, nofun⟩, fun _ => ⟨.const datum, rfl⟩⟩
  | label name =>
      rw [fetch, exists_map_ok_iff, exists_label_iff]
      simp [Operand.label?, Operand.register?]
  | reg name =>
      rw [fetch, exists_map_ok_iff, exists_register_iff]
      simp [Operand.label?, Operand.register?]

theorem exists_call_iff {name : String} {operands : List Operand} :
    (∃ c, names.call name operands = .ok c) ↔
      (names.operation? name).isSome ∧ ∀ operand ∈ operands, ∃ source,
        names.fetch operand = .ok source := by
  unfold call
  cases names.operation? name with
  | none => simp
  | some primitive =>
      rw [exists_bind_ok_iff, ← exists_mapM_ok_iff]
      constructor
      · rintro ⟨sources, settled, -⟩
        exact ⟨rfl, sources, settled⟩
      · rintro ⟨-, sources, settled⟩
        exact ⟨sources, settled, _, rfl⟩

/-- An instruction can be settled just when its register, its operation and its operands can. -/
theorem exists_resolve_iff {i : Instruction} :
    (∃ code, names.resolve i = .ok code) ↔
      (∀ name, i.register? = some name → ∃ index, names.register name = .ok index) ∧
      (∀ name, i.operation? = some name → (names.operation? name).isSome) ∧
      ∀ operand ∈ i.operands, ∃ source, names.fetch operand = .ok source := by
  have fetches {name : String} : (∃ source, names.fetch (.label name) = .ok source) ↔
      ∃ index, names.label name = .ok index := exists_map_ok_iff
  have reads {name : String} : (∃ source, names.fetch (.reg name) = .ok source) ↔
      ∃ index, names.register name = .ok index := exists_map_ok_iff
  cases i with
  | assign register source =>
      cases source with
      | operand operand =>
          simp only [resolve, exists_bind_ok_iff]
          simp [Instruction.register?, pure, Except.pure]
      | op name operands =>
          simp only [resolve, exists_bind_ok_iff]
          simp [Instruction.register?, exists_call_iff, pure, Except.pure]
  | test name operands | perform name operands =>
      rw [resolve, exists_map_ok_iff, exists_call_iff]
      simp [Instruction.register?]
  | branch label =>
      rw [resolve, exists_map_ok_iff]
      simp [Instruction.register?, fetches]
  | goto location | save location =>
      cases location with
      | label name =>
          rw [resolve, exists_map_ok_iff]
          simp [Instruction.register?, fetches]
      | reg name =>
          rw [resolve, exists_map_ok_iff]
          simp [Instruction.register?, reads]
  | restore register =>
      rw [resolve, exists_map_ok_iff]
      simp [Instruction.register?]

theorem exists_resolve_iff_covers {i : Instruction} :
    (∃ code, names.resolve i = .ok code) ↔ names.Covers i := by
  rw [exists_resolve_iff]
  simp only [exists_register_iff, exists_fetch_iff]
  constructor
  · rintro ⟨register, operation, operands⟩
    refine ⟨register, operation, fun name member => ?_, fun name member => ?_⟩
    · rcases List.mem_filterMap.1 member with ⟨operand, mentioned, same⟩
      exact (operands operand mentioned).1 name same
    · rcases List.mem_filterMap.1 member with ⟨operand, mentioned, same⟩
      exact (operands operand mentioned).2 name same
  · rintro ⟨register, operation, labels, reads⟩
    refine ⟨register, operation, fun operand mentioned => ⟨fun name same => ?_, ?_⟩⟩
    · exact labels name (List.mem_filterMap.2 ⟨operand, mentioned, same⟩)
    · exact fun name same => reads name (List.mem_filterMap.2 ⟨operand, mentioned, same⟩)

end Naming

/-- The names in all instructions can be settled just when each of them refers to something. -/
theorem Listing.exists_resolve_iff {ω : Type} {listing : Listing} {names : Naming ω} :
    (∃ lines, listing.resolve names = .ok lines) ↔
      ∀ i ∈ listing.lines.toList.map Prod.snd, names.Covers i := by
  rw [List.forall_mem_map]
  simp only [← Naming.exists_resolve_iff_covers]
  unfold Listing.resolve
  rw [Array.mapM_eq_mapM_toList]
  constructor
  · rintro ⟨lines, resolved⟩ entry member
    obtain ⟨all, each, -⟩ := map_eq_ok_iff.1 resolved
    rcases exists_mapM_ok_iff.1 ⟨all, each⟩ entry member with ⟨line, settled⟩
    rcases bind_eq_ok_iff.1 settled with ⟨code, resolved, -⟩
    exact ⟨code, resolved⟩
  · intro settled
    refine exists_map_ok_iff.2 (exists_mapM_ok_iff.2 fun entry member => ?_)
    rcases settled entry member with ⟨code, resolved⟩
    exact ⟨_, bind_eq_ok_iff.2 ⟨code, resolved, rfl⟩⟩

/-! ## Assembly -/

namespace Bench

variable {ω : Type}

/-- What a program, the elements of which are given, must be to be assembled on a machine. -/
structure WellFormed (b : Bench ω) (program : Value) (elements : List Value) : Prop where
  /-- It is a proper list. -/
  list : b.heap.Spine program elements .nil
  parses : b.heap.Parses elements
  single : (b.heap.labelNames elements).Nodup
  /-- Every label that is mentioned stands in the program. -/
  labels : ∀ i ∈ b.heap.instructions elements, ∀ name ∈ i.labels,
    name ∈ b.heap.labelNames elements
  operations : ∀ i ∈ b.heap.instructions elements, ∀ name, i.operation? = some name →
    (b.machine.operations.get? name).isSome
  /-- Every register that is read is declared or comes into being with the program. -/
  registers : ∀ i ∈ b.heap.instructions elements, ∀ name ∈ i.reads,
    (b.machine.index? name).isSome ∨ ∃ j ∈ b.heap.instructions elements, j.register? = some name

/-- What comes of assembling a program with these elements. -/
structure Assembled (b : Bench ω) (elements : List Value) (b' : Bench ω) : Prop where
  lineCount : b'.machine.lineCount = b.heap.countLines elements
  /-- A label refers to the instruction after it. -/
  label? : ∀ before element after name, elements = before ++ element :: after →
    b.heap.symbolName? element = some name →
      b'.machine.label? name = some (b.heap.countLines before)
  /-- The registers that are new come in the order in which they are first named. -/
  registers : ∃ new : List Register,
    b'.machine.registers.toList = b.machine.registers.toList ++ new ∧
    new.map Register.name =
      (((b.heap.instructions elements).filterMap Instruction.register?).filter fun name =>
        (b.machine.index? name).isNone).eraseDups ∧
    ∀ register ∈ new, register.payload = .value .nil

/-- An installation succeeds just when the program can be taken apart and its names be settled. -/
theorem install_eq_ok_iff {program : Value} {b b' : Bench ω} :
    install program b = .ok () b' ↔ ∃ listing lines,
      Listing.scan (b.heap.pin program).2 program = .ok listing ∧
      listing.resolve ((listing.registers.foldl declare
        ⟨b.machine, (b.heap.pin program).2⟩).naming listing.labels) = .ok lines ∧
      b' =
        let declared := listing.registers.foldl declare ⟨b.machine, (b.heap.pin program).2⟩
        ⟨{ declared.machine with
            program := some ⟨(b.heap.pin program).1, lines, listing.labels⟩, state := .installed },
          declared.dropProgram.heap⟩ := by
  rw [install_eq]
  rcases assembleLines_cases program (b.heap.pin program).1
      ⟨b.machine, (b.heap.pin program).2⟩ with ⟨e, failed, step⟩ |
    ⟨listing, declared, scanned, rfl, ⟨e, failed, step⟩ | ⟨lines, resolved, step⟩⟩
  · rw [step]
    refine ⟨nofun, ?_⟩
    rintro ⟨listing, lines, scanned, -⟩
    cases failed.symm.trans scanned
  · rw [step]
    refine ⟨nofun, ?_⟩
    rintro ⟨listing', lines, scanned', resolved, -⟩
    cases scanned.symm.trans scanned'
    cases failed.symm.trans resolved
  · rw [step]
    constructor
    · intro done
      cases done
      exact ⟨listing, lines, scanned, resolved, rfl⟩
    · rintro ⟨listing', lines', scanned', resolved', rfl⟩
      cases scanned.symm.trans scanned'
      cases resolved.symm.trans resolved'
      rfl

/-- What the names in a listing refer to, once its registers are there. -/
theorem covers_iff {b : Bench ω} {h : Heap} {listing : Listing} {elements : List Value}
    (scans : Listing.Scans h ⟨[], #[]⟩ elements listing) :
    (∀ i ∈ listing.lines.toList.map Prod.snd,
      ((listing.registers.foldl declare b).naming listing.labels).Covers i) ↔
    (∀ i ∈ h.instructions elements, ∀ name ∈ i.labels, name ∈ h.labelNames elements) ∧
    (∀ i ∈ h.instructions elements, ∀ name, i.operation? = some name →
      (b.machine.operations.get? name).isSome) ∧
    ∀ i ∈ h.instructions elements, ∀ name ∈ i.reads,
      (b.machine.index? name).isSome ∨ ∃ j ∈ h.instructions elements, j.register? = some name := by
  have instructions : listing.lines.toList.map Prod.snd = h.instructions elements :=
    scans.instructions
  have registers :
      listing.registers = (h.instructions elements).filterMap Instruction.register? := by
    rw [← instructions, List.filterMap_map]
    rfl
  have label (name : String) :
      (listing.labels.lookup name).isSome ↔ name ∈ h.labelNames elements := by
    rw [Listing.lookup_isSome_iff, scans.names]
    simp
  have register (name : String) :
      ((listing.registers.foldl declare b).machine.index? name).isSome ↔
        (b.machine.index? name).isSome ∨
          ∃ j ∈ h.instructions elements, j.register? = some name := by
    rw [index?_declareAll, registers, List.mem_filterMap]
  have operation : ((listing.registers.foldl declare b).naming listing.labels).operation? =
      b.machine.operations.get? := by
    unfold naming
    rw [operations_declareAll]
  rw [instructions]
  constructor
  · intro covers
    refine ⟨fun i member name mentioned => ?_, fun i member name same => ?_,
      fun i member name mentioned => ?_⟩
    · exact (label name).1 ((covers i member).labels name mentioned)
    · exact operation ▸ (covers i member).operation name same
    · exact (register name).1 ((covers i member).reads name mentioned)
  · rintro ⟨labels, operations, reads⟩ i member
    constructor
    · exact fun name same => (register name).2 (.inr ⟨i, member, same⟩)
    · exact fun name same => operation ▸ operations i member name same
    · exact fun name mentioned => (label name).2 (labels i member name mentioned)
    · exact fun name mentioned => (register name).2 (reads i member name mentioned)

section Installing

variable {program : Value} {b b' : Bench ω} {elements : List Value}

theorem wellFormed_of_install (done : install program b = .ok () b') :
    ∃ elements, b.WellFormed program elements := by
  have same := Heap.object?_pin b.heap program
  rcases install_eq_ok_iff.1 done with ⟨listing, lines, scanned, resolved, -⟩
  rcases Listing.scan_eq_ok_iff.1 scanned with ⟨elements, spine, scannedOnto⟩
  rcases Listing.exists_scanOnto_iff.1 ⟨listing, scannedOnto⟩ with ⟨parses, single, -⟩
  rcases (covers_iff (Listing.scans_of_scanOnto scannedOnto)).1
    (Listing.exists_resolve_iff.1 ⟨lines, resolved⟩) with ⟨labels, operations, registers⟩
  rw [Heap.labelNames_congr same] at single
  rw [Heap.labelNames_congr same, Heap.instructions_congr same] at labels
  rw [Heap.instructions_congr same] at operations registers
  exact ⟨elements, spine.congr fun v => (same v).symm, (Heap.parses_congr same).1 parses, single,
    labels, operations, registers⟩

theorem WellFormed.assembled (w : b.WellFormed program elements)
    (done : install program b = .ok () b') : b.Assembled elements b' := by
  have same := Heap.object?_pin b.heap program
  rcases install_eq_ok_iff.1 done with ⟨listing, lines, scanned, -, result⟩
  rcases Listing.scan_eq_ok_iff.1 scanned with ⟨elements', spine, scannedOnto⟩
  rcases w.list.unique (spine.congr fun v => (same v).symm) with ⟨rfl, -⟩
  have scans := Listing.scans_of_scanOnto scannedOnto
  have instructions : listing.lines.toList.map Prod.snd = b.heap.instructions elements := by
    simpa [Heap.instructions_congr same] using scans.instructions
  refine ⟨?_, fun before element after name split isLabel => ?_, ?_⟩
  · rcases follows_of_install done with ⟨listing', scanned', follows⟩
    cases scanned.symm.trans scanned'
    rw [follows.lineCount_eq, ← Heap.length_instructions w.parses, ← instructions]
    simp
  · have nodup : (listing.labels.map Prod.fst).Nodup := by
      rw [scans.names, Heap.labelNames_congr same]
      simpa using w.single
    have position := scans.position before element after name split
      ((congrFun (Heap.symbolName?_congr same) element).trans isLabel)
    have found := Listing.lookup_of_mem position nodup
    subst result
    simpa [Machine.label?, Heap.countLines, Heap.symbolName?_congr same] using found
  · rcases exists_declared ⟨b.machine, (b.heap.pin program).2⟩ listing.registers with
      ⟨new, there, named, allNew⟩
    subst result
    refine ⟨new, there, named.trans ?_, fun register member => (allNew register member).payload_eq⟩
    rw [← instructions, List.filterMap_map]
    rfl

end Installing

end Bench

end Lisplet
