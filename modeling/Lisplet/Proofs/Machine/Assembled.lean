import Lisplet.Proofs.Machine.Effects
import Mathlib.Data.List.Forall2
import Mathlib.Tactic.Common

/-!
# Assembled code — what the names in a program refer to

Assembly settles the names in an instruction once, when the registers of the program exist. This
module says what an instruction becomes when that succeeds, that a machine which keeps its
program keeps that meaning (`KeepsCode`), and that the code of an installed program is, line by
line, what the instructions of its listing become (`Follows`).
-/

namespace Lisplet

/-! ## Settling that succeeds -/

section Settling

variable {ε α β : Type}

theorem bind_eq_ok_iff {x : Except ε α} {f : α → Except ε β} {b : β} :
    x >>= f = .ok b ↔ ∃ a, x = .ok a ∧ f a = .ok b := by
  cases x with
  | error e => exact ⟨nofun, fun ⟨_, same, _⟩ => nomatch same⟩
  | ok a => exact ⟨fun rest => ⟨a, rfl, rest⟩, fun ⟨_, same, rest⟩ => by cases same; exact rest⟩

theorem map_eq_ok_iff {x : Except ε α} {f : α → β} {b : β} :
    x.map f = .ok b ↔ ∃ a, x = .ok a ∧ f a = b := by
  cases x with
  | error e => exact ⟨nofun, fun ⟨_, same, _⟩ => nomatch same⟩
  | ok a => simp [Except.map]

theorem mapM_eq_ok_iff {f : α → Except ε β} {as : List α} {bs : List β} :
    as.mapM f = .ok bs ↔ List.Forall₂ (fun a b => f a = .ok b) as bs := by
  induction as generalizing bs with
  | nil =>
      rw [List.mapM_nil, List.forall₂_nil_left_iff]
      exact ⟨fun same => by cases same; rfl, fun same => by rw [same]; rfl⟩
  | cons a as ih =>
      rw [List.mapM_cons, bind_eq_ok_iff, List.forall₂_cons_left_iff]
      constructor
      · rintro ⟨b, first, rest⟩
        obtain ⟨bs', others, same⟩ := bind_eq_ok_iff.1 rest
        cases same
        exact ⟨b, bs', first, ih.1 others, rfl⟩
      · rintro ⟨b, bs', first, others, rfl⟩
        exact ⟨b, first, bind_eq_ok_iff.2 ⟨bs', ih.2 others, rfl⟩⟩

theorem exists_of_forall₂_right {R : α → β → Prop} {as : List α} {bs : List β} {b : β}
    (both : List.Forall₂ R as bs) (member : b ∈ bs) : ∃ a ∈ as, R a b := by
  induction both with
  | nil => cases member
  | @cons a _ _ _ first _ ih =>
      rcases List.mem_cons.1 member with rfl | later
      · exact ⟨a, List.mem_cons_self, first⟩
      · obtain ⟨a', isElement, related⟩ := ih later
        exact ⟨a', List.mem_cons_of_mem a isElement, related⟩

theorem exists_bind_ok_iff {x : Except ε α} {f : α → Except ε β} :
    (∃ b, x >>= f = .ok b) ↔ ∃ a, x = .ok a ∧ ∃ b, f a = .ok b := by
  constructor
  · rintro ⟨b, done⟩
    rcases bind_eq_ok_iff.1 done with ⟨a, first, rest⟩
    exact ⟨a, first, b, rest⟩
  · rintro ⟨a, first, b, rest⟩
    exact ⟨b, bind_eq_ok_iff.2 ⟨a, first, rest⟩⟩

theorem exists_map_ok_iff {x : Except ε α} {f : α → β} :
    (∃ b, x.map f = .ok b) ↔ ∃ a, x = .ok a := by
  constructor
  · rintro ⟨b, done⟩
    rcases map_eq_ok_iff.1 done with ⟨a, first, -⟩
    exact ⟨a, first⟩
  · rintro ⟨a, first⟩
    exact ⟨f a, map_eq_ok_iff.2 ⟨a, first, rfl⟩⟩

theorem exists_mapM_ok_iff {f : α → Except ε β} {as : List α} :
    (∃ bs, as.mapM f = .ok bs) ↔ ∀ a ∈ as, ∃ b, f a = .ok b := by
  induction as with
  | nil => exact ⟨fun _ => nofun, fun _ => ⟨[], rfl⟩⟩
  | cons a as ih =>
      rw [List.mapM_cons, exists_bind_ok_iff, List.forall_mem_cons, ← ih]
      constructor
      · rintro ⟨b, first, rest⟩
        rcases exists_bind_ok_iff.1 rest with ⟨bs, others, -⟩
        exact ⟨⟨b, first⟩, bs, others⟩
      · rintro ⟨⟨b, first⟩, bs, others⟩
        exact ⟨b, first, exists_bind_ok_iff.2 ⟨bs, others, b :: bs, rfl⟩⟩

theorem mapError_eq_ok_iff {ε' : Type} {x : Except ε α} {f : ε → ε'} {a : α} :
    x.mapError f = .ok a ↔ x = .ok a := by
  cases x <;> simp [Except.mapError]

end Settling

namespace Naming

variable {ω : Type} {names : Naming ω} {name : String}

theorem register_eq_ok_iff {index : Nat} :
    names.register name = .ok index ↔ names.register? name = some index := by
  unfold register
  split <;> simp [*]

theorem label_eq_ok_iff {index : Nat} :
    names.label name = .ok index ↔ names.label? name = some index := by
  unfold label
  split <;> simp [*]

theorem call_eq_ok_iff {operands : List Operand} {c : Call ω} :
    names.call name operands = .ok c ↔
      c.name = name ∧ names.operation? name = some c.operation ∧
        List.Forall₂ (fun operand source => names.fetch operand = .ok source)
          operands c.operands := by
  unfold call
  cases found : names.operation? name with
  | none => simp
  | some operation =>
      simp only [bind_eq_ok_iff, mapM_eq_ok_iff]
      constructor
      · rintro ⟨sources, settled, same⟩
        cases same
        exact ⟨rfl, rfl, settled⟩
      · rcases c with ⟨name', operation', sources⟩
        rintro ⟨rfl, same, settled⟩
        cases same
        exact ⟨sources, settled, rfl⟩

theorem fetch_mono {names' : Naming ω}
    (registers : ∀ name index, names.register? name = some index →
      names'.register? name = some index)
    (labels : names'.label? = names.label?) {operand : Operand} {source : Fetch}
    (settled : names.fetch operand = .ok source) : names'.fetch operand = .ok source := by
  cases operand with
  | const datum => exact settled
  | label name =>
      unfold fetch label at settled ⊢
      rw [labels]
      exact settled
  | reg name =>
      obtain ⟨index, place, rfl⟩ := map_eq_ok_iff.1 settled
      have place := registers _ _ (register_eq_ok_iff.1 place)
      exact map_eq_ok_iff.2 ⟨index, register_eq_ok_iff.2 place, rfl⟩

theorem call_mono {names' : Naming ω}
    (registers : ∀ name index, names.register? name = some index →
      names'.register? name = some index)
    (labels : names'.label? = names.label?) (operations : names'.operation? = names.operation?)
    {operands : List Operand} {c : Call ω} (settled : names.call name operands = .ok c) :
    names'.call name operands = .ok c := by
  obtain ⟨named, found, sources⟩ := call_eq_ok_iff.1 settled
  exact call_eq_ok_iff.2 ⟨named, operations ▸ found,
    sources.imp fun _ _ settled => fetch_mono registers labels settled⟩

/-- More registers do not change what has been settled. -/
theorem resolve_mono {names' : Naming ω}
    (registers : ∀ name index, names.register? name = some index →
      names'.register? name = some index)
    (labels : names'.label? = names.label?) (operations : names'.operation? = names.operation?)
    {instruction : Instruction} {code : Code ω} (settled : names.resolve instruction = .ok code) :
    names'.resolve instruction = .ok code := by
  have place {name : String} {index : Nat} (settled : names.register name = .ok index) :
      names'.register name = .ok index :=
    register_eq_ok_iff.2 (registers _ _ (register_eq_ok_iff.1 settled))
  have target {name : String} {index : Nat} (settled : names.label name = .ok index) :
      names'.label name = .ok index :=
    label_eq_ok_iff.2 (labels ▸ label_eq_ok_iff.1 settled)
  cases instruction with
  | assign register source =>
      cases source with
      | operand operand =>
          obtain ⟨index, settled, rest⟩ := bind_eq_ok_iff.1 settled
          obtain ⟨source, fetched, same⟩ := bind_eq_ok_iff.1 rest
          exact bind_eq_ok_iff.2 ⟨index, place settled,
            bind_eq_ok_iff.2 ⟨source, fetch_mono registers labels fetched, same⟩⟩
      | op name operands =>
          obtain ⟨index, settled, rest⟩ := bind_eq_ok_iff.1 settled
          obtain ⟨c, called, same⟩ := bind_eq_ok_iff.1 rest
          exact bind_eq_ok_iff.2 ⟨index, place settled,
            bind_eq_ok_iff.2 ⟨c, call_mono registers labels operations called, same⟩⟩
  | test name operands | perform name operands =>
      obtain ⟨c, called, same⟩ := map_eq_ok_iff.1 settled
      exact map_eq_ok_iff.2 ⟨c, call_mono registers labels operations called, same⟩
  | branch label =>
      obtain ⟨index, settled, same⟩ := map_eq_ok_iff.1 settled
      exact map_eq_ok_iff.2 ⟨index, target settled, same⟩
  | goto location =>
      cases location with
      | label name =>
          obtain ⟨index, settled, same⟩ := map_eq_ok_iff.1 settled
          exact map_eq_ok_iff.2 ⟨index, target settled, same⟩
      | reg name =>
          obtain ⟨index, settled, same⟩ := map_eq_ok_iff.1 settled
          exact map_eq_ok_iff.2 ⟨index, place settled, same⟩
  | save location =>
      cases location with
      | label name | reg name =>
          obtain ⟨source, fetched, same⟩ := map_eq_ok_iff.1 settled
          exact map_eq_ok_iff.2 ⟨source, fetch_mono registers labels fetched, same⟩
  | restore register =>
      obtain ⟨index, settled, same⟩ := map_eq_ok_iff.1 settled
      exact map_eq_ok_iff.2 ⟨index, place settled, same⟩

end Naming

/-! ## Machines with the same code -/

/--
`m'` has the program and the operations of `m`, and the registers of `m` in their places. What
the registers hold, and whether there are more of them, is left open.
-/
structure Machine.KeepsCode {ω : Type} (m m' : Machine ω) : Prop where
  program_eq : m'.program = m.program
  operations_eq : m'.operations = m.operations
  index?_of : ∀ name index, m.index? name = some index → m'.index? name = some index

namespace Machine.KeepsCode

variable {ω : Type} {m m' m'' : Machine ω}

theorem refl (m : Machine ω) : m.KeepsCode m :=
  ⟨rfl, rfl, fun _ _ found => found⟩

theorem of_eq (program : m'.program = m.program)
    (operations : m'.operations = m.operations) (registers : m'.registers = m.registers) :
    m.KeepsCode m' where
  program_eq := program
  operations_eq := operations
  index?_of name index found := by
    rw [Machine.index?, registers]
    exact found

theorem trans (first : m.KeepsCode m') (second : m'.KeepsCode m'') : m.KeepsCode m'' where
  program_eq := second.program_eq.trans first.program_eq
  operations_eq := second.operations_eq.trans first.operations_eq
  index?_of name index found := second.index?_of name index (first.index?_of name index found)

end Machine.KeepsCode

namespace Bench

variable {ω : Type}

section Code

variable {listing : Listing} {b : Bench ω}

theorem resolve_of_keepsCode {b' : Bench ω} (kept : b.machine.KeepsCode b'.machine)
    {labels : List (String × Nat)} {instruction : Instruction} {code : Code ω}
    (settled : (b.naming labels).resolve instruction = .ok code) :
    (b'.naming labels).resolve instruction = .ok code := by
  have operations : (b'.naming labels).operation? = (b.naming labels).operation? :=
    congrArg Operations.get? kept.operations_eq
  have labels : (b'.naming labels).label? = (b.naming labels).label? := rfl
  exact Naming.resolve_mono kept.index?_of labels operations settled

/-- The code of the program is what the instructions of a listing become. -/
def Follows (b : Bench ω) (listing : Listing) : Prop :=
  ∃ program, b.machine.program = some program ∧
    List.Forall₂
      (fun entry line => line.text = entry.1 ∧
        (b.naming listing.labels).resolve entry.2 = .ok line.code)
      listing.lines.toList program.lines.toList

theorem Follows.of_keepsCode {b' : Bench ω} (follows : b.Follows listing)
    (kept : b.machine.KeepsCode b'.machine) : b'.Follows listing := by
  obtain ⟨program, installed, settled⟩ := follows
  exact ⟨program, kept.program_eq.trans installed,
    settled.imp fun _ _ ⟨text, code⟩ => ⟨text, resolve_of_keepsCode kept code⟩⟩

theorem Follows.lineCount_eq (follows : b.Follows listing) :
    b.machine.lineCount = listing.lines.size := by
  obtain ⟨program, installed, settled⟩ := follows
  rw [Machine.lineCount, installed]
  simpa using settled.length_eq.symm

/-- The line that is next comes from the instruction that is next. -/
theorem Follows.current (follows : b.Follows listing) :
    (∃ entry line, listing.lines[b.machine.pc]? = some entry ∧
      currentLine? b.machine = some line ∧ line.text = entry.1 ∧
      (b.naming listing.labels).resolve entry.2 = .ok line.code) ∨
    listing.lines[b.machine.pc]? = none ∧ currentLine? b.machine = none := by
  obtain ⟨program, installed, settled⟩ := follows
  have sizes : listing.lines.size = program.lines.size := by simpa using settled.length_eq
  have current : currentLine? b.machine = program.lines[b.machine.pc]? := by
    rw [currentLine?, installed, Option.bind_some]
  by_cases inside : b.machine.pc < listing.lines.size
  · have inside' : b.machine.pc < program.lines.size := sizes ▸ inside
    obtain ⟨text, code⟩ := settled.get inside inside'
    exact .inl ⟨_, _, Array.getElem?_eq_getElem inside,
      current.trans (Array.getElem?_eq_getElem inside'), text, code⟩
  · refine .inr ⟨Array.getElem?_eq_none (Nat.le_of_not_lt inside), ?_⟩
    rw [current]
    exact Array.getElem?_eq_none (sizes ▸ Nat.le_of_not_lt inside)

end Code

/-! ## Assembly -/

theorem assembleLines_cases (program : Value) (source : Pin) (b : Bench ω) :
    (∃ e, Listing.scan b.heap program = .error e ∧ assembleLines program source b = .error e b) ∨
    ∃ listing b', Listing.scan b.heap program = .ok listing ∧
      b' = listing.registers.foldl declare b ∧
      ((∃ e, listing.resolve (b'.naming listing.labels) = .error e ∧
          assembleLines program source b = .error e b') ∨
        ∃ lines, listing.resolve (b'.naming listing.labels) = .ok lines ∧
          assembleLines program source b =
            .ok { source, lines, labels := listing.labels } b') := by
  unfold assembleLines
  rw [get_bind_apply]
  cases Listing.scan b.heap program with
  | error e => exact .inl ⟨e, rfl, rfl⟩
  | ok listing =>
      refine .inr ⟨listing, _, rfl, rfl, ?_⟩
      dsimp only
      rw [modify_bind_apply, get_bind_apply]
      cases listing.resolve ((listing.registers.foldl declare b).naming listing.labels) with
      | error e => exact .inl ⟨e, rfl, rfl⟩
      | ok lines => exact .inr ⟨lines, rfl, rfl⟩

/-- An installation succeeds or fails with the assembly. -/
theorem install_eq (program : Value) (b : Bench ω) :
    install program b =
      match assembleLines program (b.heap.pin program).1 ⟨b.machine, (b.heap.pin program).2⟩ with
      | .ok assembled b' =>
        .ok () ⟨{ b'.machine with program := some assembled, state := .installed },
          b'.dropProgram.heap⟩
      | .error e b' => .error e ⟨b'.machine, b'.heap.unpin (b.heap.pin program).1⟩ := by
  rcases b with ⟨machine, heap⟩
  unfold install
  dsimp only
  cases ran : assembleLines program (heap.pin program).1 ⟨machine, (heap.pin program).2⟩ with
  | ok assembled b' => simp only [dropProgram_eq]
  | error e b' => rfl

theorem follows_of_install {program : Value} {b₀ b : Bench ω}
    (installed : install program b₀ = .ok () b) :
    ∃ listing, Listing.scan (b₀.heap.pin program).2 program = .ok listing ∧
      b.Follows listing := by
  rw [install_eq] at installed
  rcases assembleLines_cases program (b₀.heap.pin program).1
      ⟨b₀.machine, (b₀.heap.pin program).2⟩ with ⟨e, -, failed⟩ |
    ⟨listing, b', scanned, -, ⟨e, -, failed⟩ | ⟨lines, resolved, assembled⟩⟩
  · rw [failed] at installed
    cases installed
  · rw [failed] at installed
    cases installed
  · rw [assembled] at installed
    cases installed
    refine ⟨listing, scanned, _, rfl, ?_⟩
    rw [Listing.resolve, Array.mapM_eq_mapM_toList] at resolved
    obtain ⟨lines, each, rfl⟩ := map_eq_ok_iff.1 resolved
    refine (mapM_eq_ok_iff.1 each).imp fun entry line becomes => ?_
    obtain ⟨code, settled, same⟩ := bind_eq_ok_iff.1 becomes
    cases same
    exact ⟨rfl, settled⟩

end Bench

end Lisplet
