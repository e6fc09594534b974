import Lisplet.Command.Machine
import Lisplet.Proofs.Conduct.Language
import Lisplet.Proofs.Machine.Outset
import Lisplet.Proofs.Machine.Syntax
import Lisplet.Proofs.Reading.Whole

/-!
# Watching — tracing and monitoring change nothing that is computed

The `machine` command with and without `--trace` and `--monitor`. The machines that are assembled
are twins, so that they end in the same way and with the same payloads in their registers; here it
is said what that means for the status, the report and the lines that the command writes. A register
that is monitored and not in the program has a line as well, which shows nil.
-/

namespace Lisplet

open Heap

/-- The options with nothing watched. -/
def Options.unwatched (options : Options) : Options :=
  { options with monitor := [], trace := false }

/-! ## Streams -/

namespace Sink

/-- The stream takes so many more bytes. -/
def HasRoom (out : Sink) (bytes : Nat) : Prop := ∀ room, out.room = some room → bytes ≤ room

theorem HasRoom.of_unlimited {out : Sink} (unlimited : out.room = none) (bytes : Nat) :
    out.HasRoom bytes := by
  intro left there
  rw [unlimited] at there
  cases there

theorem HasRoom.mono {out : Sink} {less more : Nat} (le : less ≤ more) (room : out.HasRoom more) :
    out.HasRoom less := fun left there => Nat.le_trans le (room left there)

theorem write_fst_iff {out : Sink} {text : String} :
    (out.write text).1 = true ↔ out.HasRoom text.utf8ByteSize := by
  rcases out with ⟨bytes, _ | left⟩
  · exact iff_of_true rfl (.of_unlimited rfl _)
  · refine decide_eq_true_iff.trans ⟨fun fits _ there => ?_, fun room => room left rfl⟩
    cases there
    exact fits

/-- What has been written is no longer left. -/
theorem hasRoom_write_iff {out : Sink} {text : String} {more : Nat}
    (room : out.HasRoom text.utf8ByteSize) :
    (out.write text).2.HasRoom more ↔ out.HasRoom (text.utf8ByteSize + more) := by
  rcases out with ⟨bytes, _ | left⟩
  · exact iff_of_true (.of_unlimited rfl _) (.of_unlimited rfl _)
  · have fits : text.utf8ByteSize ≤ left := room left rfl
    have after : ((⟨bytes, some left⟩ : Sink).write text).2.room =
        some (left - min left text.utf8ByteSize) := rfl
    unfold HasRoom
    rw [after, Nat.min_eq_right fits]
    simp only [Option.some.injEq, forall_eq']
    omega

end Sink

namespace MachineCommand

/-- The stream takes all of these lines. -/
def Takes (out : Sink) (lines : List String) : Prop :=
  out.HasRoom (lines.map fun line => line.utf8ByteSize + 1).sum

theorem writeLines_fst_iff {out : Sink} {lines : List String} :
    (writeLines out lines).1 = .ok () ↔ Takes out lines := by
  induction lines generalizing out with
  | nil => exact iff_of_true rfl fun _ _ => Nat.zero_le _
  | cons line lines ih =>
      have size : (line ++ "\n").utf8ByteSize = line.utf8ByteSize + 1 :=
        String.utf8ByteSize_append
      unfold Takes
      rw [List.map_cons, List.sum_cons, ← size]
      by_cases first : out.HasRoom (line ++ "\n").utf8ByteSize
      · have more : (writeLines out (line :: lines)).1 =
            (writeLines (out.write (line ++ "\n")).2 lines).1 := by
          rw [writeLines, ← Prod.eta (out.write _), Sink.write_fst_iff.2 first]
        rw [more, ih, ← Sink.hasRoom_write_iff first]
        rfl
      · have refused : (writeLines out (line :: lines)).1 = .error .output := by
          rw [writeLines, ← Prod.eta (out.write _),
            Bool.eq_false_iff.2 fun taken => first (Sink.write_fst_iff.1 taken)]
        rw [refused]
        exact iff_of_false nofun fun room => first (room.mono (Nat.le_add_right _ _))

theorem writeLines_of_refused {out : Sink} {lines : List String} (refused : ¬Takes out lines) :
    (writeLines out lines).1 = .error .output := by
  have failed : (writeLines out lines).1 = .ok () ∨ (writeLines out lines).1 = .error .output := by
    clear refused
    induction lines generalizing out with
    | nil => exact .inl rfl
    | cons line lines ih =>
        rw [writeLines]
        split
        · exact ih
        · exact .inr rfl
  exact failed.resolve_left fun taken => refused (writeLines_fst_iff.1 taken)

end MachineCommand

/-! ## What is shown of a machine -/

theorem Payload.text_repinned {h h' : Heap} (r : h.Repinned h') (payload : Payload) :
    payload.text h' = payload.text h := by
  cases payload with
  | value v => exact r.write_eq v
  | label index => rfl

namespace MachineCommand

/-- The line that shows the register of a name. -/
def registerLine (b : Bench) (name : String) : String :=
  name ++ " = " ++ ((b.machine.get? name).getD (.value .nil)).text b.heap

/-- The line that shows how the stack was used. -/
def statsLine (stats : StackStats) : String :=
  let pushes := stats.totalPushes
  let depth := stats.maxDepth
  s!"total pushes = {pushes}, max-depth = {depth}"

theorem stateLines_eq {b : Bench} (single : b.machine.names.Nodup) :
    stateLines b.machine b.heap =
      b.machine.names.map (registerLine b) ++ [statsLine b.machine.stats] := by
  refine congrArg (· ++ [statsLine b.machine.stats]) ?_
  rw [Machine.names, List.map_map]
  refine List.map_congr_left fun register member => ?_
  have found := Machine.get?_of_mem single (Array.mem_toList_iff.1 member)
  rw [Function.comp_apply, registerLine, found, Option.getD_some]

/--
The same lines, except that those in front of the last may come in another order, and that there is
a line for nil in each of the registers `extra` besides.
-/
def SameLines (extra lines lines' : List String) : Prop :=
  ∃ shown shown' last, lines = shown ++ [last] ∧ lines' = shown' ++ [last] ∧
    shown'.Perm (shown ++ extra.map (· ++ " = nil"))

theorem SameLines.takes {extra lines lines' : List String} {out : Sink}
    (same : SameLines extra lines lines') (taken : Takes out lines') : Takes out lines := by
  obtain ⟨shown, shown', last, rfl, rfl, perm⟩ := same
  refine taken.mono ?_
  have total := (perm.map fun line => line.utf8ByteSize + 1).sum_nat
  rw [List.map_append, List.sum_append] at total
  rw [List.map_append, List.sum_append, List.map_append, List.sum_append, total]
  omega

/-- `b'` shows what `b` shows, and besides that registers `extra` with nil in them. -/
structure Shows (extra : List String) (b b' : Bench) : Prop where
  get?_eq : ∀ name payload, b.machine.get? name = some payload →
    b'.machine.get? name = some payload ∧ payload.text b'.heap = payload.text b.heap
  stats_eq : b'.machine.stats = b.machine.stats
  lines : SameLines extra (stateLines b.machine b.heap) (stateLines b'.machine b'.heap)
  printed_eq : b'.heap.printed = b.heap.printed

/-- An outcome from which another differs in nothing but the lines that have been written. -/
structure DiffersInLines (extra : List String) (out : Sink) (o o' : Outcome) : Prop where
  status_eq : o'.status = o.status
  err_eq : o'.err = o.err
  written : ∃ lines lines', SameLines extra lines lines' ∧
    o.out = (writeLines out lines).2 ∧ o'.out = (writeLines out lines').2
  printed_eq : o'.journal.toList.filterMap Notice.printed? =
    o.journal.toList.filterMap Notice.printed?

section Showing

variable {listing : Listing} {source : Value} {others : Ledger} {b b' : Bench}

theorem registerLine_eq (t : Bench.Twins listing source others b b') (name : String) :
    registerLine b' name = registerLine b name := by
  have same := t.alike.payload_eq name
  have heaps : b.heap.Repinned b'.heap := t.alike.heaps
  rw [Bench.payload_symbolic, Bench.payload_symbolic] at same
  rw [registerLine, registerLine, same, Payload.text_repinned heaps]

theorem registerLine_of_absent {name : String} (absent : name ∉ b.machine.names) :
    registerLine b name = name ++ " = nil" := by
  have none : b.machine.get? name = none := by
    rwa [← Machine.get?_isSome, Option.not_isSome_iff_eq_none] at absent
  have text : b.heap.write .nil = "nil" := Heap.print_eq .write .nil
  have shown : (Payload.value .nil).text b.heap = "nil" := text
  rw [registerLine, none, Option.getD_none, shown, String.append_assoc]
  rfl

theorem shows_of_twins {extra : List String} (t : Bench.Twins listing source others b b')
    (names : b'.machine.names.Perm (b.machine.names ++ extra))
    (absent : ∀ name ∈ extra, name ∉ b.machine.names) : Shows extra b b' where
  get?_eq name payload found := by
    have same := t.alike.payload_eq name
    rw [Bench.payload_symbolic, Bench.payload_symbolic, found, Option.getD_some] at same
    have known : name ∈ b.machine.names := (Machine.get?_isSome _ name).1 (found ▸ rfl)
    have known' : (b'.machine.get? name).isSome :=
      (Machine.get?_isSome _ name).2 (names.mem_iff.2 (List.mem_append_left extra known))
    obtain ⟨payload', found'⟩ := Option.isSome_iff_exists.1 known'
    rw [found', Option.getD_some] at same
    exact ⟨same ▸ found', Payload.text_repinned t.alike.heaps payload⟩
  stats_eq := t.alike.stats_eq
  lines := by
    have last : b'.machine.stats = b.machine.stats := t.alike.stats_eq
    refine ⟨_, _, _, stateLines_eq t.stands.single, last ▸ stateLines_eq t.stands'.single, ?_⟩
    have extras : extra.map (registerLine b) = extra.map (· ++ " = nil") :=
      List.map_congr_left fun name member => registerLine_of_absent (absent name member)
    rw [funext (registerLine_eq t), ← extras, ← List.map_append]
    exact names.map _
  printed_eq := t.alike.heaps.printed_eq

end Showing

/-! ## The command -/

section Command

variable {options : Options} {text : String} {h h₁ heap : Heap} {program : Value}
  {machine : Machine} {b : Bench}

theorem obeys_readProgram {ready : Heap → Env → Prop} {whole inside : Heap → Heap → Prop}
    (c : Conduct ready whole inside) (h : Heap) (text : String) :
    HeapM.Obeys whole h (readProgram text) :=
  .bind c.along (.mapError (c.obeys_readAll h text) _) fun forms h' _ =>
    .mapError (c.obeys_list h' forms) _

/-- Nothing is pinned on a heap that nothing has happened to but reading. -/
theorem accounts_of_readProgram {capacity : Nat} (standard : Heap.standard capacity = .ok h)
    (read : readProgram text h = .ok program h₁) : h₁.Accounts [] ∧ h₁.MarksClear := by
  have comes {ready : Heap → Env → Prop} {whole inside : Heap → Heap → Prop}
      (c : Conduct ready whole inside) : whole (Heap.empty capacity) h₁ := by
    have reads := obeys_readProgram c h text
    unfold HeapM.Obeys Heap.Operation.heapAfter at reads
    rw [read] at reads
    exact c.along.trans (c.whole_standard standard) reads
  have level := comes conduct_level
  exact ⟨(Heap.Accounts.empty capacity).of_eq level.pins_eq level.freePins_eq,
    (comes conduct_leads).marksClear (Heap.wellFormed_empty capacity).marksClear⟩

/-- A text of phrases is read as the list of their trees. -/
theorem exists_readProgram {ps : List Phrase}
    (spelled : Lexeme.meaningful text = Phrase.lexemesOf ps) (w : h.WellFormed)
    (room : h.live + 3 * (Lexeme.meaningful text).length + ps.length ≤ h.capacity) :
    ∃ program h₁, readProgram text h = .ok program h₁ ∧
      h₁.Depicts program (Tree.nil.after (Phrase.treesOf ps)) := by
  obtain ⟨forms, h', read, depicted, w', left⟩ := Reader.exists_readAll spelled w room
  have count (ps : List Phrase) : (Phrase.treesOf ps).length = ps.length := by
    induction ps with
    | nil => rfl
    | cons p ps ih => rw [Phrase.treesOf, List.length_cons, List.length_cons, ih]
  rw [← count ps, ← depicted.length_eq] at left
  obtain ⟨program, h₁, listed, -⟩ := HeapM.fits_list forms h' left
  have depicts := HeapM.keeps_listOf w' depicted
  unfold HeapM.Keeps at depicts
  rw [listed] at depicts
  refine ⟨program, h₁, ?_, depicts.2⟩
  unfold readProgram
  simp only [Bind.bind, EStateM.bind, HeapM.mapError, read, listed]

section Ending

variable (standard : Heap.standard options.capacity = .ok h)
  (read : readProgram text h = .ok program h₁)
  (assembled : Bench.assemble (setup options) program h₁ = .ok machine heap)
  {out : Sink} (path : String)
include standard read assembled

theorem source_of_ok (ran : Bench.run ⟨machine, heap⟩ = .ok () b)
    (taken : Takes out (stateLines b.machine b.heap)) :
    source path text options out =
      { status := 0
        out := (writeLines out (stateLines b.machine b.heap)).2
        err := ""
        journal := b.release.journal } := by
  unfold source execute
  simp only [standard, Bind.bind, EStateM.bind, HeapM.mapError, read, assembled, ran,
    writeLines_fst_iff.2 taken]

theorem source_of_refused (ran : Bench.run ⟨machine, heap⟩ = .ok () b)
    (refused : ¬Takes out (stateLines b.machine b.heap)) :
    source path text options out =
      { status := Failure.output.status
        out := (writeLines out (stateLines b.machine b.heap)).2
        err := Failure.output.report path text
        journal := b.release.journal } := by
  unfold source execute
  simp only [standard, Bind.bind, EStateM.bind, HeapM.mapError, read, assembled, ran,
    writeLines_of_refused refused]

theorem source_of_error {e : MachineError} (ran : Bench.run ⟨machine, heap⟩ = .error e b) :
    source path text options out =
      { status := (Failure.machine e).status
        out := (writeLines out (stateLines b.machine b.heap)).2
        err := (Failure.machine e).report path text
        journal := b.release.journal } := by
  unfold source execute
  simp only [standard, Bind.bind, EStateM.bind, HeapM.mapError, read, assembled, ran]

end Ending

theorem Shows.differsInLines {extra : List String} {b' : Bench} (shows : Shows extra b b')
    (status : Int32) (out : Sink) (err : String) :
    DiffersInLines extra out
      { status, out := (writeLines out (stateLines b.machine b.heap)).2, err
        journal := b.release.journal }
      { status, out := (writeLines out (stateLines b'.machine b'.heap)).2, err
        journal := b'.release.journal } where
  status_eq := rfl
  err_eq := rfl
  written := ⟨_, _, shows.lines, rfl, rfl⟩
  printed_eq := by
    have released (b : Bench) : b.release.printed = b.heap.printed :=
      (Bench.repinned_release b).printed_eq
    exact (released b').trans (shows.printed_eq.trans (released b).symm)

/-- The lines that show a machine when it has run. -/
def linesAtEnd (b : Bench) : List String :=
  stateLines (Bench.left (Bench.run b)).machine (Bench.left (Bench.run b)).heap

/-- Running declares no register. -/
theorem matches_run {listing : Listing} {source : Value} {others : Ledger} {b b' : Bench}
    {extra : List String} (t : Bench.Twins listing source others b b')
    (names : b'.machine.names.Perm (b.machine.names ++ extra))
    (absent : ∀ name ∈ extra, name ∉ b.machine.names) :
    Matches (Shows extra) (Bench.run b) (Bench.run b') := by
  have kept (b : Bench) : (Bench.left (Bench.run b)).machine.names = b.machine.names :=
    (Machine.invariant_names _).run rfl
  -- Both runs are looked at by their ends alone from here on.
  have ends := t.run
  have same := kept b
  have same' := kept b'
  generalize Bench.run b = r at ends same
  generalize Bench.run b' = r' at ends same'
  have shows {c c' : Bench} (t : Bench.Twins listing source others c c')
      (same : c.machine.names = b.machine.names) (same' : c'.machine.names = b'.machine.names) :
      Shows extra c c' :=
    shows_of_twins t (same'.symm ▸ same.symm ▸ names) (same.symm ▸ absent)
  cases ends with
  | ok _ t => exact .ok () (shows t same same')
  | error e t => exact .error e (shows t same same')

theorem differsInLines_of_matches {options' : Options} {machine' : Machine} {heap' : Heap}
    {extra : List String} (standard : Heap.standard options.capacity = .ok h)
    (standard' : Heap.standard options'.capacity = .ok h)
    (read : readProgram text h = .ok program h₁)
    (assembled : Bench.assemble (setup options) program h₁ = .ok machine heap)
    (assembled' : Bench.assemble (setup options') program h₁ = .ok machine' heap')
    (ends : Matches (Shows extra) (Bench.run ⟨machine, heap⟩) (Bench.run ⟨machine', heap'⟩))
    (path : String) {out : Sink}
    (room : Takes out (linesAtEnd ⟨machine, heap⟩) → Takes out (linesAtEnd ⟨machine', heap'⟩)) :
    DiffersInLines extra out (source path text options out) (source path text options' out) := by
  unfold linesAtEnd at room
  generalize ran : Bench.run ⟨machine, heap⟩ = r at ends room
  generalize ran' : Bench.run ⟨machine', heap'⟩ = r' at ends room
  cases ends with
  | @ok _ b b' shows =>
      -- The lines of the first are among those of the second, so they take no more room.
      by_cases taken : Takes out (stateLines b'.machine b'.heap)
      · rw [source_of_ok standard read assembled path ran (shows.lines.takes taken),
          source_of_ok standard' read assembled' path ran' taken]
        exact shows.differsInLines _ out _
      · have refused : ¬Takes out (stateLines b.machine b.heap) := fun taken' =>
          taken (room taken')
        rw [source_of_refused standard read assembled path ran refused,
          source_of_refused standard' read assembled' path ran' taken]
        exact shows.differsInLines _ out _
  | error e shows =>
      rw [source_of_error standard read assembled path ran,
        source_of_error standard' read assembled' path ran']
      exact shows.differsInLines _ out _

/--
Watching a machine does not change what it computes. If a program can be assembled with nothing
watched, it can be whatever is traced and monitored. Both machines end in the same way, with the
same payloads, which are written the same, in all registers of the first, and with the same use of
the stack. Unless the added lines are what a stream does not take, the command has the same status
and the same report; and it writes the same lines, but that registers may come in another order, and
that those monitored which the program does not mention are there besides, with nil in them.
-/
theorem watching_changes_nothing (standard : Heap.standard options.capacity = .ok h)
    (read : readProgram text h = .ok program h₁)
    (assembled : Bench.assemble (setup options.unwatched) program h₁ = .ok machine heap) :
    ∃ machine' heap' extra,
      Bench.assemble (setup options) program h₁ = .ok machine' heap' ∧
      (extra.Nodup ∧
        ∀ name, name ∈ extra ↔ name ∈ options.monitor ∧ ¬h₁.Mentions program name) ∧
      Matches (Shows extra) (Bench.run ⟨machine, heap⟩) (Bench.run ⟨machine', heap'⟩) ∧
      ∀ path out,
        (Takes out (linesAtEnd ⟨machine, heap⟩) → Takes out (linesAtEnd ⟨machine', heap'⟩)) →
          DiffersInLines extra out (source path text options.unwatched out)
            (source path text options out) := by
  obtain ⟨accounts, clear⟩ := accounts_of_readProgram standard read
  obtain ⟨listing, machine', heap', assembled', t, all⟩ :=
    @Bench.exists_twins_of_assemble h₁ heap program (setup options) machine [] accounts clear
      assembled
  -- The second machine has the registers of the first and, each once, those that are asked for.
  let extra := (options.monitor.filter fun name => name ∉ machine.names).dedup
  have mem (name : String) : name ∈ extra ↔ name ∈ options.monitor ∧ name ∉ machine.names := by
    simp [extra]
  have absent : ∀ name ∈ extra, name ∉ machine.names := fun name member => ((mem name).1 member).2
  have names : machine'.names.Perm (machine.names ++ extra) := by
    have nodup : (machine.names ++ extra).Nodup :=
      t.stands.single.append (List.nodup_dedup _) fun name there member => absent name member there
    refine (List.perm_ext_iff_of_nodup t.stands'.single nodup).2 fun name => ?_
    have watched : name ∈ (setup options).monitored ↔ name ∈ options.monitor := Iff.rfl
    rw [all, watched, List.mem_append, mem]
    by_cases there : name ∈ machine.names
    · simp [there]
    · simp [there]
  have mentions (name : String) : name ∈ machine.names ↔ h₁.Mentions program name :=
    Bench.mem_names_of_assemble ⟨rfl, rfl⟩ assembled
  have ends := matches_run t names absent
  refine ⟨machine', heap', extra, assembled', ⟨List.nodup_dedup _, fun name => ?_⟩, ends, ?_⟩
  · rw [mem, mentions]
  · intro path out room
    have standard' : Heap.standard options.unwatched.capacity = .ok h := standard
    exact differsInLines_of_matches standard' standard read assembled assembled' ends path room

end Command

/-! ## A program that hands a value on -/

/-- Puts `t` into a register, and from there into another one by way of the stack. -/
def relay : String := "(assign x (const t)) (save x) (restore y)"

/-- Watches the second register of the program, and one that it does not mention. -/
def relayOptions : Options := { Options.default with monitor := ["y", "z"], trace := true }

namespace Relay

open Bench

def trees : List Tree :=
  let form (items : List Tree) : Tree := Tree.nil.after items
  let name (name : String) : Tree := .leaf (.symbol name)
  [form [name "assign", name "x", form [name "const", name "t"]],
    form [name "save", name "x"],
    form [name "restore", name "y"]]

def listing (datum : Value) (assign save restore : String) : Listing where
  labels := []
  lines := #[(assign, .assign "x" (.operand (.const datum))), (save, .save (.reg "x")),
    (restore, .restore "y")]

def assembled (source : Pin) (datum : Value) (assign save restore : String) : Program where
  source
  lines := #[⟨assign, .assign 0 (.const datum)⟩, ⟨save, .save (.register 0)⟩,
    ⟨restore, .restore 1⟩]
  labels := []

section Reading

variable {h : Heap} {source : Value}

theorem exists_phrases : ∃ ps : List Phrase,
    Lexeme.meaningful relay = Phrase.lexemesOf ps ∧ Phrase.treesOf ps = trees ∧ ps.length = 3 := by
  refine ⟨[
    .list ⟨⟨.opening, "(", ⟨0, 1⟩⟩, rfl⟩
      [.word ⟨⟨.atom, "assign", ⟨1, 7⟩⟩, rfl⟩, .word ⟨⟨.atom, "x", ⟨8, 9⟩⟩, rfl⟩,
        .list ⟨⟨.opening, "(", ⟨10, 11⟩⟩, rfl⟩
          [.word ⟨⟨.atom, "const", ⟨11, 16⟩⟩, rfl⟩, .word ⟨⟨.atom, "t", ⟨17, 18⟩⟩, rfl⟩]
          ⟨⟨.closing, ")", ⟨18, 19⟩⟩, rfl⟩]
      ⟨⟨.closing, ")", ⟨19, 20⟩⟩, rfl⟩,
    .list ⟨⟨.opening, "(", ⟨21, 22⟩⟩, rfl⟩
      [.word ⟨⟨.atom, "save", ⟨22, 26⟩⟩, rfl⟩, .word ⟨⟨.atom, "x", ⟨27, 28⟩⟩, rfl⟩]
      ⟨⟨.closing, ")", ⟨28, 29⟩⟩, rfl⟩,
    .list ⟨⟨.opening, "(", ⟨30, 31⟩⟩, rfl⟩
      [.word ⟨⟨.atom, "restore", ⟨31, 38⟩⟩, rfl⟩, .word ⟨⟨.atom, "y", ⟨39, 40⟩⟩, rfl⟩]
      ⟨⟨.closing, ")", ⟨40, 41⟩⟩, rfl⟩], ?_, ?_, ?_⟩
  · decide +kernel
  · rfl
  · rfl

theorem scan {elements : List Value} (spine : h.Spine source elements .nil)
    (depicted : List.Forall₂ h.Depicts elements trees) :
    ∃ datum assign save restore, h.IsNamed datum "t" ∧
      Listing.scan h source = .ok (listing datum assign save restore) := by
  have named {v : Value} {name : String} (leaf : h.Depicts v (.leaf (.symbol name))) :
      h.IsNamed v name := symbolName?_eq_some_iff.1 leaf.symbolName?
  have noLabel {v item : Value} {items : List Value} (spine : h.Spine v (item :: items) .nil) :
      h.symbolName? v = none := by
    rcases spine with _ | ⟨goes, _⟩
    rw [symbolName?, pair?_eq_some_iff.1 goes]
  obtain ⟨first, second, third, rfl⟩ := List.length_eq_three.1 depicted.length_eq
  rcases depicted with _ | ⟨assign, _ | ⟨save, _ | ⟨restore, _ | _⟩⟩⟩
  obtain ⟨_, assigning, depicted⟩ := assign.exists_spine
  rcases depicted with _ | ⟨head, _ | ⟨target, _ | ⟨value, _ | _⟩⟩⟩
  obtain ⟨_, constant, depicted⟩ := value.exists_spine
  rcases depicted with _ | ⟨tag, _ | ⟨datum, _ | _⟩⟩
  have assigns := (Instruction.parse_eq_ok_iff_shape assigning).2
    ⟨rfl, .assign (named head) (named target) (.const ⟨_, named tag, constant⟩)⟩
  obtain ⟨_, saving, depicted⟩ := save.exists_spine
  rcases depicted with _ | ⟨head, _ | ⟨target, _ | _⟩⟩
  have saves := (Instruction.parse_eq_ok_iff_shape saving).2
    ⟨rfl, .saveRegister (named head) (named target)⟩
  obtain ⟨_, restoring, depicted⟩ := restore.exists_spine
  rcases depicted with _ | ⟨head, _ | ⟨target, _ | _⟩⟩
  have restores := (Instruction.parse_eq_ok_iff_shape restoring).2
    ⟨rfl, .restore (named head) (named target)⟩
  refine ⟨_, h.write first, h.write second, h.write third, named datum,
    Listing.scan_eq_ok_iff.2 ⟨_, spine, ?_⟩⟩
  simp only [Listing.scanOnto, noLabel assigning, noLabel saving, noLabel restoring, assigns, saves,
    restores]
  rfl

theorem exists_program (w : h.WellFormed) (room : h.live + 51 ≤ h.capacity) :
    ∃ source h₁ datum assign save restore, readProgram relay h = .ok source h₁ ∧
      h₁.IsNamed datum "t" ∧
        Listing.scan h₁ source = .ok (listing datum assign save restore) := by
  obtain ⟨ps, spelled, same, three⟩ := exists_phrases
  have size : (Lexeme.meaningful relay).length = 16 := by decide +kernel
  obtain ⟨source, h₁, read, depicts⟩ := exists_readProgram spelled w (by omega)
  rw [same] at depicts
  obtain ⟨elements, spine, depicted⟩ := depicts.exists_spine
  obtain ⟨datum, assign, save, restore, named, scanned⟩ := scan spine depicted
  exact ⟨source, h₁, datum, assign, save, restore, read, named, scanned⟩

end Reading

section Running

variable {m : Machine} {h h' : Heap} {source datum : Value} {assign save restore : String}
  {first second : Register}

/-- A machine that runs the program and is at the instruction `pc`, after so many pushes. -/
structure Runs (m : Machine) (first second : Register) (datum : Value) (pc : Nat)
    (stack : Array Saved) (pushes : Nat) : Prop where
  state_eq : m.state = .running
  registers_eq : m.registers = #[first, second]
  program_eq : ∃ source assign save restore,
    m.program = some (assembled source datum assign save restore)
  pc_eq : m.pc = pc
  stack_eq : m.stack = stack
  trace_eq : m.trace = false
  stats_eq : m.stats = ⟨pushes, pushes, stack.size⟩
  room : ∃ limit, m.stackLimit = limit + 1

theorem step_assign (r : Runs m first second datum 0 #[] 0) :
    ∃ m' h', step ⟨m, h⟩ = .ok .running ⟨m', h'⟩ ∧
      Runs m' { first with payload := .value datum } second datum 1 #[] 0 := by
  obtain ⟨_, ops, _, flag, flagPin, _, _, _, _, _, _, executed⟩ := m
  obtain ⟨rfl, rfl, ⟨source, assign, save, restore, rfl⟩, rfl, rfl, rfl, rfl, limit, rfl⟩ := r
  exact ⟨_, _, rfl, rfl, rfl, ⟨source, assign, save, restore, rfl⟩, rfl, rfl, rfl, rfl, limit, rfl⟩

theorem step_save (r : Runs m first second datum 1 #[] 0) :
    ∃ m' h' pin, step ⟨m, h⟩ = .ok .running ⟨m', h'⟩ ∧
      Runs m' first second datum 2 #[⟨first.payload, pin⟩] 1 := by
  obtain ⟨_, ops, _, flag, flagPin, _, _, _, _, _, _, executed⟩ := m
  obtain ⟨rfl, rfl, ⟨source, assign, save, restore, rfl⟩, rfl, rfl, rfl, rfl, limit, rfl⟩ := r
  exact ⟨_, _, _, rfl, rfl, rfl, ⟨source, assign, save, restore, rfl⟩, rfl, rfl, rfl, rfl, limit,
    rfl⟩

theorem step_restore {saved : Saved} (r : Runs m first second datum 2 #[saved] 1) :
    ∃ b, step ⟨m, h⟩ = .ok .halted b ∧
      b.machine.registers = #[first, { second with payload := saved.payload }] ∧
      b.machine.stats = ⟨1, 1, 0⟩ := by
  obtain ⟨_, ops, _, flag, flagPin, _, _, _, _, _, _, executed⟩ := m
  obtain ⟨rfl, rfl, ⟨source, assign, save, restore, rfl⟩, rfl, rfl, rfl, rfl, limit, rfl⟩ := r
  exact ⟨_, rfl, rfl, rfl⟩

/-- The program in its place, with what it needs to run. -/
structure Installed (m : Machine) (datum : Value) (first second : Register) : Prop where
  state_eq : m.state = .installed
  registers_eq : m.registers = #[first, second]
  named : first.name = "x" ∧ second.name = "y"
  program_eq : ∃ source assign save restore,
    m.program = some (assembled source datum assign save restore)
  trace_eq : m.trace = false
  room : ∃ limit, m.stackLimit = limit + 1

theorem exists_run (i : Installed m datum first second) :
    ∃ b, Bench.run ⟨m, h⟩ = .ok () b ∧ b.machine.stats = ⟨1, 1, 0⟩ ∧
      b.machine.get? "y" = some (.value datum) := by
  rcases start_cases ⟨m, h⟩ m.trace with ⟨none, _⟩ | ⟨_, started⟩
  · obtain ⟨_, _, _, _, program⟩ := i.program_eq
    cases none.symm.trans program
  have outset : Runs (m.started m.trace) first second datum 0 #[] 0 :=
    ⟨rfl, i.registers_eq, i.program_eq, rfl, rfl, i.trace_eq, rfl, i.room⟩
  obtain ⟨m₁, h₁, ran₁, r₁⟩ := step_assign outset
  obtain ⟨m₂, h₂, pin, ran₂, r₂⟩ := step_save r₁
  obtain ⟨b, ran₃, registers, stats⟩ := step_restore r₂
  refine ⟨b, ?_, stats, ?_⟩
  · have long : longestRun = longestRun - 3 + 1 + 1 + 1 := by decide
    rw [run_of_start i.state_eq started, long, runFor_of_step ran₁, runFor_of_step ran₂,
      runFor_of_step ran₃]
    rfl
  · have place : b.machine.index? "y" = some 1 := by
      rw [Machine.index?_eq_findIdx?, registers]
      simp [i.named, List.findIdx?_cons]
    rw [Machine.get?, place, Option.map_some, Machine.read, registers]
    rfl

theorem exists_assembled
    (scanned : Listing.scan h source = .ok (listing datum assign save restore)) :
    ∃ machine heap first second,
      Bench.assemble (setup relayOptions.unwatched) source h = .ok machine heap ∧
        Installed machine datum first second := by
  let unwatched := setup relayOptions.unwatched
  let b : Bench := ⟨(build unwatched h).machine, ((build unwatched h).heap.pin source).2⟩
  let declared := (listing datum assign save restore).registers.foldl declare b
  have names : declared.machine.names = ["x", "y"] := names_declareAll b _
  obtain ⟨first, second, both⟩ :=
    List.length_eq_two.1 ((List.length_map _).symm.trans (congrArg List.length names))
  have registers : declared.machine.registers = #[first, second] := Array.ext' both
  have named : first.name = "x" ∧ second.name = "y" := by
    rw [Machine.names, both] at names
    simpa using names
  have resolved : (listing datum assign save restore).resolve (declared.naming []) =
      .ok (assembled ((build unwatched h).heap.pin source).1 datum assign save restore).lines := by
    have index? (name : String) : (declared.naming []).register? name =
        (#[first, second].map Register.name).findIdx? (· == name) := by
      rw [← registers]
      exact Machine.index?_eq_findIdx? _ name
    have x : (declared.naming []).register "x" = .ok 0 :=
      Naming.register_eq_ok_iff.2 (by simp [index?, named, List.findIdx?_cons])
    have y : (declared.naming []).register "y" = .ok 1 :=
      Naming.register_eq_ok_iff.2 (by simp [index?, named, List.findIdx?_cons])
    simp only [Listing.resolve, listing, List.mapM_toArray, List.mapM_cons, Naming.resolve,
      Naming.fetch, x, y]
    rfl
  have r : h.Repinned b.heap := Repinned.composes.trans (repinned_build unwatched h) (.pin _ _)
  have kept : declared.machine.trace = false ∧ declared.machine.stackLimit = 255 + 1 := by
    rw [show declared = List.foldl declare b _ from rfl, declareAll_eq]
    exact ⟨rfl, (fresh_build unwatched h).stackLimit_eq⟩
  exact ⟨_, _, first, second, assemble_eq_ok_iff.2 (install_eq_ok_iff.2
    ⟨listing datum assign save restore, _, scan_repinned r scanned, resolved, rfl⟩),
    rfl, registers, named, ⟨_, assign, save, restore, rfl⟩, kept.1, 255, kept.2⟩

end Running

end Relay

/--
Watched, the registers come in another order, and there is one more, which shows nil. The program
runs to its end and leaves `t` in the second of its registers either way.
-/
theorem watching_changes_nothing_relay : ∃ h h₁ program machine heap machine' heap' b b' datum,
    Heap.standard relayOptions.capacity = .ok h ∧ readProgram relay h = .ok program h₁ ∧
      Bench.assemble (setup relayOptions.unwatched) program h₁ = .ok machine heap ∧
      Bench.assemble (setup relayOptions) program h₁ = .ok machine' heap' ∧
      machine.names = ["x", "y"] ∧ machine'.names = ["y", "z", "x"] ∧
      Bench.run ⟨machine, heap⟩ = .ok () b ∧ Bench.run ⟨machine', heap'⟩ = .ok () b' ∧
      Shows ["z"] b b' ∧ b'.machine.stats = ⟨1, 1, 0⟩ ∧
      h₁.IsNamed datum "t" ∧ b'.machine.get? "y" = some (.value datum) ∧
      ∀ path, DiffersInLines ["z"] (Sink.ofLimit none)
        (source path relay relayOptions.unwatched (Sink.ofLimit none))
        (source path relay relayOptions (Sink.ofLimit none)) := by
  obtain ⟨h, standard, capacity, live⟩ :=
    Heap.standard_ok (show 102 ≤ relayOptions.capacity by decide)
  have enough : 1000 ≤ h.capacity := by
    rw [capacity]
    decide
  obtain ⟨program, h₁, datum, assign, save, restore, read, isT, scanned⟩ :=
    Relay.exists_program (Heap.wellFormed_standard standard) (by omega)
  obtain ⟨machine, heap, first, second, assembled, installed⟩ := Relay.exists_assembled scanned
  obtain ⟨b, ran, stats, handed⟩ := Relay.exists_run (h := heap) installed
  obtain ⟨machine', heap', extra, assembled', ⟨nodup, mem⟩, ends, sources⟩ :=
    @watching_changes_nothing relayOptions _ _ _ _ _ _ standard read assembled
  have r (setup : Setup) : h₁.Repinned ((Bench.build setup h₁).heap.pin program).2 :=
    Repinned.composes.trans (Bench.repinned_build setup h₁) (.pin _ _)
  have names : machine.names = ["x", "y"] :=
    Bench.names_install (Bench.assemble_eq_ok_iff.1 assembled) (Bench.scan_repinned (r _) scanned)
  have names' : machine'.names = ["y", "z", "x"] := by
    have both := Bench.names_install (Bench.assemble_eq_ok_iff.1 assembled')
      (Bench.scan_repinned (r _) scanned)
    rw [Bench.names_build] at both
    exact both
  have only : extra = ["z"] := by
    refine List.perm_singleton.1 ((List.perm_ext_iff_of_nodup nodup (List.nodup_singleton _)).2 ?_)
    intro name
    have watched : name ∈ relayOptions.monitor ↔ name = "y" ∨ name = "z" := by
      simp [relayOptions]
    rw [mem, ← Bench.mem_names_of_assemble ⟨rfl, rfl⟩ assembled, names, watched]
    simp only [List.mem_cons, List.not_mem_nil, or_false]
    grind
  subst only
  rw [ran] at ends
  generalize ran' : Bench.run ⟨machine', heap'⟩ = result at ends
  cases ends with
  | @ok _ _ b' shows =>
      exact ⟨h, h₁, program, machine, heap, machine', heap', b, b', datum, standard, read,
        assembled, assembled', names, names', ran, ran', shows, shows.stats_eq.trans stats, isT,
        (shows.get?_eq _ _ handed).1, fun path => sources path _ fun _ => .of_unlimited rfl _⟩

end MachineCommand

end Lisplet
