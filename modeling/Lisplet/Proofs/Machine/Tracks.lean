import Lisplet.Proofs.Heap.Outfit
import Lisplet.Proofs.Heap.Retention
import Lisplet.Proofs.Machine.Workshop

/-!
# Tracks — what a machine does to its heap

Apart from the operations it calls, a machine changes nothing in its heap but pins and the journal:
what it holds, and what it notes. An instruction calls its operation first, before any pin changes,
so what holds over the call holds over the instruction (`Heap.Wraps`, `Bench.tracks_executeNext`).
-/

namespace Lisplet

namespace Heap

/--
Relations that hold over an instruction if they hold over the call that it begins with, since
before it there is no more than a note and after it only pins change.
-/
structure Wraps (R : Heap → Heap → Prop) : Prop where
  alone {h h' : Heap} : h.Repinned h' → R h h'
  before {h h' : Heap} {notice : Notice} : R (h.note notice) h' → R h h'
  after {h h' h'' : Heap} : R h h' → h'.Repinned h'' → R h h''

theorem wraps_leads : Wraps Leads where
  alone r := r.leads
  before leads := composes_leads.trans (.reroot _ _ _) leads
  after leads r := composes_leads.trans leads r.leads

theorem wraps_amends (base : Heap) : Wraps base.Amends where
  alone r before := ⟨none, (before.retains none).congr r.object?_eq⟩
  before amends := fun before => amends <|
    before.transfer (before.roots.trans (.ofEq rfl rfl rfl rfl)) rfl rfl
  after amends r := amends.congr r.object?_eq

end Heap

open Heap

namespace Bench

variable {ε α β : Type}

/-! ## The machine's own effects -/

section Effects

variable (b : Bench)

theorem repinned_write (index : Nat) (payload : Payload) :
    b.heap.Repinned (b.write index payload).heap := by
  cases there : b.machine.registers[index]? with
  | none =>
      rw [write_of_none there]
      exact Repinned.composes.refl _
  | some register =>
      have repinned := Repinned.repin b.heap register.pin payload.held
      rw [write_eq there]
      dsimp only
      split
      · exact Repinned.composes.trans repinned (.note _ rfl)
      · exact repinned

theorem repinned_setFlag (value : Value) : b.heap.Repinned (b.setFlag value).heap :=
  .repin b.heap b.machine.flagPin value

theorem repinned_push (payload : Payload) : b.heap.Repinned (left (push payload b)).heap := by
  rcases push_cases payload b with ⟨-, step⟩ | ⟨-, step⟩
  · rw [step]
    exact Repinned.composes.refl _
  · rw [step]
    exact .pin b.heap payload.held

theorem repinned_restore (index : Nat) : b.heap.Repinned (left (restore index b)).heap := by
  rcases restore_cases index b with ⟨-, step⟩ | ⟨stack, saved, -, step⟩
  · rw [step]
    exact Repinned.composes.refl _
  · rw [step]
    let stats := { b.machine.stats with currentDepth := stack.size }
    have written := repinned_write ⟨{ b.machine with stack, stats }, b.heap⟩ index saved.payload
    exact Repinned.composes.trans written (.unpin _ saved.pin)

theorem repinned_reset : b.heap.Repinned b.reset.heap := by
  rw [reset_eq]
  exact Repinned.composes.trans (.unpinAll b.heap b.machine.stack.toList Saved.pin)
    (.repin _ b.machine.flagPin .nil)

theorem repinned_declareAll (names : List String) :
    b.heap.Repinned (names.foldl declare b).heap := by
  rw [declareAll_eq]
  exact .of_pins b.heap _ _

theorem heap_monitor (index : Nat) : (b.monitor index).heap = b.heap := by
  cases there : b.machine.registers[index]? with
  | none => rw [monitor_of_none there]
  | some register => rw [monitor_eq there]

theorem repinned_dropProgram : b.heap.Repinned b.dropProgram.heap := by
  rw [dropProgram_eq]
  cases b.machine.program with
  | none => exact Repinned.composes.refl _
  | some program => exact .unpin b.heap program.source

theorem repinned_release : b.heap.Repinned b.release := by
  have dropped := repinned_dropProgram b
  have cleared := Repinned.composes.trans dropped (repinned_reset b.dropProgram)
  have given := Repinned.composes.trans cleared
    (.unpin b.dropProgram.reset.heap b.dropProgram.reset.machine.flagPin)
  rw [release_eq]
  exact Repinned.composes.trans given (.unpinAll _ _ Register.pin)

/-- Assembly reads the heap, but all it changes there are pins. -/
theorem repinned_install (program : Value) :
    b.heap.Repinned (left (install program b)).heap := by
  have pinned := Repinned.pin b.heap program
  have declared (names : List String) :
      b.heap.Repinned (names.foldl declare ⟨b.machine, (b.heap.pin program).2⟩).heap :=
    Repinned.composes.trans pinned (repinned_declareAll ⟨b.machine, _⟩ names)
  rw [install_eq]
  rcases assembleLines_cases program (b.heap.pin program).1 ⟨b.machine, (b.heap.pin program).2⟩ with
    ⟨e, -, failed⟩ | ⟨listing, b', -, rfl, ⟨e, -, failed⟩ | ⟨lines, -, assembled⟩⟩
  · rw [failed]
    exact Repinned.composes.trans pinned (.unpin _ _)
  · rw [failed]
    exact Repinned.composes.trans (declared listing.registers) (.unpin _ _)
  · rw [assembled]
    exact Repinned.composes.trans (declared listing.registers) (repinned_dropProgram _)

theorem repinned_declareMonitored (names : List String) :
    b.heap.Repinned (names.foldl declareMonitored b).heap := by
  induction names generalizing b with
  | nil => exact Repinned.composes.refl _
  | cons name names ih =>
      have first : b.heap.Repinned (b.declareMonitored name).heap := by
        have declared := repinned_declareAll b [name]
        unfold declareMonitored
        dsimp only
        split
        · rw [heap_monitor]
          exact declared
        · exact declared
      exact Repinned.composes.trans first (ih _)

end Effects

theorem repinned_build (setup : Setup) (h : Heap) : h.Repinned (build setup h).heap := by
  have pinned := Repinned.pin h .nil
  have declared := Repinned.composes.trans pinned
    (repinned_declareAll (empty setup.stackLimit setup.operations h)
      (setup.registers ++ setup.monitored))
  exact Repinned.composes.trans declared (repinned_declareMonitored _ setup.monitored)

theorem repinned_assemble (setup : Setup) (program : Value) (h : Heap) :
    h.Repinned (Operation.heapAfter (assemble setup program) h) := by
  have built := repinned_build setup h
  have installed := repinned_install (build setup h) program
  unfold Operation.heapAfter assemble
  cases ran : install program (build setup h) with
  | ok _ b' =>
      rw [ran] at installed
      exact Repinned.composes.trans built installed
  | error e b' =>
      rw [ran] at installed
      exact Repinned.composes.trans (Repinned.composes.trans built installed) (repinned_release b')

/-! ## Instructions -/

/-- Whatever an operation of a machine ends with, `R` holds between the heaps before and after. -/
def Tracks (R : Heap → Heap → Prop) (op : BenchM ε α) : Prop :=
  ∀ b : Bench, R b.heap (left (op b)).heap

namespace Tracks

variable {R : Heap → Heap → Prop} {op : BenchM ε α} {next : α → BenchM ε β}

theorem pure (c : Composes R) (a : α) : Tracks R (Pure.pure a : BenchM ε α) :=
  fun b => c.refl b.heap

theorem throw (c : Composes R) (e : ε) : Tracks R (throw e : BenchM ε α) :=
  fun b => c.refl b.heap

theorem modify {f : Bench → Bench} (changes : ∀ b, R b.heap (f b).heap) :
    Tracks R (modify f : BenchM ε Unit) := changes

theorem get_bind {f : Bench → BenchM ε β} (tracks : ∀ b, Tracks R (f b)) :
    Tracks R (get >>= f) := fun b => tracks b b

theorem bind_of {S T : Heap → Heap → Prop} (first : Tracks R op)
    (continues : ∀ a, Tracks S (next a)) (joins : ∀ {h h' h''}, R h h' → S h' h'' → T h h'')
    (alone : ∀ {h h'}, R h h' → T h h') : Tracks T (op >>= next) := by
  intro b
  have began := first b
  simp only [Bind.bind, EStateM.bind]
  rcases step : op b with ⟨a, b'⟩ | ⟨e, b'⟩
  · rw [step] at began
    exact joins began (continues a b')
  · rw [step] at began
    exact alone began

theorem bind (c : Composes R) (first : Tracks R op) (continues : ∀ a, Tracks R (next a)) :
    Tracks R (op >>= next) := bind_of first continues c.trans id

/-- Once nothing is done any more but to change pins, the relation holds. -/
theorem bind_repinned (w : Wraps R) (first : Tracks R op)
    (continues : ∀ a, Tracks Repinned (next a)) : Tracks R (op >>= next) :=
  bind_of first continues w.after id

end Tracks

/-- The machine itself is left alone by a call, whatever the operation does to the heap. -/
theorem tracks_call {R : Heap → Heap → Prop} (refl : ∀ h, R h h) (c : Call)
    (calls : ∀ h values, HeapM.Obeys R h (HeapM.scope do
      let args ← HeapM.list values
      HeapM.root args
      Callable.call c.operation args)) : Tracks R (call c) := by
  refine .get_bind fun b => ?_
  split
  · exact fun b => refl b.heap
  · next values _ =>
    intro b
    have obeys := calls b.heap values
    unfold HeapM.Obeys Heap.Operation.heapAfter at obeys
    unfold onHeap
    dsimp only
    split
    · next ran =>
      rw [ran] at obeys
      exact obeys
    · next ran =>
      rw [ran] at obeys
      exact obeys

section Instructions

variable {R : Heap → Heap → Prop} (w : Wraps R) (calls : ∀ c, Tracks R (call c))
include w calls

/-- The operation of an instruction is called before the instruction changes a pin. -/
theorem tracks_execute (code : Code) : Tracks R (execute code) := by
  have same {f : Bench → Bench} (heap : ∀ b, (f b).heap = b.heap) :
      Tracks Repinned (modify f : BenchM MachineError Unit) :=
    .modify fun b => heap b ▸ Repinned.composes.refl _
  have only {op : BenchM MachineError Unit} (tracks : Tracks Repinned op) : Tracks R op :=
    fun b => w.alone (tracks b)
  cases code with
  | assign register source => exact only (.modify fun b => repinned_write b _ _)
  | assignCall register c =>
      exact .bind_repinned w (calls c) fun _ => .modify fun b => repinned_write b _ _
  | test c =>
      exact .bind_repinned w (calls c) fun value => .modify fun b => repinned_setFlag b value
  | branch target =>
      refine only (same fun b => ?_)
      split
      · rfl
      · rfl
  | jump target => exact only (same fun _ => rfl)
  | jumpRegister register =>
      refine only (.get_bind fun b => ?_)
      split
      · exact same fun _ => rfl
      · exact .get_bind fun b => .throw Repinned.composes _
  | perform c => exact .bind_repinned w (calls c) fun _ => same fun _ => rfl
  | save source =>
      refine only (.get_bind fun b => .bind Repinned.composes (repinned_push · _) fun _ => ?_)
      exact same fun _ => rfl
  | restore register =>
      exact only (.bind Repinned.composes (repinned_restore · register) fun _ => same fun _ => rfl)

omit w calls in
theorem heap_haltAtEnd (b : Bench) : b.haltAtEnd.heap = b.heap := by
  unfold haltAtEnd
  dsimp only
  split
  · rfl
  · rfl

theorem tracks_executeNext : Tracks R executeNext := by
  have halts : Tracks Repinned (modify haltAtEnd : BenchM MachineError Unit) :=
    .modify fun b => (heap_haltAtEnd b).symm ▸ Repinned.composes.refl _
  have counts : Tracks Repinned (modify countExecuted : BenchM MachineError Unit) :=
    .modify fun b => Repinned.composes.refl _
  refine .get_bind fun b => ?_
  split
  · next line _ =>
    have executes : Tracks R (execute line.code >>= fun _ => do
        modify countExecuted
        modify haltAtEnd) :=
      .bind_repinned w (tracks_execute w calls line.code) fun _ =>
        .bind Repinned.composes counts fun _ => halts
    intro b
    have rest := executes (b.noteExecuting line)
    have noted : (b.noteExecuting line).heap = b.heap ∨
        ∃ notice, (b.noteExecuting line).heap = b.heap.note notice := by
      unfold noteExecuting
      dsimp only
      split
      · exact .inr ⟨_, rfl⟩
      · exact .inl rfl
    rcases noted with same | ⟨notice, same⟩
    · rw [same] at rest
      exact rest
    · rw [same] at rest
      exact w.before rest
  · exact fun b => w.alone (halts b)

end Instructions

/-! ## Requests -/

theorem leads_executeNext : Tracks Leads executeNext := by
  refine tracks_executeNext wraps_leads fun c => tracks_call (fun _ => .refl) c fun h values => ?_
  have conduct := conduct_leads
  refine conduct.scope (.bind conduct.within (conduct.partly (conduct.obeys_list _ values)) ?_)
  exact fun args h' _ => conduct.root_bind (conduct.partly (conduct.obeys_call _ _ args))

/-- An instruction alters one object at most, and that after all collections that it takes. -/
theorem amends_executeNext (base : Heap) : Tracks base.Amends executeNext :=
  tracks_executeNext (wraps_amends base) fun c =>
    tracks_call (fun _ before => ⟨none, before.retains none⟩) c fun h values =>
      HeapM.amends_call_list h c.operation values

theorem repinned_start (trace : Bool) : Tracks Repinned (start trace) := by
  have c := Repinned.composes
  refine .get_bind fun b => ?_
  dsimp only
  split
  · exact .bind c (.throw c _) fun _ => .modify fun b => repinned_reset b
  · exact .modify fun b => repinned_reset b

theorem leads_start (trace : Bool) : Tracks Leads (start trace) :=
  fun b => (repinned_start trace b).leads

theorem leads_step : Tracks Leads step := by
  refine .get_bind fun b => ?_
  split
  · exact .throw composes_leads _
  · exact .pure composes_leads _
  · exact .get_bind fun b => .bind composes_leads (leads_start _) fun _ =>
      .bind composes_leads leads_executeNext fun _ => .get_bind fun b => .pure composes_leads _
  · exact .bind composes_leads leads_executeNext fun _ => .get_bind fun b => .pure composes_leads _

theorem leads_runFor (steps : Nat) : Tracks Leads (runFor steps) := by
  induction steps with
  | zero => exact .pure composes_leads ()
  | succ steps ih =>
      refine .bind composes_leads leads_step fun state => ?_
      split
      · exact .pure composes_leads ()
      · exact ih

theorem leads_run : Tracks Leads run := by
  refine .get_bind fun b => ?_
  dsimp only
  split
  · exact .get_bind fun b => .bind composes_leads (leads_start _) fun _ => leads_runFor _
  · exact leads_runFor _

end Bench

/-- Whether a request may have instructions executed. -/
def Request.executes : Request → Bool
  | .step | .run => true
  | _ => false

/-- All other requests change nothing in the heap but pins and the journal. -/
theorem Tenant.repinned_ask (tenant : Tenant) {request : Request}
    (still : request.executes = false) (h : Heap) : h.Repinned (tenant.ask request h).2 := by
  have c := Repinned.composes
  cases request with
  | declare name => exact Bench.repinned_declareAll ⟨tenant.machine, h⟩ [name]
  | setRegister name payload =>
      have sets : Bench.Tracks Repinned (Bench.setRegister name payload) := by
        refine .get_bind fun b => ?_
        split
        · exact .modify fun b => Bench.repinned_write b _ _
        · exact .throw c _
      exact sets ⟨tenant.machine, h⟩
  | monitor name =>
      have monitors : Bench.Tracks Repinned (Bench.monitorRegister name) := by
        refine .get_bind fun b => ?_
        split
        · exact .modify fun b => (Bench.heap_monitor b _).symm ▸ c.refl _
        · exact .throw c _
      exact monitors ⟨tenant.machine, h⟩
  | trace on => exact c.refl h
  | install program =>
      have installed := Bench.repinned_install ⟨tenant.machine, h⟩ program
      unfold Tenant.ask
      dsimp only
      rcases ran : Bench.install program ⟨tenant.machine, h⟩ with ⟨_, b⟩ | ⟨e, b⟩
      · rw [ran] at installed
        exact installed
      · rw [ran] at installed
        exact installed
  | start trace => exact Bench.repinned_start trace ⟨tenant.machine, h⟩
  | step | run => cases still

/-- Whatever is asked of a machine, its heap comes of the one before by changes and collections. -/
theorem Tenant.leads_ask (tenant : Tenant) (request : Request) (h : Heap) :
    h.Leads (tenant.ask request h).2 := by
  cases request with
  | step => exact Bench.leads_step ⟨tenant.machine, h⟩
  | run => exact Bench.leads_run ⟨tenant.machine, h⟩
  | _ => exact (tenant.repinned_ask rfl h).leads

end Lisplet
