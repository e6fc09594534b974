import Lisplet.Proofs.Balance
import Lisplet.Proofs.Heap.Pins
import Lisplet.Proofs.Machine.Assembled
import Lisplet.Proofs.Machine.Effects

/-!
# Holdings — the pins of a machine
-/

namespace Lisplet

def Register.holding (register : Register) : Pin × Value := (register.pin, register.payload.held)

def Saved.holding (saved : Saved) : Pin × Value := (saved.pin, saved.payload.held)

/--
The pins that a machine has, with what they are to hold: its flag, its registers, the entries of
its stack, and the list `source` that its program was assembled from, if it has one.
-/
def Machine.holdings (m : Machine) (source : Value) : Heap.Ledger :=
  (m.flagPin, m.flag) ::
    (m.registers.toList.map Register.holding ++
      (m.stack.toList.map Saved.holding ++
        m.program.toList.map fun program => (program.source, source)))

namespace Machine

section Holdings

variable {m : Machine} (source : Value) (others : Heap.Ledger)

/-- A register's entry can be picked out, and another register in its place takes it over. -/
theorem holdings_register {index : Nat} {register : Register}
    (there : m.registers[index]? = some register) :
    ∃ before after, m.holdings source ++ others = before ++ register.holding :: after ∧
      ∀ register' : Register,
        { m with
            registers := m.registers.setIfInBounds index register' }.holdings source ++ others =
          before ++ register'.holding :: after := by
  have inside : index < m.registers.toList.length := (Array.getElem?_eq_some_iff.1 there).1
  have found : m.registers.toList[index] = register := (Array.getElem?_eq_some_iff.1 there).2
  obtain ⟨earlier, later, split, length, -⟩ : ∃ earlier later,
      m.registers.toList = earlier ++ m.registers.toList[index] :: later ∧
        earlier.length = index ∧
          m.registers.toList.set index register = earlier ++ register :: later :=
    List.exists_of_set inside
  rw [found] at split
  refine ⟨(m.flagPin, m.flag) :: earlier.map Register.holding,
    later.map Register.holding ++ (m.stack.toList.map Saved.holding ++
      (m.program.toList.map (fun program => (program.source, source)) ++ others)), ?_, ?_⟩
  · simp [holdings, split]
  · intro register'
    simp [holdings, split, ← length]

theorem holdings_pushRegister (register : Register) :
    ({ m with registers := m.registers.push register }.holdings source ++ others).Perm
      (register.holding :: (m.holdings source ++ others)) := by
  have middle : (((m.flagPin, m.flag) :: m.registers.toList.map Register.holding) ++
      register.holding :: (m.stack.toList.map Saved.holding ++
        (m.program.toList.map (fun program => (program.source, source)) ++ others))).Perm _ :=
    List.perm_middle
  simpa [holdings] using middle

theorem holdings_pushSaved (stack : Array Saved) (saved : Saved)
    (whole : m.stack = stack.push saved) :
    (m.holdings source ++ others).Perm
      (saved.holding :: ({ m with stack }.holdings source ++ others)) := by
  have middle : (((m.flagPin, m.flag) :: (m.registers.toList.map Register.holding ++
      stack.toList.map Saved.holding)) ++ saved.holding ::
        (m.program.toList.map (fun program => (program.source, source)) ++ others)).Perm _ :=
    List.perm_middle
  simpa [holdings, whole] using middle

theorem holdings_stack :
    (m.holdings source ++ others).Perm
      (m.stack.toList.map Saved.holding ++
        ({ m with stack := #[] }.holdings source ++ others)) := by
  have swapped := List.perm_append_comm_assoc
    ((m.flagPin, m.flag) :: m.registers.toList.map Register.holding)
    (m.stack.toList.map Saved.holding)
    (m.program.toList.map (fun program => (program.source, source)) ++ others)
  simpa [holdings] using swapped

theorem holdings_program {program : Program} (installed : m.program = some program) :
    (m.holdings source ++ others).Perm
      ((program.source, source) :: ({ m with program := none }.holdings source ++ others)) := by
  have middle : (((m.flagPin, m.flag) :: (m.registers.toList.map Register.holding ++
      m.stack.toList.map Saved.holding)) ++ (program.source, source) :: others).Perm _ :=
    List.perm_middle
  simpa [holdings, installed] using middle

theorem mem_holdings_of_saved {saved : Saved} (member : saved ∈ m.stack) :
    saved.holding ∈ m.holdings source := by
  have listed : saved.holding ∈ m.stack.toList.map Saved.holding :=
    List.mem_map_of_mem (Array.mem_toList_iff.2 member)
  exact List.mem_cons_of_mem _ (List.mem_append_right _ (List.mem_append_left _ listed))

end Holdings

end Machine

namespace Bench

/-- The pins held on the heap are those of the machine and those in a ledger of others. -/
def Accounts (b : Bench) (source : Value) (others : Heap.Ledger) : Prop :=
  b.heap.Accounts (b.machine.holdings source ++ others)

section Effects

variable {b : Bench} {source : Value} {others : Heap.Ledger}

/-- A step of the heap that leaves the pins alone. -/
theorem Accounts.level (a : b.Accounts source others) {h : Heap} (level : b.heap.Level h) :
    Accounts ⟨b.machine, h⟩ source others :=
  a.of_eq level.pins_eq level.freePins_eq

theorem Accounts.write (a : b.Accounts source others) (index : Nat) (payload : Payload) :
    (b.write index payload).Accounts source others := by
  cases there : b.machine.registers[index]? with
  | none =>
      rw [write_of_none there]
      exact a
  | some register =>
      obtain ⟨before, after, split, taken⟩ := Machine.holdings_register source others there
      have held : b.heap.Accounts (register.holding :: (before ++ after)) :=
        Heap.Accounts.perm (split ▸ a) List.perm_middle
      have repinned : (b.heap.repin register.pin payload.held).Accounts
          (before ++ { register with payload }.holding :: after) :=
        (held.repin payload.held).perm List.perm_middle.symm
      rw [← taken] at repinned
      rw [write_eq there]
      unfold Accounts
      dsimp only
      split
      · exact repinned.of_eq rfl rfl
      · exact repinned

theorem Accounts.setFlag (a : b.Accounts source others) (value : Value) :
    (b.setFlag value).Accounts source others :=
  Heap.Accounts.repin a value

theorem Accounts.declare (a : b.Accounts source others) (name : String) :
    (b.declare name).Accounts source others := by
  cases found : b.machine.index? name with
  | some index =>
      rw [declare_of_some found]
      exact a
  | none =>
      let register : Register :=
        { name, payload := .value .nil, pin := (b.heap.pin .nil).1, monitored := false }
      rw [declare_of_none found]
      exact (Heap.Accounts.pin a .nil).perm
        (Machine.holdings_pushRegister source others register).symm

theorem Accounts.declareAll (a : b.Accounts source others) (names : List String) :
    (names.foldl Bench.declare b).Accounts source others := by
  induction names generalizing b with
  | nil => exact a
  | cons name names ih => exact ih (a.declare name)

/-- Monitoring changes nothing that a register holds. -/
theorem Accounts.monitor (a : b.Accounts source others) (index : Nat) :
    (b.monitor index).Accounts source others := by
  cases there : b.machine.registers[index]? with
  | none =>
      rw [monitor_of_none there]
      exact a
  | some register =>
      obtain ⟨before, after, split, taken⟩ := Machine.holdings_register source others there
      have same := taken { register with monitored := true }
      rw [monitor_eq there]
      unfold Accounts
      dsimp only
      rw [same]
      exact split ▸ a

theorem Accounts.push (a : b.Accounts source others) (payload : Payload) :
    (left (push payload b)).Accounts source others := by
  rcases push_cases payload b with ⟨-, step⟩ | ⟨-, step⟩
  · rw [step]
    exact a
  · rw [step]
    have pinned := Heap.Accounts.pin a payload.held
    refine pinned.perm (.symm ?_)
    exact Machine.holdings_pushSaved source others b.machine.stack ⟨payload, _⟩ rfl

theorem Accounts.restore (a : b.Accounts source others) (index : Nat) :
    (left (restore index b)).Accounts source others := by
  rcases restore_cases index b with ⟨-, step⟩ | ⟨stack, saved, whole, step⟩
  · rw [step]
    exact a
  · rw [step]
    -- Until it is given back, the pin of the entry is one that others have.
    let popped : Bench :=
      ⟨{ b.machine with stack, stats := { b.machine.stats with currentDepth := stack.size } },
        b.heap⟩
    have lent : popped.Accounts source (saved.holding :: others) :=
      Heap.Accounts.perm a ((Machine.holdings_pushSaved source others stack saved whole).trans
        List.perm_middle.symm)
    exact ((lent.write index saved.payload).perm List.perm_middle).unpin

theorem Accounts.reset (a : b.Accounts source others) : b.reset.Accounts source others := by
  rw [reset_eq]
  refine Accounts.setFlag ?_ .nil
  have given := Heap.Accounts.unpinAll (Heap.Accounts.perm a (Machine.holdings_stack source others))
  rw [List.foldl_map] at given
  exact given

theorem Accounts.dropProgram (a : b.Accounts source others) :
    Accounts ⟨{ b.machine with program := none }, b.dropProgram.heap⟩ source others := by
  rw [dropProgram_eq]
  cases installed : b.machine.program with
  | none =>
      have same : { b.machine with program := none }.holdings source =
          b.machine.holdings source := by
        simp [Machine.holdings, installed]
      unfold Accounts
      rw [same]
      exact a
  | some program =>
      exact (Heap.Accounts.perm a (Machine.holdings_program source others installed)).unpin

/-- A machine that gives everything back leaves what others have. -/
theorem Accounts.release (a : b.Accounts source others) : b.release.Accounts others := by
  let idle : Bench := ⟨{ b.machine with program := none }, b.dropProgram.heap⟩
  have cleared : idle.reset.Accounts source others := a.dropProgram.reset
  have listed : idle.reset.machine.holdings source ++ others =
      (b.machine.flagPin, .nil) :: (b.machine.registers.toList.map Register.holding ++ others) := by
    simp [idle, reset_eq, Bench.setFlag, Machine.holdings]
  unfold Accounts at cleared
  rw [listed] at cleared
  have given := cleared.unpin.unpinAll
  rw [List.foldl_map] at given
  have machine : b.dropProgram = ⟨b.machine, b.dropProgram.heap⟩ := by rw [dropProgram_eq]
  rw [release_eq, machine]
  exact given

end Effects

/-! ## Setting up and assembling -/

section Assembly

variable {h : Heap} {b : Bench} {source : Value} {others : Heap.Ledger}

theorem accounts_build (a : h.Accounts others) (setup : Setup) :
    (build setup h).Accounts source others := by
  have empty : (empty setup.stackLimit setup.operations h).Accounts source others := a.pin .nil
  have declared := empty.declareAll (setup.registers ++ setup.monitored)
  have monitored : ∀ (names : List String) (b : Bench), b.Accounts source others →
      (names.foldl declareMonitored b).Accounts source others := by
    intro names
    induction names with
    | nil => exact fun b a => a
    | cons name names ih =>
        intro b a
        refine ih _ ?_
        unfold declareMonitored
        dsimp only
        split
        · exact (a.declare name).monitor _
        · exact a.declare name
  exact monitored setup.monitored _ declared

/-- The list of a program is pinned while it is assembled, and stays pinned if it is installed. -/
theorem accounts_install (a : b.Accounts source others) (program : Value) :
    match install program b with
    | .ok _ b' => b'.Accounts program others
    | .error _ b' => b'.Accounts source others := by
  let pin := (b.heap.pin program).1
  let pinned : Bench := ⟨b.machine, (b.heap.pin program).2⟩
  have lent : pinned.Accounts source ((pin, program) :: others) :=
    (Heap.Accounts.pin a program).perm List.perm_middle.symm
  -- Whatever the assembly has come to, its failure gives the pin back.
  have abandoned (b' : Bench) (a' : b'.Accounts source ((pin, program) :: others)) :
      Accounts ⟨b'.machine, b'.heap.unpin pin⟩ source others :=
    (Heap.Accounts.perm a' List.perm_middle).unpin
  rw [install_eq]
  rcases assembleLines_cases program pin pinned with ⟨e, -, failed⟩ |
    ⟨listing, b', -, declared, ⟨e, -, failed⟩ | ⟨lines, -, assembled⟩⟩
  · rw [failed]
    exact abandoned pinned lent
  · rw [failed]
    rw [declared]
    exact abandoned _ (lent.declareAll listing.registers)
  · rw [assembled]
    have a' : b'.Accounts source ((pin, program) :: others) := by
      rw [declared]
      exact lent.declareAll listing.registers
    let installed : Machine :=
      { b'.machine with
        program := some { source := pin, lines, labels := listing.labels }, state := .installed }
    have taken := Machine.holdings_program (m := installed) program others rfl
    exact Heap.Accounts.perm a'.dropProgram (List.perm_middle.trans taken.symm)

theorem accounts_assemble (a : h.Accounts others) (setup : Setup) (program : Value) :
    match assemble setup program h with
    | .ok machine h' => Accounts ⟨machine, h'⟩ program others
    | .error _ h' => h'.Accounts others := by
  have built : (build setup h).Accounts .nil others := accounts_build a setup
  have installed := accounts_install built program
  unfold assemble
  rcases ran : install program (build setup h) with ⟨_, b'⟩ | ⟨e, b'⟩
  · rw [ran] at installed
    exact installed
  · rw [ran] at installed
    exact installed.release

end Assembly

/-! ## Running -/

/-- Whatever an operation ends with, the machine's pins stay in order. -/
def KeepsAccounts {ε α : Type} (op : BenchM ε α) : Prop :=
  ∀ (b : Bench) (source : Value) (others : Heap.Ledger), b.Accounts source others →
    (left (op b)).Accounts source others

namespace KeepsAccounts

variable {ε α β : Type} {op : BenchM ε α} {next : α → BenchM ε β}

theorem pure (a : α) : KeepsAccounts (pure a : BenchM ε α) := fun _ _ _ accounts => accounts

theorem throw (e : ε) : KeepsAccounts (throw e : BenchM ε α) := fun _ _ _ accounts => accounts

theorem modify {f : Bench → Bench}
    (keeps : ∀ {b : Bench} {source others}, b.Accounts source others →
      (f b).Accounts source others) :
    KeepsAccounts (modify f : BenchM ε Unit) := fun _ _ _ accounts => keeps accounts

theorem get_bind {f : Bench → BenchM ε β} (keeps : ∀ b, KeepsAccounts (f b)) :
    KeepsAccounts (get >>= f) := fun b => keeps b b

theorem bind (first : KeepsAccounts op) (continues : ∀ a, KeepsAccounts (next a)) :
    KeepsAccounts (op >>= next) := by
  intro b source others accounts
  have kept := first b source others accounts
  simp only [Bind.bind, EStateM.bind]
  rcases step : op b with ⟨a, b'⟩ | ⟨e, b'⟩
  · rw [step] at kept
    exact continues a b' source others kept
  · rw [step] at kept
    exact kept

end KeepsAccounts

/-- To call an operation on some values gives back all roots and touches no pin. -/
theorem level_call (h : Heap) (p : Primitive) (values : List Value) :
    HeapM.Obeys Heap.Level h (HeapM.scope do
      let args ← HeapM.list values
      HeapM.root args
      Callable.call p args) := by
  have conduct := conduct_level
  refine conduct.scope (.bind conduct.within (conduct.partly (conduct.obeys_list _ values)) ?_)
  exact fun args h' _ => conduct.root_bind (conduct.partly (conduct.obeys_call _ _ args))

theorem keepsAccounts_call (c : Call) : KeepsAccounts (call c) := by
  refine .get_bind fun b => ?_
  split
  · exact .throw _
  · next values _ =>
    intro b source others accounts
    have level := level_call b.heap c.operation values
    unfold HeapM.Obeys Heap.Operation.heapAfter at level
    unfold onHeap
    dsimp only
    split
    · next ran =>
      rw [ran] at level
      exact accounts.level level
    · next ran =>
      rw [ran] at level
      exact accounts.level level

theorem keepsAccounts_execute (code : Code) : KeepsAccounts (execute code) := by
  cases code with
  | assign register source => exact .modify fun a => a.write _ _
  | assignCall register c =>
      exact .bind (keepsAccounts_call c) fun value => .modify fun a => a.write _ _
  | test c => exact .bind (keepsAccounts_call c) fun value => .modify fun a => a.setFlag value
  | branch target =>
      refine .modify fun a => ?_
      split
      · exact a
      · exact a
  | jump target => exact .modify fun a => a
  | jumpRegister register =>
      refine .get_bind fun b => ?_
      split
      · exact .modify fun a => a
      · exact .get_bind fun b => .throw _
  | perform c => exact .bind (keepsAccounts_call c) fun _ => .modify fun a => a
  | save source =>
      refine .get_bind fun b => .bind (fun _ _ _ a => a.push _) fun _ => .modify fun a => a
  | restore register => exact .bind (fun _ _ _ a => a.restore register) fun _ => .modify fun a => a

theorem keepsAccounts_start (trace : Bool) : KeepsAccounts (start trace) := by
  refine .get_bind fun b => ?_
  dsimp only
  split
  · exact .bind (.throw _) fun _ => .modify fun a => a.reset
  · exact .modify fun a => a.reset

theorem keepsAccounts_executeNext : KeepsAccounts executeNext := by
  have noting (line : Line) :
      KeepsAccounts (modify (noteExecuting line) : BenchM MachineError _) := by
    refine .modify fun {b} _ _ a => ?_
    unfold noteExecuting
    split
    split
    · exact Heap.Accounts.of_eq a rfl rfl
    · exact a
  have halting : KeepsAccounts (modify haltAtEnd : BenchM MachineError _) := by
    refine .modify fun {b} _ _ a => ?_
    unfold haltAtEnd
    split
    split
    · exact a
    · exact a
  refine .get_bind fun b => ?_
  split
  · exact .bind (noting _) fun _ => .bind (keepsAccounts_execute _) fun _ =>
      .bind (.modify fun a => a) fun _ => halting
  · exact halting

theorem keepsAccounts_step : KeepsAccounts step := by
  refine .get_bind fun b => ?_
  split
  · exact .throw _
  · exact .pure _
  · exact .get_bind fun b => .bind (keepsAccounts_start _) fun _ =>
      .bind keepsAccounts_executeNext fun _ => .get_bind fun b => .pure _
  · exact .bind keepsAccounts_executeNext fun _ => .get_bind fun b => .pure _

theorem keepsAccounts_runFor (steps : Nat) : KeepsAccounts (runFor steps) := by
  induction steps with
  | zero => exact .pure ()
  | succ steps ih =>
      refine .bind keepsAccounts_step fun state => ?_
      split
      · exact .pure ()
      · exact ih

theorem keepsAccounts_run : KeepsAccounts run := by
  refine .get_bind fun b => ?_
  dsimp only
  split
  · exact .get_bind fun b => .bind (keepsAccounts_start _) fun _ => keepsAccounts_runFor _
  · exact keepsAccounts_runFor _

theorem keepsAccounts_setRegister (name : String) (payload : Payload) :
    KeepsAccounts (setRegister name payload) := by
  refine .get_bind fun b => ?_
  split
  · exact .modify fun a => a.write _ _
  · exact .throw _

theorem keepsAccounts_monitorRegister (name : String) : KeepsAccounts (monitorRegister name) := by
  refine .get_bind fun b => ?_
  split
  · exact .modify fun a => a.monitor _
  · exact .throw _

end Bench

end Lisplet
