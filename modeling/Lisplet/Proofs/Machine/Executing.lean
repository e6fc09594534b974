import Lisplet.Proofs.Machine.Failure

/-!
# Executing — what an instruction does to the machine

Apart from the heap an instruction that succeeds does one of a few things to its machine, and one
that fails does nothing. `Machine.Executes` lists them, with a rule for each way in which an
instruction can end. What holds of machines in every state is proved along these rules, without
another look at the instructions.
-/

namespace Lisplet

namespace Machine

/-! ## Changes of a machine -/

/-- Another payload in a register. Without such a register nothing changes. -/
def store (m : Machine) (index : Nat) (payload : Payload) : Machine :=
  { m with registers := m.registers.modify index fun register => { register with payload } }

/-- One more entry on the stack. -/
def pushed (m : Machine) (saved : Saved) : Machine :=
  { m with
    stack := m.stack.push saved
    stats :=
      { totalPushes := m.stats.totalPushes + 1
        maxDepth := max m.stats.maxDepth (m.stack.size + 1)
        currentDepth := m.stack.size + 1 } }

/-- Another stack, namely the entries below the top. -/
def popped (m : Machine) (stack : Array Saved) : Machine :=
  { m with stack, stats := { m.stats with currentDepth := stack.size } }

/-- Another line. -/
def movedTo (m : Machine) (pc : Nat) : Machine := { m with pc }

/-- One more instruction executed. -/
def counted (m : Machine) : Machine := { m with executed := m.executed + 1 }

/-- Halted if the program is at its end. -/
def settled (m : Machine) : Machine :=
  { m with state := if m.lineCount ≤ m.pc then .halted else m.state }

/-- The machine at the beginning of its program. -/
def started (m : Machine) (trace : Bool) : Machine :=
  { m with
    state := .running
    flag := .nil
    stack := #[]
    stats := ⟨0, 0, 0⟩
    pc := 0
    trace
    executed := 0 }

/-- `m'` is `m` after an instruction that succeeds. -/
inductive Executes (m : Machine) : Code → Machine → Prop where
  | assign (register : Nat) (source : Fetch) :
      Executes m (.assign register source) ((m.store register (m.fetch source)).movedTo (m.pc + 1))
  | assignCall (register : Nat) (c : Call) (v : Value) :
      Executes m (.assignCall register c) ((m.store register (.value v)).movedTo (m.pc + 1))
  | test (c : Call) (flag : Value) :
      Executes m (.test c) (({ m with flag } : Machine).movedTo (m.pc + 1))
  | passBranch (target : Nat) : m.flag.isNil = true →
      Executes m (.branch target) (m.movedTo (m.pc + 1))
  | takeBranch (target : Nat) : m.flag.isNil = false →
      Executes m (.branch target) (m.movedTo target)
  | jump (target : Nat) : Executes m (.jump target) (m.movedTo target)
  | jumpRegister {register target : Nat} : m.read register = .label target →
      Executes m (.jumpRegister register) (m.movedTo target)
  | perform (c : Call) : Executes m (.perform c) (m.movedTo (m.pc + 1))
  | save (source : Fetch) (pin : Pin) : m.stack.size < m.stackLimit →
      Executes m (.save source) ((m.pushed ⟨m.fetch source, pin⟩).movedTo (m.pc + 1))
  | restore (register : Nat) {stack : Array Saved} {saved : Saved} : m.stack = stack.push saved →
      Executes m (.restore register)
        (((m.popped stack).store register saved.payload).movedTo (m.pc + 1))

end Machine

namespace Bench

section Executing

variable {b b' : Bench}

theorem modify_of_none {α : Type} {xs : Array α} {index : Nat} (missing : xs[index]? = none)
    (f : α → α) : xs.modify index f = xs := by
  apply Array.ext_getElem?
  intro i
  grind

theorem modify_of_some {α : Type} {xs : Array α} {index : Nat} {x : α}
    (there : xs[index]? = some x) (f : α → α) :
    xs.modify index f = xs.setIfInBounds index (f x) := by
  apply Array.ext_getElem?
  intro i
  grind

theorem forall_mem_modify {α : Type} {P : α → Prop} {xs : Array α} (index : Nat) {f : α → α}
    (all : ∀ x ∈ xs, P x) (changed : ∀ x ∈ xs, P (f x)) : ∀ x ∈ xs.modify index f, P x := by
  intro x member
  obtain ⟨i, inside, rfl⟩ := Array.getElem_of_mem member
  rw [Array.size_modify] at inside
  rw [Array.getElem_modify]
  split
  · exact changed _ (Array.getElem_mem inside)
  · exact all _ (Array.getElem_mem inside)

theorem machine_write (b : Bench) (index : Nat) (payload : Payload) :
    (b.write index payload).machine = b.machine.store index payload := by
  unfold Machine.store
  cases there : b.machine.registers[index]? with
  | none => rw [write_of_none there, modify_of_none there]
  | some register => rw [write_eq there, modify_of_some there]

theorem machine_advance (b : Bench) : b.advance.machine = b.machine.movedTo (b.machine.pc + 1) :=
  rfl

theorem machine_onHeap {α : Type} {op : HeapM Fatal α} {a : α} (ran : onHeap op b = .ok a b') :
    b'.machine = b.machine := by
  unfold onHeap at ran
  split at ran
  split at ran
  · cases ran
    rfl
  · cases ran

/-- An operation is carried out on the heap alone. -/
theorem machine_call {c : Call} {v : Value} (ran : call c b = .ok v b') :
    b'.machine = b.machine := by
  unfold call at ran
  rw [get_bind_apply] at ran
  cases given : values? b.machine c.operands with
  | none =>
      rw [given] at ran
      cases ran
  | some values =>
      rw [given] at ran
      exact machine_onHeap ran

/-- What comes after an operation in an instruction that succeeds works on the same machine. -/
theorem exists_called {c : Call} {f : Value → Bench → Bench}
    (ran : (do let v ← call c; modify (f v) : BenchM MachineError Unit) b = .ok () b') :
    ∃ v b₁, b₁.machine = b.machine ∧ b' = f v b₁ := by
  simp only [Bind.bind, EStateM.bind] at ran
  rcases step : call c b with ⟨v, b₁⟩ | ⟨e, b₁⟩
  · rw [step] at ran
    cases ran
    exact ⟨v, b₁, machine_call step, rfl⟩
  · rw [step] at ran
    cases ran

/-- What an instruction that succeeds has done to the machine. -/
theorem executes_of_ok {code : Code} (ran : execute code b = .ok () b') :
    b.machine.Executes code b'.machine := by
  have stored (b : Bench) (register : Nat) (payload : Payload) :
      (b.write register payload).advance.machine =
        (b.machine.store register payload).movedTo (b.machine.pc + 1) := by
    rw [machine_advance, machine_write]
    rfl
  cases code with
  | assign register source =>
      cases ran
      exact stored b register _ ▸ .assign register source
  | assignCall register c =>
      obtain ⟨v, b₁, same, rfl⟩ :=
        exists_called (f := fun v b => (b.write register (.value v)).advance) ran
      rw [stored, same]
      exact .assignCall register c v
  | test c =>
      obtain ⟨v, b₁, same, rfl⟩ := exists_called (f := fun v b => (b.setFlag v).advance) ran
      have tested : (b₁.setFlag v).advance.machine =
          ({ b₁.machine with flag := v } : Machine).movedTo (b₁.machine.pc + 1) := rfl
      rw [tested, same]
      exact .test c v
  | branch target =>
      cases ran
      dsimp only
      split
      · next isNil => exact .passBranch target isNil
      · next isSlot => exact .takeBranch target (eq_false_of_ne_true isSlot)
  | jump target =>
      cases ran
      exact .jump target
  | jumpRegister register =>
      simp only [execute] at ran
      rw [get_bind_apply] at ran
      cases held : b.machine.read register with
      | label target =>
          rw [held] at ran
          cases ran
          exact .jumpRegister held
      | value v =>
          rw [held] at ran
          cases ran
  | perform c =>
      obtain ⟨v, b₁, same, rfl⟩ := exists_called (f := fun _ b => b.advance) ran
      rw [machine_advance, same]
      exact .perform c
  | save source =>
      simp only [execute] at ran
      rw [get_bind_apply] at ran
      rcases push_cases (b.machine.fetch source) b with ⟨-, step⟩ | ⟨room, step⟩
      · simp only [Bind.bind, EStateM.bind, step] at ran
        cases ran
      · simp only [Bind.bind, EStateM.bind, step] at ran
        cases ran
        exact .save source _ room
  | restore register =>
      simp only [execute] at ran
      rcases restore_cases register b with ⟨-, step⟩ | ⟨stack, saved, whole, step⟩
      · simp only [Bind.bind, EStateM.bind, step] at ran
        cases ran
      · simp only [Bind.bind, EStateM.bind, step] at ran
        cases ran
        have written := stored ⟨b.machine.popped stack, b.heap⟩ register saved.payload
        exact written ▸ .restore register whole

/-! ## Steps -/

theorem machine_noteExecuting (b : Bench) (line : Line) :
    (b.noteExecuting line).machine = b.machine := (Spares.noteExecuting line b).machine_eq

theorem machine_haltAtEnd (b : Bench) : b.haltAtEnd.machine = b.machine.settled := by
  unfold haltAtEnd Machine.settled
  dsimp only
  split
  · rfl
  · rfl

theorem executeNext_of_none (none : currentLine? b.machine = none) :
    executeNext b = .ok () b.haltAtEnd := by
  unfold executeNext
  rw [get_bind_apply, none]
  rfl

theorem executeNext_of_some {line : Line} (found : currentLine? b.machine = some line) :
    executeNext b =
      match execute line.code (b.noteExecuting line) with
      | .ok () b' => .ok () b'.countExecuted.haltAtEnd
      | .error e b' => .error e b' := by
  unfold executeNext
  rw [get_bind_apply, found]
  dsimp only
  rw [modify_bind_apply]
  simp only [Bind.bind, EStateM.bind]
  cases execute line.code (b.noteExecuting line) with
  | ok _ b' => rfl
  | error e b' => rfl

theorem step_of_running (running : b.machine.state = .running) :
    step b = (executeNext >>= fun _ => do pure (← get).machine.state) b := by
  unfold step
  rw [get_bind_apply, running]

theorem step_eq_of_running (running : b.machine.state = .running) :
    step b =
      match executeNext b with
      | .ok () b' => .ok b'.machine.state b'
      | .error e b' => .error e b' := by
  rw [step_of_running running]
  simp only [Bind.bind, EStateM.bind]
  cases executeNext b with
  | ok _ b' => rfl
  | error e b' => rfl

/-- What a step of a running machine comes to. -/
theorem step_cases (running : b.machine.state = .running) :
    (∃ e b', step b = .error e b' ∧ b'.machine = b.machine) ∨
      (∃ line m b', currentLine? b.machine = some line ∧ b.machine.Executes line.code m ∧
        step b = .ok b'.machine.state b' ∧ b'.machine = m.counted.settled) ∨
      (currentLine? b.machine = none ∧ step b = .ok b.haltAtEnd.machine.state b.haltAtEnd) := by
  rw [step_eq_of_running running]
  cases found : currentLine? b.machine with
  | none =>
      rw [executeNext_of_none found]
      exact .inr (.inr ⟨rfl, rfl⟩)
  | some line =>
      rw [executeNext_of_some found]
      cases ran : execute line.code (b.noteExecuting line) with
      | ok _ b₁ =>
          have executes := executes_of_ok ran
          rw [machine_noteExecuting] at executes
          refine .inr (.inl ⟨line, b₁.machine, _, rfl, executes, rfl, ?_⟩)
          exact machine_haltAtEnd b₁.countExecuted
      | error e b₁ =>
          have reverted := (reverts_execute line.code _ _ _ ran).machine_eq
          exact .inl ⟨e, b₁, rfl, reverted.trans (machine_noteExecuting b line)⟩

/-- Only a machine with a program can be started. -/
theorem start_cases (b : Bench) (trace : Bool) :
    (b.machine.program = none ∧ start trace b = .error .notInstalled b) ∨
      (b.machine.program.isSome ∧
        start trace b = .ok () ⟨b.machine.started trace, b.reset.heap⟩) := by
  unfold start
  rw [get_bind_apply]
  dsimp only
  cases installed : b.machine.program with
  | none => exact .inl ⟨rfl, rfl⟩
  | some program =>
      refine .inr ⟨rfl, ?_⟩
      show EStateM.Result.ok _ (Bench.mk _ b.reset.heap) = _
      rw [reset_eq]
      rfl

/-- The first step of a machine is that of the machine that has been started. -/
theorem step_eq_of_installed (installed : b.machine.state = .installed) :
    step b =
      match start b.machine.trace b with
      | .ok () b' => step b'
      | .error e b' => .error e b' := by
  unfold step
  rw [get_bind_apply, installed]
  show EStateM.bind (start b.machine.trace) _ b = _
  unfold EStateM.bind
  rcases start_cases b b.machine.trace with ⟨_, ran⟩ | ⟨_, ran⟩
  · rw [ran]
  · rw [ran]
    exact (step_of_running rfl).symm

theorem step_of_idle (idle : b.machine.state = .idle) : step b = .error .notInstalled b := by
  unfold step
  rw [get_bind_apply, idle]
  rfl

theorem step_of_halted (halted : b.machine.state = .halted) : step b = .ok .halted b := by
  unfold step
  rw [get_bind_apply, halted]
  rfl

/-- What remains of a run after a step. -/
theorem runFor_of_step {state : MachineState} (ran : step b = .ok state b') (steps : Nat) :
    runFor (steps + 1) b = if state = .halted then .ok () b' else runFor steps b' := by
  rw [runFor]
  simp only [Bind.bind, EStateM.bind, ran]
  cases state with
  | halted => rfl
  | _ => rfl

theorem run_of_start (installed : b.machine.state = .installed)
    (started : start b.machine.trace b = .ok () b') : run b = runFor longestRun b' := by
  unfold run
  rw [get_bind_apply, installed, if_pos (by decide), get_bind_apply]
  simp only [Bind.bind, EStateM.bind, started]

end Executing

end Bench

/-! ## Invariants of machines -/

/-- What starting, executing and halting preserve. -/
structure Machine.Invariant (I : Machine → Prop) : Prop where
  started {m : Machine} (trace : Bool) : I m → I (m.started trace)
  executes {m m' : Machine} {line : Line} : I m → Bench.currentLine? m = some line →
    m.Executes line.code m' → I m'.counted
  settled {m : Machine} : I m → I m.settled

namespace Machine.Invariant

open Bench

variable {I : Machine → Prop} (invariant : Machine.Invariant I)
include invariant

theorem start {b : Bench} (i : I b.machine) (trace : Bool) : I (left (start trace b)).machine := by
  rcases start_cases b trace with ⟨_, ran⟩ | ⟨_, ran⟩
  · rw [ran]
    exact i
  · rw [ran]
    exact invariant.started trace i

theorem step {b : Bench} (i : I b.machine) : I (left (step b)).machine := by
  have runs {b : Bench} (i : I b.machine) (running : b.machine.state = .running) :
      I (left (Bench.step b)).machine := by
    rcases step_cases running with ⟨e, b', ran, same⟩ | ⟨line, m, b', found, executes, ran, same⟩ |
      ⟨_, ran⟩
    · rw [ran]
      exact same.symm ▸ i
    · rw [ran]
      exact same.symm ▸ invariant.settled (invariant.executes i found executes)
    · rw [ran]
      exact (machine_haltAtEnd b).symm ▸ invariant.settled i
  cases state : b.machine.state with
  | idle =>
      rw [step_of_idle state]
      exact i
  | halted =>
      rw [step_of_halted state]
      exact i
  | running => exact runs i state
  | installed =>
      rw [step_eq_of_installed state]
      rcases start_cases b b.machine.trace with ⟨_, ran⟩ | ⟨_, ran⟩
      · rw [ran]
        exact i
      · rw [ran]
        exact runs (invariant.started _ i) rfl

theorem runFor {b : Bench} (i : I b.machine) (steps : Nat) : I (left (runFor steps b)).machine := by
  have keeps : ∀ b : Bench, I b.machine →
      Keeps (fun b => I b.machine) b (Bench.runFor steps) fun _ _ => True := by
    induction steps with
    | zero => exact fun b i => .pure i trivial
    | succ steps ih =>
        intro b i
        refine .bind (.of_left (invariant.step i)) fun b' state i' _ => ?_
        split
        · exact .pure i' trivial
        · exact ih b' i'
  exact (keeps b i).left

theorem run {b : Bench} (i : I b.machine) : I (left (run b)).machine := by
  have keeps : Keeps (fun b => I b.machine) b Bench.run fun _ _ => True := by
    refine .get_bind ?_
    dsimp only
    split
    · refine .get_bind (.bind (.of_left (invariant.start i _)) fun b' _ i' _ => ?_)
      exact .of_left (invariant.runFor i' _)
    · exact .of_left (invariant.runFor i _)
  exact keeps.left

end Machine.Invariant

end Lisplet
