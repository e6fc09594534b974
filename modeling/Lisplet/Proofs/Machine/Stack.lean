import Lisplet.Proofs.Machine.Confinement
import Lisplet.Proofs.Machine.Tracks
import Mathlib.Data.List.Chain

/-!
# The stack — last in, first out

What an instruction does to the stack and its counts is one of three things (`Machine.Shifts`): a
`save` puts an entry on top, a `restore` takes one off, and all others leave it alone. So an entry
stays where it is as long as the stack is deeper than its place, whatever else happens in between;
and since it keeps a pin for its payload, what can be reached from that stays in the heap all the
time (`Heap.KeptThrough`).
-/

namespace Lisplet

open Relation

/-! ## What an instruction does to the stack -/

def Code.saves : Code → Bool
  | .save _ => true
  | _ => false

def Code.restores : Code → Bool
  | .restore _ => true
  | _ => false

/-- What becomes of the stack when an instruction is executed, or none. -/
inductive Machine.Shifts (m m' : Machine) : Option Code → Prop
  | save (source : Fetch) (saved : Saved) : m.stack.size < m.stackLimit →
      saved.payload = m.fetch source → m'.stack = m.stack.push saved →
      m'.stats = ⟨m.stats.totalPushes + 1, max m.stats.maxDepth (m.stack.size + 1),
        m.stack.size + 1⟩ →
      Shifts m m' (some (.save source))
  | restore (register : Nat) (saved : Saved) : m.stack = m'.stack.push saved →
      m'.registers = (m.store register saved.payload).registers →
      m'.stats = { m.stats with currentDepth := m'.stack.size } →
      Shifts m m' (some (.restore register))
  | still {code : Option Code} : code.any Code.saves = false → code.any Code.restores = false →
      m'.stack = m.stack → m'.stats = m.stats → Shifts m m' code

namespace Machine

variable {m m' : Machine} {code : Code}

theorem Executes.shifts (executes : m.Executes code m') :
    m.Shifts m'.counted.settled (some code) ∧ m'.stackLimit = m.stackLimit := by
  cases executes with
  | save source pin room => exact ⟨.save source ⟨m.fetch source, pin⟩ room rfl rfl rfl, rfl⟩
  | @restore register stack saved whole => exact ⟨.restore register saved whole rfl rfl, rfl⟩
  | _ => exact ⟨.still rfl rfl rfl rfl, rfl⟩

theorem Tended.state_eq {P : Payload → Prop} (tended : m.Tended P m') : m'.state = m.state := by
  cases tended <;> rfl

theorem Tended.shifts {P : Payload → Prop} (tended : m.Tended P m') :
    m.Shifts m' none ∧ m'.stackLimit = m.stackLimit := by
  cases tended <;> exact ⟨.still rfl rfl rfl rfl, rfl⟩

/-- An entry stays where it is until the stack is no deeper than its place. -/
theorem Shifts.entry {code : Option Code} (shifts : m.Shifts m' code) {depth : Nat} {saved : Saved}
    (there : m.stack[depth]? = some saved) (deeper : depth < m'.stack.size) :
    m'.stack[depth]? = some saved := by
  cases shifts with
  | save source entry _ _ stack _ =>
      have inside := (Array.getElem?_eq_some_iff.1 there).1
      rw [stack, Array.getElem?_push_lt inside]
      exact there ▸ (Array.getElem?_eq_getElem inside).symm
  | restore register entry stack _ _ =>
      rw [stack, Array.getElem?_push_lt deeper] at there
      rw [Array.getElem?_eq_getElem deeper]
      exact there
  | still _ _ stack _ => rwa [stack]

end Machine

/-! ## What is kept -/

namespace Heap

/--
On each of these heaps, the last of them first, a collection leaves everything alone that can be
reached from `v`, and from one heap to the next all of that is retained.
-/
structure KeptThrough (v : Value) (heaps : List Heap) : Prop where
  secures : ∀ h ∈ heaps, h.Secures v
  retains : heaps.IsChain fun h' h => ∃ altered, h.Retains altered (· = v) h'

namespace KeptThrough

variable {h : Heap} {v : Value} {heaps : List Heap}

theorem single (secures : h.Secures v) : KeptThrough v [h] where
  secures _ member := List.mem_singleton.1 member ▸ secures
  retains := .singleton h

theorem cons (kept : KeptThrough v heaps) (secures : h.Secures v)
    (retains : ∀ h' ∈ heaps.head?, ∃ altered, h'.Retains altered (· = v) h) :
    KeptThrough v (h :: heaps) where
  secures := List.forall_mem_cons.2 ⟨secures, kept.secures⟩
  retains := List.isChain_cons.2 ⟨retains, kept.retains⟩

end KeptThrough

end Heap

/-! ## Runs -/

namespace Bench

/-- The instruction that the next step of a started machine executes, if it succeeds. -/
def executed? (b : Bench) : Option Code :=
  match b.machine.state, step b with
  | .running, .ok _ _ => (currentLine? b.machine).map Line.code
  | _, _ => none

/--
What may happen from one moment to the next to a machine that has been started: a step, something
from outside, a change elsewhere on its heap that leaves the pins of the machine alone, or a
collection.
-/
inductive Passes (source : Value) (b : Bench) : Option Code → Bench → Prop
  | step : Passes source b (executed? b) (left (step b))
  | tend (request : Request) : request.Tends (fun _ => True) b →
      Passes source b none (b.asked request)
  | elsewhere {h : Heap} : b.heap.Change h →
      (∃ others, h.Accounts (b.machine.holdings source ++ others)) →
      Passes source b none ⟨b.machine, h⟩
  | collect : Passes source b none ⟨b.machine, b.heap.collect.1⟩

end Bench

/-- A moment of a run: the instruction that has been executed, if any, and what is there then. -/
structure Moment where
  executed : Option Code
  after : Bench

namespace Moment

def depth (moment : Moment) : Nat := moment.after.machine.stack.size

def saves (moment : Moment) : Bool := moment.executed.any Code.saves

def restores (moment : Moment) : Bool := moment.executed.any Code.restores

end Moment

namespace Bench

/-- The heaps of a run that begins here, the last of them first. -/
def heaps (b : Bench) (past : List Moment) : List Heap :=
  past.map (fun moment => moment.after.heap) ++ [b.heap]

/-- A run of a machine that has been started, with its moments, the last of them first. -/
inductive Runs (source : Value) (b : Bench) : List Moment → Bench → Prop
  | refl : Runs source b [] b
  | next {past : List Moment} {code : Option Code} {c c' : Bench} : Runs source b past c →
      c.Passes source code c' → Runs source b (⟨code, c'⟩ :: past) c'

/-- What is true of a machine all the time from its start on. -/
structure Underway (source : Value) (b : Bench) : Prop where
  started : b.machine.state = .running ∨ b.machine.state = .halted
  wired : b.machine.Wired
  accounts : ∃ others, b.Accounts source others
  tidy : b.heap.Tidy

section Passing

variable {source : Value} {b b' : Bench} {code : Option Code}

theorem accounts_asked {others : Heap.Ledger} (a : b.Accounts source others) {request : Request}
    {P : Payload → Prop} (tends : request.Tends P b) :
    (b.asked request).Accounts source others := by
  cases request with
  | declare name => exact a.declare name
  | setRegister name payload => exact keepsAccounts_setRegister name payload b source others a
  | monitor name => exact keepsAccounts_monitorRegister name b source others a
  | trace on => exact a
  | install program =>
      obtain ⟨e, b', refused⟩ := tends
      have kept := accounts_install a program
      unfold asked Tenant.ask
      dsimp only
      rw [refused] at kept ⊢
      exact kept
  | start trace | step | run => exact tends.elim

theorem repinned_asked {request : Request} {P : Payload → Prop} (tends : request.Tends P b) :
    b.heap.Repinned (b.asked request).heap := by
  have still : request.executes = false := by
    cases request with
    | step | run => exact tends.elim
    | _ => rfl
  exact Tenant.repinned_ask ⟨b.machine, .nil⟩ still b.heap

theorem shifts_step (started : b.machine.state = .running ∨ b.machine.state = .halted) :
    b.machine.Shifts (left (step b)).machine (executed? b) ∧
      (left (step b)).machine.stackLimit = b.machine.stackLimit := by
  have same {c : Bench} (machine : c.machine = b.machine) (idle : executed? b = none) :
      b.machine.Shifts c.machine (executed? b) ∧ c.machine.stackLimit = b.machine.stackLimit := by
    rw [machine, idle]
    exact ⟨.still rfl rfl rfl rfl, rfl⟩
  rcases started with running | halted
  · rcases step_cases running with ⟨e, c, ran, machine⟩ |
      ⟨line, m, c, found, executes, ran, machine⟩ | ⟨atEnd, ran⟩
    · have idle : executed? b = none := by simp only [executed?, running, ran]
      rw [ran]
      exact same machine idle
    · have executed : executed? b = some line.code := by
        simp only [executed?, running, ran, found, Option.map_some]
      rw [ran, executed]
      show b.machine.Shifts c.machine _ ∧ c.machine.stackLimit = _
      rw [machine]
      exact executes.shifts
    · have idle : executed? b = none := by
        simp only [executed?, running, ran, atEnd, Option.map_none]
      rw [ran, idle]
      show b.machine.Shifts b.haltAtEnd.machine _ ∧ b.haltAtEnd.machine.stackLimit = _
      rw [machine_haltAtEnd]
      exact ⟨.still rfl rfl rfl rfl, rfl⟩
  · have idle : executed? b = none := by simp only [executed?, halted]
    rw [step_of_halted halted]
    exact same rfl idle

/-- The heap after a step that a machine takes, whether it succeeds or fails. -/
theorem tracks_step {R : Heap → Heap → Prop} (refl : ∀ h, R h h) (tracks : Tracks R executeNext)
    (started : b.machine.state = .running ∨ b.machine.state = .halted) :
    R b.heap (left (step b)).heap := by
  rcases started with running | halted
  · have executed := tracks b
    rw [step_eq_of_running running]
    cases ran : executeNext b with
    | ok _ c =>
        rw [ran] at executed
        exact executed
    | error e c =>
        rw [ran] at executed
        exact executed
  · rw [step_of_halted halted]
    exact refl b.heap

theorem started_of_step (started : b.machine.state = .running ∨ b.machine.state = .halted) :
    (left (step b)).machine.state = .running ∨ (left (step b)).machine.state = .halted := by
  have invariant : Machine.Invariant fun m => m.state = .running ∨ m.state = .halted := by
    refine ⟨fun _ _ => .inl rfl, fun s _ executes => ?_, fun {m} s => ?_⟩
    · exact (executes.state_eq ▸ s : _ ∨ _)
    · unfold Machine.settled
      dsimp only
      split
      · exact .inr rfl
      · exact s
  exact invariant.step started

namespace Passes

theorem shifts (p : b.Passes source code b')
    (started : b.machine.state = .running ∨ b.machine.state = .halted) :
    b.machine.Shifts b'.machine code ∧ b'.machine.stackLimit = b.machine.stackLimit := by
  cases p with
  | step => exact shifts_step started
  | tend request tends => exact (tended_of_tends tends).shifts
  | elsewhere _ _ | collect => exact ⟨.still rfl rfl rfl rfl, rfl⟩

/-- What a pin of the machine holds is there afterwards with all that could be reached from it. -/
theorem retains (p : b.Passes source code b') (u : b.Underway source) {v : Value}
    (root : b.heap.IsRoot v) : ∃ altered, b.heap.Retains altered (· = v) b'.heap := by
  have fewer : ∀ w, w = v → b.heap.IsRoot w := fun w same => same ▸ root
  cases p with
  | step =>
      -- An instruction may run collections before it alters anything, but none afterwards.
      obtain ⟨altered, retains⟩ := tracks_step (fun _ before => ⟨none, before.retains none⟩)
        (amends_executeNext b.heap) u.started (.refl u.tidy)
      exact ⟨altered, retains.mono fewer⟩
  | tend request tends => exact ⟨none, .ofSame (repinned_asked tends).object?_eq⟩
  | elsewhere change _ =>
      obtain ⟨altered, retains⟩ := change.retains u.tidy
      exact ⟨altered, retains _⟩
  | collect =>
      refine ⟨none, fun i o reached found => .inl ?_⟩
      have kept := Heap.object?_collect_of_reachable u.tidy.marksClear (reached.mono fewer)
      exact kept.trans found

theorem underway (p : b.Passes source code b') (u : b.Underway source) : b'.Underway source := by
  obtain ⟨others, accounts⟩ := u.accounts
  cases p with
  | step =>
      have leads := tracks_step (fun _ => .refl) leads_executeNext u.started
      have grows := (Machine.invariant_grows b.machine).step (.refl b.machine)
      exact ⟨started_of_step u.started, u.wired.grows grows,
        ⟨others, keepsAccounts_step b source others accounts⟩, leads.tidy u.tidy⟩
  | tend request tends =>
      have tended := tended_of_tends tends
      refine ⟨?_, u.wired.grows tended.grows, ⟨others, accounts_asked accounts tends⟩,
        (repinned_asked tends).leads.tidy u.tidy⟩
      exact tended.state_eq ▸ u.started
  | elsewhere change accounts => exact ⟨u.started, u.wired, accounts, change.tidy u.tidy⟩
  | collect => exact ⟨u.started, u.wired, ⟨others, accounts.of_eq rfl rfl⟩, u.tidy.collect⟩

/-- Nothing but a step executes an instruction, namely the one that the machine is at. -/
theorem exists_line {executed : Code} (p : b.Passes source (some executed) b') :
    ∃ line, currentLine? b.machine = some line ∧ line.code = executed := by
  generalize same : some executed = code at p
  cases p with
  | step =>
      unfold executed? at same
      split at same
      · exact Option.map_eq_some_iff.1 same.symm
      · cases same
  | tend _ _ | elsewhere _ _ | collect => cases same

end Passes

end Passing

/-! ## Counts -/

end Bench

/-- What the counts of a machine say after a run with these moments. -/
structure Machine.Counts (m : Machine) (past : List Moment) : Prop where
  currentDepth_eq : m.stats.currentDepth = m.stack.size
  le_stackLimit : m.stack.size ≤ m.stackLimit
  /-- The depth at the start is nought. -/
  maxDepth_mem : m.stats.maxDepth ∈ 0 :: past.map Moment.depth
  le_maxDepth : ∀ depth ∈ 0 :: past.map Moment.depth, depth ≤ m.stats.maxDepth
  totalPushes_eq : m.stats.totalPushes = past.countP Moment.saves
  balance : m.stats.totalPushes = past.countP Moment.restores + m.stack.size

namespace Machine.Counts

variable {m : Machine} {past : List Moment}

theorem started (m : Machine) (trace : Bool) : (m.started trace).Counts [] where
  currentDepth_eq := rfl
  le_stackLimit := Nat.zero_le _
  maxDepth_mem := List.mem_cons_self
  le_maxDepth _ member := Nat.le_of_eq (List.mem_singleton.1 member)
  totalPushes_eq := rfl
  balance := rfl

/-- The depths that have been reached are those before, and that of the new moment. -/
theorem mem_depths_cons {moment : Moment} {depth : Nat} :
    depth ∈ 0 :: (moment :: past).map Moment.depth ↔
      depth = moment.depth ∨ depth ∈ 0 :: past.map Moment.depth := by
  rw [List.map_cons, List.mem_cons, List.mem_cons, List.mem_cons]
  exact or_left_comm

theorem le_of_grows (counts : m.Counts past) {moment : Moment} {maxDepth : Nat}
    (le : m.stats.maxDepth ≤ maxDepth) (now : moment.depth ≤ maxDepth) :
    ∀ depth ∈ 0 :: (moment :: past).map Moment.depth, depth ≤ maxDepth := by
  intro depth member
  rcases mem_depths_cons.1 member with rfl | before
  · exact now
  · exact Nat.le_trans (counts.le_maxDepth depth before) le

theorem next (counts : m.Counts past) (known : m.stack.size ∈ 0 :: past.map Moment.depth)
    {code : Option Code} {after : Bench} (shifts : m.Shifts after.machine code)
    (stackLimit : after.machine.stackLimit = m.stackLimit) :
    after.machine.Counts (⟨code, after⟩ :: past) := by
  have below := counts.le_maxDepth _ known
  cases shifts with
  | save source saved room _ stack stats =>
      have size : after.machine.stack.size = m.stack.size + 1 := by rw [stack, Array.size_push]
      constructor
      case currentDepth_eq => rw [stats, size]
      case le_stackLimit =>
        rw [size, stackLimit]
        exact room
      case maxDepth_mem =>
        -- Either the stack has never been this deep before, or it has been deeper.
        rw [mem_depths_cons, stats]
        rcases Nat.le_total m.stats.maxDepth (m.stack.size + 1) with le | le
        · exact .inl ((max_eq_right le).trans size.symm)
        · exact .inr ((max_eq_left le).symm ▸ counts.maxDepth_mem)
      case le_maxDepth =>
        rw [stats]
        exact counts.le_of_grows (Nat.le_max_left _ _) (size.trans_le (Nat.le_max_right _ _))
      case totalPushes_eq => rw [stats, List.countP_cons_of_pos (by rfl), ← counts.totalPushes_eq]
      case balance =>
        rw [stats, List.countP_cons_of_neg Bool.false_ne_true, size, ← Nat.add_assoc,
          ← counts.balance]
  | restore register saved stack _ stats =>
      have size : m.stack.size = after.machine.stack.size + 1 := by rw [stack, Array.size_push]
      constructor
      case currentDepth_eq => rw [stats]
      case le_stackLimit =>
        rw [stackLimit]
        exact Nat.le_of_succ_le (size.symm.trans_le counts.le_stackLimit)
      case maxDepth_mem =>
        rw [mem_depths_cons, stats]
        exact .inr counts.maxDepth_mem
      case le_maxDepth =>
        rw [stats]
        exact counts.le_of_grows (Nat.le_refl _) (Nat.le_of_succ_le (size.symm.trans_le below))
      case totalPushes_eq =>
        rw [stats, List.countP_cons_of_neg Bool.false_ne_true, ← counts.totalPushes_eq]
      case balance =>
        rw [stats, List.countP_cons_of_pos (by rfl), counts.balance, size]
        omega
  | still noSave noRestore stack stats =>
      have noSave : ¬ Moment.saves ⟨code, after⟩ = true := Bool.eq_false_iff.1 noSave
      have noRestore : ¬ Moment.restores ⟨code, after⟩ = true := Bool.eq_false_iff.1 noRestore
      constructor
      case currentDepth_eq =>
        rw [stats, stack]
        exact counts.currentDepth_eq
      case le_stackLimit =>
        rw [stack, stackLimit]
        exact counts.le_stackLimit
      case maxDepth_mem =>
        rw [mem_depths_cons, stats]
        exact .inr counts.maxDepth_mem
      case le_maxDepth =>
        rw [stats]
        exact counts.le_of_grows (Nat.le_refl _) ((congrArg Array.size stack).trans_le below)
      case totalPushes_eq =>
        rw [stats, List.countP_cons_of_neg noSave]
        exact counts.totalPushes_eq
      case balance =>
        rw [stats, List.countP_cons_of_neg noRestore, stack]
        exact counts.balance

end Machine.Counts

namespace Bench

section Running

variable {source : Value} {b c c' : Bench} {past later : List Moment}

namespace Runs

theorem trans (first : b.Runs source past c) (second : c.Runs source later c') :
    b.Runs source (later ++ past) c' := by
  induction second with
  | refl => exact first
  | next _ passes ih => exact .next ih passes

theorem underway (runs : b.Runs source past c) (u : b.Underway source) : c.Underway source := by
  induction runs with
  | refl => exact u
  | next _ passes ih => exact passes.underway ih

theorem counts (runs : b.Runs source past c) (u : b.Underway source)
    (empty : b.machine.stack = #[]) (counts : b.machine.Counts []) : c.machine.Counts past := by
  have known {past : List Moment} {c : Bench} (runs : b.Runs source past c) :
      c.machine.stack.size ∈ 0 :: past.map Moment.depth := by
    cases runs with
    | refl =>
        rw [empty]
        exact List.mem_cons_self
    | next _ _ => exact List.mem_cons_of_mem _ List.mem_cons_self
  induction runs with
  | refl => exact counts
  | next runs passes ih =>
      obtain ⟨shifts, stackLimit⟩ := passes.shifts (runs.underway u).started
      exact ih.next (known runs) shifts stackLimit

theorem head?_heaps (runs : b.Runs source past c) : (b.heaps past).head? = some c.heap := by
  cases runs with
  | refl => rfl
  | next _ _ => rfl

/-- An entry stays where it is as long as the stack is deeper, and its value is kept. -/
theorem entry (runs : b.Runs source past c) (u : b.Underway source) {depth : Nat} {saved : Saved}
    (there : b.machine.stack[depth]? = some saved)
    (deeper : ∀ moment ∈ past, depth < moment.depth) :
    c.machine.stack[depth]? = some saved ∧ Heap.KeptThrough saved.payload.held (b.heaps past) := by
  have root {b : Bench} (u : b.Underway source) (there : b.machine.stack[depth]? = some saved) :
      b.heap.IsRoot saved.payload.held := by
    obtain ⟨others, accounts⟩ := u.accounts
    have held := Machine.mem_holdings_of_saved source (Array.mem_of_getElem? there)
    exact .pin ((accounts.mem_iff _ _).1 (List.mem_append_left others held))
  induction runs with
  | refl => exact ⟨there, .single ((root u there).secures u.tidy.marksClear)⟩
  | next runs passes ih =>
      obtain ⟨below, kept⟩ := ih (List.forall_mem_cons.1 deeper).2
      have u' := runs.underway u
      have above := (passes.shifts u'.started).1.entry below (List.forall_mem_cons.1 deeper).1
      have u'' := passes.underway u'
      -- The entry is on the stack before and after, so that its pin makes the value a root of both.
      refine ⟨above, kept.cons ((root u'' above).secures u''.tidy.marksClear) fun h isHead => ?_⟩
      cases runs.head?_heaps.symm.trans isHead
      exact passes.retains u' (root u' below)

end Runs

/-- What is on top of the stack goes into the register, which exists. -/
theorem Passes.restored {register depth : Nat} {saved : Saved}
    (passes : c.Passes source (some (.restore register)) c') (u : c.Underway source)
    (there : c.machine.stack[depth]? = some saved) (top : c.machine.stack.size = depth + 1) :
    c'.machine.read register = saved.payload ∧
      c'.machine.registers = (c.machine.store register saved.payload).registers := by
  obtain ⟨line, found, code⟩ := passes.exists_line
  obtain ⟨-, program, installed, member⟩ := Machine.pc_lt_of_currentLine? found
  have inside : register < c.machine.registers.size := by
    have fits := u.wired program installed line member
    rwa [code] at fits
  have registers : c'.machine.registers = (c.machine.store register saved.payload).registers := by
    cases (passes.shifts u.started).1 with
    | still _ noRestore _ _ => cases noRestore
    | restore _ popped stack registers _ =>
        have size : c'.machine.stack.size = depth := by
          rw [stack, Array.size_push] at top
          exact Nat.succ.inj top
        rw [stack, ← size, Array.getElem?_push_size] at there
        cases there
        exact registers
  refine ⟨?_, registers⟩
  unfold Machine.read
  rw [registers, Machine.store, Array.getElem?_modify, if_pos rfl,
    Array.getElem?_eq_getElem inside]
  rfl

theorem exists_runs_runFor (source : Value) (b : Bench) (steps : Nat) :
    ∃ past, b.Runs source past (left (runFor steps b)) := by
  induction steps generalizing b with
  | zero => exact ⟨[], .refl⟩
  | succ steps ih =>
      have first : b.Runs source [⟨executed? b, left (step b)⟩] (left (step b)) := .next .refl .step
      unfold runFor
      simp only [Bind.bind, EStateM.bind]
      cases ran : step b with
      | error e b' =>
          rw [ran] at first
          exact ⟨_, first⟩
      | ok state b' =>
          rw [ran] at first
          obtain ⟨later, rest⟩ := ih b'
          cases state with
          | halted => exact ⟨_, first⟩
          | _ => exact ⟨_, first.trans rest⟩

/--
The stack is last-in, first-out. A machine that has been given a program is started, in whatever
state it is by then, and it runs, by itself or with others. Then the counts are right all the time;
and if an instruction saves something and the stack gets deeper and less deep until the entry is on
top again, an instruction that restores it writes into its register what was saved. If that is a
value, it has been kept on all the heaps in between, with all that could be reached from it.
-/
theorem stack_last_in_first_out {program : Value} {others : Heap.Ledger} {a a' b₀ : Bench}
    {trace : Bool} (installed : install program a = .ok () a')
    (reaches : ReflTransGen (Moves fun _ _ => True) a' b₀) (accounts : b₀.Accounts source others)
    (tidy : b₀.heap.Tidy) (started : start trace b₀ = .ok () b) :
    (∀ steps, ∃ past, b.Runs source past (left (runFor steps b))) ∧
    (∀ past c, b.Runs source past c → c.machine.Counts past) ∧
    ∀ past c origin c₁ segment c₂ register c₃,
      b.Runs source past c → c.Passes source (some (.save origin)) c₁ →
      c₁.Runs source segment c₂ → (∀ moment ∈ segment, c.machine.stack.size < moment.depth) →
      c₂.machine.stack.size = c.machine.stack.size + 1 →
      c₂.Passes source (some (.restore register)) c₃ →
        c₃.machine.read register = c.machine.fetch origin ∧
        c₃.machine.registers = (c₂.machine.store register (c.machine.fetch origin)).registers ∧
        ∀ v, c.machine.fetch origin = .value v → Heap.KeptThrough v (c₁.heaps segment) := by
  have u₀ : b.Underway source ∧ b.machine = b₀.machine.started trace := by
    have wired := (wired_install installed).1.grows (grows_of_moves reaches)
    have grows := (Machine.invariant_grows b₀.machine).start (.refl b₀.machine) trace
    have kept := keepsAccounts_start trace b₀ source others accounts
    have tidy := (leads_start trace b₀).tidy tidy
    rw [started] at grows kept tidy
    rcases start_cases b₀ trace with ⟨_, failed⟩ | ⟨_, ran⟩
    · cases failed.symm.trans started
    · cases ran.symm.trans started
      exact ⟨⟨.inl rfl, wired.grows grows, ⟨others, kept⟩, tidy⟩, rfl⟩
  obtain ⟨u, fresh⟩ := u₀
  refine ⟨exists_runs_runFor source b, fun past c runs => ?_, ?_⟩
  · exact runs.counts u (by rw [fresh]; rfl) (fresh ▸ .started _ trace)
  · intro past c origin c₁ segment c₂ register c₃ runs saves further deeper top restores
    have u' := runs.underway u
    have u₁ := saves.underway u'
    cases (saves.shifts u'.started).1 with
    | still noSave _ _ _ => cases noSave
    | save _ saved _ payload stack _ =>
        -- Nothing below the top changes, so the same entry is on top when the depth is the same.
        have there : c₁.machine.stack[c.machine.stack.size]? = some saved := by
          rw [stack, Array.getElem?_push_size]
        obtain ⟨there', kept⟩ := further.entry u₁ there deeper
        obtain ⟨read, registers⟩ := restores.restored (further.underway u₁) there' top
        rw [payload] at read registers kept
        refine ⟨read, registers, fun v same => ?_⟩
        rwa [same] at kept

/--
A heap with the list `((assign x (op cons) (const ()) (const ())) (save x) (assign x (const ()))
(restore x))` in slot 26. The first instruction makes the list of its operands, and then a pair in
slot 29.
-/
def juggling : Heap :=
  { Heap.empty 32 with
    slots := #[
      .environment .nil none, .symbol "t", .symbol "assign", .symbol "x", .symbol "op",
      .symbol "cons", .symbol "const", .symbol "save", .symbol "restore",
      .pair .nil .nil, .pair (.slot 6) (.slot 9), .pair (.slot 5) .nil, .pair (.slot 4) (.slot 11),
      .pair (.slot 10) .nil, .pair (.slot 10) (.slot 13), .pair (.slot 12) (.slot 14),
      .pair (.slot 3) (.slot 15), .pair (.slot 2) (.slot 16),
      .pair (.slot 3) .nil, .pair (.slot 7) (.slot 18),
      .pair (.slot 3) (.slot 13), .pair (.slot 2) (.slot 20),
      .pair (.slot 8) (.slot 18),
      .pair (.slot 22) .nil, .pair (.slot 21) (.slot 23), .pair (.slot 19) (.slot 24),
      .pair (.slot 17) (.slot 25)].map fun o => ⟨some o, false⟩
    live := 27 }

def juggler : Bench := left (install (.slot 26) (build Setup.standard juggling))

/-- The machine after so many steps. -/
def juggled : (steps : Nat) → Bench
  | 0 => left (start false juggler)
  | steps + 1 => left (step (juggled steps))

/-- The machine after three steps and a collection, when nothing but the stack holds the pair. -/
def swept : Bench := ⟨(juggled 3).machine, (juggled 3).heap.collect.1⟩

theorem stack_last_in_first_out_juggler :
    install (.slot 26) (build Setup.standard juggling) = .ok () juggler ∧
      juggler.Accounts (.slot 26) [] ∧ juggler.heap.Tidy ∧
      start false juggler = .ok () (juggled 0) ∧
      (∃ past, (juggled 0).Runs (.slot 26) past (left (step swept)) ∧
        (left (step swept)).machine.Counts past) ∧
      (juggled 1).machine.fetch (.register 0) = .value (.slot 29) ∧
      (juggled 3).machine.read 0 = .value .nil ∧
      (left (step swept)).machine.read 0 = .value (.slot 29) ∧
      swept.heap.object? (.slot 29) = some (.pair .nil .nil) := by
  have installed : install (.slot 26) (build Setup.standard juggling) = .ok () juggler :=
    eq_ok_left (by decide +kernel)
  have accounts : juggler.Accounts (.slot 26) [] := by
    have empty : juggling.Accounts [] := (Heap.Accounts.empty 32).of_eq rfl rfl
    have built : (build Setup.standard juggling).Accounts .nil [] :=
      accounts_build empty Setup.standard
    have kept := accounts_install built (.slot 26)
    rw [installed] at kept
    exact kept
  have tidy : juggler.heap.Tidy := by
    have tidy : juggling.Tidy := ⟨.nil, nofun, by decide +kernel⟩
    have built := (repinned_build Setup.standard juggling).leads.tidy tidy
    exact (repinned_install (build Setup.standard juggling) (.slot 26)).leads.tidy built
  have started : start false juggler = .ok () (juggled 0) := by
    rcases start_cases juggler false with ⟨none, _⟩ | ⟨_, ran⟩
    · obtain ⟨_, _, _, has, _⟩ := follows_of_install installed
      cases none.symm.trans has
    · rw [juggled, ran]
      rfl
  have saves : executed? (juggled 1) = some (.save (.register 0)) := by decide +kernel
  have restores : executed? swept = some (.restore 0) := by decide +kernel
  have held : (juggled 1).machine.fetch (.register 0) = .value (.slot 29) := by decide +kernel
  have first : (juggled 0).Runs (.slot 26) _ (juggled 1) := .next .refl .step
  have segment : (juggled 2).Runs (.slot 26)
      [⟨none, swept⟩, ⟨executed? (juggled 2), juggled 3⟩] swept :=
    .next (.next .refl .step) .collect
  have deeper : (juggled 1).machine.stack.size < (juggled 3).machine.stack.size := by
    decide +kernel
  obtain ⟨-, counts, lifo⟩ := stack_last_in_first_out installed .refl accounts tidy started
  have all : (juggled 0).Runs (.slot 26) _ (left (step swept)) :=
    .next (.next (.next (.next first .step) .step) .collect) .step
  obtain ⟨read, -, kept⟩ := lifo _ _ (.register 0) _ _ _ 0 (left (step swept)) first
    (saves ▸ .step) segment
    (List.forall_mem_cons.2 ⟨deeper, List.forall_mem_singleton.2 deeper⟩) (by decide +kernel)
    (restores ▸ .step)
  have pair : (juggled 3).heap.object? (.slot 29) = some (.pair .nil .nil) :=
    Heap.pair?_eq_some_iff.1 (by decide +kernel)
  have there : (juggled 3).heap.ReachableFrom (· = .slot 29) 29 :=
    .start rfl (Heap.occupied_of_object? pair)
  have secures := (kept _ held).secures (juggled 3).heap (.tail _ (.head _))
  exact ⟨installed, accounts, tidy, started, ⟨_, all, counts _ _ all⟩, held,
    by decide +kernel, read.trans held, (secures 29 there).trans pair⟩

end Running

end Bench

end Lisplet
