import Lisplet.Proofs.Saving
import Lisplet.Proofs.Machine.Effects

/-!
# Failure — what a failed step leaves behind

An instruction has its effect on the machine after all that may fail, and so do the primitives that
it calls. So a step of a running machine that fails has done nothing: the machine is as it was, and
the heap has the same roots and pins and the same objects under them.
-/

namespace Lisplet

namespace Bench

/-- `b'` has the machine of `b`, and a heap in which all is there that was kept in that of `b`. -/
structure Spares (b b' : Bench) : Prop where
  machine_eq : b'.machine = b.machine
  level : b.heap.Level b'.heap
  saves : ∀ base : Heap, base.Saves b.heap b'.heap

namespace Spares

variable {b b' b'' : Bench}

theorem refl (b : Bench) : b.Spares b :=
  ⟨rfl, Heap.composes_level.refl _, fun base => (Heap.Saves.composes base).refl _⟩

theorem trans (s : b.Spares b') (s' : b'.Spares b'') : b.Spares b'' :=
  ⟨s'.machine_eq.trans s.machine_eq, Heap.composes_level.trans s.level s'.level,
    fun base => (Heap.Saves.composes base).trans (s.saves base) (s'.saves base)⟩

/-- A note in the journal is no change to anything. -/
theorem noteExecuting (line : Line) (b : Bench) : b.Spares (b.noteExecuting line) := by
  unfold Bench.noteExecuting
  split
  split
  · exact ⟨rfl, dataConduct_level.note _ _, fun base => (dataConduct_saves base).note _ _⟩
  · exact .refl _

end Spares

/-! ## Operations that fail without effect -/

section Operations

variable {ε α β : Type} {op : BenchM ε α} {next : α → BenchM ε β} {f : Bench → Bench}

/-- The operation does not fail. -/
def Succeeds (op : BenchM ε α) : Prop := ∀ b, ∃ a b', op b = .ok a b'

/-- If the operation fails, it has had no effect. -/
def Reverts (op : BenchM ε α) : Prop := ∀ b e b', op b = .error e b' → b.Spares b'

namespace Succeeds

theorem change (f : Bench → Bench) : Succeeds (modify f : BenchM ε Unit) :=
  fun b => ⟨(), f b, rfl⟩

theorem modify_bind {next : Unit → BenchM ε β} (rest : Succeeds (next ())) :
    Succeeds (modify f >>= next) := fun b => rest (f b)

theorem get_bind {f : Bench → BenchM ε β} (succeeds : ∀ b, Succeeds (f b)) :
    Succeeds (get >>= f) := fun b => succeeds b b

theorem pure (a : α) : Succeeds (pure a : BenchM ε α) := fun b => ⟨a, b, rfl⟩

end Succeeds

namespace Reverts

theorem throw (e : ε) : Reverts (throw e : BenchM ε α) := by
  intro b e b' fails
  cases fails
  exact .refl b

theorem ofSucceeds (succeeds : Succeeds op) : Reverts op := by
  intro b e b' fails
  rcases succeeds b with ⟨a, b'', done⟩
  cases done.symm.trans fails

theorem get_bind {f : Bench → BenchM ε β} (reverts : ∀ b, Reverts (f b)) :
    Reverts (get >>= f) := fun b => reverts b b

theorem modify_bind {next : Unit → BenchM ε β} (spares : ∀ b : Bench, b.Spares (f b))
    (rest : Reverts (next ())) : Reverts (modify f >>= next) :=
  fun b e b' fails => (spares b).trans (rest (f b) e b' fails)

/-- What has an effect must come after all that may fail. -/
theorem bind (first : Reverts op) (rest : ∀ a, Succeeds (next a)) : Reverts (op >>= next) := by
  intro b e b' fails
  simp only [Bind.bind, EStateM.bind] at fails
  cases step : op b with
  | ok a b₁ =>
      rw [step] at fails
      rcases rest a b₁ with ⟨c, b₂, done⟩
      cases done.symm.trans fails
  | error e₁ b₁ =>
      rw [step] at fails
      cases fails
      exact first b _ _ step

end Reverts

theorem bind_of_error {op : BenchM ε α} {b b' : Bench} {e : ε} (fails : op b = .error e b')
    (next : α → BenchM ε β) : (op >>= next) b = .error e b' := by
  simp only [Bind.bind, EStateM.bind, fails]

theorem onHeap_of_error {op : HeapM Fatal α} {b : Bench} {h' : Heap} {e : Fatal}
    (fails : op b.heap = .error e h') : onHeap op b = .error (.fatal e) ⟨b.machine, h'⟩ := by
  unfold onHeap
  dsimp only
  rw [fails]

end Operations

/-! ## Instructions -/

/-- A call makes the list of its arguments, and what the primitive does it does last. -/
theorem reverts_call (c : Call) : Reverts (call c) := by
  refine .get_bind fun b => ?_
  split
  · exact .throw _
  · next values _ =>
    intro b e b' fails
    have conduct := conduct_level
    have level : HeapM.Obeys Heap.Level b.heap (HeapM.scope do
        let args ← HeapM.list values
        HeapM.root args
        Callable.call c.operation args) :=
      conduct.scope (.bind conduct.within (conduct.partly (conduct.obeys_list _ values))
        fun args h' _ => conduct.root_bind (conduct.partly (conduct.obeys_call _ _ args)))
    have aborts (base : Heap) : HeapM.Aborts base.Saves b.heap (HeapM.scope do
        let args ← HeapM.list values
        HeapM.root args
        Callable.call c.operation args) := by
      have saves := dataConduct_saves base
      refine .scope (fun _ => saves.close) (.bind saves.along (saves.obeys_list _ values) ?_)
      exact fun args h' _ => .bind saves.along (saves.addRoot h' args) fun _ h'' _ =>
        HeapM.aborts_call h'' c.operation args
    unfold onHeap at fails
    dsimp only at fails
    split at fails
    · cases fails
    · next ran =>
      cases fails
      unfold HeapM.Obeys Heap.Operation.heapAfter at level
      rw [ran] at level
      exact ⟨rfl, level, fun base => aborts base _ _ ran⟩

theorem reverts_push (payload : Payload) : Reverts (push payload) := by
  intro b e b' fails
  rcases push_cases payload b with ⟨_, step⟩ | ⟨_, step⟩
  · cases step.symm.trans fails
    exact .refl b
  · cases step.symm.trans fails

theorem reverts_restore (register : Nat) : Reverts (restore register) := by
  intro b e b' fails
  rcases restore_cases register b with ⟨_, step⟩ | ⟨_, _, _, step⟩
  · cases step.symm.trans fails
    exact .refl b
  · cases step.symm.trans fails

theorem reverts_execute (code : Code) : Reverts (execute code) := by
  cases code with
  | assign register source => exact .ofSucceeds (.change _)
  | assignCall register c => exact .bind (reverts_call c) fun value => .change _
  | test c => exact .bind (reverts_call c) fun value => .change _
  | branch target => exact .ofSucceeds (.change _)
  | jump target => exact .ofSucceeds (.change _)
  | jumpRegister register =>
      refine .get_bind fun b => ?_
      split
      · exact .ofSucceeds (.change _)
      · exact .get_bind fun b => .throw _
  | perform c => exact .bind (reverts_call c) fun _ => .change _
  | save source => exact .get_bind fun b => .bind (reverts_push _) fun _ => .change _
  | restore register => exact .bind (reverts_restore register) fun _ => .change _

theorem reverts_executeNext : Reverts executeNext := by
  refine .get_bind fun b => ?_
  split
  · next line _ =>
    exact .modify_bind (Spares.noteExecuting line) <| .bind (reverts_execute _) fun _ =>
      .modify_bind (.change haltAtEnd)
  · exact .ofSucceeds (.change haltAtEnd)

/-! ## Steps -/

/--
A step of a running machine that fails changes nothing, whatever it fails for: the machine has the
same program counter, flag, registers, stack, counts, state and program; the heap has the same roots
and the same pins, used or not; and every object that they keep is as it was.
-/
theorem failed_step_changes_nothing {b b' : Bench} {e : MachineError}
    (running : b.machine.state = .running) (tidy : b.heap.Tidy) (fails : step b = .error e b') :
    b'.machine = b.machine ∧
      b'.heap.roots = b.heap.roots ∧
      b'.heap.pins = b.heap.pins ∧
      b'.heap.freePins = b.heap.freePins ∧
      ∀ i, b.heap.Reachable i → b'.heap.object? (.slot i) = b.heap.object? (.slot i) := by
  have body : step b = (executeNext >>= fun _ => do pure (← get).machine.state) b := by
    unfold step
    rw [get_bind_apply, running]
  have reverts : Reverts (executeNext >>= fun _ => do pure (← get).machine.state) :=
    .bind reverts_executeNext fun _ => .get_bind fun b => .pure _
  have spares := reverts b e b' (body.symm.trans fails)
  have saved := (spares.saves b.heap).saved (.refl tidy)
  exact ⟨spares.machine_eq, spares.level.roots_eq, spares.level.pins_eq, spares.level.freePins_eq,
    saved.kept⟩

/-- A machine that is to make a pair in a heap where there is no room for one. -/
def cramped : Bench :=
  let call : Call := ⟨"cons", .cons, [.const .nil, .const .nil]⟩
  let empty := Bench.empty 8 .standard (.empty 0)
  { machine :=
      { empty.machine with
        state := .running
        program := some ⟨⟨1⟩, #[⟨"(perform (op cons) (const ()) (const ()))", .perform call⟩], []⟩ }
    heap := empty.heap }

theorem failed_step_changes_nothing_cramped :
    ∃ e b', cramped.machine.state = .running ∧ cramped.heap.Tidy ∧ step cramped = .error e b' ∧
      b'.machine = cramped.machine ∧
      b'.heap.roots = cramped.heap.roots ∧
      b'.heap.pins = cramped.heap.pins ∧
      b'.heap.freePins = cramped.heap.freePins ∧
      ∀ i, cramped.heap.Reachable i →
        b'.heap.object? (.slot i) = cramped.heap.object? (.slot i) := by
  have tidy : cramped.heap.Tidy := (Heap.arena_empty 0).tidy.transfer rfl rfl
  have fails : ∃ e h', HeapM.cons .nil .nil cramped.heap = .error e h' := by
    rcases HeapM.cons_cases .nil .nil cramped.heap with ⟨room, _⟩ | ⟨e, step⟩
    · exact absurd room (Nat.not_lt_zero _)
    · exact ⟨e, _, step⟩
  rcases fails with ⟨e, h', noRoom⟩
  have fails : step cramped = .error (.fatal e) ⟨cramped.machine,
      (h'.truncateRoots 0).truncateRoots 0⟩ := by
    have call : HeapM.scope (do
        let args ← HeapM.list [.nil, .nil]
        HeapM.root args
        Primitive.cons.call args) cramped.heap =
          .error e ((h'.truncateRoots 0).truncateRoots 0) := by
      have list : HeapM.list [.nil, .nil] cramped.heap = .error e (h'.truncateRoots 0) := by
        show HeapM.scope (HeapM.cons .nil .nil >>= fun pair => HeapM.consAll pair [.nil])
          cramped.heap = _
        simp only [HeapM.scope, Bind.bind, EStateM.bind, noRoom]
        rfl
      simp only [HeapM.scope, Bind.bind, EStateM.bind, list]
      rfl
    have steps : step cramped = (do
        let _ ← onHeap (HeapM.scope do
          let args ← HeapM.list [.nil, .nil]
          HeapM.root args
          Primitive.cons.call args)
        modify advance
        modify countExecuted
        modify haltAtEnd
        pure (← get).machine.state) cramped := rfl
    exact steps.trans (bind_of_error (onHeap_of_error call) _)
  exact ⟨_, _, rfl, tidy, fails, failed_step_changes_nothing rfl tidy fails⟩

end Bench

end Lisplet
