import Lisplet.Proofs.Machine.Assembled
import Lisplet.Proofs.Machine.Effects
import Lisplet.Proofs.Machine.Symbolic

/-!
# Refinement — assembled code does what its instructions mean

Every operation of a machine is matched with one of the symbolic machine (`Mirrors`): on the
symbolic form of a machine it has the same outcome, in symbolic form, and the code stays. The
rules follow the way operations are put together, so that the matching goes from effects to
instructions, from instructions to steps and by induction to whole histories.
-/

namespace Lisplet

theorem Machine.cell?_eq {ω : Type} {m : Machine ω} {name : String} {index : Nat}
    (found : m.index? name = some index) {register : Register}
    (there : m.registers[index]? = some register) :
    m.cell? name = some ⟨register.payload, register.pin, register.monitored⟩ := by
  simp only [cell?, found, Option.bind_some, there, Option.map_some]

namespace Bench

variable {ω : Type}

section Mirroring

variable {α β : Type} {listing : Listing} {b : Bench ω}

/-- The outcome of an operation of a machine as one of the symbolic machine. -/
def outcome (listing : Listing) :
    EStateM.Result MachineError (Bench ω) α → EStateM.Result Fault (Symbolic ω) α
  | .ok a b => .ok a (b.symbolic listing)
  | .error e b => .error (.stopped e) (b.symbolic listing)

/-- The symbolic operation does on the symbolic machine what the operation does on the machine. -/
structure Mirrors (listing : Listing) (op : MachineM ω MachineError α) (op' : SymbolicM ω α)
    (b : Bench ω) : Prop where
  outcome_eq : op' (b.symbolic listing) = outcome listing (op b)
  code_kept : b.machine.KeepsCode (left (op b)).machine

namespace Mirrors

theorem pure (a : α) : Mirrors listing (pure a) (pure a) b := ⟨rfl, .refl _⟩

theorem throw (e : MachineError) :
    Mirrors listing (throw e : MachineM ω MachineError α) (throw (.stopped e)) b := ⟨rfl, .refl _⟩

theorem modify {f : Bench ω → Bench ω} {f' : Symbolic ω → Symbolic ω}
    (same : f' (b.symbolic listing) = (f b).symbolic listing)
    (kept : b.machine.KeepsCode (f b).machine) :
    Mirrors listing (modify f) (modify f') b :=
  ⟨congrArg (EStateM.Result.ok PUnit.unit) same, kept⟩

theorem set {b' : Bench ω} {s : Symbolic ω} (same : s = b'.symbolic listing)
    (kept : b.machine.KeepsCode b'.machine) : Mirrors listing (set b') (set s) b :=
  ⟨congrArg (EStateM.Result.ok PUnit.unit) same, kept⟩

theorem get_bind {f : Bench ω → MachineM ω MachineError α} {op' : SymbolicM ω α}
    (next : Mirrors listing (f b) op' b) : Mirrors listing (get >>= f) op' b :=
  ⟨next.outcome_eq, next.code_kept⟩

theorem bind_get {op : MachineM ω MachineError α} {f' : Symbolic ω → SymbolicM ω α}
    (next : Mirrors listing op (f' (b.symbolic listing)) b) : Mirrors listing op (get >>= f') b :=
  ⟨next.outcome_eq, next.code_kept⟩

/-- A name that the symbolic machine looks up on the way does not show on the machine. -/
theorem resolve {found : SymbolicM ω β} {a : β} {op : MachineM ω MachineError α}
    {f' : β → SymbolicM ω α} (resolved : found (b.symbolic listing) = .ok a (b.symbolic listing))
    (next : Mirrors listing op (f' a) b) : Mirrors listing op (found >>= f') b where
  outcome_eq := by
    have step : (found >>= f') (b.symbolic listing) = f' a (b.symbolic listing) := by
      change EStateM.bind found f' _ = _
      rw [EStateM.bind, resolved]
    rw [step, next.outcome_eq]
  code_kept := next.code_kept

theorem ok {op : MachineM ω MachineError α} {op' : SymbolicM ω α} {a : α} {b' : Bench ω}
    (step : op b = .ok a b') (step' : op' (b.symbolic listing) = .ok a (b'.symbolic listing))
    (kept : b.machine.KeepsCode b'.machine) : Mirrors listing op op' b where
  outcome_eq := by
    rw [step, step']
    rfl
  code_kept := by
    rw [step]
    exact kept

theorem of_eq {op op₁ : MachineM ω MachineError α} {op' : SymbolicM ω α} (same : op b = op₁ b)
    (mirrors : Mirrors listing op₁ op' b) : Mirrors listing op op' b where
  outcome_eq := by rw [same, mirrors.outcome_eq]
  code_kept := by
    rw [same]
    exact mirrors.code_kept

theorem bind {op : MachineM ω MachineError α} {op' : SymbolicM ω α}
    {f : α → MachineM ω MachineError β} {f' : α → SymbolicM ω β} (first : Mirrors listing op op' b)
    (next : ∀ a b', op b = .ok a b' → b.machine.KeepsCode b'.machine →
      Mirrors listing (f a) (f' a) b') :
    Mirrors listing (op >>= f) (op' >>= f') b := by
  have same := first.outcome_eq
  have kept := first.code_kept
  cases ran : op b with
  | ok a b' =>
      rw [ran] at same kept
      have rest := next a b' ran kept
      constructor
      · change EStateM.bind op' f' _ = outcome listing (EStateM.bind op f b)
        rw [EStateM.bind, same, EStateM.bind, ran]
        exact rest.outcome_eq
      · change b.machine.KeepsCode (left (EStateM.bind op f b)).machine
        rw [EStateM.bind, ran]
        exact kept.trans rest.code_kept
  | error e b' =>
      rw [ran] at same kept
      constructor
      · change EStateM.bind op' f' _ = outcome listing (EStateM.bind op f b)
        rw [EStateM.bind, same, EStateM.bind, ran]
        rfl
      · change b.machine.KeepsCode (left (EStateM.bind op f b)).machine
        rw [EStateM.bind, ran]
        exact kept

end Mirrors

end Mirroring

/-! ## Effects of instructions -/

section Effects

variable {listing : Listing} {b : Bench ω} {name : String} {index : Nat}

theorem keepsCode_write (b : Bench ω) (index : Nat) (payload : Payload) :
    b.machine.KeepsCode (b.write index payload).machine := by
  have places := index?_write b index payload
  cases there : b.machine.registers[index]? with
  | none =>
      rw [write_of_none there]
      exact .refl _
  | some register =>
      rw [write_eq there] at places ⊢
      exact ⟨rfl, rfl, fun name _ found => (places name).trans found⟩

theorem cell?_write (found : b.machine.index? name = some index) {register : Register}
    (there : b.machine.registers[index]? = some register) (payload : Payload) (other : String) :
    (b.write index payload).machine.cell? other =
      if other = name then some ⟨payload, register.pin, register.monitored⟩
      else b.machine.cell? other := by
  have inside := (Array.getElem?_eq_some_iff.1 there).1
  have place := index?_write b index payload other
  have after : (b.write index payload).machine.registers =
      b.machine.registers.setIfInBounds index { register with payload } := by rw [write_eq there]
  unfold Machine.cell?
  rw [place, after]
  by_cases same : other = name
  · subst same
    simp [found, inside]
  · rw [if_neg same]
    cases elsewhere : b.machine.index? other with
    | none => rfl
    | some index' =>
        -- One place has one name.
        have apart : index ≠ index' := by
          rintro rfl
          obtain ⟨register', there', rfl⟩ := Machine.register_of_index? found
          obtain ⟨_, there'', rfl⟩ := Machine.register_of_index? elsewhere
          rw [there'] at there''
          cases there''
          exact same rfl
        simp [Array.getElem?_setIfInBounds, apart]

theorem store_symbolic (found : b.machine.index? name = some index) (payload : Payload) :
    Symbolic.store name payload (b.symbolic listing) =
      .ok () ((b.write index payload).symbolic listing) := by
  obtain ⟨register, there, rfl⟩ := Machine.register_of_index? found
  have cell : (b.symbolic listing).cells register.name =
      some ⟨register.payload, register.pin, register.monitored⟩ := Machine.cell?_eq found there
  have cells : (b.write index payload).machine.cell? = fun other =>
      if other = register.name then some ⟨payload, register.pin, register.monitored⟩
      else b.machine.cell? other := funext (cell?_write found there payload)
  rw [write_eq there] at cells ⊢
  dsimp only at cells
  have holds : Symbolic.cell register.name (b.symbolic listing) =
      .ok ⟨register.payload, register.pin, register.monitored⟩ (b.symbolic listing) := by
    unfold Symbolic.cell
    rw [get_bind_apply, cell]
    rfl
  simp only [Symbolic.store, bind, EStateM.bind, holds]
  refine congrArg (EStateM.Result.ok ()) ?_
  simp only [symbolic, cells]

/-! ### Names -/

theorem cell_symbolic (settled : (b.naming listing.labels).register name = .ok index) :
    ∃ register, b.machine.registers[index]? = some register ∧ register.name = name ∧
      Symbolic.cell name (b.symbolic listing) =
        .ok ⟨register.payload, register.pin, register.monitored⟩ (b.symbolic listing) := by
  have found : b.machine.index? name = some index := Naming.register_eq_ok_iff.1 settled
  obtain ⟨register, there, named⟩ := Machine.register_of_index? found
  have cell : (b.symbolic listing).cells name =
      some ⟨register.payload, register.pin, register.monitored⟩ := Machine.cell?_eq found there
  refine ⟨register, there, named, ?_⟩
  unfold Symbolic.cell
  rw [get_bind_apply, cell]
  rfl

theorem target_symbolic (settled : (b.naming listing.labels).label name = .ok index) :
    Symbolic.target name (b.symbolic listing) = .ok index (b.symbolic listing) := by
  have found : (b.symbolic listing).listing.labels.lookup name = some index :=
    Naming.label_eq_ok_iff.1 settled
  unfold Symbolic.target
  rw [get_bind_apply, found]
  rfl

theorem operation_symbolic {operation : ω}
    (found : (b.naming listing.labels).operation? name = some operation) :
    Symbolic.operation name (b.symbolic listing) = .ok operation (b.symbolic listing) := by
  have found : (b.symbolic listing).operations.get? name = some operation := found
  unfold Symbolic.operation
  rw [get_bind_apply, found]
  rfl

theorem fetch_symbolic {operand : Operand} {source : Fetch}
    (settled : (b.naming listing.labels).fetch operand = .ok source) :
    Symbolic.fetch operand (b.symbolic listing) =
      .ok (b.machine.fetch source) (b.symbolic listing) := by
  cases operand with
  | const datum =>
      cases settled
      rfl
  | label name =>
      obtain ⟨index, place, rfl⟩ := map_eq_ok_iff.1 settled
      simp only [Symbolic.fetch, bind, EStateM.bind, target_symbolic place]
      rfl
  | reg name =>
      obtain ⟨index, place, rfl⟩ := map_eq_ok_iff.1 settled
      obtain ⟨register, there, -, cell⟩ := cell_symbolic place
      simp only [Symbolic.fetch, bind, EStateM.bind, cell, Machine.fetch, Machine.read, there]
      rfl

theorem fetchAll_symbolic {operands : List Operand} {sources : List Fetch}
    (settled : List.Forall₂
      (fun operand source => (b.naming listing.labels).fetch operand = .ok source)
      operands sources) :
    Symbolic.fetchAll operands (b.symbolic listing) =
      .ok (sources.map b.machine.fetch) (b.symbolic listing) := by
  induction settled with
  | nil => rfl
  | cons first _ ih =>
      simp only [Symbolic.fetchAll, bind, EStateM.bind, fetch_symbolic first, ih]
      rfl

theorem values?_symbolic (m : Machine ω) (sources : List Fetch) :
    Symbolic.values? (sources.map m.fetch) = values? m sources := by
  induction sources with
  | nil => rfl
  | cons source sources ih =>
      have step : values? m (source :: sources) =
          (m.fetch source).value?.bind fun value => (values? m sources).map (value :: ·) := by
        unfold values?
        rw [List.mapM_cons]
        cases (m.fetch source).value? with
        | none => rfl
        | some value => cases sources.mapM fun operand => (m.fetch operand).value? <;> rfl
      rw [step, List.map_cons, ← ih]
      cases m.fetch source with
      | value v => rfl
      | label index => rfl

/-! ### Mirrored effects -/

theorem mirrors_onHeap {α : Type} (op : HeapM Fatal α) :
    Mirrors listing (onHeap op) (Symbolic.onHeap op) b := by
  rcases b with ⟨machine, heap⟩
  cases ran : op heap with
  | ok a heap' =>
      constructor
      · simp only [Symbolic.onHeap, onHeap, symbolic, ran]
        rfl
      · simp only [onHeap, ran]
        exact .refl _
  | error e heap' =>
      constructor
      · simp only [Symbolic.onHeap, onHeap, symbolic, ran]
        rfl
      · simp only [onHeap, ran]
        exact .refl _

theorem mirrors_call [Callable ω] {operands : List Operand} {c : Call ω}
    (settled : (b.naming listing.labels).call name operands = .ok c) :
    Mirrors listing (call c) (Symbolic.call name operands) b := by
  obtain ⟨rfl, found, sources⟩ := Naming.call_eq_ok_iff.1 settled
  refine .get_bind (.resolve (operation_symbolic found) (.resolve (fetchAll_symbolic sources) ?_))
  rw [values?_symbolic]
  cases values? b.machine c.operands with
  | none => exact .throw _
  | some values => exact mirrors_onHeap _

theorem mirrors_store (settled : (b.naming listing.labels).register name = .ok index)
    (payload : Payload) :
    Mirrors listing (modify fun b => b.write index payload) (Symbolic.store name payload) b where
  outcome_eq := store_symbolic (Naming.register_eq_ok_iff.1 settled) payload
  code_kept := keepsCode_write b index payload

theorem mirrors_setFlag (value : Value) :
    Mirrors listing (modify fun b => b.setFlag value) (Symbolic.setFlag value) b :=
  .modify rfl (.of_eq rfl rfl rfl)

theorem mirrors_advance : Mirrors listing (modify advance) Symbolic.advance b :=
  .modify rfl (.of_eq rfl rfl rfl)

/-- An effect after which the program counter moves on. -/
theorem advanced {f : Bench ω → Bench ω} {op' : SymbolicM ω Unit}
    (effect : Mirrors listing (modify f) op' b) :
    Mirrors listing (modify fun b => (f b).advance) (do op'; Symbolic.advance) b := by
  have both : Mirrors listing (do modify f; modify advance) (do op'; Symbolic.advance) b :=
    .bind effect fun _ _ _ _ => mirrors_advance
  exact ⟨both.outcome_eq, both.code_kept⟩

theorem mirrors_jump (index : Nat) :
    Mirrors listing (modify (jump index)) (Symbolic.jump index) b :=
  .modify rfl (.of_eq rfl rfl rfl)

theorem mirrors_push (payload : Payload) :
    Mirrors listing (push payload) (Symbolic.push payload) b := by
  have depth : (b.symbolic listing).stack.length = b.machine.stack.size := by simp [symbolic]
  refine .bind_get ?_
  rw [depth]
  rcases push_cases payload b with ⟨full, step⟩ | ⟨room, step⟩
  · rw [if_neg (by exact Nat.not_lt.2 full)]
    exact .of_eq step (.throw _)
  · rw [if_pos (by exact room)]
    refine .ok step ?_ (.of_eq rfl rfl rfl)
    simp only [symbolic, Array.toList_push, List.reverse_append, List.reverse_singleton,
      List.singleton_append]
    rfl

theorem mirrors_restore (settled : (b.naming listing.labels).register name = .ok index) :
    Mirrors listing (restore index) (Symbolic.pop name) b := by
  obtain ⟨register, there, named, -⟩ := cell_symbolic settled
  refine .bind_get ?_
  rcases restore_cases index b with ⟨empty, step⟩ | ⟨stack, saved, whole, step⟩
  · have empty : (b.symbolic listing).stack = [] := by simp [symbolic, empty]
    have stopped : restore index b = .error (.emptyStack name) b := by
      rw [step, Machine.registerName, there, ← named]
    rw [empty]
    exact .of_eq stopped (.throw _)
  · have popped : (b.symbolic listing).stack = saved :: stack.toList.reverse := by
      simp [symbolic, whole]
    let stats := { b.machine.stats with currentDepth := stack.size }
    have restored : restore index b = (do
        set (⟨{ b.machine with stack, stats }, b.heap⟩ : Bench ω)
        modify fun b => b.write index saved.payload
        modify fun b => ⟨b.machine, b.heap.unpin saved.pin⟩ : MachineM ω MachineError Unit) b :=
      step
    rw [popped]
    refine .of_eq restored (.bind (.set ?_ (.of_eq rfl rfl rfl)) fun _ b' ran _ => ?_)
    · simp only [symbolic, List.length_reverse, Array.length_toList, stats]
      rfl
    · cases ran
      -- The registers are those from before the pop.
      have settled : (naming ⟨{ b.machine with stack, stats }, b.heap⟩ listing.labels).register
        name = .ok index := settled
      exact .bind (mirrors_store settled _) fun _ _ _ _ => .modify rfl (.of_eq rfl rfl rfl)

/-! ## Instructions -/

variable [Callable ω]

theorem mirrors_branch {label : String} {index : Nat}
    (place : (b.naming listing.labels).label label = .ok index) :
    Mirrors listing (execute (.branch index)) (Symbolic.execute (.branch label)) b := by
  refine .resolve (target_symbolic place) (.bind_get ?_)
  cases clear : b.machine.flag.isNil with
  | true =>
      rw [if_pos (by exact clear)]
      refine .of_eq ?_ mirrors_advance
      exact congrArg (EStateM.Result.ok ()) (if_pos clear)
  | false =>
      have set : ¬b.machine.flag.isNil = true := by simp [clear]
      rw [if_neg (by exact set)]
      refine .of_eq ?_ (mirrors_jump index)
      exact congrArg (EStateM.Result.ok ()) (if_neg set)

theorem mirrors_jumpRegister {name : String} {index : Nat}
    (place : (b.naming listing.labels).register name = .ok index) :
    Mirrors listing (execute (.jumpRegister index)) (Symbolic.execute (.goto (.reg name))) b := by
  obtain ⟨register, there, rfl, cell⟩ := cell_symbolic place
  refine .get_bind (.resolve cell ?_)
  rw [Machine.read, there]
  dsimp only
  cases register.payload with
  | label target => exact mirrors_jump target
  | value v =>
      have named : b.machine.registerName index = register.name := by
        rw [Machine.registerName, there]
      refine .get_bind ?_
      rw [named]
      exact .throw _

theorem mirrors_execute {instruction : Instruction} {code : Code ω}
    (settled : (b.naming listing.labels).resolve instruction = .ok code) :
    Mirrors listing (execute code) (Symbolic.execute instruction) b := by
  cases instruction with
  | assign register source =>
      cases source with
      | operand operand =>
          obtain ⟨index, place, rest⟩ := bind_eq_ok_iff.1 settled
          obtain ⟨source, fetched, same⟩ := bind_eq_ok_iff.1 rest
          cases same
          have stored := mirrors_store place (b.machine.fetch source)
          exact .resolve (fetch_symbolic fetched) (advanced ⟨stored.outcome_eq, stored.code_kept⟩)
      | op name operands =>
          obtain ⟨index, place, rest⟩ := bind_eq_ok_iff.1 settled
          obtain ⟨c, settledCall, same⟩ := bind_eq_ok_iff.1 rest
          cases same
          refine .bind (mirrors_call settledCall) fun value b' _ kept => ?_
          have place := Naming.register_eq_ok_iff.1 place
          exact advanced (mirrors_store
            (Naming.register_eq_ok_iff.2 (kept.index?_of register index place)) _)
  | test name operands =>
      obtain ⟨c, settledCall, rfl⟩ := map_eq_ok_iff.1 settled
      exact .bind (mirrors_call settledCall) fun value _ _ _ => advanced (mirrors_setFlag value)
  | branch label =>
      obtain ⟨index, place, rfl⟩ := map_eq_ok_iff.1 settled
      exact mirrors_branch place
  | goto location =>
      cases location with
      | label name =>
          obtain ⟨index, place, rfl⟩ := map_eq_ok_iff.1 settled
          exact .resolve (target_symbolic place) (mirrors_jump index)
      | reg name =>
          obtain ⟨index, place, rfl⟩ := map_eq_ok_iff.1 settled
          exact mirrors_jumpRegister place
  | perform name operands =>
      obtain ⟨c, settledCall, rfl⟩ := map_eq_ok_iff.1 settled
      exact .bind (mirrors_call settledCall) fun _ _ _ _ => mirrors_advance
  | save location =>
      cases location with
      | label name =>
          obtain ⟨source, fetched, rfl⟩ := map_eq_ok_iff.1 settled
          obtain ⟨index, place, rfl⟩ := map_eq_ok_iff.1 fetched
          exact .get_bind (.resolve (target_symbolic place)
            (.bind (mirrors_push _) fun _ _ _ _ => mirrors_advance))
      | reg name =>
          obtain ⟨source, fetched, rfl⟩ := map_eq_ok_iff.1 settled
          obtain ⟨index, place, rfl⟩ := map_eq_ok_iff.1 fetched
          obtain ⟨register, there, rfl, cell⟩ := cell_symbolic place
          refine .get_bind (.resolve cell ?_)
          rw [Machine.fetch, Machine.read, there]
          exact .bind (mirrors_push _) fun _ _ _ _ => mirrors_advance
  | restore register =>
      obtain ⟨index, place, rfl⟩ := map_eq_ok_iff.1 settled
      exact .bind (mirrors_restore place) fun _ _ _ _ => mirrors_advance

end Effects

/-! ## Steps -/

section Steps

variable {listing : Listing} {b : Bench ω}

theorem mirrors_note (line : Line ω) :
    Mirrors listing (modify (noteExecuting line)) (Symbolic.note line.text) b := by
  rcases b with ⟨machine, heap⟩
  by_cases traced : machine.trace = true
  · have noted : noteExecuting line ⟨machine, heap⟩ =
        ⟨machine, heap.note (.executing machine.pc line.text)⟩ := if_pos traced
    exact .modify ((if_pos traced).trans (by rw [noted]; rfl)) (by rw [noted]; exact .refl _)
  · have same : noteExecuting line ⟨machine, heap⟩ = ⟨machine, heap⟩ := if_neg traced
    exact .modify ((if_neg traced).trans (by rw [same])) (by rw [same]; exact .refl _)

theorem mirrors_haltAtEnd (follows : b.Follows listing) :
    Mirrors listing (modify haltAtEnd) Symbolic.haltAtEnd b := by
  have count := follows.lineCount_eq
  rcases b with ⟨machine, heap⟩
  by_cases atEnd : machine.lineCount ≤ machine.pc
  · have halts : haltAtEnd ⟨machine, heap⟩ = ⟨{ machine with state := .halted }, heap⟩ :=
      if_pos atEnd
    exact .modify ((if_pos (count ▸ atEnd)).trans (by rw [halts]; rfl))
      (by rw [halts]; exact (.of_eq rfl rfl rfl))
  · have same : haltAtEnd ⟨machine, heap⟩ = ⟨machine, heap⟩ := if_neg atEnd
    exact .modify ((if_neg (count ▸ atEnd)).trans (by rw [same])) (by rw [same]; exact .refl _)

theorem mirrors_executeNext [Callable ω] (follows : b.Follows listing) :
    Mirrors listing executeNext Symbolic.executeNext b := by
  refine .get_bind (.bind_get ?_)
  rw [show (b.symbolic listing).listing.lines[(b.symbolic listing).pc]? =
    listing.lines[b.machine.pc]? from rfl]
  rcases follows.current with ⟨⟨text, instruction⟩, line, there, current, rfl, settled⟩ |
    ⟨none, current⟩
  · rw [there, current]
    refine .bind (mirrors_note line) fun _ b₁ _ kept => ?_
    refine .bind (mirrors_execute (resolve_of_keepsCode kept settled)) fun _ b₂ _ kept₁ => ?_
    refine .bind (.modify (f := countExecuted) rfl (.of_eq rfl rfl rfl)) fun _ b₃ _ kept₂ => ?_
    exact mirrors_haltAtEnd (follows.of_keepsCode ((kept.trans kept₁).trans kept₂))
  · rw [none, current]
    exact mirrors_haltAtEnd follows

theorem mirrors_start (follows : b.Follows listing) :
    Mirrors listing (start b.machine.trace) Symbolic.start b := by
  obtain ⟨program, installed, -⟩ := follows
  rcases b with ⟨machine, heap⟩
  refine .get_bind ?_
  rw [if_neg (by rw [installed]; exact Bool.false_ne_true)]
  refine .modify ?_ (.of_eq rfl rfl rfl)
  simp only [symbolic, reset, setFlag, List.foldr_reverse, Array.foldl_toList]
  rfl

theorem mirrors_step [Callable ω] (follows : b.Follows listing) :
    Mirrors listing step Symbolic.step b := by
  refine .get_bind (.bind_get ?_)
  rw [show (b.symbolic listing).state = b.machine.state from rfl]
  cases b.machine.state with
  | idle => exact .throw _
  | halted => exact .pure _
  | installed =>
      refine .get_bind (.bind (mirrors_start follows) fun _ b₁ _ kept => ?_)
      refine .bind (mirrors_executeNext (follows.of_keepsCode kept)) fun _ b₂ _ _ => ?_
      exact .get_bind (.bind_get (.pure _))
  | running =>
      refine .bind (mirrors_executeNext follows) fun _ b₁ _ _ => ?_
      exact .get_bind (.bind_get (.pure _))

/-- The symbolic machine has the history of the machine. -/
theorem history_step_eq [Callable ω] (follows : b.Follows listing) (count : Nat) :
    history Symbolic.step count (b.symbolic listing) =
      (history step count b).map fun (result, b) =>
        (result.mapError .stopped, b.symbolic listing) := by
  induction count generalizing b with
  | zero => rfl
  | succ count ih =>
      obtain ⟨same, kept⟩ := mirrors_step follows
      rw [history, history, same]
      cases ran : step b with
      | ok state b' =>
          rw [ran] at kept
          exact congrArg (_ :: ·) (ih (follows.of_keepsCode kept))
      | error e b' =>
          rw [ran] at kept
          exact congrArg (_ :: ·) (ih (follows.of_keepsCode kept))

end Steps

/--
The code of a program that has been installed does what its instructions mean: whatever the
operations in the table do, whatever the registers, the flag, the stack and the heap hold, and for
any number of steps, the machine and the symbolic machine with the listing of the program go through
the same states and stop with the same errors.
-/
theorem history_of_install [Callable ω] {program : Value} {b₀ b : Bench ω}
    (installed : install program b₀ = .ok () b) :
    ∃ listing, Listing.scan (b₀.heap.pin program).2 program = .ok listing ∧
      ∀ c : Bench ω, b.machine.KeepsCode c.machine → ∀ count,
        history Symbolic.step count (c.symbolic listing) =
          (history step count c).map fun (result, c) =>
            (result.mapError .stopped, c.symbolic listing) := by
  obtain ⟨listing, scanned, follows⟩ := follows_of_install installed
  exact ⟨listing, scanned, fun c kept count => history_step_eq (follows.of_keepsCode kept) count⟩

/--
A heap with the list `(again (assign x (op answer)) (save x) (goto (label again)))`, which is in
slot 24.
-/
def answering : Heap :=
  { Heap.empty 32 with
    slots := (Heap.empty 32).slots ++ #[
      .symbol "again", .symbol "save", .symbol "x", .symbol "goto", .symbol "label",
      .symbol "assign", .symbol "op", .symbol "answer",
      .pair (.slot 4) .nil, .pair (.slot 3) (.slot 10),
      .pair (.slot 2) .nil, .pair (.slot 6) (.slot 12),
      .pair (.slot 13) .nil, .pair (.slot 5) (.slot 14),
      .pair (.slot 9) .nil, .pair (.slot 8) (.slot 16),
      .pair (.slot 17) .nil, .pair (.slot 4) (.slot 18), .pair (.slot 7) (.slot 19),
      .pair (.slot 15) .nil, .pair (.slot 11) (.slot 21), .pair (.slot 20) (.slot 22),
      .pair (.slot 2) (.slot 23)].map fun o => ⟨some o, false⟩
    live := 25 }

/--
A machine with an operation of its host. Its stack has room for one entry, so that the program stops
in its fifth step.
-/
def answerer : Bench HostFunction :=
  let answer : HostFunction := fun _ => HeapM.int 42
  let setup : Setup HostFunction :=
    { stackLimit := 1
      operations := .insert .empty "answer" answer
      registers := []
      monitored := []
      trace := false }
  build setup answering

theorem history_of_install_answerer :
    ∃ b listing, install (.slot 24) answerer = .ok () b ∧
      Listing.scan (answerer.heap.pin (.slot 24)).2 (.slot 24) = .ok listing ∧
      history Symbolic.step 6 (b.symbolic listing) =
        (history step 6 b).map fun (result, c) =>
          (result.mapError .stopped, c.symbolic listing) := by
  have assembles : ((install (.slot 24)).run' answerer).isSome = true := by decide +kernel
  unfold EStateM.run' EStateM.run at assembles
  cases ran : install (.slot 24) answerer with
  | error e b =>
      rw [ran] at assembles
      cases assembles
  | ok done b =>
      obtain ⟨listing, scanned, same⟩ := history_of_install ran
      exact ⟨b, listing, rfl, scanned, same b (.refl _) 6⟩

end Bench

end Lisplet
