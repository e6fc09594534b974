import Lisplet.Machine.Run
import Lisplet.Proofs.Heap.Pins

/-!
# Effects — what the operations of a machine do to it
-/

namespace Lisplet

/-! ## Registers by name -/

/-- What a register is like that has just come into being. -/
structure Register.IsNew (register : Register) : Prop where
  payload_eq : register.payload = .value .nil
  monitored_eq : register.monitored = false

namespace Machine

section Registers

variable {ω : Type} {m : Machine ω} {name other : String} {index : Nat}

theorem index?_eq_findIdx? (m : Machine ω) (name : String) :
    m.index? name = (m.registers.map Register.name).findIdx? (· == name) := by
  rw [Array.findIdx?_map]
  rfl

/-- A name that refers to a place is the name of the register there. -/
theorem register_of_index? (found : m.index? name = some index) :
    ∃ register, m.registers[index]? = some register ∧ register.name = name := by
  obtain ⟨inside, same, -⟩ := Array.findIdx?_eq_some_iff_getElem.1 found
  exact ⟨m.registers[index], Array.getElem?_eq_getElem inside, eq_of_beq same⟩

theorem index?_isSome_iff :
    (m.index? name).isSome ↔ name ∈ m.registers.toList.map Register.name := by
  rw [Machine.index?, Array.findIdx?_isSome, ← Array.any_toList, List.any_eq_true, List.mem_map]
  simp only [beq_iff_eq]

end Registers

end Machine

namespace Bench

variable {ω : Type}

/-- What an operation leaves behind, whether it fails or not. -/
def left {ε α : Type} : EStateM.Result ε (Bench ω) α → Bench ω
  | .ok _ b => b
  | .error _ b => b

theorem eq_ok_left {ε : Type} {op : EStateM ε (Bench ω) Unit} {b : Bench ω}
    (ends : (op.run' b).isSome = true) : op b = .ok () (left (op b)) := by
  unfold EStateM.run' EStateM.run at ends
  cases ran : op b with
  | ok _ b' => rfl
  | error e b' =>
      rw [ran] at ends
      cases ends

section Writes

variable {b : Bench ω} {name : String} {index : Nat}

theorem write_eq {register : Register} (there : b.machine.registers[index]? = some register)
    (payload : Payload) :
    b.write index payload =
      { machine :=
          { b.machine with
            registers := b.machine.registers.setIfInBounds index { register with payload } }
        heap :=
          let heap := b.heap.repin register.pin payload.held
          if register.monitored then heap.note (.assigned register.name (payload.text heap))
          else heap } := by
  rcases b with ⟨machine, heap⟩
  simp only [write]
  rw [there]

theorem write_of_none (missing : b.machine.registers[index]? = none) (payload : Payload) :
    b.write index payload = b := by
  rcases b with ⟨machine, heap⟩
  simp only [write]
  rw [missing]

/-- A write keeps every register its name and its place. -/
theorem index?_write (b : Bench ω) (index : Nat) (payload : Payload) (name : String) :
    (b.write index payload).machine.index? name = b.machine.index? name := by
  cases there : b.machine.registers[index]? with
  | none => rw [write_of_none there]
  | some register =>
      rw [write_eq there]
      have names : (b.machine.registers.setIfInBounds index { register with payload }).map
          Register.name = b.machine.registers.map Register.name := by
        apply Array.ext_getElem?
        intro i
        by_cases here : index = i
        · subst here
          have inside := (Array.getElem?_eq_some_iff.1 there).1
          rw [Array.getElem?_map, Array.getElem?_setIfInBounds_self_of_lt inside,
            Array.getElem?_map, there]
          rfl
        · rw [Array.getElem?_map, Array.getElem?_setIfInBounds_ne here, Array.getElem?_map]
      rw [Machine.index?_eq_findIdx?, Machine.index?_eq_findIdx?]
      exact congrArg (Array.findIdx? (· == name)) names

end Writes

/-! ## Registers coming into being -/

theorem declare_of_some {b : Bench ω} {name : String} {index : Nat}
    (found : b.machine.index? name = some index) : b.declare name = b := by
  unfold declare
  rw [found]

theorem declare_of_none {b : Bench ω} {name : String} (new : b.machine.index? name = none) :
    b.declare name =
      { machine :=
          { b.machine with
            registers := b.machine.registers.push
              { name, payload := .value .nil, pin := (b.heap.pin .nil).1, monitored := false } }
        heap := (b.heap.pin .nil).2 } := by
  unfold declare
  rw [new]

/-- A register that is new comes behind those that are there. -/
theorem registers_declare {b : Bench ω} {name : String} (new : b.machine.index? name = none) :
    ∃ register : Register, register.name = name ∧ register.IsNew ∧
      (b.declare name).machine.registers.toList = b.machine.registers.toList ++ [register] := by
  refine ⟨{ name, payload := .value .nil, pin := (b.heap.pin .nil).1, monitored := false }, rfl,
    ⟨rfl, rfl⟩, ?_⟩
  rw [declare_of_none new]
  exact Array.toList_push

/--
The registers that are named come into being behind those that are there, in the order in which they
are first named.
-/
theorem exists_declared (b : Bench ω) (names : List String) :
    ∃ new : List Register,
      (names.foldl declare b).machine.registers.toList = b.machine.registers.toList ++ new ∧
      new.map Register.name =
        (names.filter fun name => (b.machine.index? name).isNone).eraseDups ∧
      ∀ register ∈ new, register.IsNew := by
  induction names generalizing b with
  | nil => exact ⟨[], by simp, rfl, nofun⟩
  | cons name names ih =>
      rw [List.foldl_cons, List.filter_cons]
      cases found : b.machine.index? name with
      | some index =>
          rw [declare_of_some found]
          simpa using ih b
      | none =>
          rcases registers_declare found with ⟨register, isName, isNew, after⟩
          rcases ih (b.declare name) with ⟨new, registers, named, allNew⟩
          have known (other : String) : ((b.declare name).machine.index? other).isSome ↔
              (b.machine.index? other).isSome ∨ other = name := by
            rw [Machine.index?_isSome_iff, Machine.index?_isSome_iff, after, List.map_append,
              List.mem_append, List.map_singleton, List.mem_singleton, isName]
          have unknown (other : String) : ((b.declare name).machine.index? other).isNone =
              ((!other == name) && (b.machine.index? other).isNone) := by
            rw [← Option.not_isSome, ← Option.not_isSome, Bool.eq_iff_iff]
            simp only [Bool.not_eq_true', Bool.and_eq_true, ← Bool.not_eq_true, known, not_or,
              beq_iff_eq, and_comm]
          refine ⟨register :: new, ?_, ?_, List.forall_mem_cons.2 ⟨isNew, allNew⟩⟩
          · rw [registers, after, List.append_assoc, List.singleton_append]
          · rw [List.map_cons, isName, named, if_pos (by rfl), List.eraseDups_cons,
              List.filter_filter]
            simp only [unknown]

/-- Nothing but its registers is different on a machine, and nothing but the pins in its heap. -/
theorem declareAll_eq (b : Bench ω) (names : List String) :
    names.foldl declare b =
      { machine := { b.machine with registers := (names.foldl declare b).machine.registers }
        heap :=
          { b.heap with
            pins := (names.foldl declare b).heap.pins
            freePins := (names.foldl declare b).heap.freePins } } := by
  induction names generalizing b with
  | nil => rfl
  | cons name names ih =>
      rw [List.foldl_cons]
      refine (ih (b.declare name)).trans ?_
      cases found : b.machine.index? name with
      | some index => rw [declare_of_some found]
      | none =>
          rw [declare_of_none found]
          dsimp only
          rw [Heap.pin_eq]

/-- What is different about the registers is that there are new ones behind the others. -/
theorem machine_declareAll (b : Bench ω) (names : List String) :
    ∃ new : List Register,
      new.map Register.name =
        (names.filter fun name => (b.machine.index? name).isNone).eraseDups ∧
      (∀ register ∈ new, register.IsNew) ∧
      (names.foldl declare b).machine =
        { b.machine with registers := b.machine.registers ++ new.toArray } := by
  obtain ⟨new, registers, named, isNew⟩ := exists_declared b names
  have same : (names.foldl declare b).machine.registers = b.machine.registers ++ new.toArray := by
    rw [← Array.toList_inj, registers, Array.toList_append]
  refine ⟨new, named, isNew, ?_⟩
  rw [declareAll_eq]
  dsimp only
  rw [same]

theorem operations_declareAll (b : Bench ω) (names : List String) :
    (names.foldl declare b).machine.operations = b.machine.operations := by rw [declareAll_eq]

theorem index?_declareAll {b : Bench ω} {names : List String} {name : String} :
    ((names.foldl declare b).machine.index? name).isSome ↔
      (b.machine.index? name).isSome ∨ name ∈ names := by
  rcases exists_declared b names with ⟨new, registers, named, -⟩
  rw [Machine.index?_isSome_iff, registers, List.map_append, List.mem_append, named,
    List.mem_eraseDups, List.mem_filter, ← Machine.index?_isSome_iff, Option.isNone_iff_eq_none]
  cases b.machine.index? name with
  | none => simp
  | some index => simp

theorem monitor_eq {b : Bench ω} {index : Nat} {register : Register}
    (there : b.machine.registers[index]? = some register) :
    b.monitor index =
      ⟨{ b.machine with
          registers :=
            b.machine.registers.setIfInBounds index { register with monitored := true } },
        b.heap⟩ := by
  rcases b with ⟨machine, heap⟩
  simp only [monitor]
  rw [there]

theorem monitor_of_none {b : Bench ω} {index : Nat}
    (missing : b.machine.registers[index]? = none) : b.monitor index = b := by
  rcases b with ⟨machine, heap⟩
  simp only [monitor]
  rw [missing]

/-! ## The stack -/

theorem push_cases (payload : Payload) (b : Bench ω) :
    (b.machine.stackLimit ≤ b.machine.stack.size ∧
      push payload b = .error (.stackOverflow b.machine.stackLimit) b) ∨
    (b.machine.stack.size < b.machine.stackLimit ∧
      push payload b = .ok ()
        { machine :=
            { b.machine with
              stack := b.machine.stack.push ⟨payload, (b.heap.pin payload.held).1⟩
              stats :=
                { totalPushes := b.machine.stats.totalPushes + 1
                  maxDepth := max b.machine.stats.maxDepth (b.machine.stack.size + 1)
                  currentDepth := b.machine.stack.size + 1 } }
          heap := (b.heap.pin payload.held).2 }) := by
  unfold push
  by_cases full : b.machine.stackLimit ≤ b.machine.stack.size
  · exact .inl ⟨full, if_pos full⟩
  · exact .inr ⟨Nat.lt_of_not_le full, if_neg full⟩

theorem restore_cases (index : Nat) (b : Bench ω) :
    (b.machine.stack = #[] ∧
      restore index b = .error (.emptyStack (b.machine.registerName index)) b) ∨
    ∃ stack saved, b.machine.stack = stack.push saved ∧
      restore index b = .ok ()
        (let stats := { b.machine.stats with currentDepth := stack.size }
        let b' := write ⟨{ b.machine with stack, stats }, b.heap⟩ index saved.payload
        ⟨b'.machine, b'.heap.unpin saved.pin⟩) := by
  rcases b with ⟨machine, heap⟩
  cases top : machine.stack.back? with
  | none =>
      refine .inl ⟨by simpa using top, ?_⟩
      simp only [restore, top]
  | some saved =>
      obtain ⟨stack, whole⟩ := Array.back?_eq_some_iff.1 top
      refine .inr ⟨stack, saved, whole, ?_⟩
      simp only [restore, top]
      rw [whole, Array.pop_push]

/-! ## Going back and giving up -/

theorem reset_eq (b : Bench ω) :
    b.reset =
      setFlag
        ⟨{ b.machine with stack := #[], stats := ⟨0, 0, 0⟩, pc := 0 },
          b.machine.stack.toList.foldl (fun heap saved => heap.unpin saved.pin) b.heap⟩ .nil := by
  unfold reset
  rw [Array.foldl_toList]

theorem dropProgram_eq (b : Bench ω) :
    b.dropProgram = ⟨b.machine, match b.machine.program with
      | some program => b.heap.unpin program.source
      | none => b.heap⟩ := by
  rcases b with ⟨machine, heap⟩
  cases installed : machine.program <;> simp [dropProgram, installed]

theorem release_eq (b : Bench ω) :
    b.release =
      let b' := b.dropProgram.reset
      b'.machine.registers.toList.foldl (fun heap register => heap.unpin register.pin)
        (b'.heap.unpin b'.machine.flagPin) := by
  rcases b with ⟨machine, heap⟩
  rw [dropProgram_eq, Array.foldl_toList]
  rfl

/-! ## Operations that keep an invariant -/

/--
Whatever an operation ends with when it starts at `b`, it keeps `I`; and if it succeeds, its result
satisfies `Q`.
-/
def Keeps {ε α : Type} (I : Bench ω → Prop) (b : Bench ω) (op : MachineM ω ε α)
    (Q : Bench ω → α → Prop) : Prop :=
  match op b with
  | .ok a b' => I b' ∧ Q b' a
  | .error _ b' => I b'

namespace Keeps

variable {ε α β : Type} {b : Bench ω} {I : Bench ω → Prop} {op : MachineM ω ε α}
  {next : α → MachineM ω ε β} {Q : Bench ω → α → Prop} {R : Bench ω → β → Prop}

theorem pure {a : α} (i : I b) (q : Q b a) : Keeps I b (Pure.pure a : MachineM ω ε α) Q := ⟨i, q⟩

theorem throw (i : I b) (e : ε) : Keeps I b (throw e : MachineM ω ε α) Q := i

theorem get_bind {f : Bench ω → MachineM ω ε β} (k : Keeps I b (f b) R) :
    Keeps I b (get >>= f) R := k

theorem modify {f : Bench ω → Bench ω} {Q : Bench ω → Unit → Prop} (i : I (f b))
    (q : Q (f b) ()) : Keeps I b (modify f : MachineM ω ε Unit) Q := ⟨i, q⟩

theorem bind (k : Keeps I b op Q) (continues : ∀ b' a, I b' → Q b' a → Keeps I b' (next a) R) :
    Keeps I b (op >>= next) R := by
  unfold Keeps at k ⊢
  simp only [Bind.bind, EStateM.bind]
  cases step : op b with
  | ok a b' =>
      rw [step] at k
      exact continues b' a k.1 k.2
  | error e b' =>
      rw [step] at k
      exact k

theorem of_left (i : I (left (op b))) : Keeps I b op fun _ _ => True := by
  unfold Keeps
  cases step : op b with
  | ok a b' =>
      rw [step] at i
      exact ⟨i, trivial⟩
  | error e b' =>
      rw [step] at i
      exact i

theorem left (k : Keeps I b op Q) : I (left (op b)) := by
  unfold Keeps at k
  cases step : op b with
  | ok a b' =>
      rw [step] at k
      exact k.1
  | error e b' =>
      rw [step] at k
      exact k

end Keeps

end Bench

end Lisplet
