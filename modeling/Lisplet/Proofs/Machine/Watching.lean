import Lisplet.Proofs.Blindness
import Lisplet.Proofs.Machine.Executing
import Lisplet.Proofs.Machine.Refinement
import Lisplet.Proofs.Machine.Tracks

/-!
# Watching — two machines with the same program

Two machines have the same program, and one of them has more registers, so that the indices of
registers and pins are others in it, and notes more of what it does. Seen by names, each
instruction does the same to both (`Symbolic.Agree`): they fetch the same payloads, call the same
operations with the same values, and stop with the same errors. What a name refers to is settled
when the program is assembled, so none is unresolved while it runs. Which slots are pinned is told
by what both have alike (`Bench.Stands.isPinned_iff`); so both heaps keep the same objects when they
are collected, and remain parallel from step to step (`Bench.Twins.step`).
-/

namespace Lisplet

open Heap

namespace Symbolic

/-- What the register of a name holds, which is nil if there is none. -/
def payload (s : Symbolic) (name : String) : Payload :=
  ((s.cells name).map Cell.payload).getD (.value .nil)

/--
`s'` is `s` but for what watching changes: which registers there are besides those of `s`, what is
noted, and which pins are in use. The heaps are related by `R`.
-/
structure Alike (R : Heap → Heap → Prop) (s s' : Symbolic) : Prop where
  rest_eq : s' =
    { s with
      cells := s'.cells, flagPin := s'.flagPin, stack := s'.stack, trace := s'.trace
      heap := s'.heap }
  stack_eq : s'.stack.map Saved.payload = s.stack.map Saved.payload
  payload_eq : ∀ name, s'.payload name = s.payload name
  known : ∀ name, (s.cells name).isSome → (s'.cells name).isSome
  heaps : R s.heap s'.heap

namespace Alike

variable {R S : Heap → Heap → Prop} {s s' : Symbolic}

theorem mono (a : s.Alike R s') (weaken : R s.heap s'.heap → S s.heap s'.heap) : s.Alike S s' :=
  ⟨a.rest_eq, a.stack_eq, a.payload_eq, a.known, weaken a.heaps⟩

theorem state_eq (a : Alike R s s') : s'.state = s.state := by rw [a.rest_eq]

theorem operations_eq (a : Alike R s s') : s'.operations = s.operations := by rw [a.rest_eq]

theorem listing_eq (a : Alike R s s') : s'.listing = s.listing := by rw [a.rest_eq]

theorem flag_eq (a : Alike R s s') : s'.flag = s.flag := by rw [a.rest_eq]

theorem stackLimit_eq (a : Alike R s s') : s'.stackLimit = s.stackLimit := by rw [a.rest_eq]

theorem stats_eq (a : Alike R s s') : s'.stats = s.stats := by rw [a.rest_eq]

theorem pc_eq (a : Alike R s s') : s'.pc = s.pc := by rw [a.rest_eq]

end Alike

/-! ## Operations on both machines -/

section Rules

variable {α β : Type} {R S : Heap → Heap → Prop} {s s' : Symbolic} {op op' : SymbolicM Primitive α}

/-- Unless a name refers to nothing, both machines end with the same result. -/
def Agree (R : Heap → Heap → Prop) (op op' : SymbolicM Primitive α) (s s' : Symbolic) : Prop :=
  (∃ cause s₁, op s = .error (.unresolved cause) s₁) ∨ Matches (Alike R) (op s) (op' s')

namespace Agree

theorem pure (a : s.Alike R s') (x : α) : Agree R (pure x) (pure x) s s' := .inr (.ok x a)

theorem throw (a : s.Alike R s') (e : Fault) :
    Agree R (throw e : SymbolicM Primitive α) (throw e) s s' := .inr (.error e a)

theorem modify {f f' : Symbolic → Symbolic} (a : (f s).Alike R (f' s')) :
    Agree R (modify f) (modify f') s s' := .inr (.ok () a)

theorem set {t t' : Symbolic} (a : t.Alike R t') : Agree R (set t) (set t') s s' := .inr (.ok () a)

theorem get_bind {f f' : Symbolic → SymbolicM Primitive α} (agree : Agree R (f s) (f' s') s s') :
    Agree R (get >>= f) (get >>= f') s s' := agree

/-- The heaps may be less alike afterwards. -/
theorem bind_weaken {f f' : α → SymbolicM Primitive β} (first : Agree R op op' s s')
    (weaken : ∀ h h', R h h' → S h h')
    (rest : ∀ x s₁ s₁', Alike R s₁ s₁' → Agree S (f x) (f' x) s₁ s₁') :
    Agree S (op >>= f) (op' >>= f') s s' := by
  unfold Agree at *
  simp only [Bind.bind, EStateM.bind]
  rcases first with ⟨cause, s₁, failed⟩ | both
  · rw [failed]
    exact .inl ⟨cause, s₁, rfl⟩
  · generalize op s = r at both
    generalize op' s' = r' at both
    cases both with
    | ok x a => exact rest x _ _ a
    | error e a => exact .inr (.error e (a.mono (weaken _ _)))

theorem bind {f f' : α → SymbolicM Primitive β} (first : Agree R op op' s s')
    (rest : ∀ x s₁ s₁', Alike R s₁ s₁' → Agree R (f x) (f' x) s₁ s₁') :
    Agree R (op >>= f) (op' >>= f') s s' :=
  first.bind_weaken (fun _ _ related => related) rest

/-- A register of the one machine is one of the other, with the same payload. -/
theorem cell_bind {name : String} {f f' : Cell → SymbolicM Primitive β} (a : s.Alike R s')
    (rest : ∀ cell cell', s.cells name = some cell → s'.cells name = some cell' →
      cell'.payload = cell.payload → Agree R (f cell) (f' cell') s s') :
    Agree R (cell name >>= f) (cell name >>= f') s s' := by
  have known := a.known name
  have same := a.payload_eq name
  unfold payload at same
  have gives {s : Symbolic} {c : Cell} (there : s.cells name = some c) :
      cell name s = .ok c s := by
    unfold cell
    rw [get_bind_apply, there]
    rfl
  unfold Agree
  simp only [Bind.bind, EStateM.bind]
  cases there : s.cells name with
  | none =>
      have fails : cell name s = .error (.unresolved (.unknownRegister name)) s := by
        unfold cell
        rw [get_bind_apply, there]
        rfl
      rw [fails]
      exact .inl ⟨.unknownRegister name, s, rfl⟩
  | some c =>
      rw [there] at known same
      obtain ⟨c', there'⟩ := Option.isSome_iff_exists.1 (known rfl)
      rw [there'] at same
      rw [gives there, gives there']
      exact rest c c' there there' same

end Agree

end Rules

/-! ## Effects -/

section Effects

variable {R : Heap → Heap → Prop} {s s' : Symbolic}

theorem agree_target (a : s.Alike R s') (label : String) :
    Agree R (target label) (target label) s s' := by
  refine .get_bind ?_
  rw [a.listing_eq]
  cases s.listing.labels.lookup label with
  | none => exact .throw a _
  | some index => exact .pure a index

theorem agree_operation (a : s.Alike R s') (name : String) :
    Agree R (operation name) (operation name) s s' := by
  refine .get_bind ?_
  rw [a.operations_eq]
  cases s.operations.get? name with
  | none => exact .throw a _
  | some primitive => exact .pure a primitive

theorem agree_fetch (a : s.Alike R s') (operand : Operand) :
    Agree R (fetch operand) (fetch operand) s s' := by
  cases operand with
  | const datum => exact .pure a _
  | label name => exact .bind (agree_target a name) fun index _ _ a => .pure a _
  | reg name => exact .cell_bind a fun _ _ _ _ same => same ▸ .pure a _

theorem agree_fetchAll (a : s.Alike R s') (operands : List Operand) :
    Agree R (fetchAll operands) (fetchAll operands) s s' := by
  induction operands generalizing s s' with
  | nil => exact .pure a _
  | cons operand operands ih =>
      exact .bind (agree_fetch a operand) fun _ _ _ a => .bind (ih a) fun _ _ _ a => .pure a _

theorem agree_onHeap {α : Type} {op : HeapM Fatal α} (blind : op.Blind) (a : s.Alike Parallel s') :
    Agree Parallel (onHeap op) (onHeap op) s s' := by
  have both := blind.matches_of a.heaps
  unfold Agree onHeap
  generalize op s.heap = r at both
  generalize op s'.heap = r' at both
  have worked {h h' : Heap} (p : h.Parallel h') :
      ({ s with heap := h } : Symbolic).Alike Parallel { s' with heap := h' } :=
    ⟨by rw [a.rest_eq], a.stack_eq, a.payload_eq, a.known, p⟩
  cases both with
  | ok x p => exact .inr (.ok x (worked p))
  | error e p => exact .inr (.error _ (worked p))

/-- The heaps are parallel when an operation is called, and then they still are. -/
theorem agree_call (a : s.Alike Parallel s') (name : String) (operands : List Operand) :
    Agree Parallel (call name operands) (call name operands) s s' := by
  refine .bind (agree_operation a name) fun primitive _ _ a => ?_
  refine .bind (agree_fetchAll a operands) fun payloads _ _ a => ?_
  cases values? payloads with
  | none => exact .throw a _
  | some values =>
      refine agree_onHeap (.scope (.bind (HeapM.blind_list values) fun args => ?_)) a
      exact .bind (.root args) fun _ => primitive.blind_call args

theorem payload_store (s : Symbolic) (name other : String) (cell : Cell) :
    ({ s with cells := fun other => if other = name then some cell else s.cells other } :
        Symbolic).payload other = if other = name then cell.payload else s.payload other := by
  unfold payload
  dsimp only
  split
  · rfl
  · rfl

/-- Each side notes the write if it watches the register. -/
theorem agree_store (a : s.Alike Repinned s') (name : String) (payload : Payload) :
    Agree Repinned (store name payload) (store name payload) s s' := by
  -- A note on what is assigned is none of what the program prints.
  have written (h : Heap) (cell : Cell) : h.Repinned
      (if cell.monitored then
        (h.repin cell.pin payload.held).note
          (.assigned name (payload.text (h.repin cell.pin payload.held)))
      else h.repin cell.pin payload.held) := by
    split
    · exact Repinned.composes.trans (.repin h _ _) (.note _ rfl)
    · exact .repin h _ _
  refine .cell_bind a fun cell cell' there there' _ => .modify ?_
  refine ⟨by rw [a.rest_eq], a.stack_eq, fun other => ?_, fun other => ?_,
    a.heaps.both (written s.heap cell) (written s'.heap cell')⟩
  · refine (payload_store s' name other { cell' with payload }).trans ?_
    rw [a.payload_eq other]
    exact (payload_store s name other { cell with payload }).symm
  · dsimp only
    split
    · exact id
    · exact a.known other

theorem agree_setFlag (a : s.Alike Repinned s') (value : Value) :
    Agree Repinned (setFlag value) (setFlag value) s s' := by
  refine .modify ⟨by rw [a.rest_eq], a.stack_eq, a.payload_eq, a.known, ?_⟩
  exact a.heaps.both (.repin _ _ _) (.repin _ _ _)

theorem agree_advance (a : s.Alike R s') : Agree R advance advance s s' :=
  .modify ⟨by rw [a.rest_eq], a.stack_eq, a.payload_eq, a.known, a.heaps⟩

theorem agree_jump (a : s.Alike R s') (index : Nat) : Agree R (jump index) (jump index) s s' :=
  .modify ⟨by rw [a.rest_eq], a.stack_eq, a.payload_eq, a.known, a.heaps⟩

theorem agree_push (a : s.Alike Repinned s') (payload : Payload) :
    Agree Repinned (push payload) (push payload) s s' := by
  have depth : s'.stack.length = s.stack.length := by
    simpa using congrArg List.length a.stack_eq
  refine .get_bind ?_
  -- Both stacks are equally deep, so both overflow or neither does.
  rw [depth, a.stackLimit_eq, a.stats_eq]
  by_cases room : s.stack.length < s.stackLimit
  · rw [if_pos room, if_pos room]
    refine .set ⟨by rw [a.rest_eq], ?_, a.payload_eq, a.known, a.heaps.both (.pin _ _) (.pin _ _)⟩
    exact congrArg (payload :: ·) a.stack_eq
  · rw [if_neg room, if_neg room]
    exact .throw a _

theorem agree_pop (a : s.Alike Repinned s') (name : String) :
    Agree Repinned (pop name) (pop name) s s' := by
  have same := a.stack_eq
  refine .get_bind ?_
  rw [a.stats_eq]
  cases there : s.stack with
  | nil =>
      rw [there, List.map_nil, List.map_eq_nil_iff] at same
      rw [same]
      exact .throw a _
  | cons saved stack =>
      -- The tops have the same payload, though they are kept by other pins.
      rw [there, List.map_cons, List.map_eq_cons_iff] at same
      obtain ⟨saved', stack', there', payload, rest⟩ := same
      have depth : stack'.length = stack.length := by simpa using congrArg List.length rest
      rw [there']
      dsimp only
      rw [payload, depth]
      have popped (stats : StackStats) : ({ s with stack, stats } : Symbolic).Alike Repinned
          { s' with stack := stack', stats } :=
        ⟨by rw [a.rest_eq], rest, a.payload_eq, a.known, a.heaps⟩
      refine .bind (.set (popped _)) fun _ _ _ a => ?_
      refine .bind (agree_store a name saved.payload) fun _ s₁ s₁' a => .modify ?_
      refine ⟨by rw [a.rest_eq], a.stack_eq, a.payload_eq, a.known, ?_⟩
      exact a.heaps.both (.unpin _ _) (.unpin _ _)

end Effects

/-! ## Instructions -/

section Instructions

variable {s s' : Symbolic}

theorem agree_branch (a : s.Alike Repinned s') (label : String) :
    Agree Repinned (execute (.branch label)) (execute (.branch label)) s s' := by
  refine .bind (agree_target a label) fun index s₁ s₁' a => .get_bind ?_
  rw [a.flag_eq]
  split
  · exact agree_advance a
  · exact agree_jump a index

theorem agree_goto (a : s.Alike Repinned s') (location : Location) :
    Agree Repinned (execute (.goto location)) (execute (.goto location)) s s' := by
  cases location with
  | label label => exact .bind (agree_target a label) fun index _ _ a => agree_jump a index
  | reg register =>
      refine .cell_bind a fun cell cell' _ _ same => ?_
      rw [same]
      cases cell.payload with
      | label index => exact agree_jump a index
      | value v => exact .throw a _

theorem agree_save (a : s.Alike Repinned s') (location : Location) :
    Agree Repinned (execute (.save location)) (execute (.save location)) s s' := by
  cases location with
  | label label =>
      exact .bind (agree_target a label) fun index _ _ a =>
        .bind (agree_push a _) fun _ _ _ a => agree_advance a
  | reg register =>
      refine .cell_bind a fun cell cell' _ _ same => ?_
      rw [same]
      exact .bind (agree_push a _) fun _ _ _ a => agree_advance a

/-- An instruction calls its operation before it changes a pin. -/
theorem agree_execute (a : s.Alike Parallel s') (instruction : Instruction) :
    Agree Repinned (execute instruction) (execute instruction) s s' := by
  have a' : s.Alike Repinned s' := a.mono Parallel.repinned
  have called {name : String} {operands : List Operand} {f f' : Value → SymbolicM Primitive Unit}
      (rest : ∀ v s₁ s₁', Alike Repinned s₁ s₁' → Agree Repinned (f v) (f' v) s₁ s₁') :
      Agree Repinned (call name operands >>= f) (call name operands >>= f') s s' :=
    (agree_call a name operands).bind_weaken (fun _ _ p => p.repinned) fun v s₁ s₁' a =>
      rest v s₁ s₁' (a.mono Parallel.repinned)
  cases instruction with
  | assign register source =>
      cases source with
      | operand operand =>
          exact .bind (agree_fetch a' operand) fun payload _ _ a =>
            .bind (agree_store a register payload) fun _ _ _ a => agree_advance a
      | op name operands =>
          exact called fun value _ _ a =>
            .bind (agree_store a register _) fun _ _ _ a => agree_advance a
  | test name operands =>
      exact called fun value _ _ a => .bind (agree_setFlag a value) fun _ _ _ a => agree_advance a
  | branch label => exact agree_branch a' label
  | goto location => exact agree_goto a' location
  | perform name operands => exact called fun _ _ _ a => agree_advance a
  | save location => exact agree_save a' location
  | restore register => exact .bind (agree_pop a' register) fun _ _ _ a => agree_advance a

/-- Whether an instruction is noted makes no difference to the heaps but in their journals. -/
theorem agree_note (a : s.Alike Parallel s') (text : String) :
    Agree Parallel (note text) (note text) s s' := by
  have noted {s s' : Symbolic} (a : s.Alike Parallel s') :
      s.Alike Parallel { s' with heap := s'.heap.note (.executing s'.pc text) } :=
    ⟨by rw [a.rest_eq], a.stack_eq, a.payload_eq, a.known, a.heaps.noteSilent rfl⟩
  have noted' {s s' : Symbolic} (a : s.Alike Parallel s') :
      ({ s with heap := s.heap.note (.executing s.pc text) } : Symbolic).Alike Parallel s' :=
    ⟨a.rest_eq, a.stack_eq, a.payload_eq, a.known, (a.heaps.symm.noteSilent rfl).symm⟩
  refine .modify ?_
  split
  · split
    · exact noted' (noted a)
    · exact noted' a
  · split
    · exact noted a
    · exact a

theorem agree_haltAtEnd {R : Heap → Heap → Prop} (a : s.Alike R s') :
    Agree R haltAtEnd haltAtEnd s s' := by
  refine .modify ?_
  rw [a.listing_eq, a.pc_eq]
  split
  · exact ⟨by rw [a.rest_eq], a.stack_eq, a.payload_eq, a.known, a.heaps⟩
  · exact a

theorem agree_executeNext (a : s.Alike Parallel s') :
    Agree Repinned executeNext executeNext s s' := by
  refine .get_bind ?_
  rw [a.listing_eq, a.pc_eq]
  cases s.listing.lines[s.pc]? with
  | none => exact agree_haltAtEnd (a.mono Parallel.repinned)
  | some line =>
      refine (agree_note a line.1).bind_weaken (fun _ _ p => p.repinned) fun _ _ _ a => ?_
      refine .bind (agree_execute a line.2) fun _ _ _ a => ?_
      refine .bind (.modify ?_) fun _ _ _ a => agree_haltAtEnd a
      exact ⟨by rw [a.rest_eq], a.stack_eq, a.payload_eq, a.known, a.heaps⟩

/-- So it is for a machine that is running. -/
theorem agree_step (a : s.Alike Parallel s') (running : s.state = .running) :
    Agree Repinned step step s s' := by
  refine .get_bind ?_
  rw [a.state_eq, running]
  refine .bind (agree_executeNext a) fun _ _ _ a => .get_bind ?_
  rw [a.state_eq]
  exact .pure a _

end Instructions

end Symbolic

/-! ## Registers by name -/

namespace Machine

variable {m : Machine} {name : String}

/-- The names of the registers, in the order in which they were declared. -/
def names (m : Machine) : List String := m.registers.toList.map Register.name

theorem mem_names_iff : name ∈ m.names ↔ (m.index? name).isSome := index?_isSome_iff.symm

/-- A register keeps its name. -/
theorem names_modify (m : Machine) (index : Nat) {change : Register → Register}
    (same : ∀ register, (change register).name = register.name) :
    ({ m with registers := m.registers.modify index change } : Machine).names = m.names := by
  have mapped : (m.registers.modify index change).map Register.name =
      m.registers.map Register.name := by
    apply Array.ext_getElem?
    intro i
    simp only [Array.getElem?_map, Array.getElem?_modify]
    split
    · rw [Option.map_map]
      exact congrFun (congrArg Option.map (funext same)) _
    · rfl
  simpa [names] using congrArg Array.toList mapped

/-- Registers come only from outside. -/
theorem invariant_names (all : List String) : Machine.Invariant fun m => m.names = all where
  started _ same := same
  executes {m m' line} same _ executes := by
    refine Eq.trans ?_ same
    generalize line.code = code at executes
    cases executes with
    | assign register source => exact names_modify m register fun _ => rfl
    | assignCall register c v => exact names_modify m register fun _ => rfl
    | @restore register stack saved whole =>
        exact names_modify (m.popped stack) register fun _ => rfl
    | _ => rfl
  settled same := same

theorem get?_eq_cell? (m : Machine) (name : String) :
    m.get? name = (m.cell? name).map Cell.payload := by
  unfold get? cell?
  cases found : m.index? name with
  | none => rfl
  | some index =>
      obtain ⟨register, there, -⟩ := register_of_index? found
      rw [Option.map_some, Option.bind_some, read, there]
      rfl

theorem get?_isSome (m : Machine) (name : String) : (m.get? name).isSome ↔ name ∈ m.names := by
  rw [get?, Option.isSome_map, mem_names_iff]

theorem cell?_isSome (m : Machine) (name : String) : (m.cell? name).isSome ↔ name ∈ m.names := by
  rw [← get?_isSome, get?_eq_cell?, Option.isSome_map]

theorem exists_of_get? {payload : Payload} (found : m.get? name = some payload) :
    ∃ register ∈ m.registers, register.name = name ∧ register.payload = payload := by
  obtain ⟨index, place, rfl⟩ := Option.map_eq_some_iff.1 found
  obtain ⟨register, there, named⟩ := register_of_index? place
  refine ⟨register, Array.mem_of_getElem? there, named, ?_⟩
  rw [read, there]

/-- Where no two registers share a name, each can be found by its own. -/
theorem get?_of_mem (single : m.names.Nodup) {register : Register}
    (member : register ∈ m.registers) : m.get? register.name = some register.payload := by
  have listed : register ∈ m.registers.toList := Array.mem_toList_iff.2 member
  obtain ⟨index, place⟩ := Option.isSome_iff_exists.1
    (index?_isSome_iff.2 (List.mem_map_of_mem listed))
  obtain ⟨other, there, named⟩ := register_of_index? place
  have listed' : other ∈ m.registers.toList :=
    Array.mem_toList_iff.2 (Array.mem_of_getElem? there)
  obtain rfl := List.inj_on_of_nodup_map single listed' listed named
  rw [get?, place, Option.map_some, read, there]

end Machine

theorem Payload.held_eq_slot_iff {payload : Payload} {i : Nat} :
    payload.held = .slot i ↔ payload = .value (.slot i) := by
  cases payload with
  | value v => simp [held, value?]
  | label index => simp [held, value?]

namespace Bench

section Standing

variable {listing : Listing} {source : Value} {others : Ledger} {b b' : Bench}

/-- A machine with the program of a listing, the pins of which are in order. -/
structure Stands (listing : Listing) (source : Value) (others : Ledger) (b : Bench) : Prop where
  follows : b.Follows listing
  accounts : b.Accounts source others
  single : b.machine.names.Nodup
  marksClear : b.heap.MarksClear

theorem payload_symbolic (name : String) :
    (b.symbolic listing).payload name = (b.machine.get? name).getD (.value .nil) := by
  rw [Machine.get?_eq_cell?]
  rfl

/-- Which slots are pinned depends on what the symbolic machine sees alone. -/
theorem Stands.isPinned_iff (st : b.Stands listing source others) (i : Nat) :
    b.heap.IsPinned i ↔ b.machine.flag = .slot i ∨
      (∃ name, (b.symbolic listing).payload name = .value (.slot i)) ∨
      .value (.slot i) ∈ (b.symbolic listing).stack.map Saved.payload ∨
      source = .slot i ∨ .slot i ∈ others.map Prod.snd := by
  -- The ledger lists whatever a pin holds: the flag, registers, the stack, the program, the rest.
  have listed : b.heap.IsPinned i ↔
      .slot i ∈ (b.machine.holdings source ++ others).map Prod.snd := by
    constructor
    · rintro ⟨key, held⟩
      exact List.mem_map_of_mem ((st.accounts.mem_iff ⟨key⟩ _).2 held)
    · intro member
      obtain ⟨⟨pin, v⟩, entry, rfl⟩ := List.mem_map.1 member
      exact ⟨pin.index, (st.accounts.mem_iff pin _).1 entry⟩
  have registers : (∃ name, (b.symbolic listing).payload name = .value (.slot i)) ↔
      .slot i ∈ b.machine.registers.toList.map fun register => register.payload.held := by
    simp only [payload_symbolic]
    constructor
    · rintro ⟨name, holds⟩
      have found : b.machine.get? name = some (.value (.slot i)) := by
        cases held : b.machine.get? name with
        | none =>
            rw [held] at holds
            cases holds
        | some payload =>
            rw [held] at holds
            exact congrArg some holds
      obtain ⟨register, member, -, same⟩ := Machine.exists_of_get? found
      exact List.mem_map.2 ⟨register, Array.mem_toList_iff.2 member,
        Payload.held_eq_slot_iff.2 same⟩
    · intro member
      obtain ⟨register, member, held⟩ := List.mem_map.1 member
      have found := Machine.get?_of_mem st.single (Array.mem_toList_iff.1 member)
      exact ⟨register.name, by rw [found, Option.getD_some, Payload.held_eq_slot_iff.1 held]⟩
  have stack : .value (.slot i) ∈ (b.symbolic listing).stack.map Saved.payload ↔
      .slot i ∈ b.machine.stack.toList.map fun saved => saved.payload.held := by
    simp only [symbolic, List.map_reverse, List.mem_reverse, List.mem_map,
      Payload.held_eq_slot_iff]
  obtain ⟨program, installed, -⟩ := st.follows
  have ledger : (b.machine.holdings source ++ others).map Prod.snd =
      b.machine.flag :: ((b.machine.registers.toList.map fun register => register.payload.held) ++
        ((b.machine.stack.toList.map fun saved => saved.payload.held) ++
          source :: others.map Prod.snd)) := by
    simp only [Machine.holdings, installed, List.map_cons, List.map_append, List.map_map,
      List.append_assoc, List.cons_append, Option.toList_some, List.map_nil, List.nil_append]
    rfl
  rw [listed, registers, stack, ledger, List.mem_cons, List.mem_append, List.mem_append,
    List.mem_cons, @eq_comm _ b.machine.flag, @eq_comm _ source]

/-- What starting, stepping and running keep. -/
theorem Stands.kept (st : b.Stands listing source others)
    (code : b.machine.KeepsCode b'.machine) (accounts : b'.Accounts source others)
    (names : b'.machine.names = b.machine.names)
    (leads : b.heap.Leads b'.heap) : b'.Stands listing source others :=
  ⟨st.follows.of_keepsCode code, accounts, names ▸ st.single, leads.marksClear st.marksClear⟩

theorem Stands.start (st : b.Stands listing source others) :
    (left (start b.machine.trace b)).Stands listing source others :=
  st.kept (mirrors_start st.follows).code_kept (keepsAccounts_start _ b source others st.accounts)
    ((Machine.invariant_names _).start rfl _) (leads_start _ b)

theorem Stands.start_eq (st : b.Stands listing source others) :
    Bench.start b.machine.trace b = .ok () ⟨b.machine.started b.machine.trace, b.reset.heap⟩ := by
  obtain ⟨program, installed, -⟩ := st.follows
  rcases start_cases b b.machine.trace with ⟨vacant, -⟩ | ⟨-, started⟩
  · cases installed.symm.trans vacant
  · exact started

theorem Stands.step (st : b.Stands listing source others) :
    (left (step b)).Stands listing source others :=
  st.kept (mirrors_step st.follows).code_kept (keepsAccounts_step b source others st.accounts)
    ((Machine.invariant_names _).step rfl) (leads_step b)

end Standing

/-! ## Twins -/

section Twins

variable {α : Type} {listing : Listing} {source : Value} {others : Ledger} {b b' : Bench}

/--
Two machines with the same program, one of which is watched in another way than the other and may
have more registers, that are at the same place with the same data.
-/
structure Twins (listing : Listing) (source : Value) (others : Ledger) (b b' : Bench) : Prop where
  alike : (b.symbolic listing).Alike Repinned (b'.symbolic listing)
  stands : b.Stands listing source others
  stands' : b'.Stands listing source others

/-- The payloads are the same, so the pins hold the same slots. -/
theorem Twins.parallel (t : Twins listing source others b b') :
    (b.symbolic listing).Alike Parallel (b'.symbolic listing) := by
  refine t.alike.mono fun r => ⟨r, fun i => ?_, t.stands.marksClear⟩
  have flag : b'.machine.flag = b.machine.flag := t.alike.flag_eq
  have same := (t.stands'.isPinned_iff i).symm
  simp only [t.alike.payload_eq, t.alike.stack_eq, flag] at same
  exact (t.stands.isPinned_iff i).trans same

/-- Symbolic outcomes that match are those of outcomes that match. -/
theorem matches_of_outcome {r r' : EStateM.Result MachineError Bench α}
    (both : Matches (Symbolic.Alike Repinned) (outcome listing r) (outcome listing r'))
    (stands : (left r).Stands listing source others)
    (stands' : (left r').Stands listing source others) :
    Matches (Twins listing source others) r r' := by
  cases r with
  | ok a c =>
      cases r' with
      | ok a' c' =>
          cases both with
          | ok _ alike => exact .ok a ⟨alike, stands, stands'⟩
      | error e' c' => cases both
  | error e c =>
      cases r' with
      | ok a' c' => cases both
      | error e' c' =>
          cases both with
          | error _ alike => exact .error e ⟨alike, stands, stands'⟩

/-- Every name in the code of a machine is resolved, so machines agree where symbolic ones do. -/
theorem matches_of_agree {op op' : BenchM MachineError α} {sym sym' : SymbolicM Primitive α}
    (mirrors : Mirrors listing op sym b) (mirrors' : Mirrors listing op' sym' b')
    (agree : Symbolic.Agree Repinned sym sym' (b.symbolic listing) (b'.symbolic listing))
    (stands : (left (op b)).Stands listing source others)
    (stands' : (left (op' b')).Stands listing source others) :
    Matches (Twins listing source others) (op b) (op' b') := by
  unfold Symbolic.Agree at agree
  rw [mirrors.outcome_eq, mirrors'.outcome_eq] at agree
  rcases agree with ⟨cause, s, unresolved⟩ | both
  -- The machine has no such outcome.
  · generalize op b = r at unresolved
    cases r with
    | ok a c => cases unresolved
    | error e c => cases unresolved
  · exact matches_of_outcome both stands stands'

theorem Twins.start (t : Twins listing source others b b') :
    Matches (Twins listing source others) (start b.machine.trace b)
      (start b'.machine.trace b') := by
  refine matches_of_agree (mirrors_start t.stands.follows) (mirrors_start t.stands'.follows) ?_
    t.stands.start t.stands'.start
  have a := t.alike
  -- Starting empties the stack, and each side gives back the pins of its own entries.
  have unpinned (b : Bench) : b.heap.Repinned
      (((b.symbolic listing).stack.foldr (fun saved heap => heap.unpin saved.pin) b.heap).repin
        b.machine.flagPin .nil) := by
    refine Repinned.composes.trans ?_ (.repin _ _ _)
    exact List.foldr_reverse ▸ .unpinAll b.heap b.machine.stack.toList Saved.pin
  exact .modify ⟨by rw [a.rest_eq], rfl, a.payload_eq, a.known,
    a.heaps.both (unpinned b) (unpinned b')⟩

theorem Twins.step_of_running (t : Twins listing source others b b')
    (running : b.machine.state = .running) :
    Matches (Twins listing source others) (step b) (step b') :=
  matches_of_agree (mirrors_step t.stands.follows) (mirrors_step t.stands'.follows)
    (Symbolic.agree_step t.parallel running) t.stands.step t.stands'.step

theorem Twins.step (t : Twins listing source others b b') :
    Matches (Twins listing source others) (step b) (step b') := by
  have same : b'.machine.state = b.machine.state := t.alike.state_eq
  cases state : b.machine.state with
  | idle =>
      rw [step_of_idle state, step_of_idle (same.trans state)]
      exact .error _ t
  | halted =>
      rw [step_of_halted state, step_of_halted (same.trans state)]
      exact .ok _ t
  | running => exact t.step_of_running state
  | installed =>
      have started := t.start
      rw [step_eq_of_installed state, step_eq_of_installed (same.trans state)]
      rw [t.stands.start_eq, t.stands'.start_eq] at started ⊢
      cases started with
      | ok _ t => exact t.step_of_running rfl

theorem Twins.runFor (t : Twins listing source others b b') (steps : Nat) :
    Matches (Twins listing source others) (runFor steps b) (runFor steps b') := by
  induction steps generalizing b b' with
  | zero => exact .ok () t
  | succ steps ih =>
      refine t.step.bind (fun state c c' t => ?_) fun _ _ t => t
      cases state with
      | halted => exact .ok () t
      | _ => exact ih t

theorem Twins.run (t : Twins listing source others b b') :
    Matches (Twins listing source others) (run b) (run b') := by
  have same : b'.machine.state = b.machine.state := t.alike.state_eq
  unfold Bench.run
  rw [get_bind_apply, get_bind_apply, same]
  dsimp only
  split
  · exact t.start.bind (fun _ _ _ t => t.runFor longestRun) fun _ _ t => t
  · exact t.runFor longestRun

end Twins

end Bench

end Lisplet
