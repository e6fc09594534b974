import Lisplet.Proofs.Machine.Constants
import Lisplet.Proofs.Machine.Primitives
import Lisplet.Proofs.Machine.Workshop
import Lisplet.Proofs.Termination

/-!
# Upkeep — machines keep the heap orderly

What a machine puts into its registers, its flag and its stack are results of its operations and
constants of its program. It keeps all of them with pins, the constants through the list that the
program was assembled from. So whatever it hands to an operation is data that is kept, and the heap
stays orderly; and as no machine disturbs the pins of another, the constants of all machines stay
where they are.
-/

namespace Lisplet

namespace Termination

variable {d d' : Layout} {h h' h'' : Heap} {v : Value}

/-! ## Other roots -/

/-- `h'` is an orderly heap with the objects of `h`; its roots and its journal may be others. -/
structure Rerooted (d : Layout) (h h' : Heap) : Prop where
  orderly : Orderly d h'
  same : ∀ v, h'.object? v = h.object? v

namespace Rerooted

theorem refl (a : Orderly d h) : Rerooted d h h := ⟨a, fun _ => rfl⟩

theorem trans (r : Rerooted d h h') (r' : Rerooted d h' h'') : Rerooted d h h'' :=
  ⟨r'.orderly, fun v => (r'.same v).trans (r.same v)⟩

theorem addRoot (a : Orderly d h) (isExpr : h.Expression v) : Rerooted d h (h.addRoot v) :=
  ⟨a.addRoot (.inl (a.datum_of_expression isExpr)), Heap.object?_addRoot h v⟩

theorem truncateRoots (a : Orderly d h) (height : Nat) : Rerooted d h (h.truncateRoots height) :=
  ⟨a.truncateRoots height, fun _ => rfl⟩

theorem pin (a : Orderly d h) (isExpr : h.Expression v) : Rerooted d h (h.pin v).2 :=
  ⟨a.pin (.inl (a.datum_of_expression isExpr)), Heap.object?_pin h v⟩

theorem repin (a : Orderly d h) (p : Pin) (isExpr : h.Expression v) :
    Rerooted d h (h.repin p v) :=
  ⟨a.repin p (.inl (a.datum_of_expression isExpr)), fun _ => rfl⟩

theorem unpin (a : Orderly d h) (p : Pin) : Rerooted d h (h.unpin p) := by
  refine ⟨a.unpin p, fun v => ?_⟩
  unfold Heap.unpin
  split
  · rfl
  · rfl

theorem unpinAll {α : Type} (a : Orderly d h) (holders : List α) (key : α → Pin) :
    Rerooted d h (holders.foldl (fun h holder => h.unpin (key holder)) h) := by
  induction holders generalizing h with
  | nil => exact .refl a
  | cons holder holders ih => exact (unpin a _).trans (ih (a.unpin _))

theorem note (a : Orderly d h) (notice : Notice) : Rerooted d h (h.note notice) :=
  ⟨a.note notice, fun _ => rfl⟩

theorem expression (r : Rerooted d h h') (a : Orderly d h) (isExpr : h.Expression v) :
    h'.Expression v := by
  have used := a.datum_of_expression isExpr
  refine r.orderly.expression (.inl ⟨used.fills, ?_⟩)
  rcases used.holds with rfl | ⟨i, rfl, occupied⟩
  · exact Heap.holds_nil h'
  · refine Heap.holds_slot_iff.2 ?_
    unfold Heap.Occupied at occupied ⊢
    rwa [r.same]

end Rerooted

theorem Suited.expression_nil (a : Suited d h) : h.Expression .nil :=
  a.expression (.inl (.nil d h nofun))

theorem Orderly.expression_of_root (a : Orderly d h) (root : h.IsRoot v) : h.Expression v :=
  a.expression ((a.roots v root).imp (⟨·, a.roots_held v root⟩) (⟨·, a.roots_held v root⟩))

end Termination

open Termination

/-! ## Workshops in order -/

/-- The heap is orderly, the pins are accounted for, and all constants are parts of programs. -/
structure Workshop.InOrder (d : Layout) (w : Workshop) : Prop where
  orderly : Orderly d w.heap
  accounts : w.heap.Accounts w.ledger
  constants : ∀ tenant ∈ w.tenants, ∀ v, tenant.machine.Mentions v →
    PartOf d w.heap tenant.source v

namespace Workshop.InOrder

variable {d d' : Layout} {w w' : Workshop} {h : Heap} {tenant : Tenant} {p : Pin} {v : Value}

theorem isRoot (o : w.InOrder d) (listed : (p, v) ∈ w.ledger) : w.heap.IsRoot v :=
  .pin ((o.accounts.mem_iff p v).1 listed)

/-- Whatever a machine holds is a root. -/
theorem isRoot_of_holding (o : w.InOrder d) (member : tenant ∈ w.tenants)
    (holding : (p, v) ∈ tenant.machine.holdings tenant.source) : w.heap.IsRoot v :=
  o.isRoot (List.mem_append_left _ (List.mem_flatMap.2 ⟨tenant, member, holding⟩))

/-- The list of a program that has constants is pinned. -/
theorem isRoot_of_mentions (o : w.InOrder d) (member : tenant ∈ w.tenants)
    (mentions : tenant.machine.Mentions v) : w.heap.IsRoot tenant.source := by
  obtain ⟨program, _, installed, -, -⟩ := mentions
  refine o.isRoot_of_holding (p := program.source) member ?_
  simp [Machine.holdings, installed]

/-- The constants of a program are data. -/
theorem expression_of_mentions (o : w.InOrder d) (member : tenant ∈ w.tenants)
    (mentions : tenant.machine.Mentions v) : w.heap.Expression v := by
  have root := o.isRoot_of_mentions member mentions
  have part := o.constants tenant member v mentions
  have isDatum := o.orderly.datum_of_expression (o.orderly.expression_of_root root)
  have held := (part.tethered (.root root)).holds o.orderly.toWellFormed
  exact o.orderly.expression (.inl ⟨part.fills o.orderly.toSuited isDatum.fills, held⟩)

/-- An operation on the heap may change all that is not kept. -/
theorem retained (o : w.InOrder d) (a : Orderly d' h) (k : Retains d w.heap d' h)
    (level : w.heap.Level h) : { w with heap := h }.InOrder d' where
  orderly := a
  accounts := o.accounts.of_eq level.pins_eq level.freePins_eq
  constants tenant member v mentions :=
    (o.constants tenant member v mentions).retained k (.root (o.isRoot_of_mentions member mentions))

/-- With the same objects and no other constants a workshop stays in order. -/
theorem rerooted (o : w.InOrder d) (r : Rerooted d w.heap w'.heap)
    (accounts : w'.heap.Accounts w'.ledger)
    (constants : ∀ tenant' ∈ w'.tenants, ∀ v, tenant'.machine.Mentions v →
      ∃ tenant ∈ w.tenants, tenant.source = tenant'.source ∧ tenant.machine.Mentions v) :
    w'.InOrder d where
  orderly := r.orderly
  accounts := accounts
  constants tenant' member' v mentions' := by
    obtain ⟨tenant, member, same, mentions⟩ := constants tenant' member' v mentions'
    exact same ▸ (o.constants tenant member v mentions).congr r.same

theorem perm {tenants tenants' : List Tenant} {others : Heap.Ledger}
    (o : InOrder d ⟨h, tenants, others⟩) (same : tenants.Perm tenants') :
    InOrder d ⟨h, tenants', others⟩ where
  orderly := o.orderly
  accounts := o.accounts.perm ((same.flatMap_right _).append_right others)
  constants tenant member := o.constants tenant (same.mem_iff.2 member)

end Workshop.InOrder

/-! ## Benches in a workshop -/

namespace Bench

/-- The workshop in which a machine works besides all that is in `w`, on a heap of its own. -/
def within (b : Bench) (source : Value) (w : Workshop) : Workshop :=
  ⟨b.heap, ⟨b.machine, source⟩ :: w.tenants, w.others⟩

variable {d : Layout} {b b' : Bench} {source v : Value} {w : Workshop}

theorem accounts_within :
    (b.within source w).heap.Accounts (b.within source w).ledger ↔
      b.Accounts source w.ledger := by
  unfold Accounts
  rw [within, Workshop.ledger_cons]
  exact Iff.rfl

theorem expression_of_holding (o : (b.within source w).InOrder d) {p : Pin}
    (holding : (p, v) ∈ b.machine.holdings source) : b.heap.Expression v :=
  o.orderly.expression_of_root (o.isRoot_of_holding List.mem_cons_self holding)

/-- A step that changes roots only, and neither the program nor the pins of others. -/
theorem inOrder_of_rerooted (o : (b.within source w).InOrder d) (r : Rerooted d b.heap b'.heap)
    (accounts : b'.Accounts source w.ledger) (program : b'.machine.program = b.machine.program) :
    (b'.within source w).InOrder d := by
  refine o.rerooted r (accounts_within.2 accounts) fun tenant' member v mentions => ?_
  rcases List.mem_cons.1 member with rfl | member
  · obtain ⟨assembled, line, installed, rest⟩ := mentions
    exact ⟨_, List.mem_cons_self, rfl, assembled, line, program.symm.trans installed, rest⟩
  · exact ⟨tenant', List.mem_cons_of_mem _ member, rfl, mentions⟩

theorem accounts_of_inOrder (o : (b.within source w).InOrder d) : b.Accounts source w.ledger :=
  accounts_within.1 o.accounts

/-! ## What a machine holds -/

theorem expression_read (o : (b.within source w).InOrder d) (index : Nat) :
    b.heap.Expression (b.machine.read index).held := by
  unfold Machine.read
  cases there : b.machine.registers[index]? with
  | none => exact o.orderly.expression_nil
  | some register =>
      refine expression_of_holding o (p := register.pin) ?_
      have member := Array.mem_toList_iff.2 (Array.mem_of_getElem? there)
      exact List.mem_cons_of_mem _ (List.mem_append_left _ (List.mem_map.2 ⟨_, member, rfl⟩))

theorem expression_saved (o : (b.within source w).InOrder d) (saved : Saved)
    (member : saved ∈ b.machine.stack) : b.heap.Expression saved.payload.held :=
  expression_of_holding o (Machine.mem_holdings_of_saved source member)

theorem expression_fetch (o : (b.within source w).InOrder d) (operand : Fetch)
    (constants : ∀ v, operand = .const v → b.machine.Mentions v) :
    b.heap.Expression (b.machine.fetch operand).held := by
  cases operand with
  | const v => exact o.expression_of_mentions List.mem_cons_self (constants v rfl)
  | label target => exact o.orderly.expression_nil
  | register index => exact expression_read o index

theorem expression_values (o : (b.within source w).InOrder d) {operands : List Fetch}
    (constants : ∀ v, .const v ∈ operands → b.machine.Mentions v) {values : List Value}
    (found : values? b.machine operands = some values) : ∀ v ∈ values, b.heap.Expression v := by
  unfold values? at found
  induction operands generalizing values with
  | nil =>
      cases found
      exact List.forall_mem_nil _
  | cons operand operands ih =>
      rw [List.mapM_cons] at found
      obtain ⟨value, isValue, rest⟩ := Option.bind_eq_some_iff.1 found
      obtain ⟨others, foundRest, same⟩ := Option.bind_eq_some_iff.1 rest
      cases same
      refine List.forall_mem_cons.2 ⟨?_, ih (fun v member => ?_) foundRest⟩
      · have first := expression_fetch o operand fun v same => constants v (by simp [same])
        unfold Payload.held at first
        rwa [isValue] at first
      · exact constants v (List.mem_cons_of_mem _ member)

/-! ## Single changes -/

theorem rerooted_write (a : Orderly d b.heap) (index : Nat) {payload : Payload}
    (isExpr : b.heap.Expression payload.held) :
    Rerooted d b.heap (b.write index payload).heap ∧
      (b.write index payload).machine.program = b.machine.program := by
  cases there : b.machine.registers[index]? with
  | none =>
      rw [write_of_none there]
      exact ⟨.refl a, rfl⟩
  | some register =>
      have repinned := Rerooted.repin a register.pin isExpr
      rw [write_eq there]
      refine ⟨?_, rfl⟩
      dsimp only
      split
      · exact repinned.trans (.note repinned.orderly _)
      · exact repinned

theorem inOrder_write (o : (b.within source w).InOrder d) (index : Nat) {payload : Payload}
    (isExpr : b.heap.Expression payload.held) :
    ((b.write index payload).within source w).InOrder d := by
  have written := rerooted_write o.orderly index isExpr
  exact inOrder_of_rerooted o written.1 ((accounts_of_inOrder o).write index payload) written.2

theorem inOrder_setFlag (o : (b.within source w).InOrder d) (isExpr : b.heap.Expression v) :
    ((b.setFlag v).within source w).InOrder d :=
  inOrder_of_rerooted o (.repin o.orderly b.machine.flagPin isExpr)
    ((accounts_of_inOrder o).setFlag v) rfl

theorem inOrder_push (o : (b.within source w).InOrder d) {payload : Payload}
    (isExpr : b.heap.Expression payload.held) :
    ((left (push payload b)).within source w).InOrder d := by
  have accounts := (accounts_of_inOrder o).push payload
  rcases push_cases payload b with ⟨-, step⟩ | ⟨-, step⟩
  · rw [step]
    exact o
  · rw [step] at accounts ⊢
    exact inOrder_of_rerooted o (.pin o.orderly isExpr) accounts rfl

theorem inOrder_restore (o : (b.within source w).InOrder d) (index : Nat) :
    ((left (restore index b)).within source w).InOrder d := by
  have accounts := (accounts_of_inOrder o).restore index
  rcases restore_cases index b with ⟨-, step⟩ | ⟨stack, saved, whole, step⟩
  · rw [step]
    exact o
  · have isExpr := expression_saved o saved (by simp [whole])
    rw [step] at accounts ⊢
    dsimp only [left] at accounts ⊢
    -- The register takes over what the pin of the entry has kept until then.
    let popped : Bench :=
      ⟨{ b.machine with stack, stats := { b.machine.stats with currentDepth := stack.size } },
        b.heap⟩
    have written := rerooted_write (b := popped) o.orderly index isExpr
    exact inOrder_of_rerooted o (written.1.trans (.unpin written.1.orderly saved.pin)) accounts
      written.2

theorem rerooted_reset (a : Orderly d b.heap) : Rerooted d b.heap b.reset.heap := by
  have given := Rerooted.unpinAll a b.machine.stack.toList Saved.pin
  rw [reset_eq]
  exact given.trans (.repin given.orderly b.machine.flagPin given.orderly.expression_nil)

theorem inOrder_reset (o : (b.within source w).InOrder d) :
    (b.reset.within source w).InOrder d :=
  inOrder_of_rerooted o (rerooted_reset o.orderly) (accounts_of_inOrder o).reset
    (by rw [reset_eq]; rfl)

theorem rerooted_declareAll (a : Orderly d b.heap) (names : List String) :
    Rerooted d b.heap (names.foldl declare b).heap := by
  induction names generalizing b with
  | nil => exact .refl a
  | cons name names ih =>
      have declared : Rerooted d b.heap (b.declare name).heap := by
        cases found : b.machine.index? name with
        | some index =>
            rw [declare_of_some found]
            exact .refl a
        | none =>
            rw [declare_of_none found]
            exact .pin a a.expression_nil
      exact declared.trans (ih declared.orderly)

theorem program_declareAll (b : Bench) (names : List String) :
    (names.foldl declare b).machine.program = b.machine.program := by rw [declareAll_eq]

theorem inOrder_declareAll (o : (b.within source w).InOrder d) (names : List String) :
    ((names.foldl declare b).within source w).InOrder d :=
  inOrder_of_rerooted o (rerooted_declareAll o.orderly names)
    ((accounts_of_inOrder o).declareAll names) (program_declareAll b names)

theorem inOrder_monitor (o : (b.within source w).InOrder d) (index : Nat) :
    ((b.monitor index).within source w).InOrder d := by
  have accounts := (accounts_of_inOrder o).monitor index
  cases there : b.machine.registers[index]? with
  | none =>
      rw [monitor_of_none there]
      exact o
  | some register =>
      rw [monitor_eq there] at accounts ⊢
      exact inOrder_of_rerooted o (.refl o.orderly) accounts rfl

/-! ## Running -/

/-- The workshop is in order while the machine works in it. -/
def Works (source : Value) (w : Workshop) (b : Bench) : Prop := ∃ d, (b.within source w).InOrder d

/-- Constants, registers and what the operands stand for are data, and so is the result. -/
theorem keeps_call (works : Works source w b) {c : Call}
    (constants : ∀ v, .const v ∈ c.operands → b.machine.Mentions v) :
    Keeps (Works source w) b (call c) fun b' v => b'.heap.Expression v := by
  refine .get_bind ?_
  obtain ⟨d, o⟩ := works
  cases found : values? b.machine c.operands with
  | none => exact .throw ⟨d, o⟩ _
  | some values =>
      have isExpr := expression_values o constants found
      have level := level_call b.heap c.operation values
      -- The list of the arguments is rooted during the call, so they are kept through it.
      have m : Maintains d b.heap (HeapM.scope do
          let args ← HeapM.list values
          HeapM.root args
          Callable.call c.operation args) fun d₁ h₁ v => Used d₁ h₁ .datum v := by
        refine .scope ?_ fun _ _ _ height used => used.truncateRoots height
        refine .bind (maintains_list o.orderly fun v member =>
          o.orderly.datum_of_expression (isExpr v member)) fun d₁ h₁ args a₁ _ used => ?_
        refine .root_bind a₁ used (.inl rfl) fun a₂ kept => ?_
        exact (completes_primitive a₂ c.operation kept).maintains
      unfold Maintains at m
      unfold HeapM.Obeys Heap.Operation.heapAfter at level
      unfold Keeps onHeap
      dsimp only
      generalize HeapM.scope _ b.heap = result at level m
      cases m with
      | ok a k used => exact ⟨⟨_, o.retained a k level⟩, a.expression (.inl used)⟩
      | error a k => exact ⟨_, o.retained a k level⟩

/-- Besides what it holds, what a machine counts and where it stands does not matter. -/
theorem inOrder_of_same (o : (b.within source w).InOrder d) (heap : b'.heap = b.heap)
    (holdings : b'.machine.holdings source = b.machine.holdings source)
    (program : b'.machine.program = b.machine.program) : (b'.within source w).InOrder d := by
  have rerooted : Rerooted d b.heap b'.heap := by
    rw [heap]
    exact .refl o.orderly
  have accounts := accounts_of_inOrder o
  refine inOrder_of_rerooted o rerooted ?_ program
  unfold Accounts at accounts ⊢
  rwa [heap, holdings]

theorem Works.same (works : Works source w b) (heap : b'.heap = b.heap)
    (holdings : b'.machine.holdings source = b.machine.holdings source)
    (program : b'.machine.program = b.machine.program) : Works source w b' := by
  obtain ⟨d, o⟩ := works
  exact ⟨d, inOrder_of_same o heap holdings program⟩

theorem keeps_execute (works : Works source w b) {code : Code}
    (constants : ∀ v, .const v ∈ code.fetches → b.machine.Mentions v) :
    Keeps (Works source w) b (execute code) fun _ _ => True := by
  cases code with
  | assign register operand =>
      obtain ⟨d, o⟩ := works
      have isExpr := expression_fetch o operand
        fun v same => constants v (by simp [Code.fetches, same])
      exact .modify (Works.same ⟨d, inOrder_write o register isExpr⟩ rfl rfl rfl) trivial
  | assignCall register c =>
      refine .bind (keeps_call works constants) fun b' v works' isExpr => ?_
      obtain ⟨d', o'⟩ := works'
      have written : ((b'.write register (.value v)).within source w).InOrder d' :=
        inOrder_write o' register isExpr
      exact .modify (Works.same ⟨d', written⟩ rfl rfl rfl) trivial
  | test c =>
      refine .bind (keeps_call works constants) fun b' v works' isExpr => ?_
      obtain ⟨d', o'⟩ := works'
      exact .modify (Works.same ⟨d', inOrder_setFlag o' isExpr⟩ rfl rfl rfl) trivial
  | branch target =>
      refine .modify ?_ trivial
      split
      · exact works.same rfl rfl rfl
      · exact works.same rfl rfl rfl
  | jump target => exact .modify (works.same rfl rfl rfl) trivial
  | jumpRegister register =>
      refine .get_bind ?_
      split
      · exact .modify (works.same rfl rfl rfl) trivial
      · exact .get_bind (.throw works _)
  | perform c =>
      refine .bind (keeps_call works constants) fun b' v works' _ => ?_
      exact .modify (works'.same rfl rfl rfl) trivial
  | save operand =>
      obtain ⟨d, o⟩ := works
      have isExpr := expression_fetch o operand
        fun v same => constants v (by simp [Code.fetches, same])
      refine .get_bind (.bind (.of_left ⟨d, inOrder_push o isExpr⟩) fun b' _ works' _ => ?_)
      exact .modify (works'.same rfl rfl rfl) trivial
  | restore register =>
      obtain ⟨d, o⟩ := works
      refine .bind (.of_left ⟨d, inOrder_restore o register⟩) fun b' _ works' _ => ?_
      exact .modify (works'.same rfl rfl rfl) trivial

theorem keeps_start (works : Works source w b) (trace : Bool) :
    Keeps (Works source w) b (start trace) fun _ _ => True := by
  obtain ⟨d, o⟩ := works
  have started : Works source w
      ⟨{ b.reset.machine with trace, executed := 0, state := .running }, b.reset.heap⟩ :=
    Works.same ⟨d, inOrder_reset o⟩ rfl rfl rfl
  refine .get_bind ?_
  dsimp only
  split
  · exact .bind (.throw (Q := fun _ _ => True) ⟨d, o⟩ _) fun b' _ works' _ => by
      obtain ⟨d', o'⟩ := works'
      exact .modify (Works.same ⟨d', inOrder_reset o'⟩ rfl rfl rfl) trivial
  · exact .modify started trivial

theorem works_noteExecuting (works : Works source w b) (line : Line) :
    Works source w (b.noteExecuting line) ∧
      (b.noteExecuting line).machine = b.machine := by
  unfold noteExecuting
  dsimp only
  split
  · obtain ⟨d, o⟩ := works
    have accounts := accounts_of_inOrder o
    refine ⟨⟨d, inOrder_of_rerooted o (.note o.orderly _) ?_ rfl⟩, rfl⟩
    exact Heap.Accounts.of_eq accounts rfl rfl
  · exact ⟨works, rfl⟩

theorem works_haltAtEnd (works : Works source w b) : Works source w b.haltAtEnd := by
  unfold haltAtEnd
  dsimp only
  split
  · exact works.same rfl rfl rfl
  · exact works

theorem keeps_executeNext (works : Works source w b) :
    Keeps (Works source w) b executeNext fun _ _ => True := by
  refine .get_bind ?_
  cases found : currentLine? b.machine with
  | none => exact .modify (works_haltAtEnd works) trivial
  | some line =>
      have noted := works_noteExecuting works line
      obtain ⟨program, installed, isLine⟩ := Option.bind_eq_some_iff.1 found
      -- The constants of the line are among those of the program.
      have constants : ∀ v, .const v ∈ line.code.fetches →
          (b.noteExecuting line).machine.Mentions v := by
        intro v member
        rw [noted.2]
        exact ⟨program, line, installed, Array.mem_of_getElem? isLine, member⟩
      refine .bind (Q := fun b' _ => b' = b.noteExecuting line) (.modify noted.1 rfl) ?_
      rintro b₁ _ - rfl
      refine .bind (keeps_execute noted.1 constants) fun b₂ _ works₂ _ => ?_
      refine .bind (.modify (Q := fun _ _ => True) (works₂.same rfl rfl rfl) trivial) ?_
      exact fun b₃ _ works₃ _ => .modify (works_haltAtEnd works₃) trivial

theorem keeps_step (works : Works source w b) :
    Keeps (Works source w) b step fun _ _ => True := by
  have next (b : Bench) (works : Works source w b) :
      Keeps (Works source w) b (do executeNext; pure (← get).machine.state) fun _ _ => True :=
    .bind (keeps_executeNext works) fun b' _ works' _ => .get_bind (.pure works' trivial)
  refine .get_bind ?_
  split
  · exact .throw works _
  · exact .pure works trivial
  · exact .get_bind (.bind (keeps_start works _) fun b' _ works' _ => next b' works')
  · exact next b works

theorem keeps_runFor (works : Works source w b) (steps : Nat) :
    Keeps (Works source w) b (runFor steps) fun _ _ => True := by
  induction steps generalizing b with
  | zero => exact .pure works trivial
  | succ steps ih =>
      refine .bind (keeps_step works) fun b' state works' _ => ?_
      split
      · exact .pure works' trivial
      · exact ih works'

theorem keeps_run (works : Works source w b) :
    Keeps (Works source w) b run fun _ _ => True := by
  refine .get_bind ?_
  dsimp only
  split
  · refine .get_bind (.bind (keeps_start works _) fun b' _ works' _ => ?_)
    exact keeps_runFor works' _
  · exact keeps_runFor works _

theorem keeps_setRegister (works : Works source w b) (name : String) {payload : Payload}
    (isExpr : b.heap.Expression payload.held) :
    Keeps (Works source w) b (setRegister name payload) fun _ _ => True := by
  refine .get_bind ?_
  split
  · obtain ⟨d, o⟩ := works
    exact .modify ⟨d, inOrder_write o _ isExpr⟩ trivial
  · exact .throw works _

theorem keeps_monitorRegister (works : Works source w b) (name : String) :
    Keeps (Works source w) b (monitorRegister name) fun _ _ => True := by
  refine .get_bind ?_
  split
  · obtain ⟨d, o⟩ := works
    exact .modify ⟨d, inOrder_monitor o _⟩ trivial
  · exact .throw works _

/-! ## Setting up, assembling and giving up -/

theorem rerooted_dropProgram (a : Orderly d b.heap) : Rerooted d b.heap b.dropProgram.heap := by
  rw [dropProgram_eq]
  cases b.machine.program with
  | none => exact .refl a
  | some program => exact .unpin a program.source

theorem rerooted_release (a : Orderly d b.heap) : Rerooted d b.heap b.release := by
  rw [release_eq]
  have dropped := rerooted_dropProgram a
  have cleared := dropped.trans (rerooted_reset dropped.orderly)
  have given := cleared.trans (.unpin cleared.orderly b.dropProgram.reset.machine.flagPin)
  exact given.trans (.unpinAll given.orderly _ Register.pin)

/-- What is left of a workshop when a machine is given up. -/
theorem inOrder_release (o : (b.within source w).InOrder d) :
    { w with heap := b.release }.InOrder d :=
  o.rerooted (rerooted_release o.orderly) (accounts_of_inOrder o).release
    fun tenant member _ mentions => ⟨tenant, List.mem_cons_of_mem _ member, rfl, mentions⟩

/-- Whatever an installation ends with, the heap has the objects that it had. -/
theorem rerooted_install (a : Orderly d b.heap) {program : Value}
    (isExpr : b.heap.Expression program) :
    Rerooted d b.heap (left (install program b)).heap := by
  have pinned := Rerooted.pin a isExpr
  have declared (names : List String) : Rerooted d b.heap
      (names.foldl declare ⟨b.machine, (b.heap.pin program).2⟩).heap :=
    pinned.trans (rerooted_declareAll (b := ⟨b.machine, _⟩) pinned.orderly names)
  rw [install_eq]
  rcases assembleLines_cases program (b.heap.pin program).1 ⟨b.machine, (b.heap.pin program).2⟩ with
    ⟨e, -, failed⟩ | ⟨listing, b', -, rfl, ⟨e, -, failed⟩ | ⟨lines, -, assembled⟩⟩
  · rw [failed]
    exact pinned.trans (.unpin pinned.orderly _)
  · rw [failed]
    have declared := declared listing.registers
    exact declared.trans (.unpin declared.orderly _)
  · rw [assembled]
    have declared := declared listing.registers
    exact declared.trans (rerooted_dropProgram declared.orderly)

theorem program_of_install_error {program : Value} {e : AssemblyError}
    (failed : install program b = .error e b') : b'.machine.program = b.machine.program := by
  rw [install_eq] at failed
  rcases assembleLines_cases program (b.heap.pin program).1 ⟨b.machine, (b.heap.pin program).2⟩ with
    ⟨e, -, step⟩ | ⟨listing, b', -, rfl, ⟨e, -, step⟩ | ⟨lines, -, step⟩⟩
  · rw [step] at failed
    cases failed
    rfl
  · rw [step] at failed
    cases failed
    exact program_declareAll _ _
  · rw [step] at failed
    cases failed

/-- A program that is installed brings its list along, and one that is refused brings nothing. -/
theorem inOrder_install (o : (b.within source w).InOrder d) {program : Value}
    (isExpr : b.heap.Expression program) :
    match install program b with
    | .ok _ b' => (b'.within program w).InOrder d
    | .error _ b' => (b'.within source w).InOrder d := by
  have rerooted := rerooted_install o.orderly isExpr
  have accounts := accounts_install (accounts_of_inOrder o) program
  cases done : install program b with
  | error e b' =>
      rw [done] at rerooted accounts
      exact inOrder_of_rerooted o rerooted accounts (program_of_install_error done)
  | ok _ b' =>
      rw [done] at rerooted accounts
      have isDatum := o.orderly.datum_of_expression isExpr
      -- The constants are now those of the new list, which takes the place of the old one.
      refine ⟨rerooted.orderly, accounts_within.2 accounts, fun tenant member v mentions => ?_⟩
      refine PartOf.congr ?_ rerooted.same
      rcases List.mem_cons.1 member with rfl | member
      · exact part_of_install o.orderly.toSuited isDatum.fills done mentions
      · exact o.constants tenant (List.mem_cons_of_mem _ member) v mentions

theorem rerooted_declareMonitored (a : Orderly d b.heap) (names : List String) :
    Rerooted d b.heap (names.foldl declareMonitored b).heap ∧
      (names.foldl declareMonitored b).machine.program = b.machine.program := by
  induction names generalizing b with
  | nil => exact ⟨.refl a, rfl⟩
  | cons name names ih =>
      have declared := rerooted_declareAll a [name]
      have first : Rerooted d b.heap (b.declareMonitored name).heap ∧
          (b.declareMonitored name).machine.program = b.machine.program := by
        unfold declareMonitored
        dsimp only
        split
        · next index _ =>
          cases there : (b.declare name).machine.registers[index]? with
          | none =>
              rw [monitor_of_none there]
              exact ⟨declared, program_declareAll b [name]⟩
          | some register =>
              rw [monitor_eq there]
              exact ⟨declared, program_declareAll b [name]⟩
        · exact ⟨declared, program_declareAll b [name]⟩
      have rest := ih first.1.orderly
      exact ⟨first.1.trans rest.1, rest.2.trans first.2⟩

theorem rerooted_build {h : Heap} (a : Orderly d h) (setup : Setup) :
    Rerooted d h (build setup h).heap ∧ (build setup h).machine.program = none := by
  have pinned := Rerooted.pin a a.expression_nil
  have declared := rerooted_declareAll (b := empty setup.stackLimit setup.operations h)
    pinned.orderly (setup.registers ++ setup.monitored)
  have monitored := rerooted_declareMonitored declared.orderly setup.monitored
  refine ⟨(pinned.trans declared).trans monitored.1, monitored.2.trans ?_⟩
  exact program_declareAll _ _

theorem inOrder_build (o : w.InOrder d) (setup : Setup) (source : Value) :
    ((build setup w.heap).within source w).InOrder d := by
  have built := rerooted_build o.orderly setup
  refine o.rerooted built.1 (accounts_within.2 (accounts_build o.accounts setup)) ?_
  intro tenant member v mentions
  rcases List.mem_cons.1 member with rfl | member
  · -- There is no program yet that could have constants.
    obtain ⟨_, _, installed, -⟩ := mentions
    cases built.2.symm.trans installed
  · exact ⟨tenant, member, rfl, mentions⟩

theorem inOrder_assemble (o : w.InOrder d) (setup : Setup) {program : Value}
    (isExpr : w.heap.Expression program) :
    match assemble setup program w.heap with
    | .ok machine h => (Workshop.mk h (⟨machine, program⟩ :: w.tenants) w.others).InOrder d
    | .error _ h => { w with heap := h }.InOrder d := by
  have there := (rerooted_build o.orderly setup).1.expression o.orderly isExpr
  have installed := inOrder_install (inOrder_build o setup .nil) there
  unfold assemble
  cases ran : install program (build setup w.heap) with
  | ok _ b =>
      rw [ran] at installed
      exact installed
  | error e b =>
      rw [ran] at installed
      exact inOrder_release installed

end Bench

/-! ## Requests -/

/-- What a machine is given from outside are expressions. -/
def Request.Permitted (h : Heap) : Request → Prop
  | .setRegister _ payload => h.Expression payload.held
  | .install program => h.Expression program
  | _ => True

/-- Whatever is asked of a machine, its workshop stays in order. -/
theorem Tenant.inOrder_ask {d : Layout} {h : Heap} {tenant : Tenant} {tenants : List Tenant}
    {others : Heap.Ledger} (o : Workshop.InOrder d ⟨h, tenant :: tenants, others⟩)
    {request : Request} (permitted : request.Permitted h) :
    ∃ d', Workshop.InOrder d'
      ⟨(tenant.ask request h).2, (tenant.ask request h).1 :: tenants, others⟩ := by
  have o : ((Bench.mk tenant.machine h).within tenant.source ⟨h, tenants, others⟩).InOrder d := o
  cases request with
  | declare name => exact ⟨d, Bench.inOrder_declareAll o [name]⟩
  | setRegister name payload => exact (Bench.keeps_setRegister ⟨d, o⟩ name permitted).left
  | monitor name => exact (Bench.keeps_monitorRegister ⟨d, o⟩ name).left
  | trace on => exact Bench.Works.same ⟨d, o⟩ rfl rfl rfl
  | install program =>
      have installed := Bench.inOrder_install o permitted
      unfold Tenant.ask
      dsimp only
      rcases ran : Bench.install program ⟨tenant.machine, h⟩ with ⟨_, b⟩ | ⟨e, b⟩
      · rw [ran] at installed
        exact ⟨d, installed⟩
      · rw [ran] at installed
        exact ⟨d, installed⟩
  | start trace => exact (Bench.keeps_start ⟨d, o⟩ trace).left
  | step => exact (Bench.keeps_step ⟨d, o⟩).left
  | run => exact (Bench.keeps_run ⟨d, o⟩).left

end Lisplet
