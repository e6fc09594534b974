import Lisplet.Proofs.Machine.Holdings
import Mathlib.Algebra.GroupWithZero.Nat
import Mathlib.Logic.Relation

/-!
# The workshop — machines that share a heap

Any number of machines work on one heap, which others use as well. The others may do with the
heap and with pins of their own what they like, as long as they leave alone the pins of the
machines. At every point the pins held are those of the machines and those of the others.
-/

namespace Lisplet

/-- A machine with the list that its program was assembled from, which is of no account before. -/
structure Tenant where
  machine : Machine
  source : Value

structure Workshop where
  heap : Heap
  tenants : List Tenant
  /-- The pins that are not a machine's. -/
  others : Heap.Ledger

/-- What may be asked of a machine. -/
inductive Request where
  | declare (name : String)
  | setRegister (name : String) (payload : Payload)
  | monitor (name : String)
  | trace (on : Bool)
  | install (program : Value)
  | start (trace : Bool)
  | step
  | run

namespace Tenant

open Bench

/-- The tenant and the heap after a request, whether it fails or not. -/
def ask (tenant : Tenant) (request : Request) (h : Heap) : Tenant × Heap :=
  match request with
  | .declare name => after (declare ⟨tenant.machine, h⟩ name)
  | .setRegister name payload => after (left (setRegister name payload ⟨tenant.machine, h⟩))
  | .monitor name => after (left (monitorRegister name ⟨tenant.machine, h⟩))
  | .trace on => after (setTrace on ⟨tenant.machine, h⟩)
  | .install program =>
    match install program ⟨tenant.machine, h⟩ with
    | .ok _ b => (⟨b.machine, program⟩, b.heap)
    | .error _ b => after b
  | .start trace => after (left (start trace ⟨tenant.machine, h⟩))
  | .step => after (left (step ⟨tenant.machine, h⟩))
  | .run => after (left (run ⟨tenant.machine, h⟩))
where
  after (b : Bench) : Tenant × Heap := (⟨b.machine, tenant.source⟩, b.heap)

/-- The pins held are those of the tenant and those in a ledger of others. -/
def Accounts (tenant : Tenant) (h : Heap) (others : Heap.Ledger) : Prop :=
  Bench.Accounts ⟨tenant.machine, h⟩ tenant.source others

theorem Accounts.ask {tenant : Tenant} {h : Heap} {others : Heap.Ledger}
    (a : tenant.Accounts h others) (request : Request) :
    (tenant.ask request h).1.Accounts (tenant.ask request h).2 others := by
  cases request with
  | declare name => exact Bench.Accounts.declare a name
  | setRegister name payload => exact keepsAccounts_setRegister name payload _ _ _ a
  | monitor name => exact keepsAccounts_monitorRegister name _ _ _ a
  | trace on => exact a
  | install program =>
      have installed := accounts_install a program
      unfold Tenant.ask
      dsimp only
      rcases ran : install program ⟨tenant.machine, h⟩ with ⟨_, b⟩ | ⟨e, b⟩
      · rw [ran] at installed
        exact installed
      · rw [ran] at installed
        exact installed
  | start trace => exact keepsAccounts_start trace _ _ _ a
  | step => exact keepsAccounts_step _ _ _ a
  | run => exact keepsAccounts_run _ _ _ a

end Tenant

namespace Machine

/-- How many pins a machine has: for its flag, registers, stack and program. -/
def share (m : Machine) : Nat :=
  1 + m.registers.size + m.stack.size + if m.program.isSome then 1 else 0

theorem length_holdings (m : Machine) (source : Value) : (m.holdings source).length = m.share := by
  cases installed : m.program <;> simp [holdings, share, installed] <;> omega

end Machine

namespace Workshop

/-- What the machines and the others hold, pin by pin. -/
def ledger (w : Workshop) : Heap.Ledger :=
  w.tenants.flatMap (fun tenant => tenant.machine.holdings tenant.source) ++ w.others

/-- What may happen in a workshop from one moment to the next. -/
inductive Step : Workshop → Workshop → Prop
  | build (w : Workshop) (setup : Setup) (source : Value) :
      Step w { w with
        heap := (Bench.build setup w.heap).heap
        tenants := ⟨(Bench.build setup w.heap).machine, source⟩ :: w.tenants }
  | assemble (w : Workshop) (setup : Setup) (program : Value) (machine : Machine) (h : Heap) :
      Bench.assemble setup program w.heap = .ok machine h →
        Step w { w with heap := h, tenants := ⟨machine, program⟩ :: w.tenants }
  | assembleFails (w : Workshop) (setup : Setup) (program : Value) (e : AssemblyError) (h : Heap) :
      Bench.assemble setup program w.heap = .error e h → Step w { w with heap := h }
  | request (h : Heap) (before after : List Tenant) (tenant : Tenant) (others : Heap.Ledger)
      (request : Request) :
      Step ⟨h, before ++ tenant :: after, others⟩
        ⟨(tenant.ask request h).2, before ++ (tenant.ask request h).1 :: after, others⟩
  | release (h : Heap) (before after : List Tenant) (tenant : Tenant) (others : Heap.Ledger) :
      Step ⟨h, before ++ tenant :: after, others⟩
        ⟨Bench.release ⟨tenant.machine, h⟩, before ++ after, others⟩
  /-- Others pin a value. -/
  | pin (w : Workshop) (v : Value) :
      Step w { w with heap := (w.heap.pin v).2, others := ((w.heap.pin v).1, v) :: w.others }
  /-- Others change what one of their pins holds. -/
  | repin (h : Heap) (tenants : List Tenant) (before after : Heap.Ledger) (p : Pin) (u v : Value) :
      Step ⟨h, tenants, before ++ (p, u) :: after⟩ ⟨h.repin p v, tenants, before ++ (p, v) :: after⟩
  /-- Others give one of their pins back. -/
  | unpin (h : Heap) (tenants : List Tenant) (before after : Heap.Ledger) (p : Pin) (u : Value) :
      Step ⟨h, tenants, before ++ (p, u) :: after⟩ ⟨h.unpin p, tenants, before ++ after⟩
  /-- Others give a pin back that nobody has any more. -/
  | unpinAgain (w : Workshop) (p : Pin) :
      p ∉ w.ledger.map Prod.fst → Step w { w with heap := w.heap.unpin p }
  /-- Others do anything on the heap but with pins: allocate, collect, read, evaluate. -/
  | elsewhere (w : Workshop) (h : Heap) :
      h.pins = w.heap.pins → h.freePins = w.heap.freePins → Step w { w with heap := h }

section Steps

variable {w w' : Workshop}

theorem ledger_cons (h : Heap) (tenant : Tenant) (tenants : List Tenant) (others : Heap.Ledger) :
    ledger ⟨h, tenant :: tenants, others⟩ =
      tenant.machine.holdings tenant.source ++ ledger ⟨h, tenants, others⟩ :=
  List.append_assoc _ _ _

/-- One machine and its pins can be looked at apart from the rest. -/
theorem perm_tenant (h : Heap) (before after : List Tenant) (tenant : Tenant)
    (others : Heap.Ledger) :
    (ledger ⟨h, before ++ tenant :: after, others⟩).Perm
      (tenant.machine.holdings tenant.source ++ ledger ⟨h, before ++ after, others⟩) := by
  have apart := List.perm_append_comm_assoc
    (before.flatMap fun tenant => tenant.machine.holdings tenant.source)
    (tenant.machine.holdings tenant.source)
    (after.flatMap (fun tenant => tenant.machine.holdings tenant.source) ++ others)
  simpa [ledger] using apart

/-- So can one pin of the others. -/
theorem perm_others (h : Heap) (tenants : List Tenant) (before after : Heap.Ledger)
    (entry : Pin × Value) :
    (ledger ⟨h, tenants, before ++ entry :: after⟩).Perm
      (entry :: ledger ⟨h, tenants, before ++ after⟩) := by
  have apart : ((tenants.flatMap (fun tenant => tenant.machine.holdings tenant.source) ++ before) ++
      entry :: after).Perm _ := List.perm_middle
  simpa [ledger] using apart

theorem accounts_step (a : w.heap.Accounts w.ledger) (step : Step w w') :
    w'.heap.Accounts w'.ledger := by
  cases step with
  | build _ setup source =>
      have built : (Bench.build setup w.heap).Accounts source w.ledger :=
        Bench.accounts_build a setup
      rw [ledger_cons]
      exact built
  | assemble _ setup program machine h ran =>
      have assembled := Bench.accounts_assemble a setup program
      rw [ran] at assembled
      rw [ledger_cons]
      exact assembled
  | assembleFails _ setup program e h ran =>
      have assembled := Bench.accounts_assemble a setup program
      rw [ran] at assembled
      exact assembled
  | request h before after tenant others request =>
      have apart : tenant.Accounts h (ledger ⟨h, before ++ after, others⟩) :=
        a.perm (perm_tenant h before after tenant others)
      exact (apart.ask request).perm (perm_tenant _ before after _ others).symm
  | release h before after tenant others =>
      have apart : tenant.Accounts h (ledger ⟨h, before ++ after, others⟩) :=
        a.perm (perm_tenant h before after tenant others)
      exact Bench.Accounts.release apart
  | pin _ v => exact (a.pin v).perm List.perm_middle.symm
  | repin h tenants before after p u v =>
      have first := a.perm (perm_others h tenants before after (p, u))
      exact (first.repin v).perm (perm_others _ tenants before after (p, v)).symm
  | unpin h tenants before after p u =>
      exact (a.perm (perm_others h tenants before after (p, u))).unpin
  | unpinAgain _ p idle =>
      rw [a.unpin_idle idle]
      exact a
  | elsewhere _ h pins freePins => exact a.of_eq pins freePins

theorem accounts_of_reachable {w₀ : Workshop} (a : w₀.heap.Accounts w₀.ledger)
    (reaches : Relation.ReflTransGen Step w₀ w) : w.heap.Accounts w.ledger := by
  induction reaches with
  | refl => exact a
  | tail _ step ih => exact accounts_step ih step

theorem length_ledger (w : Workshop) :
    w.ledger.length = w.others.length + (w.tenants.map fun tenant => tenant.machine.share).sum := by
  simp [ledger, List.length_flatMap, Machine.length_holdings, Nat.add_comm]

/--
Whatever the machines hold is pinned, and nothing else is but what others have pinned. The
machines come into being in a workshop where all pins are those of the others; after whatever has
happened there since, the pins held are those on the ledger and hold what it says, no two holders
share a pin, and the number of pins is that of the others and the shares of the machines. A
machine that is released gives back its share.
-/
theorem holdings_of_reachable {w₀ : Workshop} (idle : w₀.tenants = [])
    (accounts : w₀.heap.Accounts w₀.others) (reaches : Relation.ReflTransGen Step w₀ w) :
    (∀ p v, (p, v) ∈ w.ledger ↔ w.heap.pins[p.index]? = some (some v)) ∧
      (w.ledger.map Prod.fst).Nodup ∧
      (∀ p v, (p, v) ∈ w.ledger → w.heap.pinned p = v) ∧
      w.heap.pinCount =
        w.others.length + (w.tenants.map fun tenant => tenant.machine.share).sum ∧
      ∀ tenant ∈ w.tenants,
        (Bench.release ⟨tenant.machine, w.heap⟩).pinCount + tenant.machine.share =
          w.heap.pinCount := by
  have start : w₀.heap.Accounts w₀.ledger := by
    rw [ledger, idle]
    exact accounts
  have a := accounts_of_reachable start reaches
  refine ⟨a.mem_iff, a.pins_nodup, fun p v => a.pinned_eq, ?_, fun tenant member => ?_⟩
  · rw [a.pinCount_eq, length_ledger]
  · obtain ⟨before, after, split⟩ := List.append_of_mem member
    obtain ⟨h, tenants, others⟩ := w
    cases split
    have apart := perm_tenant h before after tenant others
    have released := Bench.Accounts.release (b := ⟨tenant.machine, h⟩) (a.perm apart)
    have lengths := apart.length_eq
    rw [List.length_append, Machine.length_holdings] at lengths
    rw [released.pinCount_eq, a.pinCount_eq]
    exact (Nat.add_comm _ _).trans lengths.symm

/-- A workshop without machines where others have pinned the symbol `t`. -/
def vacant : Workshop where
  heap := ((Heap.empty 8).pin (.slot 1)).2
  tenants := []
  others := [(⟨0⟩, .slot 1)]

theorem holdings_of_reachable_vacant :
    ∃ w, vacant.tenants = [] ∧ vacant.heap.Accounts vacant.others ∧
      Relation.ReflTransGen Step vacant w ∧ w.tenants.length = 1 ∧
      (∀ p v, (p, v) ∈ w.ledger ↔ w.heap.pins[p.index]? = some (some v)) ∧
      (w.ledger.map Prod.fst).Nodup ∧
      (∀ p v, (p, v) ∈ w.ledger → w.heap.pinned p = v) ∧
      w.heap.pinCount =
        w.others.length + (w.tenants.map fun tenant => tenant.machine.share).sum ∧
      ∀ tenant ∈ w.tenants,
        (Bench.release ⟨tenant.machine, w.heap⟩).pinCount + tenant.machine.share =
          w.heap.pinCount := by
  have accounts : vacant.heap.Accounts vacant.others := (Heap.Accounts.empty 8).pin (.slot 1)
  -- A machine with a register is built and asked to step, though it has no program.
  let b := Bench.build { Setup.standard with registers := ["x"] } vacant.heap
  have built := Step.build vacant { Setup.standard with registers := ["x"] } .nil
  have asked := Step.request b.heap [] [] ⟨b.machine, .nil⟩ vacant.others .step
  have reaches := (Relation.ReflTransGen.single built).tail asked
  exact ⟨_, rfl, accounts, reaches, rfl, holdings_of_reachable rfl accounts reaches⟩

end Steps

end Workshop

end Lisplet
