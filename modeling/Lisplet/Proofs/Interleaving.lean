import Lisplet.Proofs.Errors
import Lisplet.Proofs.Machine.Upkeep
import Lisplet.Proofs.Services
import Lisplet.Proofs.Termination.Acyclic

/-!
# Interleaving — whatever shares a heap, its data is without cycles

Texts are read, expressions evaluated and register machines run on one heap, in any order and with
whatever outcome. In between the host may use all that the heap offers, but for changing a pair in
place. It hands over expressions and live environments only, and what reading, evaluation and the
machines give are expressions again. In no state that comes about so does a pair lead back to
itself, though the environments may.
-/

namespace Lisplet

open Heap.Operation (heapAfter)
open Relation (TransGen)
open Termination

namespace Workshop

/-- What may happen on a heap that the host shares with register machines. -/
inductive Move : Workshop → Workshop → Prop
  | serve (w : Workshop) (service : Service) : service.Permitted w.heap →
      Move w { w with heap := service.run w.heap }
  | collect (w : Workshop) : Move w { w with heap := w.heap.collect.1 }
  | root (w : Workshop) (v : Value) : w.heap.Expression v →
      Move w { w with heap := w.heap.addRoot v }
  | truncateRoots (w : Workshop) (height : Nat) :
      Move w { w with heap := w.heap.truncateRoots height }
  | pin (w : Workshop) (v : Value) : w.heap.Expression v →
      Move w { w with heap := (w.heap.pin v).2, others := ((w.heap.pin v).1, v) :: w.others }
  | repin (h : Heap) (tenants : List Tenant) (before after : Heap.Ledger) (p : Pin) (u v : Value) :
      h.Expression v →
        Move ⟨h, tenants, before ++ (p, u) :: after⟩
          ⟨h.repin p v, tenants, before ++ (p, v) :: after⟩
  | unpin (h : Heap) (tenants : List Tenant) (before after : Heap.Ledger) (p : Pin) (u : Value) :
      Move ⟨h, tenants, before ++ (p, u) :: after⟩ ⟨h.unpin p, tenants, before ++ after⟩
  | build (w : Workshop) (setup : Setup) (source : Value) :
      Move w ((Bench.build setup w.heap).within source w)
  | assemble (w : Workshop) (setup : Setup) (program : Value) (machine : Machine) (h : Heap) :
      w.heap.Expression program → Bench.assemble setup program w.heap = .ok machine h →
        Move w ⟨h, ⟨machine, program⟩ :: w.tenants, w.others⟩
  | assembleFails (w : Workshop) (setup : Setup) (program : Value) (e : AssemblyError) (h : Heap) :
      w.heap.Expression program → Bench.assemble setup program w.heap = .error e h →
        Move w { w with heap := h }
  | request (h : Heap) (before after : List Tenant) (tenant : Tenant) (others : Heap.Ledger)
      (request : Request) : request.Permitted h →
        Move ⟨h, before ++ tenant :: after, others⟩
          ⟨(tenant.ask request h).2, before ++ (tenant.ask request h).1 :: after, others⟩
  | release (h : Heap) (before after : List Tenant) (tenant : Tenant) (others : Heap.Ledger) :
      Move ⟨h, before ++ tenant :: after, others⟩
        ⟨Bench.release ⟨tenant.machine, h⟩, before ++ after, others⟩

/-- The states that come about on a fresh heap, with or without the standard primitives. -/
inductive Arises : Workshop → Prop
  | empty (capacity : Nat) : Arises ⟨.empty capacity, [], []⟩
  | standard {capacity : Nat} {h : Heap} : Heap.standard capacity = .ok h → Arises ⟨h, [], []⟩
  | move {w w' : Workshop} : Arises w → Move w w' → Arises w'

/-! ## The workshop stays in order -/

section Order

variable {d : Layout} {w w' : Workshop}

/-- A move of the host that changes roots, but nothing of the machines. -/
theorem InOrder.rerooted_host (o : w.InOrder d) {h : Heap} {others : Heap.Ledger}
    (r : Rerooted d w.heap h) (accounts : h.Accounts (Workshop.mk h w.tenants others).ledger) :
    InOrder d ⟨h, w.tenants, others⟩ :=
  o.rerooted r accounts fun tenant member _ mentions => ⟨tenant, member, rfl, mentions⟩

theorem inOrder_move (o : w.InOrder d) (move : Move w w') : ∃ d', w'.InOrder d' := by
  have a := o.orderly
  cases move with
  | serve _ service permitted =>
      rcases endures_run a service permitted with ⟨d', a', k, _⟩
      exact ⟨d', o.retained a' k (conduct_level.whole_run service fun _ _ => trivial)⟩
  | collect _ =>
      exact ⟨d, o.retained a.collect (retains_collect d a.toWellFormed) ⟨rfl, rfl, rfl⟩⟩
  | root _ v isExpr =>
      have balanced := Heap.Balanced.addRoot w.heap v
      have accounts := o.accounts.of_eq balanced.pins_eq balanced.freePins_eq
      exact ⟨d, o.rerooted_host (.addRoot a isExpr) accounts⟩
  | truncateRoots _ height =>
      exact ⟨d, o.rerooted_host (.truncateRoots a height) (o.accounts.of_eq rfl rfl)⟩
  | pin _ v isExpr =>
      exact ⟨d, o.rerooted_host (.pin a isExpr) (accounts_step o.accounts (.pin w v))⟩
  | repin h tenants before after p u v isExpr =>
      have accounts := accounts_step o.accounts (.repin h tenants before after p u v)
      exact ⟨d, o.rerooted_host (.repin a p isExpr) accounts⟩
  | unpin h tenants before after p u =>
      have accounts := accounts_step o.accounts (.unpin h tenants before after p u)
      exact ⟨d, o.rerooted_host (.unpin a p) accounts⟩
  | build _ setup source => exact ⟨d, Bench.inOrder_build o setup source⟩
  | assemble _ setup program machine h isExpr ran =>
      have assembled := Bench.inOrder_assemble o setup isExpr
      rw [ran] at assembled
      exact ⟨d, assembled⟩
  | assembleFails _ setup program e h isExpr ran =>
      have assembled := Bench.inOrder_assemble o setup isExpr
      rw [ran] at assembled
      exact ⟨d, assembled⟩
  | request h before after tenant others request permitted =>
      -- Which tenant comes first is of no account, so the one that is asked may.
      rcases Tenant.inOrder_ask (o.perm List.perm_middle) permitted with ⟨d', asked⟩
      exact ⟨d', asked.perm List.perm_middle.symm⟩
  | release h before after tenant others =>
      exact ⟨d, Bench.inOrder_release (b := ⟨tenant.machine, h⟩)
        (w := ⟨h, before ++ after, others⟩) (o.perm List.perm_middle)⟩

/-- Whatever has been going on in a workshop, it is in order. -/
theorem Arises.inOrder (arises : w.Arises) : ∃ d, w.InOrder d := by
  -- Induction on the moves since the heap was fresh; each may lead to another layout.
  induction arises with
  | empty capacity =>
      rcases exists_orderly_empty capacity with ⟨d, a⟩
      exact ⟨d, a, .empty capacity, List.forall_mem_nil _⟩
  | @standard capacity h done =>
      rcases exists_orderly_standard done with ⟨d, a⟩
      have level := conduct_level.whole_standard done
      exact ⟨d, a, (Heap.Accounts.empty capacity).of_eq level.pins_eq level.freePins_eq,
        List.forall_mem_nil _⟩
  | move _ move ih =>
      rcases ih with ⟨d, o⟩
      exact inOrder_move o move

end Order

/-! ## Whole texts -/

section Texts

variable {h h' : Heap} {tenants : List Tenant} {others : Heap.Ledger}

/-- Between reading a form and the next one the form is rooted, evaluated and dropped. -/
theorem Arises.evaluateForm (arises : Arises ⟨h, tenants, others⟩) (ev : Evaluator) {form : Value}
    (isExpr : h.Expression form) :
    Arises ⟨heapAfter (ev.evaluateForm form) h, tenants, others⟩ := by
  have rooted : Arises ⟨h.addRoot form, tenants, others⟩ := .move arises (.root _ form isExpr)
  obtain ⟨d, o⟩ := arises.inOrder
  have same := Rerooted.addRoot o.orderly isExpr
  have isEnv : (h.addRoot form).IsEnvironment (h.addRoot form).rootEnv.value := by
    obtain ⟨bindings, found⟩ := same.orderly.rootEnv_frame
    exact ⟨bindings, none, found⟩
  have evaluated := rooted.move (.serve _ (.eval ev ev.limit form (h.addRoot form).rootEnv)
    ⟨same.expression o.orderly isExpr, isEnv⟩)
  have dropped := evaluated.move (.truncateRoots _ h.roots.length)
  rwa [Evaluator.evaluateForm, Heap.Operation.heapAfter_scope]

/-- All heaps that the work on a text comes by arise, if the heap before it does. -/
theorem Arises.passes {σ : Type} {ev : Evaluator} {r : Reader} {s : σ}
    {each : Heap → Value → σ → Except Failure Unit × σ} (arises : Arises ⟨h, tenants, others⟩)
    (p : ev.Passes each r h s h') : Arises ⟨h', tenants, others⟩ := by
  -- What is read at an arisen heap is an expression, so it may be evaluated.
  have form {h : Heap} (arises : Arises ⟨h, tenants, others⟩) {r r' : Reader} {form : Value}
      {h₁ : Heap} (found : r.read h = ⟨.ok (some form), r', h₁⟩) :
      Arises ⟨heapAfter (ev.evaluateForm form) h₁, tenants, others⟩ := by
    have read : Arises ⟨(r.read h).heap, tenants, others⟩ :=
      arises.move (.serve _ (.read r) trivial)
    obtain ⟨d, o⟩ := arises.inOrder
    rcases read_kept r o.orderly with ⟨d', kept⟩
    rw [found] at read kept
    exact read.evaluateForm ev (kept.orderly.expression (.inl (kept.used form rfl)))
  induction p with
  | read r h s => exact arises.move (.serve _ (.read r) trivial)
  | evaluated s found => exact form arises found
  | later found evaluated _ _ ih =>
      have next := form arises found
      unfold heapAfter at next
      rw [evaluated] at next
      exact ih next

theorem Arises.sourcePasses {σ : Type} {limit : Nat} {source : String} {s : σ}
    {each : Heap → Value → σ → Except Failure Unit × σ} (arises : Arises ⟨h, tenants, others⟩)
    (p : SourcePasses limit source each h s h') : Arises ⟨h', tenants, others⟩ := by
  have made : Arises ⟨heapAfter (Evaluator.make limit) h, tenants, others⟩ :=
    arises.move (.serve _ (.make limit) trivial)
  cases p with
  | made => exact made
  | rest done passes =>
      unfold heapAfter at made
      rw [done] at made
      exact made.passes passes

end Texts

end Workshop

/-! ## Data without cycles -/

/-- The object in the slot `i` refers to the slot `k`, as a pair, a closure or an environment. -/
def Heap.Refers (h : Heap) (i k : Nat) : Prop :=
  ∃ o, h.object? (.slot i) = some o ∧ .slot k ∈ o.references

namespace Workshop

/-- A closure that belongs to the root environment of a heap of eight slots. -/
def closure : Heap := Heap.Operation.run (.procedure .nil .nil ⟨.slot 0⟩) (.empty 8)

/-- The closure is bound to `t` in its own environment. -/
def circle : Heap := Heap.Operation.run (.define ⟨.slot 0⟩ (.slot 1) (.slot 2)) closure

theorem arises_circle : Arises ⟨circle, [], []⟩ := by
  have isEnv : (Heap.empty 8).IsEnvironment (.slot 0) := ⟨.nil, none, rfl⟩
  have made : Arises ⟨closure, [], []⟩ := by
    obtain ⟨d, o⟩ := Arises.inOrder (.empty 8)
    have a := o.orderly.toSuited
    refine .move (.empty 8) (.serve _ (.build (.procedure .nil .nil ⟨.slot 0⟩) rfl)
      ⟨?_, List.forall_mem_singleton.2 isEnv, List.forall_mem_nil _⟩)
    have isExpr := a.expression_of_atom (v := .slot 0) (o := .environment .nil none) rfl (by decide)
    simpa [Heap.Operation.handles] using ⟨a.expression_nil, isExpr⟩
  have isEnv : closure.IsEnvironment (.slot 0) := ⟨.nil, none, rfl⟩
  obtain ⟨d, o⟩ := made.inOrder
  have a := o.orderly.toSuited
  refine .move made (.serve _ (.build (.define ⟨.slot 0⟩ (.slot 1) (.slot 2)) rfl)
    ⟨?_, List.forall_mem_singleton.2 isEnv, List.forall_mem_nil _⟩)
  have isExpr := a.expression_of_atom (v := .slot 0) (o := .environment .nil none) rfl (by decide)
  have isSymbol := a.expression_of_atom (v := .slot 1) (o := .symbol "t") rfl (by decide)
  have isClosure := a.expression_of_atom (v := .slot 2) (o := .procedure .nil .nil ⟨.slot 0⟩) rfl
    (by decide)
  simpa [Heap.Operation.handles] using ⟨isExpr, isSymbol, isClosure⟩

/--
Whatever has been going on in a workshop, no pair leads back to itself along cars and cdrs; so all
walks through what is live come to an end by themselves, also those inside an evaluation. What
services give and machines hold are expressions, which may be handed over again, and running a whole
text comes by such workshops only. But a closure may lead back to itself through the environment
that it belongs to.
-/
theorem acyclic_of_arises :
    (∀ w : Workshop, w.Arises →
      w.heap.Acyclic ∧ (∀ v, w.heap.Holds v → w.heap.WalksEnd v) ∧
        (∀ (ev : Evaluator) (room : Nat) (expr : Value) (env : Env), w.heap.Expression expr →
          w.heap.IsEnvironment env.value → (Unbounded.eval ev room expr env).run w.heap =
            some (Unbounded.outcome (ev.eval room expr env w.heap))) ∧
        (∀ service : Service, service.Permitted w.heap → ∀ v ∈ service.given w.heap,
          (service.run w.heap).Expression v) ∧
        (∀ tenant ∈ w.tenants, ∀ p v, (p, v) ∈ tenant.machine.holdings tenant.source →
          w.heap.Expression v) ∧
        ∀ (σ : Type) (limit : Nat) (source : String)
          (each : Heap → Value → σ → Except Failure Unit × σ) (s : σ) (h : Heap),
          SourcePasses limit source each w.heap s h → Arises { w with heap := h }) ∧
      ∃ w : Workshop, w.Arises ∧ ∃ i, TransGen w.heap.Refers i i := by
  refine ⟨fun w arises => ?_, ⟨circle, [], []⟩, arises_circle, 2, ?_⟩
  · obtain ⟨d, o⟩ := arises.inOrder
    have acyclic := o.orderly.acyclic
    refine ⟨acyclic, fun v held => acyclic.walksEnd o.orderly.toWellFormed held, ?_, ?_, ?_, ?_⟩
    · intro ev room expr env isExpr isEnv
      exact (completes_expression ev room o.orderly isExpr isEnv).ends
    · intro service permitted v member
      obtain ⟨d', a', -, used⟩ := endures_run o.orderly service permitted
      exact a'.expression (.inl (used v member))
    · exact fun tenant member p v holding =>
        o.orderly.expression_of_root (o.isRoot_of_holding member holding)
    · exact fun σ limit source each s h passes => arises.sourcePasses passes
  · have closure : circle.Refers 2 0 := ⟨.procedure .nil .nil ⟨.slot 0⟩, rfl, by decide⟩
    have bindings : circle.Refers 0 4 := ⟨.environment (.slot 4) none, rfl, by decide⟩
    have binding : circle.Refers 4 3 := ⟨.pair (.slot 3) .nil, rfl, by decide⟩
    have value : circle.Refers 3 2 := ⟨.pair (.slot 1) (.slot 2), rfl, by decide⟩
    exact .head closure (.head bindings (.head binding (.single value)))

/-- A machine with one register, on a heap where the text `(())` has been read. -/
def keeper : Bench := Bench.build { Setup.standard with registers := ["x"] } .nested

/-- The list that has been read is put into the register. -/
def kept : Tenant × Heap :=
  Tenant.ask ⟨keeper.machine, .nil⟩ (.setRegister "x" (.value (.slot 8))) keeper.heap

theorem arises_kept : Arises ⟨kept.2, [kept.1], []⟩ := by
  have made : Arises ⟨.withSymbols 16 Evaluator.formNames, [], []⟩ := by
    have step := Arises.move (.empty 16) (.serve _ (.make 9) trivial)
    have ends : (Service.make 9).run (.empty 16) = .withSymbols 16 Evaluator.formNames := by
      show Heap.Operation.heapAfter (Evaluator.make 9) (.empty 16) = _
      unfold Heap.Operation.heapAfter
      rw [Evaluator.make_empty 9 (by decide)]
    rwa [ends] at step
  have read : Arises ⟨.nested, [], []⟩ := .move made (.serve _ (.read _) trivial)
  have built : Arises ⟨keeper.heap, [⟨keeper.machine, .nil⟩], []⟩ :=
    .move read (.build _ { Setup.standard with registers := ["x"] } .nil)
  obtain ⟨d, o⟩ := read.inOrder
  have rerooted := (Bench.rerooted_build o.orderly { Setup.standard with registers := ["x"] }).1
  exact .move built (.request keeper.heap [] [] ⟨keeper.machine, .nil⟩ []
    (.setRegister "x" (.value (.slot 8))) (rerooted.expression o.orderly Heap.expression_nested))

theorem acyclic_of_arises_kept :
    kept.2.pair? (.slot 8) = some (.nil, .nil) ∧
      (kept.1.machine.read 0).held = .slot 8 ∧ kept.2.Acyclic ∧ kept.2.WalksEnd (.slot 8) := by
  have there : kept.2.pair? (.slot 8) = some (.nil, .nil) := by decide +kernel
  have held : (kept.1.machine.read 0).held = .slot 8 := by decide +kernel
  have found := Heap.pair?_eq_some_iff.1 there
  have walks := acyclic_of_arises.1 _ arises_kept
  exact ⟨there, held, walks.1, walks.2.1 _ (Heap.holds_of_object? found)⟩

end Workshop

end Lisplet
