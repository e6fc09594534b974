import Lisplet.Proofs.Termination.Changes
import Lisplet.Proofs.Termination.Unbounded

/-!
# Upkeep — operations that keep a heap orderly

`Maintains d h op Q` says that an operation leaves an orderly heap, whether it succeeds or fails.
The layout may change, since slots are emptied and filled again; what stays is what the roots keep
through data (`Tethered`, `Retains`). `Completes d h op' op Q` says besides that an operation with
unbounded loops comes to an end, namely that of the bounded one. The rules follow the way
operations are put together.
-/

namespace Lisplet

namespace Termination

open Simulation (Role)
open Unbounded (outcome lift await)

/-! ## What stays -/

/-- A value that the roots keep by itself or as part of data. -/
inductive Tethered (d : Layout) (h : Heap) : Value → Prop where
  | nil : Tethered d h .nil
  | root {v : Value} : h.IsRoot v → Tethered d h v
  | part {i : Nat} {o : Object} {v : Value} : Tethered d h (.slot i) → d i = .datum →
      h.object? (.slot i) = some o → v ∈ o.references → Tethered d h v

/-- A value of some use that no collection takes away. -/
structure Kept (d : Layout) (h : Heap) (r : Role) (v : Value) : Prop where
  tethered : Tethered d h v
  fills : Fills d r v

/-- `d'` and `h'` are a later layout and a later heap at which all that was tethered still is. -/
structure Retains (d : Layout) (h : Heap) (d' : Layout) (h' : Heap) : Prop where
  roots : h.KeepsRoots h'
  uses : ∀ i, Tethered d h (.slot i) → d' i = d i
  objects : ∀ i, Tethered d h (.slot i) → d i = .datum →
    h'.object? (.slot i) = h.object? (.slot i)

section Tether

variable {d d' d'' : Layout} {h h' h'' : Heap} {r : Role} {u v : Value} {o : Object}

theorem Tethered.holds (tethered : Tethered d h v) (w : h.WellFormed) : h.Holds v := by
  cases tethered with
  | nil => exact Heap.holds_nil h
  | root root => exact w.roots_held v root
  | part _ _ found member => exact w.references_held _ _ found v member

theorem Tethered.reachable (w : h.WellFormed) {i : Nat} (tethered : Tethered d h (.slot i)) :
    h.Reachable i := by
  generalize same : Value.slot i = v at tethered
  -- Induction on how the value is tethered, for whatever slot it is in.
  induction tethered generalizing i with
  | nil => cases same
  | root root =>
      subst same
      exact w.reachable_of_root root
  | part _ _ found member ih =>
      subst same
      exact w.reachable_of_reference (ih rfl) found member

/-- What nothing refers to is not tethered. -/
theorem Loose.not_tethered {i : Nat} (loose : Loose h i) : ¬ Tethered d h (.slot i) := by
  intro tethered
  cases tethered with
  | root root => exact loose.unrooted root
  | part _ _ found member => exact loose.unreferenced _ _ found member

theorem Kept.used (kept : Kept d h r v) (w : h.WellFormed) : Used d h r v :=
  ⟨kept.fills, kept.tethered.holds w⟩

theorem Tethered.addRoot (tethered : Tethered d h v) (u : Value) : Tethered d (h.addRoot u) v := by
  have roots := Heap.KeepsRoots.addRoot h u
  induction tethered with
  | nil => exact .nil
  | root root => exact .root (roots.isRoot root)
  | part _ use found member ih =>
      exact .part ih use ((Heap.object?_addRoot h u _).trans found) member

theorem tethered_addRoot (d : Layout) (h : Heap) (v : Value) : Tethered d (h.addRoot v) v := by
  cases v with
  | nil => exact .nil
  | slot i => exact .root (.stack List.mem_cons_self)

theorem Kept.addRoot (kept : Kept d h r v) (u : Value) : Kept d (h.addRoot u) r v :=
  ⟨kept.tethered.addRoot u, kept.fills⟩

/-- The parts of data that is kept are kept. -/
theorem Kept.parts (kept : Kept d h .datum v) (a : Suited d h) {car cdr : Value}
    (goes : h.pair? v = some (car, cdr)) : Kept d h .datum car ∧ Kept d h .datum cdr := by
  have found := Heap.pair?_eq_some_iff.1 goes
  have parts := a.pair_used kept.fills found
  rcases kept with ⟨tethered, fills⟩
  cases fills with
  | nil => cases found
  | environment use =>
      rcases a.exists_environment_of_use use found with ⟨_, _, same⟩
      cases same
  | slot use =>
      refine ⟨⟨.part tethered use found ?_, parts.1.fills⟩, ⟨.part tethered use found ?_,
        parts.2.fills⟩⟩
      · simp [Object.references]
      · simp [Object.references]

/-- The elements and the tail of a list that is kept are kept. -/
theorem Kept.spine {items : List Value} {tail : Value} (kept : Kept d h .datum v)
    (a : Suited d h) (spine : h.Spine v items tail) :
    (∀ u ∈ items, Kept d h .datum u) ∧ Kept d h .datum tail := by
  induction spine with
  | done _ => exact ⟨List.forall_mem_nil _, kept⟩
  | step goes _ ih =>
      have parts := kept.parts a goes
      exact ⟨List.forall_mem_cons.2 ⟨parts.1, (ih parts.2).1⟩, (ih parts.2).2⟩

namespace Retains

theorem refl (d : Layout) (h : Heap) : Retains d h d h :=
  ⟨.refl h, fun _ _ => rfl, fun _ _ _ => rfl⟩

theorem tethered (k : Retains d h d' h') (tethered : Tethered d h v) : Tethered d' h' v := by
  -- Roots stay roots, and data that the roots keep is not changed.
  induction tethered with
  | nil => exact .nil
  | root root => exact .root (k.roots.isRoot root)
  | part before use found member ih =>
      exact .part ih ((k.uses _ before).trans use) ((k.objects _ before use).trans found) member

theorem kept (k : Retains d h d' h') (kept : Kept d h r v) : Kept d' h' r v := by
  refine ⟨k.tethered kept.tethered, kept.fills.congr fun i isSlot => ?_⟩
  subst isSlot
  exact k.uses i kept.tethered

theorem used (k : Retains d h d' h') (kept : Kept d h r v) (w : h'.WellFormed) :
    Used d' h' r v := (k.kept kept).used w

/-- An environment that is kept stays one, whatever it binds. -/
theorem exists_environment {i : Nat} (k : Retains d h d' h') (a' : Suited d' h')
    (tethered : Tethered d h (.slot i)) (use : d i = .frame) :
    ∃ bindings parent, h'.object? (.slot i) = some (.environment bindings parent) := by
  have held := (k.tethered tethered).holds a'.toWellFormed
  rcases Heap.occupied_iff.1 (Heap.holds_slot_iff.1 held) with ⟨o, found⟩
  rcases a'.exists_environment_of_use ((k.uses i tethered).trans use) found with ⟨_, _, rfl⟩
  exact ⟨_, _, found⟩

/-- A list that is kept stays as it is. -/
theorem spine {items : List Value} {tail : Value} (k : Retains d h d' h') (a : Suited d h)
    (a' : Suited d' h') (kept : Kept d h .datum v) (spine : h.Spine v items tail) :
    h'.Spine v items tail := by
  have same {v : Value} (kept : Kept d h .datum v) : h'.pair? v = h.pair? v := by
    rcases kept with ⟨tethered, _ | use | use⟩
    · rfl
    · unfold Heap.pair?
      rw [k.objects _ tethered use]
    · rcases k.exists_environment a' tethered use with ⟨_, _, found⟩
      rcases (refl d h).exists_environment a tethered use with ⟨_, _, before⟩
      rw [Heap.pair?_of_atom found nofun, Heap.pair?_of_atom before nofun]
  induction spine with
  | done ends => exact .done ((same kept).trans ends)
  | step goes _ ih => exact .step ((same kept).trans goes) (ih (kept.parts a goes).2)

theorem trans (k : Retains d h d' h') (k' : Retains d' h' d'' h'') : Retains d h d'' h'' := by
  constructor
  · exact k.roots.trans k'.roots
  · exact fun i tethered => (k'.uses i (k.tethered tethered)).trans (k.uses i tethered)
  · intro i tethered use
    have later := k'.objects i (k.tethered tethered) ((k.uses i tethered).trans use)
    exact later.trans (k.objects i tethered use)

theorem addRoot (d : Layout) (h : Heap) (u : Value) : Retains d h d (h.addRoot u) :=
  ⟨.addRoot h u, fun _ _ => rfl, fun _ _ _ => Heap.object?_addRoot h u _⟩

theorem truncateRoots (k : Retains d h d' h') :
    Retains d h d' (h'.truncateRoots h.roots.length) :=
  ⟨k.roots.truncateRoots, k.uses, k.objects⟩

end Retains

end Tether

/-! ## Operations that keep a heap orderly -/

variable {ε α β : Type}

/-- How an operation that started at `h` may end. -/
inductive Upkept (d : Layout) (h : Heap) (Q : Layout → Heap → α → Prop) :
    EStateM.Result ε Heap α → Prop where
  | ok {d' : Layout} {h' : Heap} {a : α} :
      Orderly d' h' → Retains d h d' h' → Q d' h' a → Upkept d h Q (.ok a h')
  | error {d' : Layout} {h' : Heap} {e : ε} :
      Orderly d' h' → Retains d h d' h' → Upkept d h Q (.error e h')

/-- Whatever an operation ends with, the heap is orderly; and if it succeeds, `Q` holds. -/
def Maintains (d : Layout) (h : Heap) (op : HeapM ε α) (Q : Layout → Heap → α → Prop) : Prop :=
  Upkept d h Q (op h)

namespace Maintains

variable {d : Layout} {h : Heap} {op : HeapM ε α} {next : α → HeapM ε β}
  {Q : Layout → Heap → α → Prop} {R : Layout → Heap → β → Prop}

theorem pure (a : Orderly d h) {x : α} (q : Q d h x) :
    Maintains d h (Pure.pure x : HeapM ε α) Q := Upkept.ok a (.refl d h) q

theorem throw (a : Orderly d h) (e : ε) : Maintains d h (throw e : HeapM ε α) Q :=
  Upkept.error a (.refl d h)

theorem get_bind {f : Heap → HeapM ε β} (m : Maintains d h (f h) R) :
    Maintains d h (get >>= f) R := m

theorem bind (m : Maintains d h op Q)
    (continues : ∀ d₁ h₁ x, Orderly d₁ h₁ → Retains d h d₁ h₁ → Q d₁ h₁ x →
      Maintains d₁ h₁ (next x) R) : Maintains d h (op >>= next) R := by
  unfold Maintains at m ⊢
  simp only [Bind.bind, EStateM.bind]
  generalize op h = result at m ⊢
  cases m with
  | error a retains => exact .error a retains
  | ok a retains q =>
      have rest := continues _ _ _ a retains q
      simp only [Maintains] at rest ⊢
      -- What is retained on the way is retained over all.
      generalize next _ _ = result at rest ⊢
      cases rest with
      | error a' retains' => exact .error a' (retains.trans retains')
      | ok a' retains' q' => exact .ok a' (retains.trans retains') q'

theorem mono {Q' : Layout → Heap → α → Prop} (m : Maintains d h op Q)
    (weaker : ∀ d₁ h₁ x, Q d₁ h₁ x → Q' d₁ h₁ x) : Maintains d h op Q' := by
  unfold Maintains at m ⊢
  generalize op h = result at m ⊢
  cases m with
  | error a retains => exact .error a retains
  | ok a retains q => exact .ok a retains (weaker _ _ _ q)

theorem map (m : Maintains d h op Q) {f : α → β}
    (gives : ∀ d₁ h₁ x, Q d₁ h₁ x → R d₁ h₁ (f x)) : Maintains d h (f <$> op) R := by
  rw [map_eq_pure_bind]
  exact m.bind fun d₁ h₁ x a _ q => .pure a (gives d₁ h₁ x q)

theorem scope (m : Maintains d h op Q)
    (stable : ∀ d₁ h₁ x height, Q d₁ h₁ x → Q d₁ (h₁.truncateRoots height) x) :
    Maintains d h (HeapM.scope op) Q := by
  unfold Maintains at m ⊢
  unfold HeapM.scope
  generalize op h = result at m ⊢
  cases m with
  | error a retains => exact .error (a.truncateRoots _) retains.truncateRoots
  | ok a retains q => exact .ok (a.truncateRoots _) retains.truncateRoots (stable _ _ _ _ q)

/-- Rooting changes neither the layout nor any object. -/
theorem root_bind {v : Value} {r : Role} {next : Unit → HeapM ε β} (a : Orderly d h)
    (used : Used d h r v) (isOpen : r = .datum ∨ r = .frame)
    (continues : Orderly d (h.addRoot v) → Kept d (h.addRoot v) r v →
      Maintains d (h.addRoot v) (next ()) R) :
    Maintains d h (HeapM.root v >>= next) R := by
  have rooted : Orderly d (h.addRoot v) := by
    refine a.addRoot ?_
    rcases isOpen with rfl | rfl
    · exact .inl used
    · exact .inr used
  have rest := continues rooted ⟨tethered_addRoot d h v, used.fills⟩
  show Upkept d h R (next () (h.addRoot v))
  unfold Maintains at rest
  generalize next () _ = result at rest ⊢
  cases rest with
  | error a' retains => exact .error a' ((Retains.addRoot d h v).trans retains)
  | ok a' retains q => exact .ok a' ((Retains.addRoot d h v).trans retains) q

end Maintains

/-! ## Operations that come to an end -/

/-- The unbounded operation ends as the bounded one does, which keeps the heap orderly. -/
structure Completes (d : Layout) (h : Heap) (op' : UnboundedM α) (op : HeapM Fatal α)
    (Q : Layout → Heap → α → Prop) : Prop where
  ends : op'.run h = some (outcome (op h))
  maintains : Maintains d h op Q

namespace Completes

variable {d : Layout} {h : Heap} {op' : UnboundedM α} {op : HeapM Fatal α}
  {next' : α → UnboundedM β} {next : α → HeapM Fatal β} {Q : Layout → Heap → α → Prop}
  {R : Layout → Heap → β → Prop}

theorem lift (m : Maintains d h op Q) : Completes d h (lift op) op Q := ⟨rfl, m⟩

theorem pure (a : Orderly d h) {x : α} (q : Q d h x) :
    Completes d h (Pure.pure x) (Pure.pure x) Q := ⟨rfl, .pure a q⟩

theorem throw (a : Orderly d h) (e : Fatal) :
    Completes d h (MonadExcept.throw e) (MonadExcept.throw e) Q := ⟨rfl, .throw a e⟩

/-- A change that leaves the same heap, however it is put. -/
theorem modify {f' f : Heap → Heap} {d' : Layout} {Q : Layout → Heap → Unit → Prop}
    (same : f h = f' h) (a : Orderly d' (f' h)) (retains : Retains d h d' (f' h))
    (q : Q d' (f' h) ()) :
    Completes d h (Unbounded.lift (modify f')) (modify f) Q := by
  refine ⟨?_, ?_⟩
  · show some (Except.ok (), f' h) = some (Except.ok (), f h)
    rw [same]
  · show Upkept d h Q (.ok () (f h))
    rw [same]
    exact .ok a retains q

theorem get_bind {f' : Heap → UnboundedM β} {f : Heap → HeapM Fatal β}
    (c : Completes d h (f' h) (f h) R) : Completes d h (getThe Heap >>= f') (get >>= f) R :=
  ⟨c.ends, c.maintains⟩

/-- Only the unbounded operation looks at the heap. -/
theorem look_bind {f' : Heap → UnboundedM β} {op : HeapM Fatal β}
    (c : Completes d h (f' h) op R) : Completes d h (getThe Heap >>= f') op R :=
  ⟨c.ends, c.maintains⟩

/-- The walk has ended, and the rest goes on with what it has found. -/
theorem await_bind {walk : Option α} {x : α} {op : HeapM Fatal β} (ended : walk = some x)
    (c : Completes d h (next' x) op R) : Completes d h (await walk >>= next') op R := by
  subst ended
  exact ⟨c.ends, c.maintains⟩

theorem bind (c : Completes d h op' op Q)
    (continues : ∀ d₁ h₁ x, Orderly d₁ h₁ → Retains d h d₁ h₁ → Q d₁ h₁ x →
      Completes d₁ h₁ (next' x) (next x) R) :
    Completes d h (op' >>= next') (op >>= next) R := by
  refine ⟨?_, c.maintains.bind fun d₁ h₁ x a retains q =>
    (continues d₁ h₁ x a retains q).maintains⟩
  have start : (op' >>= next').run h = (op'.run h).bind fun
      | (.ok x, h₁) => (next' x).run h₁
      | (.error e, h₁) => some (.error e, h₁) := by
    show ((op'.run h).bind _) = _
    congr 1
    funext ⟨x, h₁⟩
    cases x <;> rfl
  have upkept : Upkept d h Q (op h) := c.maintains
  rw [start, c.ends]
  simp only [Bind.bind, EStateM.bind]
  generalize op h = result at upkept ⊢
  cases upkept with
  | error _ _ => rfl
  | ok a retains q => exact (continues _ _ _ a retains q).ends

theorem mono {Q' : Layout → Heap → α → Prop} (c : Completes d h op' op Q)
    (weaker : ∀ d₁ h₁ x, Q d₁ h₁ x → Q' d₁ h₁ x) : Completes d h op' op Q' :=
  ⟨c.ends, c.maintains.mono weaker⟩

theorem ite {c : Prop} [Decidable c] {yes' no' : UnboundedM α} {yes no : HeapM Fatal α}
    (ifTrue : c → Completes d h yes' yes Q) (ifFalse : ¬ c → Completes d h no' no Q) :
    Completes d h (if c then yes' else no') (if c then yes else no) Q := by
  by_cases holds : c
  · rw [if_pos holds, if_pos holds]
    exact ifTrue holds
  · rw [if_neg holds, if_neg holds]
    exact ifFalse holds

theorem scope (c : Completes d h op' op Q)
    (stable : ∀ d₁ h₁ x height, Q d₁ h₁ x → Q d₁ (h₁.truncateRoots height) x) :
    Completes d h (Unbounded.scope op') (HeapM.scope op) Q := by
  refine ⟨?_, c.maintains.scope stable⟩
  show (op'.run h).map _ = some (outcome (HeapM.scope op h))
  rw [c.ends]
  unfold HeapM.scope
  cases op h <;> rfl

theorem root_bind {v : Value} {r : Role} {next' : Unit → UnboundedM β}
    {next : Unit → HeapM Fatal β} (a : Orderly d h) (used : Used d h r v)
    (isOpen : r = .datum ∨ r = .frame)
    (continues : Orderly d (h.addRoot v) → Kept d (h.addRoot v) r v →
      Completes d (h.addRoot v) (next' ()) (next ()) R) :
    Completes d h (Unbounded.lift (HeapM.root v) >>= next') (HeapM.root v >>= next) R := by
  have rooted : Orderly d (h.addRoot v) := by
    refine a.addRoot ?_
    rcases isOpen with rfl | rfl
    · exact .inl used
    · exact .inr used
  have rest := continues rooted ⟨tethered_addRoot d h v, used.fills⟩
  exact ⟨rest.ends, .root_bind a used isOpen fun rooted kept => (continues rooted kept).maintains⟩

end Completes

end Termination

end Lisplet
