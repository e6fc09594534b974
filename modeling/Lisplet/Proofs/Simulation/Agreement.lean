import Lisplet.Proofs.Simulation.Survival
import Lisplet.ReadError

/-!
# Agreement — operations that do the same on corresponding heaps

`Agrees ρ h h' op op' Q` compares an operation on the heap with less capacity to one on the heap
with more. If the first runs out of memory, nothing is said of the second; otherwise both fail in
the same way, or both succeed with heaps and results that correspond again. The pairing may
change, since a collection takes slots out of it: what stays paired is what the roots keep
through data, since data never changes (`Tethered`, `Retains`). The rules follow the way
operations are put together.
-/

namespace Lisplet

namespace Simulation

/-! ## What stays paired -/

/-- A value that the roots keep by itself or as part of data. -/
inductive Tethered (ρ : Pairing) (h : Heap) : Value → Prop where
  | nil : Tethered ρ h .nil
  | root {v : Value} : h.IsRoot v → Tethered ρ h v
  | part {i j : Nat} {o : Object} {v : Value} :
      Tethered ρ h (.slot i) → ρ .datum i j → h.object? (.slot i) = some o → v ∈ o.references →
        Tethered ρ h v

/-- A value with its twin that no collection takes away. -/
structure Kept (ρ : Pairing) (h : Heap) (r : Role) (v v' : Value) : Prop where
  tethered : Tethered ρ h v
  twins : Twins ρ r v v'

/-- `σ` and `h₁` are a later pairing and a later heap at which all that was tethered still is. -/
structure Retains (ρ : Pairing) (h : Heap) (σ : Pairing) (h₁ : Heap) : Prop where
  roots : h.KeepsRoots h₁
  pairs : ∀ r i j, Tethered ρ h (.slot i) → ρ r i j → σ r i j
  objects : ∀ i j, Tethered ρ h (.slot i) → ρ .datum i j →
    h₁.object? (.slot i) = h.object? (.slot i)

section Tether

variable {ρ σ τ : Pairing} {h h' h₁ h₂ : Heap} {r : Role} {u v v' w : Value}

theorem Tethered.reachable (w : h.WellFormed) {i : Nat} (tethered : Tethered ρ h (.slot i)) :
    h.Reachable i := by
  generalize same : Value.slot i = v at tethered
  -- Induction on how the value is tethered, for whatever slot it is in.
  induction tethered generalizing i with
  | nil => cases same
  | root root =>
      subst same
      exact w.reachable_of_root root
  | part _ _ found member ih =>
      subst same
      exact w.reachable_of_reference (ih rfl) found member

@[simp]
theorem pair?_addRoot (h : Heap) (u v : Value) : (h.addRoot u).pair? v = h.pair? v := by
  simp only [Heap.pair?, Heap.object?_addRoot]

theorem Tethered.addRoot (tethered : Tethered ρ h v) (u : Value) :
    Tethered ρ (h.addRoot u) v := by
  have roots := Heap.KeepsRoots.addRoot h u
  induction tethered with
  | nil => exact .nil
  | root root => exact .root (roots.isRoot root)
  | part _ paired found member ih =>
      exact .part ih paired ((Heap.object?_addRoot h u _).trans found) member

theorem tethered_addRoot (ρ : Pairing) (h : Heap) (v : Value) : Tethered ρ (h.addRoot v) v := by
  cases v with
  | nil => exact .nil
  | slot i => exact .root (.stack List.mem_cons_self)

theorem Kept.addRoot (kept : Kept ρ h r v v') (u : Value) : Kept ρ (h.addRoot u) r v v' :=
  ⟨kept.tethered.addRoot u, kept.twins⟩

theorem Kept.nil (ρ : Pairing) (h : Heap) (r : Role) : Kept ρ h r .nil .nil := ⟨.nil, trivial⟩

namespace Retains

theorem tethered (k : Retains ρ h σ h₁) (tethered : Tethered ρ h v) : Tethered σ h₁ v := by
  -- Roots stay roots, and data that the roots keep is not changed.
  induction tethered with
  | nil => exact .nil
  | root root => exact .root (k.roots.isRoot root)
  | part before paired found member ih =>
      refine .part ih (k.pairs _ _ _ before paired) ?_ member
      exact (k.objects _ _ before paired).trans found

theorem twins (k : Retains ρ h σ h₁) (tethered : Tethered ρ h v) (twins : Twins ρ r v v') :
    Twins σ r v v' := by
  refine twins.mono fun i same j paired => ?_
  subst same
  exact k.pairs r i j tethered paired

theorem kept (k : Retains ρ h σ h₁) (kept : Kept ρ h r v v') : Kept σ h₁ r v v' :=
  ⟨k.tethered kept.tethered, k.twins kept.tethered kept.twins⟩

theorem refl (ρ : Pairing) (h : Heap) : Retains ρ h ρ h :=
  ⟨.refl h, fun _ _ _ _ paired => paired, fun _ _ _ _ => rfl⟩

theorem trans (k : Retains ρ h σ h₁) (k' : Retains σ h₁ τ h₂) : Retains ρ h τ h₂ := by
  constructor
  · exact k.roots.trans k'.roots
  · intro r i j tethered paired
    exact k'.pairs r i j (k.tethered tethered) (k.pairs r i j tethered paired)
  · intro i j tethered paired
    have later := k'.objects i j (k.tethered tethered) (k.pairs _ i j tethered paired)
    exact later.trans (k.objects i j tethered paired)

theorem addRoot (ρ : Pairing) (h : Heap) (u : Value) : Retains ρ h ρ (h.addRoot u) :=
  ⟨.addRoot h u, fun _ _ _ _ paired => paired, fun _ _ _ _ => Heap.object?_addRoot h u _⟩

theorem truncateRoots (k : Retains ρ h σ h₁) :
    Retains ρ h σ (h₁.truncateRoots h.roots.length) :=
  ⟨k.roots.truncateRoots, k.pairs, k.objects⟩

end Retains

end Tether

/-! ## Changing the roots of both heaps -/

section Rooting

variable {ρ : Pairing} {h h' : Heap} {r : Role} {v v' : Value}

theorem Corresponds.holds (c : Corresponds ρ h h') (twins : Twins ρ r v v') : h.Holds v := by
  cases v with
  | nil => exact Heap.holds_nil h
  | slot i =>
      rcases twins.slot with ⟨j, rfl, paired⟩
      rcases c.alike r i j paired with ⟨o, _, found, _, _⟩
      exact Heap.holds_of_object? found

namespace Simulates

theorem addRoot (s : Simulates ρ h h') (twins : Twins ρ r v v') :
    Simulates ρ (h.addRoot v) (h'.addRoot v') := by
  have left := s.left.addRoot (s.holds twins)
  have right := s.right.addRoot (s.flip.holds twins.flip)
  rcases twins.cases with ⟨rfl, rfl⟩ | ⟨i, j, rfl, rfl, paired⟩
  · exact s
  · have roots : List.Forall₂ (fun v v' => ∃ r, Twins ρ r v v')
        (.slot i :: h.roots.values) (.slot j :: h'.roots.values) :=
      .cons ⟨r, paired⟩ s.roots
    exact ⟨⟨s.unique, s.injective, s.alike, s.rootEnv, s.symbols, roots, s.pins⟩, left, right,
      s.capacity_le, s.ranked⟩

theorem height_eq (s : Simulates ρ h h') : h'.roots.length = h.roots.length := by
  rw [← h.roots.length_eq, ← h'.roots.length_eq]
  exact s.roots.length_eq.symm

theorem truncateRoots (s : Simulates ρ h h') (height : Nat) :
    Simulates ρ (h.truncateRoots height) (h'.truncateRoots height) := by
  have roots : List.Forall₂ (fun v v' => ∃ r, Twins ρ r v v')
      (h.truncateRoots height).roots.values (h'.truncateRoots height).roots.values := by
    show List.Forall₂ _ (h.roots.values.drop (h.roots.length - height))
      (h'.roots.values.drop (h'.roots.length - height))
    rw [s.height_eq]
    exact List.forall₂_drop _ s.roots
  exact ⟨⟨s.unique, s.injective, s.alike, s.rootEnv, s.symbols, roots, s.pins⟩,
    s.left.truncateRoots height, s.right.truncateRoots height, s.capacity_le, s.ranked⟩

end Simulates

end Rooting

/-! ## Agreement -/

/-- Failures among which some say that there was no memory left. -/
class Exhaustible (ε : Type) where
  Exhausted : ε → Prop

instance : Exhaustible Fatal := ⟨fun e => ∃ live capacity, e = .outOfMemory live capacity⟩

instance : Exhaustible ReadError :=
  ⟨fun e => ∃ live capacity, e.fatal? = some (.outOfMemory live capacity)⟩

variable {ε α α' β β' : Type} [Exhaustible ε]

/-- How two operations that started at `h` and at a heap corresponding to it may end. -/
inductive Agree (ρ : Pairing) (h : Heap) (Q : Pairing → Heap → α → α' → Prop) :
    EStateM.Result ε Heap α → EStateM.Result ε Heap α' → Prop where
  | exhausted {e : ε} {h₁ : Heap} {result : EStateM.Result ε Heap α'} :
      Exhaustible.Exhausted e → Agree ρ h Q (.error e h₁) result
  | fails {e : ε} {h₁ h₁' : Heap} : Agree ρ h Q (.error e h₁) (.error e h₁')
  | ends {σ : Pairing} {a : α} {a' : α'} {h₁ h₁' : Heap} :
      Simulates σ h₁ h₁' → Retains ρ h σ h₁ → Q σ h₁ a a' →
        Agree ρ h Q (.ok a h₁) (.ok a' h₁')

/-- Unless the first operation runs out of memory, the second does the same as it. -/
def Agrees (ρ : Pairing) (h h' : Heap) (op : HeapM ε α) (op' : HeapM ε α')
    (Q : Pairing → Heap → α → α' → Prop) : Prop :=
  Agree ρ h Q (op h) (op' h')

namespace Agrees

variable {ρ : Pairing} {h h' : Heap} {op : HeapM ε α} {op' : HeapM ε α'}
  {next : α → HeapM ε β} {next' : α' → HeapM ε β'} {Q : Pairing → Heap → α → α' → Prop}
  {R : Pairing → Heap → β → β' → Prop}

theorem pure (s : Simulates ρ h h') {a : α} {a' : α'} (q : Q ρ h a a') :
    Agrees ρ h h' (Pure.pure a : HeapM ε α) (Pure.pure a') Q :=
  Agree.ends s (.refl ρ h) q

theorem throw (e : ε) : Agrees ρ h h' (throw e : HeapM ε α) (throw e) Q := Agree.fails

theorem get_bind {f : Heap → HeapM ε β} {f' : Heap → HeapM ε β'}
    (k : Agrees ρ h h' (f h) (f' h') R) : Agrees ρ h h' (get >>= f) (get >>= f') R := k

theorem bind (k : Agrees ρ h h' op op' Q)
    (continues : ∀ σ h₁ h₁' a a', Simulates σ h₁ h₁' → Retains ρ h σ h₁ → Q σ h₁ a a' →
      Agrees σ h₁ h₁' (next a) (next' a') R) :
    Agrees ρ h h' (op >>= next) (op' >>= next') R := by
  unfold Agrees at k ⊢
  simp only [Bind.bind, EStateM.bind]
  generalize op h = result at k ⊢
  generalize op' h' = result' at k ⊢
  cases k with
  | exhausted none => exact .exhausted none
  | fails => exact .fails
  | ends s retains q =>
      have rest := continues _ _ _ _ _ s retains q
      simp only [Agrees] at rest ⊢
      -- What is retained on the way is retained over all.
      generalize next _ _ = result at rest ⊢
      generalize next' _ _ = result' at rest ⊢
      cases rest with
      | exhausted none => exact .exhausted none
      | fails => exact .fails
      | ends s' retains' q' => exact .ends s' (retains.trans retains') q'

theorem mono {Q' : Pairing → Heap → α → α' → Prop} (k : Agrees ρ h h' op op' Q)
    (weaker : ∀ σ h₁ a a', Q σ h₁ a a' → Q' σ h₁ a a') : Agrees ρ h h' op op' Q' := by
  rw [← bind_pure op, ← bind_pure op']
  exact k.bind fun σ h₁ _ a a' s _ q => .pure s (weaker σ h₁ a a' q)

theorem map (k : Agrees ρ h h' op op' Q) {f : α → β} {f' : α' → β'}
    (gives : ∀ σ h₁ a a', Q σ h₁ a a' → R σ h₁ (f a) (f' a')) :
    Agrees ρ h h' (f <$> op) (f' <$> op') R := by
  rw [map_eq_pure_bind, map_eq_pure_bind]
  exact k.bind fun σ h₁ _ a a' s _ q => .pure s (gives σ h₁ a a' q)

theorem root_bind {v v' : Value} {r : Role} {next next' : Unit → HeapM ε β}
    {Q : Pairing → Heap → β → β → Prop} (s : Simulates ρ h h') (twins : Twins ρ r v v')
    (continues : Simulates ρ (h.addRoot v) (h'.addRoot v') → Kept ρ (h.addRoot v) r v v' →
      Agrees ρ (h.addRoot v) (h'.addRoot v') (next ()) (next' ()) Q) :
    Agrees ρ h h' (HeapM.root v >>= next) (HeapM.root v' >>= next') Q := by
  have rooted := s.addRoot twins
  have rest := continues rooted ⟨tethered_addRoot ρ h v, twins⟩
  -- Rooting changes neither the pairing nor any object, unlike other operations before `bind`.
  show Agree ρ h Q (next () (h.addRoot v)) (next' () (h'.addRoot v'))
  unfold Agrees at rest
  generalize next () _ = result at rest ⊢
  generalize next' () _ = result' at rest ⊢
  cases rest with
  | exhausted none => exact .exhausted none
  | fails => exact .fails
  | ends s' retains q => exact .ends s' ((Retains.addRoot ρ h v).trans retains) q

/-- Both scopes drop the roots above the same height. -/
theorem scope (s : Simulates ρ h h') (k : Agrees ρ h h' op op' Q)
    (stable : ∀ σ h₁ a a' height, Q σ h₁ a a' → Q σ (h₁.truncateRoots height) a a') :
    Agrees ρ h h' (HeapM.scope op) (HeapM.scope op') Q := by
  unfold Agrees at k ⊢
  unfold HeapM.scope
  rw [s.height_eq]
  generalize op h = result at k ⊢
  generalize op' h' = result' at k ⊢
  cases k with
  | exhausted none => exact .exhausted none
  | fails => exact .fails
  | ends s' retains q =>
      exact .ends (s'.truncateRoots _) retains.truncateRoots (stable _ _ _ _ _ q)

end Agrees

end Simulation

end Lisplet
