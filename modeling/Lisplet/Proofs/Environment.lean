import Lisplet.Proofs.Heap.Evolution

/-!
# Environments — how binding operations are put together

Definitions, extensions and the table of primitives are put together from constructors, and
change nothing in place but the bindings of an environment. An assignment changes one pair.
-/

namespace Lisplet

namespace Heap

variable {h : Heap} {v : Value}

/-- The elements of a list and what it ends in are anchored with the list. -/
theorem Anchored.spineOnto (found : Array Value) (steps : Nat) (anchored : h.Anchored v)
    (before : ∀ u ∈ found, h.Anchored u) :
    (∀ u ∈ (h.spineOnto found steps v).1, h.Anchored u) ∧
      h.Anchored (h.spineOnto found steps v).2 := by
  induction steps generalizing found v with
  | zero => exact ⟨before, anchored⟩
  | succ steps ih =>
      unfold Heap.spineOnto
      split
      · next car cdr pair =>
        have object := pair?_eq_some_iff.1 pair
        refine ih (found.push car) (anchored.cdr object) fun u member => ?_
        rcases Array.mem_push.1 member with old | rfl
        · exact before u old
        · exact anchored.car object
      · exact ⟨before, anchored⟩

theorem Anchored.spine (anchored : h.Anchored v) :
    (∀ u ∈ (h.spine v).1, h.Anchored u) ∧ h.Anchored (h.spine v).2 := by
  have both := anchored.spineOnto #[] h.slots.size fun u member => nomatch member
  refine ⟨fun u member => both.1 u ?_, both.2⟩
  exact Array.mem_toList_iff.1 member

end Heap

namespace Env

open HeapM Heap

variable {h : Heap} {env : Env}

/-! ## Definitions -/

theorem holds_bindings (env : Env) (w : h.WellFormed) : h.Holds (env.bindings h) := by
  unfold bindings
  split
  · next bindings parent found =>
    have object := frame?_eq_some_iff.1 found
    refine w.holds_reference object ?_
    cases parent with
    | none => exact List.mem_cons_self
    | some parent => exact List.mem_cons_self
  · exact holds_nil h

theorem keeps_define {symbol value : Value} (w : h.WellFormed) (heldEnv : h.Holds env.value)
    (heldSymbol : h.Holds symbol) (heldValue : h.Holds value) :
    Keeps (env.define symbol value) h fun _ _ => True := by
  refine .scope (Q := fun _ _ => True) ?_ fun _ _ _ _ => trivial
  refine .bind (keeps_root w heldEnv) fun _ h₁ e₁ rooted => ?_
  have heldSymbol := rooted.2 symbol heldSymbol
  have heldValue := rooted.2 value heldValue
  -- The new binding is held by the second pair, which roots it before it allocates.
  refine .bind (keeps_cons e₁.wellFormed heldSymbol heldValue) fun binding h₂ e₂ isBinding => ?_
  refine .get_bind ?_
  have heldBindings := holds_bindings env e₂.wellFormed
  refine .bind (keeps_cons e₂.wellFormed (holds_of_object? isBinding) heldBindings)
    fun bindings h₃ e₃ isSpine => ?_
  exact .modify (.setBindings e₃.wellFormed env (holds_of_object? isSpine)) trivial

theorem keeps_definePrimitive {p : Primitive} (w : h.WellFormed) (heldEnv : h.Anchored env.value) :
    Keeps (env.definePrimitive p) h fun _ _ => True := by
  refine .bind (keeps_intern w p.name) fun name h₁ e₁ interned => ?_
  refine .bind (keeps_atom (o := .primitive p) e₁.wellFormed rfl fun _ => nofun)
    fun value h₂ e₂ heldValue => ?_
  have heldName : h₂.Holds name := e₂.holds (.root (.symbol interned))
  exact keeps_define e₂.wellFormed ((e₁.trans e₂).holds heldEnv) heldName heldValue

theorem keeps_definePrimitives {primitives : List Primitive} (w : h.WellFormed)
    (heldEnv : h.Holds env.value) :
    Keeps (env.definePrimitives primitives) h fun _ _ => True := by
  -- Induction on the table, with the environment anchored all along.
  have defines : ∀ h : Heap, h.WellFormed → h.Anchored env.value →
      Keeps (primitives.forM env.definePrimitive) h fun _ _ => True := by
    induction primitives with
    | nil => exact fun h w _ => .pure w trivial
    | cons p primitives ih =>
        intro h w anchored
        refine .bind (keeps_definePrimitive w anchored) fun _ h₁ e₁ _ => ?_
        exact ih h₁ e₁.wellFormed (e₁.anchored anchored)
  refine .scope (Q := fun _ _ => True) ?_ fun _ _ _ _ => trivial
  refine .bind (keeps_root w heldEnv) fun _ h₁ e₁ rooted => ?_
  exact defines h₁ e₁.wellFormed rooted.1

/-! ## Extensions -/

/-- Parameters and arguments stay anchored while the first of them are bound. -/
theorem keeps_bindAll {params : List Value} {tail args : Value} (w : h.WellFormed)
    (heldEnv : h.Anchored env.value) (heldParams : ∀ v ∈ params, h.Anchored v)
    (heldTail : h.Anchored tail) (heldArgs : h.Anchored args) :
    Keeps (env.bindAll params tail args) h fun _ _ => True := by
  -- Induction on the parameters; the arguments are taken apart at the same pace.
  induction params generalizing h args with
  | nil =>
      unfold bindAll
      split
      · exact keeps_define w (heldEnv.holds w.toArena) (heldTail.holds w.toArena)
          (heldArgs.holds w.toArena)
      · exact .pure w trivial
  | cons param params ih =>
      refine .get_bind ?_
      split
      · next arg rest pair =>
        have object := pair?_eq_some_iff.1 pair
        have heldParam := heldParams param List.mem_cons_self
        refine .bind (keeps_define w (heldEnv.holds w.toArena) (heldParam.holds w.toArena)
          ((heldArgs.car object).holds w.toArena)) fun _ h₁ e₁ _ => ?_
        refine ih e₁.wellFormed (e₁.anchored heldEnv) (fun v member => ?_) (e₁.anchored heldTail)
          (e₁.anchored (heldArgs.cdr object))
        exact e₁.anchored (heldParams v (List.mem_cons_of_mem _ member))
      · exact .pure w trivial

theorem keeps_extend {params args : Value} (w : h.WellFormed) (heldEnv : h.Holds env.value)
    (heldParams : h.Holds params) (heldArgs : h.Holds args) :
    Keeps (env.extend params args) h fun _ _ => True := by
  refine .get_bind ?_
  split
  · exact .pure w trivial
  · dsimp only
    split
    · exact .pure w trivial
    · refine .scope (Q := fun _ _ => True) ?_ fun _ _ _ _ => trivial
      refine .bind (keeps_root w heldParams) fun _ h₁ e₁ rooted => ?_
      refine .bind (keeps_root e₁.wellFormed (rooted.2 args heldArgs)) fun _ h₂ e₂ rooted' => ?_
      have heldEnv := rooted'.2 env.value (rooted.2 env.value heldEnv)
      refine .bind (keeps_child e₂.wellFormed heldEnv) fun child h₃ e₃ isChild => ?_
      refine .bind (keeps_root e₃.wellFormed (holds_of_object? isChild))
        fun _ h₄ e₄ rootedChild => ?_
      refine .get_bind ?_
      -- The child is rooted last, so parameters and arguments lie below it on the stack.
      have paramsAnchored := (e₂.trans (e₃.trans e₄)).anchored rooted.1
      have argsAnchored := (e₃.trans e₄).anchored rooted'.1
      refine .bind (keeps_bindAll e₄.wellFormed rootedChild.1 paramsAnchored.spine.1
        paramsAnchored.spine.2 argsAnchored) fun _ h₅ e₅ _ => ?_
      exact .pure e₅.wellFormed trivial

/-! ## Assignments -/

/-- An assignment changes the cdr of the nearest binding, and nothing if there is none. -/
theorem set_cases (env : Env) (symbol value : Value) (h : Heap) :
    (∃ binding, env.binding? h symbol = some binding ∧
      env.set symbol value h = .ok (.ok ()) (h.setCdr binding value)) ∨
    (env.binding? h symbol = none ∧
      env.set symbol value h = .ok (.error (unbound h symbol)) h) := by
  unfold set
  rw [get_bind_apply]
  cases env.binding? h symbol with
  | none => exact .inr ⟨rfl, rfl⟩
  | some binding => exact .inl ⟨binding, rfl, rfl⟩

end Env

end Lisplet
