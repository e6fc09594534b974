import Lisplet.Proofs.Heap.Trail
import Lisplet.Proofs.Saving

/-!
# Retention — what is left of what can be reached

A collection leaves everything alone that can be reached from a value with a pin (`Secures`). An
operation may collect several times, but what it changes it changes after that: it gives one pair
another part or one environment other bindings. So whatever could be reached when it began is still
there when it ends, and no more than one object is different (`Retains`). For the calls of
primitives this is shown here; none of them changes anything before all that may fail is done
(`Amends`).
-/

namespace Lisplet

open Heap.Operation (heapAfter)

namespace Heap

/-! ## What is retained -/

/-- A collection leaves all alone that can be reached from `v`. -/
def Secures (h : Heap) (v : Value) : Prop :=
  ∀ i, h.ReachableFrom (· = v) i → h.collect.1.object? (.slot i) = h.object? (.slot i)

/--
Every object that can be reached in `h` from the values in `start` is in `h'` in the same slot and
with the same parts; only that of `altered`, if any, may have other ones.
-/
def Retains (h : Heap) (altered : Option Value) (start : Value → Prop) (h' : Heap) : Prop :=
  ∀ i o, h.ReachableFrom start i → h.object? (.slot i) = some o →
    h'.object? (.slot i) = some o ∨
      altered = some (.slot i) ∧ ∃ o', Updates o o' ∧ h'.object? (.slot i) = some o'

section Retaining

variable {base h h' : Heap} {altered : Option Value} {start start' : Value → Prop} {v : Value}
  {i : Nat} {o : Object}

theorem IsRoot.secures (root : h.IsRoot v) (clear : h.MarksClear) : h.Secures v := by
  refine fun i reached => object?_collect_of_reachable clear (reached.mono ?_)
  rintro _ rfl
  exact root

namespace Retains

theorem mono (r : h.Retains altered start h') (fewer : ∀ v, start' v → start v) :
    h.Retains altered start' h' := fun i o reached => r i o (reached.mono fewer)

theorem ofSame (same : ∀ v, h'.object? v = h.object? v) : h.Retains altered start h' :=
  fun _ _ _ found => .inl ((same _).trans found)

theorem congr {h'' : Heap} (r : h.Retains altered start h')
    (same : ∀ v, h''.object? v = h'.object? v) : h.Retains altered start h'' := by
  intro i o reached found
  refine (r i o reached found).imp (same _).trans fun ⟨isAltered, o', updates, found'⟩ => ?_
  exact ⟨isAltered, o', updates, (same _).trans found'⟩

end Retains

theorem Saved.retains (s : base.Saved h) (altered : Option Value) :
    base.Retains altered base.IsRoot h :=
  fun i _ reached found => .inl ((s.kept i reached).trans found)

/-- Once all else is done, one object may be given other parts. -/
theorem Saved.retains_put (s : base.Saved h) {old : Object}
    (found : h.object? (.slot i) = some old) (updates : Updates old o) :
    base.Retains (some (.slot i)) base.IsRoot (h.put i o) := by
  intro j o' reached before
  have there := (s.kept j reached).trans before
  by_cases same : j = i
  · -- The object that goes is still the one that `base` had there.
    subst same
    cases found.symm.trans there
    exact .inr ⟨rfl, o, updates, object?_put_self (occupied_of_object? found)⟩
  · exact .inl ((object?_put_ne fun eq => same (Value.slot.inj eq)).trans there)

theorem Saved.retains_setCar (s : base.Saved h) (pair value : Value) :
    base.Retains (some pair) base.IsRoot (h.setCar pair value) := by
  unfold Heap.setCar
  split
  · next i car cdr found => exact s.retains_put found (.pair car cdr value cdr)
  · exact s.retains _

theorem Saved.retains_setCdr (s : base.Saved h) (pair value : Value) :
    base.Retains (some pair) base.IsRoot (h.setCdr pair value) := by
  rcases setCdr_cases h pair value with ⟨i, car, cdr, rfl, found, step⟩ | ⟨_, step⟩
  · rw [step]
    exact s.retains_put found (.pair car cdr car value)
  · rw [step]
    exact s.retains _

theorem Saved.retains_setBindings (s : base.Saved h) (env : Env) (value : Value) :
    base.Retains (some env.value) base.IsRoot (h.setBindings env value) := by
  rcases setBindings_cases h env value with ⟨i, bindings, parent, name, found, step⟩ | ⟨_, step⟩
  · rw [step, name]
    exact s.retains_put found (.environment bindings value parent)
  · rw [step]
    exact s.retains _

/-- Every change of a heap alters one object at most. -/
theorem Change.retains (c : h.Change h') (tidy : h.Tidy) :
    ∃ altered, ∀ start, h.Retains altered start h' := by
  have inserted (o : Object) (start : Value → Prop) : h.Retains none start (h.insert o).2 := by
    obtain ⟨j, -, places⟩ := tidy.places_insert o
    exact fun i o reached found => .inl ((places.object?_old reached.occupied).trans found)
  cases c with
  | insert _ => exact ⟨none, inserted _⟩
  | intern _ => exact ⟨none, fun start => (inserted _ start).congr fun _ => rfl⟩
  | @update j old o there updates =>
      refine ⟨some (.slot j), fun start i o' _ found => ?_⟩
      by_cases same : i = j
      · subst same
        cases there.symm.trans found
        exact .inr ⟨rfl, o, updates, object?_put_self (occupied_of_object? there)⟩
      · exact .inl ((object?_put_ne fun eq => same (Value.slot.inj eq)).trans found)
  | reroot => exact ⟨none, fun start => .ofSame fun _ => rfl⟩

end Retaining

/-! ## One change at the end -/

/--
If all that `base` can reach was still as it was in `h`, then in `h'` no more than one object of it
has other parts.
-/
def Amends (base h h' : Heap) : Prop :=
  base.Saved h → ∃ altered, base.Retains altered base.IsRoot h'

section Amending

variable {base h h' h'' : Heap}

theorem Saves.amends (s : base.Saves h h') : base.Amends h h' :=
  fun before => ⟨none, (s.saved before).retains none⟩

theorem Saves.trans_amends (s : base.Saves h h') (a : base.Amends h' h'') : base.Amends h h'' :=
  fun before => a (s.saved before)

theorem Amends.congr (a : base.Amends h h') (same : ∀ v, h''.object? v = h'.object? v) :
    base.Amends h h'' := fun before => by
  obtain ⟨altered, retains⟩ := a before
  exact ⟨altered, retains.congr same⟩

end Amending

end Heap

open Heap

namespace HeapM

variable {ε α β : Type} {base h : Heap} {who : String} {value args : Value}

section Steps

variable {op : HeapM ε α} {next : α → HeapM ε β}

/-- Only what comes last may change what was there before. -/
theorem amends_bind (first : Obeys base.Saves h op)
    (rest : ∀ a h', op h = .ok a h' → Obeys base.Amends h' (next a)) :
    Obeys base.Amends h (op >>= next) := by
  unfold Obeys heapAfter at first
  show base.Amends h (heapAfter (op >>= next) h)
  unfold heapAfter
  simp only [Bind.bind, EStateM.bind]
  cases step : op h with
  | ok a h' =>
      rw [step] at first
      exact first.trans_amends (rest a h' step)
  | error e h' =>
      rw [step] at first
      exact first.amends

theorem amends_scope (obeys : Obeys base.Amends h op) : Obeys base.Amends h (scope op) := by
  unfold Obeys heapAfter at obeys ⊢
  unfold scope
  cases step : op h with
  | ok a h' =>
      rw [step] at obeys
      exact obeys.congr fun _ => rfl
  | error e h' =>
      rw [step] at obeys
      exact obeys.congr fun _ => rfl

end Steps

theorem amends_withThree {body : Value → Value → Value → HeapM Fatal Value}
    (amends : ∀ a b c, Obeys base.Amends h (body a b c)) :
    Obeys base.Amends h (withThree who args body) := by
  refine .get_bind ?_
  split
  · exact amends _ _ _
  · exact ((dataConduct_saves base).obeys_raise h _ _).amends
  · exact ((dataConduct_saves base).obeys_raise h _ _).amends

theorem amends_withSymbol {body : HeapM Fatal Value} (amends : Obeys base.Amends h body) :
    Obeys base.Amends h (withSymbol who value body) :=
  .get_bind <| .ite (fun _ => amends) fun _ =>
    ((dataConduct_saves base).obeys_wrongKind h _ _ _).amends

theorem amends_withEnv {body : Env → HeapM Fatal Value}
    (amends : ∀ env, Obeys base.Amends h (body env)) :
    Obeys base.Amends h (withEnv who value body) := by
  refine .get_bind ?_
  split
  · exact amends _
  · exact ((dataConduct_saves base).obeys_wrongKind h _ _ _).amends

/-- An assignment changes a binding, or it makes an error value. -/
theorem amends_assign (h : Heap) (env : Env) (symbol value : Value) :
    Obeys base.Amends h (env.set symbol value >>= valueOr fun _ => value) := by
  rcases env.set_cases symbol value h with ⟨binding, _, step⟩ | ⟨_, step⟩
  · have left : heapAfter (env.set symbol value >>= valueOr fun _ => value) h =
        h.setCdr binding value := by
      unfold heapAfter
      simp only [Bind.bind, EStateM.bind, step]
      rfl
    exact fun before => ⟨_, left ▸ before.retains_setCdr binding value⟩
  · have left : heapAfter (env.set symbol value >>= valueOr fun _ => value) h =
        heapAfter (Env.unbound h symbol).toValue h := by
      unfold heapAfter
      simp only [Bind.bind, EStateM.bind, step]
      rfl
    have raises := (dataConduct_saves base).obeys_raise h (Env.unbound h symbol).kind
      (Env.unbound h symbol).message
    exact (left ▸ raises : base.Saves h _).amends

/-- A definition changes the bindings last, once both of its pairs are made. -/
theorem amends_define (h : Heap) (env : Env) (symbol value : Value) :
    Obeys base.Amends h (env.define symbol value) := by
  have c := dataConduct_saves base
  refine amends_scope (amends_bind (Saves.addRoot h env.value) fun _ h₀ _ => ?_)
  refine amends_bind (c.obeys_cons h₀ symbol value) fun binding h₁ _ => ?_
  refine .get_bind (amends_bind (c.obeys_cons h₁ binding _) fun bindings h₂ _ => ?_)
  exact fun before => ⟨_, before.retains_setBindings env bindings⟩

/-- A primitive changes one pair or one environment at most. -/
theorem amends_call (h : Heap) (p : Primitive) (args : Value) :
    Obeys base.Amends h (p.call args) := by
  have c := dataConduct_saves base
  cases p with
  | setVariable =>
      exact amends_withThree fun symbol value env => amends_withSymbol <| amends_withEnv fun env =>
        amends_assign h env symbol value
  | defineVariable =>
      refine amends_withThree fun symbol value env => ?_
      refine amends_withSymbol (amends_withEnv fun env => ?_)
      rw [bind_pure_comp]
      exact .map (amends_define h env symbol value) _
  | extendEnvironment =>
      refine amends_withThree fun params values env => amends_withEnv fun env => ?_
      have saves : Obeys base.Saves h (env.extend params values >>= valueOr Env.value) :=
        .bind c.along (saves_extend h env params values) fun _ h' _ => c.obeys_valueOr h' _ _
      exact Saves.amends saves
  | _ => exact (c.obeys_call_data h rfl args).amends

/-- So does a call for which the list of arguments is made first. -/
theorem amends_call_list (h : Heap) (p : Primitive) (values : List Value) :
    Obeys base.Amends h (scope do
      let args ← list values
      root args
      p.call args) := by
  have c := dataConduct_saves base
  refine amends_scope (amends_bind (c.obeys_list h values) fun args h' _ => ?_)
  exact amends_bind (Saves.addRoot h' args) fun _ h'' _ => amends_call h'' p args

end HeapM

end Lisplet
