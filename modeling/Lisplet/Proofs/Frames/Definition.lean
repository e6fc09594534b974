import Lisplet.Proofs.Frames.Fresh

/-!
# Definition — how an environment comes to own a new binding

A definition makes a pair that binds the symbol and a pair in front of the older bindings, both of
them data at first, and then lets the environment take them over. What was reachable is left as it
was, but for the environment itself, and the two pairs are in slots that nothing could reach.
-/

namespace Lisplet

open Chart

namespace Heap

variable {c : Chart} {h h' : Heap} {b e s : Nat} {bindings symbol value : Value}
  {parent : Option Env}

/-! ## Taking over -/

/-- The list that starts in front of older bindings has a higher rank than they have. -/
def rankAbove (c : Chart) : Value → Nat
  | .nil => 0
  | .slot k => (c k).rank + 1

/-- Two pairs of data become the newest binding of an environment and its place in the spine. -/
theorem Charted.takeOver (a : h.Charted c) (useB : (c b).station = .data)
    (useS : (c s).station = .data) (different : b ≠ s)
    (foundB : h.object? (.slot b) = some (.pair symbol value))
    (foundS : h.object? (.slot s) = some (.pair (.slot b) bindings))
    (foundE : h.object? (.slot e) = some (.environment bindings parent)) :
    ∃ c', (h.put e (.environment (.slot s) parent)).Charted c' := by
  have others : ∀ {k}, (c k).station ≠ .data → k ≠ b ∧ k ≠ s := fun other =>
    ⟨fun same => other (same ▸ useB), fun same => other (same ▸ useS)⟩
  have lists := (a.frame foundE).2.1
  -- First the pair that binds the symbol, then the one that holds it in the spine.
  have a₁ : h.Charted (Function.update c b ⟨.binding e, 0⟩) :=
    a.relabel useB foundB (.binding (e := e) (by simp))
  have a₂ : h.Charted (Function.update (Function.update c b ⟨.binding e, 0⟩) s
      ⟨.spine e, rankAbove c bindings⟩) := by
    refine a₁.relabel ?_ foundS ?_
    · rwa [Function.update_of_ne different.symm]
    · refine .spine (e := e) (by simp) (by simp [Function.update_of_ne different])
        (occupied_of_object? foundB) (lists.congr fun k _ occupied other => ?_) fun k same => ?_
      · rcases others other with ⟨notB, notS⟩
        exact ⟨by rw [Function.update_of_ne notS, Function.update_of_ne notB], occupied⟩
      · subst same
        cases lists with
        | slot station _ =>
            rcases others (k := k) (by simp [station]) with ⟨notB, notS⟩
            simp [Function.update_of_ne notS, Function.update_of_ne notB, rankAbove]
  refine ⟨_, a₂.put (occupied_of_object? foundE) ?_⟩
  have new : Lists (Function.update (Function.update c b ⟨.binding e, 0⟩) s
      ⟨.spine e, rankAbove c bindings⟩) h e (.slot s) :=
    .slot (by simp) (occupied_of_object? foundS)
  cases a₂.fits e _ foundE with
  | data _ other => exact absurd rfl other
  | outermost station _ => exact .outermost station new
  | inner station _ frame occupied lower => exact .inner station new frame occupied lower

/-- What is a pair when an environment has changed was one before. -/
theorem pair_of_put_environment {o : Object} {v car cdr : Value}
    (foundE : h.object? (.slot e) = some o)
    (found : (h.put e (.environment bindings parent)).object? v = some (.pair car cdr)) :
    h.object? v = some (.pair car cdr) := by
  by_cases same : v = .slot e
  · rw [same, object?_put_self (occupied_of_object? foundE)] at found
    cases found
  · rwa [object?_put_ne same] at found

section TakenOver

variable (foundS : h.object? (.slot s) = some (.pair (.slot b) bindings))
  (foundE : h.object? (.slot e) = some (.environment bindings parent))
include foundS foundE

/-- The pair in front of the older bindings stays where it is. -/
theorem object?_takeOver_spine :
    (h.put e (.environment (.slot s) parent)).object? (.slot s) =
      some (.pair (.slot b) bindings) := by
  refine (object?_put_ne fun same => ?_).trans foundS
  rw [same, foundE] at foundS
  cases foundS

theorem onFrame_takeOver {v : Value}
    (on : (h.put e (.environment (.slot s) parent)).OnFrame v) : v = .slot s ∨ h.OnFrame v := by
  have list := object?_takeOver_spine foundS foundE
  induction on with
  | @bindings env bindings' parent' found =>
      by_cases same : env = .slot e
      · rw [same, object?_put_self (occupied_of_object? foundE)] at found
        cases found
        exact .inl rfl
      · rw [object?_put_ne same] at found
        exact .inr (.bindings found)
  | rest _ found ih =>
      rcases ih with rfl | on
      · cases found.symm.trans list
        exact .inr (.bindings foundE)
      · exact .inr (.rest on (pair_of_put_environment foundE found))

/-- Nothing but the new pair binds a symbol that did not before. -/
theorem isBinding_takeOver {v : Value}
    (binds : (h.put e (.environment (.slot s) parent)).IsBinding v) :
    v = .slot b ∨ h.IsBinding v := by
  have list := object?_takeOver_spine foundS foundE
  rcases binds with ⟨pair, rest, on, found⟩
  rcases onFrame_takeOver foundS foundE on with rfl | on
  · cases found.symm.trans list
    exact .inl rfl
  · exact .inr ⟨pair, rest, on, pair_of_put_environment foundE found⟩

end TakenOver

/-! ## Definitions -/

/-- A definition makes two pairs, the second of which becomes the list of bindings. -/
theorem define_eq (h : Heap) (env : Env) (symbol value : Value) :
    env.define symbol value h =
      match HeapM.cons symbol value (h.addRoot env.value) with
      | .error e h₁ => .error e (h₁.truncateRoots h.roots.length)
      | .ok binding h₁ =>
        match HeapM.cons binding (env.bindings h₁) h₁ with
        | .error e h₂ => .error e (h₂.truncateRoots h.roots.length)
        | .ok list h₂ => .ok () ((h₂.setBindings env list).truncateRoots h.roots.length) := by
  have body : env.define symbol value h = HeapM.scope (fun _ =>
      (HeapM.cons symbol value >>= fun binding h₁ =>
        (HeapM.cons binding (env.bindings h₁) >>= fun list =>
          modify fun h => h.setBindings env list : HeapM Fatal Unit) h₁ : HeapM Fatal Unit)
            (h.addRoot env.value)) h := rfl
  rw [body]
  unfold HeapM.scope
  simp only [Bind.bind, EStateM.bind]
  cases HeapM.cons symbol value (h.addRoot env.value) with
  | error e h₁ => rfl
  | ok binding h₁ =>
      dsimp only
      cases HeapM.cons binding (env.bindings h₁) h₁ with
      | error e h₂ => rfl
      | ok list h₂ => rfl

/-- What every operation leaves: a heap with a chart, the roots, and no other symbols. -/
structure Settles (h h' : Heap) : Prop where
  charted : ∃ c, h'.Charted c
  roots : h.KeepsRoots h'
  named : ∀ i name, h'.object? (.slot i) = some (.symbol name) →
    h.object? (.slot i) = some (.symbol name)

/-- `h'` is `h` with a new binding in front of those of the environment in the slot `e`. -/
structure Defines (h : Heap) (e b s : Nat) (symbol value : Value) (h' : Heap) : Prop where
  frame : ∃ bindings parent, h.object? (.slot e) = some (.environment bindings parent) ∧
    h'.object? (.slot e) = some (.environment (.slot s) parent) ∧
    h'.object? (.slot s) = some (.pair (.slot b) bindings)
  binding : h'.object? (.slot b) = some (.pair symbol value)
  kept : ∀ i, (h.addRoot (.slot e)).Reachable i → i ≠ e →
    h'.object? (.slot i) = h.object? (.slot i)
  fresh : ¬ (h.addRoot (.slot e)).Reachable b ∧ ¬ (h.addRoot (.slot e)).Reachable s
  unbound : ∀ v, h'.IsBinding v → v = .slot b ∨ h.IsBinding v

/--
What a definition comes to: the environment has a new binding; or what it was given is no
environment any more; or it has failed for want of room.
-/
inductive Defining (h : Heap) (env : Env) (symbol value : Value) :
    EStateM.Result Fatal Heap Unit → Prop where
  | done {e b s : Nat} {h' : Heap} : env.value = .slot e → h.Settles h' →
      h.Defines e b s symbol value h' → Defining h env symbol value (.ok () h')
  | lost {new : List Nat} {h' : Heap} : h.Settles h' → (h.addRoot env.value).Obtains new h' →
      (∀ bindings parent, h'.object? env.value ≠ some (.environment bindings parent)) →
        Defining h env symbol value (.ok () h')
  | error {new : List Nat} {e : Fatal} {h' : Heap} : h.Settles h' →
      (h.addRoot env.value).Obtains new h' → Defining h env symbol value (.error e h')

/-- A new object that is no symbol makes none. -/
theorem Obtains.named {i : Nat} {o : Object} (g : h.Obtains [i] h')
    (found : h'.object? (.slot i) = some o) (other : ∀ name, o ≠ .symbol name) (j : Nat)
    (name : String) (foundJ : h'.object? (.slot j) = some (.symbol name)) :
    h.object? (.slot j) = some (.symbol name) := by
  rcases g.known j _ foundJ with member | before
  · cases List.mem_singleton.1 member
    rw [found] at foundJ
    cases foundJ
    exact absurd rfl (other name)
  · exact before

theorem Obtains.named_nil (g : h.Obtains [] h') (j : Nat) (name : String)
    (found : h'.object? (.slot j) = some (.symbol name)) :
    h.object? (.slot j) = some (.symbol name) := (g.known j _ found).resolve_left nofun

namespace Settles

theorem trans {h'' : Heap} (s : h.Settles h') (s' : h'.Settles h'') : h.Settles h'' :=
  ⟨s'.charted, s.roots.trans s'.roots, fun i name found => s.named i name (s'.named i name found)⟩

theorem addRoot (a : h.Charted c) (v : Value) : h.Settles (h.addRoot v) :=
  ⟨⟨c, a.addRoot v⟩, .addRoot h v, fun _ _ found => (object?_addRoot h v _).symm.trans found⟩

theorem truncateRoots (s : h.Settles h') : h.Settles (h'.truncateRoots h.roots.length) := by
  rcases s.charted with ⟨c, a⟩
  exact ⟨⟨c, a.transfer rfl rfl⟩, s.roots.truncateRoots, s.named⟩

theorem put (s : h.Settles h') (a : ∃ c, (h'.put e (.environment bindings parent)).Charted c)
    (occupied : h'.Occupied e) : h.Settles (h'.put e (.environment bindings parent)) := by
  refine ⟨a, s.roots.trans (.put h' e _), fun i name found => s.named i name ?_⟩
  rw [object?_put_of_occupied occupied] at found
  split at found
  · cases found
  · exact found

end Settles

theorem Defines.truncateRoots (d : h.Defines e b s symbol value h') (height : Nat) :
    h.Defines e b s symbol value (h'.truncateRoots height) := by
  have same : ∀ v, h'.object? v = (h'.truncateRoots height).object? v := fun _ => rfl
  exact ⟨d.frame, d.binding, d.kept, d.fresh, fun v binds => d.unbound v (binds.congr same)⟩

/-- Whatever is an environment once both pairs are made was the same one before. -/
theorem defines_put (g : (h.addRoot (.slot e)).Obtains [b, s] h')
    (foundE : h'.object? (.slot e) = some (.environment bindings parent))
    (foundS : h'.object? (.slot s) = some (.pair (.slot b) bindings))
    (foundB : h'.object? (.slot b) = some (.pair symbol value)) :
    h.Defines e b s symbol value (h'.put e (.environment (.slot s) parent)) := by
  have notE {j : Nat} {car cdr : Value} (found : h'.object? (.slot j) = some (.pair car cdr)) :
      Value.slot j ≠ .slot e := by
    intro same
    rw [same, foundE] at found
    cases found
  have before : h.object? (.slot e) = some (.environment bindings parent) := by
    have known := (g.known e _ foundE).resolve_left fun member => by
      rcases List.mem_pair.1 member with rfl | rfl
      · exact notE foundB rfl
      · exact notE foundS rfl
    exact (object?_addRoot h _ _).symm.trans known
  constructor
  · exact ⟨bindings, parent, before, object?_put_self (occupied_of_object? foundE),
      (object?_put_ne (notE foundS)).trans foundS⟩
  · exact (object?_put_ne (notE foundB)).trans foundB
  · intro i reached other
    refine (object?_put_ne (by simpa using other)).trans ?_
    exact (g.kept i reached).trans (object?_addRoot h _ _)
  · exact ⟨g.fresh b (by simp), g.fresh s (by simp)⟩
  · intro v binds
    refine (isBinding_takeOver foundS foundE binds).imp_right fun binds => ?_
    exact (g.unbound v binds).congr fun v => (object?_addRoot h _ v).symm

/-- Both pairs are made. If there is still an environment to take them over, it does. -/
theorem Charted.defining (a : h'.Charted c) (useB : (c b).station = .data)
    (useS : (c s).station = .data) (different : b ≠ s) {env : Env}
    (foundB : h'.object? (.slot b) = some (.pair symbol value))
    (foundS : h'.object? (.slot s) = some (.pair (.slot b) bindings))
    (listed : ∀ bindings' parent, h'.object? env.value = some (.environment bindings' parent) →
      bindings' = bindings)
    (settles : h.Settles h') (obtains : (h.addRoot env.value).Obtains [b, s] h') :
    Defining h env symbol value
      (.ok () ((h'.setBindings env (.slot s)).truncateRoots h.roots.length)) := by
  rcases setBindings_cases h' env (.slot s) with
    ⟨e, bindings', parent, name, foundE, step⟩ | ⟨other, step⟩
  · rw [step]
    cases listed bindings' parent (name ▸ foundE)
    have charted := a.takeOver useB useS different foundB foundS foundE
    have defines := defines_put (name ▸ obtains) foundE foundS foundB
    have settles := settles.put charted (occupied_of_object? foundE)
    exact .done name settles.truncateRoots (defines.truncateRoots _)
  · rw [step]
    exact .lost settles.truncateRoots (obtains.truncateRoots _) other

/-- A pair of data is made, or there is no room for it. -/
theorem Charted.cons_cases (a : h.Charted c) (car cdr : Value) :
    (∃ e h', HeapM.cons car cdr h = .error e h' ∧ h.Settles h' ∧ h.Obtains [] h') ∨
    ∃ i h', HeapM.cons car cdr h = .ok (.slot i) h' ∧
      h'.Charted (Function.update c i ⟨.data, 0⟩) ∧
      h'.object? (.slot i) = some (.pair car cdr) ∧ h.Settles h' ∧ h.Obtains [i] h' ∧
      ((h.addRoot car).addRoot cdr).Obtains [i] h' := by
  have roots : h.KeepsRoots ((h.addRoot car).addRoot cdr) :=
    (KeepsRoots.addRoot h car).trans (.addRoot _ cdr)
  have made := a.cons car cdr
  generalize HeapM.cons car cdr h = outcome at made ⊢
  cases made with
  | error a' obtains keeps =>
      have unrooted := obtains.ofRooted (by simp) roots
      exact .inl ⟨_, _, rfl, ⟨⟨_, a'⟩, keeps, unrooted.named_nil⟩, unrooted⟩
  | ok found a' obtains keeps =>
      have unrooted := obtains.ofRooted (by simp) roots
      have settles : h.Settles _ := ⟨⟨_, a'⟩, keeps, unrooted.named found fun _ => nofun⟩
      exact .inr ⟨_, _, rfl, a', found, settles, unrooted, obtains⟩

theorem Charted.define (a : h.Charted c) (env : Env) (symbol value : Value) :
    Defining h env symbol value (env.define symbol value h) := by
  have rooted := Settles.addRoot a env.value
  rw [define_eq]
  rcases (a.addRoot env.value).cons_cases symbol value with
    ⟨e, h₁, first, settles₁, obtains₁⟩ | ⟨b, h₁, first, a₁, foundB, settles₁, obtains₁, -⟩
  · rw [first]
    exact .error (rooted.trans settles₁).truncateRoots (obtains₁.truncateRoots _)
  rw [first]
  dsimp only
  rcases a₁.cons_cases (.slot b) (env.bindings h₁) with
    ⟨e, h₂, second, settles₂, obtains₂⟩ | ⟨s, h₂, second, a₂, foundS, settles₂, obtains₂, apart⟩
  · rw [second]
    exact .error ((rooted.trans settles₁).trans settles₂).truncateRoots
      ((obtains₁.trans obtains₂ settles₁.roots).truncateRoots _)
  rw [second]
  dsimp only
  -- The first pair is rooted while the second is made, so it is a different one.
  have reachedB : ((h₁.addRoot (.slot b)).addRoot (env.bindings h₁)).Reachable b := by
    have root : (h₁.addRoot (.slot b)).IsRoot (.slot b) := .stack List.mem_cons_self
    refine .start ((KeepsRoots.addRoot _ _).isRoot root) ?_
    exact occupied_of_object? (by simpa using foundB)
  have foundB₂ := (apart.kept b reachedB).trans (by simpa using foundB)
  have different : b ≠ s := by
    rintro rfl
    exact apart.fresh b (List.mem_singleton_self b) reachedB
  refine a₂.defining (b := b) (by simp [Function.update_of_ne different]) (by simp)
    different foundB₂ foundS (fun bindings parent foundE => ?_)
    ((rooted.trans settles₁).trans settles₂) (obtains₁.trans obtains₂ settles₁.roots)
  -- Whatever is an environment by now was the same one before the second pair was made.
  cases name : env.value with
  | nil =>
      rw [name] at foundE
      cases foundE
  | slot e =>
      rw [name] at foundE
      have foundE₁ := (obtains₂.known e _ foundE).resolve_left fun member => by
        cases List.mem_singleton.1 member
        rw [foundS] at foundE
        cases foundE
      exact (Env.bindings_eq (name ▸ foundE₁)).symm

end Heap

end Lisplet
