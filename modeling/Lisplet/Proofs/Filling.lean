import Lisplet.Proofs.Heap.Footprint
import Lisplet.Proofs.Search

/-!
# Filling — how a new environment gets its bindings

A new environment is rooted, and each parameter that is bound puts two pairs in front of its list of
bindings. Memory may run out with the environment half filled. `Heap.Begun` says what is true even
then: nothing is different but the new slots, and none of these has an environment but the one that
is filled. `Heap.Filling` says what it has been filled with as long as all goes well; one definition
keeps that up (`Filling.define`), and so does the loop over the parameters (`Filling.bindAll`).
-/

namespace Lisplet

namespace Heap

variable {h h₁ h₂ h' : Heap} {operands : List Value} {new new' : List Nat} {c : Nat}
  {list symbol value : Value} {entries : List (Value × Value)}

/-! ## Entries -/

/-- The symbols and values that a list of bindings has, newest first. -/
inductive Entries (h : Heap) : Value → List (Value × Value) → Prop where
  | nil : Entries h .nil []
  | cons {b s : Nat} {rest symbol value : Value} {entries : List (Value × Value)} :
      h.object? (.slot s) = some (.pair (.slot b) rest) →
      h.object? (.slot b) = some (.pair symbol value) →
      Entries h rest entries → Entries h (.slot s) ((symbol, value) :: entries)

namespace Entries

theorem occupied (e : h.Entries (.slot c) entries) : h.Occupied c := by
  cases e with
  | cons found _ _ => exact occupied_of_object? found

theorem congr (e : h.Entries list entries) (same : ∀ v, h'.object? v = h.object? v) :
    h'.Entries list entries := by
  induction e with
  | nil => exact .nil
  | cons list binding _ ih => exact .cons ((same _).trans list) ((same _).trans binding) ih

/-- The entries are the same as long as the pairs are that can be reached. -/
theorem transfer (e : h.Entries list entries) (reached : ∀ i, list = .slot i → h.Reachable i)
    (same : ∀ i car cdr, h.Reachable i → h.object? (.slot i) = some (.pair car cdr) →
      h'.object? (.slot i) = some (.pair car cdr)) : h'.Entries list entries := by
  induction e with
  | nil => exact .nil
  | @cons b s rest symbol value entries list binding tail ih =>
      have reachedS := reached s rfl
      have reachedB : h.Reachable b :=
        .reference reachedS list (by simp [Object.references]) (occupied_of_object? binding)
      refine .cons (same s _ _ reachedS list) (same b _ _ reachedB binding) (ih fun i isSlot => ?_)
      subst isSlot
      exact .reference reachedS list (by simp [Object.references]) tail.occupied

/-- What is found in the list is the binding of the first entry. -/
theorem find?_eq (e : h.Entries list entries) (symbol : Value) :
    match entries.lookup symbol with
    | some value => ∃ b, h.find? (fun b => h.car? b == some symbol) list = some b ∧
        h.cdr? b = some value
    | none => h.find? (fun b => h.car? b == some symbol) list = none := by
  induction e with
  | nil => exact find?_nil h _
  | @cons b s rest symbol' value entries list binding _ ih =>
      have pair := pair?_eq_some_iff.2 binding
      have car : h.car? (.slot b) = some symbol' := by rw [car?, pair]; rfl
      have cdr : h.cdr? (.slot b) = some value := by rw [cdr?, pair]; rfl
      rw [find?_cons (pair?_eq_some_iff.2 list), car, List.lookup_cons]
      by_cases same : symbol = symbol'
      · subst same
        simp only [beq_self_eq_true, if_true]
        exact ⟨_, rfl, cdr⟩
      · have differs : (symbol == symbol') = false := beq_false_of_ne same
        have differs' : (some symbol' == some symbol) = false :=
          beq_false_of_ne fun isSame => same (Option.some.inj isSame).symm
        rw [differs, differs']
        exact ih

end Entries

/-! ## A new environment -/

/-- `h₁` is a later state of `h` with a new environment in the slot `c`, and no other new one. -/
structure Begun (h : Heap) (operands : List Value) (c : Nat) (new : List Nat) (h₁ : Heap) :
    Prop where
  acquires : h.Acquires operands new h₁
  member : c ∈ new
  lone : ∀ i ∈ new, i ≠ c → ∀ bindings parent,
    h₁.object? (.slot i) ≠ some (.environment bindings parent)

namespace Begun

theorem truncateRoots (g : h.Begun operands c new h₁) (height : Nat) :
    h.Begun operands c new (h₁.truncateRoots height) :=
  ⟨g.acquires.truncateRoots height, g.member, g.lone⟩

/-- More that is new makes no difference, if none of it is an environment. -/
theorem trans {operands' : List Value} (g : h.Begun operands c new h₁)
    (acquires : h₁.Acquires operands' new' h₂)
    (needs : ∀ i, h.Needed operands i → h₁.Needed operands' i)
    (plain : ∀ i ∈ new', ∀ bindings parent,
      h₂.object? (.slot i) ≠ some (.environment bindings parent)) :
    h.Begun operands c (new ++ new') h₂ := by
  refine ⟨g.acquires.trans acquires needs, List.mem_append_left _ g.member, ?_⟩
  intro i member other bindings parent found
  by_cases later : i ∈ new'
  · exact plain i later bindings parent found
  · have first := (List.mem_append.1 member).resolve_right later
    exact g.lone i first other bindings parent (acquires.object?_of_old found later)

/-- The new environment may be changed. -/
theorem put (g : h.Begun operands c new h₁) (occupied : h₁.Occupied c) (o : Object) :
    h.Begun operands c new (h₁.put c o) := by
  refine ⟨g.acquires.put g.member occupied o, g.member, ?_⟩
  intro i member other bindings parent found
  refine g.lone i member other bindings parent ?_
  rwa [object?_put_ne fun same => other (Value.slot.inj same)] at found

end Begun

/-- Besides, the new environment is inside `env` and binds the entries. -/
structure Filled (h : Heap) (operands : List Value) (env : Env) (c : Nat) (new : List Nat)
    (entries : List (Value × Value)) (h₁ : Heap) : Prop extends Begun h operands c new h₁ where
  frame : ∃ list, h₁.object? (.slot c) = some (.environment list (some env)) ∧
    h₁.Entries list entries

theorem Filled.truncateRoots {env : Env} (f : h.Filled operands env c new entries h₁)
    (height : Nat) : h.Filled operands env c new entries (h₁.truncateRoots height) := by
  rcases f.frame with ⟨list, found, filled⟩
  exact ⟨f.toBegun.truncateRoots height, list, found, filled.congr fun _ => rfl⟩

/-- As long as it is filled, it is rooted with everything else that is needed. -/
structure Filling (h : Heap) (env : Env) (params args : Value) (c : Nat) (new : List Nat)
    (entries : List (Value × Value)) (h₁ : Heap) : Prop extends
    Filled h [params, args, env.value] env c new entries h₁ where
  roots : ∀ i, h.IsRoot (.slot i) ∨ .slot i ∈ [params, args] ∨ i = c → h₁.IsRoot (.slot i)

namespace Filling

variable {env : Env} {params args : Value}

/-- It starts out empty, and rooted together with the parameters and the arguments. -/
theorem start (counted : h.Counted) (env : Env) (params args : Value) :
    (∃ live capacity h₁, HeapM.child env ((h.addRoot params).addRoot args) =
        .error (.outOfMemory live capacity) h₁ ∧
      h.Acquires [params, args, env.value] [] h₁) ∨
    ∃ c h₁, HeapM.child env ((h.addRoot params).addRoot args) = .ok ⟨.slot c⟩ h₁ ∧
      h.Filling env params args c [c] [] (h₁.addRoot (.slot c)) := by
  have rooted : h.Acquires [params, args, env.value] [] ((h.addRoot params).addRoot args) := by
    refine (Acquires.refl counted _).congr (counted.addRoots [params, args]) fun v => ?_
    rw [object?_addRoot, object?_addRoot]
  have needs (i : Nat) (needed : h.Needed [params, args, env.value] i) :
      ((h.addRoot params).addRoot args).Needed [env.value] i :=
    (needed_addRoots_iff [params, args]).2 needed
  rcases rooted.counted.child_cases env with
    ⟨live, capacity, h₁, step, acquires⟩ | ⟨c, h₁, step, acquires, roots, found⟩
  · exact .inl ⟨live, capacity, h₁, step, rooted.trans acquires needs⟩
  have acquires' : h.Acquires [params, args, env.value] [c] (h₁.addRoot (.slot c)) :=
    (rooted.trans acquires needs).congr (acquires.counted.addRoots [.slot c]) (object?_addRoot h₁ _)
  refine .inr ⟨c, h₁, step, ⟨⟨acquires', List.mem_singleton_self c, ?_⟩, .nil, ?_, .nil⟩, ?_⟩
  · exact fun i member other => absurd (List.mem_singleton.1 member) other
  · exact (object?_addRoot h₁ _ _).trans found
  · intro i isRoot
    have stays {v : Value} (root : ((h.addRoot params).addRoot args).IsRoot v) :
        (h₁.addRoot (.slot c)).IsRoot v := (KeepsRoots.addRoot h₁ _).isRoot (roots.isRoot root)
    rcases isRoot with root | member | rfl
    · exact stays ((KeepsRoots.addRoots h [params, args]).isRoot root)
    · exact stays (isRoot_addRoots member)
    · exact .stack List.mem_cons_self

theorem reachable_self (f : h.Filling env params args c new entries h₁) : h₁.Reachable c := by
  rcases f.frame with ⟨_, found, _⟩
  exact .start (f.roots c (.inr (.inr rfl))) (occupied_of_object? found)

/-- The enclosing environment is reached from the new one. -/
theorem reachable (f : h.Filling env params args c new entries h₁) {i : Nat}
    (needed : h.Needed [params, args, env.value] i) : h₁.Reachable i := by
  refine needed_nil_iff.1 (f.acquires.needed (fun i needed isStart => ?_) needed)
  have occupied := f.acquires.occupied needed
  rw [needed_nil_iff]
  rcases isStart with root | member
  · exact .start (f.roots i (.inl root)) occupied
  rcases List.mem_append.1 (show .slot i ∈ [params, args] ++ [env.value] from member) with
    rooted | isEnv
  · exact .start (f.roots i (.inr (.inl rooted))) occupied
  · rcases f.frame with ⟨_, found, _⟩
    refine .reference f.reachable_self found ?_ occupied
    simp [Object.references, List.mem_singleton.1 isEnv]

/-- One more parameter is bound, or there is no room to bind it. -/
theorem define (f : h.Filling env params args c new entries h₁) (symbol value : Value) :
    (∃ live capacity new' h', (Env.mk (.slot c)).define symbol value h₁ =
        .error (.outOfMemory live capacity) h' ∧
      h.Begun [params, args, env.value] c new' h') ∨
    ∃ new' h', (Env.mk (.slot c)).define symbol value h₁ = .ok () h' ∧
      h.Filling env params args c new' ((symbol, value) :: entries) h' := by
  rcases f.frame with ⟨list, found, filled⟩
  have stays {i : Nat} (reached : h₁.Reachable i) : h₁.Needed [.slot c, symbol, value] i :=
    reached.mono fun _ => .inl
  have needs (i : Nat) (needed : h.Needed [params, args, env.value] i) :
      h₁.Needed [.slot c, symbol, value] i := stays (f.reachable needed)
  have roots := conduct_keepsRoots.define h₁ ⟨.slot c⟩ symbol value
  unfold Operation.heapAfter at roots
  rcases f.acquires.counted.define_cases found symbol value with
    ⟨live, capacity, new', h', step, acquires, plain⟩ |
    ⟨b, s, h₂, step, acquires, _, foundB, foundS⟩
  · exact .inl ⟨live, capacity, _, h', step, f.trans acquires needs plain⟩
  rw [step] at roots
  have foundC := (acquires.kept c (stays f.reachable_self)).trans found
  have occupied := occupied_of_object? foundC
  have begun := f.trans acquires needs fun i member bindings parent isEnv => by
    rcases List.mem_pair.1 member with rfl | rfl
    · cases foundB.symm.trans isEnv
    · cases foundS.symm.trans isEnv
  -- The pairs stay pairs when the environment takes them over.
  have pairs {i : Nat} {car cdr : Value} {o : Object}
      (pair : h₂.object? (.slot i) = some (.pair car cdr)) :
      ((h₂.put c o).truncateRoots h₁.roots.length).object? (.slot i) = some (.pair car cdr) := by
    refine (object?_put_ne fun same => ?_).trans pair
    rw [same, foundC] at pair
    cases pair
  have reachedList (i : Nat) (isSlot : list = .slot i) : h₁.Reachable i := by
    subst isSlot
    exact .reference f.reachable_self found (by simp [Object.references]) filled.occupied
  have older := filled.transfer reachedList fun i car cdr reached pair =>
    pairs (o := .environment (.slot s) (some env)) ((acquires.kept i (stays reached)).trans pair)
  refine .inr ⟨_, _, step, ⟨(begun.put occupied _).truncateRoots _, .slot s, ?_⟩, ?_⟩
  · exact ⟨object?_put_self occupied, .cons (pairs foundS) (pairs foundB) older⟩
  · exact fun i isRoot => roots.isRoot (f.roots i isRoot)

end Filling

/-! ## All parameters -/

/-- What is left of a list behind so many elements. -/
def rest (h : Heap) : Nat → Value → Value
  | 0, v => v
  | n + 1, v => h.rest n ((h.cdr? v).getD .nil)

/-- The entries of parameters bound to the elements of a list, that of the rest parameter first. -/
def matched (h : Heap) (names : List Value) (tail : Value) (values : List Value) (args : Value) :
    List (Value × Value) :=
  (if tail.isNil then [] else [(tail, h.rest names.length args)]) ++ (names.zip values).reverse

theorem matched_cons {car cdr args : Value} (goes : h.pair? args = some (car, cdr)) (name : Value)
    (names : List Value) (tail : Value) (values : List Value) :
    h.matched (name :: names) tail (car :: values) args =
      h.matched names tail values cdr ++ [(name, car)] := by
  have next : h.rest (names.length + 1) args = h.rest names.length cdr := by
    rw [rest, cdr?, goes]
    rfl
  simp [matched, next]

/-- What is left of a list has the elements that are left. -/
theorem spine_rest {args tail : Value} {values : List Value} (spine : h.Spine args values tail)
    {n : Nat} (enough : n ≤ values.length) : h.Spine (h.rest n args) (values.drop n) tail := by
  induction n generalizing args values with
  | zero => exact spine
  | succ n ih =>
      cases spine with
      | done _ => exact absurd enough (Nat.not_succ_le_zero n)
      | @step _ car cdr _ values goes later =>
          have next : h.rest (n + 1) args = h.rest n cdr := by
            rw [rest, cdr?, goes]
            rfl
          rw [next]
          exact ih later (Nat.le_of_succ_le_succ enough)

/-- The loop over the parameters binds all of them, or memory runs out on the way. -/
theorem Filling.bindAll (a : h.Arena) {env : Env} {params args list : Value}
    {names values : List Value} (tail : Value) (f : h.Filling env params args c new entries h₁)
    (spine : h.Spine list values .nil) (enough : names.length ≤ values.length)
    (within : h.Within (fun v => h.IsRoot v ∨ v ∈ [params, args, env.value]) list) :
    (∃ live capacity new' h', (Env.mk (.slot c)).bindAll names tail list h₁ =
        .error (.outOfMemory live capacity) h' ∧
      h.Begun [params, args, env.value] c new' h') ∨
    ∃ new' h', (Env.mk (.slot c)).bindAll names tail list h₁ = .ok () h' ∧
      h.Filling env params args c new' (h.matched names tail values list ++ entries) h' := by
  -- Induction on the parameters; the arguments are taken apart at the same pace.
  induction names generalizing h₁ new entries list values with
  | nil =>
      unfold Env.bindAll matched
      cases isNil : tail.isNil with
      | true => exact .inr ⟨new, h₁, rfl, f⟩
      | false => exact f.define tail list
  | cons name names ih =>
      cases spine with
      | done _ => exact absurd enough (Nat.not_succ_le_zero _)
      | @step _ car cdr _ values goes later =>
          have agree := a.agree f.acquires.kept
          have within' := (agree.pair_closed _ _ _ within goes).2
          have goes' := (agree.pair?_eq _ within).trans goes
          have enough' := Nat.le_of_succ_le_succ enough
          have next : (Env.mk (.slot c)).bindAll (name :: names) tail list h₁ =
              ((Env.mk (.slot c)).define name car >>= fun _ =>
                (Env.mk (.slot c)).bindAll names tail cdr : HeapM Fatal Unit) h₁ := by
            rw [Env.bindAll, get_bind_apply, goes']
          rw [next, matched_cons goes, List.append_assoc]
          simp only [Bind.bind, EStateM.bind]
          rcases f.define name car with
            ⟨live, capacity, new', h', step, begun⟩ | ⟨new', h', step, f'⟩
          · exact .inl ⟨live, capacity, new', h', by rw [step], begun⟩
          · rw [step]
            exact ih f' later enough' within'

end Heap

end Lisplet
