import Lisplet.Proofs.Frames.Chart

/-!
# Fresh — what is there after an allocation, and what is new

An allocation may collect first, and then fills an empty slot. Whatever was reachable before is
still there unchanged, in other slots than the new one; whatever else is there was there before;
and no pair has come to bind a symbol (`Heap.Obtains`). `Heap.Makes` says this of an operation that
makes one object, together with the chart of the heap that it leaves.
-/

namespace Lisplet

open Chart

namespace Heap

variable {c : Chart} {h h' h'' : Heap} {new new' : List Nat} {i : Nat} {v : Value} {o : Object}

/-! ## Obtains -/

/--
`h'` is a later state of `h` in which the slots in `new` have been filled: what was reachable is
still there, what is there otherwise was there before, and what binds a symbol did so before.
-/
structure Obtains (h : Heap) (new : List Nat) (h' : Heap) : Prop where
  kept : ∀ i, h.Reachable i → h'.object? (.slot i) = h.object? (.slot i)
  known : ∀ i o, h'.object? (.slot i) = some o → i ∈ new ∨ h.object? (.slot i) = some o
  fresh : ∀ i ∈ new, ¬ h.Reachable i
  unbound : ∀ v, h'.IsBinding v → h.IsBinding v

namespace Obtains

theorem ofSame (same : ∀ v, h'.object? v = h.object? v) : h.Obtains [] h' :=
  ⟨fun _ _ => same _, fun _ _ found => .inr ((same _).symm.trans found), nofun,
    fun _ binds => IsBinding.congr (fun v => (same v).symm) binds⟩

/-- What was reachable still is, as long as the roots are kept. -/
theorem reachable (g : h.Obtains new h') (roots : h.KeepsRoots h') (reached : h.Reachable i) :
    h'.Reachable i := by
  have transferred : h'.ReachableFrom h.IsRoot i := reached.transfer fun j reachedJ =>
    g.kept j reachedJ
  exact transferred.mono fun v root => roots.isRoot root

theorem trans (g : h.Obtains new h') (g' : h'.Obtains new' h'') (roots : h.KeepsRoots h') :
    h.Obtains (new ++ new') h'' := by
  constructor
  · intro i reached
    exact (g'.kept i (g.reachable roots reached)).trans (g.kept i reached)
  · intro i o found
    rcases g'.known i o found with later | found'
    · exact .inl (List.mem_append_right _ later)
    · exact (g.known i o found').imp_left (List.mem_append_left _)
  · intro i member reached
    rcases List.mem_append.1 member with first | later
    · exact g.fresh i first reached
    · exact g'.fresh i later (g.reachable roots reached)
  · exact fun v binds => g.unbound v (g'.unbound v binds)

/-- More roots only keep more. -/
theorem ofRooted {h₁ : Heap} (g : h₁.Obtains new h') (same : ∀ v, h₁.object? v = h.object? v)
    (roots : h.KeepsRoots h₁) : h.Obtains new h' := by
  have start : h.Obtains [] h₁ := ofSame same
  exact start.trans g roots

/-- What comes afterwards may concern other parts of the heap than its objects. -/
theorem congr (g : h.Obtains new h') (same : ∀ v, h''.object? v = h'.object? v) :
    h.Obtains new h'' := by
  constructor
  · exact fun i reached => (same _).trans (g.kept i reached)
  · exact fun i o found => g.known i o ((same _).symm.trans found)
  · exact g.fresh
  · exact fun v binds => g.unbound v (binds.congr fun v => (same v).symm)

theorem truncateRoots (g : h.Obtains new h') (height : Nat) :
    h.Obtains new (h'.truncateRoots height) := g.congr fun _ => rfl

/-- A collection takes away only. -/
theorem collect (clear : h.MarksClear) : h.Obtains [] h.collect.1 := by
  have known : ∀ v o, h.collect.1.object? v = some o → h.object? v = some o := by
    intro v o found
    cases v with
    | nil => cases found
    | slot i =>
        have kept := (occupied_collect_iff clear i).1 (occupied_of_object? found)
        exact (object?_collect_of_reachable clear kept.2).symm.trans found
  refine ⟨fun i reached => object?_collect_of_reachable clear reached,
    fun i o found => .inr (known _ o found), nofun, fun v binds => ?_⟩
  rcases binds with ⟨list, rest, on, found⟩
  refine ⟨list, rest, ?_, known list _ found⟩
  refine on.mono (fun env bindings parent found => .bindings (known _ _ found)) ?_
  exact fun list binding rest _ found => known _ _ found

end Obtains

namespace Charted

theorem makeRoom (a : h.Charted c) :
    h.makeRoom.Charted c ∧ h.Obtains [] h.makeRoom ∧ h.KeepsRoots h.makeRoom := by
  have roots := KeepsRoots.makeRoom h
  unfold Heap.makeRoom at roots ⊢
  split
  · next full =>
    rw [if_pos full] at roots
    exact ⟨a.collect, .collect a.marksClear, roots⟩
  · exact ⟨a, .ofSame fun _ => rfl, .refl h⟩

/-- A pair in a spine is an old one. -/
theorem pair_of_place (a : h.Charted c) (p : h.Places i o h') {v car cdr : Value}
    (on : h.OnFrame v) (found : h'.object? v = some (.pair car cdr)) :
    h.object? v = some (.pair car cdr) := by
  rcases a.lists_of_onFrame on with ⟨e, lists⟩
  cases lists with
  | nil => cases found
  | slot _ occupied => rwa [p.object?_old occupied] at found

section Placing

variable (a : h.Charted c) (p : h.Places i o h')
  (unbound : ∀ bindings parent, o = .environment bindings parent → bindings = .nil)
include a p unbound

theorem onFrame_of_place {v : Value} (on : h'.OnFrame v) : v = .nil ∨ h.OnFrame v := by
  induction on with
  | bindings found =>
      rw [p.object?_eq] at found
      split at found
      · cases found
        exact .inl (unbound _ _ rfl)
      · exact .inr (.bindings found)
  | rest _ found ih =>
      rcases ih with rfl | on
      · cases found
      · exact .inr (.rest on (a.pair_of_place p on found))

/-- A new object becomes part of no environment, and is none unless it has no bindings. -/
theorem obtains_place : h.Obtains [i] h' := by
  constructor
  · exact fun i reached => p.object?_old reached.occupied
  · intro j x found
    rw [p.object?_eq] at found
    split at found
    · next same =>
      cases same
      exact .inl List.mem_cons_self
    · exact .inr found
  · rintro j member reached
    cases List.mem_singleton.1 member
    exact p.fresh reached.occupied
  · rintro v ⟨list, rest, on, found⟩
    rcases a.onFrame_of_place p unbound on with rfl | on
    · cases found
    · exact ⟨list, rest, on, a.pair_of_place p on found⟩

end Placing

end Charted

/-! ## Making one object -/

/--
What making an object comes to on a heap with chart `c`: it is in a slot of its own with the given
post, or there was no room. What could be reached from the roots of `held` is still there.
-/
inductive Makes (c : Chart) (held h : Heap) (o : Object) (post : Nat → Post) :
    EStateM.Result Fatal Heap Value → Prop where
  | ok {i : Nat} {h' : Heap} : h'.object? (.slot i) = some o →
      h'.Charted (Function.update c i (post i)) → held.Obtains [i] h' → h.KeepsRoots h' →
        Makes c held h o post (.ok (.slot i) h')
  | error {e : Fatal} {h' : Heap} : h'.Charted c → held.Obtains [] h' → h.KeepsRoots h' →
      Makes c held h o post (.error e h')

theorem Charted.allocate (a : h.Charted c) {post : Nat → Post}
    (unbound : ∀ bindings parent, o = .environment bindings parent → bindings = .nil)
    (fits : ∀ i h', h.makeRoom.Places i o h' → Fits (Function.update c i (post i)) h' i o) :
    Makes c h h o post (HeapM.allocate o h) := by
  rcases a.makeRoom with ⟨a', obtains, roots⟩
  rcases HeapM.allocate_cases h o with ⟨_, step⟩ | ⟨_, step⟩
  · rcases a'.toTidy.places_insert o with ⟨i, value, p⟩
    rw [step, value]
    refine .ok p.object?_new (a'.place p (a'.toTidy.insert o) (fits i _ p)) ?_
      (roots.trans p.keepsRoots)
    exact obtains.trans (a'.obtains_place p unbound) roots
  · rw [step]
    exact .error a' obtains roots

/-- Data is allocated without any station. -/
theorem Charted.allocate_data (a : h.Charted c) (other : o.kind ≠ .environment) :
    Makes c h h o (fun _ => ⟨.data, 0⟩) (HeapM.allocate o h) := by
  refine a.allocate (fun bindings parent same => ?_) fun i h' _ => .data (by simp) other
  rw [same] at other
  exact absurd rfl other

/-- Both parts of a pair are rooted while it is made. -/
theorem Charted.cons (a : h.Charted c) (car cdr : Value) :
    Makes c ((h.addRoot car).addRoot cdr) h (.pair car cdr) (fun _ => ⟨.data, 0⟩)
      (HeapM.cons car cdr h) := by
  have roots : h.KeepsRoots ((h.addRoot car).addRoot cdr) :=
    (KeepsRoots.addRoot h car).trans (.addRoot _ cdr)
  have made := ((a.addRoot car).addRoot cdr).allocate_data (o := .pair car cdr) nofun
  have body : (do
      HeapM.root car
      HeapM.root cdr
      HeapM.allocate (.pair car cdr) : HeapM Fatal Value) h =
        HeapM.allocate (.pair car cdr) ((h.addRoot car).addRoot cdr) := rfl
  unfold HeapM.cons HeapM.scope
  rw [body]
  generalize HeapM.allocate _ _ = result at made ⊢
  cases made with
  | ok found a' obtains keeps =>
      exact .ok found (a'.transfer rfl rfl) (obtains.truncateRoots _)
        (roots.trans keeps).truncateRoots
  | error a' obtains keeps =>
      exact .error (a'.transfer rfl rfl) (obtains.truncateRoots _) (roots.trans keeps).truncateRoots

end Heap

end Lisplet
