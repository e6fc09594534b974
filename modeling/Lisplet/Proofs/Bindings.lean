import Lisplet.Proofs.Frames
import Mathlib.Data.List.Find

/-!
# Bindings — what definitions and assignments do to all lookups

A definition changes one frame, and an assignment one pair of one frame. What a symbol means
elsewhere depends on where its nearest binding is. Since every pair that binds a symbol belongs to
one frame only, both say precisely which lookups see the new value, from whatever environment and
for whatever symbol; the others see what they saw before.
-/

namespace Lisplet

open Chart
open Heap.Operation (heapAfter)

/-! ## Environments that are kept -/

namespace Env

/-- A live environment that can be reached from the roots. -/
def IsKept (env : Env) (h : Heap) : Prop :=
  h.IsEnvironment env.value ∧ ∃ i, env.value = .slot i ∧ h.Reachable i

/-- The nearest environment that binds a symbol in its own frame. -/
def owner? (env : Env) (h : Heap) (symbol : Value) : Option Env :=
  (env.chain h).find? fun e => (e.ownBinding? h symbol).isSome

/-- A symbol is looked up in `e` before any environment outside of it binds the symbol. -/
def Sees (env : Env) (h : Heap) (symbol : Value) (e : Env) : Prop :=
  e ∈ env.chain h ∧ ∀ f ∈ (env.chain h).takeWhile (· ≠ e), f.ownBinding? h symbol = none

instance (env : Env) (h : Heap) (symbol : Value) (e : Env) : Decidable (env.Sees h symbol e) :=
  inferInstanceAs (Decidable (_ ∧ _))

end Env

namespace Heap

variable {c : Chart} {h h' : Heap} {env : Env} {envs : List Env} {e : Nat} {v tail symbol : Value}
  {items : List Value}

/-- The environments from one that is kept outwards are kept. -/
theorem Charted.isKept_of_mem (a : h.Charted c) (chain : h.Chain env envs) (kept : env.IsKept h) :
    ∀ f ∈ envs, f.IsKept h := by
  induction chain with
  | outermost _ => exact List.forall_mem_singleton.2 kept
  | @inner env parent envs goes _ ih =>
      refine List.forall_mem_cons.2 ⟨kept, ih ?_⟩
      rcases kept with ⟨⟨bindings, outer, found⟩, i, name, reached⟩
      rw [Env.parent?_eq found] at goes
      subst goes
      rw [name] at found
      rcases (a.frame found).2.2 parent rfl with ⟨k, rfl, station, occupied, _⟩
      rcases a.exists_environment station occupied with ⟨bindings', outer', found'⟩
      refine ⟨⟨bindings', outer', found'⟩, k, rfl, ?_⟩
      exact .reference reached found (by simp [Object.references]) occupied

/-- The list of bindings of an environment that is kept is kept too. -/
theorem Charted.lists_of_isKept (a : h.Charted c) (kept : env.IsKept h) :
    ∃ e, env.value = .slot e ∧ (c e).station = .frame ∧ Lists c h e (env.bindings h) ∧
      ∀ k, env.bindings h = .slot k → h.Reachable k := by
  rcases kept with ⟨⟨bindings, parent, found⟩, e, name, reached⟩
  have bindings_eq := Env.bindings_eq found
  rw [name] at found
  have frame := a.frame found
  refine ⟨e, name, frame.1, bindings_eq ▸ frame.2.1, fun k same => ?_⟩
  rw [bindings_eq] at same
  subst same
  cases frame.2.1 with
  | slot _ occupied =>
      exact .reference reached found (Object.bindings_mem_references _ _) occupied

/-! ## Lists of bindings -/

/--
A list of bindings is what it was as long as its pairs are, and its elements are pairs of the same
environment.
-/
theorem Charted.spine_transfer (a : h.Charted c) (lists : Lists c h e v)
    (reached : ∀ k, v = .slot k → h.Reachable k)
    (same : ∀ k, h.Reachable k → (c k).station = .spine e →
      h'.object? (.slot k) = h.object? (.slot k)) :
    ∃ items, h.Spine v items .nil ∧ h'.Spine v items .nil ∧
      ∀ w ∈ items, ∃ b, w = .slot b ∧ (c b).station = .binding e ∧ h.Reachable b := by
  rcases a.exists_spine lists with ⟨items, spine, -⟩
  refine ⟨items, spine, ?_⟩
  generalize stop : Value.nil = tail at spine
  induction spine with
  | done _ =>
      subst stop
      exact ⟨.done rfl, nofun⟩
  | @step v car cdr tail items goes rest ih =>
      have found := pair?_eq_some_iff.1 goes
      cases lists with
      | nil => cases found
      | @slot i station occupied =>
          rcases a.spine station found with ⟨b, rest', parts, binds, occupiedB, lists, _⟩
          cases parts
          have reachedI := reached i rfl
          have reachedB : h.Reachable b :=
            .reference reachedI found (by simp [Object.references]) occupiedB
          have later := ih lists (fun k isSlot => by
            subst isSlot
            cases lists with
            | slot _ occupiedK =>
                exact .reference reachedI found (by simp [Object.references]) occupiedK) stop
          refine ⟨.step ?_ later.1, List.forall_mem_cons.2 ⟨⟨b, rfl, binds, reachedB⟩, later.2⟩⟩
          exact pair?_eq_some_iff.2 ((same i reachedI station).trans found)

/-- What an environment binds by itself is a pair of its own whose car is the symbol. -/
theorem Charted.ownBinding_cases (a : h.Charted c) (kept : env.IsKept h)
    (found : env.ownBinding? h symbol = some v) :
    ∃ b e, v = .slot b ∧ env.value = .slot e ∧ (c b).station = .binding e ∧ h.Reachable b ∧
      h.car? v = some symbol := by
  rcases a.lists_of_isKept kept with ⟨e, name, _, lists, reached⟩
  rcases a.spine_transfer lists reached fun _ _ _ => rfl with ⟨items, spine, _, all⟩
  unfold Env.ownBinding? at found
  rw [find?_eq spine] at found
  have car : (h.car? v == some symbol) = true :=
    List.find?_some (p := fun w => h.car? w == some symbol) found
  rcases all v (List.mem_of_find?_eq_some found) with ⟨b, rfl, binds, reachedB⟩
  exact ⟨b, e, rfl, name, binds, reachedB, eq_of_beq car⟩

/-- A frame binds what it did as long as its own pairs are left alone, but for their cdrs. -/
theorem Charted.ownBinding?_congr (a : h.Charted c) (kept : env.IsKept h)
    (bindings : env.bindings h' = env.bindings h)
    (spine : ∀ k e, h.Reachable k → (c k).station = .spine e →
      h'.object? (.slot k) = h.object? (.slot k))
    (cars : ∀ k e, h.Reachable k → (c k).station = .binding e →
      h'.car? (.slot k) = h.car? (.slot k)) (symbol : Value) :
    env.ownBinding? h' symbol = env.ownBinding? h symbol := by
  rcases a.lists_of_isKept kept with ⟨e, _, _, lists, reached⟩
  rcases a.spine_transfer lists reached (spine · e) with ⟨items, walk, walk', all⟩
  unfold Env.ownBinding?
  rw [bindings, find?_eq walk, find?_eq walk']
  refine List.find?_congr fun w member => ?_
  rcases all w member with ⟨b, rfl, binds, reachedB⟩
  rw [cars b e reachedB binds]

/-! ## Lookups -/

theorem Charted.chain_of_isKept (a : h.Charted c) (kept : env.IsKept h) :
    ∃ envs, h.Chain env envs ∧ env.chain h = envs ∧ ∀ f ∈ envs, f.IsKept h := by
  rcases a.lists_of_isKept kept with ⟨e, name, station, _⟩
  rcases kept.2 with ⟨i, name', reached⟩
  cases name.symm.trans name'
  rcases a.exists_chain station reached.occupied with ⟨envs, chain, _⟩
  have same : env = ⟨.slot e⟩ := congrArg Env.mk name
  exact ⟨envs, same ▸ chain, chain_eq (same ▸ chain), a.isKept_of_mem (same ▸ chain) kept⟩

/-- The way outwards is what it was as long as every environment has the same parent. -/
theorem Charted.chain_congr (a : h.Charted c) (chain : h.Chain env envs) (kept : env.IsKept h)
    (parents : ∀ f : Env, f.IsKept h → f.parent? h' = f.parent? h) : h'.Chain env envs := by
  have all := a.isKept_of_mem chain kept
  induction chain with
  | outermost ends => exact .outermost ((parents _ kept).trans ends)
  | inner goes rest ih =>
      have later := List.forall_mem_cons.1 all
      refine .inner ((parents _ kept).trans goes) (ih (later.2 _ ?_) later.2)
      cases rest with
      | outermost _ => exact List.mem_cons_self
      | inner _ _ => exact List.mem_cons_self

/-- The nearest binding is the one that the nearest environment that has one has. -/
theorem Charted.binding?_eq_owner (a : h.Charted c) (kept : env.IsKept h) (symbol : Value) :
    env.binding? h symbol = (env.owner? h symbol).bind (·.ownBinding? h symbol) := by
  rcases a.chain_of_isKept kept with ⟨envs, chain, eq, -⟩
  rw [Env.owner?, eq, binding?_eq chain]
  clear chain eq
  induction envs with
  | nil => rfl
  | cons f envs ih =>
      rw [List.findSome?_cons, List.find?_cons]
      cases own : f.ownBinding? h symbol with
      | none => simpa using ih
      | some b => simp [own]

/-- A symbol that is interned is a root. -/
theorem symbol_reachable (interned : ∀ i (name : String),
      h.object? (.slot i) = some (.symbol name) → h.symbols[name]? = some (.slot i))
    (isSymbol : h.isSymbol symbol = true) :
    ∃ i name, symbol = .slot i ∧ h.object? (.slot i) = some (.symbol name) ∧ h.Reachable i := by
  have kind := eq_of_beq isSymbol
  unfold Heap.kind at kind
  split at kind
  · cases kind
  · next i =>
    split at kind
    · next o found =>
      cases o with
      | symbol name =>
          exact ⟨i, name, rfl, found, .start (.symbol (interned i name found))
            (occupied_of_object? found)⟩
      | _ => cases kind
    · cases kind

theorem findSome?_congr {α β : Type} {f g : α → Option β} {l : List α}
    (same : ∀ x ∈ l, f x = g x) : l.findSome? f = l.findSome? g := by
  induction l with
  | nil => rfl
  | cons x l ih =>
      have both := List.forall_mem_cons.1 same
      rw [List.findSome?_cons, List.findSome?_cons, both.1, ih both.2]

/-- The nearest binding stays the nearest as long as parents and frames are what they were. -/
theorem Charted.binding?_congr (a : h.Charted c) (kept : env.IsKept h)
    (parents : ∀ f : Env, f.IsKept h → f.parent? h' = f.parent? h)
    (own : ∀ f : Env, f.IsKept h → f.ownBinding? h' symbol = f.ownBinding? h symbol) :
    env.binding? h' symbol = env.binding? h symbol := by
  rcases a.chain_of_isKept kept with ⟨envs, chain, -, all⟩
  rw [binding?_eq chain, binding?_eq (a.chain_congr chain kept parents)]
  exact findSome?_congr fun f member => own f (all f member)

/-! ## Definitions -/

section Definitions

variable {b s : Nat} {value other : Value}

theorem Defines.object?_eq (d : h.Defines e b s symbol value h') {i : Nat}
    (reached : h.Reachable i) (different : i ≠ e) :
    h'.object? (.slot i) = h.object? (.slot i) := by
  have same : h.Obtains [] (h.addRoot (.slot e)) := .ofSame (object?_addRoot h _)
  exact d.kept i (same.reachable (.addRoot h _) reached) different

theorem Defines.parent?_eq (d : h.Defines e b s symbol value h') (kept : env.IsKept h) :
    env.parent? h' = env.parent? h := by
  rcases d.frame with ⟨bindings, parent, before, after, -⟩
  rcases kept.2 with ⟨i, name, reached⟩
  by_cases same : i = e
  · subst same
    rw [← name] at before after
    rw [Env.parent?_eq before, Env.parent?_eq after]
  · unfold Env.parent? frame?
    rw [name, d.object?_eq reached same]

/-- What is no environment is left alone. -/
theorem Defines.object?_eq_of_station (d : h.Defines e b s symbol value h') (a : h.Charted c)
    {i : Nat} (reached : h.Reachable i) (noFrame : (c i).station ≠ .frame) :
    h'.object? (.slot i) = h.object? (.slot i) := by
  rcases d.frame with ⟨bindings, parent, before, -⟩
  refine d.object?_eq reached ?_
  rintro rfl
  exact noFrame (a.frame before).1

theorem Defines.car?_eq_of_station (d : h.Defines e b s symbol value h') (a : h.Charted c)
    {i : Nat} (reached : h.Reachable i) (noFrame : (c i).station ≠ .frame) :
    h'.car? (.slot i) = h.car? (.slot i) := by
  unfold car? pair?
  rw [d.object?_eq_of_station a reached noFrame]

/-- The new binding is in front of those that the environment had. -/
theorem Defines.ownBinding?_self (d : h.Defines e b s symbol value h') (a : h.Charted c)
    (kept : (⟨.slot e⟩ : Env).IsKept h) (other : Value) :
    (⟨.slot e⟩ : Env).ownBinding? h' other =
      if other = symbol then some (.slot b) else (⟨.slot e⟩ : Env).ownBinding? h other := by
  rcases d.frame with ⟨bindings, parent, before, after, list⟩
  have bindings_eq : (⟨.slot e⟩ : Env).bindings h = bindings := Env.bindings_eq before
  rcases a.lists_of_isKept kept with ⟨e', name, _, lists, reached⟩
  cases name
  rw [bindings_eq] at lists reached
  rcases a.spine_transfer lists reached fun k reachedK station =>
    d.object?_eq_of_station a reachedK (by simp [station]) with ⟨items, walk, walk', all⟩
  have new : h'.Spine (.slot s) (.slot b :: items) .nil :=
    .step (pair?_eq_some_iff.2 list) walk'
  have car : h'.car? (.slot b) = some symbol := by
    rw [car?, pair?_eq_some_iff.2 d.binding]
    rfl
  have rest : items.find? (fun w => h'.car? w == some other) =
      items.find? (fun w => h.car? w == some other) := by
    refine List.find?_congr fun w member => ?_
    rcases all w member with ⟨k, rfl, binds, reachedK⟩
    rw [d.car?_eq_of_station a reachedK (by simp [binds])]
  unfold Env.ownBinding?
  rw [bindings_eq, Env.bindings_eq after, find?_eq new, find?_eq walk, List.find?_cons, car, rest]
  by_cases isSymbol : other = symbol
  · simp [isSymbol]
  · have differs : (symbol == other) = false := beq_false_of_ne (Ne.symm isSymbol)
    simp [isSymbol, differs]

/-- The frame of a definition has its new binding in front, and the others have what they had. -/
theorem Defines.ownBinding?_eq (d : h.Defines e b s symbol value h') (a : h.Charted c)
    (kept : env.IsKept h) (other : Value) :
    env.ownBinding? h' other =
      if env = ⟨.slot e⟩ ∧ other = symbol then some (.slot b) else env.ownBinding? h other := by
  by_cases same : env = ⟨.slot e⟩
  · subst same
    simpa using d.ownBinding?_self a kept other
  · rw [if_neg fun both => same both.1]
    refine a.ownBinding?_congr kept ?_
      (fun k _ reached station => d.object?_eq_of_station a reached (by simp [station]))
      (fun k _ reached station => d.car?_eq_of_station a reached (by simp [station])) other
    rcases kept.2 with ⟨i, name, reached⟩
    have different : i ≠ e := by
      rintro rfl
      exact same (congrArg Env.mk name)
    unfold Env.bindings frame?
    rw [name, d.object?_eq reached different]

/-- What is found first once one element has been given something to find. -/
theorem findSome?_update {α β : Type} [DecidableEq α] {f g : α → Option β} {x : α} {y : β}
    {l : List α} (update : ∀ z ∈ l, g z = if z = x then some y else f z) :
    l.findSome? g =
      if x ∈ l ∧ ∀ z ∈ l.takeWhile (· ≠ x), f z = none then some y else l.findSome? f := by
  induction l with
  | nil => rfl
  | cons z l ih =>
      have both := List.forall_mem_cons.1 update
      rw [List.findSome?_cons, List.findSome?_cons, both.1, ih both.2]
      by_cases same : z = x
      · simp [same]
      · cases found : f z with
        | none => simp [same, Ne.symm same, found]
        | some w => simp [same, Ne.symm same, found]

theorem Defines.binding?_eq (d : h.Defines e b s symbol value h') (a : h.Charted c)
    (kept : env.IsKept h) (other : Value) :
    env.binding? h' other =
      if other = symbol ∧ env.Sees h symbol ⟨.slot e⟩ then some (.slot b)
      else env.binding? h other := by
  have parents : ∀ f : Env, f.IsKept h → f.parent? h' = f.parent? h := fun f => d.parent?_eq
  by_cases same : other = symbol
  · subst same
    rcases a.chain_of_isKept kept with ⟨envs, chain, eq, all⟩
    rw [Heap.binding?_eq chain, Heap.binding?_eq (a.chain_congr chain kept parents),
      findSome?_update fun f member => by simpa using d.ownBinding?_eq a (all f member) other]
    simp [Env.Sees, eq]
  · rw [if_neg fun both => same both.1]
    refine a.binding?_congr kept parents fun f keptF => ?_
    rw [d.ownBinding?_eq a keptF, if_neg fun both => same both.2]

end Definitions

/-! ## Assignments -/

/-- The nearest binding of a symbol is a pair of its owner. -/
theorem Charted.binding_cases (a : h.Charted c) (kept : env.IsKept h)
    (found : env.binding? h symbol = some v) :
    ∃ b e, v = .slot b ∧ env.owner? h symbol = some ⟨.slot e⟩ ∧ (c b).station = .binding e ∧
      h.Reachable b ∧ h.car? v = some symbol := by
  rw [a.binding?_eq_owner kept] at found
  rcases Option.bind_eq_some_iff.1 found with ⟨f, owner, own⟩
  rcases a.chain_of_isKept kept with ⟨envs, -, eq, all⟩
  have member : f ∈ envs := eq ▸ List.mem_of_find?_eq_some owner
  rcases a.ownBinding_cases (all f member) own with ⟨b, e, same, name, binds, reached, car⟩
  have isOwner : f = ⟨.slot e⟩ := congrArg Env.mk name
  exact ⟨b, e, same, isOwner ▸ owner, binds, reached, car⟩

/-- A pair that binds a symbol does so in one frame and for one symbol. -/
theorem Charted.binding?_eq_iff (a : h.Charted c) {env' : Env} (kept : env.IsKept h)
    (kept' : env'.IsKept h) (found : env.binding? h symbol = some v) (symbol' : Value) :
    env'.binding? h symbol' = some v ↔
      symbol' = symbol ∧ env'.owner? h symbol' = env.owner? h symbol := by
  rcases a.binding_cases kept found with ⟨b, e, rfl, owner, binds, -, car⟩
  constructor
  · intro found'
    rcases a.binding_cases kept' found' with ⟨b', e', same, owner', binds', -, car'⟩
    cases same
    rw [binds] at binds'
    cases binds'
    rw [car] at car'
    cases car'
    exact ⟨rfl, owner'.trans owner.symm⟩
  · rintro ⟨rfl, same⟩
    rw [a.binding?_eq_owner kept', same, ← a.binding?_eq_owner kept, found]

section Assignments

variable {b : Nat} {old : Value}

/-- Another value in a pair that binds a symbol leaves every nearest binding where it is. -/
theorem Charted.binding?_put (a : h.Charted c) (station : (c b).station = .binding e)
    (found : h.object? (.slot b) = some (.pair symbol old)) (kept : env.IsKept h)
    (value other : Value) :
    env.binding? (h.put b (.pair symbol value)) other = env.binding? h other := by
  have frame (f : Env) (keptF : f.IsKept h) :
      (h.put b (.pair symbol value)).frame? f.value = h.frame? f.value := by
    rcases a.lists_of_isKept keptF with ⟨k, name, isFrame, _⟩
    unfold frame?
    rw [name, object?_put_ne]
    rintro ⟨⟩
    rw [isFrame] at station
    cases station
  have spine : ∀ k e', h.Reachable k → (c k).station = .spine e' →
      (h.put b (.pair symbol value)).object? (.slot k) = h.object? (.slot k) := by
    intro k e' _ isSpine
    refine object?_put_ne ?_
    rintro ⟨⟩
    rw [isSpine] at station
    cases station
  have cars : ∀ k e', h.Reachable k → (c k).station = .binding e' →
      (h.put b (.pair symbol value)).car? (.slot k) = h.car? (.slot k) := by
    intro k e' _ _
    unfold car? pair?
    by_cases same : k = b
    · subst same
      rw [object?_put_self (occupied_of_object? found), found]
      rfl
    · rw [object?_put_ne (by simpa using same)]
  refine a.binding?_congr kept (fun f keptF => ?_) fun f keptF => ?_
  · unfold Env.parent?
    rw [frame f keptF]
  · refine a.ownBinding?_congr keptF ?_ spine cars other
    unfold Env.bindings
    rw [frame f keptF]

theorem cdr?_put (found : h.object? (.slot b) = some (.pair symbol old)) (value w : Value) :
    (h.put b (.pair symbol value)).cdr? w = if w = .slot b then some value else h.cdr? w := by
  by_cases same : w = .slot b
  · rw [if_pos same, same, cdr?, pair?, object?_put_self (occupied_of_object? found)]
    rfl
  · rw [if_neg same, cdr?, cdr?, pair?, pair?, object?_put_ne same]

end Assignments

/-! ## What lookups give -/

theorem lookup_of_cdr (found : env.binding? h symbol = some v) {value : Value}
    (cdr : h.cdr? v = some value) : env.lookup h symbol = .ok value := by
  rw [Env.lookup, found, Option.bind_some, cdr]

/-- A symbol that is not bound is not bound under the same name. -/
theorem lookup_congr {name : String} (before : h.object? symbol = some (.symbol name))
    (after : h'.object? symbol = some (.symbol name))
    (binding : env.binding? h' symbol = env.binding? h symbol)
    (cdr : ∀ b, env.binding? h symbol = some b → h'.cdr? b = h.cdr? b) :
    env.lookup h' symbol = env.lookup h symbol := by
  have unbound : Env.unbound h' symbol = Env.unbound h symbol := by
    simp [Env.unbound, symbolName?, before, after]
  unfold Env.lookup
  rw [binding, unbound]
  cases found : env.binding? h symbol with
  | none => rfl
  | some b => rw [Option.bind_some, Option.bind_some, cdr b found]

/-- A lookup after a definition. -/
theorem Defines.lookup_eq {b s : Nat} {value other : Value}
    (d : h.Defines e b s symbol value h') (a : h.Charted c) (f : h.Framed) (kept : env.IsKept h)
    (isSymbol : h.isSymbol other = true) :
    env.lookup h' other =
      if other = symbol ∧ env.Sees h symbol ⟨.slot e⟩ then .ok value else env.lookup h other := by
  have binding := d.binding?_eq a kept other
  rcases d.frame with ⟨bindings, parent, before, -⟩
  split
  · next sees =>
    rw [if_pos sees] at binding
    refine lookup_of_cdr binding ?_
    rw [cdr?, pair?_eq_some_iff.2 d.binding]
    rfl
  · next sees =>
    rw [if_neg sees] at binding
    rcases symbol_reachable f.interned isSymbol with ⟨i, name, rfl, found, reached⟩
    have different {k : Nat} {o : Object} (found : h.object? (.slot k) = some o)
        (other : o.kind ≠ .environment) : k ≠ e := by
      rintro rfl
      rw [before] at found
      cases found
      exact other rfl
    have still := d.object?_eq reached (different found (by simp [Object.kind]))
    refine lookup_congr found (still.trans found) binding fun w isBinding => ?_
    rcases a.binding_cases kept isBinding with ⟨k, e', rfl, -, binds, reachedK, -⟩
    rcases occupied_iff.1 reachedK.occupied with ⟨o, foundK⟩
    rcases a.binding binds foundK with ⟨car, cdr, rfl⟩
    rw [cdr?, cdr?, pair?, pair?,
      d.object?_eq reachedK (different foundK (by simp [Object.kind]))]

/-- A definition that succeeds in an environment that is kept has defined. -/
theorem Charted.defines_of_ok (a : h.Charted c) (kept : env.IsKept h) {value : Value}
    (done : env.define symbol value h = .ok () h') :
    ∃ e b s, env = ⟨.slot e⟩ ∧ h.Defines e b s symbol value h' := by
  have defining := a.define env symbol value
  rw [done] at defining
  cases defining with
  | done name _ defines => exact ⟨_, _, _, congrArg Env.mk name, defines⟩
  | lost _ obtains other =>
      rcases kept with ⟨⟨bindings, parent, found⟩, i, name, reached⟩
      have same : h.Obtains [] (h.addRoot env.value) := .ofSame (object?_addRoot h _)
      have still := obtains.kept i (same.reachable (.addRoot h _) reached)
      rw [object?_addRoot, ← name, found] at still
      exact absurd still (other bindings parent)

/-- The nearest binding has a value. -/
theorem Charted.lookup_of_binding (a : h.Charted c) (kept : env.IsKept h)
    (found : env.binding? h symbol = some v) :
    ∃ b e value, v = .slot b ∧ (c b).station = .binding e ∧
      h.object? (.slot b) = some (.pair symbol value) ∧ env.lookup h symbol = .ok value := by
  rcases a.binding_cases kept found with ⟨b, e, rfl, -, binds, reached, car⟩
  rcases occupied_iff.1 reached.occupied with ⟨o, object⟩
  rcases a.binding binds object with ⟨symbol', value, rfl⟩
  have pair := pair?_eq_some_iff.2 object
  rw [car?, pair] at car
  cases car
  refine ⟨b, e, value, rfl, binds, object, lookup_of_cdr found ?_⟩
  rw [cdr?, pair]
  rfl

/-- A lookup after an assignment. -/
theorem Charted.lookup_set (a : h.Charted c) (f : h.Framed) {env' : Env} {other value : Value}
    (kept : env.IsKept h) (kept' : env'.IsKept h) (isSymbol : h.isSymbol other = true)
    (done : env.set symbol value h = .ok (.ok ()) h') :
    env'.lookup h' other =
      if other = symbol ∧ env'.owner? h symbol = env.owner? h symbol then .ok value
      else env'.lookup h other := by
  rcases env.set_cases symbol value h with ⟨binding, found, step⟩ | ⟨_, step⟩
  · cases step.symm.trans done
    rcases a.lookup_of_binding kept found with ⟨b, e, old, rfl, station, object, -⟩
    have put : h.setCdr (.slot b) value = h.put b (.pair symbol value) := by
      rcases setCdr_cases h (.slot b) value with ⟨i, car, cdr, same, pair, eq⟩ | ⟨none, _⟩
      · cases same
        rw [object] at pair
        cases pair
        exact eq
      · exact absurd object (none _ _)
    rw [put]
    have binding := a.binding?_put station object kept' value other
    have isNearest := a.binding?_eq_iff kept kept' found other
    have cdr := cdr?_put object value
    split
    · next same =>
      have nearest := isNearest.2 ⟨same.1, same.1 ▸ same.2⟩
      exact lookup_of_cdr (binding.trans nearest) ((cdr _).trans (if_pos rfl))
    · next differs =>
      rcases symbol_reachable f.interned isSymbol with ⟨i, name, rfl, named, -⟩
      refine lookup_congr named ?_ binding fun w isBinding => (cdr w).trans (if_neg ?_)
      · refine (object?_put_ne ?_).trans named
        intro same
        rw [same, object] at named
        cases named
      · rintro rfl
        have both := isNearest.1 isBinding
        exact differs ⟨both.1, both.1 ▸ both.2⟩
  · cases step.symm.trans done

end Heap

/--
Whatever has been done to a heap, after a definition in `e` a symbol means the new value wherever it
is looked up in `e` before it is found, and after an assignment from `e` wherever its nearest
binding is the one seen from `e`. Otherwise it means what it did. An assignment fails just when the
lookup does, and changes nothing then.
-/
theorem lookups_after_definition_and_assignment {h : Heap} (worked : Worked h) {e e' : Env}
    (kept : e.IsKept h) (kept' : e'.IsKept h) {s s' : Value} (isSymbol : h.isSymbol s' = true)
    (v : Value) :
    (∀ h', e.define s v h = .ok () h' →
      e'.lookup h' s' = if s' = s ∧ e'.Sees h s e then .ok v else e'.lookup h s') ∧
    (∀ h', e.set s v h = .ok (.ok ()) h' →
      e'.lookup h' s' =
        if s' = s ∧ e'.owner? h s = e.owner? h s then .ok v else e'.lookup h s') ∧
    (∀ error h', e.set s v h = .ok (.error error) h' ↔ e.lookup h s = .error error ∧ h' = h) ∧
    ∀ value, e.lookup h s = .ok value → ∃ h', e.set s v h = .ok (.ok ()) h' := by
  have framed := Heap.framed_of_worked worked
  rcases framed.charted with ⟨c, a⟩
  refine ⟨fun h' done => ?_, fun h' done => a.lookup_set framed kept kept' isSymbol done, ?_⟩
  · rcases a.defines_of_ok kept done with ⟨i, b, t, rfl, defines⟩
    exact defines.lookup_eq a framed kept' isSymbol
  · rcases e.set_cases s v h with ⟨binding, found, step⟩ | ⟨none, step⟩
    · rcases a.lookup_of_binding kept found with ⟨_, _, value, -, -, -, bound⟩
      rw [step, bound]
      exact ⟨fun error h' => ⟨nofun, nofun⟩, fun _ _ => ⟨_, rfl⟩⟩
    · have unbound : e.lookup h s = .error (Env.unbound h s) := by rw [Env.lookup, none]; rfl
      rw [step, unbound]
      refine ⟨fun error h' => ⟨fun same => ?_, ?_⟩, nofun⟩
      · cases same
        exact ⟨rfl, rfl⟩
      · rintro ⟨⟨⟩, rfl⟩
        rfl

/-- A fresh heap with one more environment, which is rooted, inside the root environment. -/
def Heap.inner : Heap := (heapAfter (HeapM.child ⟨.slot 0⟩) (.empty 8)).addRoot (.slot 2)

/-- What has been defined in the root environment is seen from inside. -/
theorem lookup_after_definition_inner :
    (Env.mk (.slot 2)).lookup
      (heapAfter ((Env.mk (.slot 0)).define (.slot 1) (.slot 2)) .inner) (.slot 1) =
        .ok (.slot 2) := by
  have worked : Worked .inner :=
    .root _ (.service (.build (.child ⟨.slot 0⟩) rfl) (.empty 8) fun env member => by
      cases List.mem_singleton.1 member
      rfl)
  have kept : (Env.mk (.slot 0)).IsKept .inner :=
    ⟨⟨.nil, none, rfl⟩, 0, rfl, .start .environment rfl⟩
  have kept' : (Env.mk (.slot 2)).IsKept .inner :=
    ⟨⟨.nil, some ⟨.slot 0⟩, rfl⟩, 2, rfl, .start (.stack List.mem_cons_self) rfl⟩
  have done : (Env.mk (.slot 0)).define (.slot 1) (.slot 2) .inner =
    .ok () (heapAfter ((Env.mk (.slot 0)).define (.slot 1) (.slot 2)) .inner) := rfl
  have isSymbol : Heap.inner.isSymbol (.slot 1) = true := rfl
  rw [(lookups_after_definition_and_assignment worked kept kept' isSymbol (.slot 2)).1 _ done]
  decide +kernel

end Lisplet
