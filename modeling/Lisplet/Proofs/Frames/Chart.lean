import Lisplet.Proofs.Termination.Layout

/-!
# Chart — which slots belong to which environment

An environment owns the pairs of which its bindings consist: those of the spine, and those that
bind a symbol. A `Chart` says of every slot whether it is one of these and to which environment it
belongs, and `Charted` that the heap is as the chart says. So a pair belongs to one environment
only, none is of the spine and binds a symbol as well, and spines and the ways outwards come to an
end. A chart says nothing about data, which may refer to anything, slots that have been reclaimed
included; that is why a heap stays charted whatever handles an operation is given.
-/

namespace Lisplet

/-- What a slot is to the environments of a heap. -/
inductive Station where
  /-- Nothing but data, which may still refer to anything. -/
  | data
  | frame
  /-- A pair of the list of bindings of the environment in the slot `owner`. -/
  | spine (owner : Nat)
  /-- A pair that binds a symbol in the environment in the slot `owner`. -/
  | binding (owner : Nat)
  deriving DecidableEq

/-- The station of a slot, and a rank that goes down along a spine and outwards. -/
structure Post where
  station : Station
  rank : Nat

/-- What each slot of a heap is to its environments. -/
abbrev Chart := Nat → Post

namespace Chart

/-- A list of bindings of the environment in the slot `e`. -/
inductive Lists (c : Chart) (h : Heap) (e : Nat) : Value → Prop
  | nil : Lists c h e .nil
  | slot {i : Nat} : (c i).station = .spine e → h.Occupied i → Lists c h e (.slot i)

/-- What a slot of some station may hold. -/
inductive Fits (c : Chart) (h : Heap) (i : Nat) : Object → Prop
  | data {o : Object} : (c i).station = .data → o.kind ≠ .environment → Fits c h i o
  | outermost {bindings : Value} : (c i).station = .frame → Lists c h i bindings →
      Fits c h i (.environment bindings none)
  | inner {bindings : Value} {k : Nat} : (c i).station = .frame → Lists c h i bindings →
      (c k).station = .frame → h.Occupied k → (c k).rank < (c i).rank →
        Fits c h i (.environment bindings (some ⟨.slot k⟩))
  | spine {e b : Nat} {rest : Value} : (c i).station = .spine e → (c b).station = .binding e →
      h.Occupied b → Lists c h e rest → (∀ k, rest = .slot k → (c k).rank < (c i).rank) →
        Fits c h i (.pair (.slot b) rest)
  | binding {e : Nat} {symbol value : Value} : (c i).station = .binding e →
      Fits c h i (.pair symbol value)

section Fitting

variable {c c' : Chart} {h h' : Heap} {e i : Nat} {v : Value} {o : Object}

theorem Lists.congr (same : ∀ k, v = .slot k → h.Occupied k → (c k).station ≠ .data →
    c' k = c k ∧ h'.Occupied k) (lists : Lists c h e v) : Lists c' h' e v := by
  cases lists with
  | nil => exact .nil
  | slot station occupied =>
      rcases same _ rfl occupied (by simp [station]) with ⟨post, occupied'⟩
      exact .slot (post ▸ station) occupied'

/-- What a slot may hold depends on its own post and on those of the slots it refers to. -/
theorem Fits.congr (self : c' i = c i)
    (others : ∀ k, .slot k ∈ o.references → h.Occupied k → (c k).station ≠ .data →
      c' k = c k ∧ h'.Occupied k) (fits : Fits c h i o) : Fits c' h' i o := by
  cases fits with
  | data station other => exact .data (self ▸ station) other
  | outermost station lists =>
      refine .outermost (self ▸ station) (lists.congr fun k same => others k ?_)
      simp [Object.references, same]
  | inner station lists frame occupied lower =>
      rcases others _ (by simp [Object.references]) occupied (by simp [frame]) with
        ⟨post, occupied'⟩
      refine .inner (self ▸ station) (lists.congr fun k same => others k ?_) (post ▸ frame)
        occupied' (by rw [self, post]; exact lower)
      simp [Object.references, same]
  | @spine e b rest station binds occupied lists lower =>
      rcases others b (by simp [Object.references]) occupied (by simp [binds]) with
        ⟨post, occupied'⟩
      have later : ∀ k, rest = .slot k → h.Occupied k → (c k).station ≠ .data →
          c' k = c k ∧ h'.Occupied k := fun k same => others k (by simp [Object.references, same])
      refine .spine (self ▸ station) (post ▸ binds) occupied' (lists.congr later) fun k same => ?_
      cases lists with
      | nil => cases same
      | slot isSpine isOccupied =>
          cases same
          rw [self, (later _ rfl isOccupied (by simp [isSpine])).1]
          exact lower _ rfl
  | binding station => exact .binding (self ▸ station)

end Fitting

end Chart

open Chart

/-- A heap whose environments own what the chart says. -/
structure Heap.Charted (c : Chart) (h : Heap) : Prop extends Heap.Tidy h where
  fits : ∀ i o, h.object? (.slot i) = some o → Fits c h i o

namespace Heap.Charted

variable {c : Chart} {h h' : Heap} {e i k : Nat} {v : Value} {o : Object}

/-! ## Reading a chart -/

/-- An environment is charted as one, and so are its bindings and its parent. -/
theorem frame (a : h.Charted c) {bindings : Value} {parent : Option Env}
    (found : h.object? (.slot e) = some (.environment bindings parent)) :
    (c e).station = .frame ∧ Lists c h e bindings ∧
      ∀ p, parent = some p → ∃ k, p = ⟨.slot k⟩ ∧ (c k).station = .frame ∧ h.Occupied k ∧
        (c k).rank < (c e).rank := by
  cases a.fits e _ found with
  | data _ other => exact absurd rfl other
  | outermost station lists => exact ⟨station, lists, nofun⟩
  | inner station lists frame occupied lower =>
      refine ⟨station, lists, ?_⟩
      rintro _ ⟨⟩
      exact ⟨_, rfl, frame, occupied, lower⟩

/-- What is charted as an environment is one. -/
theorem exists_environment (a : h.Charted c) (station : (c i).station = .frame)
    (occupied : h.Occupied i) :
    ∃ bindings parent, h.object? (.slot i) = some (.environment bindings parent) := by
  rcases occupied_iff.1 occupied with ⟨o, found⟩
  cases a.fits i o found with
  | outermost _ _ => exact ⟨_, _, found⟩
  | inner _ _ _ _ _ => exact ⟨_, _, found⟩
  | data other _ => simp [station] at other
  | spine other _ _ _ _ => simp [station] at other
  | binding other => simp [station] at other

/-- What is charted as a pair of a spine is one. -/
theorem spine (a : h.Charted c) (station : (c i).station = .spine e)
    (found : h.object? (.slot i) = some o) :
    ∃ b rest, o = .pair (.slot b) rest ∧ (c b).station = .binding e ∧ h.Occupied b ∧
      Lists c h e rest ∧ ∀ k, rest = .slot k → (c k).rank < (c i).rank := by
  cases a.fits i o found with
  | spine own binds occupied lists lower =>
      rw [station] at own
      cases own
      exact ⟨_, _, rfl, binds, occupied, lists, lower⟩
  | data other _ => simp [station] at other
  | outermost other _ => simp [station] at other
  | inner other _ _ _ _ => simp [station] at other
  | binding other => simp [station] at other

/-- What is charted as binding a symbol is a pair. -/
theorem binding (a : h.Charted c) (station : (c i).station = .binding e)
    (found : h.object? (.slot i) = some o) : ∃ symbol value, o = .pair symbol value := by
  cases a.fits i o found with
  | binding _ => exact ⟨_, _, rfl⟩
  | spine _ _ _ _ _ => exact ⟨_, _, rfl⟩
  | data other _ => simp [station] at other
  | outermost other _ => simp [station] at other
  | inner other _ _ _ _ => simp [station] at other

/-- A walk along bindings stays with the bindings of one environment. -/
theorem lists_of_onFrame (a : h.Charted c) (on : h.OnFrame v) : ∃ e, Lists c h e v := by
  induction on with
  | @bindings env bindings parent found =>
      cases env with
      | nil => cases found
      | slot e => exact ⟨e, (a.frame found).2.1⟩
  | rest _ found ih =>
      rcases ih with ⟨e, lists⟩
      cases lists with
      | nil => cases found
      | slot station _ =>
          rcases a.spine station found with ⟨b, rest, same, _, _, lists, _⟩
          cases same
          exact ⟨e, lists⟩

theorem exists_of_isBinding (a : h.Charted c) (binds : h.IsBinding v) :
    ∃ b e, v = .slot b ∧ (c b).station = .binding e ∧ h.Occupied b := by
  rcases binds with ⟨list, rest, on, found⟩
  rcases a.lists_of_onFrame on with ⟨e, lists⟩
  cases lists with
  | nil => cases found
  | slot station _ =>
      rcases a.spine station found with ⟨b, rest, same, binds, occupied, _, _⟩
      cases same
      exact ⟨b, e, rfl, binds, occupied⟩

/-- No pair of a spine binds a symbol. -/
theorem not_isBinding_of_onFrame (a : h.Charted c) (on : h.OnFrame v) : ¬ h.IsBinding v := by
  intro binds
  rcases a.exists_of_isBinding binds with ⟨b, e, rfl, binds, _⟩
  rcases a.lists_of_onFrame on with ⟨e', lists⟩
  cases lists with
  | slot station _ =>
      rw [station] at binds
      cases binds

/-- What binds a symbol is a pair. -/
theorem pair_of_isBinding (a : h.Charted c) (binds : h.IsBinding v)
    (found : h.object? v = some o) : ∃ symbol value, o = .pair symbol value := by
  rcases a.exists_of_isBinding binds with ⟨b, e, rfl, station, _⟩
  exact a.binding station found

/-! ## Spines and chains -/

/-- A list of bindings comes to an end in nil, and all its elements are of one environment. -/
theorem exists_spine (a : h.Charted c) (lists : Lists c h e v) :
    ∃ items, h.Spine v items .nil ∧
      ∀ b ∈ items, ∃ k, b = .slot k ∧ (c k).station = .binding e ∧ h.Occupied k := by
  cases lists with
  | nil => exact ⟨[], .done rfl, nofun⟩
  | @slot i station occupied =>
      -- The rank goes down along the spine.
      induction next : (c i).rank using Nat.strongRecOn generalizing i with
      | ind n ih =>
          rcases occupied_iff.1 occupied with ⟨o, found⟩
          rcases a.spine station found with ⟨b, rest, rfl, binds, occupiedB, lists, lower⟩
          have goes := pair?_eq_some_iff.2 found
          have here : ∃ k, Value.slot b = .slot k ∧ (c k).station = .binding e ∧ h.Occupied k :=
            ⟨b, rfl, binds, occupiedB⟩
          cases lists with
          | nil => exact ⟨[.slot b], .step goes (.done rfl), List.forall_mem_singleton.2 here⟩
          | @slot k station' occupied' =>
              rcases ih _ (next ▸ lower k rfl) station' occupied' rfl with ⟨items, walk, all⟩
              exact ⟨.slot b :: items, .step goes walk, List.forall_mem_cons.2 ⟨here, all⟩⟩

/-- The way outwards from an environment comes to an end, through environments only. -/
theorem exists_chain (a : h.Charted c) (station : (c i).station = .frame)
    (occupied : h.Occupied i) :
    ∃ envs, h.Chain ⟨.slot i⟩ envs ∧
      ∀ env ∈ envs, ∃ k, env = ⟨.slot k⟩ ∧ (c k).station = .frame ∧ h.Occupied k := by
  -- The rank goes down outwards.
  induction next : (c i).rank using Nat.strongRecOn generalizing i with
  | ind n ih =>
      rcases a.exists_environment station occupied with ⟨bindings, parent, found⟩
      have here : ∃ k, (⟨.slot i⟩ : Env) = ⟨.slot k⟩ ∧ (c k).station = .frame ∧ h.Occupied k :=
        ⟨i, rfl, station, occupied⟩
      have goes : (⟨.slot i⟩ : Env).parent? h = parent := Env.parent?_eq found
      cases parent with
      | none => exact ⟨_, .outermost goes, List.forall_mem_singleton.2 here⟩
      | some p =>
          rcases (a.frame found).2.2 p rfl with ⟨k, rfl, station', occupied', lower⟩
          rcases ih _ (next ▸ lower) station' occupied' rfl with ⟨envs, chain, all⟩
          exact ⟨_, .inner goes chain, List.forall_mem_cons.2 ⟨here, all⟩⟩

/-! ## Changes -/

/-- A chart is about the arena only. -/
theorem transfer (a : h.Charted c) (slots : h'.slots = h.slots) (free : h'.free = h.free) :
    h'.Charted c := by
  have same : ∀ v, h'.object? v = h.object? v := by
    intro v
    cases v with
    | nil => rfl
    | slot i => rw [object?_slot, object?_slot, slots]
  have occupied : ∀ k, h'.Occupied k ↔ h.Occupied k := by
    intro k
    unfold Occupied
    rw [same]
  refine ⟨⟨free ▸ a.free_nodup, fun i member => ?_, fun slot member => ?_⟩, fun i o found => ?_⟩
  · rw [slots, occupied]
    exact a.free_empty i (free ▸ member)
  · exact a.marksClear slot (slots ▸ member)
  · refine (a.fits i o ((same _).symm.trans found)).congr rfl fun k _ before _ => ⟨rfl, ?_⟩
    exact (occupied k).2 before

theorem addRoot (a : h.Charted c) (v : Value) : (h.addRoot v).Charted c := by
  unfold Heap.addRoot
  split
  · exact a
  · exact a.transfer rfl rfl

/-- What is kept keeps what it refers to. -/
theorem collect (a : h.Charted c) : h.collect.1.Charted c := by
  have clear := a.marksClear
  refine ⟨a.toTidy.collect, fun i o found => ?_⟩
  have kept := (occupied_collect_iff clear i).1 (occupied_of_object? found)
  rw [object?_collect_of_reachable clear kept.2] at found
  refine (a.fits i o found).congr rfl fun k member occupied _ => ⟨rfl, ?_⟩
  exact (occupied_collect_iff clear k).2 ⟨occupied, .reference kept.2 found member occupied⟩

/-- A new object takes up a post of its own; nothing charted refers to its slot yet. -/
theorem place (a : h.Charted c) (p : h.Places i o h') (tidy : h'.Tidy) {post : Post}
    (fits : Fits (Function.update c i post) h' i o) :
    h'.Charted (Function.update c i post) := by
  refine ⟨tidy, fun j x found => ?_⟩
  by_cases same : j = i
  · subst same
    rw [p.object?_new] at found
    cases found
    exact fits
  · rw [p.object?_eq, if_neg (by simpa using same)] at found
    refine (a.fits j x found).congr (Function.update_of_ne same _ _) fun k _ occupied _ => ?_
    have other : k ≠ i := by
      rintro rfl
      exact p.fresh occupied
    exact ⟨Function.update_of_ne other _ _, p.occupied_iff.2 (.inr occupied)⟩

/-- Data may be given another post, if its object fits there. -/
theorem relabel (a : h.Charted c) (isData : (c i).station = .data) {post : Post}
    (found : h.object? (.slot i) = some o) (fits : Fits (Function.update c i post) h i o) :
    h.Charted (Function.update c i post) := by
  refine ⟨a.toTidy, fun j x foundJ => ?_⟩
  by_cases same : j = i
  · subst same
    rw [found] at foundJ
    cases foundJ
    exact fits
  · refine (a.fits j x foundJ).congr (Function.update_of_ne same _ _) fun k _ occupied other => ?_
    refine ⟨Function.update_of_ne ?_ _ _, occupied⟩
    rintro rfl
    exact other isData

/-- An object may be replaced by another that fits into its slot. -/
theorem put (a : h.Charted c) (occupied : h.Occupied i) (fits : Fits c h i o) :
    (h.put i o).Charted c := by
  refine ⟨a.toTidy.put o occupied, fun j x found => ?_⟩
  have stays : ∀ {j x}, Fits c h j x → Fits c (h.put i o) j x := fun fits =>
    fits.congr rfl fun k _ occupiedK _ => ⟨rfl, (occupied_put_iff occupied k).2 occupiedK⟩
  rw [object?_put_of_occupied occupied] at found
  split at found
  · next same =>
    subst same
    cases found
    exact stays fits
  · exact stays (a.fits j x found)

end Heap.Charted

end Lisplet
