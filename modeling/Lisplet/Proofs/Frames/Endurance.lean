import Lisplet.Proofs.Conduct.Language
import Lisplet.Proofs.Frames.Definition

/-!
# Endurance — what no operation of the language changes

Take what can be reached from the roots without the values of variables, that is, without passing
through the cdr of a pair that binds a symbol. Whatever an operation does, all of it stays in its
slot and as it is, but for two things: an environment may get new bindings in front of those it
has, and a pair that binds a symbol may get another value. `Heap.conduct_treats` says so of all
operations of the language, on heaps whose frames are as they should be (`Heap.Framed`), which they
then still are.
-/

namespace Lisplet

open Chart
open Heap.Operation (heapAfter)

namespace Heap

/-! ## What endures -/

/--
A slot that can be reached from the roots without passing through the cdr of a pair that binds a
symbol.
-/
inductive Sheltered (h : Heap) : Nat → Prop where
  | root {i : Nat} : h.IsRoot (.slot i) → h.Occupied i → Sheltered h i
  | reference {i j : Nat} {o : Object} : Sheltered h i → h.object? (.slot i) = some o →
      ¬ h.IsBinding (.slot i) → .slot j ∈ o.references → h.Occupied j → Sheltered h j
  | symbol {i j : Nat} {cdr : Value} : Sheltered h i →
      h.object? (.slot i) = some (.pair (.slot j) cdr) → h.Occupied j → Sheltered h j

/-- The list from `v` on has `tail` as one of its tails. -/
inductive EndsIn (h : Heap) (tail : Value) : Value → Prop where
  | here : EndsIn h tail tail
  | later {v car cdr : Value} : h.object? v = some (.pair car cdr) → EndsIn h tail cdr →
      EndsIn h tail v

/-- What may have become of the object in the slot `i` of `h`. -/
inductive Renews (h h' : Heap) (i : Nat) : Object → Prop where
  | same {o : Object} : h'.object? (.slot i) = some o → Renews h h' i o
  | bindings {bindings bindings' : Value} {parent : Option Env} :
      h'.object? (.slot i) = some (.environment bindings' parent) → h'.EndsIn bindings bindings' →
        Renews h h' i (.environment bindings parent)
  | value {symbol value value' : Value} : h.IsBinding (.slot i) →
      h'.object? (.slot i) = some (.pair symbol value') → Renews h h' i (.pair symbol value)

/-- What is sheltered in `h` endures in `h'`, and no more of it binds symbols. -/
structure Endures (h h' : Heap) : Prop where
  renews : ∀ i o, h.Sheltered i → h.object? (.slot i) = some o → h.Renews h' i o
  unbound : ∀ i, h.Sheltered i → h'.IsBinding (.slot i) → h.IsBinding (.slot i)

/-- A heap with a chart of its frames, in which every symbol is interned. -/
structure Framed (h : Heap) : Prop where
  charted : ∃ c, h.Charted c
  interned : ∀ i (name : String), h.object? (.slot i) = some (.symbol name) →
    h.symbols[name]? = some (.slot i)

variable {c : Chart} {h h' h'' : Heap} {new : List Nat} {i j : Nat} {v tail : Value} {o : Object}

theorem Sheltered.reachable (s : h.Sheltered i) : h.Reachable i := by
  induction s with
  | root root occupied => exact .start root occupied
  | reference _ found _ member occupied ih => exact .reference ih found member occupied
  | symbol _ found occupied ih =>
      exact .reference ih found (by simp [Object.references]) occupied

theorem EndsIn.trans {tail' : Value} (e : h.EndsIn tail' tail) (e' : h.EndsIn tail v) :
    h.EndsIn tail' v := by
  induction e' with
  | here => exact e
  | later found _ ih => exact .later found ih

theorem Renews.occupied (r : h.Renews h' i o) : h'.Occupied i := by
  cases r with
  | same found => exact occupied_of_object? found
  | bindings found _ => exact occupied_of_object? found
  | value _ found => exact occupied_of_object? found

theorem Settles.framed (s : h.Settles h') (f : h.Framed) : h'.Framed := by
  refine ⟨s.charted, fun i name found => s.roots.symbols_extend _ _ ?_⟩
  exact f.interned i name (s.named i name found)

/-- Along the spine of an environment every tail is sheltered with the list. -/
theorem Charted.sheltered_of_endsIn (a : h.Charted c) (ends : h.EndsIn tail v) (on : h.OnFrame v)
    (sheltered : ∀ k, v = .slot k → h.Sheltered k) (same : tail = .slot j) : h.Sheltered j := by
  induction ends with
  | here => exact sheltered j same
  | @later v car cdr found _ ih =>
      cases v with
      | nil => cases found
      | slot k =>
          refine ih (.rest on found) fun m isSlot => ?_
          subst isSlot
          rcases a.lists_of_onFrame (.rest on found) with ⟨e, lists⟩
          cases lists with
          | slot _ occupied =>
              exact .reference (sheltered k rfl) found (a.not_isBinding_of_onFrame on)
                (by simp [Object.references]) occupied

namespace Endures

/-- What is sheltered stays so. -/
theorem sheltered (e : h.Endures h') (roots : h.KeepsRoots h') (a : h'.Charted c)
    (s : h.Sheltered i) : h'.Sheltered i := by
  have occupied {k : Nat} (s : h.Sheltered k) : h'.Occupied k := by
    rcases occupied_iff.1 s.reachable.occupied with ⟨o, found⟩
    exact (e.renews k o s found).occupied
  induction s with
  | root root before => exact .root (roots.isRoot root) (occupied (.root root before))
  | @reference i j o before found other member isOccupied ih =>
      have here := occupied (.reference before found other member isOccupied)
      have other' : ¬ h'.IsBinding (.slot i) := fun binds => other (e.unbound i before binds)
      cases e.renews i o before found with
      | same found' => exact .reference ih found' other' member here
      | value binds _ => exact absurd binds other
      | @bindings bindings bindings' parent found' ends =>
          -- The parent is the same, and the older bindings are behind the new ones.
          rcases Object.mem_references_environment_iff.1 member with same | ⟨p, rfl, same⟩
          · refine a.sheltered_of_endsIn ends (.bindings found') (fun k isSlot => ?_) same.symm
            subst isSlot
            cases (a.frame found').2.1 with
            | slot _ occupied =>
                exact .reference ih found' other' (Object.bindings_mem_references _ _) occupied
          · exact .reference ih found' other' (by simp [Object.references, same]) here
  | @symbol i j cdr before found isOccupied ih =>
      have here := occupied (.symbol before found isOccupied)
      cases e.renews i _ before found with
      | same found' => exact .symbol ih found' here
      | value _ found' => exact .symbol ih found' here

/-- New bindings stay in front of the older ones while they become older themselves. -/
theorem endsIn (e : h.Endures h') (a : h.Charted c) (ends : h.EndsIn tail v) (on : h.OnFrame v)
    (sheltered : ∀ k, v = .slot k → h.Sheltered k) : h'.EndsIn tail v := by
  induction ends with
  | here => exact .here
  | @later v car cdr found _ ih =>
      cases v with
      | nil => cases found
      | slot k =>
          have notBinding := a.not_isBinding_of_onFrame on
          have kept : h'.object? (.slot k) = some (.pair car cdr) := by
            cases e.renews k _ (sheltered k rfl) found with
            | same found' => exact found'
            | value binds _ => exact absurd binds notBinding
          refine .later kept (ih (.rest on found) fun m isSlot => ?_)
          subst isSlot
          exact a.sheltered_of_endsIn (.later found .here) on sheltered rfl

theorem trans (e : h.Endures h') (e' : h'.Endures h'') (roots : h.KeepsRoots h')
    (a : h'.Charted c) : h.Endures h'' := by
  refine ⟨fun i o s found => ?_, fun i s binds => ?_⟩
  · have s' := e.sheltered roots a s
    cases e.renews i o s found with
    | same found' =>
        cases e'.renews i o s' found' with
        | same found'' => exact .same found''
        | bindings found'' ends => exact .bindings found'' ends
        | value binds found'' => exact .value (e.unbound i s binds) found''
    | value binds found' =>
        cases e'.renews i _ s' found' with
        | same found'' => exact .value binds found''
        | value _ found'' => exact .value binds found''
    | @bindings bindings bindings' parent found' ends =>
        have ends' : h''.EndsIn bindings bindings' := by
          refine e'.endsIn a ends (.bindings found') fun k isSlot => ?_
          subst isSlot
          cases (a.frame found').2.1 with
          | slot _ occupied =>
              refine .reference s' found' (fun binds => ?_)
                (Object.bindings_mem_references _ _) occupied
              rcases a.pair_of_isBinding binds found' with ⟨_, _, same⟩
              cases same
        cases e'.renews i _ s' found' with
        | same found'' => exact .bindings found'' ends'
        | bindings found'' ends'' => exact .bindings found'' (ends'.trans ends'')
  · exact e.unbound i s (e'.unbound i (e.sheltered roots a s) binds)

theorem ofObtains (g : h.Obtains new h') : h.Endures h' :=
  ⟨fun i _ s found => .same ((g.kept i s.reachable).trans found),
    fun _ _ binds => g.unbound _ binds⟩

theorem ofSame (same : ∀ v, h'.object? v = h.object? v) : h.Endures h' := ofObtains (.ofSame same)

end Endures

/-! ## Bindings that are found -/

/-- What is found along the bindings of an environment binds a symbol. -/
theorem OnFrame.isBinding_of_findUpTo? {condition : Value → Bool} {steps : Nat} {b : Value}
    (on : h.OnFrame v) (found : h.findUpTo? condition steps v = some b) : h.IsBinding b := by
  induction steps generalizing v with
  | zero => cases found
  | succ steps ih =>
      unfold findUpTo? at found
      split at found
      · next car cdr goes =>
        have pair := pair?_eq_some_iff.1 goes
        split at found
        · cases found
          exact ⟨v, cdr, on, pair⟩
        · exact ih (.rest on pair) found
      · cases found

theorem isBinding_of_ownBinding? {env : Env} {symbol b : Value}
    (found : env.ownBinding? h symbol = some b) : h.IsBinding b := by
  unfold Env.ownBinding? find? Env.bindings at found
  split at found
  · next bindings parent frame =>
    have object := frame?_eq_some_iff.1 frame
    exact OnFrame.isBinding_of_findUpTo? (.bindings object) found
  · generalize h.slots.size = steps at found
    cases steps with
    | zero => cases found
    | succ steps => cases found

theorem isBinding_of_binding? {env : Env} {symbol b : Value}
    (found : env.binding? h symbol = some b) : h.IsBinding b := by
  have within : ∀ {steps : Nat} {env : Env}, env.bindingWithin? h symbol steps = some b →
      h.IsBinding b := by
    intro steps
    induction steps with
    | zero => exact fun found => isBinding_of_ownBinding? found
    | succ steps ih =>
        intro env found
        unfold Env.bindingWithin? at found
        split at found
        · next own =>
          cases found
          exact isBinding_of_ownBinding? own
        · split at found
          · exact ih found
          · cases found
  exact within found

/-! ## Elementary operations -/

/-- What every operation does to a heap with a chart of its frames. -/
structure Respects (h h' : Heap) : Prop where
  framed : h'.Framed
  roots : h.KeepsRoots h'
  endures : h.Endures h'

/-- If the frames of `h` are as they should be, they still are, and what was sheltered endures. -/
def Treats (h h' : Heap) : Prop := h.Framed → h.Respects h'

theorem composes_treats : Composes Treats where
  refl h framed := ⟨framed, .refl h, .ofSame fun _ => rfl⟩
  trans t t' framed := by
    have first := t framed
    have second := t' first.framed
    rcases first.framed.charted with ⟨c, a⟩
    exact ⟨second.framed, first.roots.trans second.roots,
      first.endures.trans second.endures first.roots a⟩

/-- The frames concern the arena and the table of symbols only. -/
theorem Framed.transfer (f : h.Framed) (slots : h'.slots = h.slots) (free : h'.free = h.free)
    (symbols : h'.symbols = h.symbols) : h'.Framed := by
  rcases f.charted with ⟨c, a⟩
  refine ⟨⟨c, a.transfer slots free⟩, fun i name found => ?_⟩
  rw [object?_slot, slots] at found
  rw [symbols]
  exact f.interned i name found

theorem EndsIn.congr (same : ∀ v, h'.object? v = h.object? v) (ends : h.EndsIn tail v) :
    h'.EndsIn tail v := by
  induction ends with
  | here => exact .here
  | later found _ ih => exact .later ((same _).trans found) ih

theorem Endures.congr (e : h.Endures h') (same : ∀ v, h''.object? v = h'.object? v) :
    h.Endures h'' := by
  refine ⟨fun i o s found => ?_, fun i s binds => ?_⟩
  · cases e.renews i o s found with
    | same found' => exact .same ((same _).trans found')
    | bindings found' ends => exact .bindings ((same _).trans found') (ends.congr same)
    | value binds found' => exact .value binds ((same _).trans found')
  · exact e.unbound i s (binds.congr fun v => (same v).symm)

theorem Respects.truncateRoots (r : h.Respects h') :
    h.Respects (h'.truncateRoots h.roots.length) :=
  ⟨r.framed.transfer rfl rfl rfl, r.roots.truncateRoots, r.endures.congr fun _ => rfl⟩

theorem Framed.addRoot (f : h.Framed) (v : Value) : (h.addRoot v).Framed := by
  unfold Heap.addRoot
  split
  · exact f
  · exact f.transfer rfl rfl rfl

theorem treats_addRoot (h : Heap) (v : Value) : h.Treats (h.addRoot v) := fun framed =>
  ⟨framed.addRoot v, .addRoot h v, .ofSame (object?_addRoot h v)⟩

/-- What makes an object, but no symbol, takes a slot and leaves the others. -/
theorem Makes.respects {post : Nat → Post} {op : HeapM Fatal Value}
    (made : Makes c h h o post (op h)) (other : ∀ name, o ≠ .symbol name) (framed : h.Framed) :
    h.Respects (heapAfter op h) := by
  unfold heapAfter
  generalize op h = result at made ⊢
  cases made with
  | error a obtains roots =>
      exact ⟨Settles.framed ⟨⟨_, a⟩, roots, obtains.named_nil⟩ framed, roots, .ofObtains obtains⟩
  | ok found a obtains roots =>
      have named := obtains.named found other
      exact ⟨Settles.framed ⟨⟨_, a⟩, roots, named⟩ framed, roots, .ofObtains obtains⟩

theorem treats_allocate (h : Heap) (plain : o.isPlain = true) :
    h.Treats (heapAfter (HeapM.allocate o) h) := by
  intro framed
  rcases framed.charted with ⟨c, a⟩
  have other : o.kind ≠ .environment := by
    cases o <;> simp_all [Object.isPlain, Object.kind]
  refine (a.allocate_data other).respects (fun name same => ?_) framed
  rw [same] at plain
  cases plain

/-- A symbol that is new takes a slot and gets an entry in the table. -/
theorem treats_intern (h : Heap) (name : String) : h.Treats (heapAfter (HeapM.intern name) h) := by
  intro framed
  rcases framed.charted with ⟨c, a⟩
  cases listed : h.symbols[name]? with
  | some symbol =>
      have step : HeapM.intern name h = .ok symbol h := by
        unfold HeapM.intern
        rw [get_bind_apply, listed]
        rfl
      unfold heapAfter
      rw [step]
      exact composes_treats.refl h framed
  | none =>
      have step : HeapM.intern name h = (HeapM.allocate (.symbol name) >>= fun symbol => do
          modify fun h => { h with symbols := h.symbols.insert name symbol }
          pure symbol : HeapM Fatal Value) h := by
        unfold HeapM.intern
        rw [get_bind_apply, listed]
      have made := a.allocate_data (o := .symbol name) nofun
      unfold heapAfter
      rw [step]
      simp only [Bind.bind, EStateM.bind]
      generalize HeapM.allocate (.symbol name) h = result at made ⊢
      cases made with
      | error a' obtains roots =>
          exact ⟨Settles.framed ⟨⟨_, a'⟩, roots, obtains.named_nil⟩ framed, roots,
            .ofObtains obtains⟩
      | @ok i h' found a' obtains roots =>
          -- The entry shadows nothing, since the name had none.
          have kept : ∀ (other : String) v, h.symbols[other]? = some v →
              (h'.symbols.insert name (.slot i))[other]? = some v := by
            intro other v found
            rw [getElem?_symbols_insert, if_neg]
            · exact roots.symbols_extend other v found
            · rintro rfl
              rw [listed] at found
              cases found
          refine ⟨⟨⟨_, a'.transfer rfl rfl⟩, fun j other foundJ => ?_⟩,
            ⟨roots.rootEnv_eq, roots.pins_eq, kept, roots.roots_suffix⟩,
            (Endures.ofObtains obtains).congr fun _ => rfl⟩
          rcases obtains.known j _ foundJ with member | before
          · cases List.mem_singleton.1 member
            cases found.symm.trans foundJ
            exact Std.HashMap.getElem?_insert_self
          · exact kept other _ (framed.interned j other before)

theorem exists_environment_of_kind (isEnv : h.kind v = .environment) :
    ∃ i bindings parent, v = .slot i ∧
      h.object? (.slot i) = some (.environment bindings parent) := by
  unfold kind at isEnv
  split at isEnv
  · cases isEnv
  · next i =>
    split at isEnv
    · next o found =>
      cases o with
      | environment bindings parent => exact ⟨i, bindings, parent, rfl, found⟩
      | _ => cases isEnv
    · cases isEnv

/-- The frame in which a child is made is kept by the collection that may make room for it. -/
theorem Charted.child (a : h.Charted c) {k : Nat} {bindings : Value} {parent : Option Env}
    (found : h.object? (.slot k) = some (.environment bindings parent)) :
    Makes c (h.addRoot (.slot k)) (h.addRoot (.slot k)) (.environment .nil (some ⟨.slot k⟩))
      (fun _ => ⟨.frame, (c k).rank + 1⟩)
      (HeapM.allocate (.environment .nil (some ⟨.slot k⟩)) (h.addRoot (.slot k))) := by
  have station := (a.frame found).1
  have rooted := a.addRoot (.slot k)
  have found' := (object?_addRoot h (.slot k) (.slot k)).trans found
  have reached : (h.addRoot (.slot k)).Reachable k :=
    .start (.stack List.mem_cons_self) (occupied_of_object? found')
  refine rooted.allocate (fun _ _ same => by cases same; rfl) fun i h' p => ?_
  have occupied := occupied_of_object? ((rooted.makeRoom.2.1.kept k reached).trans found')
  have other : k ≠ i := by
    rintro rfl
    exact p.fresh occupied
  refine .inner (by simp) .nil ?_ (p.occupied_iff.2 (.inr occupied)) ?_
  · rwa [Function.update_of_ne other]
  · simp [Function.update_of_ne other]

theorem treats_child {env : Env} (isEnv : h.kind env.value = .environment) :
    h.Treats (heapAfter (HeapM.child env) h) := by
  intro framed
  rcases framed.charted with ⟨c, a⟩
  rcases env with ⟨v⟩
  rcases exists_environment_of_kind isEnv with ⟨k, bindings, parent, rfl, found⟩
  have made := (a.child found).respects (fun _ => nofun) (framed.addRoot _)
  have step : heapAfter (HeapM.child ⟨.slot k⟩) h =
      (heapAfter (HeapM.allocate (.environment .nil (some ⟨.slot k⟩)))
        (h.addRoot (.slot k))).truncateRoots h.roots.length := by
    have body : HeapM.child ⟨.slot k⟩ h = HeapM.scope (fun _ =>
        (HeapM.allocate (.environment .nil (some ⟨.slot k⟩)) >>= fun v => pure ⟨v⟩ :
          HeapM Fatal Env) (h.addRoot (.slot k))) h := rfl
    unfold heapAfter
    rw [body]
    unfold HeapM.scope
    simp only [Bind.bind, EStateM.bind]
    cases HeapM.allocate (.environment .nil (some ⟨.slot k⟩)) (h.addRoot (.slot k)) with
    | ok _ _ => rfl
    | error _ _ => rfl
  rw [step]
  exact (composes_treats.trans (treats_addRoot h _) (fun _ => made) framed).truncateRoots

/-- A definition adds a binding in front; what it adds was not there for anything to refer to. -/
theorem treats_define (h : Heap) (env : Env) (symbol value : Value) :
    h.Treats (heapAfter (env.define symbol value) h) := by
  intro framed
  rcases framed.charted with ⟨c, a⟩
  have defining := a.define env symbol value
  have roots := KeepsRoots.addRoot h env.value
  unfold heapAfter
  generalize env.define symbol value h = result at defining ⊢
  cases defining with
  | error settles obtains =>
      exact ⟨settles.framed framed, settles.roots,
        .ofObtains (obtains.ofRooted (object?_addRoot h _) roots)⟩
  | lost settles obtains _ =>
      exact ⟨settles.framed framed, settles.roots,
        .ofObtains (obtains.ofRooted (object?_addRoot h _) roots)⟩
  | @done e b s h' same settles defines =>
      rw [same] at roots
      have reachable {i : Nat} (s : h.Sheltered i) : (h.addRoot (.slot e)).Reachable i :=
        (Obtains.ofSame (object?_addRoot h (.slot e))).reachable roots s.reachable
      refine ⟨settles.framed framed, settles.roots, fun i o sheltered found => ?_,
        fun i sheltered binds => ?_⟩
      · by_cases isEnv : i = e
        · subst isEnv
          rcases defines.frame with ⟨bindings, parent, before, after, list⟩
          cases found.symm.trans before
          exact .bindings after (.later list .here)
        · exact .same ((defines.kept i (reachable sheltered) isEnv).trans found)
      · rcases defines.unbound _ binds with isNew | before
        · cases isNew
          exact absurd (reachable sheltered) defines.fresh.1
        · exact before

/-- A pair that binds a symbol is not on the way along any bindings. -/
theorem Charted.onFrame_put (a : h.Charted c) {b e : Nat} {symbol value : Value}
    (station : (c b).station = .binding e) (occupied : h.Occupied b)
    (on : (h.put b (.pair symbol value)).OnFrame v) : h.OnFrame v := by
  induction on with
  | @bindings env bindings parent found =>
      by_cases same : env = .slot b
      · rw [same, object?_put_self occupied] at found
        cases found
      · rw [object?_put_ne same] at found
        exact .bindings found
  | @rest list binding rest _ found ih =>
      have other : list ≠ .slot b := by
        rintro rfl
        rcases a.lists_of_onFrame ih with ⟨e', lists⟩
        cases lists with
        | slot spine _ =>
            rw [station] at spine
            cases spine
      rw [object?_put_ne other] at found
      exact .rest ih found

/-- An assignment puts another value into a pair that binds a symbol. -/
theorem treats_assign {env : Env} {symbol binding : Value} (value : Value)
    (found : env.binding? h symbol = some binding) : h.Treats (h.setCdr binding value) := by
  intro framed
  rcases framed.charted with ⟨c, a⟩
  have binds := isBinding_of_binding? found
  rcases a.exists_of_isBinding binds with ⟨b, e, rfl, station, occupied⟩
  rcases setCdr_cases h (.slot b) value with ⟨i, car, cdr, same, object, step⟩ | ⟨_, step⟩
  · cases same
    rw [step]
    have a' : (h.put b (.pair car value)).Charted c := a.put occupied (.binding station)
    have roots := KeepsRoots.put h b (.pair car value)
    refine ⟨⟨⟨c, a'⟩, fun i name foundI => ?_⟩, roots, fun i o _ foundI => ?_,
      fun i _ bindsI => ?_⟩
    · rw [object?_put_of_occupied occupied] at foundI
      split at foundI
      · cases foundI
      · exact roots.symbols_extend _ _ (framed.interned i name foundI)
    · by_cases isBinding : i = b
      · subst isBinding
        cases foundI.symm.trans object
        exact .value binds (object?_put_self occupied)
      · exact .same ((object?_put_ne (by simpa using isBinding)).trans foundI)
    · -- Were `i` bound by a pair that has changed, that pair would bind a symbol itself.
      rcases bindsI with ⟨list, rest, on, goes⟩
      have on := a.onFrame_put station occupied on
      have other : list ≠ .slot b := by
        rintro rfl
        exact a.not_isBinding_of_onFrame on binds
      rw [object?_put_ne other] at goes
      exact ⟨list, rest, on, goes⟩
  · rw [step]
    exact composes_treats.refl h framed

/-! ## The conduct -/

theorem dataConduct_treats : DataConduct Treats Treats where
  along := composes_treats
  within := composes_treats
  weaken treats := treats
  close treats framed := (treats framed).truncateRoots
  addRoot := treats_addRoot
  note _ _ framed :=
    ⟨framed.transfer rfl rfl rfl, ⟨rfl, rfl, fun _ _ found => found, List.suffix_refl _⟩,
      .ofSame fun _ => rfl⟩
  allocate h _ := treats_allocate h
  intern := treats_intern

/-- What is sheltered endures every operation of the language. -/
theorem conduct_treats :
    Conduct (fun h env => h.kind env.value = .environment) Treats Treats where
  toDataConduct := dataConduct_treats
  child := treats_child
  define := treats_define
  assign := treats_assign
  ready_of_kind isEnv := isEnv
  ready_addRoot v isEnv := by
    rcases exists_environment_of_kind isEnv with ⟨i, bindings, parent, name, found⟩
    have found' := (object?_addRoot _ v _).trans found
    simp [name, kind, found', Object.kind]

end Heap

end Lisplet
