import Lisplet.Proofs.Heap.Collection
import Lisplet.Proofs.Heap.Trail

/-!
# Outfit — what the language does not see of a heap

Pins and the journal belong to the host: nothing that the language does looks at them, but for a
collection, which starts from whatever is pinned. So on heaps that differ in their outfits alone,
and keep the same slots pinned, everything goes on in parallel.
-/

namespace Lisplet

/-- What is printed, if it is that. -/
def Notice.printed? : Notice → Option String
  | .printed text => some text
  | _ => none

namespace Heap

/-! ## Outfits -/

/-- What only the host sees of a heap. -/
structure Outfit where
  pins : Array (Option Value)
  freePins : List Nat
  journal : Array Notice

def outfit (h : Heap) : Outfit := ⟨h.pins, h.freePins, h.journal⟩

/-- The heap with another outfit. -/
def fit (h : Heap) (o : Outfit) : Heap :=
  { h with pins := o.pins, freePins := o.freePins, journal := o.journal }

section Reading

variable (h : Heap) (o : Outfit) (v : Value)

theorem object?_fit : (h.fit o).object? v = h.object? v := rfl

theorem spineOnto_fit (found : Array Value) (steps : Nat) :
    (h.fit o).spineOnto found steps v = h.spineOnto found steps v := by
  induction steps generalizing found v with
  | zero => rfl
  | succ steps ih =>
      unfold spineOnto
      simp only [ih]
      rfl

theorem findUpTo?_fit (condition : Value → Bool) (steps : Nat) :
    (h.fit o).findUpTo? condition steps v = h.findUpTo? condition steps v := by
  induction steps generalizing v with
  | zero => rfl
  | succ steps ih =>
      unfold findUpTo?
      simp only [ih]
      rfl

@[simp]
theorem spine_fit : (h.fit o).spine v = h.spine v := by
  unfold spine
  rw [spineOnto_fit]
  rfl

@[simp]
theorem items?_fit : (h.fit o).items? v = h.items? v := by rw [items?, spine_fit, items?]

@[simp]
theorem listLength_fit : (h.fit o).listLength v = h.listLength v := by
  rw [listLength, spine_fit, listLength]

theorem find?_fit (condition : Value → Bool) : (h.fit o).find? condition v = h.find? condition v :=
  findUpTo?_fit h o v condition _

-- The walks over data are the same function of the same objects, down to the fixed points.
theorem print_fit (style : Style) : (h.fit o).print style v = h.print style v := by
  with_unfolding_all rfl

@[simp]
theorem write_fit : (h.fit o).write v = h.write v := print_fit h o v .write

@[simp]
theorem display_fit : (h.fit o).display v = h.display v := print_fit h o v .display

@[simp]
theorem equal_fit (w : Value) : (h.fit o).equal v w = h.equal v w := by with_unfolding_all rfl

@[simp]
theorem ownBinding?_fit (env : Env) : env.ownBinding? (h.fit o) v = env.ownBinding? h v :=
  find?_fit h o _ _

@[simp]
theorem binding?_fit (env : Env) : env.binding? (h.fit o) v = env.binding? h v := by
  have within (steps : Nat) (env : Env) :
      env.bindingWithin? (h.fit o) v steps = env.bindingWithin? h v steps := by
    induction steps generalizing env with
    | zero => exact ownBinding?_fit h o v env
    | succ steps ih =>
        unfold Env.bindingWithin?
        simp only [ownBinding?_fit, ih]
        rfl
  exact within _ env

@[simp]
theorem unbound_fit : Env.unbound (h.fit o) v = Env.unbound h v := by
  rw [Env.unbound, write_fit, Env.unbound]
  rfl

@[simp]
theorem lookup_fit (env : Env) : env.lookup (h.fit o) v = env.lookup h v := by
  unfold Env.lookup
  rw [binding?_fit, unbound_fit]
  rfl

@[simp]
theorem shape_fit : Env.shape (h.fit o) v = Env.shape h v := by
  unfold Env.shape
  simp only [spine_fit, write_fit]
  rfl

theorem insert_fit (object : Object) :
    (h.fit o).insert object = ((h.insert object).1, (h.insert object).2.fit o) := by
  unfold insert
  have free : (h.fit o).free = h.free := rfl
  rw [free]
  cases h.free with
  | nil => rfl
  | cons index free => rfl

theorem setCdr_fit (w : Value) : (h.fit o).setCdr v w = (h.setCdr v w).fit o := by
  unfold setCdr
  rw [object?_fit]
  split
  · rfl
  · rfl

theorem setBindings_fit (env : Env) :
    (h.fit o).setBindings env v = (h.setBindings env v).fit o := by
  unfold setBindings
  rw [object?_fit]
  split
  · rfl
  · rfl

theorem addRoot_fit : (h.fit o).addRoot v = (h.addRoot v).fit o := by
  unfold addRoot
  split
  · rfl
  · rfl

end Reading

/-- What the program has printed. -/
def printed (h : Heap) : List String := h.journal.toList.filterMap Notice.printed?

@[simp]
theorem printed_note (h : Heap) (notice : Notice) :
    (h.note notice).printed = h.printed ++ notice.printed?.toList := by
  unfold printed note
  rw [Array.toList_push, List.filterMap_append]
  cases notice <;> rfl

/-- `h'` is `h` but for its outfit, and the program has printed no more. -/
structure Repinned (h h' : Heap) : Prop where
  fitted : ∃ o, h' = h.fit o
  printed_eq : h'.printed = h.printed

namespace Repinned

variable {h h' h'' : Heap}

theorem composes : Composes Repinned where
  refl h := ⟨⟨h.outfit, rfl⟩, rfl⟩
  trans := by
    rintro h _ _ ⟨⟨_, rfl⟩, printed⟩ ⟨⟨o, rfl⟩, printed'⟩
    exact ⟨⟨o, rfl⟩, printed'.trans printed⟩

theorem symm (r : h.Repinned h') : h'.Repinned h := by
  obtain ⟨⟨o, rfl⟩, printed⟩ := r
  exact ⟨⟨h.outfit, rfl⟩, printed.symm⟩

theorem object?_eq (r : h.Repinned h') (v : Value) : h'.object? v = h.object? v := by
  obtain ⟨o, rfl⟩ := r.fitted
  exact h.object?_fit o v

theorem write_eq (r : h.Repinned h') (v : Value) : h'.write v = h.write v := by
  obtain ⟨o, rfl⟩ := r.fitted
  exact h.write_fit o v

theorem leads (r : h.Repinned h') : h.Leads h' := by
  obtain ⟨o, rfl⟩ := r.fitted
  exact (Change.reroot h h.roots o.pins o.freePins o.journal).leads

/-- Pins alone are different. -/
theorem of_pins (h : Heap) (pins : Array (Option Value)) (freePins : List Nat) :
    h.Repinned { h with pins, freePins } := ⟨⟨⟨pins, freePins, h.journal⟩, rfl⟩, rfl⟩

theorem pin (h : Heap) (v : Value) : h.Repinned (h.pin v).2 := by
  rw [Heap.pin_eq]
  exact of_pins h _ _

theorem repin (h : Heap) (p : Pin) (v : Value) : h.Repinned (h.repin p v) :=
  of_pins h (h.repin p v).pins (h.repin p v).freePins

theorem unpin (h : Heap) (p : Pin) : h.Repinned (h.unpin p) := by
  rw [Heap.unpin_eq]
  exact of_pins h _ _

theorem unpinAll {α : Type} (h : Heap) (holders : List α) (key : α → Pin) :
    h.Repinned (holders.foldl (fun h holder => h.unpin (key holder)) h) := by
  induction holders generalizing h with
  | nil => exact composes.refl h
  | cons holder holders ih => exact composes.trans (unpin h _) (ih _)

/-- What is noted is none of what the program prints. -/
theorem note (h : Heap) {notice : Notice} (silent : notice.printed? = none) :
    h.Repinned (h.note notice) where
  fitted := ⟨(h.note notice).outfit, rfl⟩
  printed_eq := by rw [printed_note, silent, Option.toList_none, List.append_nil]

/-- What is the same on both sides stays so if both change in that way. -/
theorem both {k k' : Heap} (r : h.Repinned h') (change : h.Repinned k) (change' : h'.Repinned k') :
    k.Repinned k' := composes.trans change.symm (composes.trans r change')

end Repinned

/-! ## Heaps in parallel -/

/-- Some pin holds the slot. -/
def IsPinned (h : Heap) (i : Nat) : Prop := ∃ key : Nat, h.pins[key]? = some (some (.slot i))

/-- Heaps that differ in their outfits alone, and that keep the same. -/
structure Parallel (h h' : Heap) : Prop where
  repinned : h.Repinned h'
  pinned : ∀ i, h.IsPinned i ↔ h'.IsPinned i
  marksClear : h.MarksClear

namespace Parallel

variable {h h' : Heap}

/-- A change that has nothing to do with outfits. -/
theorem map {f : Heap → Heap} (p : h.Parallel h') (commutes : ∀ h o, f (h.fit o) = (f h).fit o)
    (clear : (f h).MarksClear) : (f h).Parallel (f h') := by
  obtain ⟨⟨⟨o, rfl⟩, printed⟩, pinned, -⟩ := p
  -- A heap has its own outfit on, so the change leaves that alone as well.
  have own : f h = (f h).fit h.outfit := commutes h h.outfit
  have pins : (f h).pins = h.pins := by rw [own]; rfl
  have journal : (f h).journal = h.journal := by rw [own]; rfl
  rw [commutes]
  refine ⟨⟨⟨o, rfl⟩, ?_⟩, fun i => ?_, clear⟩
  · unfold Heap.printed
    rw [journal]
    exact printed
  · unfold IsPinned
    rw [pins]
    exact pinned i

theorem addRoot (p : h.Parallel h') (v : Value) : (h.addRoot v).Parallel (h'.addRoot v) :=
  @map h h' (fun h => h.addRoot v) p (fun h o => h.addRoot_fit o v)
    ((Leads.addRoot h v).marksClear p.marksClear)

theorem addRoots (p : h.Parallel h') (values : List Value) :
    (values.foldl Heap.addRoot h).Parallel (values.foldl Heap.addRoot h') := by
  induction values generalizing h h' with
  | nil => exact p
  | cons v values ih => exact ih (p.addRoot v)

theorem setCdr (p : h.Parallel h') (v w : Value) : (h.setCdr v w).Parallel (h'.setCdr v w) :=
  @map h h' (fun h => h.setCdr v w) p (fun h o => h.setCdr_fit o v w)
    ((Leads.setCdr h v w).marksClear p.marksClear)

theorem setBindings (p : h.Parallel h') (env : Env) (v : Value) :
    (h.setBindings env v).Parallel (h'.setBindings env v) :=
  @map h h' (fun h => h.setBindings env v) p (fun h o => h.setBindings_fit o v env)
    ((Leads.setBindings h env v).marksClear p.marksClear)

theorem note (p : h.Parallel h') (notice : Notice) : (h.note notice).Parallel (h'.note notice) := by
  refine ⟨⟨?_, ?_⟩, p.pinned, p.marksClear⟩
  · obtain ⟨o, rfl⟩ := p.repinned.fitted
    exact ⟨⟨o.pins, o.freePins, o.journal.push notice⟩, rfl⟩
  · rw [printed_note, printed_note, p.repinned.printed_eq]

/-- The other side alone may note what the program does not print. -/
theorem noteSilent (p : h.Parallel h') {notice : Notice} (silent : notice.printed? = none) :
    h.Parallel (h'.note notice) :=
  ⟨Repinned.composes.trans p.repinned (.note h' silent), p.pinned, p.marksClear⟩

theorem isRoot_of (p : h.Parallel h') {v : Value} {i : Nat} (isSlot : v = .slot i)
    (root : h.IsRoot v) : h'.IsRoot v := by
  obtain ⟨⟨⟨o, rfl⟩, -⟩, pinned, -⟩ := p
  cases root with
  | environment => exact .environment
  | symbol found => exact .symbol found
  | stack member => exact .stack member
  | pin held =>
      subst isSlot
      obtain ⟨key, held⟩ := (pinned i).1 ⟨_, held⟩
      exact .pin held

theorem reachable_of (p : h.Parallel h') {i : Nat} (reached : h.Reachable i) : h'.Reachable i := by
  have root {i : Nat} (root : h.IsRoot (.slot i)) : h'.IsRoot (.slot i) := p.isRoot_of rfl root
  obtain ⟨⟨⟨o, rfl⟩, -⟩, -⟩ := p
  induction reached with
  | start starts occupied => exact .start (root starts) occupied
  | reference _ found member occupied ih => exact .reference ih found member occupied

theorem symm (p : h.Parallel h') : h'.Parallel h := by
  have clear : h'.MarksClear := by
    obtain ⟨o, rfl⟩ := p.repinned.fitted
    exact p.marksClear
  exact ⟨p.repinned.symm, fun i => (p.pinned i).symm, clear⟩

/-- A collection keeps the same slots on both sides. -/
theorem collect (p : h.Parallel h') : h.collect.1.Parallel h'.collect.1 := by
  have reach (i : Nat) : h'.Reachable i ↔ h.Reachable i := ⟨p.symm.reachable_of, p.reachable_of⟩
  obtain ⟨⟨⟨o, rfl⟩, printed⟩, pinned, clear⟩ := p
  -- Marking starts from other pins, which hold the same slots, and so it marks the same.
  have starts (h : Heap) (i : Nat) :
      h.ReachableFrom (· ∈ h.startsIn (h.symbols.toList.map Prod.snd)) i ↔ h.Reachable i :=
    reachableFrom_startsIn_iff (.refl _) i
  have marked : ((h.fit o).markFrom ((h.fit o).startsIn (h.symbols.toList.map Prod.snd))).slots =
      (h.markFrom (h.startsIn (h.symbols.toList.map Prod.snd))).slots := by
    refine Array.ext_getElem? fun i => ?_
    have same := (starts (h.fit o) i).trans ((reach i).trans (starts h i).symm)
    rw [markFrom_slots clear, markFrom_slots (h := h.fit o) clear]
    exact congrArg (fun b => (h.slots[i]?).map fun slot : Slot => { slot with marked := b })
      (decide_eq_decide.2 same)
  have collected : (h.fit o).collect.1 = h.collect.1.fit o := by
    show ({ h.fit o with
      slots := ((h.fit o).markFrom ((h.fit o).startsIn (h.symbols.toList.map Prod.snd))).slots } :
        Heap).sweep.1 = _
    rw [marked]
    rfl
  exact ⟨⟨⟨o, collected⟩, collected ▸ printed⟩, collected ▸ pinned, marksClear_collect clear⟩

theorem makeRoom (p : h.Parallel h') : h.makeRoom.Parallel h'.makeRoom := by
  have same : h'.makeRoom = if h.capacity ≤ h.live then h'.collect.1 else h' := by
    obtain ⟨o, rfl⟩ := p.repinned.fitted
    rfl
  rw [same]
  unfold Heap.makeRoom
  split
  · exact p.collect
  · exact p

end Parallel

end Heap

end Lisplet
