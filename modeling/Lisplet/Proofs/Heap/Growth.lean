import Lisplet.Proofs.Heap.Datum
import Lisplet.Proofs.Heap.Evolution

/-!
# Growth — allocating where there is room

While there is room, allocating collects nothing: `Grows n h h'` says that `h'` still has every
object of `h` in its place, and at most `n` occupied slots more. The constructors succeed under
this condition, and what they build can be described by the tree it denotes.
-/

namespace Lisplet

namespace Heap

/-- `h'` has all objects of `h` in their places, and room for all but `n` further ones. -/
structure Grows (n : Nat) (h h' : Heap) : Prop where
  wellFormed : h'.WellFormed
  capacity_eq : h'.capacity = h.capacity
  symbols_eq : h'.symbols = h.symbols
  live_le : h'.live ≤ h.live + n
  kept : ∀ v o, h.object? v = some o → h'.object? v = some o

namespace Grows

variable {h h' h'' : Heap} {m n : Nat} {v : Value} {d : Datum}

theorem refl (w : h.WellFormed) : h.Grows 0 h :=
  ⟨w, rfl, rfl, Nat.le_refl _, fun _ _ found => found⟩

theorem trans (g : h.Grows m h') (g' : h'.Grows n h'') : h.Grows (m + n) h'' := by
  refine ⟨g'.wellFormed, g'.capacity_eq.trans g.capacity_eq, g'.symbols_eq.trans g.symbols_eq,
    ?_, fun v o found => g'.kept v o (g.kept v o found)⟩
  calc
    h''.live ≤ h'.live + n := g'.live_le
    _ ≤ h.live + m + n := Nat.add_le_add_right g.live_le n
    _ = h.live + (m + n) := Nat.add_assoc _ _ _

/-- Of the room there was, what has not been taken is left. -/
theorem room (g : h.Grows m h') (room : h.live + (m + n) ≤ h.capacity) :
    h'.live + n ≤ h'.capacity :=
  calc
    h'.live + n ≤ h.live + m + n := Nat.add_le_add_right g.live_le n
    _ = h.live + (m + n) := Nat.add_assoc _ _ _
    _ ≤ h.capacity := room
    _ = h'.capacity := g.capacity_eq.symm

theorem denotes (g : h.Grows n h') (denotes : h.Denotes v d) : h'.Denotes v d :=
  denotes.transfer g.kept

theorem addRoot (w : h.WellFormed) (held : h.Holds v) : h.Grows 0 (h.addRoot v) := by
  have w' := w.addRoot held
  unfold Heap.addRoot at w' ⊢
  split
  · exact refl w
  · next some =>
    rw [if_neg some] at w'
    exact ⟨w', rfl, rfl, Nat.le_refl _, fun _ _ found => found⟩

theorem truncateRoots (g : h.Grows n h') (height : Nat) : h.Grows n (h'.truncateRoots height) :=
  ⟨g.wellFormed.truncateRoots height, g.capacity_eq, g.symbols_eq, g.live_le, g.kept⟩

theorem insert {o : Object} (w : h.WellFormed) (room : h.live < h.capacity)
    (held : ∀ v ∈ o.references, h.Holds v) (other : ∀ name, o ≠ .symbol name) :
    h.Grows 1 (h.insert o).2 := by
  have w' := w.insert room held other
  rcases w.places_insert o with ⟨i, _, p⟩
  have counted := p.length_occupiedSlots
  refine ⟨w', by rw [p.unchanged], by rw [p.unchanged], ?_, ?_⟩
  · rw [w'.live_eq, w.live_eq, counted]
  · intro v o' found
    cases v with
    | nil => cases found
    | slot j => rw [p.object?_old (occupied_of_object? found), found]

end Grows

end Heap

namespace HeapM

variable {h : Heap} {o : Object}

theorem scope_ok {ε α : Type} {body : HeapM ε α} {a : α} {h' : Heap} (step : body h = .ok a h') :
    scope body h = .ok a (h'.truncateRoots h.roots.length) := by
  unfold scope
  rw [step]

/-- With room for one object an allocation succeeds without a collection. -/
theorem allocate_grows (w : h.WellFormed) (room : h.live < h.capacity)
    (held : ∀ v ∈ o.references, h.Holds v) (other : ∀ name, o ≠ .symbol name) :
    ∃ i h', allocate o h = .ok (.slot i) h' ∧ h.Grows 1 h' ∧ h'.object? (.slot i) = some o := by
  have noCollection : h.makeRoom = h := if_neg (Nat.not_le_of_lt room)
  rcases allocate_cases h o with ⟨_, step⟩ | ⟨full, _⟩
  · rw [noCollection] at step
    rcases w.places_insert o with ⟨i, value, p⟩
    rw [value] at step
    exact ⟨i, (h.insert o).2, step, .insert w room held other, p.object?_new⟩
  · rw [noCollection] at full
    exact absurd room (Nat.not_lt_of_le full)

theorem cons_grows {car cdr : Value} {a d : Datum} (w : h.WellFormed)
    (room : h.live < h.capacity) (denotesCar : h.Denotes car a) (denotesCdr : h.Denotes cdr d) :
    ∃ v h', cons car cdr h = .ok v h' ∧ h.Grows 1 h' ∧ h'.Denotes v (.pair a d) := by
  have g₁ := Heap.Grows.addRoot w denotesCar.holds
  have g₂ := Heap.Grows.addRoot g₁.wellFormed (g₁.denotes denotesCdr).holds
  have g := g₁.trans g₂
  have room' : ((h.addRoot car).addRoot cdr).live < ((h.addRoot car).addRoot cdr).capacity :=
    g.room (n := 1) (by omega)
  have held : ∀ v ∈ (Object.pair car cdr).references, ((h.addRoot car).addRoot cdr).Holds v := by
    intro v member
    rcases List.mem_pair.1 member with rfl | rfl
    · exact (g.denotes denotesCar).holds
    · exact (g.denotes denotesCdr).holds
  rcases allocate_grows g.wellFormed room' held fun _ => nofun with ⟨i, h₃, step, g₃, found⟩
  -- Dropping the two roots again changes no object.
  have whole := (g.trans g₃).truncateRoots h.roots.length
  refine ⟨.slot i, h₃.truncateRoots h.roots.length, ?_, whole, ?_⟩
  · exact scope_ok step
  · exact .pair found (whole.denotes denotesCar) (whole.denotes denotesCdr)

end HeapM

/-- A list with elements put in front of a tail one after the other. -/
def Datum.onto (tail : Datum) (items : List Datum) : Datum :=
  items.foldl (fun tail item => .pair item tail) tail

theorem HeapM.consAll_grows {items : List Value} {ds : List Datum} {h : Heap} {tail : Value}
    {d : Datum} (w : h.WellFormed) (room : h.live + items.length ≤ h.capacity)
    (denotesTail : h.Denotes tail d) (denotesItems : List.Forall₂ h.Denotes items ds) :
    ∃ v h', consAll tail items h = .ok v h' ∧ h.Grows items.length h' ∧
      h'.Denotes v (d.onto ds) := by
  induction items generalizing h tail d ds with
  | nil =>
      cases denotesItems
      exact ⟨tail, h, rfl, .refl w, denotesTail⟩
  | cons item items ih =>
      rcases denotesItems with _ | ⟨denotesItem, denotesItems⟩
      rw [List.length_cons] at room
      rcases cons_grows w (by omega) denotesItem denotesTail with ⟨v₁, h₁, step₁, g₁, denotes₁⟩
      have room₁ : h₁.live + items.length ≤ h₁.capacity := g₁.room (by omega)
      have denotesItems₁ := denotesItems.imp fun _ _ => g₁.denotes
      rcases ih g₁.wellFormed room₁ denotes₁ denotesItems₁ with ⟨v, h', step, g, denotes⟩
      refine ⟨v, h', ?_, ?_, denotes⟩
      · show (cons item tail >>= fun tail => consAll tail items) h = _
        simp only [bind, EStateM.bind, step₁, step]
      · rw [List.length_cons, Nat.add_comm]
        exact g₁.trans g

end Lisplet
