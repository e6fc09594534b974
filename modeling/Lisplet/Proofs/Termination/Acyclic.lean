import Lisplet.Proofs.Termination.Walks
import Mathlib.Data.Set.Finite.Lattice
import Mathlib.Order.WellFoundedSet

/-!
# Acyclic — pairs that never lead back to themselves

The slots of a heap are finitely many. So if no pair leads back to itself along cars and cdrs,
there is an induction along the pairs of whatever is live, and every walk through it comes to an end
by itself. In a suited heap it is so: lists of bindings lead to bindings and these to data, never
the other way, and in each of the three the slots are ranked.
-/

namespace Lisplet

open Relation (TransGen)

namespace Heap

/-- The slot `i` holds a pair of which the slot `k` is the car or the cdr. -/
inductive Links (h : Heap) (i k : Nat) : Prop where
  | car {cdr : Value} : h.object? (.slot i) = some (.pair (.slot k) cdr) → Links h i k
  | cdr {car : Value} : h.object? (.slot i) = some (.pair car (.slot k)) → Links h i k

/-- No pair leads back to itself, however often a car or a cdr is followed. -/
def Acyclic (h : Heap) : Prop := ∀ i, ¬ TransGen h.Links i i

section Walking

variable {h : Heap} {v w tail : Value} {items : List Value} {tree : Datum}

/-! ## Walks through what is live -/

/-- What holds of a pair as soon as it holds of its parts holds of everything that is live. -/
theorem Acyclic.induction (acyclic : h.Acyclic) (wf : h.WellFormed) {motive : Value → Prop}
    (held : h.Holds v) (nil : motive .nil)
    (atom : ∀ i o, h.object? (.slot i) = some o → o.kind ≠ .pair → motive (.slot i))
    (pair : ∀ i car cdr, h.object? (.slot i) = some (.pair car cdr) → motive car → motive cdr →
      motive (.slot i)) : motive v := by
  rcases held with rfl | ⟨i, rfl, occupied⟩
  · exact nil
  -- To be led to in one or more steps is a strict order, and the slots are a finite set.
  have order : IsStrictOrder Nat fun k i => TransGen h.Links i k :=
    { irrefl := acyclic, trans := fun _ _ _ below above => above.trans below }
  have slots := (Set.finite_lt_nat h.slots.size).wellFoundedOn
    (r := fun k i => TransGen h.Links i k)
  refine slots.induction (P := fun i => h.Occupied i → motive (.slot i))
    (lt_size_of_occupied occupied) (fun i _ ih occupied => ?_) occupied
  rcases occupied_iff.1 occupied with ⟨o, found⟩
  by_cases isPair : o.kind = .pair
  · cases o with
    | pair car cdr =>
        have part {u : Value} (member : u ∈ (Object.pair car cdr).references)
            (links : ∀ k, u = .slot k → h.Links i k) : motive u := by
          rcases wf.references_held i _ found u member with rfl | ⟨k, rfl, occupiedK⟩
          · exact nil
          · exact ih k (lt_size_of_occupied occupiedK) (.single (links k rfl)) occupiedK
        refine pair i car cdr found (part (by simp [Object.references]) ?_)
          (part (by simp [Object.references]) ?_)
        · rintro k rfl
          exact .car found
        · rintro k rfl
          exact .cdr found
    | _ => cases isPair
  · exact atom i o found isPair

/-- Whatever is live is a tree, however much its pairs share. -/
theorem Acyclic.exists_denotes (acyclic : h.Acyclic) (wf : h.WellFormed) (held : h.Holds v) :
    ∃ tree, h.Denotes v tree := by
  refine acyclic.induction (motive := fun v => ∃ tree, h.Denotes v tree) wf held ⟨.nil, .nil⟩ ?_ ?_
  · intro i o found isAtom
    exact ⟨.atom i o, .atom found isAtom⟩
  · rintro i car cdr found ⟨tree, denotes⟩ ⟨tree', denotes'⟩
    exact ⟨.pair tree tree', .pair found denotes denotes'⟩

theorem Denotes.exists_spine (denotes : h.Denotes v tree) : ∃ items tail, h.Spine v items tail := by
  induction denotes with
  | nil => exact ⟨[], .nil, .done rfl⟩
  | atom found isAtom => exact ⟨[], _, .done (pair?_of_atom found isAtom)⟩
  | @pair i car cdr a d found _ _ _ ih =>
      rcases ih with ⟨items, tail, spine⟩
      exact ⟨car :: items, tail, .step (pair?_eq_some_iff.2 found) spine⟩

/-- To go to a position of a list is to go along its spine. -/
theorem nth?_eq (spine : h.Spine v items tail) (n : Nat) : h.nth? v n = items[n]? := by
  induction spine generalizing n with
  | done ends => cases n <;> simp [nth?, car?, cdr?, ends]
  | step goes _ ih =>
      cases n with
      | zero => simp [nth?, car?, goes]
      | succ n => simp [nth?, cdr?, goes, ih]

/-- Every walk that begins at `v` comes to an end by itself, as the walk with bounded loops does. -/
structure WalksEnd (h : Heap) (v : Value) : Prop where
  print (style : Style) : Unbounded.print h style v = some (h.print style v)
  equal (w : Value) : h.Holds w → Unbounded.equal h v w = some (h.equal v w)
  items : Unbounded.items? h v = some (h.items? v)
  length : Unbounded.listLength h v = some (h.listLength v)
  nth (n : Nat) : h.nth? v n = (h.spine v).1[n]?

theorem Acyclic.walksEnd (acyclic : h.Acyclic) (wf : h.WellFormed) (held : h.Holds v) :
    h.WalksEnd v := by
  obtain ⟨tree, denotes⟩ := acyclic.exists_denotes wf held
  obtain ⟨items, tail, spine⟩ := denotes.exists_spine
  refine ⟨fun style => Termination.print_eq style denotes, fun w heldW => ?_,
    Termination.items?_eq spine, Termination.listLength_eq spine, fun n => ?_⟩
  · obtain ⟨tree', denotes'⟩ := acyclic.exists_denotes wf heldW
    exact Termination.equal_eq denotes denotes'
  · rw [nth?_eq spine, Heap.spine_eq spine]

end Walking

end Heap

namespace Termination

open Simulation (Role descent)

variable {d : Layout} {h : Heap} {i k : Nat}

/-! ## Suited heaps -/

/-- How far from data a use is: lists of bindings lead to bindings, and these to data. -/
def tier : Role → Nat
  | .spine => 2
  | .binding => 1
  | _ => 0

theorem Fills.tier_eq (fills : Fills d .datum (.slot k)) : tier (d k) = 0 := by
  rcases fills_datum_iff.1 fills with use | use
  · rw [use]
    rfl
  · rw [use]
    rfl

/-- A pair leads to a lower tier, or within its tier to where data without cycles goes on. -/
theorem Suited.tier_lt_or (a : Suited d h) (links : h.Links i k) :
    tier (d k) < tier (d i) ∨ tier (d k) = tier (d i) ∧
      ∃ o, h.object? (.slot i) = some o ∧ .slot k ∈ descent (d i) o := by
  have leads {car cdr : Value} (found : h.object? (.slot i) = some (.pair car cdr))
      (isPart : .slot k = car ∨ .slot k = cdr) :
      tier (d k) < tier (d i) ∨ tier (d k) = tier (d i) ∧
        ∃ o, h.object? (.slot i) = some o ∧ .slot k ∈ descent (d i) o := by
    have suits := a.suits i _ found
    generalize use : d i = r at suits
    cases suits with
    | plain none _ => cases none
    | pair isCar isCdr =>
        refine .inr ⟨?_, _, found, List.mem_pair.2 isPart⟩
        rcases isPart with rfl | rfl
        · exact isCar.tier_eq
        · exact isCdr.tier_eq
    | spine isBinding isRest =>
        rcases isPart with rfl | rfl
        · exact .inl (by rw [isBinding.use nofun]; decide)
        · exact .inr ⟨by rw [isRest.use nofun], _, found, List.mem_singleton_self _⟩
    | binding isSymbol isValue =>
        rcases isPart with rfl | rfl
        · exact .inl (by rw [isSymbol.tier_eq]; decide)
        · exact .inl (by rw [isValue.tier_eq]; decide)
  cases links with
  | car found => exact leads found (.inl rfl)
  | cdr found => exact leads found (.inr rfl)

theorem Suited.acyclic (a : Suited d h) : h.Acyclic := by
  rcases a.ranked with ⟨rank, ranked⟩
  -- Along every link the tier and the rank go down, taken together in this order.
  have down {i k : Nat} (links : h.Links i k) :
      toLex (tier (d k), rank k) < toLex (tier (d i), rank i) := by
    refine Prod.Lex.toLex_lt_toLex.2 ?_
    rcases a.tier_lt_or links with lower | ⟨same, o, found, member⟩
    · exact .inl lower
    · exact .inr ⟨same, ranked i o k found member⟩
  have far {i k : Nat} (leads : TransGen h.Links i k) :
      toLex (tier (d k), rank k) < toLex (tier (d i), rank i) := by
    induction leads with
    | single links => exact down links
    | tail _ links ih => exact (down links).trans ih
  exact fun i circle => lt_irrefl _ (far circle)

end Termination

end Lisplet
