import Lisplet.Proofs.Termination.Acyclic
import Mathlib.Algebra.Order.Field.Rat
import Mathlib.Algebra.Order.Ring.Abs
import Mathlib.Data.Rat.Cast.Defs
import Mathlib.Data.Finset.Card
import Mathlib.Tactic.IntervalCases

/-!
# Equality — what it means that two values are equal

`Heap.Equals` is structural equality as an inductive relation: one and the same handle, atoms of the
same kind with the same data, and pairs with equal parts. The comparison of the heap works on a list
of pairs of handles instead. On values whose pairs do not run in a circle, and that no float is part
of, it decides the relation, whatever heap it is.
-/

namespace Lisplet

open Relation (ReflTransGen TransGen)

/-! ## Atoms -/

/--
Two ratios are the same rational number. With a zero denominator they are none, and the same only if
they are written in the same way.
-/
def SameRatio (numer denom numer' denom' : Int64) : Prop :=
  if denom = 0 ∨ denom' = 0 then numer = numer' ∧ denom = denom'
  else (numer.toInt : ℚ) / denom.toInt = numer'.toInt / denom'.toInt

/-- Two atoms are of one kind and hold the same data. There is no such thing for floats. -/
inductive Object.SameData : Object → Object → Prop where
  | int (n : Int64) : SameData (.int n) (.int n)
  | fixnum (n : Int64) : SameData (.fixnum n) (.fixnum n)
  | ratio {numer denom numer' denom' : Int64} : SameRatio numer denom numer' denom' →
      SameData (.ratio numer denom) (.ratio numer' denom')
  | string (text : String) : SameData (.string text) (.string text)
  | symbol (name : String) : SameData (.symbol name) (.symbol name)
  | error (kind : ErrorKind) (message : String) :
      SameData (.error kind message) (.error kind message)

section Ratios

variable {numer denom numer' denom' numer'' denom'' : Int64}

theorem Int64.toInt_ne_zero {n : Int64} (nonzero : n ≠ 0) : n.toInt ≠ 0 := by
  intro zero
  exact nonzero (Int64.toInt_inj.1 (zero.trans Int64.toInt_zero.symm))

/-- Multiplying crosswise compares the numbers. -/
theorem ratioEqual_iff :
    ratioEqual numer denom numer' denom' = true ↔ SameRatio numer denom numer' denom' := by
  unfold ratioEqual SameRatio
  by_cases zero : denom = 0 ∨ denom' = 0
  · simp [zero]
  · rcases not_or.1 zero with ⟨nonzero, nonzero'⟩
    have isCast : (denom.toInt : ℚ) ≠ 0 := Int.cast_ne_zero.2 (Int64.toInt_ne_zero nonzero)
    have isCast' : (denom'.toInt : ℚ) ≠ 0 := Int.cast_ne_zero.2 (Int64.toInt_ne_zero nonzero')
    simp only [nonzero, nonzero', beq_iff_eq, or_self, Bool.or_eq_true, if_false]
    rw [div_eq_div_iff isCast isCast']
    norm_cast

theorem SameRatio.symm (same : SameRatio numer denom numer' denom') :
    SameRatio numer' denom' numer denom := by
  unfold SameRatio at same ⊢
  by_cases zero : denom = 0 ∨ denom' = 0
  · rw [if_pos zero] at same
    rw [if_pos zero.symm]
    exact ⟨same.1.symm, same.2.symm⟩
  · rw [if_neg zero] at same
    rw [if_neg (mt Or.symm zero)]
    exact same.symm

/-- A zero denominator is passed on, so it is a matter of three numbers or of three spellings. -/
theorem SameRatio.trans (same : SameRatio numer denom numer' denom')
    (same' : SameRatio numer' denom' numer'' denom'') :
    SameRatio numer denom numer'' denom'' := by
  unfold SameRatio at same same' ⊢
  by_cases zero : denom' = 0
  · rw [if_pos (.inr zero)] at same
    rw [if_pos (.inl zero)] at same'
    rw [if_pos (.inl (same.2.trans zero))]
    exact ⟨same.1.trans same'.1, same.2.trans same'.2⟩
  · by_cases first : denom = 0
    · rw [if_pos (.inl first)] at same
      exact absurd (same.2.symm.trans first) zero
    · by_cases last : denom'' = 0
      · rw [if_pos (.inr last)] at same'
        exact absurd (same'.2.trans last) zero
      · rw [if_neg (by simp [first, zero])] at same
        rw [if_neg (by simp [zero, last])] at same'
        rw [if_neg (by simp [first, last])]
        exact same.trans same'

/-- No product of two numbers of 64 bits leaves the range of 128 bits. -/
theorem not_smulOverflow (m n : Int64) :
    BitVec.smulOverflow (m.toBitVec.signExtend 128) (n.toBitVec.signExtend 128) = false := by
  have bound (x : BitVec 64) : |x.toInt| ≤ 2 ^ 63 := by
    have low := x.le_toInt
    have high := x.toInt_lt
    exact abs_le.2 ⟨low, high.le⟩
  have extended (x : BitVec 64) : (x.signExtend 128).toInt = x.toInt :=
    BitVec.toInt_signExtend_of_le (by decide)
  have product : |m.toBitVec.toInt * n.toBitVec.toInt| ≤ 2 ^ 63 * 2 ^ 63 := by
    rw [abs_mul]
    exact mul_le_mul (bound _) (bound _) (abs_nonneg _) (by decide)
  rcases abs_le.1 product with ⟨low, high⟩
  simp only [BitVec.smulOverflow, extended, Bool.or_eq_false_iff, decide_eq_false_iff_not]
  omega

end Ratios

namespace Object

variable {o o' o'' : Object}

theorem SameData.symm (same : o.SameData o') : o'.SameData o := by
  cases same with
  | ratio same => exact .ratio same.symm
  | int n => exact .int n
  | fixnum n => exact .fixnum n
  | string text => exact .string text
  | symbol name => exact .symbol name
  | error kind message => exact .error kind message

theorem SameData.trans (same : o.SameData o') (same' : o'.SameData o'') : o.SameData o'' := by
  cases same with
  | ratio same =>
      cases same' with
      | ratio same' => exact .ratio (same.trans same')
  | int _ => exact same'
  | fixnum _ => exact same'
  | string _ => exact same'
  | symbol _ => exact same'
  | error _ _ => exact same'

/-- Of two objects that are not both pairs one is an atom. -/
theorem apart (notPairs : ∀ car cdr car' cdr', o = .pair car cdr → o' = .pair car' cdr' → False) :
    o.kind ≠ .pair ∨ o'.kind ≠ .pair := by
  cases o with
  | pair car cdr =>
      cases o' with
      | pair car' cdr' => exact (notPairs car cdr car' cdr' rfl rfl).elim
      | _ => exact .inr nofun
  | _ => exact .inl nofun

/-- Atoms are compared by their data, unless they are floats. -/
theorem sameAtom_iff (noFloat : ∀ x, o ≠ .float x) : o.sameAtom o' = true ↔ o.SameData o' := by
  constructor
  · intro same
    cases o with
    | float x => exact absurd rfl (noFloat x)
    | int n => cases o' <;> simp_all [sameAtom, SameData.int]
    | fixnum n => cases o' <;> simp_all [sameAtom, SameData.fixnum]
    | string text => cases o' <;> simp_all [sameAtom, SameData.string]
    | symbol name => cases o' <;> simp_all [sameAtom, SameData.symbol]
    | error kind message => cases o' <;> simp_all [sameAtom, SameData.error]
    | ratio numer denom =>
        cases o' with
        | ratio numer' denom' => exact .ratio (ratioEqual_iff.1 same)
        | _ => cases same
    | _ => cases o' <;> cases same
  · intro same
    cases same with
    | ratio same => exact ratioEqual_iff.2 same
    | _ => simp [sameAtom]

end Object

namespace Heap

/-! ## Equal values -/

/-- Structural equality of the values behind two handles. -/
inductive Equals (h : Heap) : Value → Value → Prop where
  | same (v : Value) : Equals h v v
  | atom {v w : Value} {o o' : Object} : h.object? v = some o → h.object? w = some o' →
      o.SameData o' → Equals h v w
  | pair {v w car cdr car' cdr' : Value} : h.object? v = some (.pair car cdr) →
      h.object? w = some (.pair car' cdr') → Equals h car car' → Equals h cdr cdr' → Equals h v w

section Relation

variable {h : Heap} {u v w : Value}

theorem Equals.symm (equals : h.Equals v w) : h.Equals w v := by
  induction equals with
  | same v => exact .same v
  | atom found found' same => exact .atom found' found same.symm
  | pair found found' _ _ ihCar ihCdr => exact .pair found' found ihCar ihCdr

theorem Equals.trans (equals : h.Equals u v) (equals' : h.Equals v w) : h.Equals u w := by
  -- Induction on the first; what the slot in the middle holds decides which case the second is.
  induction equals generalizing w with
  | same v => exact equals'
  | atom found found' same =>
      cases equals' with
      | same _ => exact .atom found found' same
      | atom found₂ found₃ same' =>
          cases found'.symm.trans found₂
          exact .atom found found₃ (same.trans same')
      | pair found₂ _ _ _ =>
          cases found'.symm.trans found₂
          cases same
  | pair found found' car cdr ihCar ihCdr =>
      cases equals' with
      | same _ => exact .pair found found' car cdr
      | atom found₂ _ same =>
          cases found'.symm.trans found₂
          cases same
      | pair found₂ found₃ car' cdr' =>
          cases found'.symm.trans found₂
          exact .pair found found₃ (ihCar car') (ihCdr cdr')

/-- Two different pairs are equal if their parts are. -/
theorem equals_pair_iff {car cdr car' cdr' : Value} (different : v ≠ w)
    (found : h.object? v = some (.pair car cdr)) (found' : h.object? w = some (.pair car' cdr')) :
    h.Equals v w ↔ h.Equals car car' ∧ h.Equals cdr cdr' := by
  constructor
  · intro equals
    cases equals with
    | same _ => exact absurd rfl different
    | atom found₂ _ same =>
        cases found.symm.trans found₂
        cases same
    | pair found₂ found₃ isCar isCdr =>
        cases found.symm.trans found₂
        cases found'.symm.trans found₃
        exact ⟨isCar, isCdr⟩
  · rintro ⟨isCar, isCdr⟩
    exact .pair found found' isCar isCdr

/-- Two different values that are not both pairs are equal if they are atoms with the same data. -/
theorem equals_atom_iff {o o' : Object} (different : v ≠ w) (found : h.object? v = some o)
    (found' : h.object? w = some o') (apart : o.kind ≠ .pair ∨ o'.kind ≠ .pair) :
    h.Equals v w ↔ o.SameData o' := by
  constructor
  · intro equals
    cases equals with
    | same _ => exact absurd rfl different
    | atom found₂ found₃ same =>
        cases found.symm.trans found₂
        cases found'.symm.trans found₃
        exact same
    | pair found₂ found₃ _ _ =>
        cases found.symm.trans found₂
        cases found'.symm.trans found₃
        exact absurd rfl (apart.resolve_left (not_not_intro rfl))
  · exact .atom found found'

/-- What has no object is equal to nothing but itself. -/
theorem equals_iff_of_object?_none (missing : h.object? v = none ∨ h.object? w = none) :
    h.Equals v w ↔ v = w := by
  constructor
  · intro equals
    cases equals with
    | same _ => rfl
    | atom found found' _ => simp [found, found'] at missing
    | pair found found' _ _ => simp [found, found'] at missing
  · rintro rfl
    exact .same v

end Relation

/-! ## What a value is put together of -/

/-- The slot of a value, and what its pairs lead to. -/
def Comprises (h : Heap) (v : Value) (k : Nat) : Prop :=
  ∃ i, v = .slot i ∧ ReflTransGen h.Links i k

/-- A value whose pairs do not run in a circle and that no float is part of. -/
structure Comparable (h : Heap) (v : Value) : Prop where
  acyclic : ∀ k, h.Comprises v k → ¬ TransGen h.Links k k
  noFloat : ∀ k, h.Comprises v k → ∀ x, h.object? (.slot k) ≠ some (.float x)

open Classical in
/-- The slots of the arena that a value comprises. -/
noncomputable def extent (h : Heap) (v : Value) : Finset Nat :=
  (Finset.range h.slots.size).filter (h.Comprises v)

section Parts

variable {h : Heap} {v w car cdr : Value} {k : Nat} {o : Object}

theorem mem_extent_iff : k ∈ h.extent v ↔ k < h.slots.size ∧ h.Comprises v k := by
  simp only [extent, Finset.mem_filter, Finset.mem_range]

theorem mem_extent_self {i : Nat} (found : h.object? (.slot i) = some o) :
    i ∈ h.extent (.slot i) :=
  mem_extent_iff.2 ⟨lt_size_of_occupied (occupied_of_object? found), i, rfl, .refl⟩

/-- What a part of a pair comprises the pair comprises, and it is further down. -/
theorem comprises_of_part {i : Nat} (found : h.object? (.slot i) = some (.pair car cdr))
    (isPart : w = car ∨ w = cdr) (comprises : h.Comprises w k) : TransGen h.Links i k := by
  rcases comprises with ⟨j, rfl, leads⟩
  rcases isPart with rfl | rfl
  · exact .head' (.car found) leads
  · exact .head' (.cdr found) leads

theorem Comparable.part (c : h.Comparable v) (found : h.object? v = some (.pair car cdr))
    (isPart : w = car ∨ w = cdr) : h.Comparable w := by
  cases v with
  | nil => cases found
  | slot i =>
      have whole {k : Nat} (comprises : h.Comprises w k) : h.Comprises (.slot i) k :=
        ⟨i, rfl, (comprises_of_part found isPart comprises).to_reflTransGen⟩
      exact ⟨fun k part => c.acyclic k (whole part), fun k part => c.noFloat k (whole part)⟩

/-- A part of a pair comprises less than the pair, since it does not comprise the pair itself. -/
theorem Comparable.card_extent_lt (c : h.Comparable v)
    (found : h.object? v = some (.pair car cdr)) (isPart : w = car ∨ w = cdr) :
    (h.extent w).card < (h.extent v).card := by
  cases v with
  | nil => cases found
  | slot i =>
      have within : h.extent w ⊆ h.extent (.slot i) := by
        intro k member
        rcases mem_extent_iff.1 member with ⟨small, comprises⟩
        have leads := comprises_of_part found isPart comprises
        exact mem_extent_iff.2 ⟨small, i, rfl, leads.to_reflTransGen⟩
      have self := mem_extent_self found
      refine Finset.card_lt_card ((Finset.ssubset_iff_of_subset within).2 ⟨i, self, ?_⟩)
      intro member
      have leads := comprises_of_part found isPart (mem_extent_iff.1 member).2
      exact c.acyclic i (mem_extent_iff.1 self).2 leads

/-- What comprises nothing has no object. -/
theorem object?_of_card_extent (empty : (h.extent v).card = 0) : h.object? v = none := by
  cases v with
  | nil => rfl
  | slot i =>
      by_contra isSome
      rcases Option.ne_none_iff_exists'.1 isSome with ⟨o, found⟩
      have member := mem_extent_self found
      rw [Finset.card_eq_zero.1 empty] at member
      cases member

theorem card_extent_le (h : Heap) (v : Value) : (h.extent v).card ≤ h.slots.size := by
  have within : h.extent v ⊆ Finset.range h.slots.size := fun k member =>
    Finset.mem_range.2 (mem_extent_iff.1 member).1
  calc
    (h.extent v).card ≤ (Finset.range h.slots.size).card := Finset.card_le_card within
    _ = h.slots.size := Finset.card_range _

theorem Comparable.object_ne_float (c : h.Comparable v) (found : h.object? v = some o) (x : Float) :
    o ≠ .float x := by
  rintro rfl
  cases v with
  | nil => cases found
  | slot i => exact c.noFloat i ⟨i, rfl, .refl⟩ x found

end Parts

end Heap

/-! ## The walk -/

namespace Comparing

/-- The left value comprises no more slots than the depth of the comparison lets it. -/
def Ample (h : Heap) (c : Comparing) : Prop :=
  h.Comparable c.left ∧ (h.extent c.left).card ≤ c.depth

section Walk

open Unbounded (equalAll equalAll_nil equalAll_cons)
open Termination (equalAll_atom)

variable {h : Heap} {pending : List Comparing}

theorem Ample.part {depth : Nat} {v w part car cdr : Value} (ample : Ample h ⟨depth + 1, v, w⟩)
    (found : h.object? v = some (.pair car cdr)) (isPart : part = car ∨ part = cdr)
    (other : Value) : Ample h ⟨depth, part, other⟩ := by
  have less := ample.1.card_extent_lt found isPart
  exact ⟨ample.1.part found isPart, Nat.le_of_lt_succ (less.trans_le ample.2)⟩

/-- The comparisons still to be made succeed if all their values are equal. -/
theorem all_iff (ample : ∀ c ∈ pending, Ample h c) :
    all h pending = true ↔ ∀ c ∈ pending, h.Equals c.left c.right := by
  -- One case for each way the walk goes on; what is left of the list is ample again.
  fun_induction all h pending with
  | case1 => simp
  | case2 left right pending ih =>
    rcases List.forall_mem_cons.1 ample with ⟨⟨_, shallow⟩, rest⟩
    have missing := Heap.object?_of_card_extent (Nat.le_zero.1 shallow)
    rw [List.forall_mem_cons, Bool.and_eq_true, ih rest, beq_iff_eq,
      Heap.equals_iff_of_object?_none (.inl missing)]
  | case3 depth left right pending same ih =>
    rcases List.forall_mem_cons.1 ample with ⟨_, rest⟩
    obtain rfl : left = right := beq_iff_eq.1 same
    rw [List.forall_mem_cons, ih rest]
    exact (and_iff_right (.same left)).symm
  | case4 depth left right pending different car cdr car' cdr' found' found ih =>
    rcases List.forall_mem_cons.1 ample with ⟨whole, rest⟩
    have parts := List.forall_mem_cons.2 ⟨whole.part found (.inl rfl) car',
      List.forall_mem_cons.2 ⟨whole.part found (.inr rfl) cdr', rest⟩⟩
    rw [ih parts, List.forall_mem_cons, List.forall_mem_cons, List.forall_mem_cons,
      Heap.equals_pair_iff (mt beq_iff_eq.2 different) found found', and_assoc]
  | case5 depth left right pending different o o' apart found' found ih =>
    rcases List.forall_mem_cons.1 ample with ⟨whole, rest⟩
    rw [Bool.and_eq_true, ih rest, List.forall_mem_cons,
      Heap.equals_atom_iff (mt beq_iff_eq.2 different) found found' (Object.apart apart),
      Object.sameAtom_iff (whole.1.object_ne_float found)]
  | case6 depth left right pending different _ missing =>
    have isNone : h.object? left = none ∨ h.object? right = none := by
      by_contra both
      rcases not_or.1 both with ⟨some, some'⟩
      rcases Option.ne_none_iff_exists'.1 some with ⟨o, found⟩
      rcases Option.ne_none_iff_exists'.1 some' with ⟨o', found'⟩
      exact missing o o' found found'
    rw [List.forall_mem_cons, Heap.equals_iff_of_object?_none isNone]
    simp [mt beq_iff_eq.2 different]

/-- A walk that no depth bounds comes to its end, and to the same answer. -/
theorem equalAll_eq_all (ample : ∀ c ∈ pending, Ample h c) :
    equalAll h (pending.map fun c => (c.left, c.right)) = some (all h pending) := by
  fun_induction all h pending with
  | case1 => exact equalAll_nil h
  | case2 left right pending ih =>
    rcases List.forall_mem_cons.1 ample with ⟨⟨_, shallow⟩, rest⟩
    have missing := Heap.object?_of_card_extent (Nat.le_zero.1 shallow)
    rw [List.map_cons, equalAll_cons, ih rest, missing]
    cases left == right <;> rfl
  | case3 depth left right pending same ih =>
    rcases List.forall_mem_cons.1 ample with ⟨_, rest⟩
    rw [List.map_cons, equalAll_cons, if_pos same, ih rest]
  | case4 depth left right pending different car cdr car' cdr' found' found ih =>
    rcases List.forall_mem_cons.1 ample with ⟨whole, rest⟩
    have parts := List.forall_mem_cons.2 ⟨whole.part found (.inl rfl) car',
      List.forall_mem_cons.2 ⟨whole.part found (.inr rfl) cdr', rest⟩⟩
    rw [List.map_cons, equalAll_cons, if_neg different, found, found']
    exact ih parts
  | case5 depth left right pending different o o' apart found' found ih =>
    rcases List.forall_mem_cons.1 ample with ⟨_, rest⟩
    rw [List.map_cons, equalAll_atom (mt beq_iff_eq.2 different) found found' (Object.apart apart),
      ih rest]
    cases o.sameAtom o' <;> rfl
  | case6 depth left right pending different _ missing =>
    rw [List.map_cons, equalAll_cons, if_neg different]
    cases found : h.object? left with
    | none => rfl
    | some o =>
      cases found' : h.object? right with
      | none => cases o <;> rfl
      | some o' => exact absurd found' (missing o o' found)

end Walk

end Comparing

namespace Heap

variable {h : Heap} {a b : Value}

/-- At the outset the depth allows for all slots there are. -/
theorem ample (comparable : h.Comparable a) :
    ∀ c ∈ [Comparing.mk ((h.slots.size + 1) * (h.slots.size + 1)) a b], Comparing.Ample h c := by
  intro c member
  rw [List.mem_singleton.1 member]
  refine ⟨comparable, ?_⟩
  calc
    (h.extent a).card ≤ h.slots.size := h.card_extent_le a
    _ ≤ (h.slots.size + 1) * (h.slots.size + 1) :=
      (Nat.le_succ _).trans (Nat.le_mul_of_pos_left _ (Nat.succ_pos _))

/-- Comparing decides the relation. -/
theorem equal_iff (comparable : h.Comparable a) : h.equal a b = true ↔ h.Equals a b := by
  rw [equal, Comparing.all_iff (ample comparable), List.forall_mem_singleton]

/--
On values without cycles and without floats the walk comes to an end by itself and finds out
whether they are equal, which is an equivalence; and no product that it compares leaves 128 bits.
-/
theorem equal_is_structural (h : Heap) (a b : Value) (comparable : h.Comparable a)
    (comparable' : h.Comparable b) :
    Unbounded.equal h a b = some (h.equal a b) ∧
      (h.equal a b = true ↔ h.Equals a b) ∧
      h.equal a a = true ∧
      h.equal a b = h.equal b a ∧
      (∀ c, h.equal a b = true → h.equal b c = true → h.equal a c = true) ∧
      ∀ m n : Int64,
        BitVec.smulOverflow (m.toBitVec.signExtend 128) (n.toBitVec.signExtend 128) = false := by
  refine ⟨Comparing.equalAll_eq_all (ample comparable), equal_iff comparable,
    (equal_iff comparable).2 (.same a), Bool.eq_iff_iff.2 ?_, ?_, not_smulOverflow⟩
  · rw [equal_iff comparable, equal_iff comparable']
    exact ⟨Equals.symm, Equals.symm⟩
  · intro c
    rw [equal_iff comparable, equal_iff comparable', equal_iff comparable]
    exact Equals.trans

/-- Where pairs only lead down the arena and floats are absent, everything can be compared. -/
theorem comparable_of_descending (down : ∀ i k, h.Links i k → k < i)
    (noFloat : ∀ i x, h.object? (.slot i) ≠ some (.float x)) (v : Value) : h.Comparable v := by
  refine ⟨fun k _ circle => ?_, fun k _ => noFloat k⟩
  have far {i j : Nat} (leads : TransGen h.Links i j) : j < i := by
    induction leads with
    | single links => exact down _ _ links
    | tail _ links ih => exact (down _ _ links).trans ih
  exact lt_irrefl k (far circle)

/-- A heap with the lists `(1/2)` in slot 3 and `(2/4)` in slot 5. -/
def halves : Heap :=
  { Heap.empty 8 with
    slots := #[⟨some (.environment .nil none), false⟩, ⟨some (.symbol "t"), false⟩,
      ⟨some (.ratio 1 2), false⟩, ⟨some (.pair (.slot 2) .nil), false⟩,
      ⟨some (.ratio 2 4), false⟩, ⟨some (.pair (.slot 4) .nil), false⟩]
    live := 6 }

theorem comparable_halves (v : Value) : halves.Comparable v := by
  have small {i : Nat} {o : Object} (found : halves.object? (.slot i) = some o) : i < 6 :=
    lt_size_of_occupied (occupied_of_object? found)
  refine comparable_of_descending ?_ ?_ v
  · rintro i k (found | found)
    · have inside := small found
      interval_cases i <;> cases found <;> decide
    · have inside := small found
      interval_cases i <;> cases found
  · intro i x found
    have inside := small found
    interval_cases i <;> cases found

theorem equal_is_structural_halves :
    halves.Comparable (.slot 3) ∧ halves.Comparable (.slot 5) ∧
      Unbounded.equal halves (.slot 3) (.slot 5) = some true := by
  have comparable := comparable_halves (.slot 3)
  have comparable' := comparable_halves (.slot 5)
  rcases equal_is_structural halves (.slot 3) (.slot 5) comparable comparable' with
    ⟨ends, decides, _⟩
  have same : SameRatio 1 2 2 4 := ratioEqual_iff.1 (by decide)
  have equals : halves.Equals (.slot 3) (.slot 5) :=
    .pair rfl rfl (.atom rfl rfl (.ratio same)) (.same .nil)
  exact ⟨comparable, comparable', ends.trans (congrArg some (decides.2 equals))⟩

end Heap

end Lisplet
