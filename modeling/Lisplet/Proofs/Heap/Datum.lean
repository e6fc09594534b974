import Lisplet.Heap.Equal
import Lisplet.Heap.Print
import Lisplet.Proofs.Heap.Slots
import Mathlib.Data.Fintype.Card

/-!
# Datum — finite values as trees

A value whose pairs do not run in a circle denotes a tree, whatever its pairs share.
`Heap.Denotes` relates the two. The walks over values that are bounded by the number of slots
come to their natural end on such a value, since the slots on a path through it are all
different; so its printed form can be read off the tree.
-/

namespace Lisplet

/-- A value with its pairs unfolded. What is not a pair keeps the slot it is in. -/
inductive Datum where
  | nil
  | atom (index : Nat) (object : Object)
  | pair (car cdr : Datum)

namespace Datum

/-- How many pairs lie one inside the other. -/
def height : Datum → Nat
  | nil | atom _ _ => 0
  | pair car cdr => max car.height cdr.height + 1

mutual

/-- The characters of the printed form. -/
def text (style : Style) : Datum → List Char
  | nil => "nil".toList
  | atom i o => (o.text style (.slot i)).toList
  | pair car cdr => '(' :: (car.text style ++ cdr.tailText style)

/-- The characters of what follows an element of a list, with the closing parenthesis. -/
def tailText (style : Style) : Datum → List Char
  | nil => [')']
  | atom i o => " . ".toList ++ (o.text style (.slot i)).toList ++ [')']
  | pair car cdr => ' ' :: (car.text style ++ cdr.tailText style)

end

/-- Whether two trees are equal; an atom is equal to itself even if its object is not. -/
def sameAs : Datum → Datum → Bool
  | nil, nil => true
  | atom i o, atom j o' => i == j || o.sameAtom o'
  | pair a d, pair a' d' => a.sameAs a' && d.sameAs d'
  | _, _ => false

theorem sameAs_self (d : Datum) : d.sameAs d = true := by
  induction d with
  | nil => rfl
  | atom i o => simp [sameAs]
  | pair a d ihCar ihCdr => simp [sameAs, ihCar, ihCdr]

end Datum

theorem Object.sameAtom_of_kind_ne {o o' : Object} (different : o.kind ≠ o'.kind) :
    o.sameAtom o' = false := by
  cases o with
  | _ =>
      cases o' with
      | _ => first | rfl | exact absurd rfl different

namespace Heap

/-- A value is a finite structure of pairs, and `d` is that structure. -/
inductive Denotes (h : Heap) : Value → Datum → Prop where
  | nil : Denotes h .nil .nil
  | atom {i : Nat} {o : Object} :
      h.object? (.slot i) = some o → o.kind ≠ .pair → Denotes h (.slot i) (.atom i o)
  | pair {i : Nat} {car cdr : Value} {a d : Datum} :
      h.object? (.slot i) = some (.pair car cdr) → Denotes h car a → Denotes h cdr d →
        Denotes h (.slot i) (.pair a d)

section Denoting

variable {h : Heap} {v : Value} {d : Datum}

theorem Denotes.unique {d' : Datum} (one : h.Denotes v d) (other : h.Denotes v d') : d = d' := by
  -- Induction on one of the two; the object in the slot decides which case the other is.
  induction one generalizing d' with
  | nil =>
      cases other
      rfl
  | atom found isAtom =>
      cases other with
      | atom found' _ =>
          rw [found] at found'
          cases found'
          rfl
      | pair found' _ _ =>
          rw [found] at found'
          cases found'
          exact absurd rfl isAtom
  | pair found _ _ ihCar ihCdr =>
      cases other with
      | atom found' isAtom =>
          rw [found] at found'
          cases found'
          exact absurd rfl isAtom
      | pair found' car' cdr' =>
          rw [found] at found'
          cases found'
          rw [ihCar car', ihCdr cdr']

theorem Denotes.holds (denotes : h.Denotes v d) : h.Holds v := by
  cases denotes with
  | nil => exact holds_nil h
  | atom found _ => exact holds_of_object? found
  | pair found _ _ => exact holds_of_object? found

/-- A later heap with the same objects holds the same structure. -/
theorem Denotes.transfer {h' : Heap} (kept : ∀ v o, h.object? v = some o → h'.object? v = some o)
    (denotes : h.Denotes v d) : h'.Denotes v d := by
  induction denotes with
  | nil => exact .nil
  | atom found isAtom => exact .atom (kept _ _ found) isAtom
  | pair found _ _ ihCar ihCdr => exact .pair (kept _ _ found) ihCar ihCdr

/-! ## The height of a value -/

/--
Numbers below a bound that belong to slots of their own are no more than there are slots.
-/
theorem le_size_of_assigned {n : Nat} (belongs : Nat → Nat → Prop)
    (inside : ∀ i k, belongs i k → i < h.slots.size)
    (unique : ∀ i k k', belongs i k → belongs i k' → k = k')
    (assigned : ∀ k, k < n → ∃ i, belongs i k) : n ≤ h.slots.size := by
  have choice : ∀ k : Fin n, ∃ i : Fin h.slots.size, belongs i k := by
    intro k
    rcases assigned k k.isLt with ⟨i, isAssigned⟩
    exact ⟨⟨i, inside i k isAssigned⟩, isAssigned⟩
  -- Choosing a slot for every number is injective, as no slot belongs to two numbers.
  choose slotOf isAssigned using choice
  have injective : Function.Injective slotOf := by
    intro k k' same
    have both := isAssigned k'
    rw [← same] at both
    exact Fin.ext (unique _ _ _ (isAssigned k) both)
  simpa using Fintype.card_le_of_injective slotOf injective

/-- On the way down from a value every smaller height is met at some pair. -/
theorem Denotes.exists_height (denotes : h.Denotes v d) {k : Nat} (below : k < d.height) :
    ∃ i d', h.Denotes (.slot i) d' ∧ d'.height = k + 1 := by
  induction denotes with
  | nil => exact absurd below (Nat.not_lt_zero k)
  | atom _ _ => exact absurd below (Nat.not_lt_zero k)
  | @pair i car cdr a d found denotesCar denotesCdr ihCar ihCdr =>
      simp only [Datum.height] at below
      -- Below this pair one part has all the smaller heights, and the pair itself has the last.
      by_cases inCar : k < a.height
      · exact ihCar inCar
      · by_cases inCdr : k < d.height
        · exact ihCdr inCdr
        · refine ⟨i, .pair a d, .pair found denotesCar denotesCdr, ?_⟩
          simp only [Datum.height]
          omega

theorem Denotes.height_le (denotes : h.Denotes v d) : d.height ≤ h.slots.size := by
  refine le_size_of_assigned
    (fun i k => ∃ d', h.Denotes (.slot i) d' ∧ d'.height = k + 1) ?_ ?_ ?_
  · rintro i k ⟨d', denotes', _⟩
    exact lt_size_of_occupied (holds_slot_iff.1 denotes'.holds)
  · rintro i k k' ⟨d', denotes', height⟩ ⟨d'', denotes'', height'⟩
    rw [denotes'.unique denotes''] at height
    omega
  · intro k below
    exact denotes.exists_height below

/-! ## Printing -/

theorem pair?_of_atom {o : Object} (found : h.object? v = some o) (isAtom : o.kind ≠ .pair) :
    h.pair? v = none := by
  unfold pair?
  split
  · next isPair =>
    rw [found] at isPair
    cases isPair
    exact absurd rfl isAtom
  · rfl

theorem atomText_slot {i : Nat} {o : Object} (style : Style)
    (found : h.object? (.slot i) = some o) :
    h.atomText style (.slot i) = o.text style (.slot i) := by
  unfold atomText
  rw [found]

/-- Printing a piece adds its text to what has been printed. -/
theorem print_piece (style : Style) (denotes : h.Denotes v d) {depth : Nat}
    (deep : d.height < depth) (out : String) (pieces : List Piece) :
    Piece.print h style out (.value depth v :: pieces) =
        Piece.print h style (out ++ String.ofList (d.text style)) pieces ∧
      Piece.print h style out (.tail depth v :: pieces) =
        Piece.print h style (out ++ String.ofList (d.tailText style)) pieces := by
  -- Both claims at once: an element is followed by a tail, and a tail goes on with an element.
  induction denotes generalizing depth out pieces with
  | nil =>
      rcases depth with _ | depth
      · exact absurd deep (Nat.not_lt_zero _)
      · constructor
        · rw [Piece.print]
          rfl
        · rw [Piece.print]
          rfl
  | @atom i o found isAtom =>
      rcases depth with _ | depth
      · exact absurd deep (Nat.not_lt_zero _)
      · have none := pair?_of_atom found isAtom
        constructor
        · rw [Piece.print, none, atomText_slot style found, Datum.text, String.ofList_toList]
        · have join : (out ++ " . " ++ o.text style (.slot i)).push ')' =
              out ++ String.ofList ((Datum.atom i o).tailText style) := by
            refine String.toList_inj.1 ?_
            simp [Datum.tailText]
          rw [Piece.print, none, atomText_slot style found, ← join]
          rfl
  | @pair i car cdr a d found _ _ ihCar ihCdr =>
      rcases depth with _ | depth
      · exact absurd deep (Nat.not_lt_zero _)
      · have some := pair?_eq_some_iff.2 found
        simp only [Datum.height] at deep
        have deepCar : a.height < depth := by omega
        have deepCdr : d.height < depth := by omega
        constructor
        · have join : out.push '(' ++ String.ofList (a.text style) ++
              String.ofList (d.tailText style) =
                out ++ String.ofList ((Datum.pair a d).text style) := by
            refine String.toList_inj.1 ?_
            simp [Datum.text]
          rw [Piece.print, some, ← join]
          simp only
          rw [(ihCar deepCar _ _).1, (ihCdr deepCdr _ _).2]
        · have join : out.push ' ' ++ String.ofList (a.text style) ++
              String.ofList (d.tailText style) =
                out ++ String.ofList ((Datum.pair a d).tailText style) := by
            refine String.toList_inj.1 ?_
            simp [Datum.tailText]
          rw [Piece.print, some, ← join]
          simp only
          rw [(ihCar deepCar _ _).1, (ihCdr deepCdr _ _).2]

/-- The printed form of a finite value is the text of its tree. -/
theorem print_eq (style : Style) (denotes : h.Denotes v d) :
    h.print style v = String.ofList (d.text style) := by
  have deep : d.height < h.slots.size + 1 := Nat.lt_succ_of_le denotes.height_le
  unfold print
  rw [(print_piece style denotes deep "" []).1, Piece.print]
  simp

/-! ## Comparing -/

theorem ne_of_kind_ne {w : Value} {o o' : Object} (found : h.object? v = some o)
    (found' : h.object? w = some o') (different : o.kind ≠ o'.kind) : v ≠ w := by
  rintro rfl
  rw [found] at found'
  cases found'
  exact different rfl

/-- Two different values of which one is an atom are compared as one piece. -/
theorem all_atom {w : Value} {o o' : Object} {depth : Nat} (different : v ≠ w)
    (found : h.object? v = some o) (found' : h.object? w = some o')
    (apart : o.kind ≠ .pair ∨ o'.kind ≠ .pair) (pending : List Comparing) :
    Comparing.all h (⟨depth + 1, v, w⟩ :: pending) =
      (o.sameAtom o' && Comparing.all h pending) := by
  rw [Comparing.all, if_neg (by simpa using different), found, found']
  cases o with
  | pair car cdr =>
      cases o' with
      | pair car' cdr' => exact absurd rfl (apart.resolve_left fun isAtom => isAtom rfl)
      | _ => rfl
  | _ => rfl

/-- A comparison that is deep enough comes out as it does for the trees. -/
theorem all_eq {w : Value} {e : Datum} (denotes : h.Denotes v d) (denotes' : h.Denotes w e)
    {depth : Nat} (deep : d.height < depth) (pending : List Comparing) :
    Comparing.all h (⟨depth, v, w⟩ :: pending) = (d.sameAs e && Comparing.all h pending) := by
  induction denotes generalizing w e depth pending with
  | nil =>
      rcases depth with _ | depth
      · exact absurd deep (Nat.not_lt_zero _)
      cases denotes' with
      | nil => simp [Comparing.all, Datum.sameAs]
      | atom found _ => simp [Comparing.all, Datum.sameAs]
      | pair found _ _ => simp [Comparing.all, Datum.sameAs]
  | @atom i o found isAtom =>
      rcases depth with _ | depth
      · exact absurd deep (Nat.not_lt_zero _)
      cases denotes' with
      | nil => simp [Comparing.all, Datum.sameAs]
      | @atom j o' found' _ =>
          -- The same slot is equal to itself at once, even if it holds no number.
          by_cases same : i = j
          · subst same
            simp [Comparing.all, Datum.sameAs]
          · have different : Value.slot i ≠ .slot j := by simpa using same
            have distinct : (i == j) = false := by simpa using same
            rw [all_atom different found found' (.inl isAtom), Datum.sameAs, distinct,
              Bool.false_or]
      | @pair j car' cdr' a' d' found' _ _ =>
          have different := ne_of_kind_ne found found' isAtom
          rw [all_atom different found found' (.inl isAtom), Object.sameAtom_of_kind_ne isAtom]
          rfl
  | @pair i car cdr a d found denotesCar denotesCdr ihCar ihCdr =>
      rcases depth with _ | depth
      · exact absurd deep (Nat.not_lt_zero _)
      cases denotes' with
      | nil => simp [Comparing.all, Datum.sameAs]
      | @atom j o' found' isAtom =>
          have different := ne_of_kind_ne found found' (Ne.symm isAtom)
          rw [all_atom different found found' (.inr isAtom),
            Object.sameAtom_of_kind_ne (Ne.symm isAtom)]
          rfl
      | @pair j car' cdr' a' d' found' denotesCar' denotesCdr' =>
          by_cases same : i = j
          · subst same
            rw [found] at found'
            cases found'
            -- One slot denotes one tree, and the comparison does not even look into it.
            rw [denotesCar'.unique denotesCar, denotesCdr'.unique denotesCdr, Datum.sameAs_self]
            simp [Comparing.all]
          · have different : ¬ (Value.slot i == .slot j) = true := by simpa using same
            simp only [Datum.height] at deep
            rw [Comparing.all, if_neg different, found, found']
            simp only
            rw [ihCar denotesCar' (by omega), ihCdr denotesCdr' (by omega), Datum.sameAs,
              Bool.and_assoc]

/-- Finite values are equal exactly if their trees are. -/
theorem equal_eq {w : Value} {e : Datum} (denotes : h.Denotes v d) (denotes' : h.Denotes w e) :
    h.equal v w = d.sameAs e := by
  have deep : d.height < (h.slots.size + 1) * (h.slots.size + 1) := by
    have bound := Nat.lt_succ_of_le denotes.height_le
    exact Nat.lt_of_lt_of_le bound (Nat.le_mul_of_pos_right _ (Nat.succ_pos _))
  unfold equal
  rw [all_eq denotes denotes' deep, Comparing.all, Bool.and_true]

end Denoting

end Heap

end Lisplet
