import Lisplet.Atom
import Lisplet.Token
import Mathlib.Data.List.TakeWhile

/-!
# Numeral — the characters of printed numbers

The decimal text of an integer consists of digits with an optional minus sign, and a ratio is two
of them with a slash in between. So neither contains a character that would end an atom.
-/

namespace Lisplet

namespace Atom

/-- The decimal text of an integer. -/
def numeral (n : Int) : List Char := (toString n).toList

theorem toDigits_all_isDigit (m : Nat) : ∀ c ∈ Nat.toDigits 10 m, c.isDigit = true :=
  fun _ member => Nat.isDigit_of_mem_toDigits (by decide) (by decide) member

/-- A numeral is the digits of the absolute value, behind a minus sign for a negative number. -/
theorem numeral_cases (n : Int) :
    (0 ≤ n ∧ numeral n = Nat.toDigits 10 n.natAbs) ∨
      (n < 0 ∧ numeral n = '-' :: Nat.toDigits 10 n.natAbs) := by
  cases n with
  | ofNat m =>
      refine .inl ⟨Int.natCast_nonneg m, ?_⟩
      show (Nat.repr m).toList = _
      exact Nat.toList_repr
  | negSucc m =>
      refine .inr ⟨Int.negSucc_lt_zero m, ?_⟩
      show ("-" ++ Nat.repr (m + 1)).toList = _
      rw [String.toList_append, Nat.toList_repr]
      rfl

theorem mem_numeral {n : Int} {c : Char} (member : c ∈ numeral n) : c = '-' ∨ c.isDigit = true := by
  rcases numeral_cases n with ⟨_, text⟩ | ⟨_, text⟩
  · rw [text] at member
    exact .inr (toDigits_all_isDigit _ c member)
  · rw [text] at member
    rcases List.mem_cons.1 member with rfl | digit
    · exact .inl rfl
    · exact .inr (toDigits_all_isDigit _ c digit)

theorem numeral_ne_nil (n : Int) : numeral n ≠ [] := by
  rcases numeral_cases n with ⟨_, text⟩ | ⟨_, text⟩
  · rw [text]
    exact Nat.toDigits_ne_nil
  · rw [text]
    exact List.cons_ne_nil _ _

theorem toNat_of_isDigit {c : Char} (digit : c.isDigit = true) : 48 ≤ c.toNat ∧ c.toNat ≤ 57 := by
  simp only [Char.isDigit, Bool.and_eq_true, decide_eq_true_eq] at digit
  have low : (48 : Nat) ≤ c.val.toNat := digit.1
  have high : c.val.toNat ≤ 57 := digit.2
  exact ⟨low, high⟩

theorem isAtomChar_of_isDigit {c : Char} (digit : c.isDigit = true) :
    Token.isAtomChar c = true := by
  have range := toNat_of_isDigit digit
  -- Every character that ends an atom has a code outside the range of the digits.
  have different : ∀ d : Char, (d.toNat < 48 ∨ 57 < d.toNat) → c ≠ d := by
    rintro d outside rfl
    omega
  have blank : Text.isWhiteSpace c = false := by
    simp only [Text.isWhiteSpace, Text.inRanges, Text.whiteSpaceRanges, List.any_cons,
      List.any_nil, Bool.or_false]
    simp only [Bool.or_eq_false_iff, Bool.and_eq_false_iff, decide_eq_false_iff_not]
    omega
  unfold Token.isAtomChar
  simp [blank, different '(' (by decide), different ')' (by decide), different '\x27' (by decide),
    different '\x22' (by decide), different ';' (by decide)]

theorem isAtomChar_of_mem_numeral {n : Int} {c : Char} (member : c ∈ numeral n) :
    Token.isAtomChar c = true := by
  rcases mem_numeral member with rfl | digit
  · decide
  · exact isAtomChar_of_isDigit digit

/-! ## Ratios -/

/-- The characters of a ratio. -/
def ratioChars (n d : Int) : List Char := numeral n ++ '/' :: numeral d

theorem toList_ratio (n d : Int) : (toString n ++ "/" ++ toString d).toList = ratioChars n d := by
  rw [String.toList_append, String.toList_append, List.append_assoc]
  rfl

theorem isAtomChar_of_mem_ratioChars {n d : Int} {c : Char} (member : c ∈ ratioChars n d) :
    Token.isAtomChar c = true := by
  rcases List.mem_append.1 member with first | rest
  · exact isAtomChar_of_mem_numeral first
  · rcases List.mem_cons.1 rest with rfl | second
    · decide
    · exact isAtomChar_of_mem_numeral second

end Atom

end Lisplet
