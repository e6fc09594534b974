import Lisplet.Proofs.Text.Numeral
import Mathlib.Algebra.Ring.Int.Defs
import Mathlib.Algebra.Ring.Nat
import Mathlib.Data.List.Induction

/-!
# Classification — what an atom stands for

The grammar of numbers says which texts are numbers, and which numbers they are, without looking at
how an atom is taken apart: `Digits`, `Signed`, `Pointed` and `Slashed`. `Stands` lists whatever an
atom can stand for by this grammar. Every atom stands for something, and it is classified as that
and as nothing else (`classify_iff`).

The three shapes of numbers are tried one after the other, and the sign is cut off for each of them
anew. That this comes to the grammar rests on the characters: neither a point nor a slash is a
digit, so no text has two of the shapes.
-/

namespace Lisplet

namespace Atom

/-! ## The grammar of numbers -/

/--
One or more decimal digits, and the number that they denote. Each further digit makes it ten times
as large and is added to it.
-/
inductive Digits : List Char → Nat → Prop where
  | digit {d : Nat} : d < 10 → Digits [d.digitChar] d
  | further {cs : List Char} {n d : Nat} : Digits cs n → d < 10 →
      Digits (cs ++ [d.digitChar]) (10 * n + d)

/-- Digits with an optional minus sign, and the integer that they denote. -/
inductive Signed : List Char → Int → Prop where
  | plain {cs : List Char} {n : Nat} : Digits cs n → Signed cs n
  | minus {cs : List Char} {n : Nat} : Digits cs n → Signed ('-' :: cs) (-n)

/--
Digits with one point between them and an optional minus sign: whether there is a sign, what the
digits denote without the point, and how many of them are behind it.
-/
inductive Pointed : List Char → Bool → Nat → Nat → Prop where
  | plain {whole fraction : List Char} {n k : Nat} : Digits whole n → Digits fraction k →
      Pointed (whole ++ '.' :: fraction) false (10 ^ fraction.length * n + k) fraction.length
  | minus {cs : List Char} {digits places : Nat} : Pointed cs false digits places →
      Pointed ('-' :: cs) true digits places

/-- Two numerals with a slash between them, of which the second has no sign. -/
structure Slashed (cs numer denom : List Char) (a b : Int) : Prop where
  text : cs = numer ++ '/' :: denom
  numer : Signed numer a
  denom : ∃ d : Nat, Digits denom d ∧ b = d

/-- A text of one of the three shapes. -/
def IsNumber (cs : List Char) : Prop :=
  (∃ n, Signed cs n) ∨ (∃ negative digits places, Pointed cs negative digits places) ∨
    ∃ numer denom a b, Slashed cs numer denom a b

/-- An integer of 64 bits. -/
def Fits (n : Int) : Prop := -2 ^ 63 ≤ n ∧ n < 2 ^ 63

/--
The part of a number that is no integer of 64 bits. Of a ratio it is the numerator if that is none,
and the denominator only if the numerator is one.
-/
inductive Exceeds (cs : List Char) : List Char → Prop where
  | whole {n : Int} : Signed cs n → ¬ Fits n → Exceeds cs cs
  | numer {numer denom : List Char} {a b : Int} : Slashed cs numer denom a b → ¬ Fits a →
      Exceeds cs numer
  | denom {numer denom : List Char} {a b : Int} : Slashed cs numer denom a b → Fits a →
      ¬ Fits b → Exceeds cs denom

/-- What an atom stands for by the grammar, or what is wrong with it. -/
inductive Stands (text : String) : Except ReadFault Atom → Prop where
  | nil : text = "nil" → Stands text (.ok .nil)
  | dot : text = "." → Stands text (.ok .dot)
  | int {n : Int64} : Signed text.toList n.toInt → Stands text (.ok (.int n))
  | float {negative : Bool} {digits places : Nat} :
      Pointed text.toList negative digits places →
      Stands text (.ok (.float (Decimal.nearest negative digits places)))
  | ratio {numer denom : List Char} {a b : Int64} :
      Slashed text.toList numer denom a.toInt b.toInt → Stands text (.ok (.ratio a b))
  | overflow {part : List Char} : Exceeds text.toList part →
      Stands text (.error (.integerOverflow (String.ofList part)))
  | symbol : text ≠ "nil" → text ≠ "." → ¬ IsNumber text.toList → Stands text (.ok (.symbol text))

/-! ## Digits -/

section Parts

variable {cs whole fraction numer denom before after : List Char} {c : Char} {n a b : Int}
  {m digits places : Nat} {negative : Bool}

theorem digitsValue_append (cs ds : List Char) :
    digitsValue (cs ++ ds) = 10 ^ ds.length * digitsValue cs + digitsValue ds :=
  calc
    digitsValue (cs ++ ds) = Nat.ofDigitChars 10 ds (digitsValue cs) := Nat.ofDigitChars_append 0
    _ = 10 ^ ds.length * digitsValue cs + digitsValue ds := Nat.ofDigitChars_eq_ofDigitChars_zero

theorem digitsValue_digitChar {d : Nat} (small : d < 10) : digitsValue [d.digitChar] = d := by
  have code : d.digitChar.toNat = 48 + d := Nat.toNat_digitChar_of_lt_ten small
  show 10 * 0 + (d.digitChar.toNat - 48) = d
  omega

theorem isDigits_iff : isDigits cs = true ↔ cs ≠ [] ∧ ∀ c ∈ cs, c.isDigit = true := by
  simp [isDigits]

theorem not_mem_of_isDigits (digits : isDigits cs = true) (other : c.isDigit = false) : c ∉ cs := by
  intro member
  have digit := (isDigits_iff.1 digits).2 c member
  rw [other] at digit
  cases digit

theorem exists_digitChar (digit : c.isDigit = true) : ∃ d < 10, c = d.digitChar := by
  have range := toNat_of_isDigit digit
  have small : c.toNat - 48 < 10 := by omega
  refine ⟨c.toNat - 48, small, Char.toNat_inj.1 ?_⟩
  rw [Nat.toNat_digitChar_of_lt_ten small]
  omega

theorem Digits.isDigits (digits : Digits cs m) : isDigits cs = true := by
  rw [isDigits_iff]
  induction digits with
  | digit small => simp [Nat.isDigit_digitChar, small]
  | @further cs n d _ small ih =>
      refine ⟨by simp, ?_⟩
      intro c member
      rcases List.mem_append.1 member with earlier | last
      · exact ih.2 c earlier
      · rw [List.mem_singleton.1 last, Nat.isDigit_digitChar]
        exact decide_eq_true small

theorem Digits.value (digits : Digits cs m) : digitsValue cs = m := by
  induction digits with
  | digit small => exact digitsValue_digitChar small
  | further _ small ih =>
      rw [digitsValue_append, ih, digitsValue_digitChar small]
      rfl

theorem digits_of_isDigits (digits : Atom.isDigits cs = true) : Digits cs (digitsValue cs) := by
  rw [isDigits_iff] at digits
  -- Induction from the right, since it is the last digit that counts once.
  induction cs using List.reverseRecOn with
  | nil => exact absurd rfl digits.1
  | append_singleton cs c ih =>
      rcases exists_digitChar (digits.2 c (by simp)) with ⟨d, small, rfl⟩
      have value : digitsValue (cs ++ [d.digitChar]) = 10 * digitsValue cs + d := by
        rw [digitsValue_append, digitsValue_digitChar small]
        rfl
      rw [value]
      by_cases none : cs = []
      · subst none
        simpa [digitsValue] using Digits.digit small
      · have earlier := ih ⟨none, fun c member => digits.2 c (List.mem_append_left _ member)⟩
        exact .further earlier small

/-! ## Signs -/

theorem splitSign_cases (cs : List Char) : splitSign cs = (false, cs) ∨
    ∃ unsigned, cs = '-' :: unsigned ∧ splitSign cs = (true, unsigned) := by
  cases cs with
  | nil => exact .inl rfl
  | cons c cs =>
      by_cases minus : c = '-'
      · subst minus
        exact .inr ⟨cs, rfl, rfl⟩
      · exact .inl (if_neg minus)

/-- There is no sign in front of digits, whatever is behind them. -/
theorem splitSign_append (digits : isDigits before = true) (after : List Char) :
    splitSign (before ++ after) = (false, before ++ after) := by
  cases before with
  | nil => cases digits
  | cons c cs =>
      refine if_neg ?_
      rintro rfl
      exact not_mem_of_isDigits digits (by decide) List.mem_cons_self

theorem mem_unsigned (member : c ∈ cs) (notSign : c ≠ '-') : c ∈ (splitSign cs).2 := by
  rcases splitSign_cases cs with plain | ⟨unsigned, rfl, minus⟩
  · rw [plain]
    exact member
  · rw [minus]
    rcases List.mem_cons.1 member with same | later
    · exact absurd same notSign
    · exact later

theorem signed_iff : Signed cs n ↔ isDigits (splitSign cs).2 = true ∧ signedValue cs = n := by
  constructor
  · intro signed
    cases signed with
    | plain digits =>
        have sign := splitSign_append digits.isDigits []
        rw [List.append_nil] at sign
        unfold signedValue
        rw [sign]
        exact ⟨digits.isDigits, congrArg Int.ofNat digits.value⟩
    | minus digits => exact ⟨digits.isDigits, congrArg (fun k : Nat => -(k : Int)) digits.value⟩
  · rintro ⟨digits, rfl⟩
    rcases splitSign_cases cs with plain | ⟨unsigned, rfl, _⟩
    · unfold signedValue
      rw [plain] at digits ⊢
      exact .plain (digits_of_isDigits digits)
    · exact .minus (digits_of_isDigits digits)

theorem Signed.not_mem (signed : Signed cs n) (notSign : c ≠ '-') (other : c.isDigit = false) :
    c ∉ cs := by
  intro member
  exact not_mem_of_isDigits (signed_iff.1 signed).1 other (mem_unsigned member notSign)

/-! ## Points and slashes -/

/-- A text is split at the first occurrence of a character. -/
theorem splitAt?_eq_some_iff :
    splitAt? c cs = some (before, after) ↔ cs = before ++ c :: after ∧ c ∉ before := by
  unfold splitAt?
  constructor
  · intro found
    have text : cs.takeWhile (· != c) ++ cs.dropWhile (· != c) = cs :=
      List.takeWhile_append_dropWhile
    have first := List.head?_dropWhile_not (· != c) cs
    cases rest : cs.dropWhile (· != c) with
    | nil =>
        rw [rest] at found
        cases found
    | cons d ds =>
        rw [rest] at found text first
        cases found
        have same : d = c := by simpa using first
        subst same
        refine ⟨text.symm, ?_⟩
        intro member
        simpa using List.mem_takeWhile_imp member
  · rintro ⟨rfl, absent⟩
    have skips : ∀ d ∈ before, (d != c) = true := by
      intro d member
      have different : d ≠ c := fun same => absent (same ▸ member)
      simpa using different
    have rest : (before ++ c :: after).dropWhile (· != c) = c :: after := by
      rw [List.dropWhile_append_of_pos skips]
      simp
    have first : (before ++ c :: after).takeWhile (· != c) = before := by
      rw [List.takeWhile_append_of_pos skips]
      simp
    rw [rest, first]

theorem pointed?_eq (cs : List Char) : pointed? cs =
    (splitAt? '.' cs).filter fun parts => isDigits parts.1 && isDigits parts.2 := by
  unfold pointed?
  cases splitAt? '.' cs with
  | none => rfl
  | some parts => rfl

theorem pointed?_eq_some_iff : pointed? cs = some (whole, fraction) ↔
    cs = whole ++ '.' :: fraction ∧ isDigits whole = true ∧ isDigits fraction = true := by
  rw [pointed?_eq, Option.filter_eq_some_iff, splitAt?_eq_some_iff, Bool.and_eq_true_iff]
  constructor
  · rintro ⟨⟨text, _⟩, digits⟩
    exact ⟨text, digits⟩
  · rintro ⟨text, digits⟩
    -- The digits have no point, so the point behind them is the first one.
    exact ⟨⟨text, not_mem_of_isDigits digits.1 (by decide)⟩, digits⟩

theorem slashed?_eq (cs : List Char) : slashed? cs =
    (splitAt? '/' cs).filter fun parts => isDigits (splitSign parts.1).2 && isDigits parts.2 := by
  unfold slashed?
  cases splitAt? '/' cs with
  | none => rfl
  | some parts => rfl

theorem slashed?_eq_some_iff : slashed? cs = some (numer, denom) ↔
    cs = numer ++ '/' :: denom ∧ isDigits (splitSign numer).2 = true ∧ isDigits denom = true := by
  rw [slashed?_eq, Option.filter_eq_some_iff, splitAt?_eq_some_iff, Bool.and_eq_true_iff]
  constructor
  · rintro ⟨⟨text, _⟩, digits⟩
    exact ⟨text, digits⟩
  · rintro ⟨text, digits⟩
    have signed : Signed numer (signedValue numer) := signed_iff.2 ⟨digits.1, rfl⟩
    exact ⟨⟨text, signed.not_mem (by decide) (by decide)⟩, digits⟩

theorem pointed_iff : Pointed cs negative digits places ↔ ∃ whole fraction,
    splitSign cs = (negative, whole ++ '.' :: fraction) ∧ isDigits whole = true ∧
      isDigits fraction = true ∧ digits = digitsValue (whole ++ fraction) ∧
      places = fraction.length := by
  constructor
  · intro pointed
    cases pointed with
    | @plain whole fraction n k first second =>
        have sign := splitSign_append first.isDigits ('.' :: fraction)
        refine ⟨whole, fraction, sign, first.isDigits, second.isDigits, ?_, rfl⟩
        rw [digitsValue_append, first.value, second.value]
    | minus unsigned =>
        cases unsigned with
        | @plain whole fraction n k first second =>
            refine ⟨whole, fraction, rfl, first.isDigits, second.isDigits, ?_, rfl⟩
            rw [digitsValue_append, first.value, second.value]
  · rintro ⟨whole, fraction, sign, first, second, rfl, rfl⟩
    have unsigned : Pointed (whole ++ '.' :: fraction) false (digitsValue (whole ++ fraction))
        fraction.length := by
      rw [digitsValue_append]
      exact .plain (digits_of_isDigits first) (digits_of_isDigits second)
    rcases splitSign_cases cs with plain | ⟨rest, rfl, minus⟩
    · rw [plain] at sign
      cases sign
      exact unsigned
    · rw [minus] at sign
      cases sign
      exact .minus unsigned

theorem Slashed.signed_denom (slashed : Slashed cs numer denom a b) : Signed denom b := by
  rcases slashed.denom with ⟨d, digits, rfl⟩
  exact .plain digits

theorem slashed_iff : Slashed cs numer denom a b ↔
    slashed? cs = some (numer, denom) ∧ signedValue numer = a ∧ signedValue denom = b := by
  constructor
  · intro slashed
    have first := signed_iff.1 slashed.numer
    have second := signed_iff.1 slashed.signed_denom
    rcases slashed.denom with ⟨d, digits, _⟩
    exact ⟨slashed?_eq_some_iff.2 ⟨slashed.text, first.1, digits.isDigits⟩, first.2, second.2⟩
  · rintro ⟨found, rfl, rfl⟩
    rcases slashed?_eq_some_iff.1 found with ⟨text, first, second⟩
    have digits := digits_of_isDigits second
    exact ⟨text, signed_iff.2 ⟨first, rfl⟩, _, digits, (signed_iff.1 (.plain digits)).2⟩

theorem isNumber_iff : IsNumber cs ↔ isDigits (splitSign cs).2 = true ∨
    (pointed? (splitSign cs).2).isSome = true ∨ (slashed? cs).isSome = true := by
  constructor
  · rintro (⟨n, signed⟩ | ⟨negative, digits, places, pointed⟩ | ⟨numer, denom, a, b, slashed⟩)
    · exact .inl (signed_iff.1 signed).1
    · rcases pointed_iff.1 pointed with ⟨whole, fraction, sign, first, second, _, _⟩
      have found := pointed?_eq_some_iff.2 ⟨rfl, first, second⟩
      refine .inr (.inl ?_)
      rw [sign, found]
      rfl
    · refine .inr (.inr ?_)
      rw [(slashed_iff.1 slashed).1]
      rfl
  · rintro (digits | found | found)
    · exact .inl ⟨_, signed_iff.2 ⟨digits, rfl⟩⟩
    · rcases Option.isSome_iff_exists.1 found with ⟨⟨whole, fraction⟩, split⟩
      rcases pointed?_eq_some_iff.1 split with ⟨text, first, second⟩
      have pointed := pointed_iff.2 ⟨whole, fraction, Prod.ext rfl text, first, second, rfl, rfl⟩
      exact .inr (.inl ⟨_, _, _, pointed⟩)
    · rcases Option.isSome_iff_exists.1 found with ⟨⟨numer, denom⟩, split⟩
      exact .inr (.inr ⟨numer, denom, _, _, slashed_iff.2 ⟨split, rfl, rfl⟩⟩)

instance : DecidablePred IsNumber := fun _ => decidable_of_iff _ isNumber_iff.symm

/-! ## Integers of 64 bits -/

theorem Fits.exists_toInt (fits : Fits n) : ∃ k : Int64, k.toInt = n :=
  ⟨Int64.ofInt n, Int64.toInt_ofInt_of_le fits.1 fits.2⟩

theorem integer_of_toInt {n : Int64} (signed : Signed cs n.toInt) : integer cs = .ok n := by
  have inside : Int64.minValue.toInt ≤ n.toInt ∧ n.toInt ≤ Int64.maxValue.toInt :=
    ⟨Int64.minValue_le_toInt n, Int64.toInt_le n⟩
  unfold integer
  rw [(signed_iff.1 signed).2]
  dsimp only
  rw [if_pos inside, Int64.ofInt_toInt]

theorem integer_of_not_fits (signed : Signed cs n) (outside : ¬ Fits n) :
    integer cs = .error (.integerOverflow (String.ofList cs)) := by
  -- The bounds are powers of two, which `omega` does not see in the least and greatest `Int64`.
  have lowest : Int64.minValue.toInt = -2 ^ 63 := by decide
  have highest : Int64.maxValue.toInt = 2 ^ 63 - 1 := by decide
  unfold Fits at outside
  unfold integer
  rw [(signed_iff.1 signed).2]
  dsimp only
  rw [if_neg (by omega)]

end Parts

/-! ## Classification -/

section Classifying

variable {text : String} {n a b : Int} {negative : Bool} {digits places : Nat}
  {numer denom part : List Char} {fault : ReadFault} {r : Except ReadFault Atom}

/-- The two words that are no symbols are no numbers either. -/
theorem IsNumber.ne_word (number : IsNumber text.toList) : text ≠ "nil" ∧ text ≠ "." := by
  constructor
  · rintro rfl
    exact absurd number (by decide)
  · rintro rfl
    exact absurd number (by decide)

theorem classify_of_signed (signed : Signed text.toList n) :
    classify text = (integer text.toList).map .int := by
  have number : IsNumber text.toList := .inl ⟨n, signed⟩
  unfold classify
  simp only [(signed_iff.1 signed).1]
  rw [if_neg number.ne_word.1, if_neg number.ne_word.2, if_true]

theorem classify_of_pointed (pointed : Pointed text.toList negative digits places) :
    classify text = .ok (.float (Decimal.nearest negative digits places)) := by
  have number : IsNumber text.toList := .inr (.inl ⟨negative, digits, places, pointed⟩)
  rcases pointed_iff.1 pointed with ⟨whole, fraction, sign, first, second, rfl, rfl⟩
  have notDigits : isDigits (whole ++ '.' :: fraction) = false := by
    rw [Bool.eq_false_iff]
    intro all
    have point : '.' ∈ whole ++ '.' :: fraction := List.mem_append_right _ List.mem_cons_self
    exact not_mem_of_isDigits all (by decide) point
  have found := pointed?_eq_some_iff.2 ⟨rfl, first, second⟩
  unfold classify
  simp only [sign, notDigits, found]
  rw [if_neg number.ne_word.1, if_neg number.ne_word.2, if_neg Bool.false_ne_true]

theorem classify_of_slashed (slashed : Slashed text.toList numer denom a b) :
    classify text = (do
      let n ← integer numer
      let d ← integer denom
      .ok (.ratio n d)) := by
  have number : IsNumber text.toList := .inr (.inr ⟨numer, denom, a, b, slashed⟩)
  -- The slash is in the way of both shapes that are tried before.
  have slash : '/' ∈ (splitSign text.toList).2 := by
    refine mem_unsigned ?_ (by decide)
    rw [slashed.text]
    exact List.mem_append_right _ List.mem_cons_self
  have notDigits : isDigits (splitSign text.toList).2 = false := by
    rw [Bool.eq_false_iff]
    intro all
    exact not_mem_of_isDigits all (by decide) slash
  have notPointed : pointed? (splitSign text.toList).2 = none := by
    rw [Option.eq_none_iff_forall_ne_some]
    rintro ⟨whole, fraction⟩ found
    rcases pointed?_eq_some_iff.1 found with ⟨same, first, second⟩
    rw [same] at slash
    rcases List.mem_append.1 slash with inside | later
    · exact not_mem_of_isDigits first (by decide) inside
    · rcases List.mem_cons.1 later with point | inside
      · exact absurd point (by decide)
      · exact not_mem_of_isDigits second (by decide) inside
  unfold classify
  simp only [notDigits, notPointed, (slashed_iff.1 slashed).1]
  rw [if_neg number.ne_word.1, if_neg number.ne_word.2, if_neg Bool.false_ne_true]

theorem classify_of_exceeds (exceeds : Exceeds text.toList part) :
    classify text = .error (.integerOverflow (String.ofList part)) := by
  cases exceeds with
  | whole signed outside =>
      rw [classify_of_signed signed, integer_of_not_fits signed outside]
      rfl
  | numer slashed outside =>
      rw [classify_of_slashed slashed, integer_of_not_fits slashed.numer outside]
      rfl
  | denom slashed fits outside =>
      rcases fits.exists_toInt with ⟨a, rfl⟩
      rw [classify_of_slashed slashed, integer_of_toInt slashed.numer,
        integer_of_not_fits slashed.signed_denom outside]
      rfl

theorem classify_of_not_isNumber (notNil : text ≠ "nil") (notDot : text ≠ ".")
    (other : ¬ IsNumber text.toList) : classify text = .ok (.symbol text) := by
  rw [isNumber_iff, not_or, not_or] at other
  simp only [Bool.not_eq_true, Option.isSome_eq_false_iff, Option.isNone_iff_eq_none] at other
  rcases other with ⟨notDigits, notPointed, notSlashed⟩
  unfold classify
  simp only [notDigits, notPointed, notSlashed]
  rw [if_neg notNil, if_neg notDot, if_neg Bool.false_ne_true]

theorem Stands.classify_eq (stands : Stands text r) : classify text = r := by
  cases stands with
  | nil same =>
      rw [same]
      rfl
  | dot same =>
      rw [same]
      rfl
  | int signed =>
      rw [classify_of_signed signed, integer_of_toInt signed]
      rfl
  | float pointed => exact classify_of_pointed pointed
  | ratio slashed =>
      rw [classify_of_slashed slashed, integer_of_toInt slashed.numer,
        integer_of_toInt slashed.signed_denom]
      rfl
  | overflow exceeds => exact classify_of_exceeds exceeds
  | symbol notNil notDot other => exact classify_of_not_isNumber notNil notDot other

/-- Every atom stands for something. -/
theorem exists_stands (text : String) : ∃ r, Stands text r := by
  by_cases isNil : text = "nil"
  · exact ⟨_, .nil isNil⟩
  by_cases isDot : text = "."
  · exact ⟨_, .dot isDot⟩
  by_cases number : IsNumber text.toList
  · rcases number with
      ⟨n, signed⟩ | ⟨negative, digits, places, pointed⟩ | ⟨numer, denom, a, b, slashed⟩
    · by_cases fits : Fits n
      · rcases fits.exists_toInt with ⟨n, rfl⟩
        exact ⟨_, .int signed⟩
      · exact ⟨_, .overflow (.whole signed fits)⟩
    · exact ⟨_, .float pointed⟩
    · by_cases fits : Fits a
      · by_cases fits' : Fits b
        · rcases fits.exists_toInt with ⟨a, rfl⟩
          rcases fits'.exists_toInt with ⟨b, rfl⟩
          exact ⟨_, .ratio slashed⟩
        · exact ⟨_, .overflow (.denom slashed fits fits')⟩
      · exact ⟨_, .overflow (.numer slashed fits)⟩
  · exact ⟨_, .symbol isNil isDot number⟩

/-- An atom is classified as what it stands for. -/
theorem classify_iff : classify text = r ↔ Stands text r := by
  constructor
  · rintro rfl
    rcases exists_stands text with ⟨r, stands⟩
    rw [stands.classify_eq]
    exact stands
  · exact Stands.classify_eq

theorem classify_eq_nil_iff : classify text = .ok .nil ↔ text = "nil" := by
  rw [classify_iff]
  constructor
  · intro stands
    cases stands with
    | nil same => exact same
  · exact .nil

/-- Only the lone point is classified as one. -/
theorem classify_eq_dot_iff : classify text = .ok .dot ↔ text = "." := by
  rw [classify_iff]
  constructor
  · intro stands
    cases stands with
    | dot same => exact same
  · exact .dot

theorem classify_eq_int_iff {n : Int64} :
    classify text = .ok (.int n) ↔ Signed text.toList n.toInt := by
  rw [classify_iff]
  constructor
  · intro stands
    cases stands with
    | int signed => exact signed
  · exact .int

theorem classify_eq_float_iff {x : Float} : classify text = .ok (.float x) ↔
    ∃ negative digits places, Pointed text.toList negative digits places ∧
      x = Decimal.nearest negative digits places := by
  rw [classify_iff]
  constructor
  · intro stands
    cases stands with
    | float pointed => exact ⟨_, _, _, pointed, rfl⟩
  · rintro ⟨negative, digits, places, pointed, rfl⟩
    exact .float pointed

theorem classify_eq_ratio_iff {a b : Int64} : classify text = .ok (.ratio a b) ↔
    ∃ numer denom, Slashed text.toList numer denom a.toInt b.toInt := by
  rw [classify_iff]
  constructor
  · intro stands
    cases stands with
    | ratio slashed => exact ⟨_, _, slashed⟩
  · rintro ⟨numer, denom, slashed⟩
    exact .ratio slashed

theorem classify_eq_symbol_iff {name : String} : classify text = .ok (.symbol name) ↔
    name = text ∧ text ≠ "nil" ∧ text ≠ "." ∧ ¬ IsNumber text.toList := by
  rw [classify_iff]
  constructor
  · intro stands
    cases stands with
    | symbol notNil notDot other => exact ⟨rfl, notNil, notDot, other⟩
  · rintro ⟨rfl, notNil, notDot, other⟩
    exact .symbol notNil notDot other

theorem classify_eq_overflow_iff {part : String} :
    classify text = .error (.integerOverflow part) ↔ Exceeds text.toList part.toList := by
  rw [classify_iff]
  constructor
  · intro stands
    cases stands with
    | overflow exceeds =>
        rw [String.toList_ofList]
        exact exceeds
  · intro exceeds
    have stands := Stands.overflow exceeds
    rwa [String.ofList_toList] at stands

theorem classify_error (failed : classify text = .error fault) :
    ∃ digits, fault = .integerOverflow digits := by
  cases classify_iff.1 failed with
  | overflow exceeds => exact ⟨_, rfl⟩

end Classifying

/-! ## Printed numbers -/

theorem digits_toDigits (m : Nat) : Digits (Nat.toDigits 10 m) m := by
  have all : isDigits (Nat.toDigits 10 m) = true :=
    isDigits_iff.2 ⟨Nat.toDigits_ne_nil, toDigits_all_isDigit m⟩
  have value : digitsValue (Nat.toDigits 10 m) = m := Nat.ofDigitChars_ten_toDigits
  have digits := digits_of_isDigits all
  rwa [value] at digits

/-- The decimal text of an integer denotes it. -/
theorem signed_numeral (n : Int) : Signed (numeral n) n := by
  have digits := digits_toDigits n.natAbs
  rcases numeral_cases n with ⟨positive, text⟩ | ⟨negative, text⟩
  · have signed := Signed.plain digits
    rwa [← text, Int.natAbs_of_nonneg positive] at signed
  · have signed := Signed.minus digits
    have value : -(n.natAbs : Int) = n := by omega
    rwa [← text, value] at signed

theorem classify_int (n : Int64) : classify (toString n.toInt) = .ok (.int n) :=
  classify_iff.2 (.int (signed_numeral n.toInt))

theorem classify_ratio (n d : Int64) (positive : 0 ≤ d.toInt) :
    classify (toString n.toInt ++ "/" ++ toString d.toInt) = .ok (.ratio n d) := by
  -- The text behind the slash must have no sign, so the denominator may not be negative.
  have denom : numeral d.toInt = Nat.toDigits 10 d.toInt.natAbs := by
    rcases numeral_cases d.toInt with ⟨_, text⟩ | ⟨negative, _⟩
    · exact text
    · omega
  have slashed : Slashed (ratioChars n.toInt d.toInt) (numeral n.toInt) (numeral d.toInt)
      n.toInt d.toInt := by
    refine ⟨rfl, signed_numeral n.toInt, d.toInt.natAbs, ?_, by omega⟩
    rw [denom]
    exact digits_toDigits _
  rw [← toList_ratio] at slashed
  exact classify_iff.2 (.ratio slashed)

/-! ## The grammar of atoms -/

/--
Every atom is classified by the grammar: as an integer or a ratio of 64 bits, as a double, as the
empty list or a lone point, or else as the symbol of that name; a number of a part that exceeds 64
bits is refused with this part. In particular the decimal text of an integer is classified as it.
-/
theorem atoms_are_classified_by_grammar :
    (∀ text : String,
      (∀ n : Int64, classify text = .ok (.int n) ↔ Signed text.toList n.toInt) ∧
      (∀ a b : Int64, classify text = .ok (.ratio a b) ↔
        ∃ numer denom, Slashed text.toList numer denom a.toInt b.toInt) ∧
      (∀ x : Float, classify text = .ok (.float x) ↔ ∃ negative digits places,
        Pointed text.toList negative digits places ∧ x = Decimal.nearest negative digits places) ∧
      (∀ part : String, classify text = .error (.integerOverflow part) ↔
        Exceeds text.toList part.toList) ∧
      (classify text = .ok .nil ↔ text = "nil") ∧
      (classify text = .ok .dot ↔ text = ".") ∧
      (∀ name : String, classify text = .ok (.symbol name) ↔
        name = text ∧ text ≠ "nil" ∧ text ≠ "." ∧ ¬ IsNumber text.toList) ∧
      ∀ other : String, classify text ≠ .error (.invalidToken other)) ∧
    ∀ n : Int64, classify (toString n) = .ok (.int n) := by
  refine ⟨?_, classify_int⟩
  intro text
  have noInvalidToken : ∀ other : String, classify text ≠ .error (.invalidToken other) := by
    intro other failed
    rcases classify_error failed with ⟨digits, same⟩
    cases same
  exact ⟨fun n => classify_eq_int_iff, fun a b => classify_eq_ratio_iff,
    fun x => classify_eq_float_iff, fun part => classify_eq_overflow_iff, classify_eq_nil_iff,
    classify_eq_dot_iff, fun name => classify_eq_symbol_iff, noInvalidToken⟩

-- Texts that come close to a number are symbols.
example : ∀ text ∈ ["-", "1.", ".5", "1/", "1.2.3", "1a", "+", "1/-2", "--1"],
    classify text = .ok (.symbol text) := by
  simp only [List.forall_mem_cons]
  exact ⟨rfl, rfl, rfl, rfl, rfl, rfl, rfl, rfl, rfl, List.forall_mem_nil _⟩

end Atom

end Lisplet
