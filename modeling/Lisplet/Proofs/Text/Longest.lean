import Lisplet.Proofs.Text.Cutting
import Mathlib.Computability.Language

/-!
# Longest — what a lexeme is

Each class of lexemes is a regular language over characters, `Token.words`. A text that does not
begin with a separator begins with the longest word of any of these languages; if it begins with no
word at all, its first character is a lexeme by itself. `Cut.IsLexeme` says so without looking at
how a text is cut. A text is cut in this way (`isLexeme_cut`), and there is no other
(`Cut.IsLexeme.unique`).

Only literals take thought. Closed and unclosed ones begin alike, and what stands between the quotes
is put together from parts of one and of two characters. No part is the beginning of another, so all
ways of reading a literal run along with each other until no further part fits.
-/

namespace Lisplet

namespace Token

open scoped Computability

/-! ## Classes of lexemes as languages -/

/-- The words of one character that satisfies a condition. -/
def single (p : Char → Prop) : Language Char := {word | ∃ c, p c ∧ word = [c]}

/--
What a string literal is put together from: characters other than quotes and backslashes, and
backslashes with any character but a line feed behind them.
-/
def literalPart : Language Char :=
  single (fun c => c ≠ '\x22' ∧ c ≠ '\\') + single (· = '\\') * single (· ≠ '\n')

/-- The characters of atoms: all but white space and the delimiters. -/
def InAtom (c : Char) : Prop :=
  Text.isWhiteSpace c = false ∧ c ∉ ['(', ')', '\x27', '\x22', ';']

/-- The words of a class of lexemes. A stray character belongs to no class. -/
def words : Token → Language Char
  | .comment => single (· = ';') * (single (· ≠ '\n'))∗
  | .opening => single (· = '(')
  | .closing => single (· = ')')
  | .quote => single (· = '\x27')
  | .string => single (· = '\x22') * (literalPart∗ * single (· = '\x22'))
  | .unclosed => single (· = '\x22') * literalPart∗
  | .atom => single InAtom * (single InAtom)∗
  | .stray => 0

/-- The first characters of the words of a class. -/
def Starts (c : Char) : Token → Prop
  | .comment => c = ';'
  | .opening => c = '('
  | .closing => c = ')'
  | .quote => c = '\x27'
  | .string | .unclosed => c = '\x22'
  | .atom => InAtom c
  | .stray => False

/--
What is cut off a text is the lexeme that it begins with: the longest word of any class, and of one
class only, or a character with which no word begins and which is no separator.
-/
inductive Cut.IsLexeme : Cut → Prop where
  | word {token : Token} {taken rest : List Char} : taken ∈ token.words →
      (∀ other : Token, ∀ word ∈ other.words, word <+: taken ++ rest →
        word.length < taken.length ∨ word = taken ∧ other = token) →
      IsLexeme ⟨token, taken, rest⟩
  | stray {c : Char} {rest : List Char} : Text.isSeparator c = false →
      (∀ other : Token, ∀ word ∈ other.words, ¬ word <+: c :: rest) → IsLexeme ⟨.stray, [c], rest⟩

section Words

variable {p : Char → Prop} {l : Language Char} {c d : Char} {word cs rest : List Char}
  {token : Token}

theorem mem_single_mul : word ∈ single p * l ↔ ∃ c v, p c ∧ v ∈ l ∧ word = c :: v := by
  rw [Language.mem_mul]
  constructor
  · rintro ⟨_, ⟨c, holds, rfl⟩, v, member, rfl⟩
    exact ⟨c, v, holds, member, rfl⟩
  · rintro ⟨c, v, holds, member, rfl⟩
    exact ⟨[c], ⟨c, holds, rfl⟩, v, member, rfl⟩

theorem mem_kstar_single : word ∈ (single p)∗ ↔ ∀ c ∈ word, p c := by
  rw [Language.mem_kstar]
  constructor
  · rintro ⟨pieces, rfl, all⟩ c member
    rcases List.mem_flatten.1 member with ⟨piece, isPiece, inside⟩
    rcases all piece isPiece with ⟨d, holds, rfl⟩
    exact List.mem_singleton.1 inside ▸ holds
  · intro all
    refine ⟨word.map fun c => [c], ?_, fun piece isPiece => ?_⟩
    · induction word with
      | nil => rfl
      | cons c word ih =>
          have rest := ih fun d later => all d (List.mem_cons_of_mem c later)
          rw [List.map_cons, List.flatten_cons, ← rest]
          rfl
    · rcases List.mem_map.1 isPiece with ⟨c, member, rfl⟩
      exact ⟨c, all c member, rfl⟩

theorem isAtomChar_iff : isAtomChar c = true ↔ InAtom c := by
  simp [isAtomChar, InAtom, and_assoc]

/-- The first character of a word shows which class it may be of. -/
theorem starts_of_mem_words (member : word ∈ token.words) :
    ∃ c v, Starts c token ∧ word = c :: v := by
  cases token with
  | comment | unclosed | string | atom =>
      rcases mem_single_mul.1 member with ⟨c, v, start, _, rfl⟩
      exact ⟨c, v, start, rfl⟩
  | opening | closing | quote =>
      rcases member with ⟨c, start, rfl⟩
      exact ⟨c, [], start, rfl⟩
  | stray => exact absurd member (Language.notMem_zero _)

end Words

/-! ## Literals -/

/-- What may stand between the quotes of a literal, part by part. -/
inductive Literal : List Char → Prop where
  | nil : Literal []
  | char {c : Char} {cs : List Char} : c ≠ '\x22' → c ≠ '\\' → Literal cs → Literal (c :: cs)
  | escape {d : Char} {cs : List Char} : d ≠ '\n' → Literal cs → Literal ('\\' :: d :: cs)

/-- A text in front of which a literal cannot go on. -/
inductive Halts : List Char → Prop where
  | nil : Halts []
  | quote (cs : List Char) : Halts ('\x22' :: cs)
  | backslash : Halts ['\\']
  | lineFeed (cs : List Char) : Halts ('\\' :: '\n' :: cs)

section Literals

variable {body other rest cs taken : List Char}

theorem mem_literalPart {part : List Char} : part ∈ literalPart ↔
    (∃ c, (c ≠ '\x22' ∧ c ≠ '\\') ∧ part = [c]) ∨ ∃ d, d ≠ '\n' ∧ part = ['\\', d] := by
  refine (Language.mem_add _ _ _).trans (or_congr Iff.rfl ?_)
  rw [mem_single_mul]
  constructor
  · rintro ⟨_, _, rfl, ⟨d, notBreak, rfl⟩, rfl⟩
    exact ⟨d, notBreak, rfl⟩
  · rintro ⟨d, notBreak, rfl⟩
    exact ⟨'\\', [d], rfl, ⟨d, notBreak, rfl⟩, rfl⟩

theorem mem_kstar_literalPart : body ∈ literalPart∗ ↔ Literal body := by
  constructor
  · rw [Language.mem_kstar]
    rintro ⟨parts, rfl, all⟩
    induction parts with
    | nil => exact .nil
    | cons part parts ih =>
        have rest := ih fun later member => all later (List.mem_cons_of_mem part member)
        rcases mem_literalPart.1 (all part List.mem_cons_self) with
          ⟨c, ⟨notQuote, notEscape⟩, rfl⟩ | ⟨d, notBreak, rfl⟩
        · exact .char notQuote notEscape rest
        · exact .escape notBreak rest
  · intro literal
    rw [← Language.one_add_self_mul_kstar_eq_kstar]
    induction literal with
    | nil => exact .inl rfl
    | char notQuote notEscape _ ih =>
        rw [Language.one_add_self_mul_kstar_eq_kstar] at ih
        have part := mem_literalPart.2 (.inl ⟨_, ⟨notQuote, notEscape⟩, rfl⟩)
        exact .inr (Language.append_mem_mul part ih)
    | escape notBreak _ ih =>
        rw [Language.one_add_self_mul_kstar_eq_kstar] at ih
        have part := mem_literalPart.2 (.inr ⟨_, notBreak, rfl⟩)
        exact .inr (Language.append_mem_mul part ih)

theorem mem_words_unclosed {word : List Char} :
    word ∈ words .unclosed ↔ ∃ body, Literal body ∧ word = '\x22' :: body := by
  refine mem_single_mul.trans ?_
  simp only [mem_kstar_literalPart, exists_and_left, exists_eq_left]

theorem mem_words_string {word : List Char} :
    word ∈ words .string ↔ ∃ body, Literal body ∧ word = '\x22' :: (body ++ ['\x22']) := by
  refine mem_single_mul.trans ?_
  constructor
  · rintro ⟨_, _, rfl, inside, rfl⟩
    rcases Language.mem_mul.1 inside with ⟨body, literal, _, ⟨_, rfl, rfl⟩, rfl⟩
    exact ⟨body, mem_kstar_literalPart.1 literal, rfl⟩
  · rintro ⟨body, literal, rfl⟩
    exact ⟨_, _, rfl, Language.append_mem_mul (mem_kstar_literalPart.2 literal) ⟨_, rfl, rfl⟩, rfl⟩

/-- Where a literal halts, every other reading of it has come to an end. -/
theorem Literal.exists_append (one : Literal other) (whole : Literal body) (halts : Halts rest)
    (begins : other <+: body ++ rest) : ∃ more, Literal more ∧ body = other ++ more := by
  -- Induction on the shorter reading: the parts of both are the same one after the other.
  induction one generalizing body with
  | nil => exact ⟨body, whole, rfl⟩
  | @char c v notQuote notEscape _ ih =>
      cases whole with
      | nil =>
          cases halts with
          | nil => exact absurd (List.prefix_nil.1 begins) nofun
          | quote _ => exact absurd (List.cons_prefix_cons.1 begins).1 notQuote
          | backslash => exact absurd (List.cons_prefix_cons.1 begins).1 notEscape
          | lineFeed _ => exact absurd (List.cons_prefix_cons.1 begins).1 notEscape
      | char _ _ whole =>
          rcases List.cons_prefix_cons.1 begins with ⟨rfl, later⟩
          rcases ih whole later with ⟨more, literal, rfl⟩
          exact ⟨more, literal, rfl⟩
      | escape _ _ => exact absurd (List.cons_prefix_cons.1 begins).1 notEscape
  | @escape d v notBreak _ ih =>
      cases whole with
      | nil =>
          cases halts with
          | nil => exact absurd (List.prefix_nil.1 begins) nofun
          | quote _ => exact absurd (List.cons_prefix_cons.1 begins).1 (by decide)
          | backslash => exact absurd (List.prefix_nil.1 (List.cons_prefix_cons.1 begins).2) nofun
          | lineFeed _ =>
              exact absurd (List.cons_prefix_cons.1 (List.cons_prefix_cons.1 begins).2).1 notBreak
      | char _ notEscape _ => exact absurd (List.cons_prefix_cons.1 begins).1.symm notEscape
      | escape _ whole =>
          rcases List.cons_prefix_cons.1 (List.cons_prefix_cons.1 begins).2 with ⟨rfl, later⟩
          rcases ih whole later with ⟨more, literal, rfl⟩
          exact ⟨more, literal, rfl⟩

/-- A quote ends a literal where it halts, and nowhere else. -/
theorem Literal.eq_of_closed (one : Literal other) (whole : Literal body) (halts : Halts rest)
    (begins : other ++ ['\x22'] <+: body ++ rest) :
    body = other ∧ ∃ more, rest = '\x22' :: more := by
  rcases one.exists_append whole halts ((List.prefix_append other _).trans begins) with
    ⟨more, literal, rfl⟩
  rw [List.append_assoc, List.prefix_append_right_inj] at begins
  cases literal with
  | nil =>
      rcases begins with ⟨more, same⟩
      exact ⟨List.append_nil other, more, same.symm⟩
  | char notQuote _ _ => exact absurd (List.cons_prefix_cons.1 begins).1.symm notQuote
  | escape _ _ => exact absurd (List.cons_prefix_cons.1 begins).1 (by decide)

/-- A literal is cut off where it halts, with the quote that ends it if there is one. -/
theorem exists_literal_of_cutString (taken cs : List Char) : ∃ body rest, Literal body ∧
    Halts rest ∧ cs = body ++ rest ∧
      ((∃ more, rest = '\x22' :: more ∧
          cutString taken cs = ⟨.string, taken.reverse ++ body ++ ['\x22'], more⟩) ∨
        ((∀ more, rest ≠ '\x22' :: more) ∧
          cutString taken cs = ⟨.unclosed, taken.reverse ++ body, rest⟩)) := by
  fun_induction cutString taken cs with
  | case1 taken => exact ⟨[], [], .nil, .nil, rfl, .inr ⟨by simp, by simp⟩⟩
  | case2 taken cs => exact ⟨[], '\x22' :: cs, .nil, .quote cs, rfl, .inl ⟨cs, rfl, by simp⟩⟩
  | case3 taken _ => exact ⟨[], ['\\'], .nil, .backslash, rfl, .inr ⟨by simp, by simp⟩⟩
  | case4 taken ds _ => exact ⟨[], _, .nil, .lineFeed ds, rfl, .inr ⟨by simp, by simp⟩⟩
  | case5 taken d ds notBreak _ ih =>
      rcases ih with ⟨body, rest, literal, halts, rfl, ends⟩
      refine ⟨'\\' :: d :: body, rest, .escape notBreak literal, halts, rfl, ?_⟩
      simpa using ends
  | case6 taken c cs notQuote notEscape ih =>
      rcases ih with ⟨body, rest, literal, halts, rfl, ends⟩
      refine ⟨c :: body, rest, .char notQuote notEscape literal, halts, rfl, ?_⟩
      simpa using ends

end Literals

/-! ## Cutting -/

section Cutting

variable {c : Char} {cs taken taken' rest rest' word : List Char} {token token' : Token}

/-- A word that a text begins with is of a class that starts with the text's first character. -/
theorem starts_of_begins (member : word ∈ token.words) (begins : word <+: c :: cs) :
    Starts c token := by
  rcases starts_of_mem_words member with ⟨d, v, start, rfl⟩
  exact (List.cons_prefix_cons.1 begins).1 ▸ start

/-- The first character decides on the class, unless it is a quote. -/
theorem eq_of_starts (start : Starts c token) (start' : Starts c token') (noLiteral : c ≠ '\x22') :
    token' = token := by
  cases token <;> cases token' <;> simp_all [Starts, InAtom]

theorem string_or_unclosed_of_starts (start : Starts '\x22' token) :
    token = .string ∨ token = .unclosed := by
  cases token <;> simp_all [Starts, InAtom]

/-- The words of a class that all have one character. -/
theorem isLexeme_single {p : Char → Prop} (words : token.words = single p) (start : Starts c token)
    (holds : p c) (noLiteral : c ≠ '\x22') : Cut.IsLexeme ⟨token, [c], cs⟩ := by
  refine .word (words ▸ ⟨c, holds, rfl⟩) fun other word member begins => .inr ?_
  obtain rfl := eq_of_starts start (starts_of_begins member begins) noLiteral
  rw [words] at member
  rcases member with ⟨d, _, rfl⟩
  exact ⟨by rw [(List.cons_prefix_cons.1 begins).1], rfl⟩

/-- The words of a class that go on as long as a condition holds. -/
theorem isLexeme_takeWhile {p q : Char → Prop} {f : Char → Bool}
    (words : token.words = single p * (single q)∗) (start : Starts c token) (holds : p c)
    (noLiteral : c ≠ '\x22') (passes : ∀ d, f d = true ↔ q d) :
    Cut.IsLexeme ⟨token, c :: cs.takeWhile f, cs.dropWhile f⟩ := by
  refine .word (words ▸ mem_single_mul.2 ⟨c, _, holds, ?_, rfl⟩) ?_
  · exact mem_kstar_single.2 fun d member => (passes d).1 (List.mem_takeWhile_imp member)
  · intro other word member begins
    rw [List.cons_append, List.takeWhile_append_dropWhile] at begins
    obtain rfl := eq_of_starts start (starts_of_begins member begins) noLiteral
    rw [words] at member
    rcases mem_single_mul.1 member with ⟨d, v, _, inside, rfl⟩
    rcases List.cons_prefix_cons.1 begins with ⟨rfl, more, rfl⟩
    -- The rest of the word is passed by the condition, so it is not longer than what is passed.
    have passed : ∀ e ∈ v, f e = true := fun e later =>
      (passes e).2 (mem_kstar_single.1 inside e later)
    rw [List.takeWhile_append_of_pos passed]
    cases more.takeWhile f with
    | nil => exact .inr ⟨by rw [List.append_nil], rfl⟩
    | cons e es => exact .inl (by simp)

/-- At a quote the longest word is the literal that is cut off, closed or not. -/
theorem isLexeme_cutString (cs : List Char) : (cutString ['\x22'] cs).IsLexeme := by
  rcases exists_literal_of_cutString ['\x22'] cs with
    ⟨body, rest, literal, halts, rfl, ⟨more, rfl, cut⟩ | ⟨noQuote, cut⟩⟩
  · have text : ['\x22'].reverse ++ body ++ ['\x22'] ++ more =
        '\x22' :: (body ++ '\x22' :: more) := by simp
    rw [cut]
    refine .word (mem_words_string.2 ⟨body, literal, rfl⟩) fun other word member begins => ?_
    rw [text] at begins
    rcases string_or_unclosed_of_starts (starts_of_begins member begins) with rfl | rfl
    · rcases mem_words_string.1 member with ⟨b, isLiteral, rfl⟩
      have ends := isLiteral.eq_of_closed literal halts (List.cons_prefix_cons.1 begins).2
      exact .inr ⟨by rw [ends.1]; rfl, rfl⟩
    · rcases mem_words_unclosed.1 member with ⟨b, isLiteral, rfl⟩
      rcases isLiteral.exists_append literal halts (List.cons_prefix_cons.1 begins).2 with
        ⟨further, _, rfl⟩
      exact .inl (by simp)
  · rw [cut]
    refine .word (mem_words_unclosed.2 ⟨body, literal, rfl⟩) fun other word member begins => ?_
    rcases string_or_unclosed_of_starts (starts_of_begins member begins) with rfl | rfl
    · rcases mem_words_string.1 member with ⟨b, isLiteral, rfl⟩
      have ends := isLiteral.eq_of_closed literal halts (List.cons_prefix_cons.1 begins).2
      exact absurd ends.2 fun ⟨more, same⟩ => noQuote more same
    · rcases mem_words_unclosed.1 member with ⟨b, isLiteral, rfl⟩
      rcases isLiteral.exists_append literal halts (List.cons_prefix_cons.1 begins).2 with
        ⟨further, _, rfl⟩
      cases further with
      | nil => exact .inr ⟨by simp, rfl⟩
      | cons d ds => exact .inl (by simp)

theorem isLexeme_cut (start : Text.isSeparator c = false) : (cut c cs).IsLexeme := by
  unfold cut
  split
  · next same => exact isLexeme_single rfl same same (by simp [same])
  split
  · next same => exact isLexeme_single rfl same same (by simp [same])
  split
  · next same => exact isLexeme_single rfl same same (by simp [same])
  split
  · next same => exact same ▸ isLexeme_cutString cs
  next noLiteral =>
  split
  · next same => exact isLexeme_takeWhile rfl same same noLiteral fun d => bne_iff_ne
  split
  · next holds =>
    have inAtom := isAtomChar_iff.1 holds
    exact isLexeme_takeWhile rfl inAtom inAtom noLiteral fun d => isAtomChar_iff
  · next noAtom =>
    refine .stray start fun other word member begins => ?_
    have starts := starts_of_begins member begins
    rw [isAtomChar_iff] at noAtom
    cases other <;> simp_all [Starts]

/-- A lexeme has a first character, which is no separator. -/
theorem Cut.IsLexeme.exists_cons {cut : Cut} (isLexeme : cut.IsLexeme) :
    ∃ c cs, cut.taken = c :: cs ∧ Text.isSeparator c = false := by
  cases isLexeme with
  | @word token taken rest member _ =>
      rcases starts_of_mem_words member with ⟨c, cs, start, rfl⟩
      refine ⟨c, cs, rfl, ?_⟩
      cases token with
      | atom => exact Lexeme.isAtomChar_separator (isAtomChar_iff.2 start)
      | stray => exact start.elim
      | _ =>
          obtain rfl := start
          rfl
  | @stray c rest start _ => exact ⟨c, [], rfl, start⟩

/-- There is only one lexeme that a text begins with. -/
theorem Cut.IsLexeme.unique {cut cut' : Cut} (one : cut.IsLexeme) (other : cut'.IsLexeme)
    (same : cut.taken ++ cut.rest = cut'.taken ++ cut'.rest) : cut = cut' := by
  cases one with
  | @word token taken rest member longest =>
      cases other with
      | @word token' taken' rest' member' longest' =>
          have begins : taken <+: taken' ++ rest' := ⟨rest, same⟩
          have begins' : taken' <+: taken ++ rest := ⟨rest', same.symm⟩
          rcases longest token' taken' member' begins' with shorter | ⟨rfl, rfl⟩
          · rcases longest' token taken member begins with shorter' | ⟨rfl, rfl⟩
            · omega
            · omega
          · exact congrArg _ (List.append_cancel_left same)
      | stray _ none => exact absurd ⟨rest, same⟩ (none token taken member)
  | @stray c rest _ none =>
      cases other with
      | @word token' taken' rest' member' _ =>
          exact absurd ⟨rest', same.symm⟩ (none token' taken' member')
      | stray _ _ =>
          cases same
          rfl

end Cutting

end Token

end Lisplet
