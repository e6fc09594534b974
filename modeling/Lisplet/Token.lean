import Lisplet.Text.Blank
import Lisplet.Text.Span

/-!
# Tokens

Source text is a sequence of lexemes with separators between them. At every
position the longest lexeme of any class is taken; a character with which no
class starts is a lexeme by itself. Every lexeme has at least one character,
so scanning goes on to the end of any text.
-/

namespace Lisplet

/-- Classes of lexemes. -/
inductive Token where
  /-- From a semicolon to the end of the line. -/
  | comment
  | opening
  | closing
  | quote
  /-- A string literal with both of its quotes. -/
  | string
  /-- A string literal as far as it could be read without finding its end. -/
  | unclosed
  /-- Characters that are neither blank nor one of `( ) ' " ;`. -/
  | atom
  /-- A character with which no lexeme starts. -/
  | stray
  deriving DecidableEq, Repr

/-- A token as it stands in the source. -/
structure Lexeme where
  token : Token
  text : String
  span : Text.Span
  deriving DecidableEq, Repr

namespace Token

/-- Whether a character may be part of an atom. -/
def isAtomChar (c : Char) : Bool :=
  !Text.isWhiteSpace c && c != '(' && c != ')' && c != '\x27' && c != '\x22' && c != ';'

/-- The first lexeme of a text: its class, its characters, and the text that follows. -/
structure Cut where
  token : Token
  taken : List Char
  rest : List Char

/--
Cuts a string literal, of which the characters in `taken` have been read, the
latest first. A backslash goes with the character after it, which may be
anything but a line feed.
-/
def cutString (taken : List Char) : List Char → Cut
  | [] => ⟨.unclosed, taken.reverse, []⟩
  | c :: cs =>
    if c = '\x22' then ⟨.string, (c :: taken).reverse, cs⟩
    else if c = '\\' then
      match cs with
      | [] => ⟨.unclosed, taken.reverse, [c]⟩
      | d :: ds =>
        if d = '\n' then ⟨.unclosed, taken.reverse, c :: d :: ds⟩
        else cutString (d :: c :: taken) ds
    else cutString (c :: taken) cs

/-- Cuts the first lexeme of a text that starts with `c`. -/
def cut (c : Char) (cs : List Char) : Cut :=
  if c = '(' then ⟨.opening, [c], cs⟩
  else if c = ')' then ⟨.closing, [c], cs⟩
  else if c = '\x27' then ⟨.quote, [c], cs⟩
  else if c = '\x22' then cutString [c] cs
  else if c = ';' then ⟨.comment, c :: cs.takeWhile (· != '\n'), cs.dropWhile (· != '\n')⟩
  else if isAtomChar c then ⟨.atom, c :: cs.takeWhile isAtomChar, cs.dropWhile isAtomChar⟩
  else ⟨.stray, [c], cs⟩

theorem length_cutString_le (taken cs : List Char) :
    (cutString taken cs).rest.length ≤ cs.length := by
  fun_induction cutString taken cs with
  | case1 => exact Nat.le_refl _
  | case2 taken cs => exact Nat.le_succ _
  | case3 => exact Nat.le_refl _
  | case4 => exact Nat.le_refl _
  | case5 taken d ds _ _ ih => exact Nat.le_succ_of_le (Nat.le_succ_of_le ih)
  | case6 taken c cs _ _ ih => exact Nat.le_succ_of_le ih

/-- What follows the first lexeme is shorter than the text. -/
theorem length_cut_lt (c : Char) (cs : List Char) :
    (cut c cs).rest.length < (c :: cs).length := by
  have h : (cut c cs).rest.length ≤ cs.length := by
    unfold cut
    split
    · exact Nat.le_refl _
    split
    · exact Nat.le_refl _
    split
    · exact Nat.le_refl _
    split
    · exact length_cutString_le _ _
    split
    · exact (List.dropWhile_sublist _).length_le
    split
    · exact (List.dropWhile_sublist _).length_le
    · exact Nat.le_refl _
  exact Nat.lt_succ_of_le h

end Token

namespace Lexeme

open Token in
/-- The lexemes of a text that starts at a byte offset, after those in `found`. -/
def scanOnto (found : Array Lexeme) (offset : Nat) (cs : List Char) : Array Lexeme :=
  match cs with
  | [] => found
  | c :: cs =>
    if Text.isSeparator c then scanOnto found (offset + c.utf8Size) cs
    else
      let stop := offset + Text.byteLength (cut c cs).taken
      let lexeme : Lexeme :=
        { token := (cut c cs).token
          text := String.ofList (cut c cs).taken
          span := ⟨offset, stop⟩ }
      scanOnto (found.push lexeme) stop (cut c cs).rest
termination_by cs.length
decreasing_by
  · exact Nat.lt_succ_self _
  · exact length_cut_lt c cs

/-- All lexemes of a source text. -/
def scan (source : String) : List Lexeme := (scanOnto #[] 0 source.toList).toList

/-- The lexemes of a source text that mean something, that is, all but the comments. -/
def meaningful (source : String) : List Lexeme :=
  (scan source).filter fun lexeme => lexeme.token != .comment

end Lexeme

end Lisplet
