import Lisplet.Text.Blank

/-!
# Source Lines

A source text as lines, each of which ends with its line break. Places are
counted in characters.
-/

namespace Lisplet.Text

/--
Whether a line ends after a character: line feed, vertical tab, form feed,
carriage return, and the line and paragraph ends of Unicode.
-/
def isLineBreak (c : Char) : Bool :=
  ('\n' ≤ c && c ≤ '\r') || c == '\x85' || c == '\u2028' || c == '\u2029'

structure SourceLine where
  /-- How many characters there are before the line. -/
  offset : Nat
  /-- The characters of the line with its line break. -/
  chars : List Char

namespace SourceLine

/-- The characters of the line without the white space it ends in. -/
def visible (line : SourceLine) : List Char :=
  (line.chars.reverse.dropWhile isWhiteSpace).reverse

/--
Cuts a text into lines, of the first of which the characters in `taken` have
been read, the latest first.
-/
def cutOnto (found : Array SourceLine) (offset : Nat) (taken : List Char) :
    List Char → Array SourceLine
  | [] =>
    if taken.isEmpty then found
    else found.push { offset, chars := taken.reverse }
  | '\r' :: '\n' :: cs =>
    let chars := ('\n' :: '\r' :: taken).reverse
    cutOnto (found.push { offset, chars }) (offset + chars.length) [] cs
  | c :: cs =>
    if isLineBreak c then
      let chars := (c :: taken).reverse
      cutOnto (found.push { offset, chars }) (offset + chars.length) [] cs
    else cutOnto found offset (c :: taken) cs

/-- The lines of a text. -/
def all (source : String) : List SourceLine := (cutOnto #[] 0 [] source.toList).toList

/--
The line in which the character at a position stands, with its number. Lines are
numbered from 1.
-/
def find? (lines : List SourceLine) (position : Nat) : Option (Nat × SourceLine) :=
  lines.zipIdx.findSome? fun (line, index) =>
    if position < line.offset + line.chars.length then some (index + 1, line) else none

end SourceLine

end Lisplet.Text
