import Lisplet.Decimal.Nearest
import Lisplet.ReadError

/-!
# Atoms

What an atom stands for. Numbers have one of three shapes, each with an optional
minus sign in front: digits, digits with a point between them, and digits with a
slash between them. `nil` is the empty list, a lone point marks a dotted tail,
and everything else is a symbol.
-/

namespace Lisplet

inductive Atom where
  | int (n : Int64)
  | float (x : Float)
  | ratio (numer denom : Int64)
  | nil
  | dot
  | symbol (name : String)

namespace Atom

/-- Whether there are only ASCII digits, and at least one. -/
def isDigits (cs : List Char) : Bool := !cs.isEmpty && cs.all Char.isDigit

/-- A text without a minus sign in front of it, and whether there was one. -/
def splitSign : List Char → Bool × List Char
  | [] => (false, [])
  | c :: cs => if c = '-' then (true, cs) else (false, c :: cs)

/-- The text before and after the first occurrence of a character. -/
def splitAt? (c : Char) (cs : List Char) : Option (List Char × List Char) :=
  match cs.dropWhile (· != c) with
  | _ :: after => some (cs.takeWhile (· != c), after)
  | [] => none

/-- The number that decimal digits denote. -/
def digitsValue (cs : List Char) : Nat := cs.foldl (fun n c => 10 * n + (c.toNat - '0'.toNat)) 0

/-- The number that digits with an optional minus sign denote. -/
def signedValue (cs : List Char) : Int :=
  match splitSign cs with
  | (true, digits) => -(digitsValue digits : Int)
  | (false, digits) => (digitsValue digits : Int)

/-- A numeral as a 64-bit integer. -/
def integer (cs : List Char) : Except ReadFault Int64 :=
  let n := signedValue cs
  if Int64.minValue.toInt ≤ n ∧ n ≤ Int64.maxValue.toInt then .ok (Int64.ofInt n)
  else .error (.integerOverflow (String.ofList cs))

/-- A numeral with a point, as its whole digits and its further digits. -/
def pointed? (unsigned : List Char) : Option (List Char × List Char) :=
  match splitAt? '.' unsigned with
  | some (whole, fraction) =>
    if isDigits whole && isDigits fraction then some (whole, fraction) else none
  | none => none

/-- A numeral with a slash, as its numerator, which may have a sign, and its denominator. -/
def slashed? (cs : List Char) : Option (List Char × List Char) :=
  match splitAt? '/' cs with
  | some (numer, denom) =>
    if isDigits (splitSign numer).2 && isDigits denom then some (numer, denom) else none
  | none => none

/-- What an atom stands for. -/
def classify (text : String) : Except ReadFault Atom :=
  let cs := text.toList
  let (negative, unsigned) := splitSign cs
  if text = "nil" then .ok .nil
  else if text = "." then .ok .dot
  else if isDigits unsigned then (integer cs).map .int
  else
    match pointed? unsigned with
    | some (whole, fraction) =>
      .ok (.float (Decimal.nearest negative (digitsValue (whole ++ fraction)) fraction.length))
    | none =>
      match slashed? cs with
      | some (numer, denom) => do
        let numer ← integer numer
        let denom ← integer denom
        .ok (.ratio numer denom)
      | none => .ok (.symbol text)

end Atom

namespace Text

/-- The character that an escape stands for, by the character after the backslash. -/
def escaped? (c : Char) : Option Char :=
  if c = '\x22' then some '\x22'
  else if c = '\\' then some '\\'
  else if c = 'n' then some '\n'
  else if c = 't' then some '\t'
  else if c = 'r' then some '\r'
  else if c = '0' then some '\x00'
  else none

/-- Resolves the escapes of a string literal, after the characters in `found`, the latest first. -/
def unescapeOnto (found : List Char) : List Char → Except ReadFault (List Char)
  | [] => .ok found.reverse
  | c :: cs =>
    if c = '\\' then
      match cs with
      | [] => .error (.invalidEscape '\\')
      | d :: ds =>
        match escaped? d with
        | some e => unescapeOnto (e :: found) ds
        | none => .error (.invalidEscape d)
    else unescapeOnto (c :: found) cs

/-- The text that a string literal stands for. -/
def unquote (literal : String) : Except ReadFault String :=
  let content := (literal.toList.drop 1).dropLast
  (unescapeOnto [] content).map String.ofList

end Text

end Lisplet
