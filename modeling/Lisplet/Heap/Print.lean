import Lisplet.Decimal.Shortest
import Lisplet.Heap.Basic

/-!
# Printed Form

A value is printed in one of two styles: as it is written in a program, with
strings quoted and escaped, or as it is shown to a reader, with strings as they
are. Lists are printed from a list of pieces still to come, so neither long nor
deeply nested lists need a deep stack.
-/

namespace Lisplet

inductive Style where
  /-- As shown to a reader. -/
  | display
  /-- As written in a program. -/
  | write
  deriving DecidableEq, Repr

namespace Text

/-- How a character is written inside a string literal. -/
def escapeChar (c : Char) : List Char :=
  if c = '\x22' then ['\\', '\x22']
  else if c = '\\' then ['\\', '\\']
  else if c = '\n' then ['\\', 'n']
  else if c = '\t' then ['\\', 't']
  else if c = '\r' then ['\\', 'r']
  else [c]

/-- A string as a literal. -/
def quoted (text : String) : String :=
  String.ofList ('\x22' :: (text.toList.flatMap escapeChar ++ ['\x22']))

end Text

/-- The index of the slot of a value. -/
def Value.index : Value → Nat
  | .nil => 0
  | .slot index => index

/--
The text of an object that is not a pair; procedures and environments show the
slot they are in.
-/
def Object.text (style : Style) (value : Value) : Object → String
  | .int n | .fixnum n => toString n.toInt
  | .float x => Decimal.floatText x
  | .ratio numer denom => toString numer.toInt ++ "/" ++ toString denom.toInt
  | .string text =>
    match style with
    | .display => text
    | .write => Text.quoted text
  | .symbol name => name
  | .pair .. => ""
  | .primitive p => "#<primitive " ++ p.name ++ ">"
  | .error kind message => "ERROR: " ++ kind.name ++ ": " ++ message
  | .procedure .. => "#<procedure " ++ toString value.index ++ ">"
  | .environment .. => "#<environment " ++ toString value.index ++ ">"

/-- The text of a value that is not a pair. -/
def Heap.atomText (h : Heap) (style : Style) (value : Value) : String :=
  match value, h.object? value with
  | .nil, _ => "nil"
  | .slot _, some object => object.text style value
  | .slot _, none => "#<unknown>"

/-- What is still to be printed. `depth` bounds how many pairs may follow one inside the other. -/
inductive Piece where
  /-- A whole value. -/
  | value (depth : Nat) (value : Value)
  /-- What follows an element of a list, with the closing parenthesis. -/
  | tail (depth : Nat) (value : Value)

namespace Piece

def depth : Piece → Nat
  | .value depth _ => depth
  | .tail depth _ => depth

/-- A pair adds two pieces of smaller depth, so the weight of all pieces together goes down. -/
def weight : List Piece → Nat
  | [] => 0
  | piece :: pieces => Nat.pow 3 piece.depth + weight pieces

/-- Prints pieces one after the other. -/
def print (h : Heap) (style : Style) (out : String) : List Piece → String
  | [] => out
  | .value 0 _ :: pieces => print h style out pieces
  | .tail 0 _ :: pieces => print h style out pieces
  | .value (depth + 1) v :: pieces =>
    match h.pair? v with
    | some (car, cdr) =>
      print h style (out.push '(') (.value depth car :: .tail depth cdr :: pieces)
    | none => print h style (out ++ h.atomText style v) pieces
  | .tail (depth + 1) v :: pieces =>
    match h.pair? v with
    | some (car, cdr) =>
      print h style (out.push ' ') (.value depth car :: .tail depth cdr :: pieces)
    | none =>
      if v.isNil then print h style (out.push ')') pieces
      else print h style ((out ++ " . " ++ h.atomText style v).push ')') pieces
termination_by pieces => weight pieces
decreasing_by
  all_goals simp only [weight, Piece.depth, Nat.pow, Nat.mul_eq]
  · omega
  · omega
  all_goals
    have : 0 < Nat.pow 3 depth := Nat.pow_pos (by decide)
    omega

end Piece

namespace Heap

/--
The printed form of a value. In data without cycles no pair lies inside itself,
so a depth of one more than there are slots is enough.
-/
def print (h : Heap) (style : Style) (value : Value) : String :=
  Piece.print h style "" [.value (h.slots.size + 1) value]

def write (h : Heap) (value : Value) : String := h.print .write value

def display (h : Heap) (value : Value) : String := h.print .display value

end Heap

end Lisplet
