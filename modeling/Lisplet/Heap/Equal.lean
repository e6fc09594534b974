import Lisplet.Heap.Basic

/-!
# Structural Equality

Pairs are equal if their parts are; everything else is compared as one piece.
The walk keeps a list of comparisons still to be made, so neither long nor
deeply nested lists need a deep stack.
-/

namespace Lisplet

/--
Whether two ratios are the same number. A zero denominator makes no number, so
such a ratio equals only itself.
-/
def ratioEqual (numer denom numer' denom' : Int64) : Bool :=
  if denom == 0 || denom' == 0 then numer == numer' && denom == denom'
  else numer.toInt * denom'.toInt == numer'.toInt * denom.toInt

/--
Whether two objects that are not pairs are equal. Primitives, procedures and
environments equal no other object.
-/
def Object.sameAtom : Object → Object → Bool
  | .int m, .int n => m == n
  | .fixnum m, .fixnum n => m == n
  | .float x, .float y => x == y
  | .ratio numer denom, .ratio numer' denom' => ratioEqual numer denom numer' denom'
  | .string s, .string s' => s == s'
  | .symbol s, .symbol s' => s == s'
  | .error kind message, .error kind' message' => kind == kind' && message == message'
  | _, _ => false

/--
Two values still to be compared. `depth` bounds how many pairs may follow one
inside the other.
-/
structure Comparing where
  depth : Nat
  left : Value
  right : Value

namespace Comparing

/--
A pair adds two comparisons of smaller depth, so the weight of all comparisons
together goes down.
-/
def weight : List Comparing → Nat
  | [] => 0
  | c :: pending => Nat.pow 3 c.depth + weight pending

/-- Whether all comparisons succeed. -/
def all (h : Heap) : List Comparing → Bool
  | [] => true
  | ⟨0, left, right⟩ :: pending => left == right && all h pending
  | ⟨depth + 1, left, right⟩ :: pending =>
    if left == right then all h pending
    else
      match h.object? left, h.object? right with
      | some (.pair car cdr), some (.pair car' cdr') =>
        all h (⟨depth, car, car'⟩ :: ⟨depth, cdr, cdr'⟩ :: pending)
      | some x, some y => x.sameAtom y && all h pending
      | _, _ => false
termination_by pending => weight pending
decreasing_by
  all_goals simp only [weight, Nat.pow, Nat.mul_eq]
  · omega
  all_goals
    have : 0 < Nat.pow 3 depth := Nat.pow_pos (by decide)
    omega

end Comparing

/--
Structural equality. Equal handles are always equal, whatever they name. On the
way down to a part no two slots need to be compared twice, which bounds the depth.
-/
def Heap.equal (h : Heap) (left right : Value) : Bool :=
  Comparing.all h [⟨(h.slots.size + 1) * (h.slots.size + 1), left, right⟩]

end Lisplet
