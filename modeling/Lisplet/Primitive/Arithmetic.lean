import Lisplet.Heap.Raise

/-!
# Arithmetic

Numbers stay integers as long as all operands are integers; the first operand
that is a double makes the rest of the computation one on doubles. Integers are
64 bits wide and never wrap: a result that does not fit is an overflow.
-/

namespace Lisplet

/-- An operand of arithmetic. -/
inductive Number where
  | int (n : Int64)
  | float (x : Float)

/-- Why an operator gave no number. -/
inductive ArithmeticFault where
  | overflow
  | divisionByZero
  deriving DecidableEq, Repr

namespace Number

def toFloat : Number → Float
  | .int n => n.toFloat
  | .float x => x

def isZero : Number → Bool
  | .int n => n == 0
  | .float x => x == 0

/-- A whole number as a 64-bit integer, if it is in range. -/
def checked (n : Int) : Except ArithmeticFault Int64 :=
  if Int64.minValue.toInt ≤ n ∧ n ≤ Int64.maxValue.toInt then .ok (Int64.ofInt n)
  else .error .overflow

/-- What an operator gives on whole numbers. Division drops the fraction. -/
def exact : Operator → Int → Int → Int
  | .add, a, b => a + b
  | .sub, a, b => a - b
  | .mul, a, b => a * b
  | .div, a, b => a.tdiv b

def inexact : Operator → Float → Float → Float
  | .add, x, y => x + y
  | .sub, x, y => x - y
  | .mul, x, y => x * y
  | .div, x, y => x / y

/-- One step of arithmetic. -/
def combine (op : Operator) (a b : Number) : Except ArithmeticFault Number :=
  if op = .div ∧ b.isZero then .error .divisionByZero
  else
    match a, b with
    | .int m, .int n => (checked (exact op m.toInt n.toInt)).map .int
    | a, b => .ok (.float (inexact op a.toFloat b.toFloat))

/-- Combines numbers from left to right, up to the first fault. -/
def combineAll (op : Operator) (a : Number) : List Number → Except ArithmeticFault Number
  | [] => .ok a
  | b :: rest =>
    match combine op a b with
    | .ok c => combineAll op c rest
    | .error fault => .error fault

/-- Where an operator starts when it has fewer than two operands. -/
def identity : Operator → Int64
  | .add | .sub => 0
  | .mul | .div => 1

/--
An operator applied to any number of operands. A single one is combined with the
identity, so that `(- x)` negates.
-/
def apply (op : Operator) : List Number → Except ArithmeticFault Number
  | [] => .ok (.int (identity op))
  | [only] => combineAll op (.int (identity op)) [only]
  | first :: rest => combineAll op first rest

/-- Whether a comparison holds between two numbers; none does with a `nan`. -/
def compare (c : Comparison) : Number → Number → Bool
  | .int m, .int n =>
    match c with
    | .eq => m == n
    | .lt => m < n
    | .gt => m > n
    | .le => m ≤ n
    | .ge => m ≥ n
  | a, b =>
    match c with
    | .eq => a.toFloat == b.toFloat
    | .lt => a.toFloat < b.toFloat
    | .gt => b.toFloat < a.toFloat
    | .le => a.toFloat ≤ b.toFloat
    | .ge => b.toFloat ≤ a.toFloat

/-- Whether a comparison holds between any two neighbours. -/
def chained (c : Comparison) : List Number → Bool
  | a :: b :: rest => compare c a b && chained c (b :: rest)
  | _ => true

end Number

namespace HeapM

/-- A new number value. -/
def number : Number → HeapM Fatal Value
  | .int n => int n
  | .float x => float x

/-- An operand as a number, or the error value that says why it is none. -/
def operand (who : String) (value : Value) : HeapM Fatal (Except Value Number) := do
  match (← get).object? value with
  | some (.int n) | some (.fixnum n) => pure (.ok (.int n))
  | some (.float x) => pure (.ok (.float x))
  | some (.ratio ..) =>
    .error <$> raise .typeError s!"{who}: ratio arithmetic is not supported"
  | _ => .error <$> wrongKind who "number" value

/-- All operands as numbers in reverse order, or an error value for the first that is none. -/
def operandsOnto (who : String) (found : List Number) :
    List Value → HeapM Fatal (Except Value (List Number))
  | [] => pure (.ok found)
  | value :: values => do
    match ← operand who value with
    | .ok n => operandsOnto who (n :: found) values
    | .error e => pure (.error e)

/-- Runs `body` on the numbers in an argument list. -/
def withNumbers (who : String) (args : Value) (body : List Number → HeapM Fatal Value) :
    HeapM Fatal Value := do
  match (← get).items? args with
  | none => improperArguments who
  | some items =>
    match ← operandsOnto who [] items with
    | .ok found => body found.reverse
    | .error e => pure e

/-- The primitives `+`, `-`, `*` and `/`. -/
def arithmetic (op : Operator) (args : Value) : HeapM Fatal Value := do
  let who := op.name
  if (op = .sub ∨ op = .div) ∧ args.isNil then
    raise .arityMismatch s!"{who} expects at least 1 argument, got 0"
  else
    withNumbers who args fun numbers =>
      match Number.apply op numbers with
      | .ok n => number n
      | .error .overflow => raise .overflow s!"integer overflow in {who}"
      | .error .divisionByZero => raise .divisionByZero "division by zero"

/-- The primitives `=`, `<`, `>`, `<=` and `>=`. -/
def comparison (c : Comparison) (args : Value) : HeapM Fatal Value := do
  let who := c.name
  withNumbers who args fun numbers => do
    let got := numbers.length
    if got < 2 then raise .arityMismatch s!"{who} expects at least 2 arguments, got {got}"
    else pure ((← get).boolean (Number.chained c numbers))

end HeapM

end Lisplet
