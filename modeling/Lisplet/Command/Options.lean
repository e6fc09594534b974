import Lisplet.Evaluator
import Lisplet.Machine.Assembly

/-!
# Options

The options that all commands share.
-/

namespace Lisplet

/-- Why a command line was not understood. -/
inductive UsageError where
  | noRegisterName
  | notPositive (flag text : String)
  | unknownOption (arg : String)
  deriving DecidableEq, Repr

def UsageError.message : UsageError → String
  | .noRegisterName => "--monitor expects a register name"
  | .notPositive flag text => s!"{flag} expects a positive integer, got `{text}`"
  | .unknownOption arg => s!"unknown option `{arg}`"

/-- How many values a heap may hold where nothing else is asked for. -/
def Heap.defaultCapacity : Nat := 1048576

structure Options where
  /-- How many values the heap may hold. -/
  capacity : Nat
  /-- How many compound evaluations may be nested. -/
  maxDepth : Nat
  /-- How many entries the stack of the machine may have. -/
  stackLimit : Nat
  /-- Whether `run` prints the results that are not nil. -/
  print : Bool
  /-- Whether the machine notes every instruction. -/
  trace : Bool
  /-- The registers of which every write is noted. -/
  monitor : List String
  deriving DecidableEq, Repr

namespace Options

def default : Options where
  capacity := Heap.defaultCapacity
  maxDepth := Evaluator.defaultLimit
  stackLimit := Setup.defaultStackLimit
  print := false
  trace := false
  monitor := []

/-- The largest number that an option takes. -/
def maxNumber : Nat := 18446744073709551615

/-- A positive number: decimal digits, perhaps after a plus sign. -/
def positive? (text : String) : Option Nat :=
  let digits :=
    match text.toList with
    | '+' :: cs => cs
    | cs => cs
  if Atom.isDigits digits then
    let n := Atom.digitsValue digits
    if 0 < n ∧ n ≤ maxNumber then some n else none
  else none

def positive (flag text : String) : Except UsageError Nat :=
  match positive? text with
  | some n => .ok n
  | none => .error (.notPositive flag text)

/-- What follows `lead` in a text that starts with it. -/
def after? (lead text : String) : Option String :=
  if lead.toList.isPrefixOf text.toList then
    some (String.ofList (text.toList.drop lead.length))
  else none

/-- Takes one argument; `none` if it is no option. -/
def take? (options : Options) (arg : String) : Except UsageError (Option Options) :=
  if arg = "--print" ∨ arg = "-p" then .ok (some { options with print := true })
  else if arg = "--trace" then .ok (some { options with trace := true })
  else if let some name := after? "--monitor=" arg then
    if name.isEmpty then .error .noRegisterName
    else .ok (some { options with monitor := options.monitor ++ [name] })
  else if let some text := after? "--heap-capacity=" arg then
    (positive "--heap-capacity" text).map fun n =>
      some { options with capacity := min n (Value.maxSlots - 1) }
  else if let some text := after? "--stack-limit=" arg then
    (positive "--stack-limit" text).map fun n => some { options with stackLimit := n }
  else if let some text := after? "--max-depth=" arg then
    (positive "--max-depth" text).map fun n => some { options with maxDepth := n }
  else if (after? "-" arg).isSome then .error (.unknownOption arg)
  else .ok none

/-- Takes arguments one by one; those that are no options are kept, the latest first. -/
def takeAll (options : Options) (others : List String) :
    List String → Except UsageError (Options × List String)
  | [] => .ok (options, others.reverse)
  | arg :: args =>
    match options.take? arg with
    | .ok (some options) => takeAll options others args
    | .ok none => takeAll options (arg :: others) args
    | .error e => .error e

/-- Divides arguments into options and others. -/
def parse (args : List String) : Except UsageError (Options × List String) :=
  takeAll default [] args

end Options

end Lisplet
