/-!
# The Journal

What a run reports on the side, apart from its result and its output.
-/

namespace Lisplet

/-- One entry of the journal. -/
inductive Notice where
  /-- A traced machine is about to execute the instruction at `pc`. -/
  | executing (pc : Nat) (instruction : String)
  /-- A monitored register was written. -/
  | assigned (register value : String)
  /-- The `print` operation showed a value. -/
  | printed (text : String)
  deriving DecidableEq, Repr

end Lisplet
