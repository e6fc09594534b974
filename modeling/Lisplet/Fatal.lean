/-!
# Fatal Conditions

Conditions that end a run. Everything else that can go wrong while a program
runs is an error value, which the program receives like any other value.
-/

namespace Lisplet

/-- Why a run ends. -/
inductive Fatal where
  /-- After a collection `live` values were still in use at `capacity`. -/
  | outOfMemory (live capacity : Nat)
  /-- More than `limit` compound evaluations were nested. -/
  | recursionLimit (limit : Nat)
  /-- The program asked to exit. -/
  | exit (code : Int32)
  deriving DecidableEq, Repr

/-- The text shown for a fatal condition. -/
def Fatal.message : Fatal → String
  | .outOfMemory live capacity =>
    s!"out of memory: {live} live values at capacity {capacity} after collection"
  | .recursionLimit limit => s!"recursion limit of {limit} nested evaluations exceeded"
  | .exit code => s!"exit requested with status {code}"

end Lisplet
