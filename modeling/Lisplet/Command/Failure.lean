import Lisplet.Command.Options
import Lisplet.Command.Stream
import Lisplet.Report

/-!
# Failures

What stops a command, how it is reported, and with which status the command ends.
-/

namespace Lisplet

/-- Why a file could not be read. -/
inductive FileFault where
  | notFound
  | permissionDenied
  | invalidText
  /-- Any other reason, in the words of the system. -/
  | other (reason : String)
  deriving DecidableEq, Repr

def FileFault.message (path : String) : FileFault → String
  | .notFound => s!"cannot find file '{path}'"
  | .permissionDenied => s!"permission denied reading '{path}'"
  | .invalidText => s!"'{path}' contains invalid UTF-8 data"
  | .other reason => s!"error reading '{path}': {reason}"

inductive Failure where
  | input (path : String) (fault : FileFault)
  /-- The output stream takes no more. -/
  | output
  | read (e : ReadError)
  | assembly (e : AssemblyError)
  | machine (e : MachineError)
  | fatal (cause : Fatal)
  deriving DecidableEq, Repr

namespace Failure

/-- The fatal condition underneath. -/
def fatal? : Failure → Option Fatal
  | .read e => e.fatal?
  | .machine (.fatal cause) => some cause
  | .fatal cause => some cause
  | _ => none

/-- The status that was asked for, if the program asked to exit. -/
def exit? (f : Failure) : Option Int32 :=
  match f.fatal? with
  | some (.exit code) => some code
  | _ => none

/-- The status of a command that failed. -/
def status (f : Failure) : Int32 := f.exit?.getD 1

def message : Failure → String
  | .input path fault => fault.message path
  | .output => "cannot write output: closed"
  | .read e => e.fault.message
  | .assembly e => "assembly failed: " ++ e.message
  | .machine e => "machine stopped: " ++ e.message
  | .fatal cause => cause.message

/-- What is written about a failure. Nothing is said about an exit. -/
def report (path source : String) (f : Failure) : String :=
  match f.exit? with
  | some _ => ""
  | none =>
    match f with
    | .read e =>
      match e.fatal? with
      | none => Report.render path source e
      | some _ => "error: " ++ f.message ++ "\n"
    | .fatal cause => "fatal: " ++ cause.message ++ "\n"
    | f => "error: " ++ f.message ++ "\n"

end Failure

/-- How a command ended. -/
structure Outcome where
  status : Int32
  out : Sink
  err : String
  journal : Array Notice

end Lisplet
