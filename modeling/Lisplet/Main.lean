import Lisplet.Command.Line

/-!
# The Program

Reads the command line and the streams of the process and hands them to the
commands. Nothing is decided here.
-/

namespace Lisplet.Program

/-- Why reading a file failed. -/
def fileFault : IO.Error → FileFault
  | .noFileOrDirectory .. => .notFound
  | .permissionDenied .. => .permissionDenied
  | .inappropriateType _ code reason => .other s!"{reason} (os error {code})"
  | .otherError code reason => .other s!"{reason} (os error {code})"
  | e => .other (toString e)

def readFile (path : String) : IO (Except FileFault String) := do
  try
    let content ← IO.FS.readBinFile path
    match String.fromUTF8? content with
    | some text => pure (.ok text)
    | none => pure (.error .invalidText)
  catch e => pure (.error (fileFault e))

/-- How an entry of the journal is logged. -/
def logLine : Notice → String
  | .executing pc instruction => s!"exec {pc} {instruction}"
  | .assigned register value => s!"assign {register} = {value}"
  | .printed text => s!"print {text}"

def showJournal (journal : Array Notice) : IO Unit := do
  for notice in journal do
    IO.eprintln (logLine notice)

def showOutcome (o : Outcome) : IO UInt32 := do
  showJournal o.journal
  let out ← IO.getStdout
  out.write o.out.bytes
  out.flush
  IO.eprint o.err
  pure (UInt32.ofNat (o.status.toInt % 256).toNat)

/-- Writes out what the loop has to say, and forgets it. -/
def flushRepl (repl : Repl) : IO Repl := do
  showJournal repl.heap.journal
  let out ← IO.getStdout
  out.write repl.out.bytes
  out.flush
  IO.eprint repl.err
  pure
    { repl with
      heap := { repl.heap with journal := #[] }
      out := { repl.out with bytes := ByteArray.empty }
      err := "" }

def readLine : IO (Option InputLine) := do
  let input ← IO.getStdin
  try
    let line ← input.getLine
    pure (if line.isEmpty then none else some (.text line))
  catch _ => pure (some .invalid)

/-- The loop, line by line. -/
partial def interact (maxDepth : Nat) (repl : Repl) : IO UInt32 := do
  let repl ← flushRepl repl.prompt.2
  match ← readLine with
  | none =>
    let _ ← flushRepl repl.finish
    pure 0
  | some line =>
    match repl.feed maxDepth line with
    | .goOn repl => interact maxDepth (← flushRepl repl)
    | .stop status repl =>
      let _ ← flushRepl repl
      pure (UInt32.ofNat (status.toInt % 256).toNat)

def runTask : CommandLine.Task → IO UInt32
  | .file command path options => do
    showOutcome (CommandLine.onFile command path options (Sink.ofLimit none) (← readFile path))
  | .repl options =>
    match Heap.standard options.capacity with
    | .ok heap =>
      interact options.maxDepth { heap, buffer := "", out := Sink.ofLimit none, err := "" }
    | .error _ => showOutcome (Repl.run options [] (Sink.ofLimit none))
  | task =>
    let noFile := fun _ => .error .notFound
    showOutcome (CommandLine.execute task noFile ByteArray.empty (Sink.ofLimit none))

end Lisplet.Program

def main (args : List String) : IO UInt32 :=
  Lisplet.Program.runTask (Lisplet.CommandLine.task args)
