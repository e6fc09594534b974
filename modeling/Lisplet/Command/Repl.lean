import Lisplet.Command.Evaluate

/-!
# The `repl` Command

Lines are gathered until they hold only complete forms, which are then evaluated
and their results printed. Read errors and fatal conditions are reported and the
loop goes on; it ends with the input, or when the program asks to exit.
-/

namespace Lisplet

/-- The loop between two lines of input. -/
structure Repl where
  heap : Heap
  /-- Lines that do not make up complete forms yet. -/
  buffer : String
  out : Sink
  err : String

namespace Repl

/-- The name the input goes by. -/
def inputName : String := "<repl>"

/-- What the loop does after a line. -/
inductive Next where
  | goOn (repl : Repl)
  | stop (status : Int32) (repl : Repl)

/-- Asks for a line. The answer is whether that could be written. -/
def prompt (repl : Repl) : Bool × Repl :=
  match repl with
  | ⟨heap, buffer, out, err⟩ =>
    let (taken, out) := out.write (if buffer.isEmpty then "lis> " else "...  ")
    (taken, ⟨heap, buffer, out, err⟩)

/-- Whether the text of a reader ends inside a form that is not complete. -/
def awaitsMoreFrom (r : Reader) (h : Heap) : Bool × Heap :=
  match _read : r.read h with
  | ⟨.ok (some _), r, h⟩ => awaitsMoreFrom r h
  | ⟨.ok none, _, h⟩ => (false, h)
  | ⟨.error e, _, h⟩ => (e.fault.wantsMore, h)
termination_by r.lexemes.length
decreasing_by exact Reader.length_lt_of_read _read

/--
Whether a text ends inside a form that is not complete. The forms before it are
read onto the heap but not kept.
-/
def awaitsMore (text : String) (h : Heap) : Bool × Heap :=
  awaitsMoreFrom (Reader.ofSource text) h

/-- Prints one result. -/
def each (h : Heap) (value : Value) (out : Sink) : Except Failure Unit × Sink :=
  match out.write (h.write value ++ "\n") with
  | (true, out) => (.ok (), out)
  | (false, out) => (.error .output, out)

/-- Evaluates a text and prints the results. -/
def evaluate (maxDepth : Nat) (text : String) (h : Heap) (out : Sink) (err : String) : Next :=
  match evaluateSource maxDepth text each h out with
  | (.ok (), heap, out) => .goOn ⟨heap, "", out, err⟩
  | (.error f, heap, out) =>
    let repl : Repl := ⟨heap, "", out, err ++ f.report inputName text⟩
    match f.exit? with
    | some status => .stop status repl
    | none => .goOn repl

/-- Takes a line. -/
def feed (maxDepth : Nat) (repl : Repl) : InputLine → Next
  | .invalid =>
    .stop 1 { repl with err := repl.err ++ "error: stream did not contain valid UTF-8\n" }
  | .text line =>
    match repl with
    | ⟨heap, buffer, out, err⟩ =>
      let text := buffer ++ line
      match awaitsMore text heap with
      | (true, heap) => .goOn ⟨heap, text, out, err⟩
      | (false, heap) => evaluate maxDepth text heap out err

/-- Ends the line of the last prompt, when there is no more input. -/
def finish (repl : Repl) : Repl :=
  match repl with
  | ⟨heap, buffer, out, err⟩ => ⟨heap, buffer, (out.write "\n").2, err⟩

/-- The loop over all lines of an input. -/
def loop (maxDepth : Nat) (repl : Repl) (lines : List InputLine) : Int32 × Repl :=
  match repl.prompt with
  | (false, repl) => (1, repl)
  | (true, repl) =>
    match lines with
    | [] => (0, repl.finish)
    | line :: lines =>
      match repl.feed maxDepth line with
      | .stop status repl => (status, repl)
      | .goOn repl => repl.loop maxDepth lines

/-- The loop with a heap of its own. -/
def run (options : Options) (lines : List InputLine) (out : Sink) : Outcome :=
  match Heap.standard options.capacity with
  | .error cause =>
    let f := Failure.fatal cause
    { status := f.status, out, err := f.report inputName "", journal := #[] }
  | .ok heap =>
    let (status, repl) := loop options.maxDepth ⟨heap, "", out, ""⟩ lines
    { status, out := repl.out, err := repl.err, journal := repl.heap.journal }

end Repl

end Lisplet
