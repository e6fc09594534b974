import Lisplet.Command.Evaluate

/-!
# The `run` Command

Evaluates every form of a file. Error values are reported and evaluation goes
on with the next form.
-/

namespace Lisplet.Run

/-- What a run has written, and whether any result was an error value. -/
structure Progress where
  out : Sink
  err : String
  failed : Bool

/-- Reports one result. -/
def each (print : Bool) (h : Heap) (value : Value) (p : Progress) :
    Except Failure Unit × Progress :=
  if h.isError value then
    (.ok (), { p with failed := true, err := p.err ++ h.display value ++ "\n" })
  else if print && !value.isNil then
    match p with
    | ⟨out, err, failed⟩ =>
      match out.write (h.write value ++ "\n") with
      | (true, out) => (.ok (), ⟨out, err, failed⟩)
      | (false, out) => (.error .output, ⟨out, err, failed⟩)
  else (.ok (), p)

/-- Runs a source text as a program. The status is 1 if any result was an error value. -/
def source (path text : String) (options : Options) (out : Sink) : Outcome :=
  match Heap.standard options.capacity with
  | .error cause =>
    let f := Failure.fatal cause
    { status := f.status, out, err := f.report path text, journal := #[] }
  | .ok h =>
    match evaluateSource options.maxDepth text (each options.print) h ⟨out, "", false⟩ with
    | (.ok (), h, p) =>
      { status := if p.failed then 1 else 0, out := p.out, err := p.err, journal := h.journal }
    | (.error f, h, p) =>
      { status := f.status
        out := p.out
        err := p.err ++ f.report path text
        journal := h.journal }

end Lisplet.Run
