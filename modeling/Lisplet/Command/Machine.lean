import Lisplet.Command.Failure
import Lisplet.Machine.Run

/-!
# The `machine` Command

Assembles all forms of a file into one program and runs it. The registers and
the stack statistics are written afterwards, also if the machine stopped early.
-/

namespace Lisplet.MachineCommand

/-- The lines that show a machine: its registers, and how the stack was used. -/
def stateLines (m : Machine) (h : Heap) : List String :=
  let registers :=
    m.registers.toList.map fun register => register.name ++ " = " ++ register.payload.text h
  let pushes := m.stats.totalPushes
  let depth := m.stats.maxDepth
  registers ++ [s!"total pushes = {pushes}, max-depth = {depth}"]

/-- Writes lines one by one, as long as the stream takes them. -/
def writeLines (out : Sink) : List String → Except Failure Unit × Sink
  | [] => (.ok (), out)
  | line :: lines =>
    match out.write (line ++ "\n") with
    | (true, out) => writeLines out lines
    | (false, out) => (.error .output, out)

/-- The program that a source text makes up, as a list. -/
def readProgram (text : String) : HeapM Failure Value := do
  let forms ← HeapM.mapError .read (Reader.readAll text)
  HeapM.mapError .fatal (HeapM.list forms)

/-- The machine that options ask for. -/
def setup (options : Options) : Setup :=
  { Setup.standard with
    stackLimit := options.stackLimit
    monitored := options.monitor
    trace := options.trace }

/-- Assembles and runs a source text. A failure of the machine comes before one of the stream. -/
def execute (text : String) (options : Options) (h : Heap) (out : Sink) :
    Except Failure Unit × Heap × Sink :=
  let assembled : HeapM Failure Machine := do
    let program ← readProgram text
    HeapM.mapError .assembly (Bench.assemble (setup options) program)
  match assembled h with
  | .error f h => (.error f, h, out)
  | .ok machine heap =>
    let (result, b) : Except Failure Unit × Bench :=
      match Bench.run ⟨machine, heap⟩ with
      | .ok () b => (.ok (), b)
      | .error e b => (.error (.machine e), b)
    let (printed, out) := writeLines out (stateLines b.machine b.heap)
    match result with
    | .error f => (.error f, b.release, out)
    | .ok () => (printed, b.release, out)

/-- Runs a source text as a program of the register machine. -/
def source (path text : String) (options : Options) (out : Sink) : Outcome :=
  match Heap.standard options.capacity with
  | .error cause =>
    let f := Failure.fatal cause
    { status := f.status, out, err := f.report path text, journal := #[] }
  | .ok h =>
    match execute text options h out with
    | (.ok (), h, out) => { status := 0, out, err := "", journal := h.journal }
    | (.error f, h, out) =>
      { status := f.status, out, err := f.report path text, journal := h.journal }

end Lisplet.MachineCommand
