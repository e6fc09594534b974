import Lisplet.Command.Machine
import Lisplet.Command.Repl
import Lisplet.Command.Run

/-!
# The Command Line

What a command line asks for, and how it is carried out once the file it names
has been read.
-/

namespace Lisplet.CommandLine

/-- A command that works on a file. -/
inductive FileCommand where
  | run
  | machine
  deriving DecidableEq, Repr

/-- What a command line asks for. -/
inductive Task where
  | help
  | repl (options : Options)
  | file (command : FileCommand) (path : String) (options : Options)
  /-- The command line was not understood, for which this text is the explanation. -/
  | misuse (text : String)

/-- The text of the help. -/
def usage : String := String.join <| [
  "Lis - a small Lisp with a register machine",
  "",
  "Usage: lis <command> [options]",
  "",
  "Commands:",
  "  repl                 Interactive read-eval-print loop (default)",
  "  run <file.lis>       Evaluate every form in a file",
  "  machine <file.lis>   Assemble a file as a register-machine program and run it",
  "  help                 Show this message",
  "",
  "Options:",
  "  -p, --print            run: print each non-nil result",
  "  --trace                machine: log every executed instruction",
  "  --monitor=<reg>        machine: log assignments to a register",
  "  --heap-capacity=<n>    Live values before a collection",
  "  --stack-limit=<n>      machine: stack entries before overflow",
  "  --max-depth=<n>        Nested evaluations before the recursion limit",
  "",
  "Set RUST_LOG to control log output."].map fun line => line ++ "\n"

/--
The command and its arguments. Without a command, or with an option in its
place, it is `repl`.
-/
def command (args : List String) : String × List String :=
  match args with
  | [] => ("repl", [])
  | first :: rest => if (Options.after? "-" first).isSome then ("repl", args) else (first, rest)

/-- A command on the one file that it takes. -/
def fileTask (c : FileCommand) (name : String) (options : Options) : List String → Task
  | [path] => .file c path options
  | _ => .misuse s!"Usage: lis {name} <file.lis> [options]\n"

/-- What the arguments of the program ask for. -/
def task (args : List String) : Task :=
  let (name, rest) := command args
  if name = "help" then .help
  else
    match Options.parse rest with
    | .error e => .misuse ("error: " ++ e.message ++ "\n\n" ++ usage)
    | .ok (options, files) =>
      if name = "repl" then
        if files.isEmpty then .repl options else .misuse "Usage: lis repl [options]\n"
      else if name = "run" then fileTask .run name options files
      else if name = "machine" then fileTask .machine name options files
      else .misuse ("unknown command: " ++ name ++ "\n\n" ++ usage)

/-- Carries out a command on a file, given what reading the file gave. -/
def onFile (c : FileCommand) (path : String) (options : Options) (out : Sink)
    (content : Except FileFault String) : Outcome :=
  match content with
  | .error fault =>
    let f := Failure.input path fault
    { status := f.status, out, err := f.report path "", journal := #[] }
  | .ok text =>
    match c with
    | .run => Run.source path text options out
    | .machine => MachineCommand.source path text options out

/-- Carries out a task, with a way to read files and with all input at hand. -/
def execute (t : Task) (readFile : String → Except FileFault String) (input : ByteArray)
    (out : Sink) : Outcome :=
  match t with
  | .help => { status := 0, out, err := usage, journal := #[] }
  | .misuse text => { status := 1, out, err := text, journal := #[] }
  | .repl options => Repl.run options (InputLine.all input) out
  | .file c path options => onFile c path options out (readFile path)

end Lisplet.CommandLine
