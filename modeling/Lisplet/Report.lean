import Lisplet.ReadError
import Lisplet.Text.Lines
import Lisplet.Text.Width

/-!
# Reports

A read error is shown with the line it is on. The characters to blame are
underlined, and a message hangs from the middle of the underline.
-/

namespace Lisplet.Report

/-! ## Which characters to underline -/

/-- A stretch of characters. -/
structure Label where
  start : Nat
  stop : Nat
  deriving DecidableEq, Repr

/--
How many characters begin before a byte offset, of which `count` are already
known and the next begins at `position`.
-/
def charOffsetFrom (byte count position : Nat) : List Char → Nat
  | [] => count
  | c :: cs =>
    if position < byte then charOffsetFrom byte (count + 1) (position + c.utf8Size) cs else count

/-- How many characters of a text begin before a byte offset. -/
def charOffset (source : String) (byte : Nat) : Nat := charOffsetFrom byte 0 0 source.toList

/--
The characters that a span covers. A span that covers none still gets one, the
one after it or, at the end of the text, the one before it.
-/
def label (source : String) (span : Text.Span) : Label :=
  let total := source.length
  let start := min (charOffset source span.start) total
  let stop := min (max (charOffset source span.stop) start) total
  if start < stop then ⟨start, stop⟩
  else if start < total then ⟨start, start + 1⟩
  else ⟨start - 1, total⟩

/-- What is said about the characters to blame. -/
def labelMessage : ReadFault → String
  | .unterminatedList => "list opened here is never closed"
  | .unterminatedString => "string starts here"
  | .unexpectedClose => "no list is open"
  | .danglingQuote => "quote has nothing to apply to"
  | .badDot => "`.` must sit between the last two items of a list"
  | _ => "here"

/-! ## Drawing -/

/-- How many columns apart tab stops are. -/
def tabWidth : Nat := 4

/-- How many columns the character at an index of a line is drawn in. -/
def columns (index : Nat) (c : Char) : Nat :=
  if c = '\t' then tabWidth - index % tabWidth
  else if Text.isWhiteSpace c then 1
  else Text.displayWidth c

/--
A character of a source line as it is drawn: white space as blanks, and
everything else as it is.
-/
def drawChar (index : Nat) (c : Char) : List Char :=
  if Text.isWhiteSpace c then List.replicate (columns index c) ' ' else [c]

def drawLine (visible : List Char) : List Char :=
  (visible.zipIdx.map fun (c, index) => drawChar index c).flatten

/--
One mark below the character at an index: `first` in its first column and
`further` in all others.
-/
def drawMark (visible : List Char) (index : Nat) (first further : Char) : List Char :=
  let width :=
    match visible[index]? with
    | some c => columns index c
    | none => 1
  match width with
  | 0 => []
  | width + 1 => first :: List.replicate width further

/--
The underline of the characters from `start` to `stop`, with the place in the
middle where the message hangs.
-/
def drawUnderline (visible : List Char) (start stop : Nat) : List Char :=
  let middle := (start + stop) / 2
  ((List.range (stop + 2)).map fun index =>
    if index = middle then drawMark visible index '┬' '─'
    else if start ≤ index ∧ index < stop then drawMark visible index '─' '─'
    else drawMark visible index ' ' ' ').flatten

/-- The line from the middle of the underline to the message. -/
def drawHanger (visible : List Char) (start stop : Nat) : List Char :=
  let middle := (start + stop) / 2
  ((List.range (stop + 2)).map fun index =>
    if index = middle then drawMark visible index '╰' '─'
    else if middle < index then drawMark visible index '─' '─'
    else drawMark visible index ' ' ' ').flatten

/--
The lines of a report on `stop - start` characters of a line, both counted from
the start of the line.
-/
def excerpt (path : String) (number : Nat) (visible : List Char) (start stop : Nat)
    (message : String) : List String :=
  let number := toString number
  let indent := String.ofList (List.replicate (number.length + 2) ' ')
  let foot := String.ofList (List.replicate (number.length + 2) '─')
  let place := path ++ ":" ++ number ++ ":" ++ toString (start + 1)
  [indent ++ "╭─[" ++ place ++ "]",
   indent ++ "│",
   " " ++ number ++ " │ " ++ String.ofList (drawLine visible),
   indent ++ "│ " ++ String.ofList (drawUnderline visible start stop),
   indent ++ "│ " ++ String.ofList (drawHanger visible start stop) ++ " " ++ message,
   foot ++ "╯"]

/-- The report on a read error in a source text that goes by the name of `path`. -/
def render (path source : String) (e : ReadError) : String :=
  let head := "Error: read error: " ++ e.fault.message
  let l := label source e.span
  let body :=
    match Text.SourceLine.find? (Text.SourceLine.all source) l.start with
    | none => []
    | some (number, line) =>
      let start := l.start - line.offset
      let stop := min (l.stop - line.offset) line.chars.length
      excerpt path number line.visible start stop (labelMessage e.fault)
  String.join ((head :: body).map fun line => line.push '\n')

end Lisplet.Report
