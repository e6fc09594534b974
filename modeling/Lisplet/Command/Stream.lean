/-!
# Streams

The streams that commands work with: output that may be closed after a number of
bytes, and input that comes in lines.
-/

namespace Lisplet

/-- An output stream. -/
structure Sink where
  /-- What has been written so far. -/
  bytes : ByteArray
  /-- How many bytes the stream still takes; `none` if it takes all. -/
  room : Option Nat

namespace Sink

/-- A stream that takes everything, or a number of bytes. -/
def ofLimit (limit : Option Nat) : Sink := ⟨ByteArray.empty, limit⟩

/--
Writes a text, or as much of it as the stream takes. The answer is whether all
of it was taken.
-/
def write (sink : Sink) (text : String) : Bool × Sink :=
  let new := text.toUTF8
  match sink.room with
  | none => (true, { sink with bytes := sink.bytes ++ new })
  | some room =>
    let taken := min room new.size
    (decide (new.size ≤ room),
      { bytes := sink.bytes ++ new.extract 0 taken, room := some (room - taken) })

end Sink

/-- A line of input with its line feed. -/
inductive InputLine where
  | text (line : String)
  /-- The bytes of the line are not UTF-8. -/
  | invalid
  deriving DecidableEq, Repr

namespace InputLine

def ofBytes (bytes : ByteArray) : InputLine :=
  match String.fromUTF8? bytes with
  | some line => .text line
  | none => .invalid

/-- Cuts bytes into lines, of the first of which the bytes in `taken` have been read. -/
def cutOnto (found : Array InputLine) (taken : ByteArray) : List UInt8 → Array InputLine
  | [] => if taken.isEmpty then found else found.push (ofBytes taken)
  | b :: bs =>
    if b = 10 then cutOnto (found.push (ofBytes (taken.push b))) ByteArray.empty bs
    else cutOnto found (taken.push b) bs

/-- The lines of an input. -/
def all (input : ByteArray) : List InputLine :=
  (cutOnto #[] ByteArray.empty input.data.toList).toList

end InputLine

end Lisplet
