/-!
# Spans

A stretch of source text, in bytes of its UTF-8 encoding.
-/

namespace Lisplet.Text

structure Span where
  start : Nat
  stop : Nat
  deriving DecidableEq, Repr

/-- The empty span at an offset. -/
def Span.point (offset : Nat) : Span := ⟨offset, offset⟩

/-- A span as it is shown. -/
def Span.text (s : Span) : String := s!"{s.start}..{s.stop}"

/-- How many bytes characters take. -/
def byteLength (cs : List Char) : Nat := cs.foldl (fun n c => n + c.utf8Size) 0

end Lisplet.Text
