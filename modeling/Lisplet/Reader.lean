import Lisplet.Atom
import Lisplet.Heap.Allocate
import Lisplet.Token

/-!
# Reading

Reading turns lexemes into expressions on the heap. The forms that are still
open are kept in a list, the innermost first, so nesting is bounded only by
memory. Every value built while one expression is read stays rooted until the
expression is complete; the expression itself is rooted by whoever asked for it.
-/

namespace Lisplet

/-- How an open list is going to end. -/
inductive Ending where
  /-- There was no point. -/
  | proper
  /-- There was a point, and the tail is still to come. -/
  | awaited
  /-- The tail has been read; only the parenthesis may follow. -/
  | given (tail : Value)

/-- A form that has begun and not ended. -/
inductive OpenForm where
  /-- A list with its elements so far, the latest first. -/
  | list (items : List Value) (ending : Ending) (opening : Text.Span)
  /-- A quote mark without its expression. -/
  | quote (mark : Text.Span)

/-- Where reading stands after a lexeme. -/
inductive Progress where
  | unfinished (stack : List OpenForm)
  | finished (datum : Value)

namespace Reader

/-- An operation that can only fail fatally, as part of reading. -/
@[inline]
def allocating {α : Type} (op : HeapM Fatal α) : HeapM ReadError α :=
  HeapM.mapError ReadError.ofFatal op

/--
Hands a complete datum, which ended with the lexeme at `span`, to the innermost
open form. Quotes are completed by it.
-/
def deliver (span : Text.Span) (datum : Value) : List OpenForm → HeapM ReadError Progress
  | [] => pure (.finished datum)
  | .quote _ :: stack => do
    let symbol ← allocating (HeapM.intern "quote")
    let quoted ← allocating (HeapM.list [symbol, datum])
    HeapM.root quoted
    deliver span quoted stack
  | .list items .proper opening :: stack =>
    pure (.unfinished (.list (datum :: items) .proper opening :: stack))
  | .list items .awaited opening :: stack =>
    pure (.unfinished (.list items (.given datum) opening :: stack))
  | .list _ (.given _) _ :: _ => throw ⟨.badDot, span⟩

/-- Roots a new datum and hands it on. -/
def deliverNew (span : Text.Span) (stack : List OpenForm) (op : HeapM Fatal Value) :
    HeapM ReadError Progress := do
  let datum ← allocating op
  HeapM.root datum
  deliver span datum stack

/-- Takes a closing parenthesis. -/
def close (span : Text.Span) : List OpenForm → HeapM ReadError Progress
  | .list items .proper _ :: stack => deliverNew span stack (HeapM.consAll .nil items)
  | .list items (.given tail) _ :: stack => deliverNew span stack (HeapM.consAll tail items)
  | .list _ .awaited _ :: _ => throw ⟨.badDot, span⟩
  | .quote mark :: _ => throw ⟨.danglingQuote, mark⟩
  | [] => throw ⟨.unexpectedClose, span⟩

/-- Takes a lone point, which must follow at least one element of a list that has none yet. -/
def dot (span : Text.Span) : List OpenForm → HeapM ReadError Progress
  | .list (item :: items) .proper opening :: stack =>
    pure (.unfinished (.list (item :: items) .awaited opening :: stack))
  | _ => throw ⟨.badDot, span⟩

/-- Takes an atom. -/
def atom (span : Text.Span) (stack : List OpenForm) : Atom → HeapM ReadError Progress
  | .int n => deliverNew span stack (HeapM.int n)
  | .float x => deliverNew span stack (HeapM.float x)
  | .ratio numer denom => deliverNew span stack (HeapM.ratio numer denom)
  | .nil => deliver span .nil stack
  | .symbol name => deliverNew span stack (HeapM.intern name)
  | .dot => dot span stack

/-- Takes the next lexeme. -/
def take (stack : List OpenForm) (lexeme : Lexeme) : HeapM ReadError Progress :=
  let span := lexeme.span
  match lexeme.token with
  | .comment => pure (.unfinished stack)
  | .opening => pure (.unfinished (.list [] .proper span :: stack))
  | .quote => pure (.unfinished (.quote span :: stack))
  | .closing => close span stack
  | .string =>
    match Text.unquote lexeme.text with
    | .ok text => deliverNew span stack (HeapM.string text)
    | .error fault => throw ⟨fault, span⟩
  | .unclosed => throw ⟨.unterminatedString, span⟩
  | .atom =>
    match Atom.classify lexeme.text with
    | .ok a => atom span stack a
    | .error fault => throw ⟨fault, span⟩
  | .stray => throw ⟨.invalidToken lexeme.text, span⟩

/-- What the end of the text means while forms are open. -/
def ending : List OpenForm → Except ReadError (Option Value)
  | [] => .ok none
  | .list _ _ opening :: _ => .error ⟨.unterminatedList, opening⟩
  | .quote mark :: _ => .error ⟨.danglingQuote, mark⟩

end Reader

/-- A source text with what is still to be read of it. -/
structure Reader where
  lexemes : List Lexeme
  /-- Where the last lexeme that was read ends. -/
  offset : Nat
  /-- Where the text ends. -/
  size : Nat

/-- What reading one expression gave: an expression, nothing at the end of the text, or an error. -/
structure Reading where
  outcome : Except ReadError (Option Value)
  reader : Reader
  heap : Heap

namespace Reader

def ofSource (source : String) : Reader where
  lexemes := Lexeme.meaningful source
  offset := 0
  size := source.utf8ByteSize

/-- Takes lexemes until an expression is complete. -/
def takeAll (r : Reader) (stack : List OpenForm) : List Lexeme → Heap → Reading
  | [], h => ⟨ending stack, { r with lexemes := [], offset := r.size }, h⟩
  | lexeme :: lexemes, h =>
    match take stack lexeme h with
    | .ok (.unfinished stack) h => r.takeAll stack lexemes h
    | .ok (.finished datum) h =>
      ⟨.ok (some datum), { r with lexemes, offset := lexeme.span.stop }, h⟩
    | .error e h => ⟨.error e, { r with lexemes, offset := lexeme.span.stop }, h⟩

/-- Reads the next expression. After an error reading can go on behind the lexeme that caused it. -/
def read (r : Reader) (h : Heap) : Reading :=
  let height := h.roots.length
  match r.takeAll [] r.lexemes h with
  | ⟨outcome, reader, heap⟩ => ⟨outcome, reader, heap.truncateRoots height⟩

theorem length_takeAll_le (r : Reader) (stack : List OpenForm) (lexemes : List Lexeme) (h : Heap) :
    (r.takeAll stack lexemes h).reader.lexemes.length ≤ lexemes.length - 1 := by
  induction lexemes generalizing stack h with
  | nil => simp [takeAll]
  | cons lexeme lexemes ih =>
    unfold takeAll
    split
    · exact Nat.le_trans (ih _ _) (by simp)
    · simp
    · simp

/-- Reading an expression uses up at least one lexeme. -/
theorem length_read_lt (r : Reader) (h : Heap) {value : Value}
    (found : (r.read h).outcome = .ok (some value)) :
    (r.read h).reader.lexemes.length < r.lexemes.length := by
  have bound := r.length_takeAll_le [] r.lexemes h
  cases hl : r.lexemes with
  | nil => simp [read, hl, takeAll, ending] at found
  | cons lexeme lexemes =>
    simp only [hl, List.length_cons, Nat.add_sub_cancel] at bound
    simp only [read, hl, List.length_cons]
    omega

theorem length_lt_of_read {r r' : Reader} {h h' : Heap} {value : Value}
    (found : r.read h = ⟨.ok (some value), r', h'⟩) : r'.lexemes.length < r.lexemes.length := by
  have outcome : (r.read h).outcome = .ok (some value) := by rw [found]
  have := r.length_read_lt h outcome
  rwa [found] at this

/-- Reads all further expressions, after those in `found`, and roots them. -/
def readAllOnto (r : Reader) (found : List Value) (h : Heap) :
    Except ReadError (List Value) × Heap :=
  match _read : r.read h with
  | ⟨.ok (some form), r, h⟩ => r.readAllOnto (form :: found) (h.addRoot form)
  | ⟨.ok none, _, h⟩ => (.ok found.reverse, h)
  | ⟨.error e, _, h⟩ => (.error e, h)
termination_by r.lexemes.length
decreasing_by exact length_lt_of_read _read

/-- Reads all expressions of a source text. They are rooted only while reading. -/
def readAll (source : String) : HeapM ReadError (List Value) := HeapM.scope fun h =>
  match (ofSource source).readAllOnto [] h with
  | (.ok forms, h) => .ok forms h
  | (.error e, h) => .error e h

/-- Reads the one expression that makes up a source text. -/
def readOne (source : String) : HeapM ReadError Value := fun h =>
  match (ofSource source).read h with
  | ⟨.error e, _, h⟩ => .error e h
  | ⟨.ok none, _, h⟩ => .error ⟨.empty, .point source.utf8ByteSize⟩ h
  | ⟨.ok (some form), r, h⟩ =>
    match r.lexemes with
    | [] => .ok form h
    | lexeme :: _ => .error ⟨.trailingInput, lexeme.span⟩ h

end Reader

end Lisplet
