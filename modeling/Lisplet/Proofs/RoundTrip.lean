import Lisplet.Proofs.Heap.Growth
import Lisplet.Proofs.Heap.History
import Lisplet.Proofs.Text.Classification
import Lisplet.Proofs.Text.Lexing
import Lisplet.Reader

/-!
# RoundTrip — what is written reads back as an equal value

The text of a finite value is scanned as the tokens of its tree, and the reader, given these
tokens in any state that awaits an expression, builds a copy of the tree and hands it on. The
induction runs over the tree, for a whole expression and for what follows an element of a list
at once. The two halves meet in `Reader.readOne_write`.
-/

namespace Lisplet

open Lexeme (key Scans Delimited)

/-! ## Readable trees -/

/--
Objects whose written form is read back as the same object: integers, strings, ratios without
a negative denominator, and symbols with a name that is read as one atom and is no number.
-/
def Object.IsReadable : Object → Prop
  | .int _ | .string _ => True
  | .ratio _ denom => 0 ≤ denom.toInt
  | .symbol name =>
    (Lexeme.scan name).map key = [(.atom, name)] ∧ Atom.classify name = .ok (.symbol name)
  | _ => False

namespace Datum

/-- All atoms of a tree can be read back. -/
def IsReadable : Datum → Prop
  | nil => True
  | atom _ o => o.IsReadable
  | pair car cdr => car.IsReadable ∧ cdr.IsReadable

/-- How many slots reading a tree takes when its symbols are interned already. -/
def cost : Datum → Nat
  | nil | atom _ (.symbol _) => 0
  | atom _ _ => 1
  | pair car cdr => car.cost + cdr.cost + 1

/-- A tree of the same shape with the same atoms, of which the symbols are in the same slots. -/
inductive Copies : Datum → Datum → Prop where
  | nil : Copies .nil .nil
  | symbol (i : Nat) (name : String) : Copies (.atom i (.symbol name)) (.atom i (.symbol name))
  | atom {o : Object} (i j : Nat) (other : ∀ name, o ≠ .symbol name) :
      Copies (.atom i o) (.atom j o)
  | pair {a a' d d' : Datum} : Copies a a' → Copies d d' → Copies (.pair a d) (.pair a' d')

/-- The class of lexeme as which an atom is read. -/
def tokenOf : Object → Token
  | .string _ => .string
  | _ => .atom

mutual

/-- The tokens of the written form of a tree. -/
def tokens : Datum → List (Token × String)
  | nil => [(.atom, "nil")]
  | atom i o => [(tokenOf o, o.text .write (.slot i))]
  | pair car cdr => (.opening, "(") :: (car.tokens ++ cdr.tailTokens)

/-- The tokens of what follows an element of a list. -/
def tailTokens : Datum → List (Token × String)
  | nil => [(.closing, ")")]
  | atom i o => (.atom, ".") :: (tokenOf o, o.text .write (.slot i)) :: [(.closing, ")")]
  | pair car cdr => car.tokens ++ cdr.tailTokens

end

theorem tokenOf_ne_comment (o : Object) : tokenOf o ≠ .comment := by
  unfold tokenOf
  split
  · nofun
  · nofun

/-- Nothing in a written value is a comment. -/
theorem no_comment (d : Datum) :
    (∀ t ∈ d.tokens, t.1 ≠ .comment) ∧ ∀ t ∈ d.tailTokens, t.1 ≠ .comment := by
  induction d with
  | nil => simp [tokens, tailTokens]
  | atom i o => simp [tokens, tailTokens, tokenOf_ne_comment]
  | pair a d ihCar ihCdr =>
      -- An element and what follows it, inside parentheses or not.
      have both : ∀ t ∈ a.tokens ++ d.tailTokens, t.1 ≠ .comment := by
        intro t member
        rcases List.mem_append.1 member with first | second
        · exact ihCar.1 t first
        · exact ihCdr.2 t second
      refine ⟨fun t member => ?_, both⟩
      rcases List.mem_cons.1 member with rfl | later
      · decide
      · exact both t later

/-! ## Scanning -/

theorem scans_atom {o : Object} (readable : o.IsReadable) (value : Value) {rest : List Char}
    (delimited : Delimited rest) :
    Scans (o.text .write value).toList rest [(tokenOf o, o.text .write value)] := by
  cases o with
  | int n =>
      -- Atoms go up to the delimiter; a literal ends with its own quote.
      have scans := Scans.atom (Atom.numeral_ne_nil n.toInt)
        (fun _ => Atom.isAtomChar_of_mem_numeral) delimited
      have text : String.ofList (Atom.numeral n.toInt) = toString n.toInt := String.ofList_toList
      rw [text] at scans
      exact scans
  | ratio numer denom =>
      have chars : (toString numer.toInt ++ "/" ++ toString denom.toInt).toList =
          Atom.ratioChars numer.toInt denom.toInt := Atom.toList_ratio numer.toInt denom.toInt
      have some : Atom.ratioChars numer.toInt denom.toInt ≠ [] :=
        List.append_ne_nil_of_left_ne_nil (Atom.numeral_ne_nil _) _
      have scans := Scans.atom some (fun _ => Atom.isAtomChar_of_mem_ratioChars) delimited
      rw [← chars, String.ofList_toList] at scans
      exact scans
  | string text => exact Scans.literal text rest
  | symbol name =>
      rcases Lexeme.scan_eq_atom_iff.1 readable.1 with ⟨some, chars⟩
      have scans := Scans.atom some chars delimited
      rw [String.ofList_toList] at scans
      exact scans
  | _ => exact absurd readable id

theorem delimited_tailText (d : Datum) (rest : List Char) :
    Delimited (d.tailText .write ++ rest) := by
  intro c first
  cases d with
  | nil =>
      cases first
      decide
  | atom i o =>
      cases first
      decide
  | pair car cdr =>
      cases first
      decide

/-- The text of a tree is read as its tokens. -/
theorem scans_text {d : Datum} (readable : d.IsReadable) (rest : List Char) :
    (Delimited rest → Scans (d.text .write) rest d.tokens) ∧
      Scans (d.tailText .write) rest d.tailTokens := by
  induction d generalizing rest with
  | nil =>
      refine ⟨fun delimited => ?_, .closing⟩
      have some : "nil".toList ≠ [] := by decide
      exact Scans.atom some (List.all_eq_true.1 (by decide)) delimited
  | atom i o =>
      refine ⟨scans_atom readable (.slot i), ?_⟩
      -- The closing parenthesis delimits the atom behind the point.
      have close : Delimited ([')'] ++ rest) := delimited_tailText .nil rest
      have point : ∀ cs, Scans ['.'] (' ' :: cs) [(.atom, ".")] := by
        intro cs
        refine Scans.atom (by decide) (List.all_eq_true.1 (by decide)) fun c first => ?_
        cases first
        decide
      have chars : (Datum.atom i o).tailText .write =
          [' '] ++ (['.'] ++ ([' '] ++ ((o.text .write (.slot i)).toList ++ [')']))) := by
        rw [tailText, List.append_assoc]
        rfl
      have last : Scans [')'] rest [(.closing, ")")] := .closing
      have object := (scans_atom readable (.slot i) close).append last
      rw [chars]
      exact Scans.blank.append ((point _).append (Scans.blank.append object))
  | pair a d ihCar ihCdr =>
      rcases readable with ⟨readableCar, readableCdr⟩
      have car := (ihCar readableCar _).1 (delimited_tailText d rest)
      have cdr := (ihCdr readableCdr rest).2
      have both := car.append cdr
      refine ⟨fun _ => ?_, ?_⟩
      · exact Scans.opening.append both
      · exact Scans.blank.append both

end Datum

/-! ## Reading -/

namespace Datum

/-- The symbols of a tree are those that the table of a heap lists. -/
def Interned (h : Heap) : Datum → Prop
  | atom i (.symbol name) => h.symbols[name]? = some (.slot i)
  | pair car cdr => car.Interned h ∧ cdr.Interned h
  | _ => True

theorem interned_of_denotes {h : Heap} {v : Value} {d : Datum} (w : h.WellFormed)
    (denotes : h.Denotes v d) : d.Interned h := by
  induction denotes with
  | nil => trivial
  | @atom i o found _ =>
      cases o with
      | symbol name => exact w.interned i name found
      | _ => trivial
  | pair _ _ _ ihCar ihCdr => exact ⟨ihCar, ihCdr⟩

theorem Interned.transfer {h h' : Heap} {d : Datum} (symbols : h'.symbols = h.symbols)
    (interned : d.Interned h) : d.Interned h' := by
  induction d with
  | nil => trivial
  | atom i o =>
      cases o with
      | symbol name =>
          have found : h.symbols[name]? = some (.slot i) := interned
          show h'.symbols[name]? = _
          rw [symbols, found]
      | _ => trivial
  | pair a d ihCar ihCdr => exact ⟨ihCar interned.1, ihCdr interned.2⟩

end Datum

/-- A value that has been read for a tree. -/
def Heap.Reads (h : Heap) (d : Datum) (v : Value) : Prop := ∃ d', h.Denotes v d' ∧ d.Copies d'

theorem Heap.Reads.grows {h h' : Heap} {n : Nat} {d : Datum} {v : Value} (g : h.Grows n h')
    (reads : h.Reads d v) : h'.Reads d v := by
  rcases reads with ⟨d', denotes, copies⟩
  exact ⟨d', g.denotes denotes, copies⟩

namespace Reader

variable {h : Heap} {r : Reader} {stack : List OpenForm} {span : Text.Span}

/-- How reading goes on after a lexeme that ends at `stop`. -/
def goOn (r : Reader) (lexemes : List Lexeme) (stop : Nat) :
    EStateM.Result ReadError Heap Progress → Reading
  | .ok (.unfinished stack) h => r.takeAll stack lexemes h
  | .ok (.finished datum) h => ⟨.ok (some datum), { r with lexemes, offset := stop }, h⟩
  | .error e h => ⟨.error e, { r with lexemes, offset := stop }, h⟩

theorem takeAll_cons (lexeme : Lexeme) (lexemes : List Lexeme) :
    r.takeAll stack (lexeme :: lexemes) h =
      r.goOn lexemes lexeme.span.stop (take stack lexeme h) := by
  rw [takeAll]
  rcases take stack lexeme h with ⟨progress, h'⟩ | ⟨e, h'⟩
  · cases progress with
    | unfinished stack => rfl
    | finished datum => rfl
  · rfl

/-- A new datum is rooted and handed to the innermost open form. -/
theorem deliverNew_ok {op : HeapM Fatal Value} {v : Value} {h' : Heap} (step : op h = .ok v h') :
    deliverNew span stack op h = deliver span v stack (h'.addRoot v) := by
  unfold deliverNew allocating HeapM.mapError
  simp only [bind, EStateM.bind, step]
  rfl

/-- A lexeme for which an atom is allocated is read as a copy of that atom. -/
theorem take_allocate {o : Object} {i : Nat} {lexeme : Lexeme} (w : h.WellFormed)
    (room : h.live < h.capacity) (none : o.references = []) (isAtom : o.kind ≠ .pair)
    (other : ∀ name, o ≠ .symbol name)
    (step : take stack lexeme = deliverNew lexeme.span stack (HeapM.allocate o)) :
    ∃ v h', h.Grows 1 h' ∧ h'.Reads (.atom i o) v ∧
      take stack lexeme h = deliver lexeme.span v stack h' := by
  have held : ∀ v ∈ o.references, h.Holds v := by
    rw [none]
    exact fun v member => nomatch member
  rcases HeapM.allocate_grows w room held other with ⟨j, h', allocated, g, found⟩
  have rooted := Heap.Grows.addRoot g.wellFormed (Heap.holds_of_object? found)
  refine ⟨.slot j, h'.addRoot (.slot j), g.trans rooted, ?_, ?_⟩
  · exact ⟨.atom j o, .atom (rooted.kept _ _ found) isAtom, .atom i j other⟩
  · exact (congrFun step h).trans (deliverNew_ok allocated)

/-- A readable atom is read as a copy, and a symbol as the very symbol it was. -/
theorem take_atom (stack : List OpenForm) {o : Object} {i : Nat} {value : Value}
    {lexeme : Lexeme} (w : h.WellFormed) (readable : o.IsReadable)
    (interned : (Datum.atom i o).Interned h)
    (room : h.live + (Datum.atom i o).cost ≤ h.capacity)
    (same : key lexeme = (Datum.tokenOf o, o.text .write value)) :
    ∃ v h', h.Grows (Datum.atom i o).cost h' ∧ h'.Reads (.atom i o) v ∧
      take stack lexeme h = deliver lexeme.span v stack h' := by
  rcases lexeme with ⟨token, text, span⟩
  cases same
  cases o with
  | int n =>
      have step : take stack ⟨.atom, toString n.toInt, span⟩ =
          deliverNew span stack (HeapM.allocate (.int n)) := by
        simp only [take, Atom.classify_int]
        rfl
      exact take_allocate w room rfl (by simp [Object.kind]) (by simp) step
  | ratio numer denom =>
      have step : take stack
          ⟨.atom, toString numer.toInt ++ "/" ++ toString denom.toInt, span⟩ =
            deliverNew span stack (HeapM.allocate (.ratio numer denom)) := by
        simp only [take, Atom.classify_ratio numer denom readable]
        rfl
      exact take_allocate w room rfl (by simp [Object.kind]) (by simp) step
  | string text =>
      have step : take stack ⟨.string, Text.quoted text, span⟩ =
          deliverNew span stack (HeapM.allocate (.string text)) := by
        simp only [take, Lexeme.unquote_quoted]
        rfl
      exact take_allocate w room rfl (by simp [Object.kind]) (by simp) step
  | symbol name =>
      have found : h.symbols[name]? = some (.slot i) := interned
      have step : take stack ⟨.atom, name, span⟩ =
          deliverNew span stack (HeapM.intern name) := by
        simp only [take, readable.2]
        rfl
      -- The symbol is in the table, so no slot is taken for it.
      have isInterned : HeapM.intern name h = .ok (.slot i) h := by
        unfold HeapM.intern
        rw [get_bind_apply, found]
        rfl
      have object := w.named name (.slot i) found
      have g := Heap.Grows.addRoot w (Heap.holds_of_object? object)
      have isAtom : (Object.symbol name).kind ≠ .pair := by simp [Object.kind]
      refine ⟨.slot i, h.addRoot (.slot i), g, ?_, ?_⟩
      · exact ⟨.atom i (.symbol name), .atom (g.kept _ _ object) isAtom, .symbol i name⟩
      · exact (congrFun step h).trans (deliverNew_ok isInterned)
  | _ => exact absurd readable id

/-- What is put in front of a tail is copied with it. -/
theorem copies_onto {items items' : List Datum} {tail tail' : Datum}
    (copies : List.Forall₂ Datum.Copies items items') (copiesTail : tail.Copies tail') :
    (tail.onto items).Copies (tail'.onto items') := by
  induction copies generalizing tail tail' with
  | nil => exact copiesTail
  | cons first _ ih => exact ih (.pair first copiesTail)

/-- A closing parenthesis builds the list of the elements that have been read. -/
theorem deliverNew_consAll (span : Text.Span) (stack : List OpenForm) {items : List Value}
    {ds : List Datum} {tail : Value} {d : Datum} (w : h.WellFormed)
    (room : h.live + items.length ≤ h.capacity)
    (readItems : List.Forall₂ h.Reads ds items) (readTail : h.Reads d tail) :
    ∃ v h', h.Grows items.length h' ∧ h'.Reads (d.onto ds) v ∧
      deliverNew span stack (HeapM.consAll tail items) h = deliver span v stack h' := by
  -- One copy for each element, all of them in the present heap.
  have chosen : ∃ ds', List.Forall₂ h.Denotes items ds' ∧ List.Forall₂ Datum.Copies ds ds' := by
    clear room
    induction readItems with
    | nil => exact ⟨[], .nil, .nil⟩
    | cons first _ ih =>
        rcases first with ⟨d', denotes, copies⟩
        rcases ih with ⟨ds', allDenote, allCopy⟩
        exact ⟨d' :: ds', .cons denotes allDenote, .cons copies allCopy⟩
  rcases chosen with ⟨ds', allDenote, allCopy⟩
  rcases readTail with ⟨d', denotes, copies⟩
  rcases HeapM.consAll_grows w room denotes allDenote with ⟨v, h', step, g, denotesList⟩
  have rooted := Heap.Grows.addRoot g.wellFormed denotesList.holds
  refine ⟨v, h'.addRoot v, g.trans rooted, ?_, deliverNew_ok step⟩
  exact ⟨d'.onto ds', rooted.denotes denotesList, copies_onto allCopy copies⟩

/--
Taking the lexemes `taken` in state `stack` comes to handing a value that has been read for `d`
to the state `stack'`, at the cost of at most `n` slots.
-/
def Hands (r : Reader) (h : Heap) (n : Nat) (d : Datum) (stack stack' : List OpenForm)
    (taken more : List Lexeme) : Prop :=
  ∃ v h' span, h.Grows n h' ∧ h'.Reads d v ∧
    r.takeAll stack (taken ++ more) h = r.goOn more span.stop (deliver span v stack' h')

/-- The lexemes of a tree are taken, and a value read for it is handed on. -/
def HandsOn (r : Reader) (d : Datum) : Prop :=
  ∀ (more : List Lexeme) (h : Heap) (stack : List OpenForm) (taken : List Lexeme),
    h.WellFormed → d.Interned h → h.live + d.cost ≤ h.capacity → taken.map key = d.tokens →
      r.Hands h d.cost d stack stack taken more

/-- The lexemes behind some elements of a list are taken, and the whole list is handed on. -/
def Completes (r : Reader) (d : Datum) : Prop :=
  ∀ (more : List Lexeme) (h : Heap) (stack : List OpenForm) (opening : Text.Span)
    (items : List Value) (ds : List Datum) (taken : List Lexeme),
    h.WellFormed → d.Interned h → h.live + (items.length + d.cost) ≤ h.capacity → items ≠ [] →
      List.Forall₂ h.Reads ds items → taken.map key = d.tailTokens →
        r.Hands h (items.length + d.cost) (d.onto ds) (.list items .proper opening :: stack) stack
          taken more

theorem handsOn_nil : r.HandsOn .nil := by
  intro more h stack taken w _ _ keys
  rcases List.map_eq_singleton_iff.1 keys with ⟨⟨token, text, span⟩, rfl, same⟩
  cases same
  refine ⟨.nil, h, span, .refl w, ⟨.nil, .nil, .nil⟩, ?_⟩
  have step : take stack ⟨.atom, "nil", span⟩ = deliver span .nil stack := by
    have isNil : Atom.classify "nil" = .ok .nil := rfl
    simp only [take, isNil]
    rfl
  rw [List.singleton_append, takeAll_cons, step]

theorem completes_nil : r.Completes .nil := by
  intro more h stack opening items ds taken w _ room _ readItems keys
  rcases List.map_eq_singleton_iff.1 keys with ⟨⟨token, text, span⟩, rfl, same⟩
  cases same
  have readTail : h.Reads .nil .nil := ⟨.nil, .nil, .nil⟩
  rcases deliverNew_consAll span stack w room readItems readTail with ⟨v, h', g, reads, delivers⟩
  refine ⟨v, h', span, g, reads, ?_⟩
  rw [List.singleton_append, takeAll_cons, ← delivers]
  rfl

theorem handsOn_atom {i : Nat} {o : Object} (readable : o.IsReadable) :
    r.HandsOn (.atom i o) := by
  intro more h stack taken w interned room keys
  rcases List.map_eq_singleton_iff.1 keys with ⟨lexeme, rfl, same⟩
  rcases take_atom stack w readable interned room same with ⟨v, h', g, reads, step⟩
  refine ⟨v, h', lexeme.span, g, reads, ?_⟩
  rw [List.singleton_append, takeAll_cons, step]

/-- A point only changes how the innermost list is to end. -/
theorem take_point {items : List Value} (some : items ≠ []) (opening : Text.Span) :
    take (.list items .proper opening :: stack) ⟨.atom, ".", span⟩ h =
      .ok (.unfinished (.list items .awaited opening :: stack)) h := by
  have isDot : Atom.classify "." = .ok .dot := rfl
  cases items with
  | nil => exact absurd rfl some
  | cons item items =>
      simp only [take, isDot]
      rfl

theorem completes_atom {i : Nat} {o : Object} (readable : o.IsReadable) :
    r.Completes (.atom i o) := by
  intro more h stack opening items ds taken w interned room some readItems keys
  rcases List.map_eq_cons_iff.1 keys with ⟨point, rest, rfl, isPoint, keys⟩
  rcases List.map_eq_cons_iff.1 keys with ⟨lexeme, rest, rfl, same, keys⟩
  rcases List.map_eq_singleton_iff.1 keys with ⟨⟨token, text, span⟩, rfl, isClosing⟩
  rcases point with ⟨pointToken, pointText, pointSpan⟩
  cases isPoint
  cases isClosing
  -- Between the point and the parenthesis one atom is read, which becomes the tail.
  rcases take_atom (.list items .awaited opening :: stack) w readable interned (by omega) same with
    ⟨v, h₁, g₁, reads₁, step⟩
  have room₁ : h₁.live + items.length ≤ h₁.capacity := g₁.room (by omega)
  have readItems₁ := readItems.imp fun _ _ => Heap.Reads.grows g₁
  rcases deliverNew_consAll span stack g₁.wellFormed room₁ readItems₁ reads₁ with
    ⟨list, h', g, reads, delivers⟩
  refine ⟨list, h', span, ?_, reads, ?_⟩
  · rw [Nat.add_comm]
    exact g₁.trans g
  · calc
      r.takeAll (.list items .proper opening :: stack)
          (⟨.atom, ".", pointSpan⟩ :: lexeme :: ⟨.closing, ")", span⟩ :: more) h
          = r.takeAll (.list items .awaited opening :: stack)
              (lexeme :: ⟨.closing, ")", span⟩ :: more) h := by
            rw [takeAll_cons, take_point some]
            rfl
      _ = r.takeAll (.list items (.given v) opening :: stack)
            (⟨.closing, ")", span⟩ :: more) h₁ := by
            rw [takeAll_cons, step]
            rfl
      _ = r.goOn more span.stop (deliver span list stack h') := by
            rw [takeAll_cons, ← delivers]
            rfl

/-- An element is read and joins the list; then comes what follows it. -/
theorem hands_element {a d : Datum} (handsOn : r.HandsOn a) (completes : r.Completes d)
    (more : List Lexeme) (stack : List OpenForm) (opening : Text.Span) {items : List Value}
    {ds : List Datum} {taken : List Lexeme} (w : h.WellFormed) (internedCar : a.Interned h)
    (internedCdr : d.Interned h)
    (room : h.live + (items.length + (a.cost + d.cost + 1)) ≤ h.capacity)
    (readItems : List.Forall₂ h.Reads ds items)
    (keys : taken.map key = a.tokens ++ d.tailTokens) :
    r.Hands h (items.length + (a.cost + d.cost + 1)) ((Datum.pair a d).onto ds)
      (.list items .proper opening :: stack) stack taken more := by
  rcases List.map_eq_append_iff.1 keys with ⟨first, second, rfl, keysCar, keysCdr⟩
  rcases handsOn (second ++ more) h (.list items .proper opening :: stack) first w internedCar
    (by omega) keysCar with ⟨v, h₁, span₁, g₁, reads₁, step₁⟩
  have room₁ : h₁.live + ((v :: items).length + d.cost) ≤ h₁.capacity := by
    refine g₁.room ?_
    simp only [List.length_cons]
    omega
  have readItems₁ : List.Forall₂ h₁.Reads (a :: ds) (v :: items) :=
    .cons reads₁ (readItems.imp fun _ _ => Heap.Reads.grows g₁)
  rcases completes more h₁ stack opening (v :: items) (a :: ds) second g₁.wellFormed
    (internedCdr.transfer g₁.symbols_eq) room₁ (List.cons_ne_nil v items) readItems₁ keysCdr with
    ⟨list, h', span, g, reads, step⟩
  refine ⟨list, h', span, ?_, reads, ?_⟩
  · have total : a.cost + ((v :: items).length + d.cost) =
        items.length + (a.cost + d.cost + 1) := by
      simp only [List.length_cons]
      omega
    rw [← total]
    exact g₁.trans g
  · calc
      r.takeAll (.list items .proper opening :: stack) ((first ++ second) ++ more) h
          = r.takeAll (.list (v :: items) .proper opening :: stack) (second ++ more) h₁ := by
            rw [List.append_assoc, step₁]
            rfl
      _ = r.goOn more span.stop (deliver span list stack h') := step

/-- The lexemes of a readable tree are read as a copy of it. -/
theorem takeAll_tokens {d : Datum} (readable : d.IsReadable) (r : Reader) :
    r.HandsOn d ∧ r.Completes d := by
  -- Induction on the tree, as whole datum and as rest of a list at once.
  induction d with
  | nil => exact ⟨handsOn_nil, completes_nil⟩
  | atom i o => exact ⟨handsOn_atom readable, completes_atom readable⟩
  | pair a d ihCar ihCdr =>
      have handsOn := (ihCar readable.1).1
      have completes := (ihCdr readable.2).2
      constructor
      · intro more h stack taken w interned room keys
        rcases List.map_eq_cons_iff.1 keys with ⟨⟨token, text, span⟩, rest, rfl, same, keysRest⟩
        cases same
        -- The parenthesis opens a list without elements.
        have inside := hands_element handsOn completes more stack span w interned.1 interned.2
          (by simpa [Datum.cost] using room) .nil keysRest
        rw [List.length_nil, Nat.zero_add] at inside
        exact inside
      · intro more h stack opening items ds taken w interned room _ readItems keys
        exact hands_element handsOn completes more stack opening w interned.1 interned.2 room
          readItems keys

end Reader

/-! ## Copies -/

namespace Heap

/-- The part of a value at the end of a path of cars (`false`) and cdrs (`true`). -/
def part? (h : Heap) : List Bool → Value → Option Value
  | [], v => some v
  | step :: path, v =>
    match h.pair? v with
    | some (car, cdr) => h.part? path (if step then cdr else car)
    | none => none

section Copying

variable {h h' : Heap} {v v' : Value} {d d' : Datum}

theorem isSymbol_slot {i : Nat} {o : Object} (found : h.object? (.slot i) = some o) :
    h.isSymbol (.slot i) = (o.kind == .symbol) := by
  simp [isSymbol, kind, found]

/-- A symbol is read as the very symbol it was. -/
theorem eq_of_copies (denotes : h.Denotes v d) (denotes' : h'.Denotes v' d')
    (copies : d.Copies d') (isSymbol : h.isSymbol v = true) : v' = v := by
  cases copies with
  | nil =>
      cases denotes
      cases isSymbol
  | symbol i name =>
      cases denotes
      cases denotes'
      rfl
  | @atom o i j other =>
      cases denotes with
      | atom found _ =>
          rw [isSymbol_slot found] at isSymbol
          cases o with
          | symbol name => exact absurd rfl (other name)
          | _ => cases isSymbol
  | pair _ _ =>
      cases denotes with
      | pair found _ _ =>
          rw [isSymbol_slot found] at isSymbol
          cases isSymbol

theorem part?_of_copies (denotes : h.Denotes v d) (denotes' : h'.Denotes v' d')
    (copies : d.Copies d') {path : List Bool} {symbol : Value}
    (found : h.part? path v = some symbol) (isSymbol : h.isSymbol symbol = true) :
    h'.part? path v' = some symbol := by
  -- Induction on the path, along which both values have pairs at the same places.
  induction path generalizing v v' d d' with
  | nil =>
      cases found
      exact congrArg some (eq_of_copies denotes denotes' copies isSymbol)
  | cons step path ih =>
      unfold part? at found ⊢
      cases denotes with
      | nil => cases found
      | atom object isAtom =>
          rw [pair?_of_atom object isAtom] at found
          cases found
      | pair object denotesCar denotesCdr =>
          cases copies with
          | pair copiesCar copiesCdr =>
              cases denotes' with
              | pair object' denotesCar' denotesCdr' =>
                  rw [pair?_eq_some_iff.2 object] at found
                  rw [pair?_eq_some_iff.2 object']
                  cases step with
                  | false => exact ih denotesCar denotesCar' copiesCar found
                  | true => exact ih denotesCdr denotesCdr' copiesCdr found

theorem text_of_copies (readable : d.IsReadable) (copies : d.Copies d') :
    d'.text .write = d.text .write ∧ d'.tailText .write = d.tailText .write := by
  induction copies with
  | nil => exact ⟨rfl, rfl⟩
  | symbol i name => exact ⟨rfl, rfl⟩
  | @atom o i j other =>
      have same : o.text .write (.slot j) = o.text .write (.slot i) := by
        cases o with
        | procedure _ _ _ => exact absurd readable id
        | environment _ _ => exact absurd readable id
        | _ => rfl
      constructor
      · rw [Datum.text, same, Datum.text]
      · rw [Datum.tailText, same, Datum.tailText]
  | pair _ _ ihCar ihCdr =>
      have car := ihCar readable.1
      have cdr := ihCdr readable.2
      constructor
      · rw [Datum.text, car.1, cdr.2, Datum.text]
      · rw [Datum.tailText, car.1, cdr.2, Datum.tailText]

theorem sameAtom_self {o : Object} (readable : o.IsReadable) : o.sameAtom o = true := by
  cases o with
  | ratio numer denom =>
      show ratioEqual numer denom numer denom = true
      unfold ratioEqual
      split
      · simp
      · simp
  | int n => exact beq_self_eq_true n
  | string text => exact beq_self_eq_true text
  | symbol name => exact beq_self_eq_true name
  | _ => exact absurd readable id

/-- A copy is equal to its original. -/
theorem sameAs_of_copies (readable : d.IsReadable) (copies : d.Copies d') :
    d'.sameAs d = true := by
  induction copies with
  | nil => rfl
  | symbol i name => exact Datum.sameAs_self _
  | atom i j other => simp [Datum.sameAs, sameAtom_self readable]
  | pair _ _ ihCar ihCdr => simp [Datum.sameAs, ihCar readable.1, ihCdr readable.2]

theorem equal_of_copies (readable : d.IsReadable) (copies : d.Copies d')
    (denotes : h.Denotes v d) (denotes' : h.Denotes v' d') : h.equal v' v = true :=
  (equal_eq denotes' denotes).trans (sameAs_of_copies readable copies)

end Copying

end Heap

/-! ## The round trip -/

namespace Reader

/-- The lexemes of a written value are the tokens of its tree. -/
theorem meaningful_text {d : Datum} (readable : d.IsReadable) :
    ∃ lexemes, Lexeme.meaningful (String.ofList (d.text .write)) = lexemes ∧
      lexemes.map key = d.tokens := by
  have delimited : Delimited [] := fun c first => nomatch first
  rcases (Datum.scans_text readable []).1 delimited #[] 0 with ⟨lexemes, offset, keys, step⟩
  refine ⟨lexemes, ?_, keys⟩
  have scanned : Lexeme.scan (String.ofList (d.text .write)) = lexemes := by
    rw [List.append_nil] at step
    unfold Lexeme.scan
    rw [String.toList_ofList, step, Lexeme.scanOnto]
    simp
  unfold Lexeme.meaningful
  rw [scanned]
  -- Only comments would be left out.
  refine List.filter_eq_self.2 fun lexeme member => ?_
  have listed : key lexeme ∈ d.tokens := keys ▸ List.mem_map_of_mem member
  have token := (Datum.no_comment d).1 _ listed
  simpa [key] using token

/--
What is written of a finite structure of pairs over nil, integers, strings, ratios and readable
symbols is read back, in a heap with room for it, as an equal value with the same symbols, which
is written the same way.
-/
theorem readOne_write {h : Heap} (w : h.WellFormed) {v : Value} {d : Datum}
    (denotes : h.Denotes v d) (readable : d.IsReadable) (room : h.live + d.cost ≤ h.capacity) :
    ∃ v' h', readOne (h.write v) h = .ok v' h' ∧
      h'.equal v' v = true ∧
      (∀ path symbol, h.part? path v = some symbol → h.isSymbol symbol = true →
        h'.part? path v' = some symbol) ∧
      h'.write v' = h.write v := by
  rcases meaningful_text readable with ⟨lexemes, lexed, keys⟩
  have written : h.write v = String.ofList (d.text .write) := Heap.print_eq .write denotes
  rcases (takeAll_tokens readable (ofSource (h.write v))).1 [] h [] lexemes w
    (Datum.interned_of_denotes w denotes) room keys with ⟨v', h', span, g, ⟨d', copy, copies⟩, step⟩
  have g' := g.truncateRoots h.roots.length
  have denotes' := g'.denotes denotes
  have copy' : (h'.truncateRoots h.roots.length).Denotes v' d' :=
    Heap.Denotes.transfer (h := h') (fun _ _ found => found) copy
  refine ⟨v', h'.truncateRoots h.roots.length, ?_, ?_, ?_, ?_⟩
  · have reading : (ofSource (h.write v)).read h =
        ⟨.ok (some v'), { ofSource (h.write v) with lexemes := [], offset := span.stop },
          h'.truncateRoots h.roots.length⟩ := by
      have all : (ofSource (h.write v)).takeAll [] (ofSource (h.write v)).lexemes h =
            ⟨.ok (some v'), { ofSource (h.write v) with lexemes := [], offset := span.stop },
              h'⟩ := by
        have source : (ofSource (h.write v)).lexemes = lexemes := by
          rw [← lexed, ← written]
          rfl
        rw [source]
        rw [List.append_nil] at step
        exact step
      unfold read
      rw [all]
    unfold readOne
    rw [reading]
  · exact Heap.equal_of_copies readable copies denotes' copy'
  · intro path symbol found isSymbol
    exact Heap.part?_of_copies denotes copy' copies found isSymbol
  · calc
      (h'.truncateRoots h.roots.length).write v' = String.ofList (d'.text .write) :=
        Heap.print_eq .write copy'
      _ = String.ofList (d.text .write) := by rw [(Heap.text_of_copies readable copies).1]
      _ = h.write v := written.symm

/-- A heap with a string that needs escapes, consed to a symbol in slot 3. -/
def greeting : Heap :=
  (Heap.Operation.cons (.slot 2) (.slot 1)).run
    ((Heap.Operation.string "say \"hi\"\n").run (Heap.empty 8))

theorem readOne_write_greeting :
    ∃ d, greeting.WellFormed ∧ greeting.Denotes (.slot 3) d ∧ d.IsReadable ∧
      greeting.live + d.cost ≤ greeting.capacity ∧
      ∃ v' h', readOne (greeting.write (.slot 3)) greeting = .ok v' h' ∧
        h'.equal v' (.slot 3) = true ∧
        (∀ path symbol, greeting.part? path (.slot 3) = some symbol →
          greeting.isSymbol symbol = true → h'.part? path v' = some symbol) ∧
        h'.write v' = greeting.write (.slot 3) := by
  have w : greeting.WellFormed := by
    have text := Heap.Operation.run_spec (.string "say \"hi\"\n") (Heap.wellFormed_empty 8)
      fun v member => nomatch member
    refine (Heap.Operation.run_spec (.cons (.slot 2) (.slot 1)) text.1 fun v member => ?_).1
    rcases List.mem_pair.1 member with rfl | rfl
    · exact Heap.holds_slot_iff.2 (by decide)
    · exact Heap.holds_slot_iff.2 (by decide)
  have denotes : greeting.Denotes (.slot 3)
      (.pair (.atom 2 (.string "say \"hi\"\n")) (.atom 1 (.symbol "t"))) :=
    .pair rfl (.atom rfl nofun) (.atom rfl nofun)
  have readable : (Datum.pair (.atom 2 (.string "say \"hi\"\n"))
      (.atom 1 (.symbol "t"))).IsReadable := by
    refine ⟨trivial, Lexeme.scan_eq_atom_iff.2 ⟨by decide, List.all_eq_true.1 (by decide)⟩, rfl⟩
  have room : greeting.live + (Datum.pair (.atom 2 (.string "say \"hi\"\n"))
      (.atom 1 (.symbol "t"))).cost ≤ greeting.capacity := by decide
  exact ⟨_, w, denotes, readable, room, readOne_write w denotes readable room⟩

end Reader

end Lisplet
