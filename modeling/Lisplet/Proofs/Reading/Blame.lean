import Lisplet.Proofs.Reading.Advancing
import Lisplet.Proofs.Reading.Grammar

/-!
# Blame — the lexeme that an error points at

An error of the reader points at one of the lexemes that the call has taken. This is the last of
them, unless a form has been left open; then it is the lexeme that the innermost open form begins
with. Which form that is can be told by the grammar alone: it is the last lexeme that begins a
form and with which no phrase begins.
-/

namespace Lisplet

/-- A lexeme begins a form with parts of its own. -/
def Lexeme.Begins (l : Lexeme) : Prop := l.token = .opening ∨ l.token = .quote

/-! ## Where every form is complete -/

/-- With every lexeme that begins a form, a phrase begins. -/
def Complete (ls : List Lexeme) : Prop :=
  ∀ l rest, l :: rest <:+ ls → l.Begins → ∃ p : Phrase, p.lexemes <+: l :: rest

/-- The innermost form that is still open behind some lexemes begins with `l`. -/
def Innermost (ls : List Lexeme) (l : Lexeme) : Prop :=
  ∃ before inside, ls = before ++ l :: inside ∧ (∀ p : Phrase, ¬ p.lexemes <+: l :: inside) ∧
    Complete inside

namespace Complete

variable {l : Lexeme} {ls more : List Lexeme}

theorem nil : Complete [] := by
  intro l rest suffix
  cases List.suffix_nil.1 suffix

theorem cons (first : l.Begins → ∃ p : Phrase, p.lexemes <+: l :: ls) (others : Complete ls) :
    Complete (l :: ls) := by
  intro l' rest suffix begins
  rcases List.suffix_cons_iff.1 suffix with same | later
  · cases same
    exact first begins
  · exact others l' rest later begins

theorem cons_of_not_begins (first : ¬ l.Begins) (others : Complete ls) : Complete (l :: ls) :=
  cons (fun begins => absurd begins first) others

theorem append (complete : Complete ls) (others : Complete more) : Complete (ls ++ more) := by
  induction ls with
  | nil => exact others
  | cons l ls ih =>
      have later : Complete ls := by
        intro l' rest suffix begins
        exact complete l' rest (suffix.trans (List.suffix_cons l ls)) begins
      refine cons (fun begins => ?_) (ih later)
      -- The phrase that begins here ends before the other lexemes come.
      rcases complete l ls (List.suffix_refl _) begins with ⟨p, ends⟩
      exact ⟨p, ends.trans (List.prefix_append (l :: ls) more)⟩

end Complete

theorem Lexeme.Word.not_begins (w : Lexeme.Word) : ¬ w.val.Begins := by
  rintro (isOpening | isQuote)
  · rcases Lexeme.token_of_word w.property with token | token
    · cases isOpening.symm.trans token
    · cases isOpening.symm.trans token
  · rcases Lexeme.token_of_word w.property with token | token
    · cases isQuote.symm.trans token
    · cases isQuote.symm.trans token

theorem Lexeme.Point.not_begins (point : Lexeme.Point) : ¬ point.val.Begins := by
  rintro (isOpening | isQuote)
  · cases isOpening.symm.trans point.property.1
  · cases isQuote.symm.trans point.property.1

theorem Lexeme.not_begins_of_closing (closing : Lexeme.Of .closing) : ¬ closing.val.Begins := by
  rintro (isOpening | isQuote)
  · cases isOpening.symm.trans closing.property
  · cases isQuote.symm.trans closing.property

namespace Phrase

mutual

/-- With every form within a phrase another phrase begins. -/
theorem complete (p : Phrase) : Complete p.lexemes := by
  cases p with
  | word w => exact .cons_of_not_begins w.not_begins .nil
  | quoted mark p =>
      exact .cons (fun _ => ⟨.quoted mark p, List.prefix_refl _⟩) (complete p)
  | list opening items closing =>
      have ends : Complete [closing.val] :=
        .cons_of_not_begins (Lexeme.not_begins_of_closing closing) .nil
      exact .cons (fun _ => ⟨.list opening items closing, List.prefix_refl _⟩)
        ((completeOf items).append ends)
  | dotted opening first rest point tail closing =>
      have ends : Complete [closing.val] :=
        .cons_of_not_begins (Lexeme.not_begins_of_closing closing) .nil
      have tailed := Complete.cons_of_not_begins point.not_begins ((complete tail).append ends)
      exact .cons (fun _ => ⟨.dotted opening first rest point tail closing, List.prefix_refl _⟩)
        ((complete first).append ((completeOf rest).append tailed))

theorem completeOf (ps : List Phrase) : Complete (lexemesOf ps) := by
  cases ps with
  | nil => exact .nil
  | cons p ps => exact (complete p).append (completeOf ps)

end

end Phrase

namespace OpenPhrase

open Parsing

/-- The lexeme that an open phrase begins with. -/
def mark : OpenPhrase → Lexeme
  | list opening _ => opening.val
  | dotted opening _ _ _ _ => opening.val
  | quoted mark => mark.val

/-- The forms within an open phrase are complete. -/
theorem exists_complete (o : OpenPhrase) :
    ∃ inside, o.lexemes = o.mark :: inside ∧ Complete inside := by
  cases o with
  | list opening items => exact ⟨_, rfl, Phrase.completeOf items⟩
  | dotted opening first rest point tail =>
      have items := (Phrase.complete first).append (Phrase.completeOf rest)
      cases tail with
      | none =>
          have pointed := Complete.cons_of_not_begins point.not_begins .nil
          refine ⟨_, rfl, ?_⟩
          rw [← List.append_assoc]
          exact items.append pointed
      | some tail =>
          have pointed := Complete.cons_of_not_begins point.not_begins (Phrase.complete tail)
          refine ⟨_, rfl, ?_⟩
          rw [← List.append_assoc]
          exact items.append pointed
  | quoted mark => exact ⟨[], rfl, .nil⟩

/-- Behind the lexemes of an open phrase recognising goes on inside it. -/
theorem parse_lexemes (o : OpenPhrase) (stack : List OpenPhrase) (more : List Lexeme) :
    parse stack (o.lexemes ++ more) = parse (o :: stack) more := by
  cases o with
  | list opening items =>
      rw [lexemes, List.cons_append, parse_cons, shift_opening, resume, parse_items]
      rfl
  | dotted opening first rest point tail =>
      have toPoint (after : List Lexeme) : parse stack
          (opening.val :: (first.lexemes ++ (Phrase.lexemesOf rest ++ point.val :: after))) =
            parse (.dotted opening first rest point none :: stack) after := by
        rw [parse_cons, shift_opening, resume, parse_phrase first, hand, resume, parse_items rest,
          parse_cons, shift_point]
        rfl
      cases tail with
      | none =>
          have spelled : (dotted opening first rest point none).lexemes ++ more =
              opening.val :: (first.lexemes ++ (Phrase.lexemesOf rest ++ point.val :: more)) := by
            simp [lexemes]
          rw [spelled, toPoint]
      | some tail =>
          have spelled : (dotted opening first rest point (some tail)).lexemes ++ more =
              opening.val :: (first.lexemes ++
                (Phrase.lexemesOf rest ++ point.val :: (tail.lexemes ++ more))) := by
            simp [lexemes]
          rw [spelled, toPoint, parse_phrase tail]
          rfl
  | quoted mark =>
      rw [lexemes, List.singleton_append, parse_cons, shift_quote]
      rfl

/-- No phrase begins where one is still open. -/
theorem not_isPrefix (o : OpenPhrase) (p : Phrase) : ¬ p.lexemes <+: o.lexemes := by
  rintro ⟨rest, spelled⟩
  have found : parse [] o.lexemes = .phrase p rest := parse_eq_phrase_iff.2 spelled.symm
  have opened := o.parse_lexemes [] []
  rw [List.append_nil, found] at opened
  cases opened

/-- The innermost open phrase of a stack begins with the innermost form that is still open. -/
theorem innermost_taken (o : OpenPhrase) (stack : List OpenPhrase) :
    Innermost (taken (o :: stack)) o.mark := by
  rcases o.exists_complete with ⟨inside, spelled, complete⟩
  refine ⟨taken stack, inside, ?_, fun p begins => ?_, complete⟩
  · rw [taken, spelled]
  · exact o.not_isPrefix p (spelled ▸ begins)

end OpenPhrase

/-- A form that has been left open is at fault. -/
def ReadFault.leavesOpen : ReadFault → Bool
  | .unterminatedList | .danglingQuote => true
  | _ => false

namespace Reader

open Parsing HeapM

/-! ## Spans of open forms -/

/-- An open form carries the span of the lexeme that its phrase begins with. -/
inductive Marks : OpenForm → OpenPhrase → Prop where
  | proper {items : List Value} {ps : List Phrase} (opening : Lexeme.Of .opening) :
      items.length = ps.length →
        Marks (.list items .proper opening.val.span) (.list opening ps)
  | awaited (items : List Value) (opening : Lexeme.Of .opening) (first : Phrase)
      (rest : List Phrase) (point : Lexeme.Point) :
      Marks (.list items .awaited opening.val.span) (.dotted opening first rest point none)
  | given (items : List Value) (v : Value) (opening : Lexeme.Of .opening) (first : Phrase)
      (rest : List Phrase) (point : Lexeme.Point) (tail : Phrase) :
      Marks (.list items (.given v) opening.val.span)
        (.dotted opening first rest point (some tail))
  | quoted (mark : Lexeme.Of .quote) : Marks (.quote mark.val.span) (.quoted mark)

/--
A step of reading goes as the same step of recognising, and if it fails, then reading has been cut
off or the error is one of those that are expected.
-/
def Goes (s : Option Parsing) (expected : ReadError → Prop) (op : HeapM ReadError Progress)
    (h : Heap) : Prop :=
  match op h with
  | .ok (.unfinished stack) _ =>
    ∃ phrases, s = some (.unfinished phrases) ∧ List.Forall₂ Marks stack phrases
  | .ok (.finished _) _ => True
  | .error e _ => e.fatal?.isSome ∨ expected e

section Going

variable {h : Heap} {s : Option Parsing} {expected : ReadError → Prop} {stack : List OpenForm}
  {phrases : List OpenPhrase} {p : Phrase}

theorem goes_throw {e : ReadError} (isExpected : expected e) : Goes s expected (throw e) h :=
  .inr isExpected

theorem goes_pure {stack' : List OpenForm} {phrases' : List OpenPhrase}
    (same : s = some (.unfinished phrases')) (marks : List.Forall₂ Marks stack' phrases') :
    Goes s expected (pure (.unfinished stack')) h :=
  ⟨phrases', same, marks⟩

theorem goes_allocating {α : Type} {op : HeapM Fatal α} {next : α → HeapM ReadError Progress}
    (continues : ∀ a h', Goes s expected (next a) h') :
    Goes s expected (allocating op >>= next) h := by
  unfold Goes allocating mapError
  simp only [bind, EStateM.bind]
  rcases step : op h with ⟨a, h₁⟩ | ⟨cause, h₁⟩
  · exact continues a h₁
  · exact .inl rfl

theorem goes_root {v : Value} {next : Unit → HeapM ReadError Progress}
    (continues : ∀ h', Goes s expected (next ()) h') : Goes s expected (root v >>= next) h :=
  continues _

/-- A datum has no place behind a tail, and then the lexeme it ends with is blamed. -/
theorem goes_deliver {span : Text.Span} (datum : Value) (marks : List.Forall₂ Marks stack phrases)
    (blamed : expected ⟨.badDot, span⟩) :
    Goes (hand p phrases) expected (deliver span datum stack) h := by
  -- Induction on the open forms: a quoted datum is handed on to the next one.
  induction stack generalizing h datum p phrases with
  | nil => trivial
  | cons form stack ih =>
      rcases marks with _ | ⟨form, marks⟩
      cases form with
      | proper opening length =>
          exact goes_pure rfl (.cons (.proper opening (by simp [length])) marks)
      | awaited items opening first rest point =>
          exact goes_pure rfl (.cons (.given items datum opening first rest point p) marks)
      | given => exact goes_throw blamed
      | quoted mark =>
          refine goes_allocating fun symbol _ => goes_allocating fun quoted _ => ?_
          exact goes_root fun _ => ih (p := .quoted mark p) quoted marks

theorem goes_deliverNew {span : Text.Span} (op : HeapM Fatal Value)
    (marks : List.Forall₂ Marks stack phrases) (blamed : expected ⟨.badDot, span⟩) :
    Goes (hand p phrases) expected (deliverNew span stack op) h :=
  goes_allocating fun v _ => goes_root fun _ => goes_deliver v marks blamed

theorem goes_dot {span : Text.Span} (point : Lexeme.Point)
    (marks : List.Forall₂ Marks stack phrases) (blamed : expected ⟨.badDot, span⟩) :
    Goes (Parsing.point point phrases) expected (dot span stack) h := by
  unfold dot
  split
  · next item items opening stack =>
    rcases marks with _ | ⟨form, marks⟩
    cases form with
    | @proper _ ps opening length =>
        -- There is an item in the phrase, since there is one in the form.
        cases ps with
        | nil => cases length
        | cons first rest =>
            exact goes_pure rfl (.cons (.awaited (item :: items) opening first rest point) marks)
  · exact goes_throw blamed

/--
What an error at a lexeme blames: the lexeme itself, or the quote mark that stands before a
closing parenthesis.
-/
inductive Blames (phrases : List OpenPhrase) (l : Lexeme) : ReadError → Prop where
  | here {fault : ReadFault} : fault.leavesOpen = false → Blames phrases l ⟨fault, l.span⟩
  | mark {below : List OpenPhrase} {mark : Lexeme.Of .quote} : l.token = .closing →
      phrases = .quoted mark :: below → Blames phrases l ⟨.danglingQuote, mark.val.span⟩

theorem goes_close {l : Lexeme} (token : l.token = .closing)
    (marks : List.Forall₂ Marks stack phrases) :
    Goes (Parsing.close ⟨l, token⟩ phrases) (Blames phrases l) (close l.span stack) h := by
  have blamed : Blames phrases l ⟨.badDot, l.span⟩ := .here rfl
  rcases marks with _ | ⟨form, marks⟩
  · exact goes_throw (.here rfl)
  · cases form with
    | proper opening _ => exact goes_deliverNew _ marks blamed
    | awaited => exact goes_throw blamed
    | given items v => exact goes_deliverNew _ marks blamed
    | quoted mark => exact goes_throw (.mark token rfl)

theorem goes_atom {l : Lexeme} (token : l.token = .atom) {a : Atom}
    (classified : Atom.classify l.text = .ok a) (marks : List.Forall₂ Marks stack phrases) :
    Goes (shift phrases l) (Blames phrases l) (atom l.span stack a) h := by
  have blamed : Blames phrases l ⟨.badDot, l.span⟩ := .here rfl
  cases denotes : a.tree? with
  | none =>
      -- An atom that denotes nothing is a point.
      cases Atom.tree?_eq_none_iff.1 denotes
      have points : l.IsPoint := ⟨token, Atom.classify_eq_dot_iff.1 classified⟩
      rw [shift_point phrases ⟨l, points⟩]
      exact goes_dot _ marks blamed
  | some t =>
      have means : l.word? = some t := by
        simp [Lexeme.word?, token, classified, Except.toOption, denotes]
      rcases exists_hand_of_word phrases means with ⟨p, -, shifted⟩
      rw [shifted]
      cases a with
      | int n => exact goes_deliverNew _ marks blamed
      | float x => exact goes_deliverNew _ marks blamed
      | ratio numer denom => exact goes_deliverNew _ marks blamed
      | nil => exact goes_deliver .nil marks blamed
      | symbol name => exact goes_deliverNew _ marks blamed
      | dot => cases denotes

theorem goes_take (l : Lexeme) (meaningful : l.token ≠ .comment)
    (marks : List.Forall₂ Marks stack phrases) :
    Goes (shift phrases l) (Blames phrases l) (take stack l) h := by
  unfold take
  dsimp only
  cases token : l.token with
  | comment => exact absurd token meaningful
  | opening =>
      rw [shift_opening phrases ⟨l, token⟩]
      exact goes_pure rfl (.cons (.proper ⟨l, token⟩ rfl) marks)
  | quote =>
      rw [shift_quote phrases ⟨l, token⟩]
      exact goes_pure rfl (.cons (.quoted ⟨l, token⟩) marks)
  | closing =>
      rw [shift_closing phrases ⟨l, token⟩]
      exact goes_close token marks
  | string =>
      cases content : Text.unquote l.text with
      | ok inside =>
          have means : l.word? = some (.leaf (.string inside)) := by
            simp [Lexeme.word?, token, content, Except.toOption]
          rcases exists_hand_of_word phrases means with ⟨p, -, shifted⟩
          rw [shifted]
          exact goes_deliverNew _ marks (.here rfl)
      | error fault =>
          rcases Text.unquote_error content with ⟨c, rfl⟩
          exact goes_throw (.here rfl)
  | unclosed => exact goes_throw (.here rfl)
  | atom =>
      cases classified : Atom.classify l.text with
      | ok a => exact goes_atom token classified marks
      | error fault =>
          rcases Atom.classify_error classified with ⟨digits, rfl⟩
          exact goes_throw (.here rfl)
  | stray => exact goes_throw (.here rfl)

end Going

/-! ## One expression -/

/--
The lexeme to blame for a fault, behind the lexemes that were taken and in front of those that
are left: the one with which the innermost open form begins, at the end of the text or, if it is a
quote mark, at a closing parenthesis too; and for any other fault the last one that was taken.
-/
inductive Culprit : List Lexeme → List Lexeme → ReadFault → Lexeme → Prop where
  | unterminated {ls : List Lexeme} {l : Lexeme} : l.token = .opening → Innermost ls l →
      Culprit ls [] .unterminatedList l
  | dangling {ls : List Lexeme} {l : Lexeme} : l.token = .quote → Innermost ls l →
      Culprit ls [] .danglingQuote l
  | closed {ls left : List Lexeme} {l closing : Lexeme} : l.token = .quote →
      closing.token = .closing → Innermost ls l →
        Culprit (ls ++ [closing]) left .danglingQuote l
  | last {ls left : List Lexeme} {l : Lexeme} {fault : ReadFault} : fault.leavesOpen = false →
      Culprit (ls ++ [l]) left fault l

theorem Culprit.mem {ls left : List Lexeme} {fault : ReadFault} {l : Lexeme}
    (culprit : Culprit ls left fault l) : l ∈ ls := by
  have inside {ls : List Lexeme} (innermost : Innermost ls l) : l ∈ ls := by
    rcases innermost with ⟨before, inside, rfl, -, -⟩
    simp
  cases culprit with
  | unterminated _ innermost | dangling _ innermost => exact inside innermost
  | closed _ _ innermost => exact List.mem_append_left _ (inside innermost)
  | last => simp

variable {r : Reader} {h : Heap} {e : ReadError}

/-- At the end of the text the innermost open form is to blame. -/
theorem culprit_of_ending {stack : List OpenForm} {phrases : List OpenPhrase}
    (marks : List.Forall₂ Marks stack phrases) (failed : ending stack = .error e) :
    ∃ l, e.span = l.span ∧ Culprit (OpenPhrase.taken phrases) [] e.fault l := by
  rcases marks with _ | ⟨form, marks⟩
  · cases failed
  · cases form with
    | proper opening _ | awaited _ opening _ _ _ | given _ _ opening _ _ _ _ =>
        cases failed
        exact ⟨opening.val, rfl, .unterminated opening.property (OpenPhrase.innermost_taken _ _)⟩
    | quoted mark =>
        cases failed
        exact ⟨mark.val, rfl, .dangling mark.property (OpenPhrase.innermost_taken _ _)⟩

theorem culprit_of_blames {phrases : List OpenPhrase} {l : Lexeme} (blames : Blames phrases l e)
    (left : List Lexeme) :
    ∃ l', e.span = l'.span ∧ Culprit (OpenPhrase.taken phrases ++ [l]) left e.fault l' := by
  cases blames with
  | here closed => exact ⟨l, rfl, .last closed⟩
  | @mark below mark token same =>
      subst same
      exact ⟨mark.val, rfl, .closed mark.property token (OpenPhrase.innermost_taken _ _)⟩

theorem takeAll_culprit (r : Reader) {h : Heap} {stack : List OpenForm}
    {phrases : List OpenPhrase} {ls : List Lexeme} (meaningful : ∀ l ∈ ls, l.token ≠ .comment)
    (marks : List.Forall₂ Marks stack phrases)
    (failed : (r.takeAll stack ls h).outcome = .error e) (notFatal : e.fatal? = none) :
    ∃ consumed l, ls = consumed ++ (r.takeAll stack ls h).reader.lexemes ∧ e.span = l.span ∧
      Culprit (OpenPhrase.taken phrases ++ consumed) (r.takeAll stack ls h).reader.lexemes
        e.fault l := by
  -- Induction on the lexemes; those taken so far are the lexemes of the open phrases.
  induction ls generalizing h stack phrases with
  | nil =>
      rcases culprit_of_ending marks failed with ⟨l, span, culprit⟩
      exact ⟨[], l, rfl, span, (List.append_nil _).symm ▸ culprit⟩
  | cons l ls ih =>
      rcases List.forall_mem_cons.1 meaningful with ⟨first, others⟩
      have goes := goes_take (h := h) l first marks
      unfold Goes at goes
      rw [takeAll_cons] at failed ⊢
      rcases step : take stack l h with ⟨stack' | v, h'⟩ | ⟨e', h'⟩
      · rw [step] at goes failed
        rcases goes with ⟨phrases', shifted, marks'⟩
        have grown : OpenPhrase.taken phrases' = OpenPhrase.taken phrases ++ [l] :=
          lexemes_of_shift shifted
        rcases ih others marks' failed with ⟨consumed, l', rest, span, culprit⟩
        refine ⟨l :: consumed, l', congrArg (l :: ·) rest, span, ?_⟩
        rwa [grown, List.append_assoc] at culprit
      · rw [step] at failed
        cases failed
      · rw [step] at goes failed
        cases failed
        rcases goes with fatal | blames
        · rw [notFatal] at fatal
          cases fatal
        · rcases culprit_of_blames blames ls with ⟨l', span, culprit⟩
          exact ⟨[l], l', rfl, span, culprit⟩

/--
An error points at the culprit. If reading fails on a heap with enough room, whatever has been read
of the text before, then the span of the error is that of one of the lexemes that this call has
taken, which is a slice of the text. It is the lexeme that the innermost open form begins with if a
list or a quote has been left open, and the last one that was taken if anything else is wrong.
-/
theorem error_points_at_culprit {source : String} (arises : Arises source r) (room : r.HasRoom h)
    (failed : (r.read h).outcome = .error e) :
    ∃ consumed l, r.lexemes = consumed ++ (r.read h).reader.lexemes ∧ l ∈ consumed ∧
      e.span = l.span ∧ l.IsSlice source ∧ e.span.start < e.span.stop ∧
      e.span.stop ≤ source.utf8ByteSize ∧
      Culprit consumed (r.read h).reader.lexemes e.fault l := by
  have faces := Faces.of_arises arises
  have meaningful : ∀ l ∈ r.lexemes, l.token ≠ .comment := by
    intro l member
    simpa using (List.mem_filter.1 (faces.lexemes_suffix.mem member)).2
  rcases takeAll_culprit r meaningful .nil failed (room e failed) with
    ⟨consumed, l, lexemes, span, culprit⟩
  have slice : l.IsSlice source := by
    refine faces.isSlice ?_
    rw [lexemes]
    exact List.mem_append_left _ culprit.mem
  have inside := slice.start_lt_stop
  rw [← span] at inside
  exact ⟨consumed, l, lexemes, culprit.mem, span, slice, inside.1, inside.2, culprit⟩

/-- A text with a parenthesis out of place and a quote mark out of place behind it. -/
def misquoted : String := ";λ\n) (1 ')"

/-- A reader of this text that goes on behind the first error. -/
def behindError : Reader := ((ofSource misquoted).read (.empty 8)).reader

/-- The quote mark is blamed, which is left open at the last parenthesis, and not the list. -/
theorem error_points_at_culprit_misquoted :
    Arises misquoted behindError ∧ behindError.HasRoom (.empty 16) ∧
      (behindError.read (.empty 16)).outcome = .error ⟨.danglingQuote, ⟨9, 10⟩⟩ ∧
      ∃ consumed l,
        behindError.lexemes = consumed ++ (behindError.read (.empty 16)).reader.lexemes ∧
        l ∈ consumed ∧ l.span = ⟨9, 10⟩ ∧ l.IsSlice misquoted ∧
        Culprit consumed (behindError.read (.empty 16)).reader.lexemes .danglingQuote l := by
  have arises : Arises misquoted behindError := .read _ .start
  have room : behindError.HasRoom (.empty 16) := hasRoom_of_le (by decide +kernel)
  have failed : (behindError.read (.empty 16)).outcome = .error ⟨.danglingQuote, ⟨9, 10⟩⟩ := by
    decide +kernel
  obtain ⟨consumed, l, lexemes, member, span, slice, -, -, culprit⟩ :=
    error_points_at_culprit arises room failed
  exact ⟨arises, room, failed, consumed, l, lexemes, member, span.symm, slice, culprit⟩

end Reader

end Lisplet
