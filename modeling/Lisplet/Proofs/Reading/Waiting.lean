import Lisplet.Command.Repl
import Lisplet.Proofs.Reading.Grammar
import Lisplet.Proofs.Reading.Progress

/-!
# Waiting — when more of a text is awaited

The loop judges by the error that reading ends with whether a text is complete. On a heap with room
for reading the text to its end this is a matter of its lexemes alone: more is awaited as
`Parsing.awaits` says, whatever is on the heap.
-/

namespace Lisplet

namespace Reader

open Parsing HeapM

/-! ## What is reported -/

/-- Unless it is cut off, an operation that fails reports whether it wants more. -/
def Reports (op : HeapM ReadError Progress) (h : Heap) (wants : Bool) : Prop :=
  ∀ e h', op h = .error e h' → e.fatal? = none → e.fault.wantsMore = wants

section Reporting

variable {h : Heap} {wants : Bool} {stack : List OpenForm} {phrases : List OpenPhrase}

theorem reports_pure (progress : Progress) : Reports (pure progress) h wants := nofun

theorem reports_throw {e : ReadError} (same : e.fault.wantsMore = wants) :
    Reports (throw e) h wants := by
  rintro _ _ ⟨⟩ _
  exact same

theorem reports_allocating {α : Type} {op : HeapM Fatal α} {next : α → HeapM ReadError Progress}
    (continues : ∀ a h', Reports (next a) h' wants) :
    Reports (allocating op >>= next) h wants := by
  intro e h' failed notFatal
  unfold allocating mapError at failed
  simp only [bind, EStateM.bind] at failed
  rcases step : op h with ⟨a, h₁⟩ | ⟨cause, h₁⟩
  · rw [step] at failed
    exact continues a h₁ e h' failed notFatal
  · rw [step] at failed
    cases failed
    cases notFatal

theorem reports_root {v : Value} {next : Unit → HeapM ReadError Progress}
    (continues : ∀ h', Reports (next ()) h' wants) : Reports (root v >>= next) h wants :=
  continues _

/-- A datum can only stand where none may, which no further text makes good. -/
theorem reports_deliver (span : Text.Span) (datum : Value) :
    Reports (deliver span datum stack) h false := by
  induction stack generalizing h datum with
  | nil => exact reports_pure _
  | cons form stack ih =>
      cases form with
      | list items ending opening =>
          cases ending with
          | proper => exact reports_pure _
          | awaited => exact reports_pure _
          | given tail => exact reports_throw rfl
      | quote mark =>
          refine reports_allocating fun symbol _ => reports_allocating fun quoted _ => ?_
          exact reports_root fun _ => ih quoted

theorem reports_deliverNew (span : Text.Span) (op : HeapM Fatal Value) :
    Reports (deliverNew span stack op) h false :=
  reports_allocating fun v _ => reports_root fun _ => reports_deliver span v

theorem reports_dot (span : Text.Span) : Reports (dot span stack) h false := by
  unfold dot
  split
  · exact reports_pure _
  · exact reports_throw rfl

theorem reports_atom (span : Text.Span) (a : Atom) : Reports (atom span stack a) h false := by
  cases a with
  | int _ => exact reports_deliverNew span _
  | float _ => exact reports_deliverNew span _
  | ratio _ _ => exact reports_deliverNew span _
  | nil => exact reports_deliver span .nil
  | symbol _ => exact reports_deliverNew span _
  | dot => exact reports_dot span

/-- A parenthesis is reported as the end of the text would be if only a quote mark is open. -/
theorem reports_close {l : Lexeme} (token : l.token = .closing)
    (forms : List.Forall₂ (Forms h) stack phrases) :
    Reports (close l.span stack) h (asks phrases l) := by
  unfold asks
  rw [token]
  rcases forms with _ | ⟨form, _⟩
  · exact reports_throw rfl
  · cases form with
    | proper => exact reports_deliverNew _ _
    | awaited => exact reports_throw rfl
    | given => exact reports_deliverNew _ _
    | quoted => exact reports_throw rfl

theorem reports_take (l : Lexeme) (forms : List.Forall₂ (Forms h) stack phrases) :
    Reports (take stack l) h (asks phrases l) := by
  unfold take
  dsimp only
  cases token : l.token with
  | comment => exact reports_pure _
  | opening => exact reports_pure _
  | quote => exact reports_pure _
  | closing => exact reports_close token forms
  | string =>
      rw [asks_eq_false (by simp [token]) (by simp [token])]
      cases content : Text.unquote l.text with
      | ok text => exact reports_deliverNew _ _
      | error fault =>
          rcases Text.unquote_error content with ⟨c, rfl⟩
          exact reports_throw rfl
  | unclosed =>
      rw [asks_unclosed token]
      exact reports_throw rfl
  | atom =>
      rw [asks_eq_false (by simp [token]) (by simp [token])]
      cases classified : Atom.classify l.text with
      | ok a => exact reports_atom _ a
      | error fault =>
          rcases Atom.classify_error classified with ⟨digits, rfl⟩
          exact reports_throw rfl
  | stray =>
      rw [asks_eq_false (by simp [token]) (by simp [token])]
      exact reports_throw rfl

end Reporting

/-! ## One expression -/

section Expressions

variable {r : Reader} {h : Heap}

theorem takeAll_evolves (r : Reader) {h : Heap} {stack : List OpenForm}
    {phrases : List OpenPhrase} {ls : List Lexeme} (meaningful : ∀ l ∈ ls, l.token ≠ .comment)
    (w : h.WellFormed) (forms : List.Forall₂ (Forms h) stack phrases) :
    h.Evolves (r.takeAll stack ls h).heap := by
  induction ls generalizing h stack phrases with
  | nil => exact .refl w
  | cons l ls ih =>
      rcases List.forall_mem_cons.1 meaningful with ⟨first, others⟩
      have step := follows_take l first w forms
      rw [takeAll_cons]
      generalize shift phrases l = s at step
      generalize take stack l h = result at step ⊢
      cases step with
      | stops evolved => exact evolved
      | cutOff evolved _ => exact evolved
      | goes evolved stands =>
          cases stands with
          | finished _ => exact evolved
          | unfinished forms₁ => exact evolved.trans (ih others evolved.wellFormed forms₁)

theorem evolves_read (meaningful : ∀ l ∈ r.lexemes, l.token ≠ .comment) (w : h.WellFormed) :
    h.Evolves (r.read h).heap := (takeAll_evolves r meaningful w .nil).truncateRoots

/-- An error that is no cut-off is reported as the lexemes are. -/
theorem takeAll_reports (r : Reader) {h : Heap} {stack : List OpenForm}
    {phrases : List OpenPhrase} {ls : List Lexeme} (meaningful : ∀ l ∈ ls, l.token ≠ .comment)
    (w : h.WellFormed) (forms : List.Forall₂ (Forms h) stack phrases) {e : ReadError}
    (failed : (r.takeAll stack ls h).outcome = .error e) (notFatal : e.fatal? = none) :
    e.fault.wantsMore = awaits phrases ls := by
  -- Induction on the lexemes, beside recognising them.
  induction ls generalizing h stack phrases with
  | nil =>
      rcases forms with _ | ⟨form, _⟩
      · cases failed
      · cases form with
        | _ =>
            cases failed
            rfl
  | cons l ls ih =>
      rcases List.forall_mem_cons.1 meaningful with ⟨first, others⟩
      have step := follows_take l first w forms
      have reports := reports_take (h := h) l forms
      rw [takeAll_cons] at failed
      rw [awaits, Parsing.step]
      generalize shift phrases l = s at step ⊢
      generalize result : take stack l h = taken at step failed
      cases step with
      | stops =>
          cases failed
          exact reports _ _ result notFatal
      | cutOff _ fatal =>
          cases failed
          rw [notFatal] at fatal
          cases fatal
      | goes evolved stands =>
          cases stands with
          | finished _ => cases failed
          | unfinished forms₁ => exact ih others evolved.wellFormed forms₁ failed

theorem read_reports (meaningful : ∀ l ∈ r.lexemes, l.token ≠ .comment) (w : h.WellFormed)
    {e : ReadError} (failed : (r.read h).outcome = .error e) (notFatal : e.fatal? = none) :
    e.fault.wantsMore = awaits [] r.lexemes :=
  takeAll_reports r meaningful w .nil failed notFatal

/-- What has been read is shown by a phrase, and what is left is left over by the phrase. -/
theorem exists_phrase_of_read (meaningful : ∀ l ∈ r.lexemes, l.token ≠ .comment)
    (w : h.WellFormed) {r' : Reader} {h' : Heap} {v : Value}
    (found : r.read h = ⟨.ok (some v), r', h'⟩) :
    ∃ p : Phrase, r.lexemes = p.lexemes ++ r'.lexemes ∧ h'.Depicts v p.tree := by
  have gives := read_gives meaningful w
  rw [found] at gives
  generalize parsed : parse [] r.lexemes = result at gives
  cases gives with
  | phrase rest depicts => exact ⟨_, rest ▸ parse_eq_phrase_iff.1 parsed, depicts⟩

/-- No comments come up among the lexemes that are left. -/
theorem meaningful_of_read (meaningful : ∀ l ∈ r.lexemes, l.token ≠ .comment)
    (w : h.WellFormed) {r' : Reader} {h' : Heap} {v : Value}
    (found : r.read h = ⟨.ok (some v), r', h'⟩) : ∀ l ∈ r'.lexemes, l.token ≠ .comment := by
  rcases exists_phrase_of_read meaningful w found with ⟨p, spelled, _⟩
  exact fun l member => meaningful l (spelled ▸ List.mem_append_right _ member)

theorem lexemes_eq_nil_of_read (meaningful : ∀ l ∈ r.lexemes, l.token ≠ .comment)
    (w : h.WellFormed) {r' : Reader} {h' : Heap} (found : r.read h = ⟨.ok none, r', h'⟩) :
    r.lexemes = [] := by
  have gives := read_gives meaningful w
  rw [found] at gives
  generalize parsed : parse [] r.lexemes = result at gives
  cases gives with
  | nothing => exact parse_eq_nothing_iff.1 parsed

/-- Where a phrase stands it is read, unless reading is cut off. -/
theorem read_of_phrase (meaningful : ∀ l ∈ r.lexemes, l.token ≠ .comment) (w : h.WellFormed)
    {p : Phrase} {rest : List Lexeme} (spelled : r.lexemes = p.lexemes ++ rest) :
    (∃ v r' h', r.read h = ⟨.ok (some v), r', h'⟩ ∧ r'.lexemes = rest ∧ h'.Depicts v p.tree) ∨
      ∃ e r' h', r.read h = ⟨.error e, r', h'⟩ ∧ e.fatal?.isSome := by
  have gives := read_gives meaningful w
  rw [parse_eq_phrase_iff.2 spelled] at gives
  generalize r.read h = reading at gives
  cases gives with
  | phrase left depicts => exact .inl ⟨_, _, _, rfl, left, depicts⟩
  | cutOff fatal => exact .inr ⟨_, _, _, rfl, fatal⟩

theorem read_of_nil (meaningful : ∀ l ∈ r.lexemes, l.token ≠ .comment) (w : h.WellFormed)
    (empty : r.lexemes = []) :
    (∃ r' h', r.read h = ⟨.ok none, r', h'⟩) ∨
      ∃ e r' h', r.read h = ⟨.error e, r', h'⟩ ∧ e.fatal?.isSome := by
  have gives := read_gives meaningful w
  rw [parse_eq_nothing_iff.2 empty] at gives
  generalize r.read h = reading at gives
  cases gives with
  | nothing => exact .inl ⟨_, _, rfl⟩
  | cutOff fatal => exact .inr ⟨_, _, _, rfl, fatal⟩

end Expressions

/-! ## All expressions -/

/-- The heap has enough room for reading to the end of the text, or to an error in it. -/
inductive HasRoomToEnd : Reader → Heap → Prop where
  | last {r : Reader} {h : Heap} : (∀ v, (r.read h).outcome ≠ .ok (some v)) → r.HasRoom h →
      HasRoomToEnd r h
  | next {r r' : Reader} {h h' : Heap} {v : Value} : r.read h = ⟨.ok (some v), r', h'⟩ →
      HasRoomToEnd r' h' → HasRoomToEnd r h

theorem meaningful_ofSource (source : String) :
    ∀ l ∈ (ofSource source).lexemes, l.token ≠ .comment := by
  intro l member
  simpa using (List.mem_filter.1 member).2

theorem ample_read {r : Reader} {h : Heap} {n : Nat}
    (room : h.live + 3 * r.lexemes.length + n ≤ h.capacity) : Ample (r.read h) n := by
  have whole : Ample (r.takeAll [] r.lexemes h) n :=
    ample_takeAll r (show h.live + 0 + _ + n ≤ _ from room)
  exact ⟨whole.notFatal, whole.room⟩

end Reader

namespace Repl

open Reader Parsing

/-- What judging a text does, without the proof that the rest of the text is shorter. -/
theorem awaitsMoreFrom_eq (r : Reader) (h : Heap) :
    awaitsMoreFrom r h =
      match r.read h with
      | ⟨.ok (some _), r, h⟩ => awaitsMoreFrom r h
      | ⟨.ok none, _, h⟩ => (false, h)
      | ⟨.error e, _, h⟩ => (e.fault.wantsMore, h) := by
  rw [awaitsMoreFrom]
  split
  · next reading =>
    rewrite [reading]
    rfl
  · next reading =>
    rewrite [reading]
    rfl
  · next reading =>
    rewrite [reading]
    rfl

/-- On a heap with enough room the lexemes decide whether more is awaited. -/
theorem awaitsMoreFrom_eq_awaits {r : Reader} {h : Heap} (room : r.HasRoomToEnd h)
    (meaningful : ∀ l ∈ r.lexemes, l.token ≠ .comment) (w : h.WellFormed) :
    (awaitsMoreFrom r h).1 = awaits [] r.lexemes := by
  -- Induction on the expressions that are read.
  induction room with
  | @last r h noMore room =>
      rw [awaitsMoreFrom_eq]
      rcases reading : r.read h with ⟨e | none | v, r', h'⟩
      · have failed : (r.read h).outcome = .error e := by rw [reading]
        exact read_reports meaningful w failed (room e failed)
      · rw [lexemes_eq_nil_of_read meaningful w reading]
        rfl
      · exact absurd (by rw [reading]) (noMore v)
  | @next r r' h h' v reading _ ih =>
      rcases exists_phrase_of_read meaningful w reading with ⟨p, spelled, _⟩
      have evolved := evolves_read meaningful w
      rw [reading] at evolved
      rw [awaitsMoreFrom_eq, reading, awaits_of_parse (parse_eq_phrase_iff.2 spelled)]
      exact ih (meaningful_of_read meaningful w reading) evolved.wellFormed

theorem awaitsMore_eq_awaits {text : String} {h : Heap}
    (room : (ofSource text).HasRoomToEnd h) (w : h.WellFormed) :
    (awaitsMore text h).1 = awaits [] (Lexeme.meaningful text) :=
  awaitsMoreFrom_eq_awaits room (meaningful_ofSource text) w

/-- Three slots for every lexeme are enough, and judging leaves the others. -/
theorem hasRoomToEnd_of_le {r : Reader} {h : Heap} {n : Nat}
    (room : h.live + 3 * r.lexemes.length + n ≤ h.capacity) :
    r.HasRoomToEnd h ∧ (awaitsMoreFrom r h).2.live + n ≤ (awaitsMoreFrom r h).2.capacity := by
  induction length : r.lexemes.length using Nat.strongRecOn generalizing r h with
  | ind m ih =>
      have ample := ample_read room
      have left := ample.room
      rw [awaitsMoreFrom_eq]
      rcases reading : r.read h with ⟨e | none | v, r', h'⟩
      · rw [reading] at left
        dsimp only at left ⊢
        exact ⟨.last (by simp [reading]) ample.notFatal, by omega⟩
      · rw [reading] at left
        dsimp only at left ⊢
        exact ⟨.last (by simp [reading]) ample.notFatal, by omega⟩
      · rw [reading] at left
        have shorter := length_lt_of_read reading
        rcases ih _ (length ▸ shorter) left rfl with ⟨later, rest⟩
        exact ⟨.next reading later, rest⟩

theorem evolves_awaitsMoreFrom {r : Reader} {h : Heap}
    (meaningful : ∀ l ∈ r.lexemes, l.token ≠ .comment) (w : h.WellFormed) :
    h.Evolves (awaitsMoreFrom r h).2 := by
  induction length : r.lexemes.length using Nat.strongRecOn generalizing r h with
  | ind m ih =>
      have evolved := evolves_read meaningful w
      rw [awaitsMoreFrom_eq]
      rcases reading : r.read h with ⟨e | none | v, r', h'⟩
      · rwa [reading] at evolved
      · rwa [reading] at evolved
      · rw [reading] at evolved
        have later := meaningful_of_read meaningful w reading
        exact evolved.trans (ih _ (length ▸ length_lt_of_read reading) later evolved.wellFormed rfl)

/-- What is judged incomplete has not been cut off. -/
theorem hasRoomToEnd_of_awaitsMoreFrom {r : Reader} {h : Heap}
    (awaited : (awaitsMoreFrom r h).1 = true) : r.HasRoomToEnd h := by
  induction length : r.lexemes.length using Nat.strongRecOn generalizing r h with
  | ind m ih =>
      rw [awaitsMoreFrom_eq] at awaited
      rcases reading : r.read h with ⟨e | none | v, r', h'⟩
      · rw [reading] at awaited
        refine .last (by simp [reading]) fun e' failed => ?_
        rw [reading] at failed
        cases failed
        -- A cut-off is never reported as the end of a text.
        unfold ReadFault.wantsMore at awaited
        unfold ReadError.fatal?
        split
        · next cause => simp [cause] at awaited
        · rfl
      · rw [reading] at awaited
        cases awaited
      · rw [reading] at awaited
        exact .next reading (ih _ (length ▸ length_lt_of_read reading) awaited rfl)

end Repl

end Lisplet
