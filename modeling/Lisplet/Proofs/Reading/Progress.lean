import Lisplet.Proofs.Reading.Phrase
import Lisplet.Proofs.Text.Lexing

/-!
# Progress — where recognising stands between two pieces of a text

A sequence of lexemes can be recognised piece by piece, phrase after phrase: what one piece leaves
is a stack of open phrases, from which the next one goes on. A piece can be taken as a sequence of
complete phrases exactly if it leaves none open. If a lexeme cannot be taken, then no more lexemes
help; yet an open literal and a parenthesis that closes nothing but a quote mark are reported as if
they did.
-/

namespace Lisplet

namespace Parsing

open OpenPhrase Phrase

/-- The phrases that are open; there is none behind a complete one. -/
def stack : Parsing → List OpenPhrase
  | unfinished stack => stack
  | finished _ => []

/-- Takes a lexeme, be it within a phrase or the first one of the next phrase. -/
def step (stack : List OpenPhrase) (l : Lexeme) : Option (List OpenPhrase) :=
  (shift stack l).map Parsing.stack

/-- Takes some lexemes. -/
def advance (stack : List OpenPhrase) (ls : List Lexeme) : Option (List OpenPhrase) :=
  ls.foldlM step stack

/-- Whether a lexeme that cannot be taken is reported as the end of a text might be. -/
def asks (stack : List OpenPhrase) (l : Lexeme) : Bool :=
  match l.token, stack with
  | .unclosed, _ => true
  | .closing, .quoted _ :: _ => true
  | _, _ => false

/-- Whether more is awaited behind some lexemes, going by what is reported. -/
def awaits (stack : List OpenPhrase) : List Lexeme → Bool
  | [] => !stack.isEmpty
  | l :: ls =>
    match step stack l with
    | some stack => awaits stack ls
    | none => asks stack l

section Advancing

variable {stack stack' : List OpenPhrase} {l : Lexeme} {ls more rest : List Lexeme}

theorem advance_cons (stack : List OpenPhrase) (l : Lexeme) (ls : List Lexeme) :
    advance stack (l :: ls) = (step stack l).bind (advance · ls) := by
  rw [advance, List.foldlM_cons]
  rfl

theorem advance_append (stack : List OpenPhrase) (ls more : List Lexeme) :
    advance stack (ls ++ more) = (advance stack ls).bind (advance · more) := by
  rw [advance, List.foldlM_append]
  rfl

theorem advance_cons_eq_some : advance stack (l :: ls) = some stack' ↔
    ∃ stack₁, step stack l = some stack₁ ∧ advance stack₁ ls = some stack' := by
  rw [advance_cons, Option.bind_eq_some_iff]

theorem advance_append_eq_some : advance stack (ls ++ more) = some stack' ↔
    ∃ stack₁, advance stack ls = some stack₁ ∧ advance stack₁ more = some stack' := by
  rw [advance_append, Option.bind_eq_some_iff]

/-- What follows decides once everything before has been taken. -/
theorem awaits_append (advanced : advance stack ls = some stack') :
    awaits stack (ls ++ more) = awaits stack' more := by
  induction ls generalizing stack with
  | nil =>
      cases advanced
      rfl
  | cons l ls ih =>
      rcases advance_cons_eq_some.1 advanced with ⟨stack₁, stepped, advanced⟩
      rw [List.cons_append, awaits, stepped]
      exact ih advanced

/-! ## Pieces of complete phrases -/

/-- Behind a phrase nothing is open. -/
theorem exists_advance_of_parse {p : Phrase} (parsed : parse stack ls = .phrase p rest) :
    ∃ front, ls = front ++ rest ∧ advance stack front = some [] := by
  induction ls generalizing stack with
  | nil =>
      unfold parse at parsed
      split at parsed
      · cases parsed
      · cases parsed
  | cons l ls ih =>
      rw [parse_cons] at parsed
      rcases shifted : shift stack l with _ | ⟨stack' | p'⟩
      · rw [shifted] at parsed
        cases parsed
      · rw [shifted] at parsed
        rcases ih parsed with ⟨front, rfl, advanced⟩
        refine ⟨l :: front, rfl, ?_⟩
        rw [advance_cons, step, shifted]
        exact advanced
      · rw [shifted] at parsed
        cases parsed
        refine ⟨[l], rfl, ?_⟩
        rw [advance_cons, step, shifted]
        rfl

theorem advance_of_parse {p : Phrase} (parsed : parse stack ls = .phrase p rest) :
    advance stack ls = advance [] rest := by
  rcases exists_advance_of_parse parsed with ⟨front, rfl, advanced⟩
  rw [advance_append, advanced]
  rfl

theorem awaits_of_parse {p : Phrase} (parsed : parse stack ls = .phrase p rest) :
    awaits stack ls = awaits [] rest := by
  rcases exists_advance_of_parse parsed with ⟨front, rfl, advanced⟩
  exact awaits_append advanced

/-- If no phrase is found, then some are open at the end, or a lexeme cannot be taken. -/
theorem ne_nil_of_broken (broken : parse stack ls = .broken)
    (advanced : advance stack ls = some stack') : stack' ≠ [] := by
  induction ls generalizing stack with
  | nil =>
      cases advanced
      rintro rfl
      cases broken
  | cons l ls ih =>
      rw [parse_cons] at broken
      rw [advance_cons, step] at advanced
      rcases shifted : shift stack l with _ | ⟨stack₁ | p⟩
      · rw [shifted] at advanced
        cases advanced
      · rw [shifted] at broken advanced
        exact ih broken advanced
      · rw [shifted] at broken
        cases broken

theorem advance_lexemesOf (ps : List Phrase) (more : List Lexeme) :
    advance [] (lexemesOf ps ++ more) = advance [] more := by
  induction ps with
  | nil => rfl
  | cons p ps ih =>
      rw [lexemesOf, List.append_assoc, advance_of_parse (parse_eq_phrase_iff.2 rfl), ih]

/-- Nothing stays open exactly behind complete phrases. -/
theorem advance_eq_nil_iff : advance [] ls = some [] ↔ ∃ ps, ls = lexemesOf ps := by
  constructor
  · intro advanced
    -- Induction on what is left behind each phrase.
    induction length : ls.length using Nat.strongRecOn generalizing ls with
    | ind n ih =>
        rcases parsed : parse [] ls with ⟨p, rest⟩ | _ | _
        · rw [advance_of_parse parsed] at advanced
          have spelled := parse_eq_phrase_iff.1 parsed
          have := List.length_pos_iff.2 p.lexemes_ne_nil
          rcases ih rest.length (by rw [← length, spelled, List.length_append]; omega) advanced rfl
            with ⟨ps, rfl⟩
          exact ⟨p :: ps, spelled⟩
        · exact ⟨[], parse_eq_nothing_iff.1 parsed⟩
        · exact absurd rfl (ne_nil_of_broken parsed advanced)
  · rintro ⟨ps, rfl⟩
    have := advance_lexemesOf ps []
    rwa [List.append_nil] at this

theorem awaits_of_advance (advanced : advance stack ls = some stack') :
    awaits stack ls = !stack'.isEmpty := by
  have whole : awaits stack (ls ++ []) = awaits stack' [] := awaits_append advanced
  rwa [List.append_nil] at whole

/-! ## Lexemes that cannot be taken -/

theorem step_eq_none (token : l.token = .unclosed ∨ l.token = .stray) : step stack l = none := by
  have noWord : l.word? = none := by
    rcases token with token | token <;> simp [Lexeme.word?, token]
  have noPoint : ¬ l.IsPoint := by
    rintro ⟨isAtom, _⟩
    rcases token with token | token <;> simp [token] at isAtom
  rw [step, shift_eq_none stack noWord noPoint (by rcases token with token | token <;> simp [token])
    (by rcases token with token | token <;> simp [token])
    (by rcases token with token | token <;> simp [token])]
  rfl

theorem asks_cases (asked : asks stack l = true) :
    l.token = .unclosed ∨ l.token = .closing ∧ ∃ mark below, stack = .quoted mark :: below := by
  unfold asks at asked
  split at asked
  · exact .inl ‹_›
  · exact .inr ⟨‹_›, _, _, rfl⟩
  · cases asked

theorem asks_unclosed (token : l.token = .unclosed) : asks stack l = true := by
  unfold asks
  rw [token]

theorem asks_eq_false (notUnclosed : l.token ≠ .unclosed) (notClosing : l.token ≠ .closing) :
    asks stack l = false := by
  refine Bool.eq_false_iff.2 fun asked => ?_
  rcases asks_cases asked with token | ⟨token, _⟩
  · exact notUnclosed token
  · exact notClosing token

/-- No literal without an end is among lexemes that have been taken. -/
theorem token_ne_unclosed (advanced : advance stack ls = some stack') :
    ∀ l ∈ ls, l.token ≠ .unclosed := by
  induction ls generalizing stack with
  | nil => exact List.forall_mem_nil _
  | cons l ls ih =>
      rcases advance_cons_eq_some.1 advanced with ⟨stack₁, stepped, advanced⟩
      refine List.forall_mem_cons.2 ⟨fun token => ?_, ih advanced⟩
      rw [step_eq_none (.inl token)] at stepped
      cases stepped

/-- No parenthesis that closes nothing but a quote mark is among them either. -/
theorem not_closed_quote {mark closing : Lexeme} (isQuote : mark.token = .quote)
    (isClosing : closing.token = .closing) (advanced : advance stack ls = some stack') :
    ¬ [mark, closing] <:+: ls := by
  rintro ⟨before, after, rfl⟩
  rw [List.append_assoc] at advanced
  rcases advance_append_eq_some.1 advanced with ⟨stack₁, _, advanced⟩
  rcases advance_cons_eq_some.1 advanced with ⟨stack₂, marked, advanced⟩
  rcases advance_cons_eq_some.1 advanced with ⟨stack₃, closed, _⟩
  rw [step, shift_quote stack₁ ⟨mark, isQuote⟩] at marked
  cases marked
  -- The quote mark is innermost now, and nothing can be closed there.
  rw [step, shift_closing _ ⟨closing, isClosing⟩] at closed
  cases closed

/-- A phrase that is handed on leaves no quote mark innermost. -/
theorem hand_not_quoted {p : Phrase} {s : Parsing} {mark : Lexeme.Of .quote}
    (handed : hand p stack = some s) : s.stack ≠ .quoted mark :: stack' := by
  fun_induction hand p stack with
  | case1 p =>
      cases handed
      simp [Parsing.stack]
  | case2 p mark stack ih => exact ih handed
  | case3 p opening items stack =>
      cases handed
      simp [Parsing.stack]
  | case4 p opening first rest point stack =>
      cases handed
      simp [Parsing.stack]
  | case5 => cases handed

/-- A quote mark is innermost only directly behind it. -/
theorem eq_of_step_quoted {mark : Lexeme.Of .quote}
    (stepped : step stack l = some (.quoted mark :: stack')) : l = mark.val := by
  unfold step at stepped
  rcases Option.map_eq_some_iff.1 stepped with ⟨s, shifted, top⟩
  unfold shift at shifted
  -- A parenthesis that opens a list leaves the list innermost.
  split at shifted
  · cases shifted
    cases top
  split at shifted
  · cases shifted
    cases top
    rfl
  -- Behind whatever makes a phrase complete the phrase has been handed on.
  split at shifted
  · unfold close at shifted
    split at shifted
    · exact absurd top (hand_not_quoted shifted)
    · exact absurd top (hand_not_quoted shifted)
    · cases shifted
  split at shifted
  · unfold point at shifted
    split at shifted
    · cases shifted
      cases top
    · cases shifted
  split at shifted
  · exact absurd top (hand_not_quoted shifted)
  · cases shifted

theorem eq_append_of_quoted {mark : Lexeme.Of .quote}
    (advanced : advance [] ls = some (.quoted mark :: stack')) :
    ∃ before, ls = before ++ [mark.val] := by
  rcases List.eq_nil_or_concat ls with rfl | ⟨before, l, rfl⟩
  · cases advanced
  · rw [List.concat_eq_append] at advanced ⊢
    rcases advance_append_eq_some.1 advanced with ⟨stack₁, _, advanced⟩
    rcases advance_cons_eq_some.1 advanced with ⟨stack₂, stepped, advanced⟩
    cases advanced
    rw [eq_of_step_quoted stepped]
    exact ⟨before, rfl⟩

/-- If some lexemes cannot be taken, then there is a first one that is refused. -/
theorem exists_refused (refused : advance stack ls = none) :
    ∃ before l after stack', ls = before ++ l :: after ∧ advance stack before = some stack' ∧
      step stack' l = none := by
  induction ls generalizing stack with
  | nil => cases refused
  | cons l ls ih =>
      rw [advance_cons] at refused
      rcases stepped : step stack l with _ | stack₁
      · exact ⟨[], l, ls, stack, rfl, rfl, stepped⟩
      · rw [stepped] at refused
        rcases ih refused with ⟨before, l', after, stack', rfl, advanced, first⟩
        refine ⟨l :: before, l', after, stack', rfl, ?_, first⟩
        rw [advance_cons, stepped]
        exact advanced

theorem awaits_of_refused (advanced : advance stack ls = some stack')
    (refused : step stack' l = none) : awaits stack (ls ++ l :: more) = asks stack' l := by
  rw [awaits_append advanced, awaits, refused]

end Advancing

end Parsing

/-! ## The same phrases in another place -/

namespace Lexeme

variable {l m : Lexeme}

theorem token_of_key (same : l.key = m.key) : l.token = m.token := congrArg Prod.fst same

theorem text_of_key (same : l.key = m.key) : l.text = m.text := congrArg Prod.snd same

theorem word?_of_key (same : l.key = m.key) : l.word? = m.word? := by
  unfold word?
  rw [token_of_key same, text_of_key same]

end Lexeme

namespace Phrase

open Lexeme

/-- A sequence of lexemes is a sequence of phrases in one way only. -/
theorem eq_of_lexemesOf {ps qs : List Phrase} (same : lexemesOf ps = lexemesOf qs) : ps = qs := by
  induction ps generalizing qs with
  | nil =>
      cases qs with
      | nil => rfl
      | cons q qs => exact absurd (List.append_eq_nil_iff.1 same.symm).1 q.lexemes_ne_nil
  | cons p ps ih =>
      cases qs with
      | nil => exact absurd (List.append_eq_nil_iff.1 same).1 p.lexemes_ne_nil
      | cons q qs =>
          rw [lexemesOf, lexemesOf] at same
          have first : p = q := Phrase.eq_of_isPrefix ⟨_, rfl⟩ ⟨_, same.symm⟩
          subst first
          rw [ih (List.append_cancel_left same)]

mutual

/-- The tree of a phrase depends on what its lexemes are, not on where they stand. -/
theorem exists_of_keys (p : Phrase) {ls : List Lexeme}
    (same : ls.map key = p.lexemes.map key) : ∃ q : Phrase, q.lexemes = ls ∧ q.tree = p.tree := by
  cases p with
  | word w =>
      rcases List.map_eq_cons_iff.1 same with ⟨l, _, rfl, first, rest⟩
      cases List.map_eq_nil_iff.1 rest
      have means := word?_of_key first
      refine ⟨.word ⟨l, means ▸ w.property⟩, rfl, ?_⟩
      rw [tree, tree, Word.tree, Word.tree]
      simp only [means]
  | quoted mark p =>
      rcases List.map_eq_cons_iff.1 same with ⟨l, ls, rfl, first, rest⟩
      rcases exists_of_keys p rest with ⟨q, rfl, trees⟩
      refine ⟨.quoted ⟨l, (token_of_key first).trans mark.property⟩ q, rfl, ?_⟩
      rw [tree, tree, trees]
  | list opening items closing =>
      rw [lexemes, List.map_cons, List.map_append] at same
      rcases List.map_eq_cons_iff.1 same with ⟨l, ls, rfl, first, rest⟩
      rcases List.map_eq_append_iff.1 rest with ⟨inside, last, rfl, parts, ends⟩
      rcases List.map_eq_cons_iff.1 ends with ⟨m, _, rfl, final, nothing⟩
      cases List.map_eq_nil_iff.1 nothing
      rcases exists_of_keysOf items parts with ⟨qs, rfl, trees⟩
      refine ⟨.list ⟨l, (token_of_key first).trans opening.property⟩ qs
        ⟨m, (token_of_key final).trans closing.property⟩, rfl, ?_⟩
      rw [tree, tree, trees]
  | dotted opening p rest point tail closing =>
      rw [lexemes, List.map_cons, List.map_append, List.map_append, List.map_cons,
        List.map_append] at same
      rcases List.map_eq_cons_iff.1 same with ⟨l, ls, rfl, first, more⟩
      rcases List.map_eq_append_iff.1 more with ⟨ls₁, _, rfl, parts₁, more⟩
      rcases List.map_eq_append_iff.1 more with ⟨ls₂, _, rfl, parts₂, more⟩
      rcases List.map_eq_cons_iff.1 more with ⟨dot, _, rfl, middle, more⟩
      rcases List.map_eq_append_iff.1 more with ⟨ls₃, last, rfl, parts₃, ends⟩
      rcases List.map_eq_cons_iff.1 ends with ⟨m, _, rfl, final, nothing⟩
      cases List.map_eq_nil_iff.1 nothing
      rcases exists_of_keys p parts₁ with ⟨q, rfl, trees₁⟩
      rcases exists_of_keysOf rest parts₂ with ⟨qs, rfl, trees₂⟩
      rcases exists_of_keys tail parts₃ with ⟨q', rfl, trees₃⟩
      have points : dot.IsPoint :=
        ⟨(token_of_key middle).trans point.property.1,
          (text_of_key middle).trans point.property.2⟩
      refine ⟨.dotted ⟨l, (token_of_key first).trans opening.property⟩ q qs ⟨dot, points⟩ q'
        ⟨m, (token_of_key final).trans closing.property⟩, rfl, ?_⟩
      rw [tree, tree, trees₁, trees₂, trees₃]

theorem exists_of_keysOf (ps : List Phrase) {ls : List Lexeme}
    (same : ls.map key = (lexemesOf ps).map key) :
    ∃ qs, lexemesOf qs = ls ∧ treesOf qs = treesOf ps := by
  cases ps with
  | nil =>
      cases List.map_eq_nil_iff.1 same
      exact ⟨[], rfl, rfl⟩
  | cons p ps =>
      rw [lexemesOf, List.map_append] at same
      rcases List.map_eq_append_iff.1 same with ⟨ls₁, ls₂, rfl, first, rest⟩
      rcases exists_of_keys p first with ⟨q, rfl, tree⟩
      rcases exists_of_keysOf ps rest with ⟨qs, rfl, trees⟩
      refine ⟨q :: qs, rfl, ?_⟩
      rw [treesOf, treesOf, tree, trees]

end

end Phrase

end Lisplet
