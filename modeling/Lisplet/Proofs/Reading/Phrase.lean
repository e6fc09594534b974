import Lisplet.Proofs.Text.Classification
import Lisplet.Reader

/-!
# Phrases — the grammar of expressions

A phrase is a derivation of one expression by the grammar

    datum ::= word | ' datum | ( datum* ) | ( datum+ . datum )

where a word is an atom that is no lone point, or a string. It spells lexemes and denotes a tree.
Phrases are recognised as expressions are read, one lexeme at a time with the forms that are
still open on a stack, only that nothing is built on a heap. `parse_eq_phrase_iff` says that what
is recognised at the front of a sequence of lexemes is exactly the phrase that spells it.
-/

namespace Lisplet

/-- What an expression denotes, whatever slots it is kept in. -/
inductive Tree where
  | nil
  | leaf (object : Object)
  | pair (car cdr : Tree)

/-- A tree with others in front of it, as the elements of a list. -/
def Tree.after (tail : Tree) (items : List Tree) : Tree := items.foldr .pair tail

/-! ## The words of the grammar -/

namespace Atom

/-- What an atom denotes; a point denotes nothing. -/
def tree? : Atom → Option Tree
  | .int n => some (.leaf (.int n))
  | .float x => some (.leaf (.float x))
  | .ratio numer denom => some (.leaf (.ratio numer denom))
  | .nil => some .nil
  | .symbol name => some (.leaf (.symbol name))
  | .dot => none

theorem tree?_eq_none_iff {a : Atom} : a.tree? = none ↔ a = .dot := by
  cases a with
  | dot => exact ⟨fun _ => rfl, fun _ => rfl⟩
  | _ => exact ⟨nofun, nofun⟩

end Atom

namespace Lexeme

/-- What a lexeme denotes if it is an expression by itself. -/
def word? (l : Lexeme) : Option Tree :=
  match l.token with
  | .atom => (Atom.classify l.text).toOption.bind Atom.tree?
  | .string => (Text.unquote l.text).toOption.map fun text => .leaf (.string text)
  | _ => none

/-- Whether a lexeme is a lone point. -/
def IsPoint (l : Lexeme) : Prop := l.token = .atom ∧ l.text = "."

instance (l : Lexeme) : Decidable l.IsPoint := inferInstanceAs (Decidable (_ ∧ _))

/-- The lexemes of one class. -/
abbrev Of (token : Token) := { l : Lexeme // l.token = token }

/-- The lone points. -/
abbrev Point := { l : Lexeme // l.IsPoint }

/-- The lexemes that are expressions by themselves. -/
abbrev Word := { l : Lexeme // l.word?.isSome }

def Word.tree (w : Word) : Tree := w.val.word?.get w.property

theorem word?_eq_none_of_isPoint {l : Lexeme} (points : l.IsPoint) : l.word? = none := by
  rcases points with ⟨isAtom, text⟩
  unfold word?
  rw [isAtom, text]
  rfl

/-- A word is an atom or a string. -/
theorem token_of_word {l : Lexeme} (isWord : l.word?.isSome) :
    l.token = .atom ∨ l.token = .string := by
  unfold word? at isWord
  split at isWord
  · exact .inl ‹_›
  · exact .inr ‹_›
  · cases isWord

end Lexeme

/-! ## Derivations -/

/-- A derivation of an expression from the lexemes it is written with. -/
inductive Phrase where
  | word (word : Lexeme.Word)
  | quoted (mark : Lexeme.Of .quote) (phrase : Phrase)
  | list (opening : Lexeme.Of .opening) (items : List Phrase) (closing : Lexeme.Of .closing)
  | dotted (opening : Lexeme.Of .opening) (first : Phrase) (rest : List Phrase)
      (point : Lexeme.Point) (tail : Phrase) (closing : Lexeme.Of .closing)

namespace Phrase

mutual

/-- The lexemes that a phrase spells. -/
def lexemes : Phrase → List Lexeme
  | word w => [w.val]
  | quoted mark p => mark.val :: p.lexemes
  | list opening items closing => opening.val :: (lexemesOf items ++ [closing.val])
  | dotted opening first rest point tail closing =>
    opening.val :: (first.lexemes ++ (lexemesOf rest ++
      point.val :: (tail.lexemes ++ [closing.val])))

/-- The lexemes that some phrases spell one after the other. -/
def lexemesOf : List Phrase → List Lexeme
  | [] => []
  | p :: ps => p.lexemes ++ lexemesOf ps

end

mutual

/-- The tree that a phrase denotes: `'d` is the list of `quote` and `d`. -/
def tree : Phrase → Tree
  | word w => w.tree
  | quoted _ p => Tree.nil.after [.leaf (.symbol "quote"), p.tree]
  | list _ items _ => Tree.nil.after (treesOf items)
  | dotted _ first rest _ tail _ => tail.tree.after (first.tree :: treesOf rest)

/-- The trees that some phrases denote. -/
def treesOf : List Phrase → List Tree
  | [] => []
  | p :: ps => p.tree :: treesOf ps

end

theorem lexemesOf_append (ps qs : List Phrase) :
    lexemesOf (ps ++ qs) = lexemesOf ps ++ lexemesOf qs := by
  induction ps with
  | nil => rfl
  | cons p ps ih =>
      rw [List.cons_append, lexemesOf, lexemesOf, ih, List.append_assoc]

theorem treesOf_append (ps qs : List Phrase) :
    treesOf (ps ++ qs) = treesOf ps ++ treesOf qs := by
  induction ps with
  | nil => rfl
  | cons p ps ih =>
      rw [List.cons_append, treesOf, treesOf, ih, List.cons_append]

theorem lexemes_ne_nil (p : Phrase) : p.lexemes ≠ [] := by
  cases p with
  | _ => simp [lexemes]

end Phrase

/-! ## Recognising phrases -/

/-- A phrase that has begun and not ended, with its parts in the order in which they stand. -/
inductive OpenPhrase where
  | list (opening : Lexeme.Of .opening) (items : List Phrase)
  /-- After the point there may be a tail already. -/
  | dotted (opening : Lexeme.Of .opening) (first : Phrase) (rest : List Phrase)
      (point : Lexeme.Point) (tail : Option Phrase)
  | quoted (mark : Lexeme.Of .quote)

namespace OpenPhrase

/-- The lexemes that have been taken since a phrase began, without those of inner open phrases. -/
def lexemes : OpenPhrase → List Lexeme
  | list opening items => opening.val :: Phrase.lexemesOf items
  | dotted opening first rest point none =>
    opening.val :: (first.lexemes ++ (Phrase.lexemesOf rest ++ [point.val]))
  | dotted opening first rest point (some tail) =>
    opening.val :: (first.lexemes ++ (Phrase.lexemesOf rest ++ point.val :: tail.lexemes))
  | quoted mark => [mark.val]

/-- The lexemes that have been taken for a stack of open phrases, the innermost first. -/
def taken : List OpenPhrase → List Lexeme
  | [] => []
  | phrase :: stack => taken stack ++ phrase.lexemes

end OpenPhrase

/-- Where recognising a phrase stands after a lexeme. -/
inductive Parsing where
  | unfinished (stack : List OpenPhrase)
  | finished (phrase : Phrase)

/-- What is found at the front of a sequence of lexemes. -/
inductive Parsed where
  | phrase (phrase : Phrase) (rest : List Lexeme)
  /-- There is no lexeme left. -/
  | nothing
  | broken

namespace Parsing

open OpenPhrase

/-- The lexemes that have been taken. -/
def lexemes : Parsing → List Lexeme
  | unfinished stack => taken stack
  | finished p => p.lexemes

/-- Hands a complete phrase to the innermost open one. Quotes are completed by it. -/
def hand (p : Phrase) : List OpenPhrase → Option Parsing
  | [] => some (finished p)
  | .quoted mark :: stack => hand (.quoted mark p) stack
  | .list opening items :: stack => some (unfinished (.list opening (items ++ [p]) :: stack))
  | .dotted opening first rest point none :: stack =>
    some (unfinished (.dotted opening first rest point (some p) :: stack))
  | .dotted _ _ _ _ (some _) :: _ => none

/-- Takes a closing parenthesis. -/
def close (closing : Lexeme.Of .closing) : List OpenPhrase → Option Parsing
  | .list opening items :: stack => hand (.list opening items closing) stack
  | .dotted opening first rest point (some tail) :: stack =>
    hand (.dotted opening first rest point tail closing) stack
  | _ => none

/-- Takes a lone point. -/
def point (point : Lexeme.Point) : List OpenPhrase → Option Parsing
  | .list opening (first :: rest) :: stack =>
    some (unfinished (.dotted opening first rest point none :: stack))
  | _ => none

/-- Takes the next lexeme, if a phrase can go on with it. -/
def shift (stack : List OpenPhrase) (l : Lexeme) : Option Parsing :=
  if h : l.token = .opening then some (unfinished (.list ⟨l, h⟩ [] :: stack))
  else if h : l.token = .quote then some (unfinished (.quoted ⟨l, h⟩ :: stack))
  else if h : l.token = .closing then close ⟨l, h⟩ stack
  else if h : l.IsPoint then point ⟨l, h⟩ stack
  else if h : l.word?.isSome then hand (.word ⟨l, h⟩) stack
  else none

/-- Takes lexemes until a phrase is complete. -/
def parse (stack : List OpenPhrase) : List Lexeme → Parsed
  | [] =>
    match stack with
    | [] => .nothing
    | _ :: _ => .broken
  | l :: ls =>
    match shift stack l with
    | some (unfinished stack) => parse stack ls
    | some (finished p) => .phrase p ls
    | none => .broken

/-- How recognising goes on from where it stands. -/
def resume : Option Parsing → List Lexeme → Parsed
  | some (unfinished stack), more => parse stack more
  | some (finished p), more => .phrase p more
  | none, _ => .broken

theorem parse_cons (stack : List OpenPhrase) (l : Lexeme) (ls : List Lexeme) :
    parse stack (l :: ls) = resume (shift stack l) ls := by
  rw [parse]
  rcases shift stack l with _ | ⟨stack' | p⟩
  · rfl
  · rfl
  · rfl

section Shifting

variable (stack : List OpenPhrase)

theorem shift_opening (opening : Lexeme.Of .opening) :
    shift stack opening.val = some (unfinished (.list opening [] :: stack)) :=
  dif_pos opening.property

theorem shift_quote (mark : Lexeme.Of .quote) :
    shift stack mark.val = some (unfinished (.quoted mark :: stack)) := by
  have token := mark.property
  unfold shift
  rw [dif_neg (by simp [token]), dif_pos token]

theorem shift_closing (closing : Lexeme.Of .closing) :
    shift stack closing.val = close closing stack := by
  have token := closing.property
  unfold shift
  rw [dif_neg (by simp [token]), dif_neg (by simp [token]), dif_pos token]

theorem shift_point (p : Lexeme.Point) : shift stack p.val = point p stack := by
  have token := p.property.1
  unfold shift
  rw [dif_neg (by simp [token]), dif_neg (by simp [token]), dif_neg (by simp [token]),
    dif_pos p.property]

theorem shift_word (w : Lexeme.Word) : shift stack w.val = hand (.word w) stack := by
  have noPoint : ¬ w.val.IsPoint := by
    intro points
    have isWord := w.property
    rw [Lexeme.word?_eq_none_of_isPoint points] at isWord
    cases isWord
  have token := Lexeme.token_of_word w.property
  unfold shift
  rw [dif_neg (by rcases token with token | token <;> simp [token]),
    dif_neg (by rcases token with token | token <;> simp [token]),
    dif_neg (by rcases token with token | token <;> simp [token]),
    dif_neg noPoint, dif_pos w.property]

/-- A lexeme that denotes a tree is handed over as a phrase that denotes it. -/
theorem exists_hand_of_word {l : Lexeme} {t : Tree} (means : l.word? = some t) :
    ∃ p : Phrase, p.tree = t ∧ shift stack l = hand p stack := by
  have isWord : l.word?.isSome := by
    rw [means]
    rfl
  refine ⟨.word ⟨l, isWord⟩, ?_, shift_word stack ⟨l, isWord⟩⟩
  rw [Phrase.tree, Lexeme.Word.tree]
  exact Option.get_of_eq_some isWord means

/-- Anything else has no place in a phrase. -/
theorem shift_eq_none {l : Lexeme} (noWord : l.word? = none) (noPoint : ¬ l.IsPoint)
    (noQuote : l.token ≠ .quote) (noOpening : l.token ≠ .opening)
    (noClosing : l.token ≠ .closing) : shift stack l = none := by
  unfold shift
  rw [dif_neg noOpening, dif_neg noQuote, dif_neg noClosing, dif_neg noPoint,
    dif_neg (by simp [noWord])]

end Shifting

/-! ## What is recognised is a phrase -/

section Soundness

variable {p : Phrase} {s : Parsing} {stack : List OpenPhrase} {l : Lexeme}
  {ls rest : List Lexeme}

/-- No lexeme is lost when a phrase is handed on. -/
theorem lexemes_of_hand (handed : hand p stack = some s) :
    s.lexemes = taken stack ++ p.lexemes := by
  -- Induction on the open phrases; only a quote hands the phrase on to the next one.
  fun_induction hand p stack with
  | case1 p =>
      cases handed
      rfl
  | case2 p mark stack ih =>
      rw [ih handed]
      simp [taken, OpenPhrase.lexemes, Phrase.lexemes]
  | case3 p opening items stack =>
      cases handed
      simp [lexemes, taken, OpenPhrase.lexemes, Phrase.lexemesOf_append, Phrase.lexemesOf]
  | case4 p opening first rest point stack =>
      cases handed
      simp [lexemes, taken, OpenPhrase.lexemes]
  | case5 => cases handed

theorem lexemes_of_close {closing : Lexeme.Of .closing} (closed : close closing stack = some s) :
    s.lexemes = taken stack ++ [closing.val] := by
  unfold close at closed
  split at closed
  · rw [lexemes_of_hand closed]
    simp [taken, OpenPhrase.lexemes, Phrase.lexemes]
  · rw [lexemes_of_hand closed]
    simp [taken, OpenPhrase.lexemes, Phrase.lexemes]
  · cases closed

theorem lexemes_of_point {p : Lexeme.Point} (pointed : point p stack = some s) :
    s.lexemes = taken stack ++ [p.val] := by
  unfold point at pointed
  split at pointed
  · cases pointed
    simp [lexemes, taken, OpenPhrase.lexemes, Phrase.lexemesOf]
  · cases pointed

theorem lexemes_of_shift (shifted : shift stack l = some s) :
    s.lexemes = taken stack ++ [l] := by
  unfold shift at shifted
  split at shifted
  · cases shifted
    rfl
  split at shifted
  · cases shifted
    rfl
  split at shifted
  · exact lexemes_of_close shifted
  split at shifted
  · exact lexemes_of_point shifted
  split at shifted
  · exact lexemes_of_hand shifted
  · cases shifted

/-- The lexemes taken and the lexemes left are those of the phrase and what follows it. -/
theorem append_of_parse (parsed : parse stack ls = .phrase p rest) :
    taken stack ++ ls = p.lexemes ++ rest := by
  induction ls generalizing stack with
  | nil =>
      unfold parse at parsed
      split at parsed
      · cases parsed
      · cases parsed
  | cons l ls ih =>
      rw [parse_cons] at parsed
      rcases shifted : shift stack l with _ | ⟨stack' | p'⟩
      · rw [shifted] at parsed
        cases parsed
      · rw [shifted] at parsed
        have grown : taken stack' = taken stack ++ [l] := lexemes_of_shift shifted
        rw [← ih parsed, grown, List.append_assoc, List.singleton_append]
      · rw [shifted] at parsed
        cases parsed
        have whole : p.lexemes = taken stack ++ [l] := lexemes_of_shift shifted
        rw [whole, List.append_assoc, List.singleton_append]

theorem eq_nil_of_parse (parsed : parse stack ls = .nothing) : taken stack ++ ls = [] := by
  induction ls generalizing stack with
  | nil =>
      rcases stack with _ | ⟨phrase, stack⟩
      · rfl
      · cases parsed
  | cons l ls ih =>
      rw [parse_cons] at parsed
      rcases shifted : shift stack l with _ | ⟨stack' | p'⟩
      · rw [shifted] at parsed
        cases parsed
      · rw [shifted] at parsed
        have grown : taken stack' = taken stack ++ [l] := lexemes_of_shift shifted
        rw [← ih parsed, grown, List.append_assoc, List.singleton_append]
      · rw [shifted] at parsed
        cases parsed

end Soundness

/-! ## Every phrase is recognised -/

mutual

/-- Behind a phrase recognising goes on as if the phrase had been handed over. -/
theorem parse_phrase (p : Phrase) (stack : List OpenPhrase) (more : List Lexeme) :
    parse stack (p.lexemes ++ more) = resume (hand p stack) more := by
  cases p with
  | word w =>
      rw [Phrase.lexemes, List.singleton_append, parse_cons, shift_word]
  | quoted mark p =>
      rw [Phrase.lexemes, List.cons_append, parse_cons, shift_quote, resume, parse_phrase p]
      rfl
  | list opening items closing =>
      rw [Phrase.lexemes, List.cons_append, parse_cons, shift_opening, resume, List.append_assoc,
        parse_items items, List.singleton_append, parse_cons, shift_closing]
      rfl
  | dotted opening first rest point tail closing =>
      have toPoint (after : List Lexeme) : parse (.list opening [] :: stack)
          (first.lexemes ++ (Phrase.lexemesOf rest ++ point.val :: after)) =
            parse (.dotted opening first rest point none :: stack) after := by
        rw [parse_phrase first, hand, resume, parse_items rest, parse_cons, shift_point]
        rfl
      rw [Phrase.lexemes, List.cons_append, parse_cons, shift_opening, resume, List.append_assoc,
        List.append_assoc, List.cons_append, toPoint, List.append_assoc, parse_phrase tail, hand,
        resume, List.singleton_append, parse_cons, shift_closing]
      rfl

/-- Phrases inside a list become its items. -/
theorem parse_items (ps : List Phrase) (opening : Lexeme.Of .opening) (items : List Phrase)
    (stack : List OpenPhrase) (more : List Lexeme) :
    parse (.list opening items :: stack) (Phrase.lexemesOf ps ++ more) =
      parse (.list opening (items ++ ps) :: stack) more := by
  cases ps with
  | nil => rw [Phrase.lexemesOf, List.nil_append, List.append_nil]
  | cons p ps =>
      rw [Phrase.lexemesOf, List.append_assoc, parse_phrase p, hand, resume, parse_items ps,
        List.append_assoc, List.singleton_append]

end

end Parsing

open Parsing

variable {ls rest : List Lexeme} {p q : Phrase}

theorem parse_eq_phrase_iff : parse [] ls = .phrase p rest ↔ ls = p.lexemes ++ rest := by
  constructor
  · exact append_of_parse
  · rintro rfl
    rw [parse_phrase]
    rfl

theorem parse_eq_nothing_iff : parse [] ls = .nothing ↔ ls = [] := by
  constructor
  · exact eq_nil_of_parse
  · rintro rfl
    rfl

/-- No two phrases begin a sequence of lexemes. -/
theorem Phrase.eq_of_isPrefix (one : p.lexemes <+: ls) (other : q.lexemes <+: ls) : p = q := by
  rcases one with ⟨rest, spelled⟩
  rcases other with ⟨rest', spelled'⟩
  have parsed := parse_eq_phrase_iff.2 spelled.symm
  have parsed' := parse_eq_phrase_iff.2 spelled'.symm
  rw [parsed] at parsed'
  cases parsed'
  rfl

end Lisplet
