import Lisplet.Proofs.Text.Longest

/-!
# Covering — scanning passes over no text

Every character of a text is a separator between lexemes or belongs to a lexeme, and each lexeme is
what the text from there on begins with. `Lexeme.Covers` says which lists of lexemes cover a text in
this way; there is exactly one for every text, and scanning finds it. So the lexemes are slices of
the text that follow one upon the other.
-/

namespace Lisplet

open Text

namespace Lexeme

open Token

/-- The lexemes cover a text that stands at a byte offset; what is between them are separators. -/
inductive Covers : Nat → List Char → List Lexeme → Prop where
  | done {offset : Nat} : Covers offset [] []
  | separator {offset : Nat} {c : Char} {cs : List Char} {lexemes : List Lexeme} :
      Text.isSeparator c = true → Covers (offset + c.utf8Size) cs lexemes →
      Covers offset (c :: cs) lexemes
  | lexeme {offset : Nat} {cut : Cut} {lexemes : List Lexeme} : cut.IsLexeme →
      Covers (offset + byteLength cut.taken) cut.rest lexemes →
      Covers offset (cut.taken ++ cut.rest) (ofCut offset cut :: lexemes)

/-- The lexeme is a slice of the text, of one character at least, and stands where it says. -/
def IsSlice (l : Lexeme) (source : String) : Prop :=
  ∃ before after, source = before ++ l.text ++ after ∧ l.text ≠ "" ∧
    l.span = ⟨before.utf8ByteSize, before.utf8ByteSize + l.text.utf8ByteSize⟩

variable {offset : Nat} {cs : List Char} {lexemes : List Lexeme} {cut : Cut} {l : Lexeme}

/-! ## Scanning covers -/

/-- The lexemes of a text that stands at a byte offset. -/
def lexemesFrom (offset : Nat) (cs : List Char) : List Lexeme := (scanOnto #[] offset cs).toList

theorem lexemesFrom_separator {c : Char} (separator : Text.isSeparator c = true) :
    lexemesFrom offset (c :: cs) = lexemesFrom (offset + c.utf8Size) cs := by
  rw [lexemesFrom, scanOnto, if_pos separator, lexemesFrom]

theorem lexemesFrom_cut {c : Char} (start : Text.isSeparator c = false) :
    lexemesFrom offset (c :: cs) = ofCut offset (Token.cut c cs) ::
      lexemesFrom (offset + byteLength (Token.cut c cs).taken) (Token.cut c cs).rest := by
  have added := scanOnto_found #[ofCut offset (Token.cut c cs)] #[]
    (offset + byteLength (Token.cut c cs).taken) (Token.cut c cs).rest
  rw [Array.append_empty] at added
  rw [lexemesFrom, scanOnto_cut start]
  show (scanOnto #[ofCut offset (Token.cut c cs)] _ _).toList = _
  rw [added, Array.toList_append]
  rfl

theorem covers_lexemesFrom (offset : Nat) (cs : List Char) :
    Covers offset cs (lexemesFrom offset cs) := by
  -- Induction on the text, which is shorter behind every separator and every lexeme.
  induction next : cs.length using Nat.strongRecOn generalizing offset cs with
  | ind n ih =>
      subst next
      cases cs with
      | nil =>
          rw [lexemesFrom, scanOnto]
          exact .done
      | cons c cs =>
          cases separator : Text.isSeparator c with
          | true =>
              rw [lexemesFrom_separator separator]
              exact .separator separator (ih _ (Nat.lt_succ_self _) _ cs rfl)
          | false =>
              have rest := ih _ (length_cut_lt c cs) (offset + byteLength (Token.cut c cs).taken)
                (Token.cut c cs).rest rfl
              rw [lexemesFrom_cut separator]
              have covers := Covers.lexeme (isLexeme_cut separator) rest
              rwa [cut_taken] at covers

/-- No other list of lexemes covers the text. -/
theorem Covers.eq_lexemesFrom (covers : Covers offset cs lexemes) :
    lexemes = lexemesFrom offset cs := by
  induction covers with
  | done =>
      rw [lexemesFrom, scanOnto]
  | separator separator _ ih => rw [lexemesFrom_separator separator, ih]
  | @lexeme offset cut lexemes isLexeme _ ih =>
      rcases isLexeme.exists_cons with ⟨c, taken, first, start⟩
      have text : cut.taken ++ cut.rest = c :: (taken ++ cut.rest) := by
        rw [first, List.cons_append]
      have same : cut = Token.cut c (taken ++ cut.rest) :=
        isLexeme.unique (isLexeme_cut start) (by rw [cut_taken, text])
      rw [text, lexemesFrom_cut start, ← same, ih]

/-! ## Where the lexemes stand -/

theorem Covers.slice (covers : Covers offset cs lexemes) : ∀ l ∈ lexemes, ∃ before after,
    cs = before ++ l.text.toList ++ after ∧ l.text.toList ≠ [] ∧
      l.span = ⟨offset + byteLength before,
        offset + byteLength before + byteLength l.text.toList⟩ := by
  induction covers with
  | done => exact nofun
  | @separator offset c cs lexemes _ _ ih =>
      intro l member
      rcases ih l member with ⟨before, after, rfl, some, span⟩
      refine ⟨c :: before, after, rfl, some, ?_⟩
      rw [span, byteLength_cons, Nat.add_assoc]
  | @lexeme offset cut lexemes isLexeme _ ih =>
      rw [List.forall_mem_cons]
      constructor
      · rcases isLexeme.exists_cons with ⟨c, taken, first, _⟩
        refine ⟨[], cut.rest, ?_, ?_, ?_⟩
        · simp [ofCut]
        · simp [ofCut, first]
        · simp [ofCut, byteLength]
      · intro l member
        rcases ih l member with ⟨before, after, same, some, span⟩
        refine ⟨cut.taken ++ before, after, ?_, some, ?_⟩
        · rw [same, List.append_assoc, List.append_assoc, List.append_assoc]
        · rw [span, byteLength_append, Nat.add_assoc]

theorem Covers.le_start (covers : Covers offset cs lexemes) :
    ∀ l ∈ lexemes, offset ≤ l.span.start := by
  intro l member
  rcases covers.slice l member with ⟨before, _, _, _, span⟩
  rw [span]
  exact Nat.le_add_right _ _

theorem Covers.ascending (covers : Covers offset cs lexemes) :
    lexemes.Pairwise fun l l' => l.span.stop ≤ l'.span.start := by
  induction covers with
  | done => exact .nil
  | separator _ _ ih => exact ih
  | lexeme _ rest ih => exact .cons rest.le_start ih

/-- Scanning covers a text, in the one way in which that can be done. -/
theorem covers_iff {source : String} : Covers 0 source.toList lexemes ↔ lexemes = scan source := by
  refine ⟨Covers.eq_lexemesFrom, ?_⟩
  rintro rfl
  exact covers_lexemesFrom 0 source.toList

theorem isSlice_of_mem_scan {source : String} (member : l ∈ scan source) : l.IsSlice source := by
  rcases (covers_iff.2 rfl).slice l member with ⟨before, after, text, some, span⟩
  refine ⟨String.ofList before, String.ofList after, ?_, ?_, ?_⟩
  · rw [← String.ofList_toList (s := source), text, String.ofList_append, String.ofList_append,
      String.ofList_toList]
  · rintro empty
    rw [empty] at some
    exact some rfl
  · rw [span, ← byteLength_toList, ← byteLength_toList, String.toList_ofList, Nat.zero_add]

theorem IsSlice.start_lt_stop {source : String} (slice : l.IsSlice source) :
    l.span.start < l.span.stop ∧ l.span.stop ≤ source.utf8ByteSize := by
  rcases slice with ⟨before, after, rfl, some, span⟩
  have size : 0 < l.text.utf8ByteSize := by
    rw [← byteLength_toList]
    refine byteLength_pos fun empty => some ?_
    rw [← String.ofList_toList (s := l.text), empty]
  rw [span]
  constructor
  · exact Nat.lt_add_of_pos_right size
  · simp

theorem ascending_scan (source : String) :
    (scan source).Pairwise fun l l' => l.span.stop ≤ l'.span.start :=
  (covers_iff.2 rfl).ascending

end Lexeme

end Lisplet
