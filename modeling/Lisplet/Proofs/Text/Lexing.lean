import Lisplet.Heap.Print
import Lisplet.Proofs.Text.Numeral

/-!
# Lexing — pieces of printed text are cut where they end

`Lexeme.Scans cs rest ts` says that scanning reads the characters `cs`, whatever it has found
before, as the lexemes `ts` and goes on with `rest`. Such pieces can be put together; the
single pieces here are those that printed text is made of. An atom needs a delimiter behind it,
a literal with its quotes and escapes needs none.
-/

namespace Lisplet

namespace Lexeme

/-- A lexeme without its place. -/
def key (lexeme : Lexeme) : Token × String := (lexeme.token, lexeme.text)

/-- In front of `rest` the characters `cs` are read as the lexemes `ts`. -/
def Scans (cs rest : List Char) (ts : List (Token × String)) : Prop :=
  ∀ found offset, ∃ (lexemes : List Lexeme) (offset' : Nat), lexemes.map key = ts ∧
    scanOnto found offset (cs ++ rest) = scanOnto (found ++ lexemes.toArray) offset' rest

/-- No atom goes on into the text. -/
def Delimited (cs : List Char) : Prop := ∀ c ∈ cs.head?, Token.isAtomChar c = false

namespace Scans

variable {cs cs' rest : List Char} {ts ts' : List (Token × String)}

theorem append (first : Scans cs (cs' ++ rest) ts) (second : Scans cs' rest ts') :
    Scans (cs ++ cs') rest (ts ++ ts') := by
  intro found offset
  rcases first found offset with ⟨lexemes, offset', keys, step⟩
  rcases second (found ++ lexemes.toArray) offset' with ⟨lexemes', offset'', keys', step'⟩
  refine ⟨lexemes ++ lexemes', offset'', ?_, ?_⟩
  · rw [List.map_append, keys, keys']
  · rw [List.append_assoc, step, step', Array.append_assoc]
    simp

/-- A separator is skipped. -/
theorem blank : Scans [' '] rest [] := by
  intro found offset
  refine ⟨[], offset + ' '.utf8Size, rfl, ?_⟩
  rw [List.singleton_append, scanOnto, if_pos (by decide)]
  simp

/-- One lexeme is read where the text is cut. -/
theorem ofCut {c : Char} {t : Token} (start : Text.isSeparator c = false)
    (cut : Token.cut c (cs ++ rest) = ⟨t, c :: cs, rest⟩) :
    Scans (c :: cs) rest [(t, String.ofList (c :: cs))] := by
  intro found offset
  refine ⟨[{ token := t, text := String.ofList (c :: cs),
             span := ⟨offset, offset + Text.byteLength (c :: cs)⟩ }],
    offset + Text.byteLength (c :: cs), rfl, ?_⟩
  rw [List.cons_append, scanOnto, start, if_neg Bool.false_ne_true, cut]
  simp

theorem opening : Scans ['('] rest [(.opening, "(")] := ofCut rfl rfl

theorem closing : Scans [')'] rest [(.closing, ")")] := ofCut rfl rfl

end Scans

/-! ## Atoms -/

theorem isAtomChar_separator {c : Char} (atom : Token.isAtomChar c = true) :
    Text.isSeparator c = false := by
  rw [Bool.eq_false_iff]
  intro separator
  simp only [Text.isSeparator, Bool.or_eq_true, beq_iff_eq] at separator
  rcases separator with (((rfl | rfl) | rfl) | rfl) | rfl <;> revert atom <;> decide

/-- An atom is cut off at the next delimiter. -/
theorem cut_atom {c : Char} {cs rest : List Char} (atom : ∀ d ∈ c :: cs, Token.isAtomChar d = true)
    (delimited : Delimited rest) : Token.cut c (cs ++ rest) = ⟨.atom, c :: cs, rest⟩ := by
  have first := atom c List.mem_cons_self
  have others := fun d member => atom d (List.mem_cons_of_mem c member)
  have different : ∀ d, Token.isAtomChar d = false → c ≠ d := by
    rintro d notAtom rfl
    rw [first] at notAtom
    cases notAtom
  -- The text that follows is empty or begins with a character that is left there.
  have stop : rest.takeWhile Token.isAtomChar = [] ∧ rest.dropWhile Token.isAtomChar = rest := by
    cases rest with
    | nil => exact ⟨rfl, rfl⟩
    | cons d rest =>
        have notAtom := delimited d rfl
        simp [notAtom]
  unfold Token.cut
  rw [if_neg (different '(' (by decide)), if_neg (different ')' (by decide)),
    if_neg (different '\x27' (by decide)), if_neg (different '\x22' (by decide)),
    if_neg (different ';' (by decide)), if_pos first, List.takeWhile_append_of_pos others,
    List.dropWhile_append_of_pos others, stop.1, stop.2, List.append_nil]

theorem Scans.atom {cs rest : List Char} (some : cs ≠ [])
    (atom : ∀ d ∈ cs, Token.isAtomChar d = true) (delimited : Delimited rest) :
    Scans cs rest [(.atom, String.ofList cs)] := by
  cases cs with
  | nil => exact absurd rfl some
  | cons c cs =>
      exact .ofCut (isAtomChar_separator (atom c List.mem_cons_self)) (cut_atom atom delimited)

theorem cutString_taken (taken cs : List Char) :
    (Token.cutString taken cs).taken ++ (Token.cutString taken cs).rest = taken.reverse ++ cs ∧
      (Token.cutString taken cs).token ≠ .atom := by
  fun_induction Token.cutString taken cs with
  | case1 => simp
  | case2 => simp
  | case3 => simp
  | case4 => simp
  | case5 taken d ds _ _ ih => simpa using ih
  | case6 taken c cs _ _ ih => simpa using ih

/-- What is cut off is what the text begins with. -/
theorem cut_taken (c : Char) (cs : List Char) :
    (Token.cut c cs).taken ++ (Token.cut c cs).rest = c :: cs := by
  unfold Token.cut
  split
  · rfl
  split
  · rfl
  split
  · rfl
  split
  · exact (cutString_taken [c] cs).1
  split
  · simp [List.takeWhile_append_dropWhile]
  split
  · simp [List.takeWhile_append_dropWhile]
  · rfl

/-- Only characters of atoms are cut off as an atom. -/
theorem isAtomChar_of_cut {c : Char} {cs : List Char} (atom : (Token.cut c cs).token = .atom) :
    ∀ d ∈ (Token.cut c cs).taken, Token.isAtomChar d = true := by
  unfold Token.cut at atom ⊢
  split at atom
  · cases atom
  split at atom
  · cases atom
  split at atom
  · cases atom
  split at atom
  · exact absurd atom (cutString_taken [c] cs).2
  split at atom
  · cases atom
  split at atom
  · next first =>
    simp only [*, if_false, if_true]
    intro d member
    rcases List.mem_cons.1 member with rfl | later
    · exact first
    · exact List.mem_takeWhile_imp later
  · cases atom

/-- Scanning adds lexemes, none of which is longer than what is left of the text. -/
theorem scanOnto_adds (found : Array Lexeme) (offset : Nat) (cs : List Char) :
    ∃ more : List Lexeme, (scanOnto found offset cs).toList = found.toList ++ more ∧
      ∀ lexeme ∈ more, lexeme.text.toList.length ≤ cs.length := by
  -- Induction on the rest of the text, which every lexeme makes shorter.
  induction found, offset, cs using scanOnto.induct with
  | case1 found offset =>
      rw [scanOnto]
      exact ⟨[], by simp, fun _ member => nomatch member⟩
  | case2 found offset c cs separator ih =>
      rcases ih with ⟨more, step, bound⟩
      rw [scanOnto, if_pos separator]
      refine ⟨more, step, fun lexeme member => ?_⟩
      exact Nat.le_succ_of_le (bound lexeme member)
  | case3 found offset c cs separator stop lexeme ih =>
      rcases ih with ⟨more, step, bound⟩
      rw [scanOnto, if_neg separator]
      have whole := congrArg List.length (cut_taken c cs)
      rw [List.length_append] at whole
      refine ⟨lexeme :: more, ?_, fun other member => ?_⟩
      · rw [step]
        simp
      · rcases List.mem_cons.1 member with rfl | later
        · show (String.ofList (Token.cut c cs).taken).toList.length ≤ _
          rw [String.toList_ofList]
          omega
        · have := bound other later
          omega

/-- A text that is read as one atom consists of the characters of an atom. -/
theorem isAtomChar_of_scan {text : String} (one : (scan text).map key = [(.atom, text)]) :
    text.toList ≠ [] ∧ ∀ c ∈ text.toList, Token.isAtomChar c = true := by
  rcases whole : text.toList with _ | ⟨c, cs⟩
  · rw [scan, whole, scanOnto] at one
    cases one
  · refine ⟨List.cons_ne_nil c cs, ?_⟩
    rw [scan, whole, scanOnto] at one
    by_cases separator : Text.isSeparator c = true
    · -- Behind a separator no lexeme is as long as the text.
      rw [if_pos separator] at one
      rcases scanOnto_adds #[] (0 + c.utf8Size) cs with ⟨more, step, bound⟩
      rw [step] at one
      rcases more with _ | ⟨lexeme, more⟩
      · cases one
      · have short := bound lexeme List.mem_cons_self
        have same : lexeme.text = text := congrArg Prod.snd (List.cons.inj one).1
        rw [same, whole] at short
        exact absurd short (Nat.not_succ_le_self _)
    · rw [if_neg separator] at one
      simp only at one
      rcases scanOnto_adds (#[].push
        { token := (Token.cut c cs).token, text := String.ofList (Token.cut c cs).taken,
          span := ⟨0, 0 + Text.byteLength (Token.cut c cs).taken⟩ })
        (0 + Text.byteLength (Token.cut c cs).taken) (Token.cut c cs).rest with ⟨more, step, _⟩
      rw [step] at one
      have first := (List.cons.inj one).1
      have token : (Token.cut c cs).token = .atom := congrArg Prod.fst first
      have same : String.ofList (Token.cut c cs).taken = text := congrArg Prod.snd first
      -- The first lexeme is the whole text, so the cut has taken all of its characters.
      have taken : (Token.cut c cs).taken = c :: cs := by
        rw [← whole, ← same, String.toList_ofList]
      rw [← taken]
      exact isAtomChar_of_cut token

/-- A text is read as one atom exactly if it consists of the characters of an atom. -/
theorem scan_eq_atom_iff {text : String} : (scan text).map key = [(.atom, text)] ↔
    text.toList ≠ [] ∧ ∀ c ∈ text.toList, Token.isAtomChar c = true := by
  refine ⟨isAtomChar_of_scan, fun chars => ?_⟩
  have delimited : Delimited [] := fun c first => nomatch first
  rcases Scans.atom chars.1 chars.2 delimited #[] 0 with ⟨lexemes, offset, keys, step⟩
  rw [List.append_nil, scanOnto] at step
  unfold scan
  rw [step]
  simpa using keys

/-! ## Literals -/

/-- A character stands for itself in a literal, or a backslash and one more character do. -/
theorem escapeChar_cases (c : Char) :
    (Text.escapeChar c = [c] ∧ c ≠ '\x22' ∧ c ≠ '\\') ∨
      ∃ d, Text.escapeChar c = ['\\', d] ∧ d ≠ '\n' ∧ Text.escaped? d = some c := by
  unfold Text.escapeChar
  split
  · next same => exact .inr ⟨'\x22', rfl, by decide, by rw [same]; decide⟩
  split
  · next same => exact .inr ⟨'\\', rfl, by decide, by rw [same]; decide⟩
  split
  · next same => exact .inr ⟨'n', rfl, by decide, by rw [same]; decide⟩
  split
  · next same => exact .inr ⟨'t', rfl, by decide, by rw [same]; decide⟩
  split
  · next same => exact .inr ⟨'r', rfl, by decide, by rw [same]; decide⟩
  · next notQuote notEscape _ _ _ => exact .inl ⟨rfl, notQuote, notEscape⟩

/-- No escaped character ends a literal, and its closing quote does. -/
theorem cutString_escaped (taken cs rest : List Char) :
    Token.cutString taken (cs.flatMap Text.escapeChar ++ '\x22' :: rest) =
      ⟨.string, taken.reverse ++ cs.flatMap Text.escapeChar ++ ['\x22'], rest⟩ := by
  -- Induction on the characters of the text, each of which is escaped by itself.
  induction cs generalizing taken with
  | nil =>
      show Token.cutString taken ('\x22' :: rest) = _
      unfold Token.cutString
      simp
  | cons c cs ih =>
      rw [List.flatMap_cons, List.append_assoc]
      rcases escapeChar_cases c with ⟨self, notQuote, notEscape⟩ | ⟨d, escaped, notBreak, _⟩
      · rw [self, List.singleton_append]
        unfold Token.cutString
        rw [if_neg notQuote, if_neg notEscape, ih]
        simp
      · rw [escaped, List.cons_append, List.singleton_append]
        unfold Token.cutString
        rw [if_neg (by decide), if_pos rfl]
        simp only [notBreak, if_false]
        rw [ih]
        simp

theorem unescapeOnto_escaped (found cs : List Char) :
    Text.unescapeOnto found (cs.flatMap Text.escapeChar) = .ok (found.reverse ++ cs) := by
  induction cs generalizing found with
  | nil =>
      show Text.unescapeOnto found [] = _
      unfold Text.unescapeOnto
      simp
  | cons c cs ih =>
      rw [List.flatMap_cons]
      rcases escapeChar_cases c with ⟨self, _, notEscape⟩ | ⟨d, escaped, _, meant⟩
      · rw [self, List.singleton_append]
        unfold Text.unescapeOnto
        rw [if_neg notEscape, ih]
        simp
      · rw [escaped, List.cons_append, List.singleton_append]
        unfold Text.unescapeOnto
        rw [if_pos rfl]
        simp only [meant]
        rw [ih]
        simp

/-- Reading a literal undoes writing it, whatever the text. -/
theorem unquote_quoted (text : String) : Text.unquote (Text.quoted text) = .ok text := by
  -- What lies between the quotes is the text with its characters escaped.
  have content : ((Text.quoted text).toList.drop 1).dropLast =
      text.toList.flatMap Text.escapeChar := by
    unfold Text.quoted
    simp
  unfold Text.unquote
  simp only [content]
  rw [unescapeOnto_escaped]
  simp [Except.map]

theorem Scans.literal (text : String) (rest : List Char) :
    Scans (Text.quoted text).toList rest [(.string, Text.quoted text)] := by
  have chars : (Text.quoted text).toList =
      '\x22' :: (text.toList.flatMap Text.escapeChar ++ ['\x22']) := String.toList_ofList
  have whole : Text.quoted text =
      String.ofList ('\x22' :: (text.toList.flatMap Text.escapeChar ++ ['\x22'])) := rfl
  rw [chars, whole]
  refine .ofCut rfl ?_
  rw [List.append_assoc, List.singleton_append]
  exact cutString_escaped ['\x22'] text.toList rest

end Lexeme

end Lisplet
