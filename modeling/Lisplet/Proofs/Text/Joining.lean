import Lisplet.Proofs.Text.Cutting

/-!
# Joining — the lexemes of two texts with a line feed between them

No lexeme but a string literal goes on over the end of a line. So if no literal is open at the end
of a text, then what follows behind a line feed changes none of its lexemes, and is cut into
lexemes as it is by itself; only their places are further on.
-/

namespace Lisplet

open Text

/-! ## In front of a line feed -/

namespace Token

variable {c : Char} {taken cs : List Char}

theorem takeWhile_lineFeed {p : Char → Bool} (stop : p '\n' = false) (cs us : List Char) :
    (cs ++ '\n' :: us).takeWhile p = cs.takeWhile p ∧
      (cs ++ '\n' :: us).dropWhile p = cs.dropWhile p ++ '\n' :: us := by
  induction cs with
  | nil => simp [stop]
  | cons c cs ih =>
      cases goes : p c with
      | true => simp [goes, ih]
      | false => simp [goes]

/-- A literal that ends does so whatever follows. -/
theorem cutString_lineFeed (closed : (cutString taken cs).token ≠ .unclosed) (us : List Char) :
    cutString taken (cs ++ '\n' :: us) = (cutString taken cs).before ('\n' :: us) := by
  -- Induction along the literal, two characters at a time behind a backslash.
  fun_induction cutString taken cs with
  | case1 taken => exact absurd rfl closed
  | case2 taken cs => exact cutString_quote taken _
  | case3 taken _ => exact absurd rfl closed
  | case4 taken ds _ => exact absurd rfl closed
  | case5 taken d ds other _ ih =>
      have step : cutString taken ('\\' :: d :: ds ++ '\n' :: us) =
          cutString (d :: '\\' :: taken) (ds ++ '\n' :: us) := cutString_escape other taken _
      exact step.trans (ih closed)
  | case6 taken c cs notQuote notEscape ih =>
      have step : cutString taken (c :: cs ++ '\n' :: us) =
          cutString (c :: taken) (cs ++ '\n' :: us) := cutString_char notQuote notEscape taken _
      exact step.trans (ih closed)

theorem cut_lineFeed (closed : (cut c cs).token ≠ .unclosed) (us : List Char) :
    cut c (cs ++ '\n' :: us) = (cut c cs).before ('\n' :: us) := by
  unfold cut at closed ⊢
  split
  · rfl
  split
  · rfl
  split
  · rfl
  split
  · next isQuote =>
    subst isQuote
    exact cutString_lineFeed closed us
  split
  · rcases takeWhile_lineFeed (p := fun d => d != '\n') rfl cs us with ⟨taken, left⟩
    rw [taken, left]
    rfl
  split
  · rcases takeWhile_lineFeed (p := isAtomChar) (by decide) cs us with ⟨taken, left⟩
    rw [taken, left]
    rfl
  · rfl

end Token

/-! ## Behind a line feed -/

namespace Lexeme

open Token

/-- Behind a line feed a text is scanned anew, unless a literal is left open in front of it. -/
theorem scanOnto_lineFeed {found : Array Lexeme} {offset : Nat} {cs : List Char}
    (closed : ∀ l ∈ scanOnto found offset cs, l.token ≠ .unclosed) (us : List Char) :
    scanOnto found offset (cs ++ '\n' :: us) =
      scanOnto (scanOnto found offset cs) (offset + byteLength cs + 1) us := by
  induction found, offset, cs using scanOnto.induct with
  | case1 found offset =>
      have all : scanOnto found offset [] = found := by rw [scanOnto]
      have separator : Text.isSeparator '\n' = true := by decide
      rw [List.nil_append, all, scanOnto, if_pos separator]
      rfl
  | case2 found offset c cs separator ih =>
      rw [scanOnto, if_pos separator] at closed
      rw [List.cons_append, scanOnto, if_pos separator, ih closed, scanOnto, if_pos separator,
        byteLength_cons, Nat.add_assoc offset]
  | case3 found offset c cs separator stop lexeme ih =>
      have start : Text.isSeparator c = false := Bool.eq_false_iff.2 separator
      have lengths : byteLength (c :: cs) =
          byteLength (cut c cs).taken + byteLength (cut c cs).rest := by
        rw [← byteLength_append, cut_taken]
      rw [scanOnto_cut start] at closed
      have ended : (cut c cs).token ≠ .unclosed := by
        refine closed (ofCut offset (cut c cs)) ?_
        have first := scanOnto_found (found.push (ofCut offset (cut c cs))) #[]
          (offset + byteLength (cut c cs).taken) (cut c cs).rest
        rw [Array.append_empty] at first
        rw [first]
        simp
      rw [List.cons_append, scanOnto_cut start, scanOnto_cut start, cut_lineFeed ended, lengths,
        ← Nat.add_assoc]
      exact ih closed

/-- Two texts with a line feed between them have the lexemes of the one and those of the other. -/
theorem meaningful_join {s : String} (closed : ∀ l ∈ meaningful s, l.token ≠ .unclosed)
    (u : String) :
    meaningful (s ++ "\n" ++ u) =
      meaningful s ++ (meaningful u).map (shift (s.utf8ByteSize + 1)) := by
  have all : ∀ l ∈ scanOnto #[] 0 s.toList, l.token ≠ .unclosed := by
    intro l member unclosed
    refine closed l (List.mem_filter.2 ⟨Array.mem_toList_iff.2 member, ?_⟩) unclosed
    rw [unclosed]
    rfl
  have text : (s ++ "\n" ++ u).toList = s.toList ++ '\n' :: u.toList := by
    rw [String.toList_append, String.toList_append, List.append_assoc]
    rfl
  have scanned : scan (s ++ "\n" ++ u) =
      scan s ++ (scan u).map (shift (s.utf8ByteSize + 1)) := by
    have whole := scanOnto_found (scanOnto #[] 0 s.toList) #[] (s.utf8ByteSize + 1) u.toList
    have moved := scanOnto_shift (s.utf8ByteSize + 1) #[] 0 u.toList
    rw [Array.append_empty] at whole
    rw [Array.map_empty, Nat.zero_add] at moved
    rw [scan, text, scanOnto_lineFeed all, Nat.zero_add, byteLength_toList, whole, moved,
      Array.toList_append, Array.toList_map]
    rfl
  rw [meaningful, scanned, List.filter_append, List.filter_map]
  rfl

end Lexeme

end Lisplet
