import Lisplet.Proofs.Text.Lexing

/-!
# Cutting — the lexemes of a text that is cut at the end of a line

Apart from string literals no lexeme goes on over the end of a line. So what is found in some lines
does not depend on the lines that follow, up to a literal that is still open at their end: from its
opening quote on the text is scanned again when more of it is there.
-/

namespace Lisplet

/-! ## Lengths -/

namespace Text

theorem byteLength_cons (c : Char) (cs : List Char) :
    byteLength (c :: cs) = c.utf8Size + byteLength cs := by
  have shift (n : Nat) (cs : List Char) :
      cs.foldl (fun n c => n + c.utf8Size) n = n + cs.foldl (fun n c => n + c.utf8Size) 0 := by
    induction cs generalizing n with
    | nil => rfl
    | cons c cs ih =>
        rw [List.foldl_cons, List.foldl_cons, ih (n + _), ih (0 + _), Nat.zero_add, Nat.add_assoc]
  show (c :: cs).foldl (fun n c => n + c.utf8Size) 0 = _
  rw [List.foldl_cons, shift, Nat.zero_add]
  rfl

theorem byteLength_append (cs ds : List Char) :
    byteLength (cs ++ ds) = byteLength cs + byteLength ds := by
  induction cs with
  | nil => exact (Nat.zero_add _).symm
  | cons c cs ih => rw [List.cons_append, byteLength_cons, ih, byteLength_cons, Nat.add_assoc]

theorem byteLength_pos {cs : List Char} (some : cs ≠ []) : 0 < byteLength cs := by
  cases cs with
  | nil => exact absurd rfl some
  | cons c cs =>
      rw [byteLength_cons]
      have := c.utf8Size_pos
      omega

theorem byteLength_toList (s : String) : byteLength s.toList = s.utf8ByteSize := by
  have encoded (cs : List Char) : cs.utf8Encode.size = byteLength cs := by
    induction cs with
    | nil => rfl
    | cons c cs ih =>
        rw [List.utf8Encode_cons, ByteArray.size_append, List.utf8Encode_singleton,
          List.size_toByteArray, String.length_utf8EncodeChar, ih, byteLength_cons]
  rw [← encoded, ← String.toByteArray_ofList, String.ofList_toList, String.size_toByteArray]

end Text

open Text

/-- The stretch of text that lies `d` bytes further on. -/
def Text.Span.shift (d : Nat) (s : Span) : Span := ⟨s.start + d, s.stop + d⟩

/-! ## Ends of lines -/

/-- A text that ends with a line, or an empty one. -/
def EndsLine (cs : List Char) : Prop := ∀ c ∈ cs.getLast?, c = '\n'

namespace EndsLine

variable {c : Char} {cs ds : List Char}

theorem concat (cs : List Char) : EndsLine (cs ++ ['\n']) := by
  intro c last
  rw [List.getLast?_concat] at last
  cases last
  rfl

theorem of_append (ends : EndsLine (ds ++ cs)) : EndsLine cs := by
  intro c last
  refine ends c ?_
  rw [List.getLast?_append, Option.mem_def.1 last]
  rfl

theorem tail (ends : EndsLine (c :: cs)) : EndsLine cs :=
  of_append (show EndsLine ([c] ++ cs) from ends)

theorem ne_nil (ends : EndsLine (c :: cs)) (other : c ≠ '\n') : cs ≠ [] := by
  rintro rfl
  exact other (ends c rfl)

/-- What stops at the end of a line stops there whatever follows. -/
theorem takeWhile_append {p : Char → Bool} (stop : p '\n' = false) (ends : EndsLine cs)
    (some : cs ≠ []) (us : List Char) :
    (cs ++ us).takeWhile p = cs.takeWhile p ∧ (cs ++ us).dropWhile p = cs.dropWhile p ++ us ∧
      cs.dropWhile p ≠ [] := by
  induction cs with
  | nil => exact absurd rfl some
  | cons c cs ih =>
      rw [List.cons_append]
      by_cases goes : p c = true
      · have other : c ≠ '\n' := by
          rintro rfl
          rw [stop] at goes
          cases goes
        rcases ih ends.tail (ends.ne_nil other) with ⟨taken, left, more⟩
        simp [goes, taken, left, more]
      · simp [goes]

end EndsLine

/-! ## One lexeme -/

namespace Token

variable {taken cs : List Char} {c : Char}

/-- A cut with more text behind it. -/
def Cut.before (cut : Cut) (us : List Char) : Cut := { cut with rest := cut.rest ++ us }

theorem cutString_quote (taken cs : List Char) :
    cutString taken ('\x22' :: cs) = ⟨.string, ('\x22' :: taken).reverse, cs⟩ := by
  unfold cutString
  exact if_pos rfl

theorem cutString_break (taken cs : List Char) :
    cutString taken ('\\' :: '\n' :: cs) = ⟨.unclosed, taken.reverse, '\\' :: '\n' :: cs⟩ := by
  unfold cutString
  rfl

theorem cutString_escape {d : Char} (other : d ≠ '\n') (taken cs : List Char) :
    cutString taken ('\\' :: d :: cs) = cutString (d :: '\\' :: taken) cs := by
  conv => lhs; unfold cutString
  rw [if_neg (by decide), if_pos rfl]
  exact if_neg other

theorem cutString_char (notQuote : c ≠ '\x22') (notEscape : c ≠ '\\') (taken cs : List Char) :
    cutString taken (c :: cs) = cutString (c :: taken) cs := by
  conv => lhs; unfold cutString
  rw [if_neg notQuote, if_neg notEscape]

/-- Some lines end a literal of which `taken` has been read, or they leave it open. -/
theorem cutString_cases (taken : List Char) (ends : EndsLine cs) :
    ((cutString taken cs).rest ≠ [] ∧
      ∀ us, cutString taken (cs ++ us) = (cutString taken cs).before us) ∨
    ∀ us, cutString taken (cs ++ us) = cutString (cs.reverse ++ taken) us := by
  -- Induction along the literal, two characters at a time behind a backslash.
  fun_induction cutString taken cs with
  | case1 taken => exact .inr fun _ => rfl
  | case2 taken cs => exact .inl ⟨ends.ne_nil (by decide), fun us => cutString_quote taken _⟩
  | case3 taken _ => exact absurd rfl (ends.ne_nil (by decide))
  | case4 taken ds _ => exact .inl ⟨List.cons_ne_nil _ _, fun us => cutString_break taken _⟩
  | case5 taken d ds other _ ih =>
      have step (us : List Char) : cutString taken ('\\' :: d :: ds ++ us) =
          cutString (d :: '\\' :: taken) (ds ++ us) := cutString_escape other taken _
      rcases ih ends.tail.tail with ⟨more, same⟩ | opened
      · exact .inl ⟨more, fun us => (step us).trans (same us)⟩
      · refine .inr fun us => (step us).trans ((opened us).trans ?_)
        simp
  | case6 taken c cs notQuote notEscape ih =>
      have step (us : List Char) : cutString taken (c :: cs ++ us) =
          cutString (c :: taken) (cs ++ us) := cutString_char notQuote notEscape taken _
      rcases ih ends.tail with ⟨more, same⟩ | opened
      · exact .inl ⟨more, fun us => (step us).trans (same us)⟩
      · refine .inr fun us => (step us).trans ((opened us).trans ?_)
        simp

/-- Any other lexeme ends within the line it begins in. -/
theorem cut_before (ends : EndsLine (c :: cs)) (other : c ≠ '\n') (noString : c ≠ '\x22') :
    (cut c cs).rest ≠ [] ∧ ∀ us, cut c (cs ++ us) = (cut c cs).before us := by
  have some := ends.ne_nil other
  unfold cut
  simp only [if_neg noString]
  split
  · exact ⟨some, fun _ => rfl⟩
  split
  · exact ⟨some, fun _ => rfl⟩
  split
  · exact ⟨some, fun _ => rfl⟩
  split
  · have stops := ends.tail.takeWhile_append (p := fun d => d != '\n') rfl some
    refine ⟨(stops []).2.2, fun us => ?_⟩
    rw [(stops us).1, (stops us).2.1]
    rfl
  split
  · have stops := ends.tail.takeWhile_append (p := isAtomChar) (by decide) some
    refine ⟨(stops []).2.2, fun us => ?_⟩
    rw [(stops us).1, (stops us).2.1]
    rfl
  · exact ⟨some, fun _ => rfl⟩

end Token

namespace Lexeme

open Token

/-! ## All lexemes -/

/-- The lexeme that is cut off at a byte offset. -/
def ofCut (offset : Nat) (cut : Cut) : Lexeme where
  token := cut.token
  text := String.ofList cut.taken
  span := ⟨offset, offset + byteLength cut.taken⟩

theorem scanOnto_cut {c : Char} (start : Text.isSeparator c = false) (found : Array Lexeme)
    (offset : Nat) (cs : List Char) :
    scanOnto found offset (c :: cs) =
      scanOnto (found.push (ofCut offset (cut c cs))) (offset + byteLength (cut c cs).taken)
        (cut c cs).rest := by
  rw [scanOnto, start, if_neg Bool.false_ne_true]
  rfl

/-- The lexeme as it is found `d` bytes further on. -/
def shift (d : Nat) (l : Lexeme) : Lexeme := { l with span := l.span.shift d }

theorem scanOnto_found (first found : Array Lexeme) (offset : Nat) (cs : List Char) :
    scanOnto (first ++ found) offset cs = first ++ scanOnto found offset cs := by
  induction found, offset, cs using scanOnto.induct with
  | case1 found offset => rw [scanOnto, scanOnto]
  | case2 found offset c cs separator ih =>
      rw [scanOnto, if_pos separator, scanOnto, if_pos separator]
      exact ih
  | case3 found offset c cs separator stop lexeme ih =>
      have start : Text.isSeparator c = false := Bool.eq_false_iff.2 separator
      rw [scanOnto_cut start, scanOnto_cut start, ← Array.append_push]
      exact ih

/-- A text is cut into the same lexemes wherever it stands. -/
theorem scanOnto_shift (d : Nat) (found : Array Lexeme) (offset : Nat) (cs : List Char) :
    scanOnto (found.map (shift d)) (offset + d) cs =
      (scanOnto found offset cs).map (shift d) := by
  induction found, offset, cs using scanOnto.induct with
  | case1 found offset => rw [scanOnto, scanOnto]
  | case2 found offset c cs separator ih =>
      rw [scanOnto, if_pos separator, scanOnto, if_pos separator, Nat.add_right_comm]
      exact ih
  | case3 found offset c cs separator stop lexeme ih =>
      have start : Text.isSeparator c = false := Bool.eq_false_iff.2 separator
      have next : shift d (ofCut offset (cut c cs)) = ofCut (offset + d) (cut c cs) := by
        simp only [shift, ofCut, Span.shift, Nat.add_right_comm]
      rw [scanOnto_cut start, scanOnto_cut start, ← next, ← Array.map_push, Nat.add_right_comm]
      exact ih

/-- Up to their places the same lexemes are found wherever a text stands. -/
theorem scanOnto_adds_same (found found' : Array Lexeme) (offset offset' : Nat) (cs : List Char) :
    ∃ more more' : List Lexeme, (scanOnto found offset cs).toList = found.toList ++ more ∧
      (scanOnto found' offset' cs).toList = found'.toList ++ more' ∧
      more.map key = more'.map key := by
  have adds (found : Array Lexeme) (offset : Nat) :
      (scanOnto found offset cs).toList = found.toList ++ (scanOnto #[] offset cs).toList := by
    have added := scanOnto_found found #[] offset cs
    rw [Array.append_empty] at added
    rw [added, Array.toList_append]
  have keys (offset : Nat) : (scanOnto #[] offset cs).toList.map key =
      (scanOnto #[] 0 cs).toList.map key := by
    have moved := scanOnto_shift offset #[] 0 cs
    rw [Array.map_empty, Nat.zero_add] at moved
    rw [moved, Array.toList_map, List.map_map]
    rfl
  exact ⟨_, _, adds found offset, adds found' offset', (keys offset).trans (keys offset').symm⟩

/-- Wherever a text stands, the lexemes are found in it that are found at the beginning. -/
theorem keys_scanOnto (found : Array Lexeme) (offset : Nat) (s : String) :
    ∃ more : List Lexeme, (scanOnto found offset s.toList).toList = found.toList ++ more ∧
      more.map key = (scan s).map key := by
  rcases scanOnto_adds_same found #[] offset 0 s.toList with ⟨more, more', step, step', same⟩
  refine ⟨more, step, same.trans ?_⟩
  rw [scan, step']
  rfl

/--
What scanning leaves of some lines until more text is there: nothing, or a literal that is open at
their end, from its quote on.
-/
inductive Leftover : List Char → Prop where
  | nothing : Leftover []
  | literal {inside : List Char} :
      (∀ us, cutString ['\x22'] (inside ++ us) = cutString (inside.reverse ++ ['\x22']) us) →
        Leftover ('\x22' :: inside)

/-- `settled` are the lexemes in some lines from a byte offset on that no more text can change. -/
structure Settles (offset : Nat) (cs : List Char) (settled : List Lexeme) (offset' : Nat)
    (left : List Char) : Prop where
  leftover : Leftover left
  length_eq : offset' + byteLength left = offset + byteLength cs
  /-- A literal without an end among them stops before the text does. -/
  unclosed : ∀ l ∈ settled, l.token = .unclosed → l.span.stop < offset + byteLength cs
  scanOnto_eq : ∀ found us,
    scanOnto found offset (cs ++ us) = scanOnto (found ++ settled.toArray) offset' (left ++ us)

/-- A first lexeme that no more text can change is settled. -/
theorem Settles.cons {c : Char} {offset offset' : Nat} {cs left : List Char}
    {settled : List Lexeme} (start : Text.isSeparator c = false) (more : (cut c cs).rest ≠ [])
    (same : ∀ us, cut c (cs ++ us) = (cut c cs).before us)
    (rest : Settles (offset + byteLength (cut c cs).taken) (cut c cs).rest settled offset' left) :
    Settles offset (c :: cs) (ofCut offset (cut c cs) :: settled) offset' left := by
  have lengths : byteLength (c :: cs) =
      byteLength (cut c cs).taken + byteLength (cut c cs).rest := by
    rw [← byteLength_append, cut_taken]
  refine ⟨rest.leftover, ?_, ?_, fun found us => ?_⟩
  · rw [rest.length_eq, lengths, Nat.add_assoc]
  · intro l member unclosed
    rcases List.mem_cons.1 member with rfl | later
    · have := byteLength_pos more
      show offset + byteLength (cut c cs).taken < _
      omega
    · have := rest.unclosed l later unclosed
      omega
  · rw [List.cons_append, scanOnto_cut start, same us]
    refine (rest.scanOnto_eq _ us).trans ?_
    simp [Cut.before, ofCut]

theorem exists_settles {cs : List Char} (ends : EndsLine cs) (offset : Nat) :
    ∃ settled offset' left, Settles offset cs settled offset' left := by
  -- Induction on the text that is left after each lexeme.
  induction length : cs.length using Nat.strongRecOn generalizing cs offset with
  | ind n ih =>
      cases cs with
      | nil => exact ⟨[], offset, [], .nothing, rfl, nofun, fun found us => by simp⟩
      | cons c cs =>
          cases separator : Text.isSeparator c with
          | true =>
              rcases ih cs.length (by simp [← length]) ends.tail (offset + c.utf8Size) rfl with
                ⟨settled, offset', left, settles⟩
              refine ⟨settled, offset', left, settles.leftover, ?_, ?_, fun found us => ?_⟩
              · rw [settles.length_eq, byteLength_cons, Nat.add_assoc]
              · intro l member unclosed
                have := settles.unclosed l member unclosed
                rwa [byteLength_cons, ← Nat.add_assoc]
              · rw [List.cons_append, scanOnto, if_pos separator, settles.scanOnto_eq]
          | false =>
              have other : c ≠ '\n' := by
                rintro rfl
                cases separator
              -- With something behind the first lexeme that is left, the others follow.
              have onward (more : (cut c cs).rest ≠ [])
                  (same : ∀ us, cut c (cs ++ us) = (cut c cs).before us) :
                  ∃ settled offset' left, Settles offset (c :: cs) settled offset' left := by
                have left : EndsLine (cut c cs).rest := by
                  rw [← cut_taken] at ends
                  exact ends.of_append
                rcases ih _ (length ▸ length_cut_lt c cs) left
                  (offset + byteLength (cut c cs).taken) rfl with ⟨settled, offset', left, settles⟩
                exact ⟨_, offset', left, .cons separator more same settles⟩
              -- Only a literal can be open at the end of the last line.
              by_cases string : c = '\x22'
              · subst string
                rcases cutString_cases ['\x22'] ends.tail with ⟨more, same⟩ | opened
                · exact onward more same
                · refine ⟨[], offset, '\x22' :: cs, .literal opened, rfl, nofun, fun found us => ?_⟩
                  simp
              · rcases cut_before ends other string with ⟨more, same⟩
                exact onward more same

/-! ## Source texts -/

/-- The lexemes among some that are no comments. -/
abbrev uncommented (ls : List Lexeme) : List Lexeme := ls.filter fun l => l.token != .comment

/-- Comments have to be dropped in the same places. -/
theorem uncommented_keys {ls ls' : List Lexeme} (same : ls.map key = ls'.map key) :
    (uncommented ls).map key = (uncommented ls').map key := by
  have drop (ls : List Lexeme) : (uncommented ls).map key =
      (ls.map key).filter fun k => k.1 != .comment := by
    rw [List.filter_map]
    rfl
  rw [drop, drop, same]

/--
`settled` are the lexemes of some lines that no further text can change, `last` is the literal that
is open at their end.
-/
structure Breaks (s : String) (settled : List Lexeme) (last : Option Lexeme) : Prop where
  meaningful_eq : meaningful s = settled ++ last.toList
  unclosed : ∀ l ∈ settled, l.token = .unclosed → l.span.stop < s.utf8ByteSize
  last_unclosed : ∀ l ∈ last, l.token = .unclosed ∧ l.span.stop = s.utf8ByteSize
  onward : ∀ u, ∃ more, meaningful (s ++ u) = settled ++ more ∧
    (last = none → more.map key = (meaningful u).map key)
  /-- A literal can be closed, and something put behind it that is no lexeme. -/
  interrupted : ∃ u words stray, meaningful (s ++ u) = settled ++ (words ++ [stray]) ∧
    (∀ w ∈ words, w.token = .string) ∧ stray.token = .stray

/-- A character with which no lexeme starts. -/
theorem scanOnto_stray (found : Array Lexeme) (offset : Nat) :
    ∃ l, l.token = .stray ∧
      (scanOnto found offset ['\u00a0']).toList = found.toList ++ [l] := by
  have whole : cut '\u00a0' [] = ⟨.stray, ['\u00a0'], []⟩ := by rfl
  refine ⟨ofCut offset (cut '\u00a0' []), ?_, ?_⟩
  · rw [whole]
    rfl
  · rw [scanOnto_cut (by decide), whole]
    simp [scanOnto]

/-- An open literal goes on to the end of the text. -/
theorem scanOnto_open {inside : List Char}
    (opened : ∀ us, cutString ['\x22'] (inside ++ us) = cutString (inside.reverse ++ ['\x22']) us)
    (found : Array Lexeme) (offset : Nat) :
    ∃ l, l.token = .unclosed ∧ l.span.stop = offset + byteLength ('\x22' :: inside) ∧
      (scanOnto found offset ('\x22' :: inside)).toList = found.toList ++ [l] := by
  have whole : cut '\x22' inside = ⟨.unclosed, '\x22' :: inside, []⟩ := by
    show cutString ['\x22'] inside = _
    rw [← List.append_nil inside, opened]
    simp [cutString]
  refine ⟨ofCut offset (cut '\x22' inside), ?_, ?_, ?_⟩
  · rw [whole]
    rfl
  · rw [whole]
    rfl
  · rw [scanOnto_cut (by decide), whole]
    simp [scanOnto]

/-- A quote closes it, and scanning goes on behind the quote. -/
theorem scanOnto_closed {inside : List Char}
    (opened : ∀ us, cutString ['\x22'] (inside ++ us) = cutString (inside.reverse ++ ['\x22']) us)
    (found : Array Lexeme) (offset : Nat) (cs : List Char) :
    ∃ l offset', l.token = .string ∧
      scanOnto found offset ('\x22' :: inside ++ '\x22' :: cs) =
        scanOnto (found.push l) offset' cs := by
  have whole : cut '\x22' (inside ++ '\x22' :: cs) =
      ⟨.string, '\x22' :: (inside ++ ['\x22']), cs⟩ := by
    show cutString ['\x22'] (inside ++ '\x22' :: cs) = _
    rw [opened, cutString_quote]
    simp
  refine ⟨ofCut offset ⟨.string, '\x22' :: (inside ++ ['\x22']), cs⟩,
    offset + byteLength ('\x22' :: (inside ++ ['\x22'])), rfl, ?_⟩
  rw [List.cons_append, scanOnto_cut (by decide), whole]

/-- Behind each of its lines a text can be broken off. -/
theorem exists_breaks {s : String} (ends : EndsLine s.toList) :
    ∃ settled last, Breaks s settled last := by
  rcases exists_settles ends 0 with ⟨settled, offset, left, settles⟩
  have size : offset + byteLength left = s.utf8ByteSize := by
    rw [settles.length_eq, Nat.zero_add, byteLength_toList]
  have scanned (u : String) : meaningful (s ++ u) =
      uncommented (scanOnto settled.toArray offset (left ++ u.toList)).toList := by
    rw [meaningful, scan, String.toList_append, settles.scanOnto_eq, Array.empty_append]
  have unclosed : ∀ l ∈ uncommented settled, l.token = .unclosed →
      l.span.stop < s.utf8ByteSize := by
    intro l member open'
    have := settles.unclosed l (List.mem_filter.1 member).1 open'
    rwa [Nat.zero_add, byteLength_toList] at this
  have alone := scanned ""
  rw [String.append_empty, String.toList_empty, List.append_nil] at alone
  cases settles.leftover with
  | nothing =>
      refine ⟨uncommented settled, none, ?_, unclosed, by simp, fun u => ?_, ?_⟩
      · rw [alone, scanOnto, Option.toList_none, List.append_nil]
      · rcases keys_scanOnto settled.toArray offset u with ⟨more, added, same⟩
        refine ⟨uncommented more, ?_, fun _ => uncommented_keys same⟩
        rw [scanned, List.nil_append, added]
        exact List.filter_append ..
      -- A no-break space is no separator, and begins no lexeme.
      · rcases scanOnto_stray settled.toArray offset with ⟨stray, token, added⟩
        refine ⟨"\u00a0", [], stray, ?_, List.forall_mem_nil _, token⟩
        rw [scanned]
        refine (congrArg uncommented added).trans ?_
        simp [uncommented, token]
  | @literal inside opened =>
      rcases scanOnto_open opened settled.toArray offset with ⟨l, token, stop, added⟩
      refine ⟨uncommented settled, some l, ?_, unclosed, ?_, fun u => ?_, ?_⟩
      · rw [alone, added]
        simp [uncommented, token]
      · rintro _ ⟨⟩
        exact ⟨token, stop.trans size⟩
      · rcases keys_scanOnto settled.toArray offset (String.ofList ('\x22' :: inside ++ u.toList))
          with ⟨more, added, _⟩
        refine ⟨uncommented more, ?_, by simp⟩
        rw [String.toList_ofList] at added
        rw [scanned, added]
        exact List.filter_append ..
      -- The same behind a quote that ends the literal.
      · rcases scanOnto_closed opened settled.toArray offset ['\u00a0'] with
          ⟨word, offset', isString, closed⟩
        rcases scanOnto_stray (settled.toArray.push word) offset' with ⟨stray, isStray, added⟩
        refine ⟨"\x22\u00a0", [word], stray, ?_, ?_, isStray⟩
        · rw [scanned]
          refine (congrArg (fun ls => uncommented ls.toList) closed).trans ?_
          rw [added]
          simp [uncommented, isString, isStray]
        · exact List.forall_mem_singleton.2 isString

end Lexeme

end Lisplet
