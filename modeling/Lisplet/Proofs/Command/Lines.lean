import Lisplet.Command.Stream

/-!
# Lines — the lines of an input that is text

Lines are cut in the bytes of an input. A line feed is a byte of no other character, so the lines of
a text are pieces of it, each of them text again and all but the last with a line feed at its end.
-/

namespace Lisplet

namespace InputLine

/-- The lines of a text, of the first of which the characters `cs` have been read. -/
def pieces (cs : List Char) : List Char → List (List Char)
  | [] => if cs.isEmpty then [] else [cs]
  | d :: ds => if d = '\n' then (cs ++ ['\n']) :: pieces [] ds else pieces (cs ++ [d]) ds

theorem flatten_pieces (cs ds : List Char) : (pieces cs ds).flatten = cs ++ ds := by
  induction ds generalizing cs with
  | nil =>
      rw [pieces]
      split
      · next empty => simp [List.isEmpty_iff.1 empty]
      · simp
  | cons d ds ih =>
      rw [pieces]
      split
      · next feed => simp [ih, feed]
      · simp [ih]

/-- Every line but the last ends with a line feed. -/
theorem exists_of_mem_dropLast (cs ds : List Char) :
    ∀ line ∈ (pieces cs ds).dropLast, ∃ before, line = before ++ ['\n'] := by
  induction ds generalizing cs with
  | nil =>
      rw [pieces]
      split
      · exact List.forall_mem_nil _
      · exact List.forall_mem_nil _
  | cons d ds ih =>
      rw [pieces]
      split
      · rcases later : pieces [] ds with _ | ⟨line, lines⟩
        · exact List.forall_mem_nil _
        · rw [List.dropLast_cons_cons, ← later]
          exact List.forall_mem_cons.2 ⟨⟨cs, rfl⟩, ih []⟩
      · exact ih (cs ++ [d])

/-! ## Bytes -/

theorem ne_of_mem_utf8EncodeChar {c : Char} (other : c ≠ '\n') :
    ∀ b ∈ String.utf8EncodeChar c, b ≠ 10 := by
  have differs : c.val.toNat ≠ 10 := fun same => other (Char.ext (UInt32.toNat_inj.1 same))
  have notFeed {n : Nat} (n_ne : n % 256 ≠ 10) : UInt8.ofNat n ≠ 10 := by
    intro same
    have := congrArg UInt8.toNat same
    exact n_ne (by simpa using this)
  unfold String.utf8EncodeChar
  dsimp only
  -- Of several bytes each is greater than all that stand alone.
  split
  · exact List.forall_mem_singleton.2 (notFeed (by omega))
  split
  · exact List.forall_mem_cons.2 ⟨notFeed (by omega),
      List.forall_mem_singleton.2 (notFeed (by omega))⟩
  split
  · exact List.forall_mem_cons.2 ⟨notFeed (by omega), List.forall_mem_cons.2
      ⟨notFeed (by omega), List.forall_mem_singleton.2 (notFeed (by omega))⟩⟩
  · exact List.forall_mem_cons.2 ⟨notFeed (by omega), List.forall_mem_cons.2
      ⟨notFeed (by omega), List.forall_mem_cons.2
        ⟨notFeed (by omega), List.forall_mem_singleton.2 (notFeed (by omega))⟩⟩⟩

/-- Bytes without a line feed are added to the line. -/
theorem cutOnto_append {bs : List UInt8} (noFeed : ∀ b ∈ bs, b ≠ 10) (found : Array InputLine)
    (taken : ByteArray) (more : List UInt8) :
    cutOnto found taken (bs ++ more) = cutOnto found (taken ++ bs.toByteArray) more := by
  induction bs generalizing taken with
  | nil =>
      have whole : taken ++ ([] : List UInt8).toByteArray = taken := by
        apply ByteArray.ext
        simp
      rw [whole, List.nil_append]
  | cons b bs ih =>
      rcases List.forall_mem_cons.1 noFeed with ⟨first, others⟩
      have whole : taken.push b ++ bs.toByteArray = taken ++ (b :: bs).toByteArray := by
        apply ByteArray.ext
        simp
      rw [List.cons_append, cutOnto, if_neg first, ih others, whole]

theorem ofBytes_utf8Encode (cs : List Char) : ofBytes cs.utf8Encode = .text (String.ofList cs) := by
  unfold ofBytes String.fromUTF8?
  rw [dif_pos ByteArray.isValidUTF8_utf8Encode]
  rfl

theorem toList_utf8Encode_cons (d : Char) (ds : List Char) :
    (d :: ds).utf8Encode.data.toList = String.utf8EncodeChar d ++ ds.utf8Encode.data.toList := by
  rw [List.utf8Encode_cons, ByteArray.data_append, Array.toList_append, List.utf8Encode_singleton,
    List.toList_data_toByteArray]

/-- What is cut in the bytes of a text are its lines. -/
theorem cutOnto_utf8Encode (found : Array InputLine) (cs ds : List Char) :
    (cutOnto found cs.utf8Encode ds.utf8Encode.data.toList).toList =
      found.toList ++ (pieces cs ds).map fun line => .text (String.ofList line) := by
  -- Induction on the characters that are left; all bytes of one are taken together.
  induction ds generalizing found cs with
  | nil =>
      have ends : ([] : List Char).utf8Encode.data.toList = [] := by simp
      rw [ends, cutOnto, pieces]
      cases cs with
      | nil =>
          rw [if_pos (by simp [ByteArray.isEmpty])]
          exact (List.append_nil _).symm
      | cons c cs =>
          rw [if_neg (by simp [ByteArray.isEmpty]), if_neg (by simp), Array.toList_push,
            ofBytes_utf8Encode, List.map_singleton]
  | cons d ds ih =>
      rw [toList_utf8Encode_cons, pieces]
      by_cases feed : d = '\n'
      · subst feed
        have whole : cs.utf8Encode.push 10 = (cs ++ ['\n']).utf8Encode := by
          rw [List.utf8Encode_append, List.utf8Encode_singleton]
          apply ByteArray.ext
          simp [String.utf8EncodeChar]
        have none : ByteArray.empty = ([] : List Char).utf8Encode := by simp
        show (cutOnto found cs.utf8Encode (10 :: ds.utf8Encode.data.toList)).toList = _
        rw [cutOnto, if_pos rfl, if_pos rfl, whole, none, ih, ofBytes_utf8Encode]
        simp
      · rw [cutOnto_append (ne_of_mem_utf8EncodeChar feed), if_neg feed,
          ← List.utf8Encode_singleton, ← List.utf8Encode_append, ih]

/-- The lines of a text are texts that make it up. -/
theorem exists_lines (s : String) :
    ∃ lines : List String, all s.toUTF8 = lines.map .text ∧ String.join lines = s ∧
      ∀ line ∈ lines.dropLast, ∃ before, line.toList = before ++ ['\n'] := by
  refine ⟨(pieces [] s.toList).map String.ofList, ?_, ?_, ?_⟩
  · have bytes : s.toUTF8 = s.toList.utf8Encode := by
      rw [← String.toByteArray_ofList, String.ofList_toList]
      rfl
    have none : ByteArray.empty = ([] : List Char).utf8Encode := by simp
    rw [all, bytes, none, cutOnto_utf8Encode, List.map_map]
    rfl
  · rw [← String.toList_inj, String.toList_join, List.flatMap_map]
    simp only [String.toList_ofList]
    rw [List.flatMap_id', flatten_pieces, List.nil_append]
  · rw [← List.map_dropLast]
    intro line member
    rcases List.mem_map.1 member with ⟨cs, inside, rfl⟩
    rw [String.toList_ofList]
    exact exists_of_mem_dropLast [] s.toList cs inside

end InputLine

end Lisplet
