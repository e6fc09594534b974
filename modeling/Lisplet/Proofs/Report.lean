import Lisplet.Proofs.Text.Cutting
import Lisplet.Report

/-!
# Reports — the characters that are underlined

A span tells a stretch of text by its bytes, a label by its characters. What a label covers follows
from how many characters begin before a byte (`lt_charOffset_iff`): if any characters begin in a
span, then its label covers these and no others, whatever characters the span cuts
through (`mem_label_iff`). If the span begins and ends between characters, these are the
characters of the span, so span and label tell the same stretch of text (`Label.Marks`).
-/

namespace Lisplet

open Text

/-! ## Where characters begin -/

namespace Text

/-- The byte at which the character at an index begins, or at which the text ends. -/
def byteOffset (source : String) (index : Nat) : Nat := byteLength (source.toList.take index)

variable {source before after : String} {i j : Nat}

theorem byteOffset_eq_add (le : i ≤ j) : byteOffset source j =
    byteOffset source i + byteLength ((source.toList.take j).drop i) := by
  have first : (source.toList.take j).take i = source.toList.take i := by
    rw [List.take_take, Nat.min_eq_left le]
  calc
    byteOffset source j
        = byteLength ((source.toList.take j).take i ++ (source.toList.take j).drop i) := by
          rw [List.take_append_drop, byteOffset]
    _ = byteOffset source i + byteLength ((source.toList.take j).drop i) := by
          rw [byteLength_append, first, byteOffset]

theorem byteOffset_le (le : i ≤ j) : byteOffset source i ≤ byteOffset source j := by
  rw [byteOffset_eq_add le]
  exact Nat.le_add_right _ _

/-- Every character has a byte, so a later one begins at a later byte. -/
theorem byteOffset_lt (lt : i < j) (inside : i < source.length) :
    byteOffset source i < byteOffset source j := by
  have between : (source.toList.take j).drop i ≠ [] := by
    intro none
    have length := congrArg List.length none
    rw [List.length_drop, List.length_take, String.length_toList, List.length_nil] at length
    omega
  rw [byteOffset_eq_add (Nat.le_of_lt lt)]
  exact Nat.lt_add_of_pos_right (byteLength_pos between)

theorem byteOffset_lt_iff (inside : j ≤ source.length) :
    byteOffset source i < byteOffset source j ↔ i < j := by
  constructor
  · intro earlier
    by_contra notBefore
    have later : byteOffset source j ≤ byteOffset source i := byteOffset_le (Nat.not_lt.1 notBefore)
    omega
  · intro lt
    exact byteOffset_lt lt (Nat.lt_of_lt_of_le lt inside)

theorem byteOffset_append (before after : String) :
    byteOffset (before ++ after) before.length = before.utf8ByteSize := by
  have whole : (before ++ after).toList.take before.length = before.toList := by
    rw [String.toList_append, ← String.length_toList, List.take_left]
  unfold byteOffset
  rw [whole, byteLength_toList]

end Text

namespace Report

/-! ## Counting characters -/

section Counting

variable {source : String} {byte count position i : Nat} {cs : List Char}

theorem le_charOffsetFrom (byte count position : Nat) (cs : List Char) :
    count ≤ charOffsetFrom byte count position cs := by
  induction cs generalizing count position with
  | nil => exact Nat.le_refl _
  | cons c cs ih =>
      unfold charOffsetFrom
      split
      · exact Nat.le_of_succ_le (ih (count + 1) (position + c.utf8Size))
      · exact Nat.le_refl _

/-- A character is counted if it begins before the byte. -/
theorem lt_charOffsetFrom_iff : count + i < charOffsetFrom byte count position cs ↔
    i < cs.length ∧ position + byteLength (cs.take i) < byte := by
  -- Induction on the text, of which the characters that are already counted have been taken off.
  induction cs generalizing count position i with
  | nil => simp [charOffsetFrom]
  | cons c cs ih =>
      by_cases begun : position < byte
      · have counts : charOffsetFrom byte count position (c :: cs) =
            charOffsetFrom byte (count + 1) (position + c.utf8Size) cs := if_pos begun
        rw [counts]
        cases i with
        | zero =>
            have first : count < charOffsetFrom byte (count + 1) (position + c.utf8Size) cs :=
              le_charOffsetFrom byte (count + 1) (position + c.utf8Size) cs
            simp [first, begun, byteLength]
        | succ i =>
            have later :
                count + 1 + i < charOffsetFrom byte (count + 1) (position + c.utf8Size) cs ↔
                  i < cs.length ∧ position + c.utf8Size + byteLength (cs.take i) < byte := ih
            rw [List.take_succ_cons, List.length_cons, byteLength_cons]
            omega
      · have stops : charOffsetFrom byte count position (c :: cs) = count := if_neg begun
        rw [stops]
        omega

theorem lt_charOffset_iff :
    i < charOffset source byte ↔ i < source.length ∧ byteOffset source i < byte := by
  have counted : 0 + i < charOffset source byte ↔
      i < source.toList.length ∧ 0 + byteOffset source i < byte := lt_charOffsetFrom_iff
  rwa [Nat.zero_add, Nat.zero_add, String.length_toList] at counted

theorem charOffset_le (source : String) (byte : Nat) : charOffset source byte ≤ source.length := by
  by_contra more
  have beyond := lt_charOffset_iff.1 (Nat.not_le.1 more)
  exact Nat.lt_irrefl _ beyond.1

end Counting

/-! ## Labels -/

instance : Membership Nat Label := ⟨fun l i => l.start ≤ i ∧ i < l.stop⟩

/--
A span and a label tell the same stretch of text, the one by the bytes and the other by the
characters in front of either end.
-/
def Label.Marks (l : Label) (source : String) (span : Span) : Prop :=
  ∃ before marked after : String, source = before ++ marked ++ after ∧
    span = ⟨before.utf8ByteSize, (before ++ marked).utf8ByteSize⟩ ∧
    l = ⟨before.length, (before ++ marked).length⟩

/-- A number, or the nearer of two bounds that it is not between. Bounds that are in the wrong
order are refused. -/
def clamp? (low high n : Nat) : Option Nat :=
  if low ≤ high then some (min (max n low) high) else none

/-- The label of a span, if the bounds between which its end is put are in order. -/
def label? (source : String) (span : Span) : Option Label :=
  let total := source.length
  let start := min (charOffset source span.start) total
  (clamp? start total (charOffset source span.stop)).map fun stop =>
    if start < stop then ⟨start, stop⟩
    else if start < total then ⟨start, start + 1⟩
    else ⟨start - 1, total⟩

section Labels

variable {source : String} {span : Span} {l l' : Label} {i : Nat}

theorem Label.mem_iff : i ∈ l ↔ l.start ≤ i ∧ i < l.stop := Iff.rfl

theorem Label.eq_of_mem_iff (some : l.start < l.stop) (same : ∀ i, i ∈ l ↔ i ∈ l') : l = l' := by
  simp only [Label.mem_iff] at same
  have first := same l.start
  have last := same (l.stop - 1)
  have first' := same l'.start
  have last' := same (l'.stop - 1)
  have starts : l.start = l'.start := by omega
  have stops : l.stop = l'.stop := by omega
  cases l
  cases l'
  simp_all

theorem clamp?_of_le {low high n : Nat} (ordered : low ≤ high) :
    clamp? low high n = some (min (max n low) high) := if_pos ordered

theorem label?_eq (source : String) (span : Span) :
    label? source span = some (label source span) := by
  have ordered : min (charOffset source span.start) source.length ≤ source.length :=
    Nat.min_le_right _ _
  unfold label?
  dsimp only
  rw [clamp?_of_le ordered]
  rfl

/-- The label lies in the text and is not empty, unless the text is. -/
theorem label_bounds (source : String) (span : Span) :
    (label source span).start ≤ (label source span).stop ∧
      (label source span).stop ≤ source.length ∧
      (0 < source.length → (label source span).start < (label source span).stop) := by
  unfold label
  dsimp only
  split
  · dsimp only
    omega
  split
  · dsimp only
    omega
  · dsimp only
    omega

/-- If any characters begin in a span, its label covers these and no others. -/
theorem mem_label_iff (some : ∃ i < source.length,
    span.start ≤ byteOffset source i ∧ byteOffset source i < span.stop) :
    i ∈ label source span ↔
      i < source.length ∧ span.start ≤ byteOffset source i ∧ byteOffset source i < span.stop := by
  -- One of these characters is counted up to the end and not up to the start, so the label is cut
  -- nowhere and has not to be widened.
  have counted : charOffset source span.start < charOffset source span.stop := by
    rcases some with ⟨j, inside, notBefore, before⟩
    have notCounted : ¬ j < charOffset source span.start := by
      intro earlier
      have := (lt_charOffset_iff.1 earlier).2
      omega
    have last : j < charOffset source span.stop := lt_charOffset_iff.2 ⟨inside, before⟩
    omega
  have covers : label source span =
      ⟨charOffset source span.start, charOffset source span.stop⟩ := by
    have low := charOffset_le source span.start
    have high := charOffset_le source span.stop
    unfold label
    dsimp only
    rw [Nat.min_eq_left low, Nat.max_eq_left (Nat.le_of_lt counted), Nat.min_eq_left high]
    exact if_pos counted
  have first : i < charOffset source span.start ↔
      i < source.length ∧ byteOffset source i < span.start := lt_charOffset_iff
  have last : i < charOffset source span.stop ↔
      i < source.length ∧ byteOffset source i < span.stop := lt_charOffset_iff
  rw [covers, Label.mem_iff]
  dsimp only
  omega

-- Both ends of the span are inside a character, and only one character begins between them.
example : label "aé€😀" ⟨2, 4⟩ = ⟨2, 3⟩ := by decide

theorem Label.Marks.mem_iff (marks : l.Marks source span) : i ∈ l ↔
    i < source.length ∧ span.start ≤ byteOffset source i ∧ byteOffset source i < span.stop := by
  rcases marks with ⟨before, marked, after, rfl, rfl, rfl⟩
  have inside : (before ++ marked).length ≤ (before ++ marked ++ after).length := by
    simp
  have starts : byteOffset (before ++ marked ++ after) before.length = before.utf8ByteSize := by
    rw [String.append_assoc, byteOffset_append]
  have stops := byteOffset_append (before ++ marked) after
  -- Characters begin at both ends, or the text ends there, so bytes are in the order of indices.
  have first : byteOffset (before ++ marked ++ after) i < before.utf8ByteSize ↔
      i < before.length := by
    rw [← starts]
    refine byteOffset_lt_iff (Nat.le_trans ?_ inside)
    simp
  have last : byteOffset (before ++ marked ++ after) i < (before ++ marked).utf8ByteSize ↔
      i < (before ++ marked).length := by
    rw [← stops]
    exact byteOffset_lt_iff inside
  rw [Label.mem_iff]
  dsimp only
  omega

/-- No label but that of a span tells the same stretch of text. -/
theorem label_of_marks (marks : l.Marks source span) (some : span.start < span.stop) :
    label source span = l := by
  have longer : l.start < l.stop := by
    rcases marks with ⟨before, marked, after, rfl, rfl, rfl⟩
    have bytes : 0 < marked.utf8ByteSize := by
      simpa using some
    have chars : marked ≠ "" := by
      rintro rfl
      exact Nat.lt_irrefl 0 bytes
    simpa [Nat.pos_iff_ne_zero] using chars
  -- Either label covers the characters that begin in the span, and they are not empty.
  have begins := marks.mem_iff.1 (Label.mem_iff.2 ⟨Nat.le_refl _, longer⟩)
  refine (Label.eq_of_mem_iff longer fun i => ?_).symm
  rw [marks.mem_iff, mem_label_iff ⟨l.start, begins⟩]

/-- Between two places between characters there is a stretch of text. -/
theorem exists_marks (some : span.start < span.stop)
    (first : (⟨span.start⟩ : String.Pos.Raw).IsValid source)
    (last : (⟨span.stop⟩ : String.Pos.Raw).IsValid source) : ∃ l : Label, l.Marks source span := by
  rcases String.Pos.Raw.isValid_iff_exists_append.1 first with ⟨before, rest, text, start⟩
  rcases String.Pos.Raw.isValid_iff_exists_append.1 last with ⟨upTo, after, text', stop⟩
  have startBytes : span.start = before.utf8ByteSize := congrArg String.Pos.Raw.byteIdx start
  have stopBytes : span.stop = upTo.utf8ByteSize := congrArg String.Pos.Raw.byteIdx stop
  have same : before.toList ++ rest.toList = upTo.toList ++ after.toList := by
    rw [← String.toList_append, ← String.toList_append, ← text, text']
  rcases List.append_eq_append_iff.1 same with ⟨marked, longer, _⟩ | ⟨more, shorter, _⟩
  · have upToEq : upTo = before ++ String.ofList marked := by
      rw [← String.toList_inj, longer, String.toList_append, String.toList_ofList]
    refine ⟨⟨before.length, upTo.length⟩, before, String.ofList marked, after, ?_, ?_, ?_⟩
    · rw [text', upToEq]
    · rw [← upToEq, ← startBytes, ← stopBytes]
    · rw [upToEq]
  · -- The span would end in front of its start.
    have bytes : before.utf8ByteSize = upTo.utf8ByteSize + byteLength more := by
      rw [← byteLength_toList, shorter, byteLength_append, byteLength_toList]
    omega

end Labels

/--
The end of a label is put between bounds that are in order, so there always is a label. It lies in
the text, and it is empty only if the text is. For a span that is not empty and begins and ends
between characters of the text, it is the one label that tells the same stretch of text.
-/
theorem label_tells_span (source : String) (span : Span) :
    label? source span = some (label source span) ∧
    (label source span).start ≤ (label source span).stop ∧
    (label source span).stop ≤ source.length ∧
    (source ≠ "" → (label source span).start < (label source span).stop) ∧
    (span.start < span.stop → (⟨span.start⟩ : String.Pos.Raw).IsValid source →
      (⟨span.stop⟩ : String.Pos.Raw).IsValid source →
        ∀ l : Label, l.Marks source span ↔ label source span = l) := by
  rcases label_bounds source span with ⟨ordered, inside, longer⟩
  refine ⟨label?_eq source span, ordered, inside, ?_, ?_⟩
  · intro nonempty
    have chars : 0 < source.length := by
      simpa [Nat.pos_iff_ne_zero] using nonempty
    exact longer chars
  · intro some first last l
    constructor
    · intro marks
      exact label_of_marks marks some
    · rintro rfl
      rcases exists_marks some first last with ⟨l, marks⟩
      rwa [label_of_marks marks some]

theorem label_tells_span_mixed :
    ("aé€😀" ≠ "" ∧ (1 : Nat) < 6 ∧ (⟨1⟩ : String.Pos.Raw).IsValid "aé€😀" ∧
      (⟨6⟩ : String.Pos.Raw).IsValid "aé€😀") ∧
    (label "aé€😀" ⟨1, 6⟩).start < (label "aé€😀" ⟨1, 6⟩).stop ∧
    (⟨1, 3⟩ : Label).Marks "aé€😀" ⟨1, 6⟩ := by
  have nonempty : "aé€😀" ≠ "" := by decide
  have first : (⟨1⟩ : String.Pos.Raw).IsValid "aé€😀" :=
    String.Pos.Raw.isValid_iff_exists_append.2 ⟨"a", "é€😀", by decide, by decide⟩
  have last : (⟨6⟩ : String.Pos.Raw).IsValid "aé€😀" :=
    String.Pos.Raw.isValid_iff_exists_append.2 ⟨"aé€", "😀", by decide, by decide⟩
  rcases label_tells_span "aé€😀" ⟨1, 6⟩ with ⟨_, _, _, longer, same⟩
  exact ⟨⟨nonempty, by decide, first, last⟩, longer nonempty,
    (same (by decide) first last ⟨1, 3⟩).2 (by decide)⟩

end Report

end Lisplet
