import Lisplet.Proofs.Text.Covering
import Lisplet.Reader

/-!
# Advancing — reading moves on through a text

A reader takes the lexemes of its text one after the other. Whatever comes of a call, and on
whatever heap, it has taken one at least unless it was at the end of the text; so it stands further
on, and a text is read to its end by as many calls as it has lexemes, and one more.
-/

namespace Lisplet

open Lexeme

namespace Reader

/--
The readers of a source text: one that stands at its beginning, and what a call leaves of another,
on whatever heap it is made and whatever comes of it.
-/
inductive Arises (source : String) : Reader → Prop where
  | start : Arises source (ofSource source)
  | read {r : Reader} (h : Heap) : Arises source r → Arises source (r.read h).reader

/-- The reader after so many calls, each with the heap it is made on. -/
def afterCalls (r : Reader) (heaps : Nat → Heap) : Nat → Reader
  | 0 => r
  | n + 1 => (r.read (heaps 0)).reader.afterCalls (fun i => heaps (i + 1)) n

/-- A reader of the text stands in front of its lexemes. -/
structure Faces (source : String) (r : Reader) : Prop where
  lexemes_suffix : r.lexemes <:+ meaningful source
  offset_le : ∀ l ∈ r.lexemes, r.offset ≤ l.span.start
  size_eq : r.size = source.utf8ByteSize

/-- How far a call has come: behind one of the lexemes, or to the end of the text. -/
inductive Comes (r : Reader) (lexemes : List Lexeme) : Reading → Prop where
  | behind {reading : Reading} {taken : List Lexeme} {l : Lexeme} :
      lexemes = taken ++ l :: reading.reader.lexemes → reading.reader.offset = l.span.stop →
      reading.reader.size = r.size → Comes r lexemes reading
  | ending {reading : Reading} : reading.reader.lexemes = [] → reading.reader.offset = r.size →
      reading.reader.size = r.size → Comes r lexemes reading

variable {source : String} {r : Reader} {h : Heap} {l : Lexeme}

theorem comes_takeAll (r : Reader) (stack : List OpenForm) (lexemes : List Lexeme) (h : Heap) :
    Comes r lexemes (r.takeAll stack lexemes h) := by
  induction lexemes generalizing stack h with
  | nil => exact .ending rfl rfl rfl
  | cons l lexemes ih =>
      unfold takeAll
      split
      · next stack h _ =>
        cases ih stack h with
        | @behind taken l' rest offset size =>
            have whole : l :: lexemes = (l :: taken) ++ l' :: _ := congrArg (l :: ·) rest
            exact .behind whole offset size
        | ending left offset size => exact .ending left offset size
      · exact .behind (List.nil_append _).symm rfl rfl
      · exact .behind (List.nil_append _).symm rfl rfl

theorem comes_read (r : Reader) (h : Heap) : Comes r r.lexemes (r.read h) := by
  have comes := comes_takeAll r [] r.lexemes h
  cases comes with
  | behind taken offset size => exact .behind taken offset size
  | ending left offset size => exact .ending left offset size

/-- Where no lexeme is left, there is nothing to read. -/
theorem outcome_of_lexemes_nil (left : r.lexemes = []) : (r.read h).outcome = .ok none := by
  unfold read
  rw [left]
  rfl

namespace Faces

theorem start (source : String) : Faces source (ofSource source) :=
  ⟨List.suffix_refl _, fun _ _ => Nat.zero_le _, rfl⟩

/-- The lexemes of a reader are slices of the text that follow one upon the other. -/
theorem ascending (s : Faces source r) :
    r.lexemes.Pairwise fun l l' => l.span.stop ≤ l'.span.start :=
  ((ascending_scan source).filter _).sublist s.lexemes_suffix.sublist

theorem isSlice (s : Faces source r) (member : l ∈ r.lexemes) : l.IsSlice source :=
  isSlice_of_mem_scan (List.mem_filter.1 (s.lexemes_suffix.subset member)).1

/-- A call that comes behind a lexeme leaves the lexemes behind that one. -/
theorem read (s : Faces source r) (h : Heap) : Faces source (r.read h).reader := by
  cases comes_read r h with
  | @behind taken l lexemes offset size =>
      have suffix : (r.read h).reader.lexemes <:+ r.lexemes :=
        ⟨taken ++ [l], by rw [lexemes, List.append_assoc]; rfl⟩
      have ascending := s.ascending
      rw [lexemes, List.pairwise_append] at ascending
      refine ⟨suffix.trans s.lexemes_suffix, fun l' member => ?_, size.trans s.size_eq⟩
      rw [offset]
      exact List.rel_of_pairwise_cons ascending.2.1 member
  | ending left offset size =>
      refine ⟨left ▸ List.nil_suffix, fun l' member => ?_, size.trans s.size_eq⟩
      rw [left] at member
      cases member

theorem of_arises (arises : Arises source r) : Faces source r := by
  induction arises with
  | start => exact .start source
  | read h _ ih => exact ih.read h

/-- Unless it is at the end of the text, a call takes a lexeme and comes further on. -/
theorem advances (s : Faces source r) (goes : (r.read h).outcome ≠ .ok none) :
    r.offset < (r.read h).reader.offset ∧
      ∃ taken, taken ≠ [] ∧ r.lexemes = taken ++ (r.read h).reader.lexemes := by
  cases comes_read r h with
  | @behind taken l lexemes offset size =>
      have member : l ∈ r.lexemes := by
        rw [lexemes]
        exact List.mem_append_right _ List.mem_cons_self
      refine ⟨?_, taken ++ [l], by simp, by rw [lexemes, List.append_assoc]; rfl⟩
      rw [offset]
      exact Nat.lt_of_le_of_lt (s.offset_le l member) (s.isSlice member).start_lt_stop.1
  | ending left offset size =>
      cases lexemes : r.lexemes with
      | nil => exact absurd (outcome_of_lexemes_nil lexemes) goes
      | cons l rest =>
          -- The end of the text is behind the first of the lexemes that are left.
          have member : l ∈ r.lexemes := lexemes ▸ List.mem_cons_self
          have inside := (s.isSlice member).start_lt_stop
          refine ⟨?_, l :: rest, List.cons_ne_nil _ _, by rw [left, List.append_nil]⟩
          rw [offset, s.size_eq]
          exact Nat.lt_of_le_of_lt (s.offset_le l member) (Nat.lt_of_lt_of_le inside.1 inside.2)

/-- The end of the text is reached with no more calls than there are lexemes. -/
theorem exists_ending (s : Faces source r) (heaps : Nat → Heap) :
    ∃ n ≤ r.lexemes.length, ((r.afterCalls heaps n).read (heaps n)).outcome = .ok none := by
  -- Induction on the lexemes that are left, of which every other call takes one.
  induction left : r.lexemes.length using Nat.strongRecOn generalizing r heaps with
  | ind count ih =>
      subst left
      by_cases ends : (r.read (heaps 0)).outcome = .ok none
      · exact ⟨0, Nat.zero_le _, ends⟩
      · rcases (s.advances ends).2 with ⟨taken, some, lexemes⟩
        have fewer : (r.read (heaps 0)).reader.lexemes.length < r.lexemes.length := by
          rw [lexemes, List.length_append]
          exact Nat.lt_add_of_pos_left (List.length_pos_of_ne_nil some)
        rcases ih _ fewer (s.read (heaps 0)) (fun i => heaps (i + 1)) rfl with ⟨n, bound, done⟩
        exact ⟨n + 1, Nat.succ_le_of_lt (Nat.lt_of_le_of_lt bound fewer), done⟩

end Faces

/--
Lexing loses no text and reading always moves on. The lexemes of a text cover it in the one way in
which that can be done: each is the longest word that the text from there on begins with, or a
character with which no word begins, and between them are separators only. They are slices of the
text that follow one upon the other. Every call that does not find the text at its end takes a
lexeme at least and stands further on afterwards, also where it goes on behind an error, and on
whatever heaps the calls are made, the end is found after at most as many as there are lexemes.
-/
theorem covers_and_advances (source : String) :
    (∀ lexemes, Covers 0 source.toList lexemes ↔ lexemes = scan source) ∧
      (∀ l ∈ scan source, l.IsSlice source) ∧
      ((scan source).Pairwise fun l l' => l.span.stop ≤ l'.span.start) ∧
      (∀ r h, Arises source r → (r.read h).outcome ≠ .ok none →
        r.offset < (r.read h).reader.offset ∧
          ∃ taken, taken ≠ [] ∧ r.lexemes = taken ++ (r.read h).reader.lexemes) ∧
      ∀ heaps : Nat → Heap, ∃ n ≤ (meaningful source).length,
        (((ofSource source).afterCalls heaps n).read (heaps n)).outcome = .ok none :=
  ⟨fun _ => covers_iff, fun _ => isSlice_of_mem_scan, ascending_scan source,
    fun _ _ arises goes => (Faces.of_arises arises).advances goes,
    (Faces.start source).exists_ending⟩

/-- Behind a parenthesis that is out of place reading goes on, and finds a list without an end. -/
theorem covers_and_advances_resumed :
    Arises ")(" ((ofSource ")(").read (.empty 8)).reader ∧
      (((ofSource ")(").read (.empty 8)).reader.read (.empty 8)).outcome ≠ .ok none ∧
      ((ofSource ")(").read (.empty 8)).reader.offset <
        (((ofSource ")(").read (.empty 8)).reader.read (.empty 8)).reader.offset := by
  have arises : Arises ")(" ((ofSource ")(").read (.empty 8)).reader := .read _ .start
  have goes : (((ofSource ")(").read (.empty 8)).reader.read (.empty 8)).outcome ≠ .ok none := by
    decide +kernel
  exact ⟨arises, goes, ((covers_and_advances ")(").2.2.2.1 _ _ arises goes).1⟩

end Reader

end Lisplet
