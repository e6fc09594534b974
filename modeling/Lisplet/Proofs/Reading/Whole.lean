import Lisplet.Proofs.Reading.Waiting
import Lisplet.Proofs.Reuse
import Lisplet.Proofs.Text.Cutting

/-!
# Whole texts — reading all expressions

A text can be read to its end exactly if its lexemes are phrases, one after the other; the forms
depict their trees. If such a text is broken at the end of a line, then what stands before is either
some of the phrases, and what stands behind the others, or it is judged to be incomplete.
-/

namespace Lisplet

open Parsing Phrase Lexeme

namespace Reader

/-- What reading all expressions does, without the proof that the rest of the text is shorter. -/
theorem readAllOnto_eq (r : Reader) (found : List Value) (h : Heap) :
    r.readAllOnto found h =
      match r.read h with
      | ⟨.ok (some form), r, h⟩ => r.readAllOnto (form :: found) (h.addRoot form)
      | ⟨.ok none, _, h⟩ => (.ok found.reverse, h)
      | ⟨.error e, _, h⟩ => (.error e, h) := by
  rw [readAllOnto]
  split
  · next reading =>
    rewrite [reading]
    rfl
  · next reading =>
    rewrite [reading]
    rfl
  · next reading =>
    rewrite [reading]
    rfl

variable {r : Reader} {h h' : Heap} {found forms : List Value}

/-- If all can be read, then it is phrases, and their trees are depicted. -/
theorem exists_phrases_of_readAllOnto (meaningful : ∀ l ∈ r.lexemes, l.token ≠ .comment)
    (w : h.WellFormed) (accepted : r.readAllOnto found h = (.ok forms, h')) :
    ∃ vs ps, forms = found.reverse ++ vs ∧ r.lexemes = lexemesOf ps ∧
      List.Forall₂ h'.Depicts vs (treesOf ps) ∧ h.Evolves h' := by
  -- Induction on the lexemes that are left; each form is rooted while the next ones are read.
  induction length : r.lexemes.length using Nat.strongRecOn generalizing r h found with
  | ind n ih =>
      have evolved := evolves_read meaningful w
      rw [readAllOnto_eq] at accepted
      rcases reading : r.read h with ⟨e | none | v, r₁, h₁⟩
      · rw [reading] at accepted
        cases accepted
      · rw [reading] at accepted evolved
        cases accepted
        exact ⟨[], [], (List.append_nil _).symm, lexemes_eq_nil_of_read meaningful w reading, .nil,
          evolved⟩
      · rw [reading] at accepted evolved
        rcases exists_phrase_of_read meaningful w reading with ⟨p, spelled, depicts⟩
        have rooted := Heap.Evolves.addRoot evolved.wellFormed depicts.holds
        have later := meaningful_of_read meaningful w reading
        rcases ih _ (length ▸ length_lt_of_read reading) later rooted.wellFormed accepted rfl with
          ⟨vs, ps, whole, spelled', shown, evolved'⟩
        refine ⟨v :: vs, p :: ps, ?_, ?_, .cons ?_ shown, (evolved.trans rooted).trans evolved'⟩
        · rw [whole, List.reverse_cons, List.append_assoc, List.singleton_append]
        · rw [spelled, spelled', lexemesOf]
        · exact (evolved'.shows depicts.shows_addRoot).depicts

/-- Phrases can be read to the end where there are three slots for each lexeme. -/
theorem exists_readAllOnto {ps : List Phrase} {n : Nat}
    (meaningful : ∀ l ∈ r.lexemes, l.token ≠ .comment) (w : h.WellFormed)
    (spelled : r.lexemes = lexemesOf ps)
    (room : h.live + 3 * r.lexemes.length + n ≤ h.capacity) :
    ∃ forms h', r.readAllOnto found h = (.ok forms, h') ∧ h'.live + n ≤ h'.capacity := by
  have ample := ample_read room
  induction ps generalizing r h found with
  | nil =>
      rcases read_of_nil meaningful w spelled with ⟨r', h', reading⟩ | ⟨e, r', h', reading, fatal⟩
      · have left := ample.room
        rw [reading] at left
        dsimp only at left
        refine ⟨found.reverse, h', ?_, by omega⟩
        rw [readAllOnto_eq, reading]
      · rw [ample.notFatal e (by rw [reading])] at fatal
        cases fatal
  | cons p ps ih =>
      have evolved := evolves_read meaningful w
      rcases read_of_phrase meaningful w spelled with
        ⟨v, r', h', reading, left, depicts⟩ | ⟨e, r', h', reading, fatal⟩
      · rw [reading] at evolved
        have rooted := Heap.Evolves.addRoot evolved.wellFormed depicts.holds
        have later := meaningful_of_read meaningful w reading
        have enough :
            (h'.addRoot v).live + 3 * r'.lexemes.length + n ≤ (h'.addRoot v).capacity := by
          have left := ample.room
          rw [reading] at left
          rcases h'.addRoot_eq v with ⟨roots, same⟩
          rw [same]
          exact left
        rcases ih later rooted.wellFormed left enough (ample_read enough) with
          ⟨forms, h'', all, room⟩
        refine ⟨forms, h'', ?_, room⟩
        rw [readAllOnto_eq, reading]
        exact all
      · rw [ample.notFatal e (by rw [reading])] at fatal
        cases fatal

/-- The forms are rooted only while all of them are read. -/
theorem readAll_eq (s : String) (h : Heap) :
    readAll s h =
      match (ofSource s).readAllOnto [] h with
      | (.ok forms, h') => .ok forms (h'.truncateRoots h.roots.length)
      | (.error e, h') => .error e (h'.truncateRoots h.roots.length) := by
  unfold readAll HeapM.scope
  dsimp only
  rcases (ofSource s).readAllOnto [] h with ⟨_ | _, h'⟩
  · rfl
  · rfl

theorem exists_phrases_of_readAll {s : String} (w : h.WellFormed)
    (accepted : readAll s h = .ok forms h') :
    ∃ ps, Lexeme.meaningful s = lexemesOf ps ∧ List.Forall₂ h'.Depicts forms (treesOf ps) := by
  rw [readAll_eq] at accepted
  rcases all : (ofSource s).readAllOnto [] h with ⟨_ | forms', h₁⟩
  · rw [all] at accepted
    cases accepted
  · rw [all] at accepted
    cases accepted
    rcases exists_phrases_of_readAllOnto (meaningful_ofSource s) w all with
      ⟨vs, ps, rfl, spelled, shown, _⟩
    exact ⟨ps, spelled, shown.imp fun _ _ depicts => depicts.truncateRoots _⟩

/-- A text is read to its end as certain trees, on any heap with enough room. -/
def ReadsAs (text : String) (ts : List Tree) : Prop :=
  ∀ h : Heap, h.WellFormed → h.live + 3 * (Lexeme.meaningful text).length ≤ h.capacity →
    ∃ forms h', readAll text h = .ok forms h' ∧ List.Forall₂ h'.Depicts forms ts

/-- Some room may be left for what is to be done with the forms. -/
theorem exists_readAll {text : String} {ps : List Phrase} {n : Nat}
    (spelled : Lexeme.meaningful text = lexemesOf ps) (w : h.WellFormed)
    (room : h.live + 3 * (Lexeme.meaningful text).length + n ≤ h.capacity) :
    ∃ forms h', readAll text h = .ok forms h' ∧ List.Forall₂ h'.Depicts forms (treesOf ps) ∧
      h'.WellFormed ∧ h'.live + n ≤ h'.capacity := by
  have reads : ∃ forms h', (ofSource text).readAllOnto [] h = (.ok forms, h') ∧
      h'.live + n ≤ h'.capacity := exists_readAllOnto (meaningful_ofSource text) w spelled room
  rcases reads with ⟨forms, h', all, left⟩
  have accepted : readAll text h = .ok forms (h'.truncateRoots h.roots.length) := by
    rw [readAll_eq, all]
  rcases exists_phrases_of_readAllOnto (meaningful_ofSource text) w all with
    ⟨_, qs, rfl, spelled', depicted, evolved⟩
  cases eq_of_lexemesOf (spelled.symm.trans spelled')
  exact ⟨_, _, accepted, depicted.imp fun _ _ depicts => depicts.truncateRoots _,
    evolved.wellFormed.truncateRoots _, left⟩

theorem readsAs_of_phrases {text : String} {ps : List Phrase}
    (spelled : Lexeme.meaningful text = lexemesOf ps) : ReadsAs text (treesOf ps) := by
  intro h w room
  rcases exists_readAll (n := 0) spelled w room with ⟨forms, h', accepted, depicted, _⟩
  exact ⟨forms, h', accepted, depicted⟩

end Reader

/-! ## Pieces of a text -/

theorem meaningful_empty : meaningful "" = lexemesOf [] := by decide +kernel

/--
What has been gathered of a text of phrases behind one of its lines is judged incomplete, or it is
some of the phrases, and the rest of the text is the others.
-/
theorem complete_or_awaits {text rest : String} {ps : List Phrase}
    (ends : EndsLine text.toList ∨ rest = "")
    (spelled : meaningful (text ++ rest) = lexemesOf ps) :
    (awaits [] (meaningful text) = true ∧ rest ≠ "") ∨
      (awaits [] (meaningful text) = false ∧ ∃ ps₁ ps₂, meaningful text = lexemesOf ps₁ ∧
        meaningful rest = lexemesOf ps₂ ∧ treesOf ps = treesOf ps₁ ++ treesOf ps₂) := by
  by_cases last : rest = ""
  · subst last
    rw [String.append_empty] at spelled
    refine .inr ⟨?_, ps, [], spelled, by decide +kernel, (List.append_nil _).symm⟩
    rw [awaits_of_advance (advance_eq_nil_iff.2 ⟨ps, spelled⟩)]
    rfl
  · rcases exists_breaks (ends.resolve_right last) with ⟨settled, opened, breaks⟩
    rcases breaks.onward rest with ⟨more, whole, same⟩
    have advanced := advance_eq_nil_iff.2 ⟨ps, whole.symm.trans spelled⟩
    rcases advance_append_eq_some.1 advanced with ⟨stack, first, second⟩
    rw [breaks.meaningful_eq]
    cases opened with
    | some l =>
        refine .inl ⟨?_, last⟩
        have token := (breaks.last_unclosed l rfl).1
        rw [awaits_append first, Option.toList_some, awaits, step_eq_none (.inl token)]
        exact asks_unclosed token
    | none =>
        rw [Option.toList_none, List.append_nil, awaits_of_advance first]
        cases stack with
        | cons phrase stack => exact .inl ⟨rfl, last⟩
        | nil =>
            rcases advance_eq_nil_iff.1 first with ⟨ps₁, rfl⟩
            rcases advance_eq_nil_iff.1 second with ⟨ps₂, rfl⟩
            -- In the rest by itself the same lexemes stand in other places.
            rcases exists_of_keysOf ps₂ (same rfl).symm with ⟨qs, spelled', trees⟩
            refine .inr ⟨rfl, ps₁, qs, rfl, spelled'.symm, ?_⟩
            rw [trees, ← treesOf_append]
            refine congrArg treesOf (eq_of_lexemesOf ?_)
            rw [lexemesOf_append, ← whole, spelled]

end Lisplet
