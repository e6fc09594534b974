import Lisplet.Proofs.Command.Rounds
import Lisplet.Proofs.Text.Cutting

/-!
# Stuck — when no more input can make a text complete

The loop takes an open literal and a quote mark without its expression for the end of a text, also
where they are not at its end: a literal broken off by a backslash before a line feed, and a
parenthesis directly behind a quote mark. No further text makes such a text complete, nor is its
error ever reported. These are the only ones: behind any other text that is awaited to go on there
is something to type that ends the waiting.
-/

namespace Lisplet

open Parsing Lexeme

/--
A text with a quote mark directly in front of a closing parenthesis in it, or with a literal that
is broken off before the text ends.
-/
def Stuck (s : String) : Prop :=
  (∃ mark closing : Lexeme, mark.token = .quote ∧ closing.token = .closing ∧
    [mark, closing] <:+: meaningful s) ∨
  ∃ l ∈ meaningful s, l.token = .unclosed ∧ l.span.stop < s.utf8ByteSize

namespace Lexeme.Breaks

variable {s : String} {settled : List Lexeme} {last : Option Lexeme} {stack : List OpenPhrase}

/-- If one of the settled lexemes is refused, then the same is reported whatever follows. -/
theorem stuck_of_refused (breaks : Breaks s settled last) (refused : advance [] settled = none)
    (awaited : awaits [] (meaningful s) = true) :
    Stuck s ∧ ∀ more, awaits [] (settled ++ more) = true := by
  rcases exists_refused refused with ⟨before, l, after, stack, rfl, advanced, first⟩
  have asked (more : List Lexeme) :
      awaits [] ((before ++ l :: after) ++ more) = asks stack l := by
    rw [List.append_assoc, List.cons_append]
    exact awaits_of_refused advanced first
  have asks := asked last.toList
  rw [← breaks.meaningful_eq, awaited] at asks
  refine ⟨?_, fun more => (asked more).trans asks.symm⟩
  unfold Stuck
  rw [breaks.meaningful_eq]
  rcases asks_cases asks.symm with token | ⟨token, mark, below, rfl⟩
  · refine .inr ⟨l, by simp, token, breaks.unclosed l (by simp) token⟩
  · -- The quote mark that is innermost is the lexeme before.
    rcases eq_append_of_quoted advanced with ⟨before', rfl⟩
    refine .inl ⟨mark.val, l, mark.property, token, before', after ++ last.toList, ?_⟩
    simp

/-- If all of them are taken, then nothing is wrong for good. -/
theorem not_stuck_of_advance (breaks : Breaks s settled last)
    (advanced : advance [] settled = some stack) : ¬ Stuck s := by
  unfold Stuck
  rw [breaks.meaningful_eq]
  rintro (⟨mark, closing, isQuote, isClosing, inside⟩ | ⟨l, member, token, stop⟩)
  · -- The parenthesis is not the literal at the end, so both are among the settled lexemes.
    refine not_closed_quote isQuote isClosing advanced ?_
    cases last with
    | none => rwa [Option.toList_none, List.append_nil] at inside
    | some l =>
        have token := (breaks.last_unclosed l rfl).1
        rcases inside with ⟨before, after, whole⟩
        rcases List.eq_nil_or_concat after with rfl | ⟨after', l', rfl⟩
        · have same : closing = l := by
            simpa using congrArg List.getLast? whole
          rw [same, token] at isClosing
          cases isClosing
        · refine ⟨before, after', ?_⟩
          rw [List.concat_eq_append, ← List.append_assoc] at whole
          exact (List.append_inj' whole rfl).1
  · rcases List.mem_append.1 member with settledMember | lastMember
    · exact token_ne_unclosed advanced l settledMember token
    · rw [(breaks.last_unclosed l (Option.mem_toList.1 lastMember)).2] at stop
      exact Nat.lt_irrefl _ stop

end Lexeme.Breaks

/-- A lexeme without any meaning ends the waiting, also behind a string. -/
theorem Parsing.awaits_interrupted {stack : List OpenPhrase} {words : List Lexeme} {stray : Lexeme}
    (strings : ∀ w ∈ words, w.token = .string) (isStray : stray.token = .stray) :
    awaits stack (words ++ [stray]) = false := by
  induction words generalizing stack with
  | nil =>
      rw [List.nil_append, awaits, step_eq_none (.inr isStray)]
      exact asks_eq_false (by simp [isStray]) (by simp [isStray])
  | cons w words ih =>
      rcases List.forall_mem_cons.1 strings with ⟨first, others⟩
      rw [List.cons_append, awaits]
      cases step stack w with
      | none => exact asks_eq_false (by simp [first]) (by simp [first])
      | some stack' => exact ih others

namespace Repl

open Reader

/-- No line that is taken behind a text that stays incomplete is ever evaluated. -/
theorem handed_eq_nil {s : String} {maxDepth : Nat} {repl : Repl} {lines : List String}
    (incomplete : ∀ u h, h.WellFormed → (ofSource (s ++ u)).HasRoomToEnd h →
      (awaitsMore (s ++ u) h).1 = true)
    (begun : ∃ u, repl.buffer = s ++ u) (w : repl.heap.WellFormed)
    (room : ∀ round ∈ repl.rounds maxDepth (lines.map .text), round.HasRoom) :
    repl.handed maxDepth (lines.map .text) = [] := by
  have course := course_loop maxDepth repl lines
  unfold handed
  generalize repl.rounds maxDepth (lines.map .text) = rounds at course room ⊢
  generalize repl.loop maxDepth (lines.map .text) = result at course
  have awaits {repl repl' : Repl} {line : String} (begun : ∃ u, repl.buffer = s ++ u)
      (w : repl.heap.WellFormed) (prompted : repl.prompt = (true, repl'))
      (room : (repl'.round line).HasRoom) :
      (∃ u, repl'.buffer ++ line = s ++ u) ∧ (repl'.round line).awaits = true := by
    rcases prompt_eq prompted with ⟨heap, buffer, _⟩
    rcases begun with ⟨u, begun⟩
    have longer : repl'.buffer ++ line = s ++ (u ++ line) := by
      rw [buffer, begun, String.append_assoc]
    refine ⟨⟨_, longer⟩, ?_⟩
    unfold Round.HasRoom Repl.round at room
    unfold Round.awaits Repl.round
    dsimp only at room ⊢
    rw [longer, heap] at room ⊢
    exact incomplete _ _ w room
  -- Induction on the rounds; in each of them the text is kept.
  induction course with
  | refused => rfl
  | ended => rfl
  | @keeps repl repl' line lines rounds result prompted judgement _ ih =>
      rcases List.forall_mem_cons.1 room with ⟨first, others⟩
      rcases awaits begun w prompted first with ⟨longer, _⟩
      rw [List.filter_cons_of_neg (by simp [judgement])]
      refine ih longer ?_ others
      refine (evolves_awaitsMoreFrom (meaningful_ofSource _) ?_).wellFormed
      show repl'.heap.WellFormed
      rwa [(prompt_eq prompted).1]
  | goesOn prompted judgement =>
      have first := List.forall_mem_cons.1 room
      rw [(awaits begun w prompted first.1).2] at judgement
      cases judgement
  | stops prompted judgement =>
      have first := List.forall_mem_cons.1 room
      rw [(awaits begun w prompted first.1).2] at judgement
      cases judgement

/--
A text that ends with a line and is judged incomplete can be completed, or at least made to be
reported as wrong, unless it is stuck. If it is, no further text makes a difference to the
judgement, and the loop gathers all lines that follow without evaluating any of them.
-/
theorem awaitsMore_append {s : String} (ends : EndsLine s.toList) {h : Heap} (w : h.WellFormed)
    (awaited : (awaitsMore s h).1 = true) :
    (¬ Stuck s → ∃ u, ∀ h' : Heap, h'.WellFormed → (ofSource (s ++ u)).HasRoomToEnd h' →
      (awaitsMore (s ++ u) h').1 = false) ∧
    (Stuck s →
      (∀ u, ∀ h' : Heap, h'.WellFormed → (ofSource (s ++ u)).HasRoomToEnd h' →
        (awaitsMore (s ++ u) h').1 = true) ∧
      ∀ (maxDepth : Nat) (repl : Repl) (lines : List String), repl.buffer = s →
        repl.heap.WellFormed →
          (∀ round ∈ repl.rounds maxDepth (lines.map .text), round.HasRoom) →
            repl.handed maxDepth (lines.map .text) = []) := by
  rcases exists_breaks ends with ⟨settled, last, breaks⟩
  have asks := awaitsMore_eq_awaits (hasRoomToEnd_of_awaitsMoreFrom awaited) w
  rw [awaited] at asks
  cases advanced : advance [] settled with
  | none =>
      rcases breaks.stuck_of_refused advanced asks.symm with ⟨stuck, refused⟩
      have incomplete (u : String) (h' : Heap) (w' : h'.WellFormed)
          (room : (ofSource (s ++ u)).HasRoomToEnd h') : (awaitsMore (s ++ u) h').1 = true := by
        rcases breaks.onward u with ⟨more, longer, _⟩
        rw [awaitsMore_eq_awaits room w', longer, refused more]
      refine ⟨fun free => absurd stuck free, fun _ => ⟨incomplete, ?_⟩⟩
      intro maxDepth repl lines begun w' room
      exact handed_eq_nil incomplete ⟨"", by rw [begun, String.append_empty]⟩ w' room
  | some stack =>
      refine ⟨fun _ => ?_, fun stuck => absurd stuck (breaks.not_stuck_of_advance advanced)⟩
      rcases breaks.interrupted with ⟨u, words, stray, longer, strings, isStray⟩
      refine ⟨u, fun h' w' room => ?_⟩
      rw [awaitsMore_eq_awaits room w', longer, awaits_append advanced]
      exact awaits_interrupted strings isStray

/-- Nothing makes a quote mark in front of a parenthesis complete; a list can be gone on with. -/
theorem awaitsMore_append_quote :
    (EndsLine "')\n".toList ∧ (awaitsMore "')\n" (Heap.empty 20)).1 = true ∧ Stuck "')\n" ∧
      ∀ u, ∀ h' : Heap, h'.WellFormed → (ofSource ("')\n" ++ u)).HasRoomToEnd h' →
        (awaitsMore ("')\n" ++ u) h').1 = true) ∧
    (EndsLine "(\n".toList ∧ (awaitsMore "(\n" (Heap.empty 20)).1 = true ∧ ¬ Stuck "(\n" ∧
      ∃ u, ∀ h' : Heap, h'.WellFormed → (ofSource ("(\n" ++ u)).HasRoomToEnd h' →
        (awaitsMore ("(\n" ++ u) h').1 = false) := by
  have w := Heap.wellFormed_empty 20
  have ends : EndsLine "')\n".toList := by
    rintro c ⟨⟩
    rfl
  have awaited : (awaitsMore "')\n" (Heap.empty 20)).1 = true := by decide +kernel
  have marks : meaningful "')\n" = [⟨.quote, "'", ⟨0, 1⟩⟩, ⟨.closing, ")", ⟨1, 2⟩⟩] := by
    decide +kernel
  have stuck : Stuck "')\n" := by
    unfold Stuck
    rw [marks]
    exact .inl ⟨_, _, rfl, rfl, List.infix_refl _⟩
  have ends' : EndsLine "(\n".toList := by
    rintro c ⟨⟩
    rfl
  have awaited' : (awaitsMore "(\n" (Heap.empty 20)).1 = true := by decide +kernel
  have marks' : meaningful "(\n" = [⟨.opening, "(", ⟨0, 1⟩⟩] := by decide +kernel
  have free : ¬ Stuck "(\n" := by
    unfold Stuck
    rw [marks']
    rintro (⟨mark, closing, _, _, inside⟩ | ⟨l, member, token, _⟩)
    · exact absurd inside.length_le (Nat.not_succ_le_self 1)
    · cases List.mem_singleton.1 member
      cases token
  exact ⟨⟨ends, awaited, stuck, ((awaitsMore_append ends w awaited).2 stuck).1⟩,
    ends', awaited', free, (awaitsMore_append ends' w awaited').1 free⟩

end Repl

end Lisplet
