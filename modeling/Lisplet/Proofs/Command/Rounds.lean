import Lisplet.Proofs.Reading.Waiting

/-!
# Rounds — what the interactive loop does with each line

A round of the loop begins when a line has been taken: there are the text that has been gathered up
to then and the heap and the output it is worked on with. The text is handed over to evaluation or
kept for the next round.
-/

namespace Lisplet

/-- The loop behind a line that it has taken. -/
structure Round where
  text : String
  heap : Heap
  out : Sink

namespace Round

/-- Whether the text is kept until more of it is there. -/
def awaits (round : Round) : Bool := (Repl.awaitsMore round.text round.heap).1

/-- The heap on which the text is evaluated. -/
def judged (round : Round) : Heap := (Repl.awaitsMore round.text round.heap).2

/-- The heap has enough room for judging the text. -/
def HasRoom (round : Round) : Prop := (Reader.ofSource round.text).HasRoomToEnd round.heap

/-- What evaluation of the text comes to. -/
def evaluation (maxDepth : Nat) (round : Round) : Except Failure Unit × Heap × Sink :=
  evaluateSource maxDepth round.text Repl.each round.judged round.out

end Round

namespace Repl

/-- The round that begins when a line is taken. -/
def round (repl : Repl) (line : String) : Round := ⟨repl.buffer ++ line, repl.heap, repl.out⟩

/-- The rounds of the loop over some lines. Without a prompt no line is taken. -/
def rounds (maxDepth : Nat) (repl : Repl) : List InputLine → List Round
  | [] => []
  | line :: lines =>
    match repl.prompt with
    | (false, _) => []
    | (true, repl) =>
      match line with
      | .invalid => []
      | .text l =>
        repl.round l ::
          match repl.feed maxDepth line with
          | .goOn repl => repl.rounds maxDepth lines
          | .stop _ _ => []

/-- The rounds in which the text is handed over to evaluation. -/
def handed (maxDepth : Nat) (repl : Repl) (lines : List InputLine) : List Round :=
  (repl.rounds maxDepth lines).filter fun round => !round.awaits

/-- The loop after a round in which the text is kept. -/
def keep (repl : Repl) (line : String) : Repl :=
  { repl with heap := (repl.round line).judged, buffer := repl.buffer ++ line }

/-- A text is handed over unless more of it is awaited. -/
theorem feed_text (maxDepth : Nat) (repl : Repl) (line : String) :
    repl.feed maxDepth (.text line) =
      if (repl.round line).awaits then .goOn (repl.keep line)
      else evaluate maxDepth (repl.buffer ++ line) (repl.round line).judged repl.out repl.err := by
  rcases repl with ⟨heap, buffer, out, err⟩
  unfold keep round Round.awaits Round.judged
  unfold feed
  dsimp only
  rcases awaitsMore (buffer ++ line) heap with ⟨_ | _, heap'⟩
  · rfl
  · rfl

/-- Prompting concerns the output alone. -/
theorem prompt_eq {repl repl' : Repl} {taken : Bool} (prompted : repl.prompt = (taken, repl')) :
    repl'.heap = repl.heap ∧ repl'.buffer = repl.buffer ∧ repl'.err = repl.err := by
  rcases repl with ⟨heap, buffer, out, err⟩
  cases prompted
  exact ⟨rfl, rfl, rfl⟩

/-- The loop over lines that are text, round by round, and what it comes to. -/
inductive Course (maxDepth : Nat) : Repl → List String → List Round → Int32 × Repl → Prop where
  /-- The prompt could not be written. -/
  | refused {repl repl' : Repl} {lines : List String} : repl.prompt = (false, repl') →
      Course maxDepth repl lines [] (1, repl')
  | ended {repl repl' : Repl} : repl.prompt = (true, repl') →
      Course maxDepth repl [] [] (0, repl'.finish)
  /-- The text is kept. -/
  | keeps {repl repl' : Repl} {line : String} {lines : List String} {rounds : List Round}
      {result : Int32 × Repl} : repl.prompt = (true, repl') → (repl'.round line).awaits = true →
        Course maxDepth (repl'.keep line) lines rounds result →
          Course maxDepth repl (line :: lines) (repl'.round line :: rounds) result
  /-- The text is evaluated, and the loop goes on. -/
  | goesOn {repl repl' next : Repl} {line : String} {lines : List String} {rounds : List Round}
      {result : Int32 × Repl} : repl.prompt = (true, repl') → (repl'.round line).awaits = false →
        evaluate maxDepth (repl'.buffer ++ line) (repl'.round line).judged repl'.out repl'.err =
            .goOn next → Course maxDepth next lines rounds result →
          Course maxDepth repl (line :: lines) (repl'.round line :: rounds) result
  /-- The program has asked to exit. -/
  | stops {repl repl' next : Repl} {line : String} {lines : List String} {status : Int32} :
      repl.prompt = (true, repl') → (repl'.round line).awaits = false →
        evaluate maxDepth (repl'.buffer ++ line) (repl'.round line).judged repl'.out repl'.err =
            .stop status next →
          Course maxDepth repl (line :: lines) [repl'.round line] (status, next)

theorem course_loop (maxDepth : Nat) (repl : Repl) (lines : List String) :
    Course maxDepth repl lines (repl.rounds maxDepth (lines.map .text))
      (repl.loop maxDepth (lines.map .text)) := by
  -- Induction on the lines that are left, whatever has become of the earlier ones.
  induction lines generalizing repl with
  | nil =>
      rw [List.map_nil, rounds, loop]
      rcases prompted : repl.prompt with ⟨_ | _, repl'⟩
      · exact .refused prompted
      · exact .ended prompted
  | cons line lines ih =>
      rw [List.map_cons, rounds, loop]
      rcases prompted : repl.prompt with ⟨_ | _, repl'⟩
      · exact .refused prompted
      · dsimp only
        rw [feed_text]
        cases judgement : (repl'.round line).awaits with
        | true => exact .keeps prompted judgement (ih _)
        | false =>
            rw [if_neg Bool.false_ne_true]
            rcases evaluated : evaluate maxDepth (repl'.buffer ++ line)
              (repl'.round line).judged repl'.out repl'.err with next | ⟨status, next⟩
            · exact .goesOn prompted judgement evaluated (ih next)
            · exact .stops prompted judgement evaluated

end Repl

end Lisplet
