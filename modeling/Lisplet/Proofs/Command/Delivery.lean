import Lisplet.Proofs.Command.Lines
import Lisplet.Proofs.Command.Rounds
import Lisplet.Proofs.Errors
import Lisplet.Proofs.Reading.Whole

/-!
# Delivery — the interactive loop evaluates the forms of its input

If a text can be read to its end, then the loop neither loses nor repeats nor splits one of its
forms, wherever the lines are broken: what it hands over to evaluation are pieces of the text, each
of which can be read to its end, and their forms are those of the text. For behind each line what
has been gathered is either complete or judged to be incomplete.
-/

namespace Lisplet

open Parsing Phrase Lexeme

/-! ## Evaluation form by form -/

section Evaluating

variable {σ : Type}

/--
The rest of a text is evaluated form by form: each is read, depicting the next of the trees, then
evaluated once, and its value handed over, until all have been or something stops the evaluation.
-/
inductive Evaluator.Evaluates (ev : Evaluator)
    (each : Heap → Value → σ → Except Failure Unit × σ) :
    Reader → Heap → σ → List Tree → Except Failure Unit → Prop where
  | ended {r r' : Reader} {h h' : Heap} {s : σ} : r.read h = ⟨.ok none, r', h'⟩ →
      ev.Evaluates each r h s [] (.ok ())
  /-- The heap was too small for reading on. -/
  | cutOff {r r' : Reader} {h h' : Heap} {s : σ} {ts : List Tree} {e : ReadError} :
      r.read h = ⟨.error e, r', h'⟩ → e.fatal?.isSome →
        ev.Evaluates each r h s ts (.error (.read e))
  | stopped {r r' : Reader} {h h₁ h₂ : Heap} {s : σ} {t : Tree} {ts : List Tree} {form : Value}
      {cause : Fatal} : r.read h = ⟨.ok (some form), r', h₁⟩ → h₁.Depicts form t →
        ev.evaluateForm form h₁ = .error cause h₂ →
          ev.Evaluates each r h s (t :: ts) (.error (.fatal cause))
  | refused {r r' : Reader} {h h₁ h₂ : Heap} {s s' : σ} {t : Tree} {ts : List Tree}
      {form value : Value} {f : Failure} : r.read h = ⟨.ok (some form), r', h₁⟩ →
        h₁.Depicts form t → ev.evaluateForm form h₁ = .ok value h₂ →
          each h₂ value s = (.error f, s') → ev.Evaluates each r h s (t :: ts) (.error f)
  | goesOn {r r' : Reader} {h h₁ h₂ : Heap} {s s' : σ} {t : Tree} {ts : List Tree}
      {form value : Value} {outcome : Except Failure Unit} :
      r.read h = ⟨.ok (some form), r', h₁⟩ → h₁.Depicts form t →
        ev.evaluateForm form h₁ = .ok value h₂ → each h₂ value s = (.ok (), s') →
          ev.Evaluates each r' h₂ s' ts outcome → ev.Evaluates each r h s (t :: ts) outcome

/-- A text is evaluated form by form, with an evaluator of its own. -/
inductive SourceEvaluates (limit : Nat) (text : String)
    (each : Heap → Value → σ → Except Failure Unit × σ) (h : Heap) (s : σ) (ts : List Tree) :
    Except Failure Unit → Prop where
  | unmade {cause : Fatal} {h' : Heap} : Evaluator.make limit h = .error cause h' →
      SourceEvaluates limit text each h s ts (.error (.fatal cause))
  | made {ev : Evaluator} {h' : Heap} {outcome : Except Failure Unit} :
      Evaluator.make limit h = .ok ev h' →
        ev.Evaluates each (Reader.ofSource text) h' s ts outcome →
          SourceEvaluates limit text each h s ts outcome

variable {each : Heap → Value → σ → Except Failure Unit × σ} {h : Heap}

theorem Standing.wellFormed (s : Standing h) : h.WellFormed := by
  rcases s.orderly with ⟨d, a⟩
  exact a.toWellFormed

theorem Evaluator.evaluates_evaluateRest (ev : Evaluator) {r : Reader} {ps : List Phrase}
    (standing : Standing h) (meaningful : ∀ l ∈ r.lexemes, l.token ≠ .comment)
    (spelled : r.lexemes = lexemesOf ps) (s : σ) :
    ev.Evaluates each r h s (treesOf ps) (ev.evaluateRest each r h s).1 := by
  -- Induction on the phrases, one of which is read in each round.
  induction ps generalizing r h s with
  | nil =>
      rw [ev.evaluateRest_eq]
      rcases Reader.read_of_nil meaningful standing.wellFormed spelled with
        ⟨r', h', reading⟩ | ⟨e, r', h', reading, fatal⟩
      · rw [reading]
        exact .ended reading
      · rw [reading]
        exact .cutOff reading fatal
  | cons p ps ih =>
      rw [ev.evaluateRest_eq]
      rcases Reader.read_of_phrase meaningful standing.wellFormed spelled with
        ⟨form, r', h₁, reading, left, depicts⟩ | ⟨e, r', h', reading, fatal⟩
      · have later := Reader.meaningful_of_read meaningful standing.wellFormed reading
        have next := standing_evaluateForm ev standing reading
        unfold Heap.Operation.heapAfter at next
        rw [reading]
        dsimp only
        rcases evaluated : ev.evaluateForm form h₁ with ⟨value, h₂⟩ | ⟨cause, h₂⟩
        · rw [evaluated] at next
          dsimp only
          rcases given : each h₂ value s with ⟨f | _, s'⟩
          · exact .refused reading depicts evaluated given
          · exact .goesOn reading depicts evaluated given (ih next later left s')
        · exact .stopped reading depicts evaluated
      · rw [reading]
        exact .cutOff reading fatal

theorem sourceEvaluates_evaluateSource {text : String} {ps : List Phrase} (limit : Nat)
    (standing : Standing h) (spelled : meaningful text = lexemesOf ps) (s : σ) :
    SourceEvaluates limit text each h s (treesOf ps) (evaluateSource limit text each h s).1 := by
  have next := standing_make standing limit
  unfold Heap.Operation.heapAfter at next
  unfold evaluateSource
  rcases made : Evaluator.make limit h with ⟨ev, h'⟩ | ⟨cause, h'⟩
  · rw [made] at next
    exact .made made (ev.evaluates_evaluateRest next (Reader.meaningful_ofSource text) spelled s)
  · exact .unmade made

/-- Where results are only printed, nothing but a fatal condition or the output stops evaluation. -/
theorem Evaluator.Evaluates.failure {ev : Evaluator} {r : Reader} {out : Sink} {ts : List Tree}
    {f : Failure} (evaluates : ev.Evaluates Repl.each r h out ts (.error f)) :
    f.fatal?.isSome ∨ f = .output := by
  generalize failed : Except.error f = outcome at evaluates
  induction evaluates with
  | ended => cases failed
  | cutOff _ fatal =>
      cases failed
      exact .inl fatal
  | stopped =>
      cases failed
      exact .inl rfl
  | @refused r r' h h₁ h₂ out out' t ts form value f' _ _ _ given =>
      cases failed
      unfold Repl.each at given
      split at given
      · cases given
      · cases given
        exact .inr rfl
  | goesOn _ _ _ _ _ ih => exact ih failed

theorem SourceEvaluates.failure {limit : Nat} {text : String} {out : Sink} {ts : List Tree}
    {f : Failure} (evaluates : SourceEvaluates limit text Repl.each h out ts (.error f)) :
    f.fatal?.isSome ∨ f = .output := by
  generalize failed : Except.error f = outcome at evaluates
  cases evaluates with
  | unmade =>
      cases failed
      exact .inl rfl
  | made _ evaluates =>
      subst failed
      exact evaluates.failure

end Evaluating

/-! ## The loop -/

namespace Repl

theorem standing_awaitsMoreFrom {h : Heap} (standing : Standing h) (r : Reader) :
    Standing (awaitsMoreFrom r h).2 := by
  induction length : r.lexemes.length using Nat.strongRecOn generalizing r h with
  | ind n ih =>
      have next := standing_read standing r
      rw [awaitsMoreFrom_eq]
      rcases reading : r.read h with ⟨e | _ | v, r', h'⟩
      · rwa [reading] at next
      · rwa [reading] at next
      · rw [reading] at next
        exact ih _ (length ▸ Reader.length_lt_of_read reading) next r' rfl

/-- After a text has been evaluated the loop starts afresh, with the heap that is left. -/
theorem evaluate_goOn {maxDepth : Nat} {text err : String} {h : Heap} {out : Sink} {next : Repl}
    (evaluated : evaluate maxDepth text h out err = .goOn next) :
    next.heap = (evaluateSource maxDepth text each h out).2.1 ∧ next.buffer = "" ∧
      ((evaluateSource maxDepth text each h out).1 = .ok () → next.err = err) := by
  unfold evaluate at evaluated
  rcases step : evaluateSource maxDepth text each h out with ⟨f | _, h', out'⟩
  · rw [step] at evaluated
    dsimp only at evaluated
    split at evaluated
    · cases evaluated
    · cases evaluated
      exact ⟨rfl, rfl, nofun⟩
  · rw [step] at evaluated
    cases evaluated
    exact ⟨rfl, rfl, fun _ => rfl⟩

theorem evaluate_stop {maxDepth : Nat} {text err : String} {h : Heap} {out : Sink} {next : Repl}
    {status : Int32} (evaluated : evaluate maxDepth text h out err = .stop status next) :
    (evaluateSource maxDepth text each h out).1 ≠ .ok () := by
  unfold evaluate at evaluated
  rcases step : evaluateSource maxDepth text each h out with ⟨f | _, h', out'⟩
  · exact nofun
  · rw [step] at evaluated
    cases evaluated

/-- A text that is handed over is read as certain trees, and evaluated so. -/
structure Delivers (maxDepth : Nat) (round : Round) (ts : List Tree) : Prop where
  reads : Reader.ReadsAs round.text ts
  evaluates : SourceEvaluates maxDepth round.text each round.judged round.out ts
    (round.evaluation maxDepth).1

/-- Only a fatal condition or the output stops the evaluation of a text that is delivered. -/
theorem Delivers.ok {maxDepth : Nat} {round : Round} {ts : List Tree}
    (delivers : Delivers maxDepth round ts)
    (calm : ∀ f, (round.evaluation maxDepth).1 = .error f → f.fatal? = none ∧ f ≠ .output) :
    (round.evaluation maxDepth).1 = .ok () := by
  have evaluates := delivers.evaluates
  cases came : (round.evaluation maxDepth).1 with
  | ok _ => rfl
  | error f =>
      rw [came] at evaluates
      rcases calm f came with ⟨notFatal, notOutput⟩
      rcases evaluates.failure with fatal | output
      · rw [notFatal] at fatal
        cases fatal
      · exact absurd output notOutput

theorem delivers_of_phrases {maxDepth : Nat} {round : Round} {ps : List Phrase}
    (standing : Standing round.judged) (spelled : meaningful round.text = lexemesOf ps) :
    Delivers maxDepth round (treesOf ps) :=
  ⟨Reader.readsAs_of_phrases spelled,
    sourceEvaluates_evaluateSource maxDepth standing spelled round.out⟩

/-- What the rounds over some lines do with the text that has been gathered and the lines. -/
structure Delivery (maxDepth : Nat) (repl : Repl) (lines : List String) (rounds : List Round)
    (result : Int32 × Repl) (ts : List Tree) (tss : List (List Tree)) : Prop where
  delivers : List.Forall₂ (Delivers maxDepth) (rounds.filter fun round => !round.awaits) tss
  /-- The texts that are handed over make up a beginning of the text. -/
  texts : ∃ rest, String.join ((rounds.filter fun round => !round.awaits).map Round.text) ++ rest =
    repl.buffer ++ String.join lines
  trees : tss.flatten <+: ts
  /-- Once all lines have been taken, they are all of it. -/
  whole : rounds.length = lines.length →
    String.join ((rounds.filter fun round => !round.awaits).map Round.text) =
      repl.buffer ++ String.join lines ∧ tss.flatten = ts
  undisturbed : (∀ round ∈ rounds.filter fun round => !round.awaits,
      (round.evaluation maxDepth).1 = .ok ()) → result.1 ≠ 1 →
    rounds.length = lines.length ∧ result.1 = 0 ∧ result.2.err = repl.err

/-- What has been gathered and the lines that are left make up some phrases. -/
structure Gathers (repl : Repl) (lines : List String) (ps : List Phrase) : Prop where
  standing : Standing repl.heap
  spelled : meaningful (repl.buffer ++ String.join lines) = lexemesOf ps
  empty : lines = [] → repl.buffer = ""
  broken : ∀ line ∈ lines.dropLast, ∃ before, line.toList = before ++ ['\n']

section Delivering

variable {maxDepth : Nat} {repl repl' next : Repl} {line : String} {lines : List String}
  {rounds : List Round} {result : Int32 × Repl} {ps : List Phrase}

/-- In each round the text that has been gathered is complete, or it is kept. -/
theorem Gathers.round (g : Gathers repl (line :: lines) ps)
    (prompted : repl.prompt = (true, repl')) (room : (repl'.round line).HasRoom) :
    Standing (repl'.round line).judged ∧
      (∀ line ∈ lines.dropLast, ∃ before, line.toList = before ++ ['\n']) ∧
        ((repl'.round line).awaits = true ∧ lines ≠ [] ∧
            meaningful (repl'.buffer ++ line ++ String.join lines) = lexemesOf ps ∨
          (repl'.round line).awaits = false ∧ ∃ ps₁ ps₂,
            meaningful (repl'.buffer ++ line) = lexemesOf ps₁ ∧
              meaningful (String.join lines) = lexemesOf ps₂ ∧
                treesOf ps = treesOf ps₁ ++ treesOf ps₂) := by
  rcases prompt_eq prompted with ⟨heap, buffer, _⟩
  have standing : Standing repl'.heap := heap ▸ g.standing
  have judged : (repl'.round line).awaits = Parsing.awaits [] (meaningful (repl'.buffer ++ line)) :=
    awaitsMore_eq_awaits room standing.wellFormed
  have spelled := g.spelled
  rw [String.join_cons, ← buffer, ← String.append_assoc] at spelled
  -- Unless the line is the last one it ends with a line feed, and so does the text.
  have ends : EndsLine (repl'.buffer ++ line).toList ∨ String.join lines = "" := by
    cases lines with
    | nil => exact .inr rfl
    | cons second others =>
        rcases g.broken line (by rw [List.dropLast_cons_cons]; exact List.mem_cons_self) with
          ⟨before, feed⟩
        refine .inl ?_
        rw [String.toList_append, feed, ← List.append_assoc]
        exact EndsLine.concat _
  have broken : ∀ line ∈ lines.dropLast, ∃ before, line.toList = before ++ ['\n'] := by
    cases lines with
    | nil => exact List.forall_mem_nil _
    | cons second others =>
        intro other member
        refine g.broken other ?_
        rw [List.dropLast_cons_cons]
        exact List.mem_cons_of_mem _ member
  refine ⟨standing_awaitsMoreFrom standing _, broken, ?_⟩
  rw [judged]
  rcases complete_or_awaits ends spelled with ⟨awaits, more⟩ | complete
  · refine .inl ⟨awaits, ?_, spelled⟩
    rintro rfl
    exact more rfl
  · exact .inr complete

/-- Nothing is left over when no lines are left. -/
theorem Gathers.nil (g : Gathers repl [] ps) : ps = [] ∧ repl.buffer ++ String.join [] = "" := by
  have spelled := g.spelled
  rw [g.empty rfl] at spelled ⊢
  exact ⟨eq_of_lexemesOf (spelled.symm.trans meaningful_empty), rfl⟩

theorem Delivery.refused (g : Gathers repl lines ps)
    (undisturbed : result.1 ≠ 1 → lines = [] ∧ result.1 = 0 ∧ result.2.err = repl.err) :
    Delivery maxDepth repl lines [] result (treesOf ps) [] := by
  refine ⟨.nil, ⟨_, String.empty_append⟩, List.nil_prefix, fun all => ?_, fun _ notRefused => ?_⟩
  · cases List.length_eq_zero_iff.1 all.symm
    rcases g.nil with ⟨rfl, none⟩
    rw [none]
    exact ⟨rfl, rfl⟩
  · rcases undisturbed notRefused with ⟨rfl, ends, err⟩
    exact ⟨rfl, ends, err⟩

variable {ts ts' : List Tree} {tss : List (List Tree)}

/-- A text that is kept is part of the next one. -/
theorem Delivery.keeps (d : Delivery maxDepth (repl'.keep line) lines rounds result ts tss)
    (prompted : repl.prompt = (true, repl')) (awaits : (repl'.round line).awaits = true) :
    Delivery maxDepth repl (line :: lines) (repl'.round line :: rounds) result ts tss := by
  rcases prompt_eq prompted with ⟨_, buffer, err⟩
  have text : repl.buffer ++ String.join (line :: lines) =
      (repl'.keep line).buffer ++ String.join lines := by
    show _ = repl'.buffer ++ line ++ String.join lines
    rw [String.join_cons, buffer, String.append_assoc]
  have same : ((repl'.round line :: rounds).filter fun round => !round.awaits) =
      rounds.filter fun round => !round.awaits :=
    List.filter_cons_of_neg (by simp [awaits])
  refine ⟨same ▸ d.delivers, ?_, d.trees, fun all => ?_, fun done notRefused => ?_⟩
  · rw [same, text]
    exact d.texts
  · rw [same, text]
    exact d.whole (Nat.succ.inj all)
  · rw [same] at done
    rcases d.undisturbed done notRefused with ⟨all, ends, unchanged⟩
    exact ⟨congrArg Nat.succ all, ends, unchanged.trans err⟩

/-- Behind a text that is handed over nothing of it is left. -/
theorem Delivery.goesOn (d : Delivery maxDepth next lines rounds result ts' tss)
    (delivers : Delivers maxDepth (repl'.round line) ts)
    (prompted : repl.prompt = (true, repl')) (complete : (repl'.round line).awaits = false)
    (afresh : next.buffer = "")
    (quiet : ((repl'.round line).evaluation maxDepth).1 = .ok () → next.err = repl'.err) :
    Delivery maxDepth repl (line :: lines) (repl'.round line :: rounds) result (ts ++ ts')
      (ts :: tss) := by
  rcases prompt_eq prompted with ⟨_, buffer, err⟩
  have text : repl.buffer ++ String.join (line :: lines) =
      (repl'.round line).text ++ (next.buffer ++ String.join lines) := by
    show _ = repl'.buffer ++ line ++ _
    rw [String.join_cons, buffer, afresh, String.append_assoc, String.empty_append]
  have one : ((repl'.round line :: rounds).filter fun round => !round.awaits) =
      repl'.round line :: rounds.filter fun round => !round.awaits :=
    List.filter_cons_of_pos (by simp [complete])
  refine ⟨one ▸ .cons delivers d.delivers, ?_, ?_, fun all => ?_, fun done notRefused => ?_⟩
  · rcases d.texts with ⟨rest, texts⟩
    refine ⟨rest, ?_⟩
    rw [one, List.map_cons, String.join_cons, text, ← texts, String.append_assoc]
  · exact (List.prefix_append_right_inj ts).2 d.trees
  · rcases d.whole (Nat.succ.inj all) with ⟨texts, trees⟩
    rw [one, List.map_cons, String.join_cons, text, texts, List.flatten_cons, trees]
    exact ⟨rfl, rfl⟩
  · rw [one] at done
    rcases List.forall_mem_cons.1 done with ⟨first, others⟩
    rcases d.undisturbed others notRefused with ⟨all, ends, unchanged⟩
    exact ⟨congrArg Nat.succ all, ends, (unchanged.trans (quiet first)).trans err⟩

/-- With an exit the loop ends in front of the lines that are left. -/
theorem Delivery.stops {status : Int32} (delivers : Delivers maxDepth (repl'.round line) ts)
    (prompted : repl.prompt = (true, repl')) (complete : (repl'.round line).awaits = false)
    (none : lines = [] → ts' = []) (exits : ((repl'.round line).evaluation maxDepth).1 ≠ .ok ()) :
    Delivery maxDepth repl (line :: lines) [repl'.round line] (status, next) (ts ++ ts') [ts] := by
  rcases prompt_eq prompted with ⟨_, buffer, _⟩
  have text : repl.buffer ++ String.join (line :: lines) =
      (repl'.round line).text ++ String.join lines := by
    show _ = repl'.buffer ++ line ++ _
    rw [String.join_cons, buffer, String.append_assoc]
  have one : ([repl'.round line].filter fun round => !round.awaits) = [repl'.round line] :=
    List.filter_cons_of_pos (by simp [complete])
  have alone : String.join ([repl'.round line].map Round.text) = (repl'.round line).text := by
    rw [List.map_singleton, String.join_cons]
    exact String.append_empty
  refine ⟨?_, ?_, ?_, fun all => ?_, fun done _ => ?_⟩
  · rw [one]
    exact .cons delivers .nil
  · rw [one, alone, text]
    exact ⟨_, rfl⟩
  · rw [List.flatten_singleton]
    exact List.prefix_append ts ts'
  · cases List.length_eq_zero_iff.1 (Nat.succ.inj all).symm
    rw [one, alone, text, none rfl, List.flatten_singleton, List.append_nil]
    exact ⟨String.append_empty.symm, rfl⟩
  · rw [one] at done
    exact absurd (done _ List.mem_cons_self) exits

/-- Round by round the forms of the text are delivered. -/
theorem Course.delivery (course : Course maxDepth repl lines rounds result)
    (g : Gathers repl lines ps) (room : ∀ round ∈ rounds, round.HasRoom) :
    ∃ tss, Delivery maxDepth repl lines rounds result (treesOf ps) tss := by
  -- Induction on the rounds; the text that is gathered goes over into the lines that are left.
  induction course generalizing ps with
  | refused prompted => exact ⟨[], .refused g fun other => absurd rfl other⟩
  | ended prompted =>
      exact ⟨[], .refused g fun _ => ⟨rfl, rfl, (prompt_eq prompted).2.2⟩⟩
  | @keeps repl repl' line lines rounds result prompted judgement _ ih =>
      rcases List.forall_mem_cons.1 room with ⟨first, others⟩
      rcases g.round prompted first with ⟨standing, broken, ⟨_, more, spelled⟩ | ⟨complete, _⟩⟩
      · rcases ih ⟨standing, spelled, fun empty => absurd empty more, broken⟩ others with ⟨tss, d⟩
        exact ⟨tss, d.keeps prompted judgement⟩
      · rw [judgement] at complete
        cases complete
  | @goesOn repl repl' next line lines rounds result prompted judgement evaluated _ ih =>
      rcases List.forall_mem_cons.1 room with ⟨first, others⟩
      rcases g.round prompted first with
        ⟨standing, broken, ⟨awaits, _⟩ | ⟨_, ps₁, ps₂, spelled₁, spelled₂, trees⟩⟩
      · rw [judgement] at awaits
        cases awaits
      · rcases evaluate_goOn evaluated with ⟨heap, afresh, quiet⟩
        have left : Standing next.heap := by
          rw [heap]
          exact (passes_evaluateSource maxDepth _ _ _).standing standing
        have others' : meaningful (next.buffer ++ String.join lines) = lexemesOf ps₂ := by
          rw [afresh, String.empty_append, spelled₂]
        rcases ih ⟨left, others', fun _ => afresh, broken⟩ others with ⟨tss, d⟩
        rw [trees]
        exact ⟨_, d.goesOn (delivers_of_phrases standing spelled₁) prompted judgement afresh quiet⟩
  | @stops repl repl' next line lines status prompted judgement evaluated =>
      rcases List.forall_mem_cons.1 room with ⟨first, others⟩
      rcases g.round prompted first with
        ⟨standing, broken, ⟨awaits, _⟩ | ⟨_, ps₁, ps₂, spelled₁, spelled₂, trees⟩⟩
      · rw [judgement] at awaits
        cases awaits
      · have none : lines = [] → treesOf ps₂ = [] := by
          rintro rfl
          rw [eq_of_lexemesOf (spelled₂.symm.trans meaningful_empty)]
          rfl
        rw [trees]
        exact ⟨_, .stops (delivers_of_phrases standing spelled₁) prompted judgement none
          (evaluate_stop evaluated)⟩

end Delivering

/-- The rounds of the loop over an input that is text, on a heap of its own. -/
def roundsOf (maxDepth : Nat) (h : Heap) (out : Sink) (s : String) : List Round :=
  rounds maxDepth ⟨h, "", out, ""⟩ (InputLine.all s.toUTF8)

/-- The texts that are handed over to evaluation, with what they are evaluated on. -/
def handedOf (maxDepth : Nat) (h : Heap) (out : Sink) (s : String) : List Round :=
  handed maxDepth ⟨h, "", out, ""⟩ (InputLine.all s.toUTF8)

/--
If a text can be read to its end and the heap has enough room for judging, then the texts that the
loop hands over make up the text, or a beginning of it if the loop has stopped early. Each of them
can be read to its end, their trees are those of the whole text, and in evaluation each of these is
read and evaluated once, in their order. If no evaluation comes to a fatal condition or finds the
output closed, and neither does a prompt, then all of it is evaluated and nothing is reported.
-/
theorem handed_of_readAll {options : Options} {s : String} {h h₀ h₀' : Heap} {forms : List Value}
    (w₀ : h₀.WellFormed) (accepted : Reader.readAll s h₀ = .ok forms h₀')
    (standard : Heap.standard options.capacity = .ok h) (out : Sink)
    (room : ∀ round ∈ roundsOf options.maxDepth h out s, round.HasRoom) :
    ∃ (ts : List Tree) (tss : List (List Tree)), List.Forall₂ h₀'.Depicts forms ts ∧
      List.Forall₂ (Delivers options.maxDepth) (handedOf options.maxDepth h out s) tss ∧
      (∃ rest, String.join ((handedOf options.maxDepth h out s).map Round.text) ++ rest = s) ∧
      tss.flatten <+: ts ∧
      ((roundsOf options.maxDepth h out s).length = (InputLine.all s.toUTF8).length →
        String.join ((handedOf options.maxDepth h out s).map Round.text) = s ∧
          tss.flatten = ts) ∧
      ((∀ round ∈ handedOf options.maxDepth h out s, ∀ f,
          (round.evaluation options.maxDepth).1 = .error f → f.fatal? = none ∧ f ≠ .output) →
        (run options (InputLine.all s.toUTF8) out).status ≠ 1 →
          (roundsOf options.maxDepth h out s).length = (InputLine.all s.toUTF8).length ∧
          (∀ round ∈ handedOf options.maxDepth h out s,
            (round.evaluation options.maxDepth).1 = .ok ()) ∧
          (run options (InputLine.all s.toUTF8) out).status = 0 ∧
          (run options (InputLine.all s.toUTF8) out).err = "") := by
  rcases Reader.exists_phrases_of_readAll w₀ accepted with ⟨ps, spelled, depicted⟩
  rcases InputLine.exists_lines s with ⟨lines, cut, joined, broken⟩
  have ran : run options (InputLine.all s.toUTF8) out =
      { status := (loop options.maxDepth ⟨h, "", out, ""⟩ (lines.map .text)).1
        out := (loop options.maxDepth ⟨h, "", out, ""⟩ (lines.map .text)).2.out
        err := (loop options.maxDepth ⟨h, "", out, ""⟩ (lines.map .text)).2.err
        journal := (loop options.maxDepth ⟨h, "", out, ""⟩ (lines.map .text)).2.heap.journal } := by
    unfold run
    rw [standard, cut]
  have gathers : Gathers ⟨h, "", out, ""⟩ lines ps := by
    refine ⟨standing_standard standard, ?_, fun _ => rfl, broken⟩
    rw [joined, String.empty_append]
    exact spelled
  unfold handedOf handed
  unfold roundsOf at room ⊢
  rw [ran]
  rw [cut] at room ⊢
  rcases (course_loop options.maxDepth ⟨h, "", out, ""⟩ lines).delivery gathers room with ⟨tss, d⟩
  have texts := d.texts
  have whole := d.whole
  rw [joined, String.empty_append] at texts whole
  rw [List.length_map]
  refine ⟨treesOf ps, tss, depicted, d.delivers, texts, d.trees, whole, fun calm written => ?_⟩
  have done : ∀ round ∈ (rounds options.maxDepth ⟨h, "", out, ""⟩ (lines.map .text)).filter
      fun round => !round.awaits, (round.evaluation options.maxDepth).1 = .ok () := by
    intro round member
    rcases List.forall₂_iff_get.1 d.delivers with ⟨length, delivers⟩
    rcases List.mem_iff_get.1 member with ⟨i, rfl⟩
    exact (delivers i.val i.isLt (length ▸ i.isLt)).ok (calm _ member)
  rcases d.undisturbed done written with ⟨all, ends, quiet⟩
  exact ⟨all, done, ends, quiet⟩

/-- The empty list with a line break in it. -/
def brokenList : String := "(\n)\n"

theorem meaningful_brokenList : meaningful brokenList = lexemesOf
    [.list ⟨⟨.opening, "(", ⟨0, 1⟩⟩, rfl⟩ [] ⟨⟨.closing, ")", ⟨2, 3⟩⟩, rfl⟩] := by decide +kernel

/-- It evaluates to itself wherever an evaluator can be made. -/
theorem evaluateSource_brokenList (maxDepth : Nat) {h : Heap} (room : h.live + 6 ≤ h.capacity)
    (bytes : ByteArray) :
    ∃ h' bytes', evaluateSource maxDepth brokenList each h ⟨bytes, none⟩ =
      (.ok (), h', ⟨bytes', none⟩) := by
  rcases Evaluator.fits_make maxDepth h room with ⟨ev, h₁, made, _⟩
  have lexed : Reader.ofSource brokenList =
      ⟨[⟨.opening, "(", ⟨0, 1⟩⟩, ⟨.closing, ")", ⟨2, 3⟩⟩], 0, 4⟩ := by
    show Reader.mk (meaningful brokenList) 0 _ = _
    rw [meaningful_brokenList]
    rfl
  have first : (Reader.ofSource brokenList).read h₁ =
      ⟨.ok (some .nil), ⟨[], 3, 4⟩, h₁.truncateRoots h₁.roots.length⟩ := by
    rw [lexed]
    rfl
  generalize h₁.truncateRoots h₁.roots.length = h₂ at first
  have itself : ev.evaluateForm .nil h₂ = .ok .nil (h₂.truncateRoots h₂.roots.length) := by
    refine HeapM.scope_ok ?_
    show ev.eval ev.limit .nil h₂.rootEnv h₂ = _
    unfold Evaluator.eval
    rfl
  generalize h₂.truncateRoots h₂.roots.length = h₃ at itself
  have printed : each h₃ .nil ⟨bytes, none⟩ =
      (.ok (), ⟨bytes ++ (h₃.write .nil ++ "\n").toUTF8, none⟩) := rfl
  refine ⟨h₃.truncateRoots h₃.roots.length, bytes ++ (h₃.write .nil ++ "\n").toUTF8, ?_⟩
  unfold evaluateSource
  rw [made]
  dsimp only
  rw [ev.evaluateRest_eq, first]
  dsimp only
  rw [itself]
  dsimp only
  rw [printed]
  dsimp only
  rw [ev.evaluateRest_eq]
  rfl

/-- The first round keeps its line, the second one hands over both. -/
theorem rounds_brokenList (maxDepth : Nat) {h : Heap} (w : h.WellFormed)
    (room : h.live + 20 ≤ h.capacity) : ∃ first second : Round, ∃ repl : Repl,
      roundsOf maxDepth h (Sink.ofLimit none) brokenList = [first, second] ∧
        handedOf maxDepth h (Sink.ofLimit none) brokenList = [second] ∧ first.HasRoom ∧
          second.HasRoom ∧ (second.evaluation maxDepth).1 = .ok () ∧
            loop maxDepth ⟨h, "", Sink.ofLimit none, ""⟩ (InputLine.all brokenList.toUTF8) =
              (0, repl) := by
  have lines : InputLine.all brokenList.toUTF8 = [.text "(\n", .text ")\n"] := by decide +kernel
  have part : meaningful "(\n" = [⟨.opening, "(", ⟨0, 1⟩⟩] := by decide +kernel
  have size₁ : (Reader.ofSource "(\n").lexemes.length = 1 := congrArg List.length part
  have size₂ : (Reader.ofSource brokenList).lexemes.length = 2 :=
    congrArg List.length meaningful_brokenList
  -- Judging the first line takes at most three slots.
  rcases hasRoomToEnd_of_le (r := Reader.ofSource "(\n") (h := h) (n := 17) (by omega) with
    ⟨room₁, left₁⟩
  let prompts₁ := ByteArray.empty ++ "lis> ".toUTF8
  let begun : Repl := ⟨h, "", ⟨prompts₁, none⟩, ""⟩
  have prompted₁ : prompt ⟨h, "", Sink.ofLimit none, ""⟩ = (true, begun) := rfl
  have kept : (begun.round "(\n").awaits = true := by
    refine (awaitsMore_eq_awaits room₁ w).trans ?_
    rw [part]
    rfl
  have step₁ : begun.feed maxDepth (.text "(\n") = .goOn (begun.keep "(\n") := by
    rw [feed_text, if_pos kept]
  -- The second line is judged with the first one, on the heap that this has left.
  let h₁ := (begun.round "(\n").judged
  have w₁ : h₁.WellFormed :=
    (evolves_awaitsMoreFrom (Reader.meaningful_ofSource _) w).wellFormed
  have enough : h₁.live + 17 ≤ h₁.capacity := left₁
  rcases hasRoomToEnd_of_le (r := Reader.ofSource brokenList) (h := h₁) (n := 11) (by omega) with
    ⟨room₂, left₂⟩
  let prompts₂ := prompts₁ ++ "...  ".toUTF8
  let continued : Repl := ⟨h₁, "(\n", ⟨prompts₂, none⟩, ""⟩
  have prompted₂ : (begun.keep "(\n").prompt = (true, continued) := rfl
  have complete : (continued.round ")\n").awaits = false := by
    refine (awaitsMore_eq_awaits room₂ w₁).trans ?_
    rw [meaningful_brokenList]
    rfl
  let h₂ := (continued.round ")\n").judged
  have enough' : h₂.live + 11 ≤ h₂.capacity := left₂
  rcases evaluateSource_brokenList maxDepth (h := h₂) (by omega) prompts₂ with
    ⟨h₃, bytes, evaluated⟩
  have step₂ : continued.feed maxDepth (.text ")\n") = .goOn ⟨h₃, "", ⟨bytes, none⟩, ""⟩ := by
    rw [feed_text, if_neg (by simp [complete])]
    unfold evaluate
    rw [show continued.buffer ++ ")\n" = brokenList from rfl,
      show continued.out = ⟨prompts₂, none⟩ from rfl, evaluated]
  have both : roundsOf maxDepth h (Sink.ofLimit none) brokenList =
      [begun.round "(\n", continued.round ")\n"] := by
    unfold roundsOf
    rw [lines, rounds, prompted₁]
    dsimp only
    rw [step₁]
    dsimp only
    rw [rounds, prompted₂]
    dsimp only
    rw [step₂]
    rfl
  refine ⟨_, _, (prompt ⟨h₃, "", ⟨bytes, none⟩, ""⟩).2.finish, both, ?_, room₁, room₂, ?_, ?_⟩
  · unfold roundsOf at both
    unfold handedOf handed
    rw [both]
    simp [kept, complete]
  · exact congrArg Prod.fst evaluated
  · rw [lines, loop, prompted₁]
    dsimp only
    rw [step₁]
    dsimp only
    rw [loop, prompted₂]
    dsimp only
    rw [step₂]
    rfl

/-- The list is read as a whole, and the loop that gets it line by line evaluates it once. -/
theorem handed_of_readAll_brokenList : ∃ h h₀' forms round,
    Reader.readAll brokenList (Heap.empty 20) = .ok forms h₀' ∧
      Heap.standard Options.default.capacity = .ok h ∧
      (∀ round ∈ roundsOf Options.default.maxDepth h (Sink.ofLimit none) brokenList,
        round.HasRoom) ∧
      handedOf Options.default.maxDepth h (Sink.ofLimit none) brokenList = [round] ∧
      round.text = brokenList ∧ Delivers Options.default.maxDepth round [.nil] ∧
      (round.evaluation Options.default.maxDepth).1 = .ok () ∧
      (run Options.default (InputLine.all brokenList.toUTF8) (Sink.ofLimit none)).status = 0 ∧
      (run Options.default (InputLine.all brokenList.toUTF8) (Sink.ofLimit none)).err = "" := by
  rcases Reader.readsAs_of_phrases meaningful_brokenList (Heap.empty 20) (Heap.wellFormed_empty 20)
    (by decide +kernel) with ⟨forms, h₀', accepted, shown⟩
  rcases Heap.standard_ok (show 102 ≤ Options.default.capacity by decide) with
    ⟨h, standard, capacity, live⟩
  have enough : 1000 ≤ h.capacity := by
    rw [capacity]
    decide
  rcases rounds_brokenList Options.default.maxDepth (Heap.wellFormed_standard standard)
    (by omega) with ⟨first, second, repl, both, one, room₁, room₂, done, ends⟩
  have room : ∀ round ∈ roundsOf Options.default.maxDepth h (Sink.ofLimit none) brokenList,
      round.HasRoom := by
    rw [both]
    exact List.forall_mem_cons.2 ⟨room₁, List.forall_mem_singleton.2 room₂⟩
  have calm : ∀ round ∈ handedOf Options.default.maxDepth h (Sink.ofLimit none) brokenList, ∀ f,
      (round.evaluation Options.default.maxDepth).1 = .error f → f.fatal? = none ∧ f ≠ .output := by
    rw [one]
    refine List.forall_mem_singleton.2 fun f failed => ?_
    rw [done] at failed
    cases failed
  have written : (run Options.default (InputLine.all brokenList.toUTF8)
      (Sink.ofLimit none)).status ≠ 1 := by
    unfold run
    rw [standard]
    dsimp only
    rw [ends]
    show (0 : Int32) ≠ 1
    decide
  rcases handed_of_readAll (Heap.wellFormed_empty 20) accepted standard (Sink.ofLimit none) room
    with ⟨ts, tss, depicted, delivers, _, _, whole, undisturbed⟩
  rcases undisturbed calm written with ⟨all, _, status, err⟩
  rcases whole all with ⟨texts, trees⟩
  rw [one] at delivers texts
  rcases delivers with _ | ⟨delivers, _ | _⟩
  have same : ts = [.nil] :=
    List.right_unique_forall₂' (fun _ _ _ one other => one.unique other) depicted shown
  rw [List.flatten_singleton, same] at trees
  rw [trees] at delivers
  have text : second.text = brokenList := by
    simpa [String.join_cons] using texts
  exact ⟨h, h₀', forms, second, accepted, standard, room, one, text, delivers, done, status, err⟩

end Repl

end Lisplet
