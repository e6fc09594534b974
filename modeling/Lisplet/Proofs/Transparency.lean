import Lisplet.Command.Evaluate
import Lisplet.Proofs.Reuse
import Lisplet.Proofs.Simulation.Evaluation
import Lisplet.Proofs.Simulation.Graph
import Lisplet.Proofs.Simulation.Reading

/-!
# Transparency — programs do not notice collections

How often and when a heap is collected depends on its capacity. The results of a program do not:
if a source text can be run at some capacity without running out of memory, then at any greater
capacity it has the same results and ends in the same way.
-/

namespace Lisplet

instance : Simulation.Exhaustible Failure :=
  ⟨fun f => ∃ live capacity, f.fatal? = some (.outOfMemory live capacity)⟩

namespace Simulation

variable {ρ : Pairing} {h h' : Heap} {ev ev' : Evaluator}

/-! ## Forms -/

/-- The form symbols have been interned, and so are never collected. -/
theorem agrees_make (limit : Nat) (s : Simulates ρ h h') :
    Agrees ρ h h' (Evaluator.make limit) (Evaluator.make limit)
      fun σ h₁ ev ev' => Settled ev ev' σ h₁ := by
  refine .bind (Q := fun σ h₁ f f' => Settled ⟨f, limit⟩ ⟨f', limit⟩ σ h₁) ?_
    fun σ h₁ h₁' f f' s₁ _ settled => .pure s₁ settled
  refine .bind (agrees_intern s "quote") fun _ _ _ quote quote' s₁ _ kept₁ => ?_
  refine .bind (agrees_intern s₁ "if") fun _ _ _ conditional conditional' s₂ k₂ kept₂ => ?_
  refine .bind (agrees_intern s₂ "set!") fun _ _ _ assignment assignment' s₃ k₃ kept₃ => ?_
  refine .bind (agrees_intern s₃ "define") fun _ _ _ definition definition' s₄ k₄ kept₄ => ?_
  refine .bind (agrees_intern s₄ "lambda") fun _ _ _ abstraction abstraction' s₅ k₅ kept₅ => ?_
  refine .bind (agrees_intern s₅ "begin") fun _ _ _ sequence sequence' s₆ k₆ kept₆ => ?_
  -- Each symbol is kept by what follows it, counted from the last one.
  have since₅ := k₆
  have since₄ := k₅.trans since₅
  have since₃ := k₄.trans since₄
  have since₂ := k₃.trans since₃
  have since₁ := k₂.trans since₂
  exact .pure s₆ ⟨rfl, since₁.kept kept₁, since₂.kept kept₂, since₃.kept kept₃, since₄.kept kept₄,
    since₅.kept kept₅, kept₆⟩

theorem agrees_evaluateForm (s : Simulates ρ h h') (settled : Settled ev ev' ρ h)
    {form form' : Value} (twins : Twins ρ .datum form form') :
    Agrees ρ h h' (ev.evaluateForm form) (ev'.evaluateForm form')
      fun σ _ v v' => Answers σ v v' := by
  refine .scope s ?_ fun _ _ _ _ _ answers => answers
  refine .root_bind s twins fun s₁ _ => .get_bind ?_
  have settled := (Retains.addRoot ρ h form).settled settled
  unfold Evaluator.evaluate
  rw [settled.limit_eq]
  exact (evaluates_and_applies ev ev' ev.limit).1 _ _ _ _ _ _ _ s₁
    ⟨settled, .root .environment, s₁.rootEnv⟩ twins

end Simulation

/-! ## Source texts -/

namespace Evaluator

variable {τ : Type} (ev : Evaluator) (each : Heap → Value → τ → Except Failure Unit × τ)
  (r : Reader) (h : Heap) (t : τ)

/-- What one round does, without the proofs that the rest of the text is shorter. -/
theorem evaluateRest_eq :
    ev.evaluateRest each r h t =
      match r.read h with
      | ⟨.error e, _, h⟩ => (.error (.read e), h, t)
      | ⟨.ok none, _, h⟩ => (.ok (), h, t)
      | ⟨.ok (some form), r, h⟩ =>
        match ev.evaluateForm form h with
        | .error cause h => (.error (.fatal cause), h, t)
        | .ok value h =>
          match each h value t with
          | (.error e, t) => (.error e, h, t)
          | (.ok (), t) => ev.evaluateRest each r h t := by
  rw [evaluateRest]
  split
  · next reading =>
    rewrite [reading]
    rfl
  · next reading =>
    rewrite [reading]
    rfl
  · next reading =>
    rewrite [reading]
    rfl

end Evaluator

namespace Simulation

section Sources

variable {τ τ' : Type} {each : Heap → Value → τ → Except Failure Unit × τ}
  {each' : Heap → Value → τ' → Except Failure Unit × τ'} {S : τ → τ' → Prop}

/-- Two runs end in the same way and with related states, or the first runs out of memory. -/
inductive RunsAgree (S : τ → τ' → Prop) :
    Except Failure Unit × Heap × τ → Except Failure Unit × Heap × τ' → Prop where
  | exhausted {f : Failure} {h₁ : Heap} {t : τ} {run : Except Failure Unit × Heap × τ'} :
      Exhaustible.Exhausted f → RunsAgree S (.error f, h₁, t) run
  | ends {outcome : Except Failure Unit} {h₁ h₁' : Heap} {t : τ} {t' : τ'} : S t t' →
      RunsAgree S (outcome, h₁, t) (outcome, h₁', t')

/-- Two observers do the same when they are handed the same value. -/
def Respects (S : τ → τ' → Prop) (each : Heap → Value → τ → Except Failure Unit × τ)
    (each' : Heap → Value → τ' → Except Failure Unit × τ') : Prop :=
  ∀ h h' v v' t t', h.Same v h' v' → S t t' →
    (each' h' v' t').1 = (each h v t).1 ∧ S (each h v t).2 (each' h' v' t').2

/-- Form by form the heaps stay in correspondence, and the observers see the same values. -/
theorem evaluateRest_agrees (respects : Respects S each each') (r : Reader) {h h' : Heap}
    {ρ : Pairing} {ev ev' : Evaluator} {t : τ} {t' : τ'} (s : Simulates ρ h h')
    (settled : Settled ev ev' ρ h) (related : S t t') :
    RunsAgree S (ev.evaluateRest each r h t) (ev'.evaluateRest each' r h' t') := by
  -- Induction on the lexemes that are left, of which every expression takes some.
  induction length : r.lexemes.length using Nat.strongRecOn generalizing r ρ h h' t t' with
  | ind n ih =>
      have readings := read_agrees r s
      rw [ev.evaluateRest_eq, ev'.evaluateRest_eq]
      generalize reading : r.read h = x at readings ⊢
      generalize r.read h' = x' at readings ⊢
      cases readings with
      | exhausted none =>
          rcases none with ⟨live, capacity, cause⟩
          exact .exhausted ⟨live, capacity, cause⟩
      | fails => exact .ends related
      | nothing => exact .ends related
      | @datum σ form form' r₁ h₁ h₁' s₁ retains twins =>
          have shorter : r₁.lexemes.length < n := length ▸ Reader.length_lt_of_read reading
          have settled := retains.settled settled
          have step := agrees_evaluateForm s₁ settled twins
          dsimp only
          unfold Agrees at step
          generalize ev.evaluateForm form h₁ = result at step ⊢
          generalize ev'.evaluateForm form' h₁' = result' at step ⊢
          cases step with
          | exhausted none =>
              rcases none with ⟨live, capacity, rfl⟩
              exact .exhausted ⟨live, capacity, rfl⟩
          | fails => exact .ends related
          | @ends τ v v' h₂ h₂' s₂ retains' answers =>
              -- The observers are handed the same value, so they decide alike.
              have seen := respects h₂ h₂' v v' t t' (s₂.same_of_answers answers) related
              dsimp only
              generalize each h₂ v t = y at seen ⊢
              generalize each' h₂' v' t' = y' at seen ⊢
              rcases y with ⟨outcome, t₁⟩
              rcases y' with ⟨outcome', t₁'⟩
              rcases seen with ⟨same, related⟩
              dsimp only at same related
              subst same
              cases outcome' with
              | error e => exact .ends related
              | ok _ =>
                  exact ih _ shorter r₁ s₂ (retains'.settled settled) related rfl

theorem evaluateSource_agrees (respects : Respects S each each') (limit : Nat) (source : String)
    {h h' : Heap} {ρ : Pairing} {t : τ} {t' : τ'} (s : Simulates ρ h h') (related : S t t') :
    RunsAgree S (evaluateSource limit source each h t)
      (evaluateSource limit source each' h' t') := by
  have step := agrees_make limit s
  unfold evaluateSource
  unfold Agrees at step
  generalize Evaluator.make limit h = result at step ⊢
  generalize Evaluator.make limit h' = result' at step ⊢
  cases step with
  | exhausted none =>
      rcases none with ⟨live, capacity, rfl⟩
      exact .exhausted ⟨live, capacity, rfl⟩
  | fails => exact .ends related
  | ends s₁ _ settled => exact evaluateRest_agrees respects _ s₁ settled related

end Sources

/-! ## The first heaps -/

/-- The root environments and the symbols `t` of two empty heaps. -/
def beginning : Pairing := fun r i j =>
  (r = .frame ∧ i = 0 ∧ j = 0) ∨ (r = .datum ∧ i = 1 ∧ j = 1)

theorem simulates_empty {c c' : Nat} (le : c ≤ c') :
    Simulates beginning (.empty c) (.empty c') := by
  -- Slot 0 is the root environment and slot 1 the symbol, on both sides.
  refine ⟨⟨?_, ?_, ?_, ?_, ?_, .nil, ⟨rfl, rfl⟩⟩, Heap.wellFormed_empty c, Heap.wellFormed_empty c',
    ?_, ?_⟩
  · rintro r q i j k (⟨rfl, rfl, rfl⟩ | ⟨rfl, rfl, rfl⟩) (⟨rfl, same, rfl⟩ | ⟨rfl, same, rfl⟩)
    · exact ⟨rfl, rfl⟩
    · cases same
    · cases same
    · exact ⟨rfl, rfl⟩
  · rintro r q i j k (⟨rfl, rfl, rfl⟩ | ⟨rfl, rfl, rfl⟩) (⟨rfl, rfl, same⟩ | ⟨rfl, rfl, same⟩)
    · rfl
    · cases same
    · cases same
    · rfl
  · rintro r i j (⟨rfl, rfl, rfl⟩ | ⟨rfl, rfl, rfl⟩)
    · exact ⟨_, _, rfl, rfl, .root trivial⟩
    · exact ⟨_, _, rfl, rfl, .plain trivial⟩
  · exact .inl ⟨rfl, rfl, rfl⟩
  · intro name
    rw [Heap.symbols_empty, Heap.symbols_empty]
    split
    · exact .some (.inr ⟨rfl, rfl, rfl⟩)
    · exact .none
  · show min c (Value.maxSlots - 1) ≤ min c' (Value.maxSlots - 1)
    omega
  · refine ⟨fun _ => 0, ?_⟩
    rintro r i j o k (⟨rfl, rfl, rfl⟩ | ⟨rfl, rfl, rfl⟩) found member
    · cases found
      cases member
    · cases found
      cases member

/-- The heaps with the standard primitives correspond, unless the smaller one has no room. -/
theorem standard_cases {c c' : Nat} (le : c ≤ c') :
    (∃ e, Heap.standard c = .error e ∧ Exhaustible.Exhausted e) ∨
      (∃ e, Heap.standard c = .error e ∧ Heap.standard c' = .error e) ∨
        ∃ ρ h h', Heap.standard c = .ok h ∧ Heap.standard c' = .ok h' ∧ Simulates ρ h h' := by
  have s := simulates_empty le
  have step := agrees_definePrimitives s s.rootEnv fun p member => member
  unfold Heap.standard
  dsimp only
  unfold Agrees at step
  generalize (Heap.empty c).rootEnv.definePrimitives Primitive.standard (.empty c) = result
    at step ⊢
  generalize (Heap.empty c').rootEnv.definePrimitives Primitive.standard (.empty c') = result'
    at step ⊢
  cases step with
  | @exhausted e _ _ none => exact .inl ⟨e, rfl, none⟩
  | @fails e _ _ => exact .inr (.inl ⟨e, rfl, rfl⟩)
  | @ends σ _ _ h₁ h₁' s₁ _ _ => exact .inr (.inr ⟨σ, h₁, h₁', rfl, rfl, s₁⟩)

end Simulation

/-! ## Transcripts -/

/-- An observer that keeps each result together with the heap it is in. -/
def record (h : Heap) (value : Value) (results : List (Heap × Value)) :
    Except Failure Unit × List (Heap × Value) := (.ok (), results ++ [(h, value)])

/-- How a source text ends on a new heap of some capacity, and its results in order. -/
def transcript (capacity limit : Nat) (source : String) :
    Except Failure Unit × List (Heap × Value) :=
  match Heap.standard capacity with
  | .error cause => (.error (.fatal cause), [])
  | .ok h =>
    match evaluateSource limit source record h [] with
    | (outcome, _, results) => (outcome, results)

/-- Whether a run ended because there was no memory left even after a collection. -/
def RanOutOfMemory (outcome : Except Failure Unit) : Prop :=
  ∃ f live capacity, outcome = .error f ∧ f.fatal? = some (.outOfMemory live capacity)

theorem respects_record :
    Simulation.Respects (List.Forall₂ fun p p' : Heap × Value => p.1.Same p.2 p'.1 p'.2)
      record record := by
  intro h h' v v' results results' same related
  exact ⟨rfl, List.rel_append related (.cons same .nil)⟩

/--
Collections are invisible to programs. What a source text gives at some capacity it gives at every
greater one: if the first run does not run out of memory, neither does the second, both end in the
same way, and their results are the same values, one by one.
-/
theorem transcript_of_le {c c' : Nat} (le : c ≤ c') (limit : Nat) (source : String)
    (enough : ¬ RanOutOfMemory (transcript c limit source).1) :
    (transcript c' limit source).1 = (transcript c limit source).1 ∧
      List.Forall₂ (fun p p' : Heap × Value => p.1.Same p.2 p'.1 p'.2)
        (transcript c limit source).2 (transcript c' limit source).2 := by
  unfold transcript at enough ⊢
  rcases Simulation.standard_cases le with ⟨e, step, none⟩ | ⟨e, step, step'⟩ |
    ⟨ρ, h, h', step, step', s⟩
  · rw [step] at enough
    rcases none with ⟨live, capacity, rfl⟩
    exact absurd ⟨_, live, capacity, rfl, rfl⟩ enough
  · rw [step, step']
    exact ⟨rfl, .nil⟩
  · have runs := Simulation.evaluateSource_agrees respects_record limit source s .nil
    rw [step] at enough ⊢
    rw [step']
    dsimp only at enough ⊢
    generalize evaluateSource limit source record h [] = run at runs enough ⊢
    generalize evaluateSource limit source record h' [] = run' at runs ⊢
    cases runs with
    | exhausted none =>
        rcases none with ⟨live, capacity, cause⟩
        exact absurd ⟨_, live, capacity, rfl, cause⟩ enough
    | ends related => exact ⟨rfl, related⟩

/-! ## Texts of integers -/

/-- Integers are handed over one by one, each in the slot that the one before it has left. -/
theorem Evaluator.evaluateRest_integers (ev : Evaluator) {r : Reader} {h : Heap} {ns : List Int64}
    (spare : h.Spare) (spelled : List.Forall₂ Lexeme.Spells r.lexemes ns)
    (results : List (Heap × Value)) :
    ∃ h' more, ev.evaluateRest record r h results = (.ok (), h', results ++ more) ∧
      List.Forall₂ (fun n p => p.1.object? p.2 = some (.int n)) ns more := by
  -- Induction on the lexemes; the heap stays spare from one round to the next.
  generalize lexemes : r.lexemes = left at spelled
  induction spelled generalizing r h results with
  | nil =>
      rcases ends : r.read h with ⟨outcome, r', h'⟩
      have nothing : outcome = .ok none := by
        unfold Reader.read at ends
        rw [lexemes] at ends
        cases ends
        rfl
      subst nothing
      refine ⟨h', [], ?_, .nil⟩
      rw [ev.evaluateRest_eq, ends, List.append_nil]
  | @cons lexeme n rest ns spells _ ih =>
      rcases Reader.read_integer spare lexemes spells with ⟨v, h', reading, spare', found⟩
      have behind : { r with lexemes := rest, offset := lexeme.span.stop }.lexemes = rest := rfl
      rcases ih spare' (results ++ [(h', v)]) behind with ⟨h'', more, step, shown⟩
      refine ⟨h'', (h', v) :: more, ?_, .cons found shown⟩
      rw [ev.evaluateRest_eq, reading]
      dsimp only
      rw [ev.evaluateForm_integer found]
      dsimp only [record]
      rw [step, List.append_assoc, List.singleton_append]

/-- A text of integers, however long, takes one slot more than the first objects. -/
theorem transcript_integers {capacity : Nat} (room : 109 ≤ capacity) (limit : Nat)
    {source : String} {ns : List Int64}
    (spelled : List.Forall₂ Lexeme.Spells (Reader.ofSource source).lexemes ns) :
    ∃ results, transcript capacity limit source = (.ok (), results) ∧
      List.Forall₂ (fun n p => p.1.object? p.2 = some (.int n)) ns results := by
  rcases Evaluator.spare_make room limit with ⟨h, ev, h₁, step, made, spare⟩
  rcases ev.evaluateRest_integers spare spelled [] with ⟨h₂, results, run, shown⟩
  refine ⟨results, ?_, shown⟩
  unfold transcript evaluateSource
  rw [step]
  dsimp only
  rw [made]
  dsimp only
  rw [run]
  rfl

/-- With only one slot to spare the first run collects before the second and the third integer. -/
theorem transcript_of_le_integers :
    109 ≤ 2000 ∧ ¬ RanOutOfMemory (transcript 109 16 "1 2 3").1 ∧
      (transcript 2000 16 "1 2 3").1 = (transcript 109 16 "1 2 3").1 ∧
        List.Forall₂ (fun p p' : Heap × Value => p.1.Same p.2 p'.1 p'.2)
          (transcript 109 16 "1 2 3").2 (transcript 2000 16 "1 2 3").2 := by
  have lexed : (Reader.ofSource "1 2 3").lexemes =
      [⟨.atom, "1", ⟨0, 1⟩⟩, ⟨.atom, "2", ⟨2, 3⟩⟩, ⟨.atom, "3", ⟨4, 5⟩⟩] := by decide +kernel
  have spelled : List.Forall₂ Lexeme.Spells (Reader.ofSource "1 2 3").lexemes [1, 2, 3] := by
    rw [lexed]
    exact .cons ⟨rfl, by rfl⟩ (.cons ⟨rfl, by rfl⟩ (.cons ⟨rfl, by rfl⟩ .nil))
  have enough : ¬ RanOutOfMemory (transcript 109 16 "1 2 3").1 := by
    rcases transcript_integers (Nat.le_refl 109) 16 spelled with ⟨results, given, _⟩
    rw [given]
    rintro ⟨f, _, _, isError, _⟩
    cases isError
  exact ⟨by decide, enough, transcript_of_le (by decide) 16 "1 2 3" enough⟩

end Lisplet
