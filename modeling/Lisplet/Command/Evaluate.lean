import Lisplet.Command.Failure

/-!
# Evaluating a Source Text

The forms of a text are read and evaluated one by one, so that earlier forms
have had their effect even when a later one cannot be read.
-/

namespace Lisplet

namespace Evaluator

/-- Evaluates a form in the root environment, keeping it alive meanwhile. -/
def evaluateForm (ev : Evaluator) (form : Value) : HeapM Fatal Value := HeapM.scope do
  HeapM.root form
  ev.evaluate form (← get).rootEnv

/--
Reads and evaluates the remaining forms. Each result is handed to `each`, which
keeps a state of its own and may stop the run.
-/
def evaluateRest {σ : Type} (ev : Evaluator)
    (each : Heap → Value → σ → Except Failure Unit × σ) (r : Reader) (h : Heap) (s : σ) :
    Except Failure Unit × Heap × σ :=
  match _read : r.read h with
  | ⟨.error e, _, h⟩ => (.error (.read e), h, s)
  | ⟨.ok none, _, h⟩ => (.ok (), h, s)
  | ⟨.ok (some form), r, h⟩ =>
    match ev.evaluateForm form h with
    | .error cause h => (.error (.fatal cause), h, s)
    | .ok value h =>
      match each h value s with
      | (.error e, s) => (.error e, h, s)
      | (.ok (), s) => ev.evaluateRest each r h s
termination_by r.lexemes.length
decreasing_by exact Reader.length_lt_of_read _read

end Evaluator

/-- Reads and evaluates the forms of a source text with an evaluator of its own. -/
def evaluateSource {σ : Type} (limit : Nat) (source : String)
    (each : Heap → Value → σ → Except Failure Unit × σ) (h : Heap) (s : σ) :
    Except Failure Unit × Heap × σ :=
  match Evaluator.make limit h with
  | .error cause h => (.error (.fatal cause), h, s)
  | .ok ev h => ev.evaluateRest each (Reader.ofSource source) h s

end Lisplet
