import Lisplet.Proofs.Reading.Grammar
import Lisplet.Proofs.Text.Cutting

/-!
# Moving — reading does not depend on where a text stands

An expression is complete with its last lexeme, so what is behind that lexeme is of no account. And
if a text stands some bytes further on, then reading it does the same on the heap and has the same
outcome; only the places in the errors are further on, except where reading was cut off, for that
has no place.
-/

namespace Lisplet

/-- Dropping the roots down to those there are changes nothing. -/
theorem Heap.truncateRoots_length (h : Heap) : h.truncateRoots h.roots.length = h := by
  simp [truncateRoots, RootStack.truncate]

/-! ## Further on -/

/-- The error as it is reported `d` bytes further on. A cut-off has no place in the text. -/
def ReadError.shift (d : Nat) (e : ReadError) : ReadError :=
  match e.fault with
  | .fatal _ => e
  | _ => { e with span := e.span.shift d }

def OpenForm.shift (d : Nat) : OpenForm → OpenForm
  | .list items ending opening => .list items ending (opening.shift d)
  | .quote mark => .quote (mark.shift d)

def Progress.shift (d : Nat) : Progress → Progress
  | .unfinished stack => .unfinished (stack.map (OpenForm.shift d))
  | .finished datum => .finished datum

namespace HeapM

/-- An operation of the reader as it goes `d` bytes further on. -/
def shifted (d : Nat) (op : HeapM ReadError Progress) : HeapM ReadError Progress := fun h =>
  match op h with
  | .ok progress h => .ok (progress.shift d) h
  | .error e h => .error (e.shift d) h

/-- What is left open, if anything is, is not nothing. -/
def StaysOpen (op : HeapM ReadError Progress) : Prop :=
  ∀ h stack h', op h = .ok (.unfinished stack) h' → stack ≠ []

end HeapM

namespace Reader

open HeapM

variable {d : Nat} {α : Type} {op : HeapM Fatal α} {next : α → HeapM ReadError Progress}

/-- Running out of memory is no error at any place. -/
theorem shifted_allocating (op : HeapM Fatal α) (next : α → HeapM ReadError Progress) :
    shifted d (allocating op >>= next) = allocating op >>= fun a => shifted d (next a) := by
  funext h
  simp only [shifted, allocating, mapError, Bind.bind, EStateM.bind]
  cases op h with
  | ok a h' => rfl
  | error e h' => rfl

theorem staysOpen_allocating (stays : ∀ a, StaysOpen (next a)) :
    StaysOpen (allocating op >>= next) := by
  intro h stack h' step
  simp only [allocating, mapError, Bind.bind, EStateM.bind] at step
  cases result : op h with
  | ok a h₁ =>
      rw [result] at step
      exact stays a h₁ stack h' step
  | error e h₁ =>
      rw [result] at step
      cases step

theorem staysOpen_root {v : Value} {next : Unit → HeapM ReadError Progress}
    (stays : StaysOpen (next ())) : StaysOpen (root v >>= next) :=
  fun h stack h' step => stays (h.addRoot v) stack h' step

theorem staysOpen_throw (e : ReadError) : StaysOpen (throw e) := nofun

theorem staysOpen_unfinished (form : OpenForm) (stack : List OpenForm) :
    StaysOpen (pure (.unfinished (form :: stack))) := by
  intro h stack' h' step
  cases step
  exact List.cons_ne_nil _ _

/-! ## One lexeme -/

section Taking

variable (span : Text.Span) (stack : List OpenForm)

theorem deliver_shift (datum : Value) :
    deliver (span.shift d) datum (stack.map (OpenForm.shift d)) =
      shifted d (deliver span datum stack) := by
  -- Induction on the open forms: a quoted datum is handed on to the next one.
  induction stack generalizing datum with
  | nil => rfl
  | cons form stack ih =>
      cases form with
      | quote mark =>
          have step : deliver span datum (.quote mark :: stack) =
              (allocating (intern "quote") >>= fun symbol =>
                allocating (HeapM.list [symbol, datum]) >>= fun quoted =>
                  root quoted >>= fun _ => deliver span quoted stack) := rfl
          rw [step, shifted_allocating]
          refine congrArg (allocating (intern "quote") >>= ·) (funext fun symbol => ?_)
          rw [shifted_allocating]
          refine congrArg (allocating (HeapM.list [symbol, datum]) >>= ·) (funext fun quoted => ?_)
          exact congrArg (fun rest => root quoted >>= fun _ => rest) (ih quoted)
      | list items ending opening => cases ending <;> rfl

theorem staysOpen_deliver (datum : Value) : StaysOpen (deliver span datum stack) := by
  induction stack generalizing datum with
  | nil => nofun
  | cons form stack ih =>
      cases form with
      | quote mark =>
          exact staysOpen_allocating fun symbol => staysOpen_allocating fun quoted =>
            staysOpen_root (ih quoted)
      | list items ending opening =>
          cases ending with
          | proper => exact staysOpen_unfinished _ stack
          | awaited => exact staysOpen_unfinished _ stack
          | given tail => exact staysOpen_throw _

theorem deliverNew_shift (op : HeapM Fatal Value) :
    deliverNew (span.shift d) (stack.map (OpenForm.shift d)) op =
      shifted d (deliverNew span stack op) := by
  unfold deliverNew
  rw [shifted_allocating]
  refine congrArg (allocating op >>= ·) (funext fun datum => ?_)
  exact congrArg (fun rest => root datum >>= fun _ => rest) (deliver_shift span stack datum)

theorem staysOpen_deliverNew (op : HeapM Fatal Value) : StaysOpen (deliverNew span stack op) :=
  staysOpen_allocating fun datum => staysOpen_root (staysOpen_deliver span stack datum)

theorem close_shift :
    close (span.shift d) (stack.map (OpenForm.shift d)) = shifted d (close span stack) := by
  cases stack with
  | nil => rfl
  | cons form stack =>
      cases form with
      | quote mark => rfl
      | list items ending opening =>
          cases ending with
          | proper => exact deliverNew_shift span stack _
          | awaited => rfl
          | given tail => exact deliverNew_shift span stack _

theorem staysOpen_close : StaysOpen (close span stack) := by
  unfold close
  split
  · exact staysOpen_deliverNew span _ _
  · exact staysOpen_deliverNew span _ _
  · exact staysOpen_throw _
  · exact staysOpen_throw _
  · exact staysOpen_throw _

theorem dot_shift :
    dot (span.shift d) (stack.map (OpenForm.shift d)) = shifted d (dot span stack) := by
  cases stack with
  | nil => rfl
  | cons form stack =>
      cases form with
      | quote mark => rfl
      | list items ending opening =>
          -- A point may stand behind an element only, where no other has been.
          cases items with
          | nil => rfl
          | cons item items => cases ending <;> rfl

theorem staysOpen_dot : StaysOpen (dot span stack) := by
  unfold dot
  split
  · exact staysOpen_unfinished _ _
  · exact staysOpen_throw _

theorem atom_shift (a : Atom) :
    atom (span.shift d) (stack.map (OpenForm.shift d)) a = shifted d (atom span stack a) := by
  cases a with
  | nil => exact deliver_shift span stack .nil
  | dot => exact dot_shift span stack
  | _ => exact deliverNew_shift span stack _

theorem staysOpen_atom (a : Atom) : StaysOpen (atom span stack a) := by
  cases a with
  | nil => exact staysOpen_deliver span stack .nil
  | dot => exact staysOpen_dot span stack
  | _ => exact staysOpen_deliverNew span stack _

theorem take_shift (lexeme : Lexeme) :
    take (stack.map (OpenForm.shift d)) (lexeme.shift d) = shifted d (take stack lexeme) := by
  rcases lexeme with ⟨token, text, span⟩
  cases token with
  | comment => rfl
  | opening => rfl
  | quote => rfl
  | unclosed => rfl
  | stray => rfl
  | closing => exact close_shift span stack
  | string =>
      simp only [take, Lexeme.shift]
      cases content : Text.unquote text with
      | ok text => exact deliverNew_shift span stack _
      | error fault =>
          rcases Text.unquote_error content with ⟨c, rfl⟩
          rfl
  | atom =>
      simp only [take, Lexeme.shift]
      cases classified : Atom.classify text with
      | ok a => exact atom_shift span stack a
      | error fault =>
          rcases Atom.classify_error classified with ⟨digits, rfl⟩
          rfl

theorem staysOpen_take {lexeme : Lexeme} (noComment : lexeme.token ≠ .comment) :
    StaysOpen (take stack lexeme) := by
  unfold take
  dsimp only
  split
  · next isComment => exact absurd isComment noComment
  · exact staysOpen_unfinished _ _
  · exact staysOpen_unfinished _ _
  · exact staysOpen_close _ stack
  · split
    · exact staysOpen_deliverNew _ stack _
    · exact staysOpen_throw _
  · exact staysOpen_throw _
  · split
    · exact staysOpen_atom _ stack _
    · exact staysOpen_throw _
  · exact staysOpen_throw _

end Taking

/-! ## Lexeme after lexeme -/

section Reads

variable {r r₁ r' : Reader} {stack : List OpenForm} {ls more : List Lexeme} {h h₁ : Heap}
  {datum : Value}

theorem ending_shift (d : Nat) (stack : List OpenForm) :
    ending (stack.map (OpenForm.shift d)) = (ending stack).mapError (ReadError.shift d) := by
  rcases stack with _ | ⟨form, stack⟩
  · rfl
  · cases form <;> rfl

/-- Reading further on does the same to the heap, and leaves the same lexemes. -/
theorem takeAll_shift (r r' : Reader) (stack : List OpenForm) (ls : List Lexeme) (h : Heap) :
    (r'.takeAll (stack.map (OpenForm.shift d)) (ls.map (Lexeme.shift d)) h).outcome =
        (r.takeAll stack ls h).outcome.mapError (ReadError.shift d) ∧
      (r'.takeAll (stack.map (OpenForm.shift d)) (ls.map (Lexeme.shift d)) h).heap =
        (r.takeAll stack ls h).heap ∧
      (r'.takeAll (stack.map (OpenForm.shift d)) (ls.map (Lexeme.shift d)) h).reader.lexemes =
        (r.takeAll stack ls h).reader.lexemes.map (Lexeme.shift d) := by
  induction ls generalizing stack h with
  | nil => exact ⟨ending_shift d stack, rfl, rfl⟩
  | cons l ls ih =>
      rw [List.map_cons]
      unfold takeAll
      rw [take_shift]
      unfold shifted
      rcases step : take stack l h with ⟨stack' | datum, h'⟩ | ⟨e, h'⟩
      · exact ih stack' h'
      · exact ⟨rfl, rfl, rfl⟩
      · exact ⟨rfl, rfl, rfl⟩

theorem suffix_takeAll (r : Reader) (stack : List OpenForm) (ls : List Lexeme) (h : Heap) :
    (r.takeAll stack ls h).reader.lexemes <:+ ls := by
  induction ls generalizing stack h with
  | nil => exact List.suffix_refl []
  | cons l ls ih =>
      unfold takeAll
      split
      · next stack' h' _ => exact (ih stack' h').trans (List.suffix_cons l ls)
      · exact List.suffix_cons l ls
      · exact List.suffix_cons l ls

/-- An expression is complete with its last lexeme, whatever is behind it. -/
theorem takeAll_append (r r' : Reader) (more : List Lexeme)
    (found : r.takeAll stack ls h = ⟨.ok (some datum), r₁, h₁⟩) :
    ∃ r₁', r'.takeAll stack (ls ++ more) h = ⟨.ok (some datum), r₁', h₁⟩ ∧
      r₁'.lexemes = r₁.lexemes ++ more := by
  induction ls generalizing stack h with
  | nil =>
      rcases stack with _ | ⟨form, stack⟩
      · cases found
      · cases form <;> cases found
  | cons l ls ih =>
      unfold takeAll at found
      rw [List.cons_append]
      unfold takeAll
      rcases step : take stack l h with ⟨stack' | datum', h'⟩ | ⟨e, h'⟩
      · rw [step] at found
        exact ih found
      · rw [step] at found
        cases found
        exact ⟨_, rfl, rfl⟩
      · rw [step] at found
        cases found

/-- Without lexemes there is nothing to read, and only then. -/
theorem eq_nil_of_takeAll (noComment : ∀ l ∈ ls, l.token ≠ .comment)
    (nothing : (r.takeAll stack ls h).outcome = .ok none) : ls = [] ∧ stack = [] := by
  induction ls generalizing stack h with
  | nil =>
      rcases stack with _ | ⟨form, stack⟩
      · exact ⟨rfl, rfl⟩
      · cases form <;> cases nothing
  | cons l ls ih =>
      rcases List.forall_mem_cons.1 noComment with ⟨first, rest⟩
      unfold takeAll at nothing
      rcases step : take stack l h with ⟨stack' | datum, h'⟩ | ⟨e, h'⟩
      · rw [step] at nothing
        exact absurd (ih rest nothing).2 (staysOpen_take stack first h stack' h' step)
      · rw [step] at nothing
        cases nothing
      · rw [step] at nothing
        cases nothing

/-- A literal that is left open belongs to no expression. -/
theorem mem_of_unclosed (found : (r.takeAll stack ls h).outcome = .ok (some datum)) {l : Lexeme}
    (member : l ∈ ls) (unclosed : l.token = .unclosed) :
    l ∈ (r.takeAll stack ls h).reader.lexemes := by
  induction ls generalizing stack h with
  | nil => cases member
  | cons first ls ih =>
      unfold takeAll at found ⊢
      rcases List.mem_cons.1 member with rfl | later
      · have refused : take stack l h = .error ⟨.unterminatedString, l.span⟩ h := by
          unfold take
          rw [unclosed]
          rfl
        rw [refused] at found
        cases found
      · rcases step : take stack first h with ⟨stack' | datum', h'⟩ | ⟨e, h'⟩
        · rw [step] at found
          exact ih found later
        · exact later
        · rw [step] at found
          cases found

/-! ## One expression -/

/-- What is read of a text is read of the same lexemes `d` bytes further on. -/
theorem read_shift (moved : r'.lexemes = r.lexemes.map (Lexeme.shift d)) (h : Heap) :
    (r'.read h).outcome = (r.read h).outcome.mapError (ReadError.shift d) ∧
      (r'.read h).heap = (r.read h).heap ∧
      (r'.read h).reader.lexemes = (r.read h).reader.lexemes.map (Lexeme.shift d) := by
  unfold read
  rw [moved]
  rcases r.takeAll_shift r' [] r.lexemes h with ⟨outcome, heap, lexemes⟩
  exact ⟨outcome, congrArg (Heap.truncateRoots · _) heap, lexemes⟩

theorem suffix_of_read (found : r.read h = ⟨.ok (some datum), r₁, h₁⟩) :
    r₁.lexemes <:+ r.lexemes := by
  have suffix := r.suffix_takeAll [] r.lexemes h
  have same : (r.read h).reader = (r.takeAll [] r.lexemes h).reader := rfl
  rw [found] at same
  rwa [← same] at suffix

theorem mem_of_read_of_unclosed (found : r.read h = ⟨.ok (some datum), r₁, h₁⟩) {l : Lexeme}
    (member : l ∈ r.lexemes) (unclosed : l.token = .unclosed) : l ∈ r₁.lexemes := by
  have outcome : (r.read h).outcome = .ok (some datum) := congrArg Reading.outcome found
  have left : l ∈ (r.read h).reader.lexemes := mem_of_unclosed outcome member unclosed
  rwa [found] at left

/-- An expression is read in the same way if the text goes on behind it. -/
theorem read_append (found : r.read h = ⟨.ok (some datum), r₁, h₁⟩)
    (longer : r'.lexemes = r.lexemes ++ more) :
    ∃ r₁', r'.read h = ⟨.ok (some datum), r₁', h₁⟩ ∧ r₁'.lexemes = r₁.lexemes ++ more := by
  unfold read at found ⊢
  rw [longer]
  rcases taken : r.takeAll [] r.lexemes h with ⟨outcome, r₂, h₂⟩
  rw [taken] at found
  cases found
  rcases takeAll_append r r' more taken with ⟨r₁', same, lexemes⟩
  rw [same]
  exact ⟨r₁', rfl, lexemes⟩

/-- If no expression is left, then no lexeme is, and nothing has been done. -/
theorem eq_nil_of_read (noComment : ∀ l ∈ r.lexemes, l.token ≠ .comment)
    (nothing : r.read h = ⟨.ok none, r₁, h₁⟩) : r.lexemes = [] ∧ h₁ = h := by
  have outcome : (r.takeAll [] r.lexemes h).outcome = .ok none := congrArg Reading.outcome nothing
  have empty := (eq_nil_of_takeAll noComment outcome).1
  unfold read at nothing
  rw [empty] at nothing
  cases nothing
  exact ⟨empty, Heap.truncateRoots_length h⟩

end Reads

end Reader

end Lisplet
