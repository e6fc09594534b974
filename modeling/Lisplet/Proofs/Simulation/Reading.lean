import Lisplet.Proofs.Simulation.Construction
import Lisplet.Reader

/-!
# Reading — one text read on two heaps

A source text is read in the same way on corresponding heaps. Between two lexemes the items of
all open forms are kept, since every datum is rooted before it is handed on.
-/

namespace Lisplet

namespace Simulation

open Reader

variable {ρ σ : Pairing} {h h' h₁ : Heap}

/-! ## Open forms -/

/-- Lists that end alike. -/
inductive EndingsAgree (ρ : Pairing) (h : Heap) : Ending → Ending → Prop where
  | proper : EndingsAgree ρ h .proper .proper
  | awaited : EndingsAgree ρ h .awaited .awaited
  | given {tail tail' : Value} : Kept ρ h .datum tail tail' →
      EndingsAgree ρ h (.given tail) (.given tail')

/-- Open forms with the same outline, the items of which are kept. -/
inductive FormsAgree (ρ : Pairing) (h : Heap) : OpenForm → OpenForm → Prop where
  | list {items items' : List Value} {ending ending' : Ending} (opening : Text.Span) :
      List.Forall₂ (Kept ρ h .datum) items items' → EndingsAgree ρ h ending ending' →
        FormsAgree ρ h (.list items ending opening) (.list items' ending' opening)
  | quote (mark : Text.Span) : FormsAgree ρ h (.quote mark) (.quote mark)

/-- Reading stands at the same point on both sides. -/
inductive ProgressAgrees (ρ : Pairing) (h : Heap) : Progress → Progress → Prop where
  | unfinished {stack stack' : List OpenForm} : List.Forall₂ (FormsAgree ρ h) stack stack' →
      ProgressAgrees ρ h (.unfinished stack) (.unfinished stack')
  | finished {v v' : Value} : Kept ρ h .datum v v' →
      ProgressAgrees ρ h (.finished v) (.finished v')

theorem Retains.forms (k : Retains ρ h σ h₁) {form form' : OpenForm}
    (agree : FormsAgree ρ h form form') : FormsAgree σ h₁ form form' := by
  cases agree with
  | quote mark => exact .quote mark
  | list opening items ending =>
      refine .list opening (items.imp fun _ _ => k.kept) ?_
      cases ending with
      | proper => exact .proper
      | awaited => exact .awaited
      | given kept => exact .given (k.kept kept)

theorem Retains.stack (k : Retains ρ h σ h₁) {stack stack' : List OpenForm}
    (agree : List.Forall₂ (FormsAgree ρ h) stack stack') :
    List.Forall₂ (FormsAgree σ h₁) stack stack' := agree.imp fun _ _ => k.forms

/-! ## One lexeme -/

section Lexemes

variable {stack stack' : List OpenForm} {datum datum' : Value}

theorem agrees_allocating {α : Type} {op op' : HeapM Fatal α} {Q : Pairing → Heap → α → α → Prop}
    (k : Agrees ρ h h' op op' Q) : Agrees ρ h h' (allocating op) (allocating op') Q := by
  unfold Agrees at k ⊢
  unfold allocating HeapM.mapError
  generalize op h = result at k ⊢
  generalize op' h' = result' at k ⊢
  cases k with
  | exhausted none =>
      rcases none with ⟨live, capacity, rfl⟩
      exact .exhausted ⟨live, capacity, rfl⟩
  | fails => exact .fails
  | ends s retains q => exact .ends s retains q

/-- A datum that is handed on is kept, and so are the forms it is handed to. -/
theorem agrees_deliver (span : Text.Span) (s : Simulates ρ h h')
    (kept : Kept ρ h .datum datum datum') (outlines : List.Forall₂ (FormsAgree ρ h) stack stack') :
    Agrees ρ h h' (deliver span datum stack) (deliver span datum' stack')
      fun σ h₁ p p' => ProgressAgrees σ h₁ p p' := by
  -- Induction on the open forms: a quoted datum is handed on to the next one.
  induction stack generalizing ρ h h' datum datum' stack' with
  | nil =>
      cases outlines
      exact .pure s (.finished kept)
  | cons form stack ih =>
      rcases outlines with _ | ⟨forms, outlines⟩
      cases forms with
      | list opening items ending =>
          cases ending with
          | proper =>
              have longer : FormsAgree ρ h _ _ := .list opening (.cons kept items) .proper
              exact .pure s (.unfinished (.cons longer outlines))
          | awaited =>
              have ended : FormsAgree ρ h _ _ := .list opening items (.given kept)
              exact .pure s (.unfinished (.cons ended outlines))
          | given _ => exact .throw _
      | quote mark =>
          refine .bind (agrees_allocating (agrees_intern s "quote")) ?_
          intro σ h₁ h₁' symbol symbol' s₁ retains keptSymbol
          have twins := (retains.kept kept).twins
          have agree := agrees_list s₁ (.cons keptSymbol.twins (.cons twins .nil))
          refine .bind (agrees_allocating agree) ?_
          intro τ h₂ h₂' quoted quoted' s₂ retains' twinsQuoted
          refine .root_bind s₂ twinsQuoted fun s₃ keptQuoted => ?_
          have retains := (retains.trans retains').trans (.addRoot τ h₂ quoted)
          exact ih s₃ keptQuoted (retains.stack outlines)

theorem agrees_deliverNew (span : Text.Span)
    (outlines : List.Forall₂ (FormsAgree ρ h) stack stack') {op op' : HeapM Fatal Value}
    (k : Agrees ρ h h' op op' fun σ _ v v' => Twins σ .datum v v') :
    Agrees ρ h h' (deliverNew span stack op) (deliverNew span stack' op')
      fun σ h₁ p p' => ProgressAgrees σ h₁ p p' := by
  refine .bind (agrees_allocating k) ?_
  intro σ h₁ h₁' datum datum' s₁ retains twins
  refine .root_bind s₁ twins fun s₂ kept => ?_
  exact agrees_deliver span s₂ kept ((retains.trans (.addRoot σ h₁ datum)).stack outlines)

theorem agrees_close (span : Text.Span) (s : Simulates ρ h h')
    (outlines : List.Forall₂ (FormsAgree ρ h) stack stack') :
    Agrees ρ h h' (close span stack) (close span stack')
      fun σ h₁ p p' => ProgressAgrees σ h₁ p p' := by
  rcases outlines with _ | ⟨forms, outlines⟩
  · exact .throw _
  · cases forms with
    | quote mark => exact .throw _
    | list opening items ending =>
        cases ending with
        | proper => exact agrees_deliverNew span outlines (agrees_consAll s trivial items)
        | awaited => exact .throw _
        | given kept => exact agrees_deliverNew span outlines (agrees_consAll s kept.twins items)

theorem agrees_dot (span : Text.Span) (s : Simulates ρ h h')
    (outlines : List.Forall₂ (FormsAgree ρ h) stack stack') :
    Agrees ρ h h' (dot span stack) (dot span stack')
      fun σ h₁ p p' => ProgressAgrees σ h₁ p p' := by
  rcases outlines with _ | ⟨forms, outlines⟩
  · exact .throw _
  · cases forms with
    | quote mark => exact .throw _
    | list opening items ending =>
        cases items with
        | nil => exact .throw _
        | cons item items =>
            cases ending with
            | proper =>
                have awaits : FormsAgree ρ h _ _ := .list opening (.cons item items) .awaited
                exact .pure s (.unfinished (.cons awaits outlines))
            | awaited => exact .throw _
            | given _ => exact .throw _

theorem agrees_atomLexeme (span : Text.Span) (s : Simulates ρ h h')
    (outlines : List.Forall₂ (FormsAgree ρ h) stack stack') (a : Atom) :
    Agrees ρ h h' (atom span stack a) (atom span stack' a)
      fun σ h₁ p p' => ProgressAgrees σ h₁ p p' := by
  cases a with
  | int n =>
      exact agrees_deliverNew span outlines (agrees_atom s (o := .int n) trivial fun _ => nofun)
  | float x =>
      exact agrees_deliverNew span outlines (agrees_atom s (o := .float x) trivial fun _ => nofun)
  | ratio numer denom =>
      exact agrees_deliverNew span outlines
        (agrees_atom s (o := .ratio numer denom) trivial fun _ => nofun)
  | nil => exact agrees_deliver span s (.nil ρ h .datum) outlines
  | symbol name =>
      exact agrees_deliverNew span outlines
        ((agrees_intern s name).mono fun _ _ _ _ kept => kept.twins)
  | dot => exact agrees_dot span s outlines

theorem agrees_take (lexeme : Lexeme) (s : Simulates ρ h h')
    (outlines : List.Forall₂ (FormsAgree ρ h) stack stack') :
    Agrees ρ h h' (take stack lexeme) (take stack' lexeme)
      fun σ h₁ p p' => ProgressAgrees σ h₁ p p' := by
  unfold take
  dsimp only
  cases lexeme.token with
  | comment => exact .pure s (.unfinished outlines)
  | opening => exact .pure s (.unfinished (.cons (.list _ .nil .proper) outlines))
  | quote => exact .pure s (.unfinished (.cons (.quote _) outlines))
  | closing => exact agrees_close _ s outlines
  | string =>
      cases Text.unquote lexeme.text with
      | ok text =>
          exact agrees_deliverNew _ outlines
            (agrees_atom s (o := .string text) trivial fun _ => nofun)
      | error fault => exact .throw _
  | unclosed => exact .throw _
  | atom =>
      cases Atom.classify lexeme.text with
      | ok a => exact agrees_atomLexeme _ s outlines a
      | error fault => exact .throw _
  | stray => exact .throw _

end Lexemes

/-! ## One expression -/

/-- How reading one expression may come out on two heaps. -/
inductive ReadingsAgree (ρ : Pairing) (h : Heap) : Reading → Reading → Prop where
  | exhausted {e : ReadError} {r : Reader} {h₁ : Heap} {reading : Reading} :
      Exhaustible.Exhausted e → ReadingsAgree ρ h ⟨.error e, r, h₁⟩ reading
  | fails {e : ReadError} {r r' : Reader} {h₁ h₁' : Heap} :
      ReadingsAgree ρ h ⟨.error e, r, h₁⟩ ⟨.error e, r', h₁'⟩
  | nothing {r r' : Reader} {h₁ h₁' : Heap} :
      ReadingsAgree ρ h ⟨.ok none, r, h₁⟩ ⟨.ok none, r', h₁'⟩
  | datum {σ : Pairing} {v v' : Value} {r : Reader} {h₁ h₁' : Heap} :
      Simulates σ h₁ h₁' → Retains ρ h σ h₁ → Twins σ .datum v v' →
        ReadingsAgree ρ h ⟨.ok (some v), r, h₁⟩ ⟨.ok (some v'), r, h₁'⟩

theorem ReadingsAgree.after {reading reading' : Reading} (retains : Retains ρ h σ h₁)
    (agree : ReadingsAgree σ h₁ reading reading') : ReadingsAgree ρ h reading reading' := by
  cases agree with
  | exhausted none => exact .exhausted none
  | fails => exact .fails
  | nothing => exact .nothing
  | datum s retains' twins => exact .datum s (retains.trans retains') twins

theorem ending_eq {stack stack' : List OpenForm}
    (outlines : List.Forall₂ (FormsAgree ρ h) stack stack') : ending stack' = ending stack := by
  rcases outlines with _ | ⟨forms, _⟩
  · rfl
  · cases forms with
    | _ => rfl

theorem ending_cases (stack : List OpenForm) :
    ending stack = .ok none ∨ ∃ e, ending stack = .error e := by
  rcases stack with _ | ⟨form, stack⟩
  · exact .inl rfl
  · cases form with
    | _ => exact .inr ⟨_, rfl⟩

/-- Lexeme by lexeme reading stays at the same point. -/
theorem takeAll_agrees (r : Reader) {stack stack' : List OpenForm} (lexemes : List Lexeme)
    (s : Simulates ρ h h') (outlines : List.Forall₂ (FormsAgree ρ h) stack stack') :
    ReadingsAgree ρ h (r.takeAll stack lexemes h) (r.takeAll stack' lexemes h') := by
  -- Induction on the lexemes; after each of them the open forms agree again.
  induction lexemes generalizing ρ h h' stack stack' with
  | nil =>
      unfold takeAll
      rw [ending_eq outlines]
      rcases ending_cases stack with atEnd | ⟨e, atEnd⟩
      · rw [atEnd]
        exact .nothing
      · rw [atEnd]
        exact .fails
  | cons lexeme lexemes ih =>
      have step := agrees_take lexeme s outlines
      unfold Agrees at step
      unfold takeAll
      generalize take stack lexeme h = result at step ⊢
      generalize take stack' lexeme h' = result' at step ⊢
      cases step with
      | exhausted none => exact .exhausted none
      | fails => exact .fails
      | ends s₁ retains progress =>
          cases progress with
          | unfinished outlines₁ => exact (ih s₁ outlines₁).after retains
          | finished kept => exact .datum s₁ retains kept.twins

theorem read_agrees (r : Reader) (s : Simulates ρ h h') :
    ReadingsAgree ρ h (r.read h) (r.read h') := by
  have whole := takeAll_agrees r r.lexemes s .nil
  unfold Reader.read
  dsimp only
  rw [s.height_eq]
  generalize r.takeAll [] r.lexemes h = reading at whole ⊢
  generalize r.takeAll [] r.lexemes h' = reading' at whole ⊢
  cases whole with
  | exhausted none => exact .exhausted none
  | fails => exact .fails
  | nothing => exact .nothing
  | datum s₁ retains twins => exact .datum (s₁.truncateRoots _) retains.truncateRoots twins

end Simulation

end Lisplet
