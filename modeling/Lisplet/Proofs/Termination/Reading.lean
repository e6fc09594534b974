import Lisplet.Proofs.Termination.Operations
import Lisplet.Reader

/-!
# Reading — a text is read into an orderly heap

Between two lexemes the items of all open forms are kept, since every datum is rooted before it is
handed on. So reading keeps a heap orderly, whether it comes to the end of an expression or to an
error.
-/

namespace Lisplet

namespace Termination

open Reader

variable {d d' : Layout} {h h' : Heap}

/-! ## Open forms -/

/-- An open form the items of which are kept. -/
inductive FormKept (d : Layout) (h : Heap) : OpenForm → Prop where
  | list {items : List Value} {ending : Ending} {opening : Text.Span} :
      (∀ v ∈ items, Kept d h .datum v) →
        (∀ tail, ending = .given tail → Kept d h .datum tail) →
          FormKept d h (.list items ending opening)
  | quote {mark : Text.Span} : FormKept d h (.quote mark)

/-- Reading stands at a point where all that has been read is kept. -/
inductive ProgressKept (d : Layout) (h : Heap) : Progress → Prop where
  | unfinished {stack : List OpenForm} : (∀ form ∈ stack, FormKept d h form) →
      ProgressKept d h (.unfinished stack)
  | finished {v : Value} : Kept d h .datum v → ProgressKept d h (.finished v)

theorem Retains.stack {stack : List OpenForm} (k : Retains d h d' h')
    (kept : ∀ form ∈ stack, FormKept d h form) : ∀ form ∈ stack, FormKept d' h' form := by
  intro form member
  cases kept form member with
  | quote => exact .quote
  | list items ends =>
      exact .list (fun v member => k.kept (items v member)) fun tail same => k.kept (ends tail same)

/-! ## One lexeme -/

section Lexemes

variable {stack : List OpenForm} {datum : Value}

theorem maintains_allocating {α : Type} {op : HeapM Fatal α} {Q : Layout → Heap → α → Prop}
    (m : Maintains d h op Q) : Maintains d h (allocating op) Q := by
  unfold Maintains at m ⊢
  unfold allocating HeapM.mapError
  generalize op h = result at m ⊢
  cases m with
  | ok a retains q => exact .ok a retains q
  | error a retains => exact .error a retains

/-- A datum that is handed on is kept, and so are the forms it is handed to. -/
theorem maintains_deliver (span : Text.Span) (a : Orderly d h) (kept : Kept d h .datum datum)
    (stacked : ∀ form ∈ stack, FormKept d h form) :
    Maintains d h (deliver span datum stack) fun d₁ h₁ p => ProgressKept d₁ h₁ p := by
  -- Induction on the open forms: a quoted datum is handed on to the next one.
  induction stack generalizing d h datum with
  | nil => exact .pure a (.finished kept)
  | cons form stack ih =>
      rcases List.forall_mem_cons.1 stacked with ⟨first, rest⟩
      cases first with
      | @list items ending opening keptItems ends =>
          cases ending with
          | proper =>
              refine .pure a (.unfinished (List.forall_mem_cons.2 ⟨.list ?_ nofun, rest⟩))
              exact List.forall_mem_cons.2 ⟨kept, keptItems⟩
          | awaited =>
              refine .pure a (.unfinished (List.forall_mem_cons.2 ⟨.list keptItems ?_, rest⟩))
              rintro _ ⟨⟩
              exact kept
          | given _ => exact .throw a _
      | quote =>
          refine .bind (maintains_allocating (maintains_intern a "quote")) ?_
          intro d₁ h₁ symbol a₁ retains keptSymbol
          have usedDatum := retains.used kept a₁.toWellFormed
          have both : ∀ v ∈ [symbol, datum], Used d₁ h₁ .datum v :=
            List.forall_mem_cons.2 ⟨keptSymbol.used a₁.toWellFormed,
              List.forall_mem_singleton.2 usedDatum⟩
          refine .bind (maintains_allocating (maintains_list a₁ both)) ?_
          intro d₂ h₂ quoted a₂ retains' usedQuoted
          refine .root_bind a₂ usedQuoted (.inl rfl) fun a₃ keptQuoted => ?_
          have retains := (retains.trans retains').trans (.addRoot d₂ h₂ quoted)
          exact ih a₃ keptQuoted (retains.stack rest)

theorem maintains_deliverNew (span : Text.Span) (stacked : ∀ form ∈ stack, FormKept d h form)
    {op : HeapM Fatal Value} (m : Maintains d h op fun d₁ h₁ v => Used d₁ h₁ .datum v) :
    Maintains d h (deliverNew span stack op) fun d₁ h₁ p => ProgressKept d₁ h₁ p := by
  refine .bind (maintains_allocating m) ?_
  intro d₁ h₁ datum a₁ retains used
  refine .root_bind a₁ used (.inl rfl) fun a₂ kept => ?_
  exact maintains_deliver span a₂ kept ((retains.trans (.addRoot d₁ h₁ datum)).stack stacked)

theorem maintains_close (span : Text.Span) (a : Orderly d h)
    (stacked : ∀ form ∈ stack, FormKept d h form) :
    Maintains d h (close span stack) fun d₁ h₁ p => ProgressKept d₁ h₁ p := by
  rcases stack with _ | ⟨form, stack⟩
  · exact .throw a _
  · rcases List.forall_mem_cons.1 stacked with ⟨first, rest⟩
    cases first with
    | quote => exact .throw a _
    | @list items ending opening keptItems ends =>
        cases ending with
        | proper =>
            exact maintains_deliverNew span rest
              (maintains_consAll a (.nil d h nofun) keptItems)
        | awaited => exact .throw a _
        | given tail =>
            exact maintains_deliverNew span rest
              (maintains_consAll a ((ends tail rfl).used a.toWellFormed) keptItems)

theorem maintains_dot (span : Text.Span) (a : Orderly d h)
    (stacked : ∀ form ∈ stack, FormKept d h form) :
    Maintains d h (dot span stack) fun d₁ h₁ p => ProgressKept d₁ h₁ p := by
  unfold dot
  split
  · next item items opening stack =>
    rcases List.forall_mem_cons.1 stacked with ⟨_ | _, rest⟩
    next keptItems _ =>
    exact .pure a (.unfinished (List.forall_mem_cons.2 ⟨.list keptItems nofun, rest⟩))
  · exact .throw a _

theorem maintains_atomLexeme (span : Text.Span) (a : Orderly d h)
    (stacked : ∀ form ∈ stack, FormKept d h form) (atom : Atom) :
    Maintains d h (Reader.atom span stack atom) fun d₁ h₁ p => ProgressKept d₁ h₁ p := by
  cases atom with
  | int n =>
      exact maintains_deliverNew span stacked (maintains_atom a rfl (fun _ => nofun) fun _ => nofun)
  | float x =>
      exact maintains_deliverNew span stacked (maintains_atom a rfl (fun _ => nofun) fun _ => nofun)
  | ratio numer denom =>
      exact maintains_deliverNew span stacked (maintains_atom a rfl (fun _ => nofun) fun _ => nofun)
  | nil => exact maintains_deliver span a ⟨.nil, .nil nofun⟩ stacked
  | symbol name =>
      refine .bind (maintains_allocating (maintains_intern a name)) ?_
      intro d₁ h₁ datum a₁ retains kept
      refine .root_bind a₁ (kept.used a₁.toWellFormed) (.inl rfl) fun a₂ kept => ?_
      exact maintains_deliver span a₂ kept ((retains.trans (.addRoot d₁ h₁ datum)).stack stacked)
  | dot => exact maintains_dot span a stacked

theorem maintains_take (lexeme : Lexeme) (a : Orderly d h)
    (stacked : ∀ form ∈ stack, FormKept d h form) :
    Maintains d h (take stack lexeme) fun d₁ h₁ p => ProgressKept d₁ h₁ p := by
  unfold take
  dsimp only
  cases lexeme.token with
  | comment => exact .pure a (.unfinished stacked)
  | opening =>
      refine .pure a (.unfinished (List.forall_mem_cons.2 ⟨.list ?_ nofun, stacked⟩))
      exact List.forall_mem_nil _
  | quote => exact .pure a (.unfinished (List.forall_mem_cons.2 ⟨.quote, stacked⟩))
  | closing => exact maintains_close _ a stacked
  | string =>
      cases Text.unquote lexeme.text with
      | ok text =>
          exact maintains_deliverNew _ stacked
            (maintains_atom a rfl (fun _ => nofun) fun _ => nofun)
      | error fault => exact .throw a _
  | unclosed => exact .throw a _
  | atom =>
      cases Atom.classify lexeme.text with
      | ok atom => exact maintains_atomLexeme _ a stacked atom
      | error fault => exact .throw a _
  | stray => exact .throw a _

end Lexemes

/-! ## One expression -/

/-- The heap that reading leaves, and what it has read, if it has come to the end of a datum. -/
structure ReadingKept (d : Layout) (h : Heap) (reading : Reading) (d' : Layout) : Prop where
  orderly : Orderly d' reading.heap
  retains : Retains d h d' reading.heap
  used : ∀ v, reading.outcome = .ok (some v) → Used d' reading.heap .datum v

theorem ending_ne_some (stack : List OpenForm) (v : Value) : ending stack ≠ .ok (some v) := by
  unfold ending
  split
  · exact nofun
  · exact nofun
  · exact nofun

/-- Lexeme by lexeme all that has been read is kept. -/
theorem takeAll_kept (r : Reader) {stack : List OpenForm} (lexemes : List Lexeme)
    (a : Orderly d h) (stacked : ∀ form ∈ stack, FormKept d h form) :
    ∃ d', ReadingKept d h (r.takeAll stack lexemes h) d' := by
  -- Induction on the lexemes; after each of them the open forms are kept again.
  induction lexemes generalizing d h stack with
  | nil => exact ⟨d, a, .refl d h, fun v same => absurd same (ending_ne_some stack v)⟩
  | cons lexeme lexemes ih =>
      have step := maintains_take lexeme a stacked
      unfold Maintains at step
      unfold takeAll
      generalize take stack lexeme h = result at step ⊢
      cases step with
      | error a₁ retains => exact ⟨_, a₁, retains, fun v same => by cases same⟩
      | ok a₁ retains progress =>
          cases progress with
          | unfinished stacked₁ =>
              rcases ih a₁ stacked₁ with ⟨d', kept⟩
              exact ⟨d', kept.orderly, retains.trans kept.retains, kept.used⟩
          | finished kept =>
              refine ⟨_, a₁, retains, ?_⟩
              rintro v ⟨⟩
              exact kept.used a₁.toWellFormed

theorem read_kept (r : Reader) (a : Orderly d h) : ∃ d', ReadingKept d h (r.read h) d' := by
  rcases takeAll_kept r r.lexemes a (List.forall_mem_nil _) with ⟨d', kept⟩
  refine ⟨d', kept.orderly.truncateRoots _, kept.retains.truncateRoots, fun v same => ?_⟩
  exact (kept.used v same).truncateRoots _

/-! ## Whole texts -/

/-- The heap that is left by reading a text, and its forms, if it has been read to the end. -/
structure TextKept (d : Layout) (h : Heap) (result : Except ReadError (List Value) × Heap)
    (d' : Layout) : Prop where
  orderly : Orderly d' result.2
  retains : Retains d h d' result.2
  kept : ∀ forms, result.1 = .ok forms → ∀ form ∈ forms, Kept d' result.2 .datum form

/-- Each form that has been read is rooted before the next one is. -/
theorem readAllOnto_kept {d : Layout} {h : Heap} (r : Reader) (a : Orderly d h)
    {found : List Value} (isKept : ∀ form ∈ found, Kept d h .datum form) :
    ∃ d', TextKept d h (r.readAllOnto found h) d' := by
  rcases read_kept r a with ⟨d', read⟩
  unfold Reader.readAllOnto
  split
  · next form r' h' step =>
    rw [step] at read
    have retains := read.retains.trans (.addRoot d' h' form)
    have used := read.used form rfl
    have keptForm : Kept d' (h'.addRoot form) .datum form :=
      ⟨tethered_addRoot d' h' form, used.fills⟩
    rcases readAllOnto_kept r' (read.orderly.addRoot (.inl used)) (List.forall_mem_cons.2
      ⟨keptForm, fun other member => retains.kept (isKept other member)⟩) with ⟨d'', rest⟩
    exact ⟨d'', rest.orderly, retains.trans rest.retains, rest.kept⟩
  · next step =>
    rw [step] at read
    refine ⟨d', read.orderly, read.retains, ?_⟩
    rintro _ ⟨⟩ form member
    exact read.retains.kept (isKept form (List.mem_reverse.1 member))
  · next step =>
    rw [step] at read
    exact ⟨d', read.orderly, read.retains, fun _ same => by cases same⟩
termination_by r.lexemes.length
decreasing_by exact Reader.length_lt_of_read ‹_›

theorem maintains_readAll (a : Orderly d h) (source : String) :
    Maintains d h (Reader.readAll source) fun d₁ h₁ forms =>
      ∀ form ∈ forms, Used d₁ h₁ .datum form := by
  refine .scope ?_ fun _ _ _ height used form member => (used form member).truncateRoots height
  rcases readAllOnto_kept (.ofSource source) a (List.forall_mem_nil _) with ⟨d', all⟩
  unfold Maintains
  dsimp only
  generalize (Reader.ofSource source).readAllOnto [] h = result at all ⊢
  rcases result with ⟨_ | forms, h'⟩
  · exact .error all.orderly all.retains
  · exact .ok all.orderly all.retains fun form member =>
      (all.kept forms rfl form member).used all.orderly.toWellFormed

theorem maintains_readOne (a : Orderly d h) (source : String) :
    Maintains d h (Reader.readOne source) fun d₁ h₁ form => Used d₁ h₁ .datum form := by
  rcases read_kept (.ofSource source) a with ⟨d', read⟩
  unfold Maintains Reader.readOne
  generalize (Reader.ofSource source).read h = reading at read ⊢
  rcases reading with ⟨_ | _ | form, r, h'⟩
  · exact .error read.orderly read.retains
  · exact .error read.orderly read.retains
  · dsimp only
    cases r.lexemes with
    | nil => exact .ok read.orderly read.retains (read.used form rfl)
    | cons lexeme lexemes => exact .error read.orderly read.retains

end Termination

end Lisplet
