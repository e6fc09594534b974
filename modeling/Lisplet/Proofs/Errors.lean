import Lisplet.Proofs.Errors.Evaluation
import Lisplet.Proofs.Termination
import Lisplet.Proofs.Transparency

/-!
# Errors — error values are never stored

Whatever source texts are run on a heap with the standard primitives, whatever becomes of them and
whatever is done with their results: when a form has been read, when it has been evaluated and when
a text has come to its end, no object of the heap refers to an error value, and none can be reached.
An error value is only ever what the latest evaluation has given.
-/

namespace Lisplet

open Heap.Operation (heapAfter)

namespace Termination

open HeapM Reader

variable {d d' : Layout} {h h' : Heap} {v : Value}

/-! ## Reading -/

/-- An open form none of the items of which is an error. -/
inductive FormProper (h : Heap) : OpenForm → Prop
  | list {items : List Value} {ending : Ending} {opening : Text.Span} :
      (∀ v ∈ items, h.isError v = false) →
        (∀ tail, ending = .given tail → h.isError tail = false) →
          FormProper h (.list items ending opening)
  | quote {mark : Text.Span} : FormProper h (.quote mark)

/-- Reading stands at a point where nothing that has been read is an error. -/
inductive ProgressProper (h : Heap) : Progress → Prop
  | unfinished {stack : List OpenForm} : (∀ form ∈ stack, FormProper h form) →
      ProgressProper h (.unfinished stack)
  | finished {v : Value} : h.isError v = false → ProgressProper h (.finished v)

section Lexemes

variable {stack : List OpenForm} {datum : Value}

theorem properStack_of_spares (spares : h.Spares h') (proper : ∀ form ∈ stack, FormProper h form) :
    ∀ form ∈ stack, FormProper h' form := by
  intro form member
  cases proper form member with
  | quote => exact .quote
  | list items ends =>
      exact .list (fun v member => spares v (items v member)) fun tail same =>
        spares tail (ends tail same)

theorem builds_allocating {α : Type} {op : HeapM Fatal α} {P : Heap → α → Prop}
    (b : Builds h op P) : Builds h (allocating op) P := by
  unfold Builds Cleans at b ⊢
  unfold allocating HeapM.mapError
  generalize op h = result at b ⊢
  cases b with
  | ok t p => exact .ok t p
  | error t => exact .error t

theorem Builds.bind_upkept {ε α β : Type} {op : HeapM ε α} {next : α → HeapM ε β}
    {Q : Layout → Heap → α → Prop} {P : Heap → α → Prop} {R : Heap → β → Prop}
    (m : Maintains d h op Q) (b : Builds h op P)
    (continues : ∀ d₁ h₁ x, Orderly d₁ h₁ → Retains d h d₁ h₁ → Q d₁ h₁ x → h₁.Untainted →
      h.Spares h₁ → P h₁ x → Builds h₁ (next x) R) : Builds h (op >>= next) R := by
  refine Cleans.bind_upkept m b fun d₁ h₁ x a retains q t p => ?_
  exact Cleans.mono (continues d₁ h₁ x a retains q t p.1 p.2) fun _ _ r => ⟨p.1.trans r.1, r.2⟩

theorem builds_deliver (span : Text.Span) (a : Orderly d h) (kept : Kept d h .datum datum)
    (t : h.Untainted) (properDatum : h.isError datum = false)
    (proper : ∀ form ∈ stack, FormProper h form) :
    Builds h (deliver span datum stack) ProgressProper := by
  -- Induction on the open forms: a quoted datum is handed on to the next one.
  induction stack generalizing d h datum with
  | nil => exact .pure t (.finished properDatum)
  | cons form stack ih =>
      rcases List.forall_mem_cons.1 proper with ⟨first, rest⟩
      cases first with
      | @list items ending opening properItems ends =>
          cases ending with
          | proper =>
              refine .pure t (.unfinished (List.forall_mem_cons.2 ⟨.list ?_ nofun, rest⟩))
              exact List.forall_mem_cons.2 ⟨properDatum, properItems⟩
          | awaited =>
              refine .pure t (.unfinished (List.forall_mem_cons.2 ⟨.list properItems ?_, rest⟩))
              rintro _ ⟨⟩
              exact properDatum
          | given _ => exact Cleans.throw t _
      | quote =>
          refine Builds.bind_upkept (maintains_allocating (maintains_intern a "quote"))
            (builds_allocating (builds_intern a.toSymbolTable t "quote")) ?_
          intro d₁ h₁ symbol a₁ retains keptSymbol t₁ spares properSymbol
          have used : ∀ v ∈ [symbol, datum], Used d₁ h₁ .datum v :=
            List.forall_mem_cons.2 ⟨keptSymbol.used a₁.toWellFormed,
              List.forall_mem_singleton.2 (retains.used kept a₁.toWellFormed)⟩
          have both : ∀ v ∈ [symbol, datum], h₁.isError v = false :=
            List.forall_mem_cons.2 ⟨properSymbol,
              List.forall_mem_singleton.2 (spares datum properDatum)⟩
          refine Builds.bind_upkept (maintains_allocating (maintains_list a₁ used))
            (builds_allocating (builds_list t₁ both)) ?_
          intro d₂ h₂ quoted a₂ _ usedQuoted t₂ spares' properQuoted
          refine .root_bind t₂ fun t₃ spares'' => ?_
          exact ih (a₂.addRoot (.inl usedQuoted)) ⟨tethered_addRoot d₂ h₂ quoted, usedQuoted.fills⟩
            t₃ (spares'' quoted properQuoted)
            (properStack_of_spares ((spares.trans spares').trans spares'') rest)

theorem builds_deliverNew (span : Text.Span) (proper : ∀ form ∈ stack, FormProper h form)
    {op : HeapM Fatal Value} (m : Maintains d h op fun d₁ h₁ v => Used d₁ h₁ .datum v)
    (b : Builds h op IsProper) : Builds h (deliverNew span stack op) ProgressProper := by
  refine Builds.bind_upkept (maintains_allocating m) (builds_allocating b) ?_
  intro d₁ h₁ datum a₁ _ used t₁ spares properDatum
  refine .root_bind t₁ fun t₂ spares' => ?_
  exact builds_deliver span (a₁.addRoot (.inl used)) ⟨tethered_addRoot d₁ h₁ datum, used.fills⟩ t₂
    (spares' datum properDatum) (properStack_of_spares (spares.trans spares') proper)

theorem builds_close (span : Text.Span) (a : Orderly d h) (t : h.Untainted)
    (kept : ∀ form ∈ stack, FormKept d h form) (proper : ∀ form ∈ stack, FormProper h form) :
    Builds h (close span stack) ProgressProper := by
  rcases stack with _ | ⟨form, stack⟩
  · exact Cleans.throw t _
  · rcases List.forall_mem_cons.1 kept with ⟨firstKept, _⟩
    rcases List.forall_mem_cons.1 proper with ⟨firstProper, rest⟩
    cases firstKept with
    | quote => exact Cleans.throw t _
    | @list items ending opening keptItems keptEnds =>
        rcases firstProper with ⟨properItems, ends⟩
        cases ending with
        | proper =>
            exact builds_deliverNew span rest (maintains_consAll a (.nil d h nofun) keptItems)
              (builds_consAll t h.isError_nil properItems)
        | awaited => exact Cleans.throw t _
        | given tail =>
            exact builds_deliverNew span rest
              (maintains_consAll a ((keptEnds tail rfl).used a.toWellFormed) keptItems)
              (builds_consAll t (ends tail rfl) properItems)

theorem builds_dot (span : Text.Span) (t : h.Untainted)
    (proper : ∀ form ∈ stack, FormProper h form) :
    Builds h (dot span stack) ProgressProper := by
  unfold dot
  split
  · next item items opening stack =>
    rcases List.forall_mem_cons.1 proper with ⟨_ | _, rest⟩
    next properItems _ =>
    exact .pure t (.unfinished (List.forall_mem_cons.2 ⟨.list properItems nofun, rest⟩))
  · exact Cleans.throw t _

theorem builds_deliverAtom (span : Text.Span) (a : Orderly d h) (t : h.Untainted)
    (proper : ∀ form ∈ stack, FormProper h form) {o : Object} (none : o.references = [])
    (plain : ∀ p, o ≠ .primitive p) (noError : ∀ kind message, o ≠ .error kind message)
    (noSymbol : ∀ name, o ≠ .symbol name) :
    Builds h (deliverNew span stack (allocate o)) ProgressProper :=
  builds_deliverNew span proper
    (maintains_atom a none (fun p same => absurd same (plain p)) noSymbol)
    (builds_atom t noError none)

theorem builds_atomLexeme (span : Text.Span) (a : Orderly d h) (t : h.Untainted)
    (proper : ∀ form ∈ stack, FormProper h form) (atom : Atom) :
    Builds h (Reader.atom span stack atom) ProgressProper := by
  cases atom with
  | int n =>
      exact builds_deliverAtom span a t proper rfl (fun _ => nofun) (fun _ _ => nofun)
        fun _ => nofun
  | float x =>
      exact builds_deliverAtom span a t proper rfl (fun _ => nofun) (fun _ _ => nofun)
        fun _ => nofun
  | ratio numer denom =>
      exact builds_deliverAtom span a t proper rfl (fun _ => nofun) (fun _ _ => nofun)
        fun _ => nofun
  | nil => exact builds_deliver span a ⟨.nil, .nil nofun⟩ t h.isError_nil proper
  | symbol name =>
      refine Builds.bind_upkept (maintains_allocating (maintains_intern a name))
        (builds_allocating (builds_intern a.toSymbolTable t name)) ?_
      intro d₁ h₁ symbol a₁ _ kept t₁ spares properSymbol
      refine .root_bind t₁ fun t₂ spares' => ?_
      exact builds_deliver span (a₁.addRoot (.inl (kept.used a₁.toWellFormed)))
        (kept.addRoot symbol) t₂ (spares' symbol properSymbol)
        (properStack_of_spares (spares.trans spares') proper)
  | dot => exact builds_dot span t proper

theorem builds_take (lexeme : Lexeme) (a : Orderly d h) (t : h.Untainted)
    (kept : ∀ form ∈ stack, FormKept d h form) (proper : ∀ form ∈ stack, FormProper h form) :
    Builds h (take stack lexeme) ProgressProper := by
  unfold take
  dsimp only
  cases lexeme.token with
  | comment => exact .pure t (.unfinished proper)
  | opening =>
      refine .pure t (.unfinished (List.forall_mem_cons.2 ⟨.list ?_ nofun, proper⟩))
      exact List.forall_mem_nil _
  | quote => exact .pure t (.unfinished (List.forall_mem_cons.2 ⟨.quote, proper⟩))
  | closing => exact builds_close _ a t kept proper
  | string =>
      cases Text.unquote lexeme.text with
      | ok text =>
          exact builds_deliverAtom _ a t proper rfl (fun _ => nofun) (fun _ _ => nofun)
            fun _ => nofun
      | error fault => exact Cleans.throw t _
  | unclosed => exact Cleans.throw t _
  | atom =>
      cases Atom.classify lexeme.text with
      | ok atom => exact builds_atomLexeme _ a t proper atom
      | error fault => exact Cleans.throw t _
  | stray => exact Cleans.throw t _

end Lexemes

/-- Lexeme by lexeme the heap stays untainted. -/
theorem untainted_takeAll (r : Reader) {stack : List OpenForm} (lexemes : List Lexeme)
    (a : Orderly d h) (t : h.Untainted) (kept : ∀ form ∈ stack, FormKept d h form)
    (proper : ∀ form ∈ stack, FormProper h form) :
    (r.takeAll stack lexemes h).heap.Untainted := by
  induction lexemes generalizing d h stack with
  | nil => exact t
  | cons lexeme lexemes ih =>
      have step := maintains_take lexeme a kept
      have built := builds_take lexeme a t kept proper
      unfold Maintains at step
      unfold Builds Cleans at built
      unfold takeAll
      generalize take stack lexeme h = result at step built ⊢
      cases built with
      | error t₁ => exact t₁
      | ok t₁ progress =>
          cases step with
          | ok a₁ _ keptProgress =>
              cases keptProgress with
              | finished _ => exact t₁
              | unfinished kept₁ =>
                  cases progress.2 with
                  | unfinished proper₁ => exact ih a₁ t₁ kept₁ proper₁

theorem untainted_read (r : Reader) (a : Orderly d h) (t : h.Untainted) :
    (r.read h).heap.Untainted :=
  (untainted_takeAll r r.lexemes a t (List.forall_mem_nil _) (List.forall_mem_nil _) :)

/-! ## The root environment -/

section Primitives

variable {env : Env}

theorem builds_definePrimitive (a : Orderly d h) (t : h.Untainted) (p : Primitive) :
    Builds h (env.definePrimitive p) fun _ _ => True := by
  refine .bind (builds_intern a.toSymbolTable t p.name) fun h₁ name t₁ _ properName => ?_
  refine .bind (builds_atom (o := .primitive p) t₁ (fun _ _ => nofun) rfl) ?_
  exact fun h₂ value t₂ spares proper => builds_define t₂ (spares name properName) proper

theorem builds_definePrimitives (a : Orderly d h) (t : h.Untainted)
    (usedEnv : Used d h .frame env.value) {primitives : List Primitive}
    (standard : ∀ p ∈ primitives, p ∈ Primitive.standard) :
    Builds h (env.definePrimitives primitives) fun _ _ => True := by
  have defines : ∀ d h, Orderly d h → Kept d h .frame env.value → h.Untainted →
      Builds h (primitives.forM env.definePrimitive) fun _ _ => True := by
    induction primitives with
    | nil => exact fun d h _ _ t => .pure t trivial
    | cons p primitives ih =>
        intro d h a keptEnv t
        have first := standard p List.mem_cons_self
        have rest := ih fun q member => standard q (List.mem_cons_of_mem p member)
        refine Builds.bind_upkept (maintains_definePrimitive a keptEnv first)
          (builds_definePrimitive a t p) ?_
        intro d₁ h₁ _ a₁ retains _ t₁ _ _
        exact rest d₁ h₁ a₁ (retains.kept keptEnv) t₁
  refine .scope (.root_bind t fun t₁ _ => ?_) fun _ _ _ _ => trivial
  exact defines d _ (a.addRoot (.inr usedEnv)) ⟨tethered_addRoot d h env.value, usedEnv.fills⟩ t₁

theorem untainted_empty (capacity : Nat) : (Heap.empty capacity).Untainted := by
  intro v o w found member
  cases v with
  | nil => cases found
  | slot i =>
      rw [Heap.object?_empty] at found
      match i with
      | 0 =>
          cases found
          cases List.mem_singleton.1 member
          rfl
      | 1 =>
          cases found
          cases member
      | i + 2 => simp at found

end Primitives

theorem builds_make (limit : Nat) (a : Orderly d h) (t : h.Untainted) :
    Builds h (Evaluator.make limit) fun _ _ => True := by
  refine .bind (P := fun _ _ => True) ?_ fun _ _ t _ _ => .pure t trivial
  refine Builds.bind_upkept (maintains_intern a _) (builds_intern a.toSymbolTable t _)
    fun _ _ _ a₁ _ _ t₁ _ _ => ?_
  refine Builds.bind_upkept (maintains_intern a₁ _) (builds_intern a₁.toSymbolTable t₁ _)
    fun _ _ _ a₂ _ _ t₂ _ _ => ?_
  refine Builds.bind_upkept (maintains_intern a₂ _) (builds_intern a₂.toSymbolTable t₂ _)
    fun _ _ _ a₃ _ _ t₃ _ _ => ?_
  refine Builds.bind_upkept (maintains_intern a₃ _) (builds_intern a₃.toSymbolTable t₃ _)
    fun _ _ _ a₄ _ _ t₄ _ _ => ?_
  refine Builds.bind_upkept (maintains_intern a₄ _) (builds_intern a₄.toSymbolTable t₄ _)
    fun _ _ _ a₅ _ _ t₅ _ _ => ?_
  refine Builds.bind_upkept (maintains_intern a₅ _) (builds_intern a₅.toSymbolTable t₅ _)
    fun _ _ _ a₆ _ _ t₆ _ _ => ?_
  exact .pure t₆ trivial

/-! ## Roots -/

section Roots

variable {ε α β : Type}

/-- An operation that ends with the roots it has started with, whatever the outcome. -/
def KeepsStack (op : HeapM ε α) : Prop := ∀ h, (heapAfter op h).roots.values = h.roots.values

theorem KeepsStack.bind {op : HeapM ε α} {next : α → HeapM ε β} (first : KeepsStack op)
    (rest : ∀ x, KeepsStack (next x)) : KeepsStack (op >>= next) := by
  intro h
  have start := first h
  unfold heapAfter at start ⊢
  simp only [Bind.bind, EStateM.bind]
  generalize op h = result at start
  cases result with
  | error e h₁ => exact start
  | ok x h₁ => exact (rest x h₁).trans start

theorem keepsStack_intern (name : String) : KeepsStack (intern name) := by
  intro h
  unfold intern heapAfter
  rw [get_bind_apply]
  cases h.symbols[name]? with
  | some symbol => rfl
  | none =>
      simp only [Bind.bind, EStateM.bind]
      rcases allocate_cases h (.symbol name) with ⟨_, step⟩ | ⟨_, step⟩
      · rcases Heap.insert_eq h.makeRoom (.symbol name) with ⟨i, slots, free, inserted, _⟩
        rw [step, inserted]
        exact congrArg RootStack.values (Heap.roots_makeRoom h)
      · rw [step]
        exact congrArg RootStack.values (Heap.roots_makeRoom h)

theorem keepsStack_make (limit : Nat) : KeepsStack (Evaluator.make limit) := by
  refine .bind (.bind (keepsStack_intern _) fun _ => ?_) fun _ _ => rfl
  refine .bind (keepsStack_intern _) fun _ => .bind (keepsStack_intern _) fun _ => ?_
  refine .bind (keepsStack_intern _) fun _ => .bind (keepsStack_intern _) fun _ => ?_
  exact .bind (keepsStack_intern _) fun _ _ => rfl

theorem values_truncateRoots_zero (h : Heap) : (h.truncateRoots 0).roots.values = [] := by
  show h.roots.values.drop (h.roots.length - 0) = []
  rw [Nat.sub_zero, ← h.roots.length_eq, List.drop_length]

/-- An operation in a scope of its own leaves no roots where there were none. -/
theorem values_scope (op : HeapM ε α) (none : h.roots.values = []) :
    (heapAfter (HeapM.scope op) h).roots.values = [] := by
  have height : h.roots.length = 0 := by rw [← h.roots.length_eq, none, List.length_nil]
  unfold heapAfter HeapM.scope
  rw [height]
  cases op h with
  | ok _ h₁ => exact values_truncateRoots_zero h₁
  | error _ h₁ => exact values_truncateRoots_zero h₁

theorem pins_heapAfter {op : HeapM ε α} {Q : Layout → Heap → α → Prop}
    (m : Maintains d h op Q) : (heapAfter op h).pins = h.pins := by
  unfold Maintains at m
  unfold heapAfter
  generalize op h = result at m
  cases m with
  | ok _ retains _ => exact retains.roots.pins_eq
  | error _ retains => exact retains.roots.pins_eq

theorem untainted_heapAfter {op : HeapM ε α} {P : Heap → α → Prop} (c : Cleans h op P) :
    (heapAfter op h).Untainted := by
  unfold Cleans at c
  unfold heapAfter
  generalize op h = result at c
  cases c with
  | ok t _ => exact t
  | error t => exact t

end Roots

end Termination

/-! ## Between two steps -/

open Termination HeapM

/-- No object refers to an error value, and no error value can be reached. -/
structure Heap.FreeOfErrors (h : Heap) : Prop where
  stored : ∀ v o w, h.object? v = some o → w ∈ o.references → h.isError w = false
  reached : ∀ i, h.Reachable i → h.isError (.slot i) = false

/-- A heap as it is between two steps of the work on a source text. -/
structure Standing (h : Heap) : Prop where
  orderly : ∃ d, Orderly d h
  untainted : h.Untainted
  unrooted : h.roots.values = []
  unpinned : h.pins = #[]

section Standing

variable {h h' : Heap} {ev : Evaluator}

theorem Standing.freeOfErrors (s : Standing h) : h.FreeOfErrors := by
  rcases s.orderly with ⟨d, a⟩
  refine ⟨s.untainted, fun i reached => ?_⟩
  cases reached with
  | reference _ found member _ => exact s.untainted _ _ _ found member
  | start root _ =>
      generalize Value.slot i = v at root
      cases root with
      | environment =>
          rcases a.rootEnv_frame with ⟨bindings, found⟩
          exact Heap.isError_of_object? found nofun
      | symbol found => exact Heap.isError_of_object? (a.named _ _ found) nofun
      | stack member =>
          rw [s.unrooted] at member
          cases member
      | pin found => simp [s.unpinned] at found

theorem standing_standard {capacity : Nat} (done : Heap.standard capacity = .ok h) :
    Standing h := by
  rcases exists_orderly_empty capacity with ⟨d, a⟩
  have used := a.used_of_isEnvironment (v := (Heap.empty capacity).rootEnv.value)
    ⟨.nil, none, rfl⟩
  have all : ∀ p ∈ Primitive.standard, p ∈ Primitive.standard := fun _ member => member
  have defines := maintains_definePrimitives a used all
  have after := Heap.Operation.heapAfter_of_standard done
  refine ⟨exists_orderly_standard done, ?_, ?_, ?_⟩
  · rw [← after]
    exact untainted_heapAfter (builds_definePrimitives a (untainted_empty capacity) used all)
  · rw [← after]
    exact values_scope _ rfl
  · rw [← after]
    exact pins_heapAfter defines

theorem standing_read (s : Standing h) (r : Reader) : Standing (r.read h).heap := by
  rcases s with ⟨⟨d, a⟩, t, unrooted, unpinned⟩
  rcases read_kept r a with ⟨d', kept⟩
  refine ⟨⟨d', kept.orderly⟩, untainted_read r a t, ?_, kept.retains.roots.pins_eq.trans unpinned⟩
  have height : h.roots.length = 0 := by rw [← h.roots.length_eq, unrooted, List.length_nil]
  show ((r.takeAll [] r.lexemes h).heap.truncateRoots h.roots.length).roots.values = []
  rw [height]
  exact values_truncateRoots_zero _

theorem standing_make (s : Standing h) (limit : Nat) :
    Standing (heapAfter (Evaluator.make limit) h) := by
  rcases s with ⟨⟨d, a⟩, t, unrooted, unpinned⟩
  refine ⟨(maintains_make limit a).heapAfter, untainted_heapAfter (builds_make limit a t), ?_, ?_⟩
  · exact (keepsStack_make limit h).trans unrooted
  · exact (pins_heapAfter (maintains_make limit a)).trans unpinned

/-- What has been read is kept while it is evaluated. -/
theorem standing_evaluateForm (ev : Evaluator) (s : Standing h) {r r' : Reader} {form : Value}
    (found : r.read h = ⟨.ok (some form), r', h'⟩) :
    Standing (heapAfter (ev.evaluateForm form) h') := by
  rcases standing_read s r with ⟨_, t, unrooted, unpinned⟩
  rcases s.orderly with ⟨d, a⟩
  rcases read_kept r a with ⟨d', kept⟩
  rw [found] at t unrooted unpinned kept
  have used := kept.used form rfl
  have rooted := kept.orderly.addRoot (.inl used)
  have keptForm : Kept d' (h'.addRoot form) .datum form :=
    ⟨tethered_addRoot d' h' form, used.fills⟩
  have usedEnv : Used d' (h'.addRoot form) .frame (h'.addRoot form).rootEnv.value := by
    rcases rooted.rootEnv_frame with ⟨bindings, root⟩
    exact rooted.used_of_isEnvironment ⟨bindings, none, root⟩
  have usedForm := keptForm.used rooted.toWellFormed
  have upkeep : Maintains d' h' (ev.evaluateForm form) fun d₁ h₁ v => Used d₁ h₁ .datum v := by
    refine .scope (.root_bind kept.orderly used (.inl rfl) fun _ _ => ?_)
      fun _ _ _ height used => used.truncateRoots height
    exact .get_bind (completes_datum ev ev.limit rooted usedEnv usedForm).maintains
  have clean : Leaves h' (ev.evaluateForm form) := by
    refine Cleans.scope (.root_bind t fun t₁ _ => ?_) fun _ _ _ _ => trivial
    exact .get_bind (leaves_datum ev ev.limit rooted usedEnv usedForm t₁)
  exact ⟨upkeep.heapAfter, untainted_heapAfter clean, values_scope _ unrooted,
    (pins_heapAfter upkeep).trans unpinned⟩

end Standing

/-! ## Source texts -/

section Sources

variable {σ : Type}

/-- The heaps that the work on the rest of a text comes by: what reading and evaluating leave. -/
inductive Evaluator.Passes (ev : Evaluator) (each : Heap → Value → σ → Except Failure Unit × σ) :
    Reader → Heap → σ → Heap → Prop where
  | read (r : Reader) (h : Heap) (s : σ) : ev.Passes each r h s (r.read h).heap
  | evaluated {r r' : Reader} {h h₁ : Heap} {form : Value} (s : σ) :
      r.read h = ⟨.ok (some form), r', h₁⟩ →
        ev.Passes each r h s (heapAfter (ev.evaluateForm form) h₁)
  | later {r r' : Reader} {h h₁ h₂ h' : Heap} {form value : Value} {s s' : σ} :
      r.read h = ⟨.ok (some form), r', h₁⟩ → ev.evaluateForm form h₁ = .ok value h₂ →
        each h₂ value s = (.ok (), s') → ev.Passes each r' h₂ s' h' → ev.Passes each r h s h'

/-- The heaps that running a source text comes by. -/
inductive SourcePasses (limit : Nat) (source : String)
    (each : Heap → Value → σ → Except Failure Unit × σ) (h : Heap) (s : σ) : Heap → Prop where
  | made : SourcePasses limit source each h s (heapAfter (Evaluator.make limit) h)
  | rest {ev : Evaluator} {h₁ h' : Heap} : Evaluator.make limit h = .ok ev h₁ →
      ev.Passes each (Reader.ofSource source) h₁ s h' → SourcePasses limit source each h s h'

/-- The heaps before and after each of the source texts that are run on a fresh heap one by one. -/
inductive Session (capacity : Nat) : Heap → Prop where
  | standard {h : Heap} : Heap.standard capacity = .ok h → Session capacity h
  | source {σ : Type} {h : Heap} (limit : Nat) (source : String)
      (each : Heap → Value → σ → Except Failure Unit × σ) (s : σ) : Session capacity h →
        Session capacity (evaluateSource limit source each h s).2.1

variable {each : Heap → Value → σ → Except Failure Unit × σ} {h h' : Heap} {s : σ}

theorem Evaluator.Passes.standing {ev : Evaluator} {r : Reader} (p : ev.Passes each r h s h')
    (standing : Standing h) : Standing h' := by
  induction p with
  | read r h s => exact standing_read standing r
  | evaluated s found => exact standing_evaluateForm ev standing found
  | later found evaluated _ _ ih =>
      have next := standing_evaluateForm ev standing found
      unfold heapAfter at next
      rw [evaluated] at next
      exact ih next

theorem SourcePasses.standing {limit : Nat} {source : String}
    (p : SourcePasses limit source each h s h') (standing : Standing h) : Standing h' := by
  cases p with
  | made => exact standing_make standing limit
  | rest made passes =>
      have next := standing_make standing limit
      unfold heapAfter at next
      rw [made] at next
      exact passes.standing next

/-- The heap that is left in the end is one of those that the work comes by. -/
theorem Evaluator.passes_evaluateRest (ev : Evaluator) (r : Reader) (h : Heap) (s : σ) :
    ev.Passes each r h s (ev.evaluateRest each r h s).2.1 := by
  induction length : r.lexemes.length using Nat.strongRecOn generalizing r h s with
  | ind n ih =>
      have first : ev.Passes each r h s (r.read h).heap := .read r h s
      rw [ev.evaluateRest_eq]
      rcases reading : r.read h with ⟨_ | _ | form, r₁, h₁⟩
      · rw [reading] at first
        exact first
      · rw [reading] at first
        exact first
      · have shorter : r₁.lexemes.length < n := length ▸ Reader.length_lt_of_read reading
        have second : ev.Passes each r h s (heapAfter (ev.evaluateForm form) h₁) :=
          .evaluated s reading
        unfold heapAfter at second
        dsimp only
        rcases evaluated : ev.evaluateForm form h₁ with ⟨value, h₂⟩ | ⟨cause, h₂⟩
        · rw [evaluated] at second
          dsimp only at second ⊢
          rcases handed : each h₂ value s with ⟨_ | _, s₁⟩
          · exact second
          · exact .later reading evaluated handed (ih _ shorter r₁ h₂ s₁ rfl)
        · rw [evaluated] at second
          exact second

theorem passes_evaluateSource (limit : Nat) (source : String) (h : Heap) (s : σ) :
    SourcePasses limit source each h s (evaluateSource limit source each h s).2.1 := by
  have first : SourcePasses limit source each h s (heapAfter (Evaluator.make limit) h) := .made
  unfold evaluateSource
  unfold heapAfter at first
  rcases made : Evaluator.make limit h with ⟨ev, h₁⟩ | ⟨cause, h₁⟩
  · exact .rest made (ev.passes_evaluateRest _ h₁ s)
  · rw [made] at first
    exact first

theorem Session.standing {capacity : Nat} (session : Session capacity h) : Standing h := by
  induction session with
  | standard done => exact standing_standard done
  | source limit source each s _ ih =>
      exact (passes_evaluateSource limit source _ s).standing ih

/--
Error values are never stored. Whatever texts have been run on a heap with the standard primitives,
at whatever capacity, with whatever limits and outcomes, no object refers to an error value and none
can be reached; and this is so at every heap that the next text comes by.
-/
theorem freeOfErrors_of_session {capacity : Nat} (session : Session capacity h) (limit : Nat)
    (source : String) (each : Heap → Value → σ → Except Failure Unit × σ) (s : σ) :
    h.FreeOfErrors ∧
      ∀ h', SourcePasses limit source each h s h' → h'.FreeOfErrors :=
  ⟨session.standing.freeOfErrors, fun _ passes => (passes.standing session.standing).freeOfErrors⟩

/-- A definition whose value is an error, run where there is hardly room, and a text after it. -/
theorem freeOfErrors_of_session_refused : ∃ h, Heap.standard 109 = .ok h ∧
    Session 109 (evaluateSource 16 "(define x (car 1))" record h []).2.1 ∧
      (evaluateSource 16 "(define x (car 1))" record h []).2.1.FreeOfErrors ∧
        ∀ h', SourcePasses 16 "(cons x x)" record
          (evaluateSource 16 "(define x (car 1))" record h []).2.1 [] h' → h'.FreeOfErrors := by
  rcases Evaluator.spare_make (Nat.le_refl 109) 16 with ⟨h, _, _, step, _, _⟩
  have session : Session 109 (evaluateSource 16 "(define x (car 1))" record h []).2.1 :=
    .source 16 "(define x (car 1))" record [] (.standard step)
  exact ⟨h, step, session, freeOfErrors_of_session session 16 "(cons x x)" record []⟩

end Sources

end Lisplet
