import Lisplet.Proofs.Frames
import Lisplet.Proofs.Propagation
import Lisplet.Proofs.Reuse
import Lisplet.Proofs.Symbols

/-!
# Improper — what becomes of operands that are no proper list

A list of operands that does not end in nil makes an expression malformed, and most forms say so:
`improper_operands` states it for all of them. Four special forms and the definition of a value
refuse such operands before they evaluate anything. An application evaluates its operator and the
operands in front of the end first. But a sequence takes the end of the list to be the end of its
parts, whatever it is, and a definition of a procedure does not look at the end of the body. So
there the end is cut off without a word.
-/

namespace Lisplet

open Heap.Operation (heapAfter)

/-! ## Improper lists -/

namespace Heap

variable {h h' : Heap} {v car cdr tail : Value} {o : Object}

/-- A list that does not end in nil. -/
def Improper (h : Heap) (v : Value) : Prop := ∀ items, ¬ h.Spine v items .nil

namespace Improper

theorem items?_eq (improper : h.Improper v) : h.items? v = none := by
  cases found : h.items? v with
  | none => rfl
  | some items => exact absurd (items?_eq_some_iff.1 found) (improper items)

/-- What is behind the first element is no better. -/
theorem rest (improper : h.Improper v) (pair : h.pair? v = some (car, cdr)) : h.Improper cdr :=
  fun items spine => improper (car :: items) (.step pair spine)

theorem congr (improper : h.Improper v) (same : ∀ v, h'.object? v = h.object? v) :
    h'.Improper v := fun items spine => improper items (spine.congr fun v => (same v).symm)

theorem ne_nil (improper : h.Improper v) : v ≠ .nil := by
  rintro rfl
  exact improper [] (.done rfl)

end Improper

theorem Tidy.addRoot (t : h.Tidy) (v : Value) : (h.addRoot v).Tidy := by
  unfold Heap.addRoot
  split
  · exact t
  · exact t.transfer rfl rfl

theorem object?_of_procedure (t : h.Tidy) {params body : Value} {env : Env}
    (done : HeapM.procedure params body env h = .ok v h') :
    h'.object? v = some (.procedure params body env) := by
  have rooted := ((t.addRoot params).addRoot body).addRoot env.value
  have body : HeapM.procedure params body env h = HeapM.scope (fun _ =>
      HeapM.allocate (.procedure params body env)
        (((h.addRoot params).addRoot body).addRoot env.value)) h := rfl
  rcases HeapM.exists_of_scope (body.symm.trans done) with ⟨h₁, made, rfl⟩
  have object := object?_of_allocate rooted made
  exact object

/-- The list comes to a slot that binds a symbol or has been reclaimed. -/
def Odd (h : Heap) (v : Value) : Prop :=
  ∃ i, h.EndsIn (.slot i) v ∧ (h.IsBinding (.slot i) ∨ ¬ h.Occupied i)

/-- No program can get hold of such a list. -/
theorem Odd.not_expression (odd : h.Odd v) (reached : Reached h) : ¬ h.Expression v := by
  intro isExpr
  rcases odd with ⟨i, ends, odd⟩
  have isExpr : h.Expression (.slot i) := by
    induction ends with
    | here => exact isExpr
    | later found _ ih =>
        exact ih (reached.expression_of_reference isExpr found (by simp [Object.references]) nofun)
  rcases odd with binds | lost
  · exact isExpr.2 i rfl (.inr binds)
  · exact lost (holds_slot_iff.1 isExpr.1)

/-- Along any other list nothing changes. -/
theorem Respects.pair?_eq (r : h.Respects h') (sheltered : ∀ i, v = .slot i → h.Sheltered i)
    (plain : ¬ h.Odd v) (ends : h.EndsIn tail v) : h'.pair? tail = h.pair? tail := by
  -- Induction along the list; its pairs shelter each other.
  induction ends with
  | here =>
      cases tail with
      | nil => rfl
      | slot i =>
          have occupied : h.Occupied i := not_not.1 fun lost => plain ⟨i, .here, .inr lost⟩
          rcases occupied_iff.1 occupied with ⟨o, found⟩
          cases r.endures.renews i o (sheltered i rfl) found with
          | same found' => rw [pair?, pair?, found, found']
          | bindings found' _ => rw [pair?, pair?, found, found']
          | value binds _ => exact absurd ⟨i, .here, .inl binds⟩ plain
  | @later v car cdr found _ ih =>
      have plain' : ¬ h.Odd cdr := by
        rintro ⟨j, ends, odd⟩
        exact plain ⟨j, .later found ends, odd⟩
      refine ih (fun j same => ?_) plain'
      have occupied : h.Occupied j := not_not.1 fun lost =>
        plain ⟨j, .later found (same ▸ .here), .inr lost⟩
      cases v with
      | nil => cases found
      | slot i =>
          refine .reference (sheltered i rfl) found (fun binds => plain ⟨i, .here, .inl binds⟩) ?_
            occupied
          simp [Object.references, same]

/-- Whatever has been done to a heap, its table lists its symbols. -/
theorem named_of_worked (worked : Worked h) : h.Named := by
  induction worked with
  | empty capacity => exact named_empty capacity
  | @standard capacity h done =>
      have defined := (Occurs.operation (.empty capacity)
        (.definePrimitives (Heap.empty capacity).rootEnv Primitive.standard)).leads
      have named := (named_empty capacity).leads defined
      exact Operation.heapAfter_of_standard done ▸ named
  | @service h service _ _ ih => exact ih.leads (Occurs.service h service).leads
  | @root h v _ ih => exact ih.leads (Occurs.operation h (.root v)).leads
  | truncateRoots height _ ih =>
      exact ih.leads (Occurs.operation _ (.truncateRoots height)).leads
  | @pin h v _ ih => exact ih.leads (Occurs.operation h (.pin v)).leads
  | @repin h p v _ ih => exact ih.leads (Occurs.operation h (.repin p v)).leads
  | @unpin h p _ ih => exact ih.leads (Occurs.operation h (.unpin p)).leads
  | collect _ ih => exact ih.collect

end Heap

namespace Evaluator

/-- Where a heap has been worked on, every pair is compound, as none is in the slot of `t`. -/
theorem compound_of_worked (ev : Evaluator) (whole : Evaluating) {head operands : Value}
    (worked : Worked whole.heap) (pair : whole.heap.pair? whole.expr = some (head, operands)) :
    ev.Compound whole (ev.forms.formOf head) head operands := by
  refine ⟨pair, fun isTruth => ?_, rfl⟩
  have table := (Heap.named_of_worked worked).table
  have symbol := table.named "t" _ table.canonical
  rw [← isTruth, Heap.pair?_eq_some_iff.1 pair] at symbol
  cases symbol

/-! ## Walks along operands -/

section Walks

variable {evaluate : Value → HeapM Fatal Value} {keep : Heap → Value → Heap}
  {part list : Value} {steps : Nat} {h h' : Heap}

/-- What every evaluation of a part respects holds of the whole walk. -/
theorem ComesTo.along {R : Heap → Heap → Prop} (c : Heap.Composes R)
    (parts : ∀ part h, HeapM.Obeys R h (evaluate part)) (keeps : ∀ h v, R h (keep h v))
    (comes : ComesTo evaluate keep part h' steps list h) : R h h' := by
  induction comes with
  | here _ => exact c.refl _
  | @later _ _ first _ _ h _ _ done _ _ ih =>
      exact c.trans ((parts first h).of_ok done) (c.trans (keeps _ _) ih)

/-- The value of a sequence is that of the last part that has been evaluated. -/
theorem exists_of_sequenceWith {result v : Value}
    (done : sequenceWith evaluate result steps list h = .ok v h') :
    (v = result ∧ h' = h) ∨
      ∃ part h₀, ComesTo evaluate unkept part h₀ steps list h ∧ evaluate part h₀ = .ok v h' := by
  induction steps generalizing h result list with
  | zero =>
      cases done
      exact .inl ⟨rfl, rfl⟩
  | succ steps ih =>
      rw [sequenceWith, get_bind_apply] at done
      cases pair : h.pair? list with
      | none =>
          rw [pair] at done
          cases done
          exact .inl ⟨rfl, rfl⟩
      | some parts =>
          rw [pair] at done
          refine .inr ?_
          rcases exists_of_checked done with ⟨value, h₁, first, ⟨_, stops⟩ | ⟨fine, goesOn⟩⟩
          · cases stops
            exact ⟨parts.1, h, .here pair, first⟩
          · rcases ih goesOn with ⟨rfl, rfl⟩ | ⟨part, h₀, comes, last⟩
            · exact ⟨parts.1, h, .here pair, first⟩
            · exact ⟨part, h₀, .later pair first fine comes, last⟩

/--
Operands that are no proper list in `base` are found improper, unless one of them gives an error, or
one of them changes the list.
-/
theorem operandsWith_of_improper {base : Heap} {found : List Value} {r : Operands}
    (improper : base.Improper list)
    (same : ∀ tail, base.EndsIn tail list → h.pair? tail = base.pair? tail)
    (done : operandsWith evaluate found steps list h = .ok r h') :
    r = .improper ∨ ∃ part h₀ value after, ComesTo evaluate Heap.addRoot part h₀ steps list h ∧
      evaluate part h₀ = .ok value after ∧
      ((r = .failed value ∧ h' = after ∧ after.isError value = true) ∨
        ∃ tail, base.EndsIn tail list ∧ after.pair? tail ≠ base.pair? tail) := by
  -- Induction along the list, as long as it is what it was in `base`.
  induction steps generalizing h found list with
  | zero =>
      cases done
      exact .inl rfl
  | succ steps ih =>
      rw [operandsWith, get_bind_apply] at done
      cases pair : h.pair? list with
      | none =>
          rw [pair] at done
          have notNil : ¬ list.isNil = true := by
            cases list with
            | nil => exact absurd rfl improper.ne_nil
            | slot _ => exact Bool.false_ne_true
          rw [if_neg notNil] at done
          cases done
          exact .inl rfl
      | some parts =>
          rw [pair] at done
          have before := (same list .here).symm.trans pair
          have object := Heap.pair?_eq_some_iff.1 before
          rcases exists_of_checked done with ⟨value, h₁, first, ⟨isError, stops⟩ | ⟨fine, goesOn⟩⟩
          · cases stops
            exact .inr ⟨parts.1, h, value, h', .here pair, first, .inl ⟨rfl, rfl, isError⟩⟩
          · by_cases kept : ∀ tail, base.EndsIn tail parts.2 → h₁.pair? tail = base.pair? tail
            · have kept' : ∀ tail, base.EndsIn tail parts.2 →
                  (h₁.addRoot value).pair? tail = base.pair? tail := fun tail ends =>
                (Heap.pair?_congr (Heap.object?_addRoot h₁ value) tail).trans (kept tail ends)
              rcases ih (improper.rest before) kept' goesOn with
                rfl | ⟨part, h₀, value', after, comes, last, failed | ⟨tail, ends, differs⟩⟩
              · exact .inl rfl
              · exact .inr ⟨part, h₀, value', after, .later pair first fine comes, last,
                  .inl failed⟩
              · exact .inr ⟨part, h₀, value', after, .later pair first fine comes, last,
                  .inr ⟨tail, .later object ends, differs⟩⟩
            · push Not at kept
              rcases kept with ⟨tail, ends, differs⟩
              exact .inr ⟨parts.1, h, value, h₁, .here pair, first,
                .inr ⟨tail, .later object ends, differs⟩⟩

end Walks

/-! ## What becomes of them -/

/--
Whether the operands are those of a definition of a procedure, `(name . params)` followed by the
body.
-/
def Names (h : Heap) (operands name params body : Value) : Prop :=
  ∃ target, h.pair? operands = some (target, body) ∧ h.pair? target = some (name, params)

/-- What may come of operands that are no proper list, if it is a value. -/
inductive Verdict (ev : Evaluator) (whole : Evaluating) (operands v : Value) (h' : Heap) :
    Form → Prop where
  /-- A special form finds itself malformed, and evaluates nothing. -/
  | malformed {form : Form} : form ≠ .sequence → form ≠ .application →
      (form = .definition → ∀ name params body, ¬ Names whole.heap operands name params body) →
      h'.object? v =
        some (.error .typeError s!"malformed {form.name}: {whole.heap.write whole.expr}") →
        Verdict ev whole operands v h' form
  /-- An application comes to the end of its operands. -/
  | ended {seen : Heap} : h'.object? v =
        some (.error .typeError s!"malformed application: {seen.write whole.expr}") →
        Verdict ev whole operands v h' .application
  /-- The operator or an operand in front of the end gives an error. -/
  | failed {part : Evaluating} {after : Heap} : ev.Enters whole part →
      ev.outcome part = .ok v after → after.isError v = true →
      h' = { after with roots := whole.heap.roots } →
        Verdict ev whole operands v h' .application
  /-- The operator or an operand changes the list, which is none that a program can get hold of. -/
  | changed {part : Evaluating} {value tail : Value} {after : Heap} : ev.Enters whole part →
      ev.outcome part = .ok value after → whole.heap.EndsIn tail operands →
      after.pair? tail ≠ whole.heap.pair? tail → whole.heap.Odd whole.expr →
      (Reached whole.heap → ¬ whole.heap.Expression whole.expr) →
        Verdict ev whole operands v h' .application
  /-- A sequence without parts is nil, whatever stands in their place. -/
  | empty : v = .nil → h' = whole.heap → Verdict ev whole operands v h' .sequence
  /-- A sequence has the value of its last part, whatever stands behind it. -/
  | last {part : Evaluating} {after : Heap} : ev.Enters whole part →
      ev.outcome part = .ok v after → h' = { after with roots := whole.heap.roots } →
        Verdict ev whole operands v h' .sequence
  /-- A procedure is made with the body as it is. -/
  | procedure {name params body : Value} : Names whole.heap operands name params body →
      whole.heap.isSymbol name = true → whole.heap.Improper body →
      h'.object? v = some (.procedure params body whole.env) →
        Verdict ev whole operands v h' .definition
  /-- What is to be defined is no symbol, which is found out first. -/
  | misnamed {name params body : Value} : Names whole.heap operands name params body →
      whole.heap.isSymbol name = false →
      h'.object? v = some (.error .typeError
        s!"define: expected symbol, got {(whole.heap.kind name).name}") →
        Verdict ev whole operands v h' .definition

/-! ## Form by form -/

section Forms

variable {ev : Evaluator} {whole : Evaluating} {form : Form} {head operands v : Value} {h' : Heap}
  {room : Nat}

/-- A special form that looks at the whole list of its operands refuses them at once. -/
theorem work_of_improper (improper : whole.heap.Improper operands) (notSequence : form ≠ .sequence)
    (notApplication : form ≠ .application)
    (noProcedure : form = .definition →
      ∀ name params body, ¬ Names whole.heap operands name params body) :
    ev.work room form whole.expr head operands whole.env whole.opened =
      HeapM.malformed form.name whole.expr whole.opened := by
  have opened := improper.congr whole.object?_opened
  cases form with
  | sequence => exact absurd rfl notSequence
  | application => exact absurd rfl notApplication
  | quote =>
      show quoteForm whole.expr operands whole.opened = _
      rw [quoteForm, get_bind_apply, opened.items?_eq]
      rfl
  | conditional =>
      show ifForm _ whole.expr operands whole.opened = _
      rw [ifForm, get_bind_apply, opened.items?_eq]
      rfl
  | assignment =>
      show setForm _ whole.expr operands whole.env whole.opened = _
      rw [setForm, get_bind_apply, opened.items?_eq]
      rfl
  | definition =>
      show defineForm _ whole.expr operands whole.env whole.opened = _
      cases pair : whole.opened.pair? operands with
      | none =>
          rw [defineForm, get_bind_apply, pair]
          rfl
      | some parts =>
          have plain : whole.opened.pair? parts.1 = none := by
            cases named : whole.opened.pair? parts.1 with
            | none => rfl
            | some names =>
                rw [whole.pair?_opened] at pair named
                exact absurd ⟨parts.1, pair, named⟩ (noProcedure rfl names.1 names.2 parts.2)
          simp only [defineForm, get_bind_apply, pair, plain, (opened.rest pair).items?_eq]
          rfl
  | abstraction =>
      show lambdaForm whole.expr operands whole.env whole.opened = _
      cases pair : whole.opened.pair? operands with
      | none =>
          rw [lambdaForm, get_bind_apply, pair]
          rfl
      | some parts =>
          simp only [lambdaForm, get_bind_apply, pair, (opened.rest pair).items?_eq]
          rfl

/-- The definition of a procedure looks at its name and its parameters only. -/
theorem work_of_names {name params body : Value}
    (names : Names whole.heap operands name params body) :
    ev.work room .definition whole.expr head operands whole.env whole.opened =
      defineProcedure name params body whole.env whole.opened := by
  rcases names with ⟨target, pair, named⟩
  rw [← whole.pair?_opened] at pair named
  show defineForm _ whole.expr operands whole.env whole.opened = _
  simp only [defineForm, get_bind_apply, pair, named]

variable (worked : Worked whole.heap)

include worked in
theorem framed_opened : whole.opened.Framed :=
  ((Heap.framed_of_worked worked).addRoot whole.expr).addRoot whole.env.value

/-- The message of a malformed form. -/
theorem object?_of_malformed {h : Heap} (framed : h.Framed) {name : String} {expr : Value}
    (done : HeapM.malformed name expr h = .ok v h') :
    h'.object? v = some (.error .typeError s!"malformed {name}: {h.write expr}") := by
  rcases framed.charted with ⟨c, a⟩
  exact Heap.object?_of_allocate a.toTidy done

include worked in
theorem verdict_of_special (c : ev.Compound whole form head operands)
    (improper : whole.heap.Improper operands) (notSequence : form ≠ .sequence)
    (notApplication : form ≠ .application)
    (noProcedure : form = .definition →
      ∀ name params body, ¬ Names whole.heap operands name params body)
    (ends : ev.outcome whole = .ok v h') : Verdict ev whole operands v h' form := by
  rcases c.exists_work ends with ⟨room, h₁, -, done, rfl⟩
  rw [work_of_improper improper notSequence notApplication noProcedure] at done
  refine .malformed notSequence notApplication noProcedure ?_
  have made := object?_of_malformed (framed_opened worked) done
  rwa [whole.write_opened] at made

/-- The parts of a sequence are evaluated up to the end of the list, which is not looked at. -/
theorem verdict_of_sequence (c : ev.Compound whole .sequence head operands)
    (ends : ev.outcome whole = .ok v h') : Verdict ev whole operands v h' .sequence := by
  rcases c.exists_work ends with ⟨room, h₁, enough, done, rfl⟩
  rcases exists_of_sequenceWith done with ⟨rfl, rfl⟩ | ⟨part, h₀, comes, last⟩
  · exact .empty rfl whole.opened_eq
  · exact .last (.step c enough comes) last rfl

/-- A procedure stays what it is while it is bound. -/
theorem object?_of_defineProcedure {h : Heap} (framed : h.Framed) {name params body : Value}
    {env : Env} (symbol : h.isSymbol name = true)
    (done : defineProcedure name params body env h = .ok v h') :
    h'.object? v = some (.procedure params body env) := by
  rcases framed.charted with ⟨c, a⟩
  rw [defineProcedure, get_bind_apply, if_pos symbol] at done
  rcases HeapM.exists_of_bind done with ⟨procedure, h₁, first, rest⟩
  have made := (Heap.dataConduct_treats.obeys_procedure h params body env).of_ok first
  rcases HeapM.exists_of_bind rest with ⟨_, _, ⟨⟩, rest⟩
  rcases HeapM.exists_of_bind rest with ⟨_, h₂, second, ⟨⟩⟩
  have object := Heap.object?_of_procedure a.toTidy first
  have defined : HeapM.Obeys Heap.Treats (h₁.addRoot v) (env.define name v) :=
    Heap.treats_define (h₁.addRoot v) env name v
  have respects := defined.of_ok second ((made framed).framed.addRoot v)
  cases v with
  | nil => cases object
  | slot i =>
      have rooted := (Heap.object?_addRoot h₁ (.slot i) (.slot i)).trans object
      have sheltered : (h₁.addRoot (.slot i)).Sheltered i :=
        .root (.stack List.mem_cons_self) (Heap.occupied_of_object? rooted)
      cases respects.endures.renews i _ sheltered rooted with
      | same found => exact found

include worked in
/-- The body of a procedure is not looked at when it is defined. -/
theorem verdict_of_procedure (c : ev.Compound whole .definition head operands)
    (improper : whole.heap.Improper operands) {name params body : Value}
    (names : Names whole.heap operands name params body) (ends : ev.outcome whole = .ok v h') :
    Verdict ev whole operands v h' .definition := by
  have framed := framed_opened worked
  rcases framed.charted with ⟨c', a⟩
  rcases c.exists_work ends with ⟨room, h₁, -, done, rfl⟩
  have makes := (work_of_names names).symm.trans done
  rcases id names with ⟨target, pair, named⟩
  have bodyImproper := improper.rest pair
  have asked := whole.isSymbol_opened name
  cases symbol : whole.heap.isSymbol name with
  | false =>
      rw [defineProcedure, get_bind_apply, asked, symbol, if_neg Bool.false_ne_true] at makes
      have made : h₁.object? v = some (.error .typeError
          s!"define: expected symbol, got {(whole.opened.kind name).name}") :=
        Heap.object?_of_allocate a.toTidy makes
      rw [whole.kind_opened] at made
      exact .misnamed names symbol made
  | true =>
      have made := object?_of_defineProcedure framed (asked.trans symbol) makes
      exact .procedure names symbol bodyImproper made

include worked in
/-- Only an odd list can be changed. -/
theorem odd_of_changed (c : ev.Compound whole form head operands) {after : Heap}
    (treats : whole.opened.Treats after) {tail : Value} (ends : whole.heap.EndsIn tail operands)
    (differs : after.pair? tail ≠ whole.heap.pair? tail) : whole.heap.Odd whole.expr := by
  by_contra plain
  have same (v : Value) : whole.heap.object? v = whole.opened.object? v :=
    (whole.object?_opened v).symm
  have occupied_iff (i : Nat) : whole.opened.Occupied i ↔ whole.heap.Occupied i := by
    rw [Heap.Occupied, whole.object?_opened, Heap.Occupied]
  have plain' : ¬ whole.opened.Odd whole.expr := by
    rintro ⟨i, ends, odd⟩
    exact plain ⟨i, ends.congr same, odd.imp (·.congr same) (mt (occupied_iff i).2)⟩
  -- The expression is a root, so all that it consists of is sheltered.
  have sheltered : ∀ i, whole.expr = .slot i → whole.opened.Sheltered i := by
    intro i name
    have root := whole.isRoot_opened.resolve_right (by simp [name])
    exact .root (name ▸ root) (not_not.1 fun lost => plain' ⟨i, name ▸ .here, .inr lost⟩)
  have respects := treats (framed_opened worked)
  have ends' : whole.opened.EndsIn tail whole.expr :=
    (Heap.EndsIn.later c.object ends).congr whole.object?_opened
  exact differs ((respects.pair?_eq sheltered plain' ends').trans (whole.pair?_opened tail))

include worked in
theorem verdict_of_application (c : ev.Compound whole .application head operands)
    (improper : whole.heap.Improper operands) (ends : ev.outcome whole = .ok v h') :
    Verdict ev whole operands v h' .application := by
  have framed := framed_opened worked
  rcases c.exists_work ends with ⟨room, h₁, enough, done, rfl⟩
  have operator : ev.Enters whole ⟨room, head, whole.env, whole.opened⟩ := .operator c enough
  have parts (part : Value) (h : Heap) : HeapM.Obeys Heap.Treats h (ev.eval room part whole.env) :=
    Heap.conduct_treats.obeys_eval h ev room part whole.env
  rcases exists_of_checked done with ⟨function, h₂, first, ⟨isError, stops⟩ | ⟨fine, goesOn⟩⟩
  · cases stops
    exact .failed operator first isError rfl
  have treated := (parts head whole.opened).of_ok first
  by_cases same : ∀ tail, whole.heap.EndsIn tail operands → h₂.pair? tail = whole.heap.pair? tail
  · rcases HeapM.exists_of_bind goesOn with ⟨_, _, ⟨⟩, goesOn⟩
    rcases HeapM.exists_of_bind goesOn with ⟨r, h₃, walked, rest⟩
    have same' : ∀ tail, whole.heap.EndsIn tail operands →
        (h₂.addRoot function).pair? tail = whole.heap.pair? tail := fun tail ends =>
      (Heap.pair?_congr (Heap.object?_addRoot h₂ function) tail).trans (same tail ends)
    have treats : whole.opened.Treats (h₂.addRoot function) :=
      Heap.composes_treats.trans treated (Heap.treats_addRoot h₂ function)
    rcases operandsWith_of_improper improper same' walked with
      rfl | ⟨part, h₀, value, after, comes, last, ⟨rfl, rfl, isError⟩ | ⟨tail, ends, differs⟩⟩
    · -- The operands have been evaluated, and the end of the list is no nil.
      have walk := (Heap.conduct_treats.obeys_operandsWith parts (h₂.addRoot function) []
        Value.maxSlots operands).of_ok walked
      have framed₃ := (Heap.composes_treats.trans treats walk framed).framed
      exact .ended (object?_of_malformed framed₃ rest)
    · cases rest
      exact .failed (.operand c enough first fine comes) last isError rfl
    · have along := comes.along Heap.composes_treats parts Heap.treats_addRoot
      have treats := Heap.composes_treats.trans treats
        (Heap.composes_treats.trans along ((parts part h₀).of_ok last))
      have odd := odd_of_changed worked c treats ends differs
      exact .changed (.operand c enough first fine comes) last ends differs odd odd.not_expression
  · push Not at same
    rcases same with ⟨tail, ends, differs⟩
    have odd := odd_of_changed worked c treated ends differs
    exact .changed operator first ends differs odd odd.not_expression

end Forms

/-! ## All forms -/

/--
What comes of a compound expression whose operands are no proper list, if it is a value: the special
forms that look at the whole list refuse it, and applications do so after their operands; sequences
and definitions of procedures do not look at its end.
-/
theorem improper_operands {ev : Evaluator} {whole : Evaluating} {head operands v : Value}
    {h' : Heap} (worked : Worked whole.heap)
    (pair : whole.heap.pair? whole.expr = some (head, operands))
    (improper : whole.heap.Improper operands) (ends : ev.outcome whole = .ok v h') :
    Verdict ev whole operands v h' (ev.forms.formOf head) := by
  have c := compound_of_worked ev whole worked pair
  generalize ev.forms.formOf head = form at c
  cases form with
  | sequence => exact verdict_of_sequence c ends
  | application => exact verdict_of_application worked c improper ends
  | definition =>
      by_cases names : ∃ name params body, Names whole.heap operands name params body
      · rcases names with ⟨name, params, body, names⟩
        exact verdict_of_procedure worked c improper names ends
      · exact verdict_of_special worked c improper nofun nofun
          (fun _ name params body isOne => names ⟨name, params, body, isOne⟩) ends
  | quote => exact verdict_of_special worked c improper nofun nofun nofun ends
  | conditional => exact verdict_of_special worked c improper nofun nofun nofun ends
  | assignment => exact verdict_of_special worked c improper nofun nofun nofun ends
  | abstraction => exact verdict_of_special worked c improper nofun nofun nofun ends

/--
The numbers 1 and 2 are in the slots 8 and 9, and the slot 11 has the expression `(begin 1 . 2)`.
-/
def dotted : Heap :=
  ((Heap.Operation.int 2).run ((Heap.Operation.int 1).run
    (Heap.withSymbols 16 formNames))).withPairs
    [(.slot 8, .slot 9), (.slot 7, .slot 10)]

/-- The evaluation of that expression. -/
def dotting : Evaluating := ⟨9, .slot 11, ⟨.slot 0⟩, dotted⟩

/-- The sequence is not refused: what ends it is not looked at, so its value is that of 1. -/
theorem improper_operands_dotted :
    Worked dotted ∧ dotted.Improper (.slot 10) ∧
      ∃ h', outcome ⟨firstForms, 9⟩ dotting = .ok (.slot 8) h' ∧
        Verdict ⟨firstForms, 9⟩ dotting (.slot 10) (.slot 8) h' .sequence := by
  have symbols : Worked (Heap.withSymbols 16 formNames) :=
    worked_withSymbols (by decide) (by decide)
  have worked : Worked dotted :=
    worked_withPairs (.service (.build (.int 2) rfl) (.service (.build (.int 1) rfl) symbols nofun)
      nofun) _
  have improper : dotted.Improper (.slot 10) := by
    have pair : dotted.pair? (.slot 10) = some (.slot 8, .slot 9) := by decide +kernel
    have tail : dotted.pair? (.slot 9) = none := by decide +kernel
    intro items spine
    cases spine with
    | step found rest =>
        cases pair.symm.trans found
        cases rest with
        | step found' _ => cases tail.symm.trans found'
  have value : (match outcome ⟨firstForms, 9⟩ dotting with
      | .ok v _ => some v
      | .error _ _ => none) = some (.slot 8) := by decide +kernel
  cases ends : outcome ⟨firstForms, 9⟩ dotting with
  | error e h' =>
      rw [ends] at value
      cases value
  | ok v h' =>
      rw [ends] at value
      cases value
      have pair : dotted.pair? (.slot 11) = some (.slot 7, .slot 10) := by decide +kernel
      exact ⟨worked, improper, h', rfl, improper_operands worked pair improper ends⟩

end Evaluator

end Lisplet
