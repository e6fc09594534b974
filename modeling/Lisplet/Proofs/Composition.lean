import Lisplet.Proofs.Balance
import Lisplet.Proofs.Conduct.Language
import Lisplet.Proofs.Reading.Moving
import Lisplet.Proofs.Text.Joining
import Lisplet.Proofs.Transparency

/-!
# Composition — two texts one after the other

Between the forms of a text nothing is kept but the heap. So two texts with a line feed between them
are evaluated like the one and then the other, down to the slots of the heap: the lexemes are those
of both texts, an expression is read up to its last lexeme only, and an evaluator that is made anew
finds its form symbols in the table. If the first text comes to its end, then only the places in the
errors of the second one tell that it is not by itself.
-/

namespace Lisplet

open Heap.Operation (heapAfter)

/-! ## What has been interned -/

namespace HeapM

variable {ε α β : Type} {h : Heap}

/-- Done once, an operation has nothing left to do: later it gives the same and changes nothing. -/
structure Persists (h : Heap) (op : HeapM ε α) : Prop where
  keeps : Obeys Heap.KeepsRoots h op
  again {a : α} {h₁ h₂ : Heap} : op h = .ok a h₁ → h₁.KeepsRoots h₂ → op h₂ = .ok a h₂

namespace Persists

variable {op : HeapM ε α} {next : α → HeapM ε β}

theorem pure (a : α) : Persists h (Pure.pure a : HeapM ε α) where
  keeps := .pure Heap.composes_keepsRoots a
  again done _ := by
    cases done
    rfl

theorem bind (first : Persists h op)
    (rest : ∀ a h', op h = .ok a h' → Persists h' (next a)) : Persists h (op >>= next) where
  keeps := .bind Heap.composes_keepsRoots first.keeps fun a h' step => (rest a h' step).keeps
  again {b h₁ h₂} done kept := by
    simp only [Bind.bind, EStateM.bind] at done ⊢
    cases step : op h with
    | ok a h' =>
        rw [step] at done
        -- What the rest does is also kept between the first step and its repetition.
        have since : h'.KeepsRoots h₁ := by
          have keeps := (rest a h' step).keeps
          unfold Obeys heapAfter at keeps
          rwa [show next a h' = .ok b h₁ from done] at keeps
        rw [first.again step (since.trans kept)]
        exact (rest a h' step).again done kept
    | error e h' =>
        rw [step] at done
        cases done

end Persists

/-- A symbol that has been interned stays in the table. -/
theorem persists_intern (h : Heap) (name : String) : Persists h (intern name) where
  keeps := Heap.KeepsRoots.intern h name
  again {symbol h₁ h₂} done kept := by
    have entered : h₁.symbols[name]? = some symbol := by
      unfold intern at done
      rw [get_bind_apply] at done
      cases found : h.symbols[name]? with
      | some known =>
          rw [found] at done
          cases done
          exact found
      | none =>
          rw [found] at done
          simp only [Bind.bind, EStateM.bind] at done
          cases step : allocate (.symbol name) h with
          | ok new h' =>
              rw [step] at done
              cases done
              exact (Heap.getElem?_symbols_insert ..).trans (if_pos rfl)
          | error e h' =>
              rw [step] at done
              cases done
    unfold intern
    rw [get_bind_apply, kept.symbols_extend name symbol entered]
    rfl

end HeapM

namespace Evaluator

open HeapM

theorem persists_make (h : Heap) (limit : Nat) : Persists h (make limit) := by
  refine .bind ?_ fun forms _ _ => .pure _
  refine .bind (persists_intern h _) fun _ h₁ _ => ?_
  refine .bind (persists_intern h₁ _) fun _ h₂ _ => ?_
  refine .bind (persists_intern h₂ _) fun _ h₃ _ => ?_
  refine .bind (persists_intern h₃ _) fun _ h₄ _ => ?_
  refine .bind (persists_intern h₄ _) fun _ h₅ _ => ?_
  exact .bind (persists_intern h₅ _) fun _ _ _ => .pure _

end Evaluator

/-! ## Where there is no room -/

/-- Beside its symbols a heap holds the root environment at least. -/
theorem Heap.WellFormed.length_lt_live {h : Heap} (w : h.WellFormed) {names : List String}
    (distinct : names.Nodup) (interned : ∀ name ∈ names, ∃ v, h.symbols[name]? = some v) :
    names.length < h.live := by
  have present : ∀ name ∈ names, ∃ i, h.object? (.slot i) = some (.symbol name) := by
    intro name member
    rcases interned name member with ⟨v, found⟩
    have object := w.named name v found
    cases v with
    | nil => cases object
    | slot i => exact ⟨i, object⟩
  choose! place found using present
  rcases w.rootEnv_frame with ⟨bindings, environment⟩
  rcases root : h.rootEnv.value with _ | e
  · rw [root] at environment
    cases environment
  · rw [root] at environment
    have symbols : (names.map place).Nodup := by
      refine distinct.map_on fun name member other member' same => ?_
      have both := (found name member).symm.trans (same ▸ found other member')
      cases both
      rfl
    have apart : e ∉ names.map place := by
      intro member
      rcases List.mem_map.1 member with ⟨name, isName, rfl⟩
      cases environment.symm.trans (found name isName)
    have occupied : e :: names.map place ⊆ h.occupiedSlots := by
      intro i member
      rcases List.mem_cons.1 member with rfl | member
      · exact mem_occupiedSlots_iff.2 (occupied_of_object? environment)
      · rcases List.mem_map.1 member with ⟨name, isName, rfl⟩
        exact mem_occupiedSlots_iff.2 (occupied_of_object? (found name isName))
    have counted := ((List.nodup_cons.2 ⟨apart, symbols⟩).subperm occupied).length_le
    rw [List.length_cons, List.length_map] at counted
    rw [w.live_eq]
    exact counted

namespace Evaluator

open HeapM

/-- The names of the form symbols, the latest first, and of the symbol `t`. -/
def symbolNames : List String := ["begin", "lambda", "define", "set!", "if", "quote", "t"]

theorem keeps_intern_names {h : Heap} (w : h.WellFormed) {names : List String}
    (known : ∀ name ∈ names, ∃ v, h.symbols[name]? = some v) (new : String) :
    Keeps (intern new) h fun _ h' => ∀ name ∈ new :: names, ∃ v, h'.symbols[name]? = some v := by
  refine (keeps_intern w new).mono fun v h' e entered => List.forall_mem_cons.2 ⟨⟨v, entered⟩, ?_⟩
  intro name member
  rcases known name member with ⟨v, found⟩
  exact ⟨v, e.roots.symbols_extend name v found⟩

theorem keeps_make_names {h : Heap} (w : h.WellFormed) (limit : Nat) :
    Keeps (make limit) h fun _ h' => ∀ name ∈ symbolNames, ∃ v, h'.symbols[name]? = some v := by
  have first : ∀ name ∈ ["t"], ∃ v, h.symbols[name]? = some v :=
    List.forall_mem_singleton.2 ⟨h.t, w.canonical⟩
  refine .bind (Q := fun _ h' => ∀ name ∈ symbolNames, ∃ v, h'.symbols[name]? = some v) ?_
    fun _ _ e known => .pure e.wellFormed known
  refine .bind (keeps_intern_names w first _) fun _ _ e known => ?_
  refine .bind (keeps_intern_names e.wellFormed known _) fun _ _ e known => ?_
  refine .bind (keeps_intern_names e.wellFormed known _) fun _ _ e known => ?_
  refine .bind (keeps_intern_names e.wellFormed known _) fun _ _ e known => ?_
  refine .bind (keeps_intern_names e.wellFormed known _) fun _ _ e known => ?_
  refine .bind (keeps_intern_names e.wellFormed known _) fun _ _ e known => ?_
  exact .pure e.wellFormed known

/-- A heap of eight slots is full when the form symbols have been interned. -/
theorem full_make (limit : Nat) : ∃ ev h, make limit (.empty 8) = .ok ev h ∧ h.capacity = 8 ∧
    8 ≤ h.makeRoom.live := by
  rcases fits_make limit (.empty 8) (by decide) with ⟨ev, h, made, capacity, _⟩
  have kept := keeps_make_names (Heap.wellFormed_empty 8) limit
  unfold Keeps at kept
  rw [made] at kept
  have e := Heap.Evolves.makeRoom kept.1.wellFormed
  have distinct : symbolNames.Nodup := by decide
  refine ⟨ev, h, made, capacity, e.wellFormed.length_lt_live distinct ?_⟩
  intro name member
  rcases kept.2 name member with ⟨v, found⟩
  exact ⟨v, e.roots.symbols_extend name v found⟩

/-- The empty list evaluates to itself at any depth. -/
theorem evaluateForm_nil (ev : Evaluator) (h : Heap) : ev.evaluateForm .nil h = .ok .nil h := by
  have itself : ev.eval ev.limit .nil (h.addRoot .nil).rootEnv (h.addRoot .nil) =
      .ok .nil (h.addRoot .nil) := by
    unfold Evaluator.eval
    rfl
  have step : ev.evaluateForm .nil h = .ok .nil ((h.addRoot .nil).truncateRoots h.roots.length) :=
    HeapM.scope_ok itself
  rw [step, Heap.truncateRoots_addRoot]

end Evaluator

/-- The text `nil` comes to its end on a heap that it leaves full. -/
theorem evaluateSource_nil (limit : Nat) : ∃ ev h, Evaluator.make limit (.empty 8) = .ok ev h ∧
    evaluateSource limit "nil" record (.empty 8) [] = (.ok (), h, [(h, .nil)]) ∧
      h.capacity ≤ h.makeRoom.live := by
  rcases Evaluator.full_make limit with ⟨ev, h, made, capacity, full⟩
  refine ⟨ev, h, made, ?_, capacity ▸ full⟩
  have lexed : Reader.ofSource "nil" = ⟨[⟨.atom, "nil", ⟨0, 3⟩⟩], 0, 3⟩ := by
    show Reader.mk (Lexeme.meaningful "nil") 0 _ = _
    rw [show Lexeme.meaningful "nil" = [⟨.atom, "nil", ⟨0, 3⟩⟩] by decide +kernel]
    rfl
  have first : (Reader.ofSource "nil").read h =
      ⟨.ok (some .nil), ⟨[], 3, 3⟩, h.truncateRoots h.roots.length⟩ := by
    rw [lexed]
    rfl
  have last : (Reader.mk [] 3 3).read h =
      ⟨.ok none, ⟨[], 3, 3⟩, h.truncateRoots h.roots.length⟩ := rfl
  rw [Heap.truncateRoots_length] at first last
  unfold evaluateSource
  rw [made]
  dsimp only
  rw [ev.evaluateRest_eq, first]
  dsimp only
  rw [ev.evaluateForm_nil h]
  dsimp only [record]
  rw [ev.evaluateRest_eq, last]
  rfl

/-- Where there is no room for an integer, reading is cut off. -/
theorem Reader.read_exhausted {r : Reader} {h : Heap} {lexeme : Lexeme} {rest : List Lexeme}
    {n : Int64} (full : h.capacity ≤ h.makeRoom.live) (lexemes : r.lexemes = lexeme :: rest)
    (spells : lexeme.Spells n) :
    (r.read h).outcome = .error (.ofFatal (.outOfMemory h.makeRoom.live h.capacity)) := by
  have refused : HeapM.allocate (.int n) h =
      .error (.outOfMemory h.makeRoom.live h.capacity) h.makeRoom := by
    rcases HeapM.allocate_cases h (.int n) with ⟨room, _⟩ | ⟨_, step⟩
    · exact absurd room (Nat.not_lt_of_le full)
    · exact step
  have took : Reader.take [] lexeme h =
      .error (.ofFatal (.outOfMemory h.makeRoom.live h.capacity)) h.makeRoom := by
    have step : Reader.take [] lexeme =
        Reader.deliverNew lexeme.span [] (HeapM.allocate (.int n)) := by
      simp only [Reader.take, spells.1, spells.2]
      rfl
    rw [step]
    simp only [Reader.deliverNew, Reader.allocating, HeapM.mapError, Bind.bind, EStateM.bind,
      refused]
  unfold Reader.read
  rw [lexemes, Reader.takeAll, took]

theorem Evaluator.evaluateRest_of_error {τ : Type} (ev : Evaluator)
    {each : Heap → Value → τ → Except Failure Unit × τ} {r : Reader} {h : Heap} {e : ReadError}
    (t : τ) (refused : (r.read h).outcome = .error e) :
    (ev.evaluateRest each r h t).1 = .error (.read e) := by
  rw [ev.evaluateRest_eq]
  rcases reading : r.read h with ⟨outcome, r₁, h₁⟩
  rw [reading] at refused
  cases refused
  rfl

/-! ## The forms of a text -/

namespace Conduct

open HeapM

variable {ready : Heap → Env → Prop} {whole inside : Heap → Heap → Prop} {τ : Type}

theorem obeys_evaluateForm (c : Conduct ready whole inside) (h : Heap) (ev : Evaluator)
    (form : Value) : Obeys whole h (ev.evaluateForm form) :=
  c.scope <| c.root_bind <| .get_bind <| c.partly (c.obeys_eval _ ev ev.limit form _)

theorem whole_evaluateRest (c : Conduct ready whole inside) (ev : Evaluator)
    (each : Heap → Value → τ → Except Failure Unit × τ) (r : Reader) (h : Heap) (t : τ) :
    whole h (ev.evaluateRest each r h t).2.1 := by
  -- Induction on the lexemes that are left, of which every expression takes some.
  induction length : r.lexemes.length using Nat.strongRecOn generalizing r h t with
  | ind n ih =>
      have first := c.whole_read h r
      rw [ev.evaluateRest_eq]
      rcases reading : r.read h with ⟨_ | _ | form, r₁, h₁⟩
      · rwa [reading] at first
      · rwa [reading] at first
      · rw [reading] at first
        have shorter : r₁.lexemes.length < n := length ▸ Reader.length_lt_of_read reading
        have second := c.along.trans first (c.obeys_evaluateForm h₁ ev form)
        unfold heapAfter at second
        dsimp only
        rcases evaluated : ev.evaluateForm form h₁ with ⟨value, h₂⟩ | ⟨cause, h₂⟩
        · rw [evaluated] at second
          dsimp only at second ⊢
          rcases each h₂ value t with ⟨_ | _, t₁⟩
          · exact second
          · exact c.along.trans second (ih _ shorter r₁ h₂ t₁ rfl)
        · rwa [evaluated] at second

end Conduct

/-- The failure as it is reported `d` bytes further on. -/
def Failure.shift (d : Nat) : Failure → Failure
  | .read e => .read (e.shift d)
  | f => f

section Sources

variable {τ : Type} {d : Nat} {each : Heap → Value → τ → Except Failure Unit × τ}

/--
The same run `d` bytes further on: the heap and what the observer keeps are the same in the end, and
a place in the text is moved, unless the failure is the observer's own.
-/
inductive FurtherOn (d : Nat) (each : Heap → Value → τ → Except Failure Unit × τ) :
    Except Failure Unit × Heap × τ → Except Failure Unit × Heap × τ → Prop where
  | moved (outcome : Except Failure Unit) (h : Heap) (t : τ) :
      FurtherOn d each (outcome, h, t) (outcome.mapError (Failure.shift d), h, t)
  | refused {h : Heap} {v : Value} {t t' : τ} {f : Failure} :
      each h v t = (.error f, t') → FurtherOn d each (.error f, h, t') (.error f, h, t')

namespace Evaluator

variable (ev : Evaluator) {r r' : Reader} {h h₁ : Heap} {t t₁ : τ}

/-- Where a text stands is of no account for the evaluation of its forms. -/
theorem evaluateRest_shift (moved : r'.lexemes = r.lexemes.map (Lexeme.shift d)) (h : Heap)
    (t : τ) : FurtherOn d each (ev.evaluateRest each r h t) (ev.evaluateRest each r' h t) := by
  induction length : r.lexemes.length using Nat.strongRecOn generalizing r r' h t with
  | ind n ih =>
      have same := Reader.read_shift moved h
      rw [ev.evaluateRest_eq, ev.evaluateRest_eq]
      rcases reading : r.read h with ⟨outcome, r₁, h₁⟩
      rcases reading' : r'.read h with ⟨outcome', r₁', h₁'⟩
      rw [reading, reading'] at same
      dsimp only at same
      rcases same with ⟨rfl, rfl, moved⟩
      rcases outcome with e | _ | form
      · exact .moved (.error (.read e)) h₁' t
      · exact .moved (.ok ()) h₁' t
      · have shorter : r₁.lexemes.length < n := length ▸ Reader.length_lt_of_read reading
        dsimp only [Except.mapError]
        rcases evaluated : ev.evaluateForm form h₁' with ⟨value, h₂⟩ | ⟨cause, h₂⟩
        · dsimp only
          rcases handed : each h₂ value t with ⟨f | _, t₁⟩
          · exact .refused handed
          · exact ih _ shorter moved h₂ t₁ rfl
        · exact .moved (.error (.fatal cause)) h₂ t

/-- The rest of a text comes to its end, with a heap and what the observer keeps at last. -/
inductive Finishes (ev : Evaluator) (each : Heap → Value → τ → Except Failure Unit × τ) (h₁ : Heap)
    (t₁ : τ) : Reader → Heap → τ → Prop where
  | nothing {r r' : Reader} {h : Heap} : r.read h = ⟨.ok none, r', h₁⟩ →
      Finishes ev each h₁ t₁ r h t₁
  | form {r r₂ : Reader} {h h₂ h₃ : Heap} {t t₃ : τ} {form value : Value} :
      r.read h = ⟨.ok (some form), r₂, h₂⟩ → ev.evaluateForm form h₂ = .ok value h₃ →
        each h₃ value t = (.ok (), t₃) → Finishes ev each h₁ t₁ r₂ h₃ t₃ →
          Finishes ev each h₁ t₁ r h t

theorem finishes_of_evaluateRest (done : ev.evaluateRest each r h t = (.ok (), h₁, t₁)) :
    ev.Finishes each h₁ t₁ r h t := by
  induction length : r.lexemes.length using Nat.strongRecOn generalizing r h t with
  | ind n ih =>
      rw [ev.evaluateRest_eq] at done
      rcases reading : r.read h with ⟨_ | _ | form, r₂, h₂⟩
      · rw [reading] at done
        cases done
      · rw [reading] at done
        cases done
        exact .nothing reading
      · have shorter : r₂.lexemes.length < n := length ▸ Reader.length_lt_of_read reading
        rw [reading] at done
        dsimp only at done
        rcases evaluated : ev.evaluateForm form h₂ with ⟨value, h₃⟩ | ⟨cause, h₃⟩
        · rw [evaluated] at done
          dsimp only at done
          rcases handed : each h₃ value t with ⟨_ | _, t₃⟩
          · rw [handed] at done
            cases done
          · rw [handed] at done
            exact .form reading evaluated handed (ih _ shorter done rfl)
        · rw [evaluated] at done
          cases done

/-- A text that comes to its end has left no literal open. -/
theorem Finishes.closed (done : Finishes ev each h₁ t₁ r h t)
    (noComment : ∀ l ∈ r.lexemes, l.token ≠ .comment) :
    ∀ l ∈ r.lexemes, l.token ≠ .unclosed := by
  induction done with
  | nothing reading =>
      rw [(Reader.eq_nil_of_read noComment reading).1]
      exact fun l member => nomatch member
  | form reading _ _ _ ih =>
      intro l member unclosed
      have left := Reader.mem_of_read_of_unclosed reading member unclosed
      have suffix := Reader.suffix_of_read reading
      exact ih (fun l member => noComment l (suffix.mem member)) l left unclosed

/-- When a text has come to its end, evaluation goes on with what is behind it. -/
theorem Finishes.append (done : Finishes ev each h₁ t₁ r h t)
    (noComment : ∀ l ∈ r.lexemes, l.token ≠ .comment) {more : List Lexeme}
    (longer : r'.lexemes = r.lexemes ++ more) :
    ∃ r'' : Reader, r''.lexemes = more ∧
      ev.evaluateRest each r' h t = ev.evaluateRest each r'' h₁ t₁ := by
  induction done generalizing r' with
  | nothing reading =>
      rcases Reader.eq_nil_of_read noComment reading with ⟨empty, rfl⟩
      rw [empty, List.nil_append] at longer
      exact ⟨r', longer, rfl⟩
  | form reading evaluated handed _ ih =>
      have suffix := Reader.suffix_of_read reading
      rcases Reader.read_append reading longer with ⟨r₂', reading', longer'⟩
      rw [ev.evaluateRest_eq each r', reading']
      dsimp only
      rw [evaluated]
      dsimp only
      rw [handed]
      exact ih (fun l member => noComment l (suffix.mem member)) longer'

end Evaluator

/-! ## Texts -/

theorem Lexeme.token_of_meaningful {s : String} {l : Lexeme} (member : l ∈ meaningful s) :
    l.token ≠ .comment := by
  intro comment
  have kept := (List.mem_filter.1 member).2
  rw [comment] at kept
  cases kept

/--
Texts can be put together. If the text `s₁` comes to its end, then with a line feed and `s₂` behind
it the observer is handed what it is handed when `s₂` is evaluated after `s₁`, the heap is the same
in the end, and so is the outcome, but for the places in the text.
-/
theorem evaluateSource_join {limit : Nat} {s₁ : String} {h h₁ : Heap} {t t₁ : τ}
    (done : evaluateSource limit s₁ each h t = (.ok (), h₁, t₁)) (s₂ : String) :
    FurtherOn (s₁.utf8ByteSize + 1) each (evaluateSource limit s₂ each h₁ t₁)
      (evaluateSource limit (s₁ ++ "\n" ++ s₂) each h t) := by
  unfold evaluateSource at done ⊢
  rcases made : Evaluator.make limit h with ⟨ev, h'⟩ | ⟨cause, h'⟩
  · rw [made] at done
    dsimp only at done ⊢
    have noComment : ∀ l ∈ (Reader.ofSource s₁).lexemes, l.token ≠ .comment :=
      fun l member => Lexeme.token_of_meaningful member
    have finished := ev.finishes_of_evaluateRest done
    -- The symbols are still in the table, so that the same evaluator is made for the second text.
    have kept := conduct_keepsRoots.whole_evaluateRest ev each (Reader.ofSource s₁) h' t
    rw [done] at kept
    rw [(Evaluator.persists_make h limit).again made kept]
    dsimp only
    have lexemes : (Reader.ofSource (s₁ ++ "\n" ++ s₂)).lexemes =
        (Reader.ofSource s₁).lexemes ++
          (Lexeme.meaningful s₂).map (Lexeme.shift (s₁.utf8ByteSize + 1)) :=
      Lexeme.meaningful_join (finished.closed ev noComment) s₂
    rcases finished.append ev noComment lexemes with ⟨r, moved, same⟩
    rw [same]
    exact ev.evaluateRest_shift moved h₁ t₁
  · rw [made] at done
    cases done

end Sources

/-- The parenthesis in the second text is the one to blame in the joined text. -/
theorem evaluateSource_join_parenthesis : ∃ h,
    evaluateSource 16 "nil" record (.empty 8) [] = (.ok (), h, [(h, .nil)]) ∧
      FurtherOn 4 record (evaluateSource 16 ")" record h [(h, .nil)])
        (evaluateSource 16 "nil\n)" record (.empty 8) []) := by
  rcases evaluateSource_nil 16 with ⟨_, h, _, done, _⟩
  exact ⟨h, done, evaluateSource_join done ")"⟩

/-- Reading that is cut off for want of memory has no place, further on no more than before. -/
theorem span_of_exhausted_reading : ∃ h e,
    evaluateSource 16 "nil" record (.empty 8) [] = (.ok (), h, [(h, .nil)]) ∧
      (evaluateSource 16 "1" record h [(h, .nil)]).1 = .error (.read e) ∧
        (evaluateSource 16 ("nil" ++ "\n" ++ "1") record (.empty 8) []).1 = .error (.read e) ∧
          e ≠ { e with span := e.span.shift ("nil".utf8ByteSize + 1) } := by
  rcases evaluateSource_nil 16 with ⟨ev, h, made, done, full⟩
  refine ⟨h, .ofFatal (.outOfMemory h.makeRoom.live h.capacity), done, ?_, ?_, ?_⟩
  · have lexemes : (Reader.ofSource "1").lexemes = [⟨.atom, "1", ⟨0, 1⟩⟩] := by decide +kernel
    unfold evaluateSource
    rw [(Evaluator.persists_make _ 16).again made (.refl h)]
    exact ev.evaluateRest_of_error _ (Reader.read_exhausted full lexemes ⟨rfl, by rfl⟩)
  · have lexemes : (Reader.ofSource ("nil" ++ "\n" ++ "1")).lexemes =
        (Reader.ofSource "nil").lexemes ++ [⟨.atom, "1", ⟨4, 5⟩⟩] := by decide +kernel
    have noComment : ∀ l ∈ (Reader.ofSource "nil").lexemes, l.token ≠ .comment :=
      fun l member => Lexeme.token_of_meaningful member
    unfold evaluateSource at done ⊢
    rw [made] at done ⊢
    rcases (ev.finishes_of_evaluateRest done).append ev noComment lexemes with ⟨r, left, same⟩
    dsimp only
    rw [same]
    exact ev.evaluateRest_of_error _ (Reader.read_exhausted full left ⟨rfl, by rfl⟩)
  · intro same
    cases same

end Lisplet
