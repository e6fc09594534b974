import Lisplet.Proofs.Reading.Depiction
import Lisplet.Proofs.Room
import Lisplet.Proofs.RoundTrip
import Mathlib.Algebra.GroupWithZero.Nat

/-!
# Grammar — what the reader accepts

Reading goes along with recognising a phrase: after every lexeme the open forms show the parts of
the open phrases. So an expression is read exactly if a phrase stands at the front of the lexemes,
and its value depicts the tree of the phrase. Only a heap that is too small comes between, and
three slots for every lexeme are always enough.
-/

namespace Lisplet

namespace Reader

open Parsing HeapM

/-! ## Open forms show open phrases -/

/-- An open form the values of which show the parts of an open phrase. -/
inductive Forms (h : Heap) : OpenForm → OpenPhrase → Prop where
  | proper {items : List Value} {ps : List Phrase} (span : Text.Span)
      (opening : Lexeme.Of .opening) :
      List.Forall₂ h.Shows items (Phrase.treesOf ps).reverse →
        Forms h (.list items .proper span) (.list opening ps)
  | awaited {items : List Value} {first : Phrase} {rest : List Phrase} (span : Text.Span)
      (opening : Lexeme.Of .opening) (point : Lexeme.Point) :
      List.Forall₂ h.Shows items (Phrase.treesOf (first :: rest)).reverse →
        Forms h (.list items .awaited span) (.dotted opening first rest point none)
  | given {items : List Value} {first : Phrase} {rest : List Phrase} {v : Value} {tail : Phrase}
      (span : Text.Span) (opening : Lexeme.Of .opening) (point : Lexeme.Point) :
      List.Forall₂ h.Shows items (Phrase.treesOf (first :: rest)).reverse →
        h.Shows v tail.tree →
          Forms h (.list items (.given v) span) (.dotted opening first rest point (some tail))
  | quoted (span : Text.Span) (mark : Lexeme.Of .quote) : Forms h (.quote span) (.quoted mark)

/-- Reading stands where recognising does. -/
inductive Stands (h : Heap) : Progress → Parsing → Prop where
  | unfinished {stack : List OpenForm} {phrases : List OpenPhrase} :
      List.Forall₂ (Forms h) stack phrases → Stands h (.unfinished stack) (.unfinished phrases)
  | finished {v : Value} {p : Phrase} : h.Shows v p.tree → Stands h (.finished v) (.finished p)

/-- How a step of reading may come out beside the same step of recognising. -/
inductive Follows (h : Heap) : Option Parsing → EStateM.Result ReadError Heap Progress → Prop where
  | goes {s : Parsing} {progress : Progress} {h' : Heap} :
      h.Evolves h' → Stands h' progress s → Follows h (some s) (.ok progress h')
  | stops {e : ReadError} {h' : Heap} : h.Evolves h' → Follows h none (.error e h')
  /-- The heap was too small. -/
  | cutOff {s : Option Parsing} {e : ReadError} {h' : Heap} :
      h.Evolves h' → e.fatal?.isSome → Follows h s (.error e h')

section Following

variable {h h' : Heap} {s : Option Parsing}

theorem Forms.evolves (e : h.Evolves h') {form : OpenForm} {phrase : OpenPhrase}
    (forms : Forms h form phrase) : Forms h' form phrase := by
  cases forms with
  | proper span opening items => exact .proper span opening (items.imp fun _ _ => e.shows)
  | awaited span opening point items =>
      exact .awaited span opening point (items.imp fun _ _ => e.shows)
  | given span opening point items tail =>
      exact .given span opening point (items.imp fun _ _ => e.shows) (e.shows tail)
  | quoted span mark => exact .quoted span mark

theorem Follows.after {result : EStateM.Result ReadError Heap Progress} (e : h.Evolves h')
    (f : Follows h' s result) : Follows h s result := by
  cases f with
  | goes evolved stands => exact .goes (e.trans evolved) stands
  | stops evolved => exact .stops (e.trans evolved)
  | cutOff evolved fatal => exact .cutOff (e.trans evolved) fatal

/-- An allocation goes well or cuts reading off. -/
theorem follows_allocating {α : Type} {op : HeapM Fatal α} {Q : α → Heap → Prop}
    {next : α → HeapM ReadError Progress} (k : Keeps op h Q)
    (continues : ∀ a h', h.Evolves h' → Q a h' → Follows h' s (next a h')) :
    Follows h s ((allocating op >>= next) h) := by
  unfold Keeps at k
  unfold allocating HeapM.mapError
  simp only [bind, EStateM.bind]
  rcases step : op h with ⟨a, h'⟩ | ⟨cause, h'⟩
  · rw [step] at k
    exact (continues a h' k.1 k.2).after k.1
  · rw [step] at k
    exact .cutOff k rfl

variable {stack : List OpenForm} {phrases : List OpenPhrase} {datum : Value} {p : Phrase}

/-- A datum is handed to the open forms as its phrase is to the open phrases. -/
theorem follows_deliver (span : Text.Span) (w : h.WellFormed) (shown : h.Shows datum p.tree)
    (forms : List.Forall₂ (Forms h) stack phrases) :
    Follows h (hand p phrases) (deliver span datum stack h) := by
  -- Induction on the open forms: a quoted datum is handed on to the next one.
  induction stack generalizing h datum p phrases with
  | nil =>
      cases forms
      exact .goes (.refl w) (.finished shown)
  | cons form stack ih =>
      rcases forms with _ | ⟨form, forms⟩
      cases form with
      | proper span opening items =>
          refine .goes (.refl w) (.unfinished (.cons (.proper span opening ?_) forms))
          rw [Phrase.treesOf_append, List.reverse_append]
          exact .cons shown items
      | awaited span opening point items =>
          exact .goes (.refl w) (.unfinished (.cons (.given span opening point items shown) forms))
      | given span opening point items tail => exact .stops (.refl w)
      | quoted span mark =>
          refine follows_allocating (keeps_symbol w "quote") fun symbol h₁ e₁ shownSymbol => ?_
          have parts : List.Forall₂ h₁.Depicts [symbol, datum]
              [.leaf (.symbol "quote"), p.tree] :=
            .cons shownSymbol.depicts (.cons (e₁.shows shown).depicts .nil)
          refine follows_allocating (keeps_listOf e₁.wellFormed parts) ?_
          intro quoted h₂ e₂ depicts
          have rooted := Heap.Evolves.addRoot e₂.wellFormed depicts.holds
          have evolved := (e₁.trans e₂).trans rooted
          exact (ih (p := .quoted mark p) rooted.wellFormed depicts.shows_addRoot
            (forms.imp fun _ _ => Forms.evolves evolved)).after rooted

theorem follows_deliverNew (span : Text.Span) {op : HeapM Fatal Value}
    (k : Keeps op h fun v h' => h'.Depicts v p.tree)
    (forms : List.Forall₂ (Forms h) stack phrases) :
    Follows h (hand p phrases) (deliverNew span stack op h) := by
  refine follows_allocating k fun v h₁ e₁ depicts => ?_
  have rooted := Heap.Evolves.addRoot e₁.wellFormed depicts.holds
  have evolved := e₁.trans rooted
  exact (follows_deliver span rooted.wellFormed depicts.shows_addRoot
    (forms.imp fun _ _ => Forms.evolves evolved)).after rooted

theorem follows_close (span : Text.Span) (closing : Lexeme.Of .closing) (w : h.WellFormed)
    (forms : List.Forall₂ (Forms h) stack phrases) :
    Follows h (Parsing.close closing phrases) (close span stack h) := by
  rcases forms with _ | ⟨form, forms⟩
  · exact .stops (.refl w)
  · cases form with
    | proper opened opening items =>
        have whole := keeps_after w .nil items
        rw [List.reverse_reverse] at whole
        exact follows_deliverNew span whole forms
    | awaited => exact .stops (.refl w)
    | given opened opening point items tail =>
        have whole := keeps_after w tail.depicts items
        rw [List.reverse_reverse] at whole
        exact follows_deliverNew span whole forms
    | quoted => exact .stops (.refl w)

theorem follows_dot (span : Text.Span) (point : Lexeme.Point) (w : h.WellFormed)
    (forms : List.Forall₂ (Forms h) stack phrases) :
    Follows h (Parsing.point point phrases) (dot span stack h) := by
  rcases forms with _ | ⟨form, forms⟩
  · exact .stops (.refl w)
  · cases form with
    | @proper items ps opened opening shown =>
        -- There is an item in the form exactly if there is one in the phrase.
        cases ps with
        | nil =>
            cases shown
            exact .stops (.refl w)
        | cons first rest =>
            cases items with
            | nil =>
                have length := shown.length_eq
                simp [Phrase.treesOf] at length
            | cons item items =>
                exact .goes (.refl w)
                  (.unfinished (.cons (.awaited opened opening point shown) forms))
    | @awaited items =>
        cases items with
        | _ => exact .stops (.refl w)
    | @given items =>
        cases items with
        | _ => exact .stops (.refl w)
    | quoted => exact .stops (.refl w)

theorem follows_atom (span : Text.Span) {a : Atom} (w : h.WellFormed)
    (denotes : a.tree? = some p.tree) (forms : List.Forall₂ (Forms h) stack phrases) :
    Follows h (hand p phrases) (atom span stack a h) := by
  cases a with
  | int n =>
      have k := keeps_leaf (o := .int n) w rfl fun _ => nofun
      exact follows_deliverNew span (Option.some.inj denotes ▸ k) forms
  | float x =>
      have k := keeps_leaf (o := .float x) w rfl fun _ => nofun
      exact follows_deliverNew span (Option.some.inj denotes ▸ k) forms
  | ratio numer denom =>
      have k := keeps_leaf (o := .ratio numer denom) w rfl fun _ => nofun
      exact follows_deliverNew span (Option.some.inj denotes ▸ k) forms
  | nil => exact follows_deliver span w (Option.some.inj denotes ▸ .nil h) forms
  | symbol name =>
      have k := (keeps_symbol w name).mono fun _ _ _ shown => shown.depicts
      exact follows_deliverNew span (Option.some.inj denotes ▸ k) forms
  | dot => cases denotes

theorem follows_take_atom (text : String) (span : Text.Span) (w : h.WellFormed)
    (forms : List.Forall₂ (Forms h) stack phrases) :
    Follows h (shift phrases ⟨.atom, text, span⟩) (take stack ⟨.atom, text, span⟩ h) := by
  unfold take
  dsimp only
  cases classified : Atom.classify text with
  | error fault =>
      have none : (⟨.atom, text, span⟩ : Lexeme).word? = none := by
        simp [Lexeme.word?, classified, Except.toOption]
      have noPoint : ¬ (⟨.atom, text, span⟩ : Lexeme).IsPoint := by
        intro points
        rw [Atom.classify_eq_dot_iff.2 points.2] at classified
        cases classified
      rw [shift_eq_none phrases none noPoint nofun nofun nofun]
      exact .stops (.refl w)
  | ok a =>
      cases denotes : a.tree? with
      | some t =>
          have means : (⟨.atom, text, span⟩ : Lexeme).word? = some t := by
            simp [Lexeme.word?, classified, Except.toOption, denotes]
          rcases exists_hand_of_word phrases means with ⟨p, rfl, shifted⟩
          rw [shifted]
          exact follows_atom span w denotes forms
      | none =>
          -- An atom that denotes nothing is a point.
          cases Atom.tree?_eq_none_iff.1 denotes
          have points : (⟨.atom, text, span⟩ : Lexeme).IsPoint :=
            ⟨rfl, Atom.classify_eq_dot_iff.1 classified⟩
          rw [shift_point phrases ⟨_, points⟩]
          exact follows_dot span _ w forms

/-- Taking a lexeme goes along with recognising it. -/
theorem follows_take (l : Lexeme) (meaningful : l.token ≠ .comment) (w : h.WellFormed)
    (forms : List.Forall₂ (Forms h) stack phrases) :
    Follows h (shift phrases l) (take stack l h) := by
  rcases l with ⟨token, text, span⟩
  cases token with
  | comment => exact absurd rfl meaningful
  | opening =>
      rw [shift_opening phrases ⟨⟨.opening, text, span⟩, rfl⟩]
      exact .goes (.refl w) (.unfinished (.cons (.proper span _ .nil) forms))
  | quote =>
      rw [shift_quote phrases ⟨⟨.quote, text, span⟩, rfl⟩]
      exact .goes (.refl w) (.unfinished (.cons (.quoted span _) forms))
  | closing =>
      rw [shift_closing phrases ⟨⟨.closing, text, span⟩, rfl⟩]
      exact follows_close span _ w forms
  | string =>
      unfold take
      dsimp only
      cases content : Text.unquote text with
      | ok inside =>
          have means : (⟨.string, text, span⟩ : Lexeme).word? = some (.leaf (.string inside)) := by
            simp [Lexeme.word?, content, Except.toOption]
          rcases exists_hand_of_word phrases means with ⟨p, tree, shifted⟩
          rw [shifted]
          have k := keeps_leaf (o := .string inside) w rfl fun _ => nofun
          exact follows_deliverNew span (tree ▸ k) forms
      | error fault =>
          have none : (⟨.string, text, span⟩ : Lexeme).word? = none := by
            simp [Lexeme.word?, content, Except.toOption]
          rw [shift_eq_none phrases none (fun points => nomatch points.1) nofun nofun nofun]
          exact .stops (.refl w)
  | unclosed =>
      have none : (⟨.unclosed, text, span⟩ : Lexeme).word? = none := rfl
      rw [shift_eq_none phrases none (fun points => nomatch points.1) nofun nofun nofun]
      exact .stops (.refl w)
  | stray =>
      have none : (⟨.stray, text, span⟩ : Lexeme).word? = none := rfl
      rw [shift_eq_none phrases none (fun points => nomatch points.1) nofun nofun nofun]
      exact .stops (.refl w)
  | atom => exact follows_take_atom text span w forms

end Following

/-! ## One expression -/

/-- How reading an expression may come out beside what is recognised. -/
inductive Gives : Parsed → Reading → Prop where
  | phrase {v : Value} {p : Phrase} {r : Reader} {h : Heap} {rest : List Lexeme} :
      r.lexemes = rest → h.Depicts v p.tree → Gives (.phrase p rest) ⟨.ok (some v), r, h⟩
  | nothing {r : Reader} {h : Heap} : Gives .nothing ⟨.ok none, r, h⟩
  | broken {e : ReadError} {r : Reader} {h : Heap} : Gives .broken ⟨.error e, r, h⟩
  /-- The heap was too small. -/
  | cutOff {parsed : Parsed} {e : ReadError} {r : Reader} {h : Heap} :
      e.fatal?.isSome → Gives parsed ⟨.error e, r, h⟩

/-- Lexeme by lexeme reading stands where recognising does. -/
theorem takeAll_gives (r : Reader) {h : Heap} {stack : List OpenForm} {phrases : List OpenPhrase}
    {ls : List Lexeme} (meaningful : ∀ l ∈ ls, l.token ≠ .comment) (w : h.WellFormed)
    (forms : List.Forall₂ (Forms h) stack phrases) :
    Gives (parse phrases ls) (r.takeAll stack ls h) := by
  -- Induction on the lexemes; after each of them the open forms show the open phrases again.
  induction ls generalizing h stack phrases with
  | nil =>
      rcases forms with _ | ⟨form, _⟩
      · exact .nothing
      · cases form with
        | _ => exact .broken
  | cons l ls ih =>
      have step := follows_take l (meaningful l List.mem_cons_self) w forms
      rw [parse_cons, takeAll_cons]
      generalize shift phrases l = s at step ⊢
      generalize take stack l h = result at step ⊢
      cases step with
      | stops => exact .broken
      | cutOff _ fatal => exact .cutOff fatal
      | goes e stands =>
          cases stands with
          | finished shown => exact .phrase rfl shown.depicts
          | unfinished forms₁ =>
              exact ih (fun l member => meaningful l (List.mem_cons_of_mem _ member))
                e.wellFormed forms₁

theorem read_gives {r : Reader} {h : Heap} (meaningful : ∀ l ∈ r.lexemes, l.token ≠ .comment)
    (w : h.WellFormed) : Gives (parse [] r.lexemes) (r.read h) := by
  have whole := takeAll_gives r meaningful w .nil
  unfold read
  generalize r.takeAll [] r.lexemes h = reading at whole ⊢
  generalize parse [] r.lexemes = parsed at whole ⊢
  cases whole with
  | phrase rest depicts => exact .phrase rest (depicts.truncateRoots _)
  | nothing => exact .nothing
  | broken => exact .broken
  | cutOff fatal => exact .cutOff fatal

end Reader

/-! ## Room -/

/-- A string can only be wrong by an escape. -/
theorem Text.unquote_error {literal : String} {fault : ReadFault}
    (failed : unquote literal = .error fault) : ∃ c, fault = .invalidEscape c := by
  have escapes (found cs : List Char) (failed : unescapeOnto found cs = .error fault) :
      ∃ c, fault = .invalidEscape c := by
    fun_induction unescapeOnto found cs with
    | case1 => cases failed
    | case2 =>
        cases failed
        exact ⟨_, rfl⟩
    | case3 _ _ _ _ _ ih => exact ih failed
    | case4 =>
        cases failed
        exact ⟨_, rfl⟩
    | case5 _ _ _ _ ih => exact ih failed
  unfold unquote at failed
  dsimp only at failed
  cases content : unescapeOnto [] ((literal.toList.drop 1).dropLast) with
  | ok cs =>
      rw [content] at failed
      cases failed
  | error fault' =>
      rw [content] at failed
      cases failed
      exact escapes _ _ content

/--
How many slots may still be taken for what an open form has so far: a pair for every item, and
for a quote its symbol and two pairs.
-/
def OpenForm.debt : OpenForm → Nat
  | .list items _ _ => items.length
  | .quote _ => 3

/-- How many slots may still be taken for some open forms. -/
def OpenForm.debts (stack : List OpenForm) : Nat := (stack.map debt).sum

namespace Reader

open HeapM OpenForm

/-- The heap is not too small for an operation, and has room for the open forms and `n` more. -/
def Lasts (op : HeapM ReadError Progress) (h : Heap) (n : Nat) : Prop :=
  match op h with
  | .ok (.unfinished stack) h' => h'.live + debts stack + n ≤ h'.capacity
  | .ok (.finished _) h' => h'.live + n ≤ h'.capacity
  | .error e h' => e.fatal? = none ∧ h'.live + n ≤ h'.capacity

section Lasting

variable {h : Heap} {stack : List OpenForm} {n : Nat}

theorem debts_cons (form : OpenForm) (stack : List OpenForm) :
    debts (form :: stack) = form.debt + debts stack := rfl

/-- An allocation that fits leaves the room it has not used. -/
theorem lasts_allocating {α : Type} {m : Nat} {op : HeapM Fatal α}
    {next : α → HeapM ReadError Progress} (fits : Fits m op) (room : h.live + m ≤ h.capacity)
    (continues : ∀ a h', h'.capacity = h.capacity → h'.live ≤ h.live + m → Lasts (next a) h' n) :
    Lasts (allocating op >>= next) h n := by
  rcases fits h room with ⟨a, h', step, capacity, live⟩
  have rest := continues a h' capacity live
  unfold Lasts at rest ⊢
  unfold allocating mapError
  simp only [bind, EStateM.bind, step]
  exact rest

theorem lasts_root {v : Value} {next : Unit → HeapM ReadError Progress}
    (continues : ∀ h' : Heap, h'.capacity = h.capacity → h'.live = h.live → Lasts (next ()) h' n) :
    Lasts (root v >>= next) h n := by
  refine continues (h.addRoot v) ?_ ?_
  · unfold Heap.addRoot
    split
    · rfl
    · rfl
  · unfold Heap.addRoot
    split
    · rfl
    · rfl

theorem lasts_throw {e : ReadError} (notFatal : e.fatal? = none)
    (room : h.live + n ≤ h.capacity) : Lasts (throw e) h n := ⟨notFatal, room⟩

theorem lasts_deliver (span : Text.Span) (datum : Value)
    (room : h.live + debts stack + (n + 1) ≤ h.capacity) :
    Lasts (deliver span datum stack) h n := by
  induction stack generalizing h datum with
  | nil =>
      show h.live + n ≤ h.capacity
      omega
  | cons form stack ih =>
      rw [debts_cons] at room
      cases form with
      | list items ending opening =>
          simp only [debt] at room
          cases ending with
          | proper =>
              show h.live + debts (.list (datum :: items) .proper opening :: stack) + n ≤ _
              rw [debts_cons]
              simp only [debt, List.length_cons]
              omega
          | awaited =>
              show h.live + debts (.list items (.given datum) opening :: stack) + n ≤ _
              rw [debts_cons]
              simp only [debt]
              omega
          | given tail => exact lasts_throw rfl (by omega)
      | quote mark =>
          simp only [debt] at room
          -- The symbol and the two pairs are what has been set aside for the quote.
          refine lasts_allocating (fits_intern _) (by omega) fun symbol h₁ capacity₁ live₁ => ?_
          refine lasts_allocating (fits_list _) (by simp; omega) fun quoted h₂ capacity₂ live₂ => ?_
          simp only [List.length_cons, List.length_nil] at live₂
          exact lasts_root fun h₃ capacity₃ live₃ => ih quoted (by omega)

theorem lasts_deliverNew (span : Text.Span) {m : Nat} {op : HeapM Fatal Value} (fits : Fits m op)
    (room : h.live + m + debts stack + (n + 1) ≤ h.capacity) :
    Lasts (deliverNew span stack op) h n := by
  refine lasts_allocating fits (by omega) fun v h₁ capacity₁ live₁ => ?_
  exact lasts_root fun h₂ capacity₂ live₂ => lasts_deliver span v (by omega)

theorem lasts_close (span : Text.Span) (room : h.live + debts stack + (n + 1) ≤ h.capacity) :
    Lasts (close span stack) h n := by
  rcases stack with _ | ⟨form, stack⟩
  · exact lasts_throw rfl (by omega)
  · rw [debts_cons] at room
    cases form with
    | quote mark => exact lasts_throw rfl (by omega)
    | list items ending opening =>
        simp only [debt] at room
        cases ending with
        | proper => exact lasts_deliverNew span (fits_consAll _ items) (by omega)
        | awaited => exact lasts_throw rfl (by omega)
        | given tail => exact lasts_deliverNew span (fits_consAll _ items) (by omega)

theorem lasts_dot (span : Text.Span) (room : h.live + debts stack + n ≤ h.capacity) :
    Lasts (dot span stack) h n := by
  unfold dot
  split
  · exact room
  · exact lasts_throw rfl (by omega)

theorem lasts_atom (span : Text.Span) (a : Atom)
    (room : h.live + debts stack + (n + 2) ≤ h.capacity) : Lasts (atom span stack a) h n := by
  cases a with
  | int _ => exact lasts_deliverNew span (fits_allocate _) (by omega)
  | float _ => exact lasts_deliverNew span (fits_allocate _) (by omega)
  | ratio _ _ => exact lasts_deliverNew span (fits_allocate _) (by omega)
  | symbol name => exact lasts_deliverNew span (fits_intern name) (by omega)
  | nil => exact lasts_deliver span .nil (by omega)
  | dot => exact lasts_dot span (by omega)

/-- Three slots are enough for a lexeme. -/
theorem lasts_take (l : Lexeme) (room : h.live + debts stack + (n + 3) ≤ h.capacity) :
    Lasts (take stack l) h n := by
  unfold take
  dsimp only
  cases l.token with
  | comment =>
      show h.live + debts stack + n ≤ h.capacity
      omega
  | opening =>
      show h.live + (0 + debts stack) + n ≤ h.capacity
      omega
  | quote =>
      show h.live + (3 + debts stack) + n ≤ h.capacity
      omega
  | closing => exact lasts_close _ (by omega)
  | string =>
      cases content : Text.unquote l.text with
      | ok text => exact lasts_deliverNew _ (fits_allocate _) (by omega)
      | error fault =>
          rcases Text.unquote_error content with ⟨c, rfl⟩
          exact lasts_throw rfl (by omega)
  | unclosed => exact lasts_throw rfl (by omega)
  | atom =>
      cases classified : Atom.classify l.text with
      | ok a => exact lasts_atom _ a (by omega)
      | error fault =>
          rcases Atom.classify_error classified with ⟨digits, rfl⟩
          exact lasts_throw rfl (by omega)
  | stray => exact lasts_throw rfl (by omega)

/-- Where there is room for three objects for each lexeme, the heap is not too small for reading. -/
structure Ample (reading : Reading) (n : Nat) : Prop where
  notFatal : ∀ e, reading.outcome = .error e → e.fatal? = none
  room : reading.heap.live + 3 * reading.reader.lexemes.length + n ≤ reading.heap.capacity

theorem ample_takeAll (r : Reader) {ls : List Lexeme}
    (room : h.live + debts stack + 3 * ls.length + n ≤ h.capacity) :
    Ample (r.takeAll stack ls h) n := by
  induction ls generalizing h stack with
  | nil =>
      refine ⟨fun e failed => ?_, ?_⟩
      · rcases stack with _ | ⟨form, stack⟩
        · cases failed
        · cases form with
          | _ =>
              cases failed
              rfl
      · show h.live + 3 * 0 + n ≤ h.capacity
        omega
  | cons l ls ih =>
      rw [List.length_cons] at room
      have step : Lasts (take stack l) h (3 * ls.length + n) := lasts_take l (by omega)
      unfold Lasts at step
      rw [takeAll_cons]
      rcases result : take stack l h with ⟨stack' | v, h'⟩ | ⟨e', h'⟩
      · rw [result] at step
        exact ih (by omega)
      · rw [result] at step
        exact ⟨nofun, show h'.live + 3 * ls.length + n ≤ h'.capacity by omega⟩
      · rw [result] at step
        refine ⟨?_, show h'.live + 3 * ls.length + n ≤ h'.capacity by omega⟩
        rintro _ ⟨⟩
        exact step.1

end Lasting

/-! ## The reader and its grammar -/

/-- The heap has enough room for reading an expression. -/
def HasRoom (r : Reader) (h : Heap) : Prop :=
  ∀ e, (r.read h).outcome = .error e → e.fatal? = none

/-- Three slots for every lexeme are enough room, without any collection. -/
theorem hasRoom_of_le {r : Reader} {h : Heap}
    (room : h.live + 3 * r.lexemes.length ≤ h.capacity) : r.HasRoom h :=
  (ample_takeAll r (n := 0) (show h.live + debts [] + _ ≤ _ from room)).notFatal

/--
At any position in a source text, and on any heap with enough room, the reader gives an expression
exactly if a phrase stands at the front of the lexemes that are left. There is one such phrase
only; its lexemes are the ones that are used up, and its tree is the one that the value depicts.
There is nothing to read exactly if no lexeme is left, and everything else is an error.
-/
theorem read_iff_phrase {source : String} {r : Reader}
    (position : r.lexemes <:+ Lexeme.meaningful source) {h : Heap} (w : h.WellFormed) :
    (h.live + 3 * r.lexemes.length ≤ h.capacity → r.HasRoom h) ∧
      (r.HasRoom h →
        (∀ v, (r.read h).outcome = .ok (some v) → ∃ p : Phrase,
          r.lexemes = p.lexemes ++ (r.read h).reader.lexemes ∧
          (∀ q : Phrase, q.lexemes <+: r.lexemes → q = p) ∧
          ∀ t, (r.read h).heap.Depicts v t ↔ t = p.tree) ∧
        (∀ p : Phrase, p.lexemes <+: r.lexemes → ∃ v, (r.read h).outcome = .ok (some v)) ∧
        ((r.read h).outcome = .ok none ↔ r.lexemes = []) ∧
        ((∃ e, (r.read h).outcome = .error e) ↔
          r.lexemes ≠ [] ∧ ∀ p : Phrase, ¬ p.lexemes <+: r.lexemes)) := by
  refine ⟨hasRoom_of_le, fun room => ?_⟩
  have meaningful : ∀ l ∈ r.lexemes, l.token ≠ .comment := by
    intro l member
    simpa using (List.mem_filter.1 (position.mem member)).2
  have gives := read_gives meaningful w
  unfold HasRoom at room
  generalize r.read h = reading at gives room ⊢
  generalize found : Parsing.parse [] r.lexemes = parsed at gives
  cases gives with
  | @phrase v p r' h' rest left depicts =>
      have spelled := parse_eq_phrase_iff.1 found
      refine ⟨?_, fun _ _ => ⟨v, rfl⟩, ⟨nofun, ?_⟩, ⟨nofun, ?_⟩⟩
      · rintro v' same
        cases same
        refine ⟨p, left ▸ spelled, fun q begins => ?_, fun t => ⟨?_, ?_⟩⟩
        · exact Phrase.eq_of_isPrefix begins ⟨rest, spelled.symm⟩
        · exact fun depicts' => depicts'.unique depicts
        · rintro rfl
          exact depicts
      · intro none
        rw [parse_eq_nothing_iff.2 none] at found
        cases found
      · exact fun none => absurd ⟨rest, spelled.symm⟩ (none.2 p)
  | nothing =>
      have empty := parse_eq_nothing_iff.1 found
      refine ⟨nofun, ?_, ⟨fun _ => empty, fun _ => rfl⟩, ⟨nofun, fun some => absurd empty some.1⟩⟩
      rintro p begins
      rw [empty] at begins
      exact absurd (List.prefix_nil.1 begins) p.lexemes_ne_nil
  | @broken e =>
      have noPhrase (p : Phrase) : ¬ p.lexemes <+: r.lexemes := by
        rintro ⟨rest, spelled⟩
        rw [parse_eq_phrase_iff.2 spelled.symm] at found
        cases found
      have some : r.lexemes ≠ [] := by
        intro empty
        rw [parse_eq_nothing_iff.2 empty] at found
        cases found
      refine ⟨nofun, fun p begins => absurd begins (noPhrase p), ⟨nofun, ?_⟩, ?_⟩
      · exact fun empty => absurd empty some
      · exact ⟨fun _ => ⟨some, noPhrase⟩, fun _ => ⟨e, rfl⟩⟩
  | @cutOff _ e r' h' fatal =>
      rw [room e rfl] at fatal
      cases fatal

/-- A reader of a dotted list with a quote in it. -/
def quotation : Reader := ofSource "('t . t)"

/-- The phrase that stands there. -/
def quotationPhrase : Phrase :=
  .dotted ⟨⟨.opening, "(", ⟨0, 1⟩⟩, rfl⟩
    (.quoted ⟨⟨.quote, "'", ⟨1, 2⟩⟩, rfl⟩ (.word ⟨⟨.atom, "t", ⟨2, 3⟩⟩, rfl⟩)) []
    ⟨⟨.atom, ".", ⟨4, 5⟩⟩, rfl, rfl⟩ (.word ⟨⟨.atom, "t", ⟨6, 7⟩⟩, rfl⟩)
    ⟨⟨.closing, ")", ⟨7, 8⟩⟩, rfl⟩

theorem read_iff_phrase_quotation :
    quotation.lexemes <:+ Lexeme.meaningful "('t . t)" ∧ (Heap.empty 20).WellFormed ∧
      quotation.HasRoom (Heap.empty 20) ∧
      ∃ v, (quotation.read (Heap.empty 20)).outcome = .ok (some v) ∧
        (quotation.read (Heap.empty 20)).reader.lexemes = [] ∧
        (quotation.read (Heap.empty 20)).heap.Depicts v
          (.pair (.pair (.leaf (.symbol "quote")) (.pair (.leaf (.symbol "t")) .nil))
            (.leaf (.symbol "t"))) := by
  have position : quotation.lexemes <:+ Lexeme.meaningful "('t . t)" := List.suffix_refl _
  have w := Heap.wellFormed_empty 20
  have spelled : quotation.lexemes = quotationPhrase.lexemes := by decide +kernel
  have begins : quotationPhrase.lexemes <+: quotation.lexemes := spelled ▸ List.prefix_refl _
  rcases read_iff_phrase position w with ⟨enough, reads⟩
  have room : quotation.HasRoom (Heap.empty 20) := enough (by decide +kernel)
  rcases reads room with ⟨accepted, accepts, _⟩
  rcases accepts quotationPhrase begins with ⟨v, given⟩
  rcases accepted v given with ⟨p, used, unique, depicts⟩
  cases unique quotationPhrase begins
  refine ⟨position, w, room, v, given, ?_, (depicts _).2 rfl⟩
  exact List.self_eq_append_right.1 (spelled ▸ used)

end Reader

end Lisplet
