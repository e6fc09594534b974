import Lisplet.Proofs.Termination.Upkeep

/-!
# Walks — walks that nothing stops come to an end by themselves

Along a list that ends, outwards from an environment, through data that is a tree: an unbounded
walk ends there, with the same result as the one that is bounded by the number of slots. In a
suited heap all lists, environments and data are of that kind.
-/

namespace Lisplet

namespace Termination

open Simulation (Role)

variable {h : Heap} {v w tail : Value} {items : List Value}

/-! ## Lists -/

section Lists

theorem spineOnto_eq (spine : h.Spine v items tail) (found : List Value) :
    Unbounded.spineOnto h found v = some (found.reverse ++ items, tail) := by
  induction spine generalizing found with
  | done ends =>
      rw [Unbounded.spineOnto_eq, ends]
      simp
  | step goes _ ih =>
      rw [Unbounded.spineOnto_eq, goes]
      simp only
      rw [ih]
      simp

/-- Along a list that leads back to itself the walk is endless. -/
theorem spine_of_circle {car : Value} (circle : h.pair? v = some (car, v)) :
    Unbounded.spine h v = none := by
  unfold Unbounded.spine Unbounded.spineOnto
  refine Option.eq_none_iff_forall_ne_some.2 fun result ended => ?_
  -- Whatever has been found, a round that begins at `v` leads back to `v`.
  refine Unbounded.loop_induction (motive := fun s => s.2 ≠ v) ended ?_ ?_ rfl
  · rintro ⟨found, list⟩ done same
    subst same
    simp [circle] at done
  · rintro ⟨found, list⟩ next goes elsewhere same
    subst same
    simp only [circle, Option.some.injEq, Sum.inr.injEq] at goes
    subst goes
    exact elsewhere rfl

theorem spine_eq (spine : h.Spine v items tail) : Unbounded.spine h v = some (h.spine v) := by
  rw [Heap.spine_eq spine]
  exact spineOnto_eq spine []

theorem items?_eq (spine : h.Spine v items tail) : Unbounded.items? h v = some (h.items? v) := by
  rw [Heap.items?_eq spine]
  unfold Unbounded.items?
  rw [spine_eq spine, Heap.spine_eq spine]
  rfl

theorem lengthOnto_eq (spine : h.Spine v items tail) (count : Nat) :
    Unbounded.lengthOnto h count v = some (count + items.length) := by
  induction spine generalizing count with
  | done ends =>
      rw [Unbounded.lengthOnto_eq, ends]
      rfl
  | step goes _ ih =>
      rw [Unbounded.lengthOnto_eq, goes]
      simp only
      rw [ih, List.length_cons, Nat.add_assoc, Nat.add_comm 1]

theorem listLength_eq (spine : h.Spine v items tail) :
    Unbounded.listLength h v = some (h.listLength v) := by
  rw [Heap.listLength_eq spine, Unbounded.listLength, lengthOnto_eq spine, Nat.zero_add]

theorem find?_eq (spine : h.Spine v items tail) (condition : Value → Bool) :
    Unbounded.find? h condition v = some (h.find? condition v) := by
  rw [Heap.find?_eq spine]
  induction spine with
  | done ends =>
      rw [Unbounded.find?_eq, ends]
      rfl
  | step goes _ ih =>
      rw [Unbounded.find?_eq, goes, List.find?_cons]
      simp only
      rw [ih]
      split
      · next holds => rw [holds]
      · next fails => simp [fails]

end Lists

/-! ## Environments -/

theorem binding?_eq {env : Env} {envs : List Env} (chain : h.Chain env envs)
    (lists : ∀ e ∈ envs, ∃ items tail, h.Spine (e.bindings h) items tail) (symbol : Value) :
    Unbounded.binding? h symbol env = some (env.binding? h symbol) := by
  rw [Heap.binding?_eq chain]
  -- Induction on the chain: frames in which the symbol is not bound are passed.
  induction chain with
  | @outermost env ends =>
      rcases lists env List.mem_cons_self with ⟨items, tail, spine⟩
      rw [Unbounded.binding?_eq, find?_eq spine, ends]
      cases own : env.ownBinding? h symbol with
      | none =>
          unfold Env.ownBinding? at own
          simp [Env.ownBinding?, own]
      | some binding =>
          unfold Env.ownBinding? at own
          simp [Env.ownBinding?, own]
  | @inner env parent envs goes _ ih =>
      rcases lists env List.mem_cons_self with ⟨items, tail, spine⟩
      have later := ih fun e member => lists e (List.mem_cons_of_mem env member)
      rw [Unbounded.binding?_eq, find?_eq spine, goes]
      cases own : env.ownBinding? h symbol with
      | none =>
          unfold Env.ownBinding? at own
          simp [Env.ownBinding?, own, later]
      | some binding =>
          unfold Env.ownBinding? at own
          simp [Env.ownBinding?, own]

/-! ## Printing -/

section Printing

open Unbounded (printAll printAll_nil printAll_value printAll_tail Part)

variable {tree : Datum}

/-- Printing a part adds its text to what has been printed. -/
theorem printAll_part (style : Style) (denotes : h.Denotes v tree) (out : String)
    (parts : List Part) :
    printAll h style out (.value v :: parts) =
        printAll h style (out ++ String.ofList (tree.text style)) parts ∧
      printAll h style out (.tail v :: parts) =
        printAll h style (out ++ String.ofList (tree.tailText style)) parts := by
  -- Both claims at once: an element is followed by a tail, and a tail goes on with an element.
  induction denotes generalizing out parts with
  | nil =>
      constructor
      · rw [printAll_value]
        rfl
      · rw [printAll_tail]
        rfl
  | @atom i o found isAtom =>
      have none := Heap.pair?_of_atom found isAtom
      constructor
      · rw [printAll_value, none, Heap.atomText_slot style found, Datum.text, String.ofList_toList]
      · have join : (out ++ " . " ++ o.text style (.slot i)).push ')' =
            out ++ String.ofList ((Datum.atom i o).tailText style) := by
          refine String.toList_inj.1 ?_
          simp [Datum.tailText]
        rw [printAll_tail, none, Heap.atomText_slot style found, ← join]
        rfl
  | @pair i car cdr t t' found _ _ ihCar ihCdr =>
      have some := Heap.pair?_eq_some_iff.2 found
      constructor
      · have join : out.push '(' ++ String.ofList (t.text style) ++
            String.ofList (t'.tailText style) =
              out ++ String.ofList ((Datum.pair t t').text style) := by
          refine String.toList_inj.1 ?_
          simp [Datum.text]
        rw [printAll_value, some, ← join]
        simp only
        rw [(ihCar _ _).1, (ihCdr _ _).2]
      · have join : out.push ' ' ++ String.ofList (t.text style) ++
            String.ofList (t'.tailText style) =
              out ++ String.ofList ((Datum.pair t t').tailText style) := by
          refine String.toList_inj.1 ?_
          simp [Datum.tailText]
        rw [printAll_tail, some, ← join]
        simp only
        rw [(ihCar _ _).1, (ihCdr _ _).2]

theorem print_eq (style : Style) (denotes : h.Denotes v tree) :
    Unbounded.print h style v = some (h.print style v) := by
  unfold Unbounded.print
  rw [(printAll_part style denotes "" []).1, printAll_nil, Heap.print_eq style denotes]
  simp

end Printing

/-! ## Comparing -/

section Comparing

open Unbounded (equalAll equalAll_nil equalAll_cons)

/-- Two different values of which one is an atom are compared as one piece. -/
theorem equalAll_atom {o o' : Object} (different : v ≠ w) (found : h.object? v = some o)
    (found' : h.object? w = some o') (apart : o.kind ≠ .pair ∨ o'.kind ≠ .pair)
    (pending : List (Value × Value)) :
    equalAll h ((v, w) :: pending) = if o.sameAtom o' then equalAll h pending else some false := by
  rw [equalAll_cons, if_neg (by simpa using different), found, found']
  cases o with
  | pair car cdr =>
      cases o' with
      | pair car' cdr' => exact absurd rfl (apart.resolve_left fun isAtom => isAtom rfl)
      | _ => rfl
  | _ => rfl

theorem equalAll_eq {tree tree' : Datum} (denotes : h.Denotes v tree)
    (denotes' : h.Denotes w tree') (pending : List (Value × Value)) :
    equalAll h ((v, w) :: pending) =
      if tree.sameAs tree' then equalAll h pending else some false := by
  induction denotes generalizing w tree' pending with
  | nil =>
      cases denotes' with
      | nil =>
          rw [equalAll_cons]
          rfl
      | atom found _ =>
          rw [equalAll_cons]
          rfl
      | pair found _ _ =>
          rw [equalAll_cons]
          rfl
  | @atom i o found isAtom =>
      cases denotes' with
      | nil =>
          rw [equalAll_cons, found]
          cases o <;> rfl
      | @atom j o' found' _ =>
          -- The same slot is equal to itself at once, even if it holds no number.
          by_cases same : i = j
          · subst same
            rw [equalAll_cons]
            simp [Datum.sameAs]
          · have different : Value.slot i ≠ .slot j := by simpa using same
            have distinct : (i == j) = false := by simpa using same
            rw [equalAll_atom different found found' (.inl isAtom), Datum.sameAs, distinct,
              Bool.false_or]
      | @pair j car' cdr' t t' found' _ _ =>
          have different := Heap.ne_of_kind_ne found found' isAtom
          rw [equalAll_atom different found found' (.inl isAtom),
            Object.sameAtom_of_kind_ne isAtom]
          rfl
  | @pair i car cdr t t' found denotesCar denotesCdr ihCar ihCdr =>
      cases denotes' with
      | nil =>
          rw [equalAll_cons, found]
          rfl
      | @atom j o' found' isAtom =>
          have different := Heap.ne_of_kind_ne found found' (Ne.symm isAtom)
          rw [equalAll_atom different found found' (.inr isAtom),
            Object.sameAtom_of_kind_ne (Ne.symm isAtom)]
          rfl
      | @pair j car' cdr' u u' found' denotesCar' denotesCdr' =>
          by_cases same : i = j
          · subst same
            rw [found] at found'
            cases found'
            rw [denotesCar'.unique denotesCar, denotesCdr'.unique denotesCdr, Datum.sameAs_self,
              equalAll_cons]
            simp
          · have different : ¬ (Value.slot i == .slot j) = true := by simpa using same
            rw [equalAll_cons, if_neg different, found, found']
            simp only
            rw [ihCar denotesCar', ihCdr denotesCdr', Datum.sameAs]
            cases t.sameAs u <;> rfl

theorem equal_eq {tree tree' : Datum} (denotes : h.Denotes v tree)
    (denotes' : h.Denotes w tree') : Unbounded.equal h v w = some (h.equal v w) := by
  unfold Unbounded.equal
  rw [equalAll_eq denotes denotes', Heap.equal_eq denotes denotes', equalAll_nil]
  cases tree.sameAs tree' <;> rfl

end Comparing

/-! ## In a suited heap -/

namespace Suited

variable {d : Layout} {env : Env} {symbol : Value}

theorem spine_ends (a : Suited d h) (used : Used d h .datum v) :
    Unbounded.spine h v = some (h.spine v) := by
  rcases a.exists_spine (.inl rfl) used with ⟨items, tail, spine, _⟩
  exact spine_eq spine

theorem items?_ends (a : Suited d h) (used : Used d h .datum v) :
    Unbounded.items? h v = some (h.items? v) := by
  rcases a.exists_spine (.inl rfl) used with ⟨items, tail, spine, _⟩
  exact items?_eq spine

/-- A proper list is what a walk along it finds, and its elements are data. -/
theorem items_used (a : Suited d h) (used : Used d h .datum v) {items : List Value}
    (found : h.items? v = some items) :
    (∃ tail, h.Spine v items tail) ∧ ∀ w ∈ items, Used d h .datum w := by
  rcases a.exists_spine (.inl rfl) used with ⟨items', tail, spine, all, _⟩
  rw [Heap.items?_eq spine] at found
  split at found
  · cases found
    exact ⟨⟨tail, spine⟩, all⟩
  · cases found

theorem print_ends (a : Suited d h) (style : Style) (used : Used d h .datum v) :
    Unbounded.print h style v = some (h.print style v) := by
  rcases a.exists_denotes used with ⟨tree, denotes⟩
  exact print_eq style denotes

theorem equal_ends (a : Suited d h) (used : Used d h .datum v) (used' : Used d h .datum w) :
    Unbounded.equal h v w = some (h.equal v w) := by
  rcases a.exists_denotes used with ⟨tree, denotes⟩
  rcases a.exists_denotes used' with ⟨tree', denotes'⟩
  exact equal_eq denotes denotes'

theorem binding?_ends (a : Suited d h) (used : Used d h .frame env.value) (symbol : Value) :
    Unbounded.binding? h symbol env = some (env.binding? h symbol) := by
  rcases a.exists_chain used with ⟨envs, chain, all⟩
  refine binding?_eq chain (fun e member => ?_) symbol
  rcases a.exists_spine (.inr rfl) (a.frame_used (all e member).fills).1 with
    ⟨items, tail, spine, _⟩
  exact ⟨items, tail, spine⟩

/-- What is found in an environment is a binding. -/
theorem binding_used (a : Suited d h) (used : Used d h .frame env.value) {binding : Value}
    (found : env.binding? h symbol = some binding) : Used d h .binding binding := by
  rcases a.exists_chain used with ⟨envs, chain, all⟩
  rw [Heap.binding?_eq chain] at found
  rcases List.exists_of_findSome?_eq_some found with ⟨e, member, own⟩
  rcases a.exists_spine (.inr rfl) (a.frame_used (all e member).fills).1 with
    ⟨items, tail, spine, bindings, _⟩
  unfold Env.ownBinding? at own
  rw [Heap.find?_eq spine] at own
  exact bindings binding (List.mem_of_find?_eq_some own)

theorem unbound_ends (a : Suited d h) (used : Used d h .datum symbol) :
    Unbounded.unbound h symbol = some (Env.unbound h symbol) := by
  unfold Unbounded.unbound Env.unbound
  cases h.symbolName? symbol with
  | some name => rfl
  | none =>
      rw [a.print_ends .write used]
      rfl

theorem lookup_ends (a : Suited d h) (usedEnv : Used d h .frame env.value)
    (used : Used d h .datum symbol) :
    Unbounded.lookup h env symbol = some (env.lookup h symbol) := by
  unfold Unbounded.lookup Env.lookup
  rw [a.binding?_ends usedEnv, a.unbound_ends used]
  simp only [Option.bind_eq_bind, Option.bind_some]
  cases (env.binding? h symbol).bind h.cdr? <;> rfl

/-- The value of a symbol is data. -/
theorem lookup_used (a : Suited d h) (usedEnv : Used d h .frame env.value)
    (found : env.lookup h symbol = .ok v) : Used d h .datum v := by
  unfold Env.lookup at found
  split at found
  · next value bound =>
    cases found
    rcases Option.bind_eq_some_iff.1 bound with ⟨binding, isBinding, goes⟩
    rcases Option.map_eq_some_iff.1 goes with ⟨⟨car, cdr⟩, pair, rfl⟩
    exact (a.pair_used (a.binding_used usedEnv isBinding).fills (Heap.pair?_eq_some_iff.1 pair)).2
  · cases found

theorem shape_ends (a : Suited d h) (used : Used d h .datum v) :
    Unbounded.shape h v = some (Env.shape h v) := by
  rcases a.exists_spine (.inl rfl) used with ⟨items, tail, spine, all, usedTail⟩
  unfold Unbounded.shape Env.shape
  rw [spine_eq spine, Heap.spine_eq spine]
  simp only [Option.bind_eq_bind, Option.bind_some]
  cases found : items.find? fun param => !h.isSymbol param with
  | some param =>
      have usedParam := all param (List.mem_of_find?_eq_some found)
      simp only
      rw [a.print_ends .write usedParam]
      rfl
  | none =>
      simp only
      split
      · rfl
      · split
        · rfl
        · rw [a.print_ends .write usedTail]
          rfl

end Suited

end Termination

end Lisplet
