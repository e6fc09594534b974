import Lisplet.Heap.Raise
import Lisplet.Proofs.Simulation.Observation

/-!
# Appearance — corresponding values look alike

Data is finite, so twins denote trees of the same shape. The printed forms of the two trees
differ in the slots of procedures only, and comparing two of them comes out the same on both
sides.
-/

namespace Lisplet

/-- Trees of the same shape whose atoms correspond. -/
inductive Datum.Twins (ρ : Simulation.Pairing) : Datum → Datum → Prop where
  | nil : Twins ρ .nil .nil
  | atom {i j : Nat} {o o' : Object} : ρ .datum i j → Simulation.Alike ρ .datum o o' →
      o.kind ≠ .pair → Twins ρ (.atom i o) (.atom j o')
  | pair {a a' d d' : Datum} : Twins ρ a a' → Twins ρ d d' → Twins ρ (.pair a d) (.pair a' d')

namespace Simulation

variable {ρ : Pairing} {h h' : Heap} {v v' w w' : Value} {d d' e e' : Datum}

theorem Simulates.exists_datum (s : Simulates ρ h h') (twins : Twins ρ .datum v v') :
    ∃ d d', h.Denotes v d ∧ h'.Denotes v' d' ∧ Datum.Twins ρ d d' := by
  refine s.twins_induction
    (motive := fun v v' => ∃ d d', h.Denotes v d ∧ h'.Denotes v' d' ∧ Datum.Twins ρ d d') twins
    ⟨.nil, .nil, .nil, .nil, .nil⟩ ?_
  intro i j o paired found follows
  rcases s.alike _ i j paired with ⟨o₁, o', found₁, found', alike⟩
  rw [found] at found₁
  cases found₁
  -- Whatever is no pair denotes a tree by itself.
  have atom : o.kind ≠ .pair →
      ∃ d d', h.Denotes (.slot i) d ∧ h'.Denotes (.slot j) d' ∧ Datum.Twins ρ d d' := by
    intro isAtom
    have isAtom' : o'.kind ≠ .pair := by rwa [alike.kind_eq]
    exact ⟨.atom i o, .atom j o', .atom found isAtom, .atom found' isAtom',
      .atom paired alike isAtom⟩
  cases alike with
  | plain isPlain =>
      refine atom fun isPair => ?_
      cases o with
      | pair _ _ => exact isPlain
      | _ => cases isPair
  | @pair car car' cdr cdr' twinsCar twinsCdr =>
      rcases follows car car' (by simp [descent]) twinsCar with ⟨a, a', denotes, denotes', same⟩
      rcases follows cdr cdr' (by simp [descent]) twinsCdr with ⟨b, b', denotes₂, denotes₂', same₂⟩
      exact ⟨.pair a b, .pair a' b', .pair found denotes denotes₂, .pair found' denotes' denotes₂',
        .pair same same₂⟩
  | procedure _ _ _ => exact atom (by simp [Object.kind])

/-! ## Printed forms -/

theorem Alike.text_resembles {o o' : Object} (alike : Alike ρ .datum o o') (style : Style)
    (i j : Nat) : Text.Resembles (o.text style (.slot i)) (o'.text style (.slot j)) := by
  cases alike with
  | plain isPlain =>
      -- Plain objects are printed without the slot they are in.
      have same : o.text style (.slot j) = o.text style (.slot i) := by
        cases o with
        | procedure _ _ _ | environment _ _ => exact absurd isPlain id
        | _ => rfl
      rw [same]
      exact .refl _
  | pair _ _ => exact .refl _
  | procedure _ _ _ =>
      have shown := Text.Resemble.procedure i j .nil
      rw [List.append_nil, List.append_nil] at shown
      exact shown

theorem text_resemble (same : Datum.Twins ρ d d') (style : Style) :
    Text.Resemble (d.text style) (d'.text style) ∧
      Text.Resemble (d.tailText style) (d'.tailText style) := by
  induction same with
  | nil => exact ⟨.refl _, .refl _⟩
  | @atom i j o o' _ alike _ =>
      have shown := alike.text_resembles style i j
      exact ⟨shown, ((Text.Resemble.refl _).append shown).append (.refl _)⟩
  | pair _ _ ihCar ihCdr =>
      exact ⟨.char '(' (ihCar.1.append ihCdr.2), .char ' ' (ihCar.1.append ihCdr.2)⟩

/-- The printed forms of twins differ in the numbers of slots only. -/
theorem Simulates.print_resembles (s : Simulates ρ h h') (twins : Twins ρ .datum v v')
    (style : Style) : Text.Resembles (h.print style v) (h'.print style v') := by
  rcases s.exists_datum twins with ⟨d, d', denotes, denotes', same⟩
  rw [Heap.print_eq style denotes, Heap.print_eq style denotes', Text.Resembles,
    String.toList_ofList, String.toList_ofList]
  exact (text_resemble same style).1

theorem intercalate_resembles (between : String) {texts texts' : List String}
    (same : List.Forall₂ Text.Resembles texts texts') :
    Text.Resembles (between.intercalate texts) (between.intercalate texts') := by
  induction same with
  | nil => exact .refl _
  | @cons text text' texts texts' first rest ih =>
      cases rest with
      | nil =>
          rw [String.intercalate_singleton, String.intercalate_singleton]
          exact first
      | cons second rest =>
          rw [String.intercalate_cons_cons, String.intercalate_cons_cons]
          exact (first.append (.refl between)).append ih

/-! ## Equality -/

theorem Alike.sameAtom_eq {σ : Pairing} {o o' x x' : Object} (alike : Alike ρ .datum o o')
    (alike' : Alike σ .datum x x') : o'.sameAtom x' = o.sameAtom x := by
  -- Plain objects are the same on both sides, and anything else is equal to no atom.
  cases alike with
  | plain _ =>
      cases alike' with
      | plain _ => rfl
      | _ => cases o <;> rfl
  | pair _ _ => rfl
  | procedure _ _ _ => rfl

theorem Corresponds.sameAs_eq (c : Corresponds ρ h h') (same : Datum.Twins ρ d d')
    (same' : Datum.Twins ρ e e') : d'.sameAs e' = d.sameAs e := by
  induction same generalizing e e' with
  | nil =>
      cases same' with
      | _ => rfl
  | @atom i j o o' paired alike _ =>
      cases same' with
      | nil => rfl
      | @atom k l x x' paired' alike' _ =>
          have twins : Simulation.Twins ρ .datum (.slot i) (.slot j) := paired
          have twins' : Simulation.Twins ρ .datum (.slot k) (.slot l) := paired'
          -- Twins are in one slot exactly if the values are.
          have slots : (j == l) = (i == k) := by
            rw [Bool.eq_iff_iff, beq_iff_eq, beq_iff_eq]
            simpa using (c.twins_eq_iff twins twins').symm
          rw [Datum.sameAs, Datum.sameAs, slots, alike.sameAtom_eq alike']
      | pair _ _ => rfl
  | pair _ _ ihCar ihCdr =>
      cases same' with
      | nil => rfl
      | atom _ _ _ => rfl
      | pair car cdr => rw [Datum.sameAs, Datum.sameAs, ihCar car, ihCdr cdr]

/-- Values are equal exactly if their twins are. -/
theorem Simulates.equal_eq (s : Simulates ρ h h') (twins : Twins ρ .datum v v')
    (twins' : Twins ρ .datum w w') : h'.equal v' w' = h.equal v w := by
  rcases s.exists_datum twins with ⟨d, d', denotes, denotes', same⟩
  rcases s.exists_datum twins' with ⟨e, e', denotes₂, denotes₂', same'⟩
  calc
    h'.equal v' w' = d'.sameAs e' := Heap.equal_eq denotes' denotes₂'
    _ = d.sameAs e := s.sameAs_eq same same'
    _ = h.equal v w := (Heap.equal_eq denotes denotes₂).symm

end Simulation

end Lisplet
