import Lisplet.Heap.Print

/-!
# Resemblance — texts that differ in slot numbers only

A procedure or an environment is printed with the number of its slot, which depends on what has
been collected before. Texts resemble each other if they are the same but for such numbers.
-/

namespace Lisplet

namespace Text

/-- The same characters, but for the numbers of slots that procedures and environments show. -/
inductive Resemble : List Char → List Char → Prop where
  | nil : Resemble [] []
  | char {cs ds : List Char} (c : Char) : Resemble cs ds → Resemble (c :: cs) (c :: ds)
  | procedure {cs ds : List Char} (m n : Nat) : Resemble cs ds →
      Resemble (("#<procedure " ++ toString m ++ ">").toList ++ cs)
        (("#<procedure " ++ toString n ++ ">").toList ++ ds)
  | environment {cs ds : List Char} (m n : Nat) : Resemble cs ds →
      Resemble (("#<environment " ++ toString m ++ ">").toList ++ cs)
        (("#<environment " ++ toString n ++ ">").toList ++ ds)

namespace Resemble

variable {as bs cs ds : List Char}

theorem refl (cs : List Char) : Resemble cs cs := by
  induction cs with
  | nil => exact .nil
  | cons c cs ih => exact .char c ih

theorem append (first : Resemble as bs) (second : Resemble cs ds) :
    Resemble (as ++ cs) (bs ++ ds) := by
  induction first with
  | nil => exact second
  | char c _ ih => exact .char c ih
  | procedure m n _ ih =>
      rw [List.append_assoc, List.append_assoc]
      exact .procedure m n ih
  | environment m n _ ih =>
      rw [List.append_assoc, List.append_assoc]
      exact .environment m n ih

theorem symm (same : Resemble as bs) : Resemble bs as := by
  induction same with
  | nil => exact .nil
  | char c _ ih => exact .char c ih
  | procedure m n _ ih => exact .procedure n m ih
  | environment m n _ ih => exact .environment n m ih

end Resemble

/-- Two texts that are the same but for the numbers of slots. -/
def Resembles (s t : String) : Prop := Resemble s.toList t.toList

namespace Resembles

variable {s s' t t' : String}

theorem refl (s : String) : Resembles s s := Resemble.refl s.toList

theorem append (first : Resembles s t) (second : Resembles s' t') :
    Resembles (s ++ s') (t ++ t') := by
  unfold Resembles
  rw [String.toList_append, String.toList_append]
  exact Resemble.append first second

end Resembles

end Text

end Lisplet
