import Lisplet.Primitive.Call
import Lisplet.Proofs.Heap.Evolution
import Lisplet.Proofs.Heap.Spine
import Mathlib.Algebra.Ring.Int.Defs

/-!
# Arithmetic — exact, or an error that says so

What `+`, `-`, `*` and `/` are to give on integers is said here on unbounded integers. An operator
`Yields` one result for two of them, a quotient being told by its remainder, and none by nought. A
list of operands is folded from the left as long as every result has 64 bits (`Folds`), and the
first step that fails decides how it `Ends`. `arithmetic_on_integers` says that calling the
primitive puts just this answer into the heap.
-/

namespace Lisplet

namespace Operator

/-! ## Exact results -/

/-- `c` is what an operator makes of two integers. Division drops the fraction: what is left over is
less than the divisor and has the sign of the dividend. -/
inductive Yields : Operator → Int → Int → Int → Prop where
  | sum (a b : Int) : Yields .add a b (a + b)
  | difference (a b : Int) : Yields .sub a b (a - b)
  | product (a b : Int) : Yields .mul a b (a * b)
  | quotient {a b q r : Int} : a = q * b + r → r.natAbs < b.natAbs →
      (0 ≤ a → 0 ≤ r) → (a ≤ 0 → r ≤ 0) → Yields .div a b q

/-- The operands folded onto `a` from the left come to `c`, and each result on the way is an integer
of 64 bits. -/
inductive Folds (op : Operator) : Int64 → List Int64 → Int64 → Prop where
  | done (a : Int64) : Folds op a [] a
  | step {a b c n : Int64} {ns : List Int64} : op.Yields a.toInt n.toInt b.toInt →
      Folds op b ns c → Folds op a (n :: ns) c

/-- What folding comes to: a number, or what is wrong with the first step that fails. -/
inductive Ends (op : Operator) (a : Int64) (ns : List Int64) :
    Except ArithmeticFault Int64 → Prop where
  | result {c : Int64} : op.Folds a ns c → Ends op a ns (.ok c)
  | divisionByZero {before after : List Int64} {b : Int64} : ns = before ++ 0 :: after →
      op.Folds a before b → op = .div → Ends op a ns (.error .divisionByZero)
  | overflow {before after : List Int64} {b n : Int64} {c : Int} : ns = before ++ n :: after →
      op.Folds a before b → op.Yields b.toInt n.toInt c → c < -2 ^ 63 ∨ 2 ^ 63 ≤ c →
        Ends op a ns (.error .overflow)

/-- Where folding starts, and what is folded: a single operand is folded onto nought or one. -/
inductive Starts : Operator → List Int64 → Int64 → List Int64 → Prop where
  | term {op : Operator} (n : Int64) : op = .add ∨ op = .sub → Starts op [n] 0 [n]
  | factor {op : Operator} (n : Int64) : op = .mul ∨ op = .div → Starts op [n] 1 [n]
  | several (op : Operator) (first n : Int64) (ns : List Int64) :
      Starts op (first :: n :: ns) first (n :: ns)

/-- The object that stands for what folding comes to. -/
def object (op : Operator) : Except ArithmeticFault Int64 → Object
  | .ok n => .int n
  | .error .overflow => .error .overflow s!"integer overflow in {op.name}"
  | .error .divisionByZero => .error .divisionByZero "division by zero"

/-- The answer to an operator with some integers as operands. -/
inductive Answer : Operator → List Int64 → Object → Prop where
  | emptySum : Answer .add [] (.int 0)
  | emptyProduct : Answer .mul [] (.int 1)
  | tooFew {op : Operator} : op = .sub ∨ op = .div →
      Answer op [] (.error .arityMismatch s!"{op.name} expects at least 1 argument, got 0")
  | folded {op : Operator} {numbers ns : List Int64} {a : Int64}
      {r : Except ArithmeticFault Int64} :
      op.Starts numbers a ns → op.Ends a ns r → Answer op numbers (op.object r)

/-! ## One step -/

section Steps

variable {op : Operator} {a b c q : Int}

/-- A quotient is truncated, and there is none by nought. -/
theorem yields_div_iff : Yields .div a b q ↔ b ≠ 0 ∧ q = a.tdiv b := by
  constructor
  · intro yields
    cases yields with
    | @quotient _ _ _ r whole small nonneg nonpos =>
        have divisor : b ≠ 0 := by
          rintro rfl
          simp at small
        have whole' : r + b * q = a := by
          rw [whole, Int.mul_comm q b, Int.add_comm]
        rcases Int.le_total 0 a with sign | sign
        · have unique := Int.tdiv_tmod_unique (q := q) (r := r) sign divisor
          have remainder := nonneg sign
          exact ⟨divisor, (unique.2 ⟨whole', remainder, by omega⟩).1.symm⟩
        · have unique := Int.tdiv_tmod_unique' (q := q) (r := r) sign divisor
          have remainder := nonpos sign
          exact ⟨divisor, (unique.2 ⟨whole', by omega, remainder⟩).1.symm⟩
  · rintro ⟨divisor, rfl⟩
    have small : (a.tmod b).natAbs < b.natAbs := by
      rw [Int.natAbs_tmod]
      exact Nat.mod_lt _ (Int.natAbs_pos.2 divisor)
    refine .quotient (r := a.tmod b) ?_ small (Int.tmod_nonneg b) ?_
    · rw [Int.mul_comm]
      exact (Int.mul_tdiv_add_tmod a b).symm
    · intro nonpos
      have opposite : 0 ≤ (-a).tmod b := Int.tmod_nonneg b (by omega)
      rw [Int.neg_tmod] at opposite
      omega

theorem yields_iff : op.Yields a b c ↔ ¬ (op = .div ∧ b = 0) ∧ c = Number.exact op a b := by
  cases op with
  | div => simp [yields_div_iff, Number.exact]
  | add =>
      constructor
      · rintro ⟨⟩
        simp [Number.exact]
      · rintro ⟨_, rfl⟩
        exact .sum a b
  | sub =>
      constructor
      · rintro ⟨⟩
        simp [Number.exact]
      · rintro ⟨_, rfl⟩
        exact .difference a b
  | mul =>
      constructor
      · rintro ⟨⟩
        simp [Number.exact]
      · rintro ⟨_, rfl⟩
        exact .product a b

end Steps

/-! ## Folding -/

section Folding

open Number

variable {op : Operator} {a b n : Int64} {c : Int} {ns before : List Int64}

theorem checked_toInt (n : Int64) : checked n.toInt = .ok n := by
  have inside : Int64.minValue.toInt ≤ n.toInt ∧ n.toInt ≤ Int64.maxValue.toInt :=
    ⟨Int64.le_toInt n, Int64.toInt_le n⟩
  unfold checked
  rw [if_pos inside, Int64.ofInt_toInt]

theorem checked_outside (outside : c < -2 ^ 63 ∨ 2 ^ 63 ≤ c) : checked c = .error .overflow := by
  have lowest : Int64.minValue.toInt = -2 ^ 63 := by decide
  have highest : Int64.maxValue.toInt = 2 ^ 63 - 1 := by decide
  unfold checked
  rw [if_neg (by omega)]

theorem exists_toInt (inside : ¬ (c < -2 ^ 63 ∨ 2 ^ 63 ≤ c)) : ∃ n : Int64, n.toInt = c :=
  ⟨Int64.ofInt c, Int64.toInt_ofInt_of_le (by omega) (by omega)⟩

theorem toInt_eq_zero_iff : n.toInt = 0 ↔ n = 0 := by
  rw [← Int64.toInt_zero, Int64.toInt_inj]

/-- One step is made on unbounded integers and checked afterwards. -/
theorem combine_of_yields (yields : op.Yields a.toInt n.toInt c) :
    combine op (.int a) (.int n) = (checked c).map .int := by
  obtain ⟨notByZero, rfl⟩ := yields_iff.1 yields
  rw [toInt_eq_zero_iff] at notByZero
  unfold combine
  rw [if_neg (by simpa [isZero] using notByZero)]

/-- Folding goes on from what has been reached. -/
theorem combineAll_of_folds (folds : op.Folds a before b) (after : List Int64) :
    combineAll op (.int a) ((before ++ after).map .int) =
      combineAll op (.int b) (after.map .int) := by
  induction folds with
  | done a => rfl
  | step yields _ ih =>
      have step := combine_of_yields yields
      rw [checked_toInt] at step
      simp only [List.cons_append, List.map_cons, combineAll, step, Except.map]
      exact ih

/-- The loop ends as the fold does. -/
theorem combineAll_of_ends {r : Except ArithmeticFault Int64} (ends : op.Ends a ns r) :
    combineAll op (.int a) (ns.map .int) = r.map .int := by
  cases ends with
  | result folds =>
      have reached := combineAll_of_folds folds []
      simpa [combineAll, Except.map] using reached
  | divisionByZero split folds isDiv =>
      rw [split, combineAll_of_folds folds]
      simp [combineAll, combine, isZero, isDiv, Except.map]
  | overflow split folds yields outside =>
      have step := combine_of_yields yields
      rw [checked_outside outside] at step
      rw [split, combineAll_of_folds folds]
      simp [combineAll, step, Except.map]

/-- A fold ends as the rest of it does behind a step that succeeds. -/
theorem Ends.step {r : Except ArithmeticFault Int64} (yields : op.Yields a.toInt n.toInt b.toInt)
    (ends : op.Ends b ns r) : op.Ends a (n :: ns) r := by
  cases ends with
  | result folds => exact .result (.step yields folds)
  | divisionByZero split folds isDiv =>
      exact .divisionByZero (congrArg (n :: ·) split) (.step yields folds) isDiv
  | overflow split folds fails outside =>
      exact .overflow (congrArg (n :: ·) split) (.step yields folds) fails outside

theorem exists_ends (op : Operator) (a : Int64) (ns : List Int64) : ∃ r, op.Ends a ns r := by
  -- Induction on the operands: either the first step fails, or the rest decides.
  induction ns generalizing a with
  | nil => exact ⟨.ok a, .result (.done a)⟩
  | cons n ns ih =>
      by_cases byZero : op = .div ∧ n = 0
      · obtain ⟨isDiv, rfl⟩ := byZero
        exact ⟨_, .divisionByZero (List.nil_append _).symm (.done a) isDiv⟩
      · have yields : op.Yields a.toInt n.toInt (exact op a.toInt n.toInt) := by
          rw [yields_iff, toInt_eq_zero_iff]
          exact ⟨byZero, rfl⟩
        by_cases outside : exact op a.toInt n.toInt < -2 ^ 63 ∨ 2 ^ 63 ≤ exact op a.toInt n.toInt
        · exact ⟨_, .overflow (List.nil_append _).symm (.done a) yields outside⟩
        · obtain ⟨b, value⟩ := exists_toInt outside
          obtain ⟨r, ends⟩ := ih b
          exact ⟨r, ends.step (value ▸ yields)⟩

theorem Ends.unique {r r' : Except ArithmeticFault Int64} (ends : op.Ends a ns r)
    (ends' : op.Ends a ns r') : r = r' := by
  have same : r.map Number.int = r'.map Number.int :=
    (combineAll_of_ends ends).symm.trans (combineAll_of_ends ends')
  cases r with
  | ok c => cases r' with
    | ok c' => simpa [Except.map] using same
    | error fault => cases same
  | error fault => cases r' with
    | ok c' => cases same
    | error fault' => simpa [Except.map] using same

end Folding

/-! ## Answers -/

section Answers

variable {op : Operator} {numbers ns : List Int64} {a : Int64} {o o' : Object}

theorem exists_starts (op : Operator) (first : Int64) (numbers : List Int64) :
    ∃ a ns, op.Starts (first :: numbers) a ns := by
  cases numbers with
  | cons n ns => exact ⟨first, n :: ns, .several op first n ns⟩
  | nil => cases op with
    | add => exact ⟨0, [first], .term first (.inl rfl)⟩
    | sub => exact ⟨0, [first], .term first (.inr rfl)⟩
    | mul => exact ⟨1, [first], .factor first (.inl rfl)⟩
    | div => exact ⟨1, [first], .factor first (.inr rfl)⟩

theorem apply_of_starts (starts : op.Starts numbers a ns) :
    Number.apply op (numbers.map .int) = Number.combineAll op (.int a) (ns.map .int) := by
  cases starts with
  | several => rfl
  | term n kind => rcases kind with rfl | rfl <;> rfl
  | factor n kind => rcases kind with rfl | rfl <;> rfl

theorem Starts.unique {a' : Int64} {ns' : List Int64} (starts : op.Starts numbers a ns)
    (starts' : op.Starts numbers a' ns') : a = a' ∧ ns = ns' := by
  cases starts with
  | several =>
      cases starts'
      exact ⟨rfl, rfl⟩
  | term n kind => cases starts' with
    | term => exact ⟨rfl, rfl⟩
    | factor _ kind' => rcases kind with rfl | rfl <;> simp at kind'
  | factor n kind => cases starts' with
    | factor => exact ⟨rfl, rfl⟩
    | term _ kind' => rcases kind with rfl | rfl <;> simp at kind'

theorem exists_answer (op : Operator) (numbers : List Int64) : ∃ o, op.Answer numbers o := by
  cases numbers with
  | nil => cases op with
    | add => exact ⟨_, .emptySum⟩
    | mul => exact ⟨_, .emptyProduct⟩
    | sub => exact ⟨_, .tooFew (.inl rfl)⟩
    | div => exact ⟨_, .tooFew (.inr rfl)⟩
  | cons first numbers =>
      obtain ⟨a, ns, starts⟩ := exists_starts op first numbers
      obtain ⟨r, ends⟩ := exists_ends op a ns
      exact ⟨_, .folded starts ends⟩

theorem Answer.unique (answer : op.Answer numbers o) (answer' : op.Answer numbers o') : o = o' := by
  cases answer with
  | emptySum => cases answer' with
    | emptySum => rfl
    | tooFew kind => simp at kind
    | folded starts _ => cases starts
  | emptyProduct => cases answer' with
    | emptyProduct => rfl
    | tooFew kind => simp at kind
    | folded starts _ => cases starts
  | tooFew kind => cases answer' with
    | emptySum => simp at kind
    | emptyProduct => simp at kind
    | tooFew => rfl
    | folded starts _ => cases starts
  | folded starts ends => cases answer' with
    | folded starts' ends' =>
        obtain ⟨rfl, rfl⟩ := starts.unique starts'
        rw [ends.unique ends']
    | _ => cases starts

end Answers

end Operator

/-! ## Calling the primitive -/

namespace Heap

/-- The value is a proper list of integers and fixnums with these numbers. -/
def ListsIntegers (h : Heap) (args : Value) (numbers : List Int64) : Prop :=
  ∃ items, h.Spine args items .nil ∧
    List.Forall₂ (fun v n => h.object? v = some (.int n) ∨ h.object? v = some (.fixnum n))
      items numbers

variable {h : Heap} {args : Value} {numbers : List Int64}

/-- Only nil lists no integers. -/
theorem ListsIntegers.isNil_iff (listed : h.ListsIntegers args numbers) :
    args.isNil = true ↔ numbers = [] := by
  obtain ⟨items, spine, integers⟩ := listed
  cases spine with
  | done => cases integers; simp [Value.isNil]
  | step goes _ =>
      cases integers
      cases args with
      | nil => cases goes
      | slot i => simp [Value.isNil]

end Heap

namespace HeapM

open Number

variable {h : Heap} {args : Value} {numbers : List Int64} {op : Operator} {answer : Object}

/-- The operands are read off without a change of the heap. -/
theorem operandsOnto_eq {items : List Value} (who : String) (found : List Number)
    (integers : List.Forall₂
      (fun v n => h.object? v = some (.int n) ∨ h.object? v = some (.fixnum n)) items numbers) :
    operandsOnto who found items h = .ok (.ok ((numbers.map .int).reverse ++ found)) h := by
  induction integers generalizing found with
  | nil => rfl
  | @cons v n items numbers integer _ ih =>
      have first : operand who v h = .ok (.ok (.int n)) h := by
        unfold operand
        rw [get_bind_apply]
        rcases integer with integer | integer
        · rw [integer]
          rfl
        · rw [integer]
          rfl
      unfold operandsOnto
      simp only [bind, EStateM.bind, first]
      rw [ih, List.map_cons, List.reverse_cons, List.append_assoc, List.singleton_append]

theorem withNumbers_eq (who : String) (listed : h.ListsIntegers args numbers)
    (body : List Number → HeapM Fatal Value) :
    withNumbers who args body h = body (numbers.map .int) h := by
  obtain ⟨items, spine, integers⟩ := listed
  unfold withNumbers
  rw [get_bind_apply, Heap.items?_eq_some_iff.2 spine]
  have read := operandsOnto_eq who [] integers
  simp only [bind, EStateM.bind, read, List.append_nil, List.reverse_reverse]

/-- What the operator is applied to decides what is allocated. -/
theorem arithmetic_eq (listed : h.ListsIntegers args numbers) (answers : op.Answer numbers answer) :
    arithmetic op args h = allocate answer h := by
  unfold arithmetic
  cases answers with
  | tooFew kind =>
      have isNil := listed.isNil_iff.2 rfl
      rw [if_pos ⟨kind, isNil⟩]
      rfl
  | emptySum =>
      rw [if_neg (by simp), withNumbers_eq _ listed]
      rfl
  | emptyProduct =>
      rw [if_neg (by simp), withNumbers_eq _ listed]
      rfl
  | folded starts ends =>
      have some : ¬ args.isNil = true := by
        rw [listed.isNil_iff]
        rintro rfl
        cases starts
      rw [if_neg fun both => some both.2, withNumbers_eq _ listed,
        Operator.apply_of_starts starts, Operator.combineAll_of_ends ends]
      -- The number that is reached is allocated, or else the error that tells the fault.
      cases ends with
      | result => rfl
      | divisionByZero => rfl
      | overflow => rfl

end HeapM

/-! ## Exactness -/

variable {h : Heap} {args : Value} {numbers : List Int64}

/--
Arithmetic on integers is exact or says that it is not. Whatever integers a proper list has, there
is one answer to an operator: what the exact fold comes to if each result on the way has 64 bits,
and else the error of the first step that fails. Calling the primitive is allocating this answer and
does nothing else; so if memory has room for it, perhaps only after a collection, it is returned.
-/
theorem arithmetic_on_integers (op : Operator) (tidy : h.Tidy)
    (listed : h.ListsIntegers args numbers) :
    ∃ answer, (∀ o, op.Answer numbers o ↔ o = answer) ∧
      (Primitive.arithmetic op).call args h = HeapM.allocate answer h ∧
      (h.makeRoom.live < h.capacity →
        ∃ v h', (Primitive.arithmetic op).call args h = .ok v h' ∧ h'.object? v = some answer) := by
  obtain ⟨answer, answers⟩ := Operator.exists_answer op numbers
  have call : (Primitive.arithmetic op).call args h = HeapM.allocate answer h :=
    HeapM.arithmetic_eq listed answers
  refine ⟨answer, ?_, call, ?_⟩
  · intro o
    constructor
    · intro answers'
      exact answers'.unique answers
    · rintro rfl
      exact answers
  · intro room
    rcases HeapM.allocate_cases h answer with ⟨_, step⟩ | ⟨full, _⟩
    · exact ⟨_, _, call.trans step, Heap.object?_of_allocate tidy step⟩
    · omega

/-- A heap with a list of the least integer, the fixnum -1 and nought. -/
def divisible : Heap :=
  { Heap.empty 16 with
    slots := (Heap.empty 16).slots ++ #[⟨some (.int Int64.minValue), false⟩,
      ⟨some (.fixnum (-1)), false⟩, ⟨some (.int 0), false⟩, ⟨some (.pair (.slot 4) .nil), false⟩,
      ⟨some (.pair (.slot 3) (.slot 5)), false⟩, ⟨some (.pair (.slot 2) (.slot 6)), false⟩]
    live := 8 }

/-- The quotient of the first two has too many bits, which comes before division by nought. -/
theorem arithmetic_on_integers_divisible :
    divisible.Tidy ∧ divisible.ListsIntegers (.slot 7) [Int64.minValue, -1, 0] ∧
      divisible.makeRoom.live < divisible.capacity ∧
      ∃ v h', (Primitive.arithmetic .div).call (.slot 7) divisible = .ok v h' ∧
        h'.object? v = some (.error .overflow "integer overflow in /") := by
  have tidy : divisible.Tidy := ⟨List.nodup_nil, List.forall_mem_nil _, by decide⟩
  have listed : divisible.ListsIntegers (.slot 7) [Int64.minValue, -1, 0] := by
    refine ⟨[.slot 2, .slot 3, .slot 4], ?_, ?_⟩
    · exact .step rfl (.step rfl (.step rfl (.done rfl)))
    · exact .cons (.inl rfl) (.cons (.inr rfl) (.cons (.inl rfl) .nil))
  have room : divisible.makeRoom.live < divisible.capacity := by decide
  have yields : Operator.Yields .div Int64.minValue.toInt (-1 : Int64).toInt (2 ^ 63) :=
    .quotient (r := 0) (by decide) (by decide) (by decide) (by decide)
  have answers : Operator.Answer .div [Int64.minValue, -1, 0]
      (Operator.object .div (.error .overflow)) :=
    .folded (.several _ _ _ _)
      (.overflow (List.nil_append _).symm (.done _) yields (.inr (by decide)))
  obtain ⟨answer, only, _, returned⟩ := arithmetic_on_integers .div tidy listed
  obtain ⟨v, h', called, found⟩ := returned room
  rw [← (only _).1 answers] at found
  exact ⟨tidy, listed, room, v, h', called, found⟩

end Lisplet
