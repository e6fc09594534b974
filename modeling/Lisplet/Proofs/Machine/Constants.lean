import Lisplet.Proofs.Machine.WellFormed
import Lisplet.Proofs.Termination.Upkeep

/-!
# Constants — the data that a program mentions

The constants in the code of a machine are parts of the list that its program was assembled from,
and nothing but the pin on that list keeps them. `PartOf d h whole v` says that `v` is reached from
`whole` through data; so as long as the list is kept, its parts are, whatever else is collected.
-/

namespace Lisplet

namespace Termination

open Simulation (Role)

variable {d d' : Layout} {h h' : Heap} {whole v w tail : Value} {items : List Value}

/-! ## Parts of data -/

/-- A value, or what it refers to directly or indirectly through data. -/
inductive PartOf (d : Layout) (h : Heap) (whole : Value) : Value → Prop where
  | self : PartOf d h whole whole
  | reference {i : Nat} {o : Object} {v : Value} : PartOf d h whole (.slot i) → d i = .datum →
      h.object? (.slot i) = some o → v ∈ o.references → PartOf d h whole v

namespace PartOf

theorem trans (part : PartOf d h whole v) (further : PartOf d h v w) : PartOf d h whole w := by
  induction further with
  | self => exact part
  | reference _ use found member ih => exact .reference ih use found member

theorem tethered (part : PartOf d h whole v) (tethered : Tethered d h whole) : Tethered d h v := by
  induction part with
  | self => exact tethered
  | reference _ use found member ih => exact .part ih use found member

/-- What is kept stays as it is, with all its parts. -/
theorem retained (part : PartOf d h whole v) (k : Retains d h d' h') (kept : Tethered d h whole) :
    PartOf d' h' whole v := by
  induction part with
  | self => exact .self
  | reference before use found member ih =>
      have there := before.tethered kept
      exact .reference ih ((k.uses _ there).trans use) ((k.objects _ there use).trans found) member

theorem congr (part : PartOf d h whole v) (same : ∀ v, h'.object? v = h.object? v) :
    PartOf d h' whole v := by
  induction part with
  | self => exact .self
  | reference _ use found member ih => exact .reference ih use ((same _).trans found) member

theorem fills (part : PartOf d h whole v) (a : Suited d h) (isDatum : Fills d .datum whole) :
    Fills d .datum v := by
  induction part with
  | self => exact isDatum
  | @reference i o v _ use found member _ =>
      have suits := a.suits i o found
      rw [use] at suits
      cases suits with
      | plain none _ =>
          rw [none] at member
          cases member
      | pair car cdr =>
          rcases List.mem_pair.1 member with rfl | rfl
          · exact car
          · exact cdr
      | @procedure params body env isParams isBody isEnv =>
          have listed : v = params ∨ v = body ∨ v = env.value := by
            simpa [Object.references] using member
          rcases listed with rfl | rfl | rfl
          · exact isParams
          · exact isBody
          · exact isEnv.datum

end PartOf

/-- The parts of a pair of data are parts of it. -/
theorem Suited.part_of_pair (a : Suited d h) (isDatum : Fills d .datum v) {car cdr : Value}
    (goes : h.pair? v = some (car, cdr)) : PartOf d h v car ∧ PartOf d h v cdr := by
  have found := Heap.pair?_eq_some_iff.1 goes
  cases isDatum with
  | nil => cases found
  | slot use =>
      exact ⟨.reference .self use found (by simp [Object.references]),
        .reference .self use found (by simp [Object.references])⟩
  | environment use =>
      rcases a.exists_environment_of_use use found with ⟨_, _, same⟩
      cases same

/-- The elements of a list are parts of it. -/
theorem Suited.part_of_spine (a : Suited d h) (isDatum : Fills d .datum v)
    (spine : h.Spine v items tail) : ∀ u ∈ items, PartOf d h v u := by
  induction spine with
  | done _ => exact List.forall_mem_nil _
  | step goes _ ih =>
      have parts := a.part_of_pair isDatum goes
      refine List.forall_mem_cons.2 ⟨parts.1, fun u member => ?_⟩
      exact parts.2.trans (ih (parts.2.fills a isDatum) u member)

theorem Suited.part_of_items (a : Suited d h) (isDatum : Fills d .datum v)
    (found : h.items? v = some items) (member : w ∈ items) :
    PartOf d h v w ∧ Fills d .datum w := by
  have part := a.part_of_spine isDatum (Heap.items?_eq_some_iff.1 found) w member
  exact ⟨part, part.fills a isDatum⟩

end Termination

/-! ## What instructions and code mention -/

/-- What an instruction fetches once its names are settled. -/
def Code.fetches : Code → List Fetch
  | .assign _ source | .save source => [source]
  | .assignCall _ call | .test call | .perform call => call.operands
  | _ => []

/-- The program of the machine has `v` as a constant. -/
def Machine.Mentions (m : Machine) (v : Value) : Prop :=
  ∃ program line, m.program = some program ∧ line ∈ program.lines ∧ .const v ∈ line.code.fetches

namespace Naming

variable {names : Naming} {v : Value}

theorem const_of_fetch {operand : Operand} (settled : names.fetch operand = .ok (.const v)) :
    operand = .const v := by
  cases operand with
  | const datum =>
      cases settled
      rfl
  | label name =>
      obtain ⟨_, _, same⟩ := map_eq_ok_iff.1 settled
      cases same
  | reg name =>
      obtain ⟨_, _, same⟩ := map_eq_ok_iff.1 settled
      cases same

theorem const_mem_of_call {name : String} {operands : List Operand} {c : Call}
    (settled : names.call name operands = .ok c) (member : .const v ∈ c.operands) :
    .const v ∈ operands := by
  obtain ⟨-, -, sources⟩ := call_eq_ok_iff.1 settled
  obtain ⟨operand, isOperand, fetched⟩ := exists_of_forall₂_right sources member
  exact const_of_fetch fetched ▸ isOperand

/-- To settle names brings no constant in. -/
theorem const_mem_of_resolve {instruction : Instruction} {code : Code}
    (settled : names.resolve instruction = .ok code) (member : .const v ∈ code.fetches) :
    .const v ∈ instruction.operands := by
  cases instruction with
  | assign register source =>
      cases source with
      | operand operand =>
          obtain ⟨_, _, rest⟩ := bind_eq_ok_iff.1 settled
          obtain ⟨source, fetched, same⟩ := bind_eq_ok_iff.1 rest
          cases same
          rw [← List.mem_singleton.1 member] at fetched
          exact List.mem_singleton.2 (const_of_fetch fetched).symm
      | op name operands =>
          obtain ⟨_, _, rest⟩ := bind_eq_ok_iff.1 settled
          obtain ⟨c, called, same⟩ := bind_eq_ok_iff.1 rest
          cases same
          exact const_mem_of_call called member
  | test name operands | perform name operands =>
      obtain ⟨c, called, rfl⟩ := map_eq_ok_iff.1 settled
      exact const_mem_of_call called member
  | branch label =>
      obtain ⟨_, _, rfl⟩ := map_eq_ok_iff.1 settled
      cases member
  | goto location =>
      cases location with
      | label name | reg name =>
          obtain ⟨_, _, rfl⟩ := map_eq_ok_iff.1 settled
          cases member
  | save location =>
      cases location with
      | label name | reg name =>
          obtain ⟨source, fetched, rfl⟩ := map_eq_ok_iff.1 settled
          rw [← List.mem_singleton.1 member] at fetched
          cases const_of_fetch fetched
  | restore register =>
      obtain ⟨_, _, rfl⟩ := map_eq_ok_iff.1 settled
      cases member

end Naming

/-! ## Constants are parts of the program -/

namespace Instruction

open Termination

variable {d : Layout} {h : Heap} {v element : Value} {i : Instruction}

theorem part_of_tagged? (a : Suited d h) (isDatum : Fills d .datum element) {tag : String}
    (found : tagged? h element = some (tag, v)) : PartOf d h element v := by
  unfold tagged? at found
  split at found
  · next first item items =>
    obtain ⟨_, _, same⟩ := Option.map_eq_some_iff.1 found
    cases same
    exact (a.part_of_items isDatum items (by simp)).1
  · cases found

theorem part_of_operand (a : Suited d h) (isDatum : Fills d .datum element)
    (read : operand h element = .ok (.const v)) : PartOf d h element v := by
  unfold operand at read
  split at read
  · next datum found =>
    cases read
    exact part_of_tagged? a isDatum found
  · obtain ⟨_, _, same⟩ := map_eq_ok_iff.1 read
    cases same
  · obtain ⟨_, _, same⟩ := map_eq_ok_iff.1 read
    cases same
  · cases read

/-- The constants of an operation are read off its operands. -/
theorem const_of_operation {op : Value} {values : List Value} {name : String}
    {operands : List Operand} (read : operation h op values = .ok (name, operands))
    (member : .const v ∈ operands) : ∃ w ∈ values, operand h w = .ok (.const v) := by
  unfold operation at read
  split at read
  · obtain ⟨_, _, rest⟩ := bind_eq_ok_iff.1 read
    obtain ⟨all, each, same⟩ := bind_eq_ok_iff.1 rest
    cases same
    exact exists_of_forall₂_right (R := fun w o => operand h w = .ok o) (mapM_eq_ok_iff.1 each)
      member
  · cases read

theorem const_of_assignment {args : List Value} (read : assignment h args = .ok i)
    (member : .const v ∈ i.operands) : ∃ w ∈ args, operand h w = .ok (.const v) := by
  rcases args with _ | ⟨target, _ | ⟨first, rest⟩⟩
  · cases read
  · obtain ⟨_, _, same⟩ := bind_eq_ok_iff.1 read
    cases same
  · obtain ⟨register, _, settled⟩ := bind_eq_ok_iff.1 read
    dsimp only at settled
    split at settled
    · obtain ⟨source, found, same⟩ := bind_eq_ok_iff.1 settled
      cases same
      cases List.mem_singleton.1 member
      exact ⟨first, by simp, found⟩
    · obtain ⟨⟨name, operands⟩, found, same⟩ := bind_eq_ok_iff.1 settled
      cases same
      obtain ⟨w, isOperand, read⟩ := const_of_operation found member
      exact ⟨w, by simp [isOperand], read⟩

theorem const_of_operationAlone {args : List Value} {make : String → List Operand → Instruction}
    (made : ∀ name operands, (make name operands).operands = operands)
    (read : operationAlone h make args = .ok i) (member : .const v ∈ i.operands) :
    ∃ w ∈ args, operand h w = .ok (.const v) := by
  rcases args with _ | ⟨op, rest⟩
  · cases read
  · obtain ⟨⟨name, operands⟩, found, same⟩ := bind_eq_ok_iff.1 read
    cases same
    rw [made] at member
    obtain ⟨w, isOperand, read⟩ := const_of_operation found member
    exact ⟨w, List.mem_cons_of_mem op isOperand, read⟩

theorem const_not_mem_location (l : Location) : .const v ∉ [l.operand] := by
  cases l with
  | label name => simp
  | reg name => simp

/-- All other instructions mention names alone. -/
theorem const_not_mem_of_named {args : List Value}
    (read : branching h args = .ok i ∨ jumping h args = .ok i ∨ saving h args = .ok i ∨
      restoring h args = .ok i) : .const v ∉ i.operands := by
  rcases args with _ | ⟨target, _ | ⟨second, rest⟩⟩
  · rcases read with read | read | read | read <;> cases read
  · rcases read with read | read | read | read
    · obtain ⟨operand, _, same⟩ := bind_eq_ok_iff.1 read
      cases operand with
      | label name =>
          cases same
          exact const_not_mem_location (.label name)
      | _ => cases same
    · obtain ⟨location, _, rfl⟩ := map_eq_ok_iff.1 read
      exact const_not_mem_location location
    · unfold saving at read
      dsimp only at read
      split at read
      · next name _ =>
        cases read
        exact const_not_mem_location (.reg name)
      · obtain ⟨location, _, rfl⟩ := map_eq_ok_iff.1 read
        exact const_not_mem_location location
    · obtain ⟨_, _, rfl⟩ := map_eq_ok_iff.1 read
      exact List.not_mem_nil
  · rcases read with read | read | read | read <;> cases read

/-- The constants of an instruction are parts of the list that it is read off. -/
theorem part_of_parse (a : Suited d h) (isDatum : Fills d .datum element)
    (read : parse h element = .ok i) (member : .const v ∈ i.operands) : PartOf d h element v := by
  have named {args : List Value} (read : branching h args = .ok i ∨ jumping h args = .ok i ∨
      saving h args = .ok i ∨ restoring h args = .ok i) : PartOf d h element v :=
    absurd member (const_not_mem_of_named read)
  unfold parse at read
  simp only at read
  split at read
  · cases mapError_eq_ok_iff.1 read
  · cases mapError_eq_ok_iff.1 read
  · next head args items =>
    have given (const : ∃ w ∈ args, operand h w = .ok (.const v)) : PartOf d h element v := by
      obtain ⟨w, isArg, read⟩ := const
      have part := a.part_of_items isDatum items (List.mem_cons_of_mem head isArg)
      exact part.1.trans (part_of_operand a part.2 read)
    split at read
    · cases mapError_eq_ok_iff.1 read
    · exact given (const_of_assignment (mapError_eq_ok_iff.1 read) member)
    · exact given (const_of_operationAlone (fun _ _ => rfl) (mapError_eq_ok_iff.1 read) member)
    · exact given (const_of_operationAlone (fun _ _ => rfl) (mapError_eq_ok_iff.1 read) member)
    · exact named (.inl (mapError_eq_ok_iff.1 read))
    · exact named (.inr (.inl (mapError_eq_ok_iff.1 read)))
    · exact named (.inr (.inr (.inl (mapError_eq_ok_iff.1 read))))
    · exact named (.inr (.inr (.inr (mapError_eq_ok_iff.1 read))))
    · cases read

end Instruction

namespace Bench

open Termination

variable {d : Layout} {b b' : Bench} {program v : Value}

/-- A machine that has just been given a program has no constants but parts of its list. -/
theorem part_of_install (a : Suited d b.heap) (isDatum : Fills d .datum program)
    (done : install program b = .ok () b') (mentions : b'.machine.Mentions v) :
    PartOf d b.heap program v := by
  have same : ∀ v, b.heap.object? v = (b.heap.pin program).2.object? v :=
    fun v => (Heap.object?_pin b.heap program v).symm
  obtain ⟨listing, scanned, assembled, installed, settled⟩ := follows_of_install done
  obtain ⟨elements, spine, taken⟩ := Listing.scan_eq_ok_iff.1 scanned
  obtain ⟨_, line, has, isLine, mentioned⟩ := mentions
  cases installed.symm.trans has
  -- The line comes from an instruction of the listing, and this from an element of the program.
  obtain ⟨entry, isEntry, -, resolved⟩ :=
    exists_of_forall₂_right settled (Array.mem_toList_iff.2 isLine)
  have known : entry.2 ∈ (b.heap.pin program).2.instructions elements := by
    have all := (Listing.scans_of_scanOnto taken).instructions
    rw [← List.nil_append ((b.heap.pin program).2.instructions elements)]
    exact all ▸ List.mem_map_of_mem isEntry
  rw [Heap.instructions_congr fun v => (same v).symm] at known
  obtain ⟨element, isElement, read⟩ := List.mem_filterMap.1 known
  have part := a.part_of_spine isDatum (spine.congr same) element isElement
  refine part.trans (Instruction.part_of_parse (i := entry.2) a (part.fills a isDatum) ?_
    (Naming.const_mem_of_resolve resolved mentioned))
  unfold Heap.instruction? at read
  split at read
  · cases read
  · cases parsed : Instruction.parse b.heap element with
    | ok i =>
        rw [parsed] at read
        cases read
        rfl
    | error e =>
        rw [parsed] at read
        cases read

end Bench

end Lisplet
