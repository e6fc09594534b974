import Lisplet.Proofs.Machine.Scanning

/-!
# Syntax — what is an instruction

The shapes of instructions as relations between values on the heap and what they stand for. Reading
an instruction decides them: a list of one of the shapes is read as what the shape stands for, a
list with the name of no instruction is reported by that name, and any other value is malformed.
-/

namespace Lisplet

/-! ## Shapes -/

namespace Heap

/-- A value is the symbol of a name. -/
def IsNamed (h : Heap) (v : Value) (name : String) : Prop :=
  h.object? v = some (.symbol name)

/-- A value is a list `(tag item)`. -/
def IsTagged (h : Heap) (v : Value) (tag : String) (item : Value) : Prop :=
  ∃ head, h.IsNamed head tag ∧ h.Spine v [head, item] .nil

end Heap

/-- `(const d)`, `(label l)` or `(reg r)`. A constant is the very value that is quoted. -/
inductive Operand.Shape (h : Heap) : Value → Operand → Prop where
  | const {v datum : Value} : h.IsTagged v "const" datum → Shape h v (.const datum)
  | label {v item : Value} {name : String} :
      h.IsTagged v "label" item → h.IsNamed item name → Shape h v (.label name)
  | reg {v item : Value} {name : String} :
      h.IsTagged v "reg" item → h.IsNamed item name → Shape h v (.reg name)

/-- `(label l)` or `(reg r)`. -/
inductive Location.Shape (h : Heap) : Value → Location → Prop where
  | label {v item : Value} {name : String} :
      h.IsTagged v "label" item → h.IsNamed item name → Shape h v (.label name)
  | reg {v item : Value} {name : String} :
      h.IsTagged v "reg" item → h.IsNamed item name → Shape h v (.reg name)

/-- `(op o)` and then operands, each of which stands for the one in the same place. -/
inductive OperationShape (h : Heap) : List Value → String → List Operand → Prop where
  | op {v item : Value} {values : List Value} {name : String} {operands : List Operand} :
      h.IsTagged v "op" item → h.IsNamed item name →
        List.Forall₂ (Operand.Shape h) values operands →
          OperationShape h (v :: values) name operands

/-- A list with these elements is an instruction. -/
inductive Instruction.Shape (h : Heap) : List Value → Instruction → Prop where
  /-- `(assign r E)` -/
  | assign {head target value : Value} {register : String} {operand : Operand} :
      h.IsNamed head "assign" → h.IsNamed target register → Operand.Shape h value operand →
        Shape h [head, target, value] (.assign register (.operand operand))
  /-- `(assign r (op o) E*)` -/
  | assignOp {head target : Value} {values : List Value} {register name : String}
      {operands : List Operand} :
      h.IsNamed head "assign" → h.IsNamed target register →
        OperationShape h values name operands →
          Shape h (head :: target :: values) (.assign register (.op name operands))
  /-- `(test (op o) E*)` -/
  | test {head : Value} {values : List Value} {name : String} {operands : List Operand} :
      h.IsNamed head "test" → OperationShape h values name operands →
        Shape h (head :: values) (.test name operands)
  /-- `(perform (op o) E*)` -/
  | perform {head : Value} {values : List Value} {name : String} {operands : List Operand} :
      h.IsNamed head "perform" → OperationShape h values name operands →
        Shape h (head :: values) (.perform name operands)
  /-- `(branch (label l))` -/
  | branch {head target item : Value} {name : String} :
      h.IsNamed head "branch" → h.IsTagged target "label" item → h.IsNamed item name →
        Shape h [head, target] (.branch name)
  /-- `(goto (label l))` or `(goto (reg r))` -/
  | goto {head target : Value} {location : Location} :
      h.IsNamed head "goto" → Location.Shape h target location →
        Shape h [head, target] (.goto location)
  /-- `(save r)` -/
  | saveRegister {head target : Value} {register : String} :
      h.IsNamed head "save" → h.IsNamed target register →
        Shape h [head, target] (.save (.reg register))
  /-- `(save (label l))` or `(save (reg r))` -/
  | save {head target : Value} {location : Location} :
      h.IsNamed head "save" → Location.Shape h target location →
        Shape h [head, target] (.save location)
  /-- `(restore r)` -/
  | restore {head target : Value} {register : String} :
      h.IsNamed head "restore" → h.IsNamed target register →
        Shape h [head, target] (.restore register)

namespace Instruction

/-- The name that an instruction of a kind begins with. -/
def mnemonic : Instruction → String
  | .assign _ _ => "assign"
  | .test _ _ => "test"
  | .branch _ => "branch"
  | .goto _ => "goto"
  | .perform _ _ => "perform"
  | .save _ => "save"
  | .restore _ => "restore"

def names : List String := ["assign", "test", "branch", "goto", "perform", "save", "restore"]

/-- A list with these elements begins with a symbol that names no instruction. -/
def Misnames (h : Heap) (items : List Value) (name : String) : Prop :=
  ∃ head args, items = head :: args ∧ h.IsNamed head name ∧ name ∉ names

end Instruction

/-! ## Parts of an instruction -/

namespace Heap

variable {h : Heap} {v : Value} {name name' : String}

theorem symbolName?_eq_some_iff : h.symbolName? v = some name ↔ h.IsNamed v name := by
  unfold symbolName? IsNamed
  split
  · next found => simp [found]
  · next other =>
    refine ⟨nofun, fun named => ?_⟩
    exact absurd named (other name)

theorem IsNamed.unique (one : h.IsNamed v name) (other : h.IsNamed v name') : name = name' := by
  have same := one.symm.trans other
  cases same
  rfl

theorem IsTagged.unique {tag tag' : String} {item item' : Value} (one : h.IsTagged v tag item)
    (other : h.IsTagged v tag' item') : tag = tag' ∧ item = item' := by
  rcases one with ⟨head, named, spine⟩
  rcases other with ⟨head', named', spine'⟩
  have same := (spine.unique spine').1
  cases same
  exact ⟨named.unique named', rfl⟩

/-- A symbol is not a list. -/
theorem IsNamed.not_isTagged (named : h.IsNamed v name) (tag : String) (item : Value) :
    ¬ h.IsTagged v tag item := by
  rintro ⟨head, -, spine⟩
  cases spine with
  | step goes _ =>
      have isPair := pair?_eq_some_iff.1 goes
      cases named.symm.trans isPair

end Heap

namespace Instruction

variable {h : Heap} {v : Value} {i : Instruction}

theorem tagged?_eq_some_iff {tag : String} {item : Value} :
    tagged? h v = some (tag, item) ↔ h.IsTagged v tag item := by
  unfold tagged? Heap.IsTagged
  constructor
  · intro found
    split at found
    · next head item' items =>
      rcases Option.map_eq_some_iff.1 found with ⟨name, named, same⟩
      cases same
      exact ⟨head, Heap.symbolName?_eq_some_iff.1 named, Heap.items?_eq_some_iff.1 items⟩
    · cases found
  · rintro ⟨head, named, spine⟩
    simp only [Heap.items?_eq_some_iff.2 spine, Heap.symbolName?_eq_some_iff.2 named,
      Option.map_some]

theorem symbol_eq_ok_iff {flaw : Flaw} {name : String} :
    symbol h v flaw = .ok name ↔ h.IsNamed v name := by
  rw [← Heap.symbolName?_eq_some_iff]
  unfold symbol
  split <;> simp [*]

theorem operand_eq_ok_iff {o : Operand} : operand h v = .ok o ↔ Operand.Shape h v o := by
  constructor
  · intro read
    unfold operand at read
    split at read
    · next datum tagged =>
      cases read
      exact .const (tagged?_eq_some_iff.1 tagged)
    · next item tagged =>
      rcases map_eq_ok_iff.1 read with ⟨name, named, rfl⟩
      exact .label (tagged?_eq_some_iff.1 tagged) (symbol_eq_ok_iff.1 named)
    · next item tagged =>
      rcases map_eq_ok_iff.1 read with ⟨name, named, rfl⟩
      exact .reg (tagged?_eq_some_iff.1 tagged) (symbol_eq_ok_iff.1 named)
    · cases read
  · intro shape
    unfold operand
    cases shape with
    | const tagged => simp only [tagged?_eq_some_iff.2 tagged]
    | label tagged named =>
        simp only [tagged?_eq_some_iff.2 tagged]
        exact map_eq_ok_iff.2 ⟨_, symbol_eq_ok_iff.2 named, rfl⟩
    | reg tagged named =>
        simp only [tagged?_eq_some_iff.2 tagged]
        exact map_eq_ok_iff.2 ⟨_, symbol_eq_ok_iff.2 named, rfl⟩

theorem location_eq_ok_iff {l : Location} : location h v = .ok l ↔ Location.Shape h v l := by
  constructor
  · intro read
    unfold location at read
    split at read
    · next name isLabel =>
      cases read
      cases operand_eq_ok_iff.1 isLabel with
      | label tagged named => exact .label tagged named
    · next name isRegister =>
      cases read
      cases operand_eq_ok_iff.1 isRegister with
      | reg tagged named => exact .reg tagged named
    · cases read
    · cases read
  · intro shape
    unfold location
    cases shape with
    | label tagged named => simp only [operand_eq_ok_iff.2 (.label tagged named)]
    | reg tagged named => simp only [operand_eq_ok_iff.2 (.reg tagged named)]

theorem isOp_iff : isOp h v = true ↔ ∃ item, h.IsTagged v "op" item := by
  unfold isOp
  constructor
  · intro isOp
    split at isOp
    · next tag item tagged =>
      have same : tag = "op" := beq_iff_eq.1 isOp
      exact ⟨item, tagged?_eq_some_iff.1 (same ▸ tagged)⟩
    · cases isOp
  · rintro ⟨item, tagged⟩
    simp only [tagged?_eq_some_iff.2 tagged, beq_self_eq_true]

/-- An operand never has the form of an operation. -/
theorem isOp_of_shape {o : Operand} (shape : Operand.Shape h v o) : isOp h v = false := by
  rw [Bool.eq_false_iff]
  intro isOp
  rcases isOp_iff.1 isOp with ⟨item, tagged⟩
  cases shape with
  | const other | label other _ | reg other _ => exact absurd (tagged.unique other).1 (by decide)

theorem operation_eq_ok_iff {values : List Value} {name : String} {operands : List Operand} :
    operation h v values = .ok (name, operands) ↔
      OperationShape h (v :: values) name operands := by
  have each : values.mapM (operand h) = .ok operands ↔
      List.Forall₂ (Operand.Shape h) values operands := by
    simp only [mapM_eq_ok_iff, operand_eq_ok_iff]
  constructor
  · intro read
    unfold operation at read
    split at read
    · next item tagged =>
      rcases bind_eq_ok_iff.1 read with ⟨name', named, rest⟩
      rcases bind_eq_ok_iff.1 rest with ⟨operands', all, same⟩
      cases same
      exact .op (tagged?_eq_some_iff.1 tagged) (symbol_eq_ok_iff.1 named) (each.1 all)
    · cases read
  · intro shape
    cases shape with
    | op tagged named all =>
        unfold operation
        simp only [tagged?_eq_some_iff.2 tagged]
        exact bind_eq_ok_iff.2 ⟨name, symbol_eq_ok_iff.2 named,
          bind_eq_ok_iff.2 ⟨operands, each.2 all, rfl⟩⟩

/-! ## One kind of instruction after the other -/

variable {head : Value} {args : List Value}

theorem Shape.isNamed {items : List Value} (shape : Shape h items i) :
    ∃ head args, items = head :: args ∧ h.IsNamed head i.mnemonic := by
  cases shape with
  | assign named _ _ | assignOp named _ _ | test named _ | perform named _ | branch named _ _
    | goto named _ | saveRegister named _ | save named _ | restore named _ =>
      exact ⟨_, _, rfl, named⟩

/-- The kind of an instruction is the one that its name says. -/
theorem Shape.mnemonic_eq {name : String} (shape : Shape h (head :: args) i)
    (named : h.IsNamed head name) : i.mnemonic = name := by
  rcases shape.isNamed with ⟨head', args', same, named'⟩
  cases same
  exact named'.unique named

theorem assignment_eq_ok_iff (named : h.IsNamed head "assign") :
    assignment h args = .ok i ↔ Shape h (head :: args) i := by
  constructor
  · intro read
    rcases args with _ | ⟨target, _ | ⟨first, rest⟩⟩
    · cases read
    · rcases bind_eq_ok_iff.1 read with ⟨register, -, settled⟩
      cases settled
    · rcases bind_eq_ok_iff.1 read with ⟨register, found, settled⟩
      have isTarget := symbol_eq_ok_iff.1 found
      dsimp only at settled
      split at settled
      · next alone =>
        rcases bind_eq_ok_iff.1 settled with ⟨o, found, same⟩
        cases same
        have last : rest = [] := by simpa using (Bool.and_eq_true_iff.1 alone).1
        cases last
        exact .assign named isTarget (operand_eq_ok_iff.1 found)
      · rcases bind_eq_ok_iff.1 settled with ⟨⟨name, operands⟩, found, same⟩
        cases same
        exact .assignOp named isTarget (operation_eq_ok_iff.1 found)
  · intro shape
    have kind := shape.mnemonic_eq named
    cases shape with
    | @assign _ target value register operand _ isTarget isOperand =>
        refine bind_eq_ok_iff.2 ⟨register, symbol_eq_ok_iff.2 isTarget, ?_⟩
        simp only [List.isEmpty_nil, isOp_of_shape isOperand, Bool.not_false, Bool.and_self,
          if_true]
        exact bind_eq_ok_iff.2 ⟨operand, operand_eq_ok_iff.2 isOperand, rfl⟩
    | @assignOp _ target values register name operands _ isTarget operation =>
        cases operation with
        | @op first item rest _ _ tagged isName all =>
            refine bind_eq_ok_iff.2 ⟨register, symbol_eq_ok_iff.2 isTarget, ?_⟩
            have isOperation : isOp h first = true := isOp_iff.2 ⟨item, tagged⟩
            simp only [isOperation, Bool.not_true, Bool.and_false, Bool.false_eq_true, if_false]
            exact bind_eq_ok_iff.2 ⟨(name, operands),
              operation_eq_ok_iff.2 (.op tagged isName all), rfl⟩
    | _ => simp [mnemonic] at kind

theorem operationAlone_eq_ok_iff {make : String → List Operand → Instruction} :
    operationAlone h make args = .ok i ↔
      ∃ name operands, i = make name operands ∧ OperationShape h args name operands := by
  constructor
  · intro read
    rcases args with _ | ⟨op, rest⟩
    · cases read
    · rcases bind_eq_ok_iff.1 read with ⟨⟨name, operands⟩, found, same⟩
      cases same
      exact ⟨name, operands, rfl, operation_eq_ok_iff.1 found⟩
  · rintro ⟨name, operands, rfl, shape⟩
    cases shape with
    | op tagged named all =>
        exact bind_eq_ok_iff.2 ⟨(name, operands),
          operation_eq_ok_iff.2 (.op tagged named all), rfl⟩

theorem testing_eq_ok_iff (named : h.IsNamed head "test") :
    operationAlone h .test args = .ok i ↔ Shape h (head :: args) i := by
  rw [operationAlone_eq_ok_iff]
  constructor
  · rintro ⟨name, operands, rfl, operation⟩
    exact .test named operation
  · intro shape
    have kind := shape.mnemonic_eq named
    cases shape with
    | test _ operation => exact ⟨_, _, rfl, operation⟩
    | _ => simp [mnemonic] at kind

theorem performing_eq_ok_iff (named : h.IsNamed head "perform") :
    operationAlone h .perform args = .ok i ↔ Shape h (head :: args) i := by
  rw [operationAlone_eq_ok_iff]
  constructor
  · rintro ⟨name, operands, rfl, operation⟩
    exact .perform named operation
  · intro shape
    have kind := shape.mnemonic_eq named
    cases shape with
    | perform _ operation => exact ⟨_, _, rfl, operation⟩
    | _ => simp [mnemonic] at kind

theorem branching_eq_ok_iff (named : h.IsNamed head "branch") :
    branching h args = .ok i ↔ Shape h (head :: args) i := by
  constructor
  · intro read
    rcases args with _ | ⟨target, _ | ⟨second, rest⟩⟩
    · cases read
    · rcases bind_eq_ok_iff.1 read with ⟨o, found, same⟩
      cases operand_eq_ok_iff.1 found with
      | const _ | reg _ _ => cases same
      | label tagged isName =>
          cases same
          exact .branch named tagged isName
    · cases read
  · intro shape
    have kind := shape.mnemonic_eq named
    cases shape with
    | branch _ tagged isName =>
        exact bind_eq_ok_iff.2 ⟨_, operand_eq_ok_iff.2 (.label tagged isName), rfl⟩
    | _ => simp [mnemonic] at kind

theorem jumping_eq_ok_iff (named : h.IsNamed head "goto") :
    jumping h args = .ok i ↔ Shape h (head :: args) i := by
  constructor
  · intro read
    rcases args with _ | ⟨target, _ | ⟨second, rest⟩⟩
    · cases read
    · rcases map_eq_ok_iff.1 read with ⟨l, found, rfl⟩
      exact .goto named (location_eq_ok_iff.1 found)
    · cases read
  · intro shape
    have kind := shape.mnemonic_eq named
    cases shape with
    | goto _ isLocation => exact map_eq_ok_iff.2 ⟨_, location_eq_ok_iff.2 isLocation, rfl⟩
    | _ => simp [mnemonic] at kind

theorem saving_eq_ok_iff (named : h.IsNamed head "save") :
    saving h args = .ok i ↔ Shape h (head :: args) i := by
  constructor
  · intro read
    rcases args with _ | ⟨target, _ | ⟨second, rest⟩⟩
    · cases read
    · unfold saving at read
      dsimp only at read
      split at read
      · next name isName =>
        cases read
        exact .saveRegister named (Heap.symbolName?_eq_some_iff.1 isName)
      · rcases map_eq_ok_iff.1 read with ⟨l, found, rfl⟩
        exact .save named (location_eq_ok_iff.1 found)
    · cases read
  · intro shape
    have kind := shape.mnemonic_eq named
    cases shape with
    | saveRegister _ isName =>
        unfold saving
        simp only [Heap.symbolName?_eq_some_iff.2 isName]
    | @save _ target l _ isLocation =>
        -- A list is not a symbol, so the spelling by a symbol alone does not come first.
        have noSymbol : h.symbolName? target = none := by
          refine Option.eq_none_iff_forall_ne_some.2 fun name found => ?_
          have isName := Heap.symbolName?_eq_some_iff.1 found
          cases isLocation with
          | label tagged _ | reg tagged _ => exact isName.not_isTagged _ _ tagged
        unfold saving
        simp only [noSymbol]
        exact map_eq_ok_iff.2 ⟨l, location_eq_ok_iff.2 isLocation, rfl⟩
    | _ => simp [mnemonic] at kind

theorem restoring_eq_ok_iff (named : h.IsNamed head "restore") :
    restoring h args = .ok i ↔ Shape h (head :: args) i := by
  constructor
  · intro read
    rcases args with _ | ⟨target, _ | ⟨second, rest⟩⟩
    · cases read
    · rcases map_eq_ok_iff.1 read with ⟨register, found, rfl⟩
      exact .restore named (symbol_eq_ok_iff.1 found)
    · cases read
  · intro shape
    have kind := shape.mnemonic_eq named
    cases shape with
    | restore _ isName => exact map_eq_ok_iff.2 ⟨_, symbol_eq_ok_iff.2 isName, rfl⟩
    | _ => simp [mnemonic] at kind

/-! ## Reading as a whole -/

variable {element tail : Value} {items : List Value} {name : String}

theorem mnemonic_mem_names (i : Instruction) : i.mnemonic ∈ names := by
  cases i <;> simp [mnemonic, names]

/-- A list that begins with a symbol is read as the instruction of that name, if there is one. -/
theorem parse_of_named (found : h.items? element = some (head :: args))
    (named : h.IsNamed head name) :
    (name ∈ names ∧ ∃ read, parse h element = Except.mapError (.malformed (h.write element)) read ∧
      ∀ i, read = .ok i ↔ Shape h (head :: args) i) ∨
    name ∉ names ∧ parse h element = .error (.unknownInstruction name) := by
  unfold parse
  simp only [found, symbol_eq_ok_iff.2 named]
  split
  · next error => cases error
  · next same =>
    cases same
    exact .inl ⟨by decide, _, rfl, fun i => assignment_eq_ok_iff named⟩
  · next same =>
    cases same
    exact .inl ⟨by decide, _, rfl, fun i => testing_eq_ok_iff named⟩
  · next same =>
    cases same
    exact .inl ⟨by decide, _, rfl, fun i => performing_eq_ok_iff named⟩
  · next same =>
    cases same
    exact .inl ⟨by decide, _, rfl, fun i => branching_eq_ok_iff named⟩
  · next same =>
    cases same
    exact .inl ⟨by decide, _, rfl, fun i => jumping_eq_ok_iff named⟩
  · next same =>
    cases same
    exact .inl ⟨by decide, _, rfl, fun i => saving_eq_ok_iff named⟩
  · next same =>
    cases same
    exact .inl ⟨by decide, _, rfl, fun i => restoring_eq_ok_iff named⟩
  · next other noAssign noTest noPerform noBranch noGoto noSave noRestore same =>
    cases same
    refine .inr ⟨?_, rfl⟩
    simp only [names, List.mem_cons, List.not_mem_nil, or_false, not_or]
    exact ⟨noAssign, noTest, noBranch, noGoto, noPerform, noSave, noRestore⟩

/-- What else there is, is malformed: an improper list, nil, and a list that begins otherwise. -/
theorem parse_of_unnamed (spine : h.Spine element items tail)
    (unnamed : ¬ (tail = .nil ∧ ∃ head args name, items = head :: args ∧ h.IsNamed head name)) :
    ∃ flaw, parse h element = .error (.malformed (h.write element) flaw) := by
  unfold parse
  have found := Heap.items?_eq spine
  cases tail with
  | slot i =>
      rw [found]
      exact ⟨.notAList, rfl⟩
  | nil =>
      rw [found]
      cases items with
      | nil => exact ⟨.noName, rfl⟩
      | cons head args =>
          have noSymbol : h.symbolName? head = none := by
            refine Option.eq_none_iff_forall_ne_some.2 fun name isName => unnamed ?_
            exact ⟨rfl, head, args, name, rfl, Heap.symbolName?_eq_some_iff.1 isName⟩
          refine ⟨.nameNotSymbol, ?_⟩
          simp only [Value.isNil, if_true, symbol, noSymbol]
          rfl

/--
The three ways in which reading ends. In the first, a name decides which shape is looked for; in
the other two, no shape is looked for at all.
-/
theorem parse_cases (spine : h.Spine element items tail) :
    (∃ head args name, tail = .nil ∧ items = head :: args ∧ h.IsNamed head name ∧ name ∈ names ∧
      ∃ read, parse h element = Except.mapError (.malformed (h.write element)) read ∧
        ∀ i, read = .ok i ↔ Shape h items i) ∨
    (∃ name, tail = .nil ∧ Misnames h items name ∧
      parse h element = .error (.unknownInstruction name)) ∨
    ¬ (tail = .nil ∧ ∃ head args name, items = head :: args ∧ h.IsNamed head name) ∧
      ∃ flaw, parse h element = .error (.malformed (h.write element) flaw) := by
  by_cases isNamed : tail = .nil ∧ ∃ head args name, items = head :: args ∧ h.IsNamed head name
  · rcases isNamed with ⟨rfl, head, args, name, rfl, named⟩
    rcases parse_of_named (Heap.items?_eq_some_iff.2 spine) named with
      ⟨known, reads⟩ | ⟨other, parsed⟩
    · exact .inl ⟨head, args, name, rfl, rfl, named, known, reads⟩
    · exact .inr (.inl ⟨name, rfl, ⟨head, args, rfl, named, other⟩, parsed⟩)
  · exact .inr (.inr ⟨isNamed, parse_of_unnamed spine isNamed⟩)

/-- The shape of an instruction and a name that is none exclude each other. -/
theorem Shape.not_misnames (shape : Shape h items i) : ¬ Misnames h items name := by
  rintro ⟨head, args, rfl, named, other⟩
  exact other (shape.mnemonic_eq named ▸ mnemonic_mem_names i)

theorem Misnames.unique {name' : String} (one : Misnames h items name)
    (other : Misnames h items name') : name = name' := by
  rcases one with ⟨head, args, rfl, named, -⟩
  rcases other with ⟨head', args', same, named', -⟩
  cases same
  exact named.unique named'

theorem parse_eq_ok_iff_shape (spine : h.Spine element items tail) :
    parse h element = .ok i ↔ tail = .nil ∧ Shape h items i := by
  rcases parse_cases spine with ⟨head, args, name, ends, -, -, -, read, parsed, reads⟩ |
    ⟨name, ends, misnames, parsed⟩ | ⟨unnamed, flaw, parsed⟩
  · rw [parsed, mapError_eq_ok_iff, reads i, and_iff_right ends]
  · rw [parsed]
    refine ⟨nofun, fun ⟨_, shape⟩ => ?_⟩
    exact absurd misnames shape.not_misnames
  · rw [parsed]
    refine ⟨nofun, fun ⟨ends, shape⟩ => ?_⟩
    rcases shape.isNamed with ⟨head, args, same, named⟩
    exact absurd ⟨ends, head, args, _, same, named⟩ unnamed

/-- A heap with the list `(assign r (const (op o)))` in slot 11. -/
def quotation : Heap :=
  { Heap.empty 16 with
    slots := List.toArray <| List.map (fun o => ⟨some o, false⟩) [
      .symbol "assign", .symbol "r", .symbol "const", .symbol "op", .symbol "o",
      .pair (.slot 4) .nil, .pair (.slot 3) (.slot 5),
      .pair (.slot 6) .nil, .pair (.slot 2) (.slot 7),
      .pair (.slot 8) .nil, .pair (.slot 1) (.slot 9), .pair (.slot 0) (.slot 10)] }

end Instruction

end Lisplet
