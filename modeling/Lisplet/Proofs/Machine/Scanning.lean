import Lisplet.Proofs.Heap.Spine
import Lisplet.Proofs.Machine.Assembled

/-!
# Scanning — a program taken apart

A program is taken apart element by element. This can be done just when whatever is no label can be
read as an instruction and no label is repeated, and what is left is the instructions in their order
and the labels with their positions.
-/

namespace Lisplet

/-! ## Elements -/

namespace Heap

variable {h : Heap} {elements : List Value} {v tail : Value}

/-- The labels in a program, by name. Symbols are interned, so no two of them share a name. -/
def labelNames (h : Heap) (elements : List Value) : List String :=
  elements.filterMap h.symbolName?

/-- The instruction that an element of a program stands for, if it is no label and there is one. -/
def instruction? (h : Heap) (element : Value) : Option Instruction :=
  match h.symbolName? element with
  | some _ => none
  | none => (Instruction.parse h element).toOption

def instructions (h : Heap) (elements : List Value) : List Instruction :=
  elements.filterMap h.instruction?

/-- How many elements are no labels. -/
def countLines (h : Heap) (elements : List Value) : Nat :=
  elements.countP fun element => (h.symbolName? element).isNone

/-- Whatever is no label is an instruction. -/
def Parses (h : Heap) (elements : List Value) : Prop :=
  ∀ element ∈ elements, h.symbolName? element = none →
    ∃ i, Instruction.parse h element = .ok i

theorem instruction?_of_symbol {element : Value} {name : String}
    (isLabel : h.symbolName? element = some name) : h.instruction? element = none := by
  rw [instruction?, isLabel]

theorem instruction?_of_parse {element : Value} {i : Instruction}
    (noLabel : h.symbolName? element = none) (parsed : Instruction.parse h element = .ok i) :
    h.instruction? element = some i := by
  rw [instruction?, noLabel, parsed]
  rfl

theorem length_instructions (parses : h.Parses elements) :
    (h.instructions elements).length = h.countLines elements := by
  induction elements with
  | nil => rfl
  | cons element elements ih =>
      have both := List.forall_mem_cons.1 parses
      unfold instructions countLines at ih ⊢
      rw [List.filterMap_cons, List.countP_cons]
      cases isLabel : h.symbolName? element with
      | some name =>
          rw [instruction?_of_symbol isLabel]
          simpa using ih both.2
      | none =>
          rcases both.1 isLabel with ⟨i, parsed⟩
          rw [instruction?_of_parse isLabel parsed]
          simpa using ih both.2

end Heap

namespace Listing

variable {h : Heap} {elements : List Value} {listing listing' : Listing} {name : String} {k : Nat}

theorem lookup_isSome_iff {l : List (String × Nat)} :
    (l.lookup name).isSome ↔ name ∈ l.map Prod.fst := by
  rw [← not_iff_not, Bool.not_eq_true, Option.isSome_eq_false_iff, Option.isNone_iff_eq_none,
    List.lookup_eq_none_iff]
  constructor
  · intro other member
    rcases List.mem_map.1 member with ⟨entry, isEntry, rfl⟩
    simpa using other entry isEntry
  · intro absent entry isEntry
    refine bne_iff_ne.2 ?_
    rintro rfl
    exact absent (List.mem_map_of_mem isEntry)

theorem lookup_of_mem {l : List (String × Nat)} (member : (name, k) ∈ l)
    (nodup : (l.map Prod.fst).Nodup) : l.lookup name = some k := by
  rcases List.append_of_mem member with ⟨before, after, rfl⟩
  refine List.lookup_eq_some_iff.2 ⟨before, after, rfl, fun entry isEntry => bne_iff_ne.2 ?_⟩
  rintro rfl
  rw [List.map_append, List.nodup_append] at nodup
  exact nodup.2.2 _ (List.mem_map_of_mem isEntry) _ (by simp) rfl

theorem labelNames_cons (element : Value) (elements : List Value) :
    h.labelNames (element :: elements) =
      (h.symbolName? element).toList ++ h.labelNames elements := by
  unfold Heap.labelNames
  rw [List.filterMap_cons]
  cases h.symbolName? element with
  | none => rfl
  | some name => rfl

/-- A program can be taken apart just when its instructions can be read and no label is repeated. -/
theorem exists_scanOnto_iff :
    (∃ listing', scanOnto h listing elements = .ok listing') ↔
      h.Parses elements ∧ (h.labelNames elements).Nodup ∧
        ∀ name ∈ h.labelNames elements, name ∉ listing.labels.map Prod.fst := by
  induction elements generalizing listing with
  | nil => exact ⟨fun _ => ⟨nofun, .nil, nofun⟩, fun _ => ⟨listing, rfl⟩⟩
  | cons element elements ih =>
      unfold scanOnto
      rw [labelNames_cons, Heap.Parses, List.forall_mem_cons, ← Heap.Parses]
      cases isLabel : h.symbolName? element with
      | some name =>
          simp only [Option.toList_some, List.singleton_append, List.nodup_cons,
            List.forall_mem_cons]
          by_cases old : name ∈ listing.labels.map Prod.fst
          · rw [if_pos (lookup_isSome_iff.2 old)]
            exact ⟨nofun, fun ⟨_, _, fresh, _⟩ => absurd old fresh⟩
          · rw [if_neg (mt lookup_isSome_iff.1 old), ih]
            -- The label is new, and stands in the way of those that come after it.
            constructor
            · rintro ⟨parses, nodup, fresh⟩
              refine ⟨⟨nofun, parses⟩, ⟨fun member => ?_, nodup⟩, old, fun other member => ?_⟩
              · exact fresh name member List.mem_cons_self
              · exact fun before => fresh other member (List.mem_cons_of_mem _ before)
            · rintro ⟨⟨-, parses⟩, ⟨single, nodup⟩, -, fresh⟩
              refine ⟨parses, nodup, fun other member before => ?_⟩
              rcases List.mem_cons.1 before with rfl | before
              · exact single member
              · exact fresh other member before
      | none =>
          cases parsed : Instruction.parse h element with
          | error e => simp
          | ok i => simp [ih]

/-- What a program taken apart has, after what was there before. -/
structure Scans (h : Heap) (listing : Listing) (elements : List Value) (listing' : Listing) :
    Prop where
  instructions : listing'.lines.toList.map Prod.snd =
    listing.lines.toList.map Prod.snd ++ h.instructions elements
  names : listing'.labels.map Prod.fst =
    (h.labelNames elements).reverse ++ listing.labels.map Prod.fst
  old : ∀ entry ∈ listing.labels, entry ∈ listing'.labels
  position : ∀ before element after name, elements = before ++ element :: after →
    h.symbolName? element = some name →
      (name, listing.lines.size + h.countLines before) ∈ listing'.labels

namespace Scans

variable {element : Value}

theorem nil (h : Heap) (listing : Listing) : Scans h listing [] listing := by
  refine ⟨?_, ?_, fun _ => id, ?_⟩
  · simp [Heap.instructions]
  · simp [Heap.labelNames]
  · simp

/-- A label notes the number of lines in front of it. -/
theorem label (isLabel : h.symbolName? element = some name)
    (rest : Scans h { listing with labels := (name, listing.lines.size) :: listing.labels }
      elements listing') : Scans h listing (element :: elements) listing' := by
  refine ⟨?_, ?_, fun entry member => rest.old _ (List.mem_cons_of_mem _ member), ?_⟩
  · rw [rest.instructions, Heap.instructions, Heap.instructions, List.filterMap_cons,
      Heap.instruction?_of_symbol isLabel]
  · rw [rest.names, labelNames_cons, isLabel]
    simp
  · intro before other after otherName split isOther
    cases before with
    | nil =>
        cases split
        cases isLabel.symm.trans isOther
        exact rest.old _ List.mem_cons_self
    | cons first before =>
        cases split
        have later := rest.position before other after otherName rfl isOther
        simpa [Heap.countLines, isLabel] using later

/-- An instruction is one more line. -/
theorem instruction {text : String} {i : Instruction} (noLabel : h.symbolName? element = none)
    (parsed : Instruction.parse h element = .ok i)
    (rest : Scans h { listing with lines := listing.lines.push (text, i) } elements listing') :
    Scans h listing (element :: elements) listing' := by
  refine ⟨?_, ?_, rest.old, ?_⟩
  · rw [rest.instructions, Heap.instructions, Heap.instructions, List.filterMap_cons,
      Heap.instruction?_of_parse noLabel parsed]
    simp
  · rw [rest.names, labelNames_cons, noLabel]
    rfl
  · intro before other after otherName split isOther
    cases before with
    | nil =>
        cases split
        cases noLabel.symm.trans isOther
    | cons first before =>
        cases split
        have later := rest.position before other after otherName rfl isOther
        simpa [Heap.countLines, noLabel, Nat.add_assoc, Nat.add_comm] using later

end Scans

theorem scans_of_scanOnto (scanned : scanOnto h listing elements = .ok listing') :
    Scans h listing elements listing' := by
  induction elements generalizing listing with
  | nil =>
      cases scanned
      exact .nil h _
  | cons element elements ih =>
      unfold scanOnto at scanned
      cases isLabel : h.symbolName? element with
      | some name =>
          rw [isLabel] at scanned
          dsimp only at scanned
          split at scanned
          · cases scanned
          · exact .label isLabel (ih scanned)
      | none =>
          rw [isLabel] at scanned
          dsimp only at scanned
          split at scanned
          · cases scanned
          · next i parsed => exact .instruction isLabel parsed (ih scanned)

theorem scan_eq_ok_iff {program : Value} :
    scan h program = .ok listing ↔ ∃ elements, h.Spine program elements .nil ∧
      scanOnto h { labels := [], lines := #[] } elements = .ok listing := by
  unfold scan
  constructor
  · intro scanned
    split at scanned
    · next elements found => exact ⟨elements, Heap.items?_eq_some_iff.1 found, scanned⟩
    · cases scanned
  · rintro ⟨elements, spine, scanned⟩
    rw [Heap.items?_eq_some_iff.2 spine]
    exact scanned

end Listing

/-! ## The heap with the program pinned -/

/-- What a list is read as depends on the lists and symbols in it only. -/
theorem Instruction.parse_eq_ok_congr {h h' : Heap} (items : h'.items? = h.items?)
    (names : h'.symbolName? = h.symbolName?) {element : Value} {i : Instruction} :
    parse h' element = .ok i ↔ parse h element = .ok i := by
  have tagged : tagged? h' = tagged? h := by
    funext v
    simp only [tagged?, items, names]
  have symbol : Instruction.symbol h' = Instruction.symbol h := by
    funext v flaw
    simp only [Instruction.symbol, names]
  have operand : Instruction.operand h' = Instruction.operand h := by
    funext v
    simp only [Instruction.operand, tagged, symbol]
  have location : Instruction.location h' = Instruction.location h := by
    funext v
    simp only [Instruction.location, operand]
  have operation : Instruction.operation h' = Instruction.operation h := by
    funext op operands
    simp only [Instruction.operation, tagged, symbol, operand]
  have isOp : Instruction.isOp h' = Instruction.isOp h := by
    funext v
    simp only [Instruction.isOp, tagged]
  unfold parse
  simp only [items, symbol]
  -- Only the text of a faulty element is left that the heap as a whole decides.
  split
  · simp [mapError_eq_ok_iff]
  · simp [mapError_eq_ok_iff]
  · split <;>
      simp [mapError_eq_ok_iff, assignment, operationAlone, branching, jumping, saving, restoring,
        symbol, operand, location, operation, isOp, names]

namespace Heap

variable {h h' : Heap} {elements : List Value}

section SameObjects

variable (same : ∀ v, h'.object? v = h.object? v)
include same

theorem labelNames_congr : h'.labelNames elements = h.labelNames elements := by
  rw [labelNames, labelNames, symbolName?_congr same]

theorem parse_eq_ok_iff {element : Value} {i : Instruction} :
    Instruction.parse h' element = .ok i ↔ Instruction.parse h element = .ok i :=
  Instruction.parse_eq_ok_congr (items?_congr same) (symbolName?_congr same)

theorem parses_congr : h'.Parses elements ↔ h.Parses elements := by
  unfold Parses
  simp only [symbolName?_congr same, parse_eq_ok_iff same]

theorem instructions_congr : h'.instructions elements = h.instructions elements := by
  refine List.filterMap_congr fun element _ => ?_
  rw [instruction?, instruction?, symbolName?_congr same]
  cases h.symbolName? element with
  | some name => rfl
  | none =>
      have iff (i : Instruction) : Instruction.parse h' element = .ok i ↔
          Instruction.parse h element = .ok i := parse_eq_ok_iff same
      cases parsed : Instruction.parse h element with
      | ok i => rw [(iff i).2 parsed]
      | error e =>
          cases parsed' : Instruction.parse h' element with
          | ok i => cases parsed.symm.trans ((iff i).1 parsed')
          | error e' => rfl

end SameObjects

end Heap

end Lisplet
