import Lisplet.Evaluator
import Lisplet.Proofs.Heap.History
import Mathlib.Data.List.Induction

/-!
# Furnishing — fresh heaps with symbols and pairs

What comes first on a fresh heap is where one expects it: symbols that are interned one after the
other lie in one slot after the other (`Heap.intern_withSymbols`), and so do those of the special
forms (`Evaluator.make_empty`). Expressions are built of them pair by pair (`Heap.withPairs`).
-/

namespace Lisplet

open Heap.Operation (heapAfter)

namespace Heap

/-- The heap with a new symbol, which is entered in the table. -/
def enter (h : Heap) (name : String) : Heap :=
  { (h.insert (.symbol name)).2 with
    symbols := h.symbols.insert name (h.insert (.symbol name)).1 }

/-- A fresh heap with these symbols in this order. -/
def withSymbols (capacity : Nat) (names : List String) : Heap :=
  names.foldl enter (empty capacity)

/-- Pairs made one after the other. -/
def withPairs (h : Heap) (pairs : List (Value × Value)) : Heap :=
  pairs.foldl (fun h pair => heapAfter (HeapM.cons pair.1 pair.2) h) h

section Symbols

variable {h : Heap} {name : String} {names : List String} {capacity : Nat}

theorem intern_eq_enter (absent : h.symbols[name]? = none) (room : h.live < h.capacity) :
    HeapM.intern name h = .ok (h.insert (.symbol name)).1 (h.enter name) := by
  have made : h.makeRoom = h := if_neg (Nat.not_le.2 room)
  rcases HeapM.intern_cases h name with ⟨symbol, listed, _⟩ | ⟨_, ⟨_, step⟩ | ⟨full, _⟩⟩
  · cases absent.symm.trans listed
  · rw [step, made, enter]
    congr 2
    unfold Heap.insert
    split
    · rfl
    · rfl
  · rw [made] at full
    exact absurd room (Nat.not_lt.2 full)

theorem withSymbols_concat (capacity : Nat) (names : List String) (name : String) :
    withSymbols capacity (names ++ [name]) = (withSymbols capacity names).enter name := by
  unfold withSymbols
  rw [List.foldl_append]
  rfl

/-- A heap has as many occupied slots as it has got symbols, beside the first two, and no others. -/
structure Furnished (h : Heap) (capacity : Nat) (names : List String) : Prop where
  free_eq : h.free = []
  size_eq : h.slots.size = names.length + 2
  live_eq : h.live = names.length + 2
  capacity_eq : h.capacity = (empty capacity).capacity
  absent : ∀ name ∉ "t" :: names, h.symbols[name]? = none

theorem Furnished.enter (f : h.Furnished capacity names) (name : String) :
    (h.enter name).Furnished capacity (names ++ [name]) := by
  have made : h.insert (.symbol name) = (.slot h.slots.size, { h with
      slots := h.slots.push ⟨some (.symbol name), false⟩, live := h.live + 1 }) := by
    unfold Heap.insert
    rw [f.free_eq]
  unfold Heap.enter
  rw [made]
  constructor
  case free_eq => exact f.free_eq
  case size_eq =>
    rw [List.length_append, List.length_singleton, Array.size_push, f.size_eq]
  case live_eq =>
    rw [List.length_append, List.length_singleton, f.live_eq]
  case capacity_eq => exact f.capacity_eq
  case absent =>
    intro other unlisted
    rw [← List.cons_append, List.mem_append, not_or, List.mem_singleton] at unlisted
    rw [getElem?_symbols_insert, if_neg (Ne.symm unlisted.2)]
    exact f.absent other unlisted.1

theorem furnished_withSymbols (capacity : Nat) (names : List String) :
    (withSymbols capacity names).Furnished capacity names := by
  induction names using List.reverseRecOn with
  | nil =>
      refine ⟨rfl, rfl, rfl, rfl, fun name unlisted => ?_⟩
      have other : name ≠ "t" := fun same => unlisted (same ▸ List.mem_cons_self)
      show (empty capacity).symbols[name]? = none
      rw [symbols_empty, if_neg other]
  | append_singleton names name ih =>
      rw [withSymbols_concat]
      exact ih.enter name

/-- A new symbol comes into the slot behind those that are there. -/
theorem intern_withSymbols (capacity : Nat) (names : List String) {name : String}
    (new : name ∉ "t" :: names) (room : names.length + 2 < (empty capacity).capacity) :
    HeapM.intern name (withSymbols capacity names) =
      .ok (.slot (names.length + 2)) (withSymbols capacity (names ++ [name])) := by
  have f := furnished_withSymbols capacity names
  have step := intern_eq_enter (f.absent name new) (by rw [f.live_eq, f.capacity_eq]; exact room)
  have place : ((withSymbols capacity names).insert (.symbol name)).1 =
      .slot (names.length + 2) := by
    unfold Heap.insert
    rw [f.free_eq, f.size_eq]
  rw [step, place, withSymbols_concat]

end Symbols

end Heap

namespace Evaluator

/-- The names of the special forms, in the order in which they are interned. -/
def formNames : List String := ["quote", "if", "set!", "define", "lambda", "begin"]

/-- The symbols of the special forms on a heap on which they come first. -/
def firstForms : Forms := ⟨.slot 2, .slot 3, .slot 4, .slot 5, .slot 6, .slot 7⟩

/-- What an evaluator is like that is made on a fresh heap. -/
theorem make_empty {capacity : Nat} (limit : Nat) (room : 8 ≤ (Heap.empty capacity).capacity) :
    make limit (Heap.empty capacity) =
      .ok ⟨firstForms, limit⟩ (Heap.withSymbols capacity formNames) := by
  have step (names : List String) {name : String} (few : names.length < 6)
      (new : name ∉ "t" :: names) :
      HeapM.intern name (Heap.withSymbols capacity names) =
        .ok (.slot (names.length + 2)) (Heap.withSymbols capacity (names ++ [name])) :=
    Heap.intern_withSymbols capacity names new (by omega)
  have first := step [] (by decide) (show "quote" ∉ ["t"] by decide)
  have second := step ["quote"] (by decide) (show "if" ∉ _ by decide)
  have third := step ["quote", "if"] (by decide) (show "set!" ∉ _ by decide)
  have fourth := step ["quote", "if", "set!"] (by decide) (show "define" ∉ _ by decide)
  have fifth := step ["quote", "if", "set!", "define"] (by decide) (show "lambda" ∉ _ by decide)
  have sixth := step ["quote", "if", "set!", "define", "lambda"] (by decide)
    (show "begin" ∉ _ by decide)
  have fresh : Heap.withSymbols capacity [] = Heap.empty capacity := rfl
  unfold make Forms.intern
  simp only [Bind.bind, EStateM.bind, ← fresh, first, second, third, fourth, fifth, sixth,
    List.nil_append, List.cons_append]
  rfl

end Evaluator

end Lisplet
