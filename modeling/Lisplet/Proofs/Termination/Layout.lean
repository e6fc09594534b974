import Lisplet.Proofs.Simulation.Construction
import Lisplet.Proofs.Simulation.Observation

/-!
# Layout — what the slots of a heap are used for

Programs change two kinds of objects in place, the pairs that bind symbols and the environments.
Neither is ever part of data: a pair that binds a symbol is reached from the environment alone.
A `Layout` says of every slot what it is used for, and `Orderly` that the heap is laid out so,
that data, lists of bindings and chains of environments are without cycles, and that no pair of
an environment's own is in the hands of a program. In an orderly heap every walk comes to an end.
-/

namespace Lisplet

open Simulation (Role descent)

/-! ## The pairs of an environment -/

namespace Heap

/-- What a walk along the bindings of some environment passes. -/
inductive OnFrame (h : Heap) : Value → Prop where
  | bindings {env bindings : Value} {parent : Option Env} :
      h.object? env = some (.environment bindings parent) → OnFrame h bindings
  | rest {list binding rest : Value} :
      OnFrame h list → h.object? list = some (.pair binding rest) → OnFrame h rest

/-- A value that binds a symbol in some environment. -/
def IsBinding (h : Heap) (v : Value) : Prop :=
  ∃ list rest, h.OnFrame list ∧ h.object? list = some (.pair v rest)

/-- A slot that belongs to the bindings of an environment, so that no program can get hold of it. -/
def InFrame (h : Heap) (i : Nat) : Prop := h.OnFrame (.slot i) ∨ h.IsBinding (.slot i)

theorem OnFrame.mono {h h' : Heap} {v : Value}
    (environments : ∀ env bindings parent, h.object? env = some (.environment bindings parent) →
      h'.OnFrame bindings)
    (pairs : ∀ list binding rest, h.OnFrame list → h.object? list = some (.pair binding rest) →
      h'.object? list = some (.pair binding rest))
    (on : h.OnFrame v) : h'.OnFrame v := by
  induction on with
  | bindings found => exact environments _ _ _ found
  | rest before found ih => exact .rest ih (pairs _ _ _ before found)

section SameObjects

variable {h h' : Heap} {v : Value} (same : ∀ v, h'.object? v = h.object? v)
include same

theorem OnFrame.congr (on : h.OnFrame v) : h'.OnFrame v := by
  refine on.mono (fun env bindings parent found => ?_) fun list binding rest _ found => ?_
  · exact .bindings ((same env).trans found)
  · exact (same list).trans found

theorem IsBinding.congr (binds : h.IsBinding v) : h'.IsBinding v := by
  rcases binds with ⟨list, rest, on, found⟩
  exact ⟨list, rest, on.congr same, (same list).trans found⟩

end SameObjects

end Heap

namespace Termination

/-! ## Layouts -/

/-- What each slot of a heap is used for. -/
abbrev Layout := Nat → Role

/--
A value of some use: the handle of a slot that is used so, or nil if it need not be one. Data may
be an environment, since register machines hand them around.
-/
inductive Fills (d : Layout) : Role → Value → Prop where
  | nil {r : Role} : r ≠ .frame → Fills d r .nil
  | slot {r : Role} {i : Nat} : d i = r → Fills d r (.slot i)
  | environment {i : Nat} : d i = .frame → Fills d .datum (.slot i)

/-- What a slot of some use may hold. -/
inductive Suits (d : Layout) : Role → Object → Prop where
  | plain {o : Object} : o.references = [] →
      (∀ p, o = .primitive p → p ∈ Primitive.standard) → Suits d .datum o
  | pair {car cdr : Value} : Fills d .datum car → Fills d .datum cdr →
      Suits d .datum (.pair car cdr)
  | procedure {params body : Value} {env : Env} : Fills d .datum params → Fills d .datum body →
      Fills d .frame env.value → Suits d .datum (.procedure params body env)
  | root {bindings : Value} : Fills d .spine bindings →
      Suits d .frame (.environment bindings none)
  | child {bindings : Value} {parent : Env} : Fills d .spine bindings →
      Fills d .frame parent.value → Suits d .frame (.environment bindings (some parent))
  | spine {binding rest : Value} : Fills d .binding binding → Fills d .spine rest →
      Suits d .spine (.pair binding rest)
  | binding {symbol value : Value} : Fills d .datum symbol → Fills d .datum value →
      Suits d .binding (.pair symbol value)

section Using

variable {d d' : Layout} {r : Role} {v : Value} {o : Object}

theorem Fills.use {i : Nat} (fills : Fills d r (.slot i)) (other : r ≠ .datum) : d i = r := by
  cases fills with
  | slot use => exact use
  | environment _ => exact absurd rfl other

/-- What fills the place of data is data or an environment. -/
theorem fills_datum_iff {i : Nat} : Fills d .datum (.slot i) ↔ d i = .datum ∨ d i = .frame := by
  constructor
  · rintro (_ | use | use)
    · exact .inl use
    · exact .inr use
  · rintro (use | use)
    · exact .slot use
    · exact .environment use

theorem Fills.datum (fills : Fills d .frame v) : Fills d .datum v := by
  cases fills with
  | nil other => exact absurd rfl other
  | slot use => exact .environment use

theorem Fills.congr (same : ∀ i, v = .slot i → d' i = d i) (fills : Fills d r v) :
    Fills d' r v := by
  cases fills with
  | nil other => exact .nil other
  | slot use => exact .slot ((same _ rfl).trans use)
  | environment use => exact .environment ((same _ rfl).trans use)

/-- What a slot may hold depends only on the use of what the object refers to. -/
theorem Suits.congr (same : ∀ i, .slot i ∈ o.references → d' i = d i) (suits : Suits d r o) :
    Suits d' r o := by
  have refers {r : Role} {v : Value} (member : v ∈ o.references) (fills : Fills d r v) :
      Fills d' r v := fills.congr fun i isSlot => same i (isSlot ▸ member)
  cases suits with
  | plain none standard => exact .plain none standard
  | pair car cdr =>
      exact .pair (refers (by simp [Object.references]) car)
        (refers (by simp [Object.references]) cdr)
  | procedure params body env =>
      exact .procedure (refers (by simp [Object.references]) params)
        (refers (by simp [Object.references]) body) (refers (by simp [Object.references]) env)
  | root bindings => exact .root (refers (by simp [Object.references]) bindings)
  | child bindings parent =>
      exact .child (refers (by simp [Object.references]) bindings)
        (refers (by simp [Object.references]) parent)
  | spine binding rest =>
      exact .spine (refers (by simp [Object.references]) binding)
        (refers (by simp [Object.references]) rest)
  | binding symbol value =>
      exact .binding (refers (by simp [Object.references]) symbol)
        (refers (by simp [Object.references]) value)

end Using

/-! ## The invariant -/

/-- Objects suit the use of their slots, and data without cycles is ranked. -/
structure Suited (d : Layout) (h : Heap) : Prop extends Heap.WellFormed h where
  suits : ∀ i o, h.object? (.slot i) = some o → Suits d (d i) o
  ranked : ∃ rank : Nat → Nat, ∀ i o k, h.object? (.slot i) = some o →
    .slot k ∈ descent (d i) o → rank k < rank i

/-- A suited heap in which the pairs of bindings all belong to some environment. -/
structure Arranged (d : Layout) (h : Heap) : Prop extends Suited d h where
  onFrame : ∀ i, h.Occupied i → d i = .spine → h.OnFrame (.slot i)
  isBinding : ∀ i, h.Occupied i → d i = .binding → h.IsBinding (.slot i)

/-- An arranged heap the roots of which are data and environments. -/
structure Orderly (d : Layout) (h : Heap) : Prop extends Arranged d h where
  roots : ∀ v, h.IsRoot v → Fills d .datum v ∨ Fills d .frame v

/-- A value of some use that is nil or names an occupied slot. -/
structure Used (d : Layout) (h : Heap) (r : Role) (v : Value) : Prop where
  fills : Fills d r v
  holds : h.Holds v

theorem Used.nil {r : Role} (d : Layout) (h : Heap) (other : r ≠ .frame) : Used d h r .nil :=
  ⟨.nil other, Heap.holds_nil h⟩

section Reading

variable {d : Layout} {h : Heap} {r : Role} {v : Value} {o : Object}

/-- A slot used as an environment holds one. -/
theorem Suited.exists_environment_of_use (a : Suited d h) {i : Nat} (use : d i = .frame)
    (found : h.object? (.slot i) = some o) :
    ∃ bindings parent, o = .environment bindings parent := by
  have suits := a.suits i o found
  rw [use] at suits
  cases suits with
  | root _ => exact ⟨_, _, rfl⟩
  | child _ _ => exact ⟨_, _, rfl⟩

/-- An environment may stand in the place of data; what else is there suits the use. -/
theorem Suited.suits_of_fills (a : Suited d h) (fills : Fills d r v)
    (found : h.object? v = some o) (other : r = .datum → o.kind ≠ .environment) : Suits d r o := by
  cases fills with
  | nil _ => cases found
  | slot use => exact use ▸ a.suits _ o found
  | environment use =>
      rcases a.exists_environment_of_use use found with ⟨_, _, rfl⟩
      exact absurd rfl (other rfl)

/-- Whatever is live and no pair of a frame is data or an environment. -/
theorem Arranged.used_of_holds (a : Arranged d h) (held : h.Holds v)
    (outside : ∀ i, v = .slot i → ¬ h.InFrame i) : Used d h .datum v ∨ Used d h .frame v := by
  cases v with
  | nil => exact .inl (.nil d h nofun)
  | slot i =>
      have occupied := Heap.holds_slot_iff.1 held
      rcases Heap.occupied_iff.1 occupied with ⟨o, found⟩
      have suits := a.suits i o found
      cases use : d i with
      | datum => exact .inl ⟨.slot use, held⟩
      | frame => exact .inr ⟨.slot use, held⟩
      | spine => exact absurd (.inl (a.onFrame i occupied use)) (outside i rfl)
      | binding => exact absurd (.inr (a.isBinding i occupied use)) (outside i rfl)
      | fault =>
          rw [use] at suits
          cases suits

namespace Suited

/-- An environment is used as one. -/
theorem used_of_environment (a : Suited d h) {bindings : Value} {parent : Option Env}
    (found : h.object? v = some (.environment bindings parent)) : Used d h .frame v := by
  cases v with
  | nil => cases found
  | slot i =>
      refine ⟨.slot ?_, Heap.holds_of_object? found⟩
      have suits := a.suits i _ found
      cases use : d i with
      | frame => rfl
      | datum =>
          rw [use] at suits
          cases suits with
          | plain none _ => cases parent <;> cases none
      | _ =>
          rw [use] at suits
          cases suits

/-- What is used as an environment is one. -/
theorem exists_environment (a : Suited d h) (fills : Fills d .frame v)
    (found : h.object? v = some o) : ∃ bindings parent, o = .environment bindings parent := by
  cases fills with
  | nil other => exact absurd rfl other
  | slot use => exact a.exists_environment_of_use use found

/-- What an environment holds. -/
theorem frame_used (a : Suited d h) {env : Env} (fills : Fills d .frame env.value) :
    Used d h .spine (env.bindings h) ∧
      ∀ parent, env.parent? h = some parent → Used d h .frame parent.value := by
  unfold Env.bindings Env.parent?
  cases frame : h.frame? env.value with
  | none => exact ⟨.nil d h nofun, nofun⟩
  | some parts =>
      rcases parts with ⟨bindings, parent⟩
      have found := Heap.frame?_eq_some_iff.1 frame
      have held {w : Value} := a.holds_reference found (w := w)
      cases a.suits_of_fills fills found nofun with
      | root bindings => exact ⟨⟨bindings, held (by simp [Object.references])⟩, nofun⟩
      | child bindings parent =>
          refine ⟨⟨bindings, held (by simp [Object.references])⟩, ?_⟩
          rintro _ same
          cases same
          exact ⟨parent, held (by simp [Object.references])⟩

/-- The parts of a pair are used as the pair demands it. -/
theorem pair_used (a : Suited d h) {car cdr : Value} (fills : Fills d r v)
    (found : h.object? v = some (.pair car cdr)) :
    Used d h r.car car ∧ Used d h r.cdr cdr := by
  have heldCar := a.holds_reference found (w := car) (by simp [Object.references])
  have heldCdr := a.holds_reference found (w := cdr) (by simp [Object.references])
  cases a.suits_of_fills fills found (fun _ same => by cases same) with
  | plain none _ => cases none
  | pair car cdr => exact ⟨⟨car, heldCar⟩, ⟨cdr, heldCdr⟩⟩
  | spine binding rest => exact ⟨⟨binding, heldCar⟩, ⟨rest, heldCdr⟩⟩
  | binding symbol value => exact ⟨⟨symbol, heldCar⟩, ⟨value, heldCdr⟩⟩

/-- What a walk along bindings passes is used as a list of bindings. -/
theorem used_of_onFrame (a : Suited d h) (on : h.OnFrame v) : Used d h .spine v := by
  induction on with
  | @bindings env bindings parent found =>
      have held := a.holds_reference found (w := bindings)
      cases a.suits_of_fills (a.used_of_environment found).fills found nofun with
      | root bindings => exact ⟨bindings, held (by simp [Object.references])⟩
      | child bindings _ => exact ⟨bindings, held (by simp [Object.references])⟩
  | rest _ found ih => exact (a.pair_used ih.fills found).2

/-! ## Walks come to an end -/

/--
What holds of a slot as soon as it holds of the slots that follow it in data without cycles
holds of all slots in use.
-/
theorem induction (a : Suited d h) {motive : Value → Prop} (used : Used d h r v)
    (nil : r ≠ .frame → motive .nil)
    (environment : ∀ i bindings parent, r = .datum →
      h.object? (.slot i) = some (.environment bindings parent) → motive (.slot i))
    (slot : ∀ i o, d i = r → h.object? (.slot i) = some o →
      (∀ w, w ∈ descent r o → Used d h r w → motive w) → motive (.slot i)) : motive v := by
  rcases a.ranked with ⟨rank, ranked⟩
  cases v with
  | nil =>
      cases used.fills with
      | nil other => exact nil other
  | slot i =>
      -- The rank goes down along every descent.
      induction next : rank i using Nat.strongRecOn generalizing i with
      | ind n ih =>
          rcases Heap.occupied_iff.1 (Heap.holds_slot_iff.1 used.holds) with ⟨o, found⟩
          cases used.fills with
          | environment use =>
              rcases a.exists_environment_of_use use found with ⟨bindings, parent, rfl⟩
              exact environment i bindings parent rfl found
          | slot use =>
          refine slot i o use found fun w member usedW => ?_
          cases w with
          | nil =>
              cases usedW.fills with
              | nil other => exact nil other
          | slot k =>
              have lower := ranked i o k found (use.symm ▸ member)
              exact ih (rank k) (next ▸ lower) k usedW rfl

/-- A list ends, and its elements and its tail are of the same use as the list. -/
theorem exists_spine (a : Suited d h) (isList : r = .datum ∨ r = .spine)
    (used : Used d h r v) :
    ∃ items tail, h.Spine v items tail ∧ (∀ w ∈ items, Used d h r.car w) ∧
      Used d h r tail := by
  refine a.induction (motive := fun v => ∃ items tail, h.Spine v items tail ∧
    (∀ w ∈ items, Used d h r.car w) ∧ Used d h r tail) used ?_ ?_ ?_
  · exact fun other => ⟨[], .nil, .done rfl, List.forall_mem_nil _, .nil d h other⟩
  · rintro i bindings parent rfl found
    have ends : h.pair? (.slot i) = none := Heap.pair?_of_atom found nofun
    have used := a.used_of_environment found
    exact ⟨[], .slot i, .done ends, List.forall_mem_nil _, used.fills.datum, used.holds⟩
  · intro i o use found follows
    have fills : Fills d r (.slot i) := .slot use
    cases goes : h.pair? (.slot i) with
    | none => exact ⟨[], .slot i, .done goes, List.forall_mem_nil _, fills,
        Heap.holds_of_object? found⟩
    | some parts =>
        rcases parts with ⟨car, cdr⟩
        have same := Heap.pair?_eq_some_iff.1 goes
        have parts := a.pair_used fills same
        rw [found] at same
        cases same
        -- The cdr is where both kinds of lists go on, so the ranks bound the walk.
        have goesOn : cdr ∈ descent r (.pair car cdr) ∧ r.cdr = r := by
          rcases isList with rfl | rfl
          · exact ⟨by simp [descent], rfl⟩
          · exact ⟨by simp [descent], rfl⟩
        rcases follows cdr goesOn.1 (goesOn.2 ▸ parts.2) with ⟨items, tail, rest, used, ends⟩
        exact ⟨car :: items, tail, .step goes rest, List.forall_mem_cons.2 ⟨parts.1, used⟩, ends⟩

/-- The way outwards from an environment ends. -/
theorem exists_chain (a : Suited d h) {env : Env} (used : Used d h .frame env.value) :
    ∃ envs, h.Chain env envs ∧ ∀ e ∈ envs, Used d h .frame e.value := by
  refine a.induction (motive := fun v => ∃ envs, h.Chain ⟨v⟩ envs ∧
    ∀ e ∈ envs, Used d h .frame e.value) used ?_ nofun ?_
  · exact fun other => absurd rfl other
  · intro i o use found follows
    have fills : Fills d .frame (Env.mk (.slot i)).value := .slot use
    have used : Used d h .frame (.slot i) := ⟨fills, Heap.holds_of_object? found⟩
    cases goes : (Env.mk (.slot i)).parent? h with
    | none => exact ⟨_, .outermost goes, List.forall_mem_singleton.2 used⟩
    | some parent =>
        -- The way outwards goes through the parent, which is ranked below.
        have isParent : parent.value ∈ descent .frame o := by
          rcases Option.bind_eq_some_iff.1 goes with ⟨⟨bindings, outer⟩, isFrame, rfl⟩
          have same := Heap.frame?_eq_some_iff.1 isFrame
          rw [found] at same
          cases same
          exact List.mem_singleton_self _
        rcases follows _ isParent ((a.frame_used fills).2 parent goes) with ⟨envs, chain, all⟩
        exact ⟨_, .inner goes chain, List.forall_mem_cons.2 ⟨used, all⟩⟩

/-- Data is a tree, whatever its pairs share. -/
theorem exists_denotes (a : Suited d h) (used : Used d h .datum v) :
    ∃ tree, h.Denotes v tree := by
  refine a.induction (motive := fun v => ∃ tree, h.Denotes v tree) used (fun _ => ⟨.nil, .nil⟩)
    (fun i _ _ _ found => ⟨.atom i _, .atom found nofun⟩) ?_
  intro i o use found follows
  by_cases isPair : o.kind = .pair
  · cases o with
    | pair car cdr =>
        have parts := a.pair_used (.slot use) found
        rcases follows car (by simp [descent]) parts.1 with ⟨tree, denotes⟩
        rcases follows cdr (by simp [descent]) parts.2 with ⟨tree', denotes'⟩
        exact ⟨.pair tree tree', .pair found denotes denotes'⟩
    | _ => cases isPair
  · exact ⟨.atom i o, .atom found isPair⟩

end Suited

end Reading

end Termination

end Lisplet
