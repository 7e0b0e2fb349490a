import Krusty.Wasm.InterfaceDispatch.Shapes

/-! The structs of the classes, and the tests that tell an interface's instances by them. -/
namespace Krusty.Wasm

/-- A type declared a subtype of an earlier one. -/
def DeclaredUnder (m : Module) (a b : UInt32) : Prop := m.supertype? a = some b ∧ b.toNat < a.toNat

section Subtypes

variable {m : Module} {a b c : UInt32}

theorem isSubtype_iff : m.isSubtype a c = true ↔ a = c ∨ ∃ parent, DeclaredUnder m a parent ∧ m.isSubtype parent c = true := by
  rw [Module.isSubtype, Bool.or_eq_true, decide_eq_true_eq]
  apply or_congr_right
  cases hparent : m.supertype? a with
  | none =>
    constructor
    · intro h
      cases h
    · rintro ⟨parent, hunder, -⟩
      rw [DeclaredUnder, hparent] at hunder
      cases hunder.1
  | some parent =>
    dsimp only
    constructor
    · intro h
      split at h
      · next hlt => exact ⟨parent, ⟨hparent, hlt⟩, h⟩
      · cases h
    · rintro ⟨other, ⟨hother, hlt⟩, h⟩
      rw [hparent] at hother
      cases hother
      rw [if_pos hlt]
      exact h

theorem isSubtype_trans (hab : m.isSubtype a b = true) (hbc : m.isSubtype b c = true) : m.isSubtype a c = true := by
  induction hnat : a.toNat using Nat.strong_induction_on generalizing a with
  | _ n ih =>
    cases isSubtype_iff.mp hab with
    | inl heq =>
      rw [heq]
      exact hbc
    | inr hparent =>
      obtain ⟨parent, hunder, hparent⟩ := hparent
      exact isSubtype_iff.mpr (.inr ⟨parent, hunder, ih parent.toNat (hnat ▸ hunder.2) hparent rfl⟩)

theorem isSubtype_root (h : m.supertype? a = none) : m.isSubtype a c = true ↔ a = c := by
  rw [isSubtype_iff, or_iff_left]
  rintro ⟨parent, hunder, -⟩
  rw [DeclaredUnder, h] at hunder
  cases hunder.1

theorem isSubtype_under (h : DeclaredUnder m a b) : m.isSubtype a c = true ↔ a = c ∨ m.isSubtype b c = true := by
  rw [isSubtype_iff]
  apply or_congr_right
  constructor
  · rintro ⟨parent, hunder, hparent⟩
    have hsame : some b = some parent := h.1.symm.trans hunder.1
    cases hsame
    exact hparent
  · exact fun hparent => ⟨b, h, hparent⟩

end Subtypes

/-- A class's struct and, nearest first, each struct it is declared a subtype of, up to the root of the objects. -/
structure Declared (m : Module) (object : UInt32) (ancestors : List UInt32) : Prop where
  chain : ancestors.IsChain (DeclaredUnder m)
  last : ∃ front last, ancestors = front ++ [last] ∧ DeclaredUnder m last object
  root : ∃ ty, m.types[object.toNat]? = some ty ∧ ty.supertype = none

namespace Declared

variable {m : Module} {object structure_ a : UInt32} {ancestors rest : List UInt32}

theorem ne_nil (h : Declared m object ancestors) : ancestors ≠ [] := by
  obtain ⟨front, last, hancestors, -⟩ := h.last
  rw [hancestors]
  exact List.append_ne_nil_of_right_ne_nil _ (List.cons_ne_nil _ _)

theorem supertype_object (h : Declared m object ancestors) : m.supertype? object = none := by
  obtain ⟨ty, hty, hnone⟩ := h.root
  rw [Module.supertype?, hty]
  exact hnone

/-- Every struct of the list has a supertype, so the root is none of them. -/
theorem under (h : Declared m object ancestors) (hmem : a ∈ ancestors) : ∃ parent, DeclaredUnder m a parent := by
  obtain ⟨front, last, rfl, hlast⟩ := h.last
  obtain ⟨before, after, hsplit⟩ := List.append_of_mem hmem
  cases after with
  | nil =>
    have hsame := List.append_inj_right' hsplit rfl
    cases hsame
    exact ⟨object, hlast⟩
  | cons next after =>
    have hchain := h.chain
    rw [hsplit] at hchain
    exact ⟨next, (List.isChain_append.mp hchain).2.1.rel⟩

theorem ne_object (h : Declared m object ancestors) (hmem : a ∈ ancestors) : a ≠ object := by
  rintro rfl
  obtain ⟨parent, hunder⟩ := h.under hmem
  rw [DeclaredUnder, h.supertype_object] at hunder
  cases hunder.1

theorem tail_lt (h : Declared m object (structure_ :: rest)) (hmem : a ∈ rest) : a.toNat < structure_.toNat := by
  have hsorted : (structure_ :: rest).Pairwise fun a b => b.toNat < a.toNat := by
    have hchain := h.chain.imp fun _ _ hunder => hunder.2
    have htrans : Trans (fun a b : UInt32 => b.toNat < a.toNat) (fun a b : UInt32 => b.toNat < a.toNat)
        (fun a b : UInt32 => b.toNat < a.toNat) := ⟨fun hab hbc => hbc.trans hab⟩
    exact List.isChain_iff_pairwise.mp hchain
  exact (List.pairwise_cons.mp hsorted).1 a hmem

/-- The supertypes of a class's struct are its ancestors and the root. -/
theorem isSubtype_iff_mem (h : Declared m object (structure_ :: rest)) :
    m.isSubtype structure_ a = true ↔ a ∈ structure_ :: rest ∨ a = object := by
  obtain ⟨front, last, hancestors, hlast⟩ := h.last
  have hchain := h.chain
  induction rest generalizing structure_ front with
  | nil =>
    have hsame : structure_ = last := by
      cases front with
      | nil => exact List.head_eq_of_cons_eq hancestors
      | cons first front => simp at hancestors
    rw [hsame, isSubtype_under hlast, isSubtype_root h.supertype_object, List.mem_singleton, eq_comm, eq_comm (a := object)]
  | cons next rest ih =>
    have hunder := hchain.rel
    cases front with
    | nil => simp at hancestors
    | cons first front =>
      have hrest : next :: rest = front ++ [last] := List.tail_eq_of_cons_eq hancestors
      have hnext : m.isSubtype next a = true ↔ a ∈ next :: rest ∨ a = object :=
        ih ⟨hchain.tail, ⟨front, last, hrest, hlast⟩, h.root⟩ front hrest hchain.tail
      rw [isSubtype_under hunder, hnext, List.mem_cons (b := structure_), or_assoc, eq_comm]

/-- The same for the struct of a record. -/
theorem isSubtype_structure {record : ClassRecord} (h : Declared m object record.ancestors) :
    m.isSubtype record.structure_ a = true ↔ a ∈ record.ancestors ∨ a = object := by
  cases hancestors : record.ancestors with
  | nil => exact absurd hancestors h.ne_nil
  | cons structure_ rest =>
    rw [hancestors] at h
    rw [ClassRecord.structure_, hancestors]
    exact h.isSubtype_iff_mem

theorem mono {m' : Module} (h : Declared m object ancestors) (htypes : m.types <+: m'.types) :
    Declared m' object ancestors := by
  have hknown (index : ℕ) (ty : SubType) (hty : m.types[index]? = some ty) : m'.types[index]? = some ty := by
    obtain ⟨rest, hrest⟩ := htypes
    rw [← hrest, List.getElem?_append_left (List.getElem?_eq_some_iff.mp hty).1, hty]
  have hunder (a b : UInt32) (hab : DeclaredUnder m a b) : DeclaredUnder m' a b := by
    obtain ⟨ty, hty, hsuper⟩ := Option.bind_eq_some_iff.mp hab.1
    refine ⟨?_, hab.2⟩
    rw [Module.supertype?, hknown _ _ hty]
    exact hsuper
  obtain ⟨front, last, hancestors, hlast⟩ := h.last
  obtain ⟨ty, hty, hnone⟩ := h.root
  exact ⟨h.chain.imp hunder, ⟨front, last, hancestors, hunder _ _ hlast⟩, ty, hknown _ _ hty, hnone⟩

end Declared

namespace InterfaceDispatch

variable {m : Module} {object a : UInt32} {implementors classes : List ClassRecord} {tested : List UInt32}
  {record : ClassRecord}

/-! ### The structs tested -/

/-- An implementing struct that is not a subtype of another is tested. -/
def Covered (implementors : List ClassRecord) (record : ClassRecord) : Prop :=
  ∃ other ∈ implementors, other.structure_ ∈ record.ancestors.tail

theorem mem_testedStructs : a ∈ testedStructs implementors classes tested ↔
    a ∈ tested ∨ ∃ record ∈ classes, ¬Covered implementors record ∧ record.structure_ = a := by
  induction classes generalizing tested with
  | nil => simp [testedStructs]
  | cons first rest ih =>
    have hcovered : (implementors.any fun other => decide (other.structure_ ∈ first.ancestors.tail)) = true ↔
        Covered implementors first := by
      rw [List.any_eq_true, Covered]
      simp only [decide_eq_true_eq]
    rw [testedStructs, List.exists_mem_cons_iff]
    by_cases hskip : Covered implementors first ∨ first.structure_ ∈ tested
    · have hfirst : ¬Covered implementors first ∧ first.structure_ = a → a ∈ tested := by
        rintro ⟨hopen, rfl⟩
        exact hskip.resolve_left hopen
      rw [if_pos (hskip.imp_left hcovered.mpr), ih]
      tauto
    · have hopen : ¬Covered implementors first := fun hcovered => hskip (.inl hcovered)
      rw [if_neg fun h => hskip (h.imp_left hcovered.mp), ih, List.mem_append, List.mem_singleton, or_assoc, eq_comm]
      tauto

/-- A class's struct is a subtype of a tested one exactly when it is one of an implementing struct. -/
theorem isSubtype_tested (hdeclared : ∀ record ∈ implementors, Declared m object record.ancestors) :
    (∃ structure_ ∈ testedStructs implementors implementors [], m.isSubtype a structure_ = true) ↔
      ∃ record ∈ implementors, m.isSubtype a record.structure_ = true := by
  simp only [mem_testedStructs, List.not_mem_nil, false_or]
  constructor
  · rintro ⟨structure_, ⟨record, hmem, -, rfl⟩, hsub⟩
    exact ⟨record, hmem, hsub⟩
  · rintro ⟨record, hmem, hsub⟩
    induction hnat : record.structure_.toNat using Nat.strong_induction_on generalizing record with
    | _ n ih =>
      by_cases hcovered : Covered implementors record
      · obtain ⟨other, hother, htail⟩ := hcovered
        have hrecord := hdeclared record hmem
        have hsuper : m.isSubtype record.structure_ other.structure_ = true :=
          hrecord.isSubtype_structure.mpr (.inl (List.mem_of_mem_tail htail))
        have hlt : other.structure_.toNat < record.structure_.toNat := by
          cases hancestors : record.ancestors with
          | nil => exact absurd hancestors hrecord.ne_nil
          | cons structure_ rest =>
            rw [hancestors] at hrecord htail
            rw [ClassRecord.structure_, ClassRecord.structure_, hancestors]
            exact hrecord.tail_lt htail
        exact ih _ (hnat ▸ hlt) other hother (isSubtype_trans hsub hsuper) rfl
      · exact ⟨record.structure_, ⟨record, hmem, hcovered, rfl⟩, hsub⟩

/-! ### The `is` function runs -/

section Tests

variable {invoke : UInt32 → List Value → Option (List Value)} {receiver : Value} {calls : List (UInt32 × List Value)}

def flag (b : Bool) : Value := .i32 (if b then 1 else 0)

theorem runCode_tests (structs : List UInt32) (b : Bool) :
    runCode m invoke [receiver] (structs.flatMap fun structure_ =>
      [.localGet 0, .refTest false (.concrete structure_), .op OR32]) ⟨.running, [flag b], calls⟩ =
      some ⟨.running, [flag (b || structs.any fun structure_ => m.isOf false (.concrete structure_) receiver)], calls⟩ := by
  induction structs generalizing b with
  | nil =>
    rw [List.any_nil, Bool.or_false]
    rfl
  | cons structure_ structs ih =>
    have hone : runCode m invoke [receiver] [.localGet 0, .refTest false (.concrete structure_), .op OR32]
        ⟨.running, [flag b], calls⟩ =
        some ⟨.running, [flag (b || m.isOf false (.concrete structure_) receiver)], calls⟩ := by
      rw [runCode_cons, stepInstr_running]
      cases b <;> cases hof : m.isOf false (.concrete structure_) receiver <;>
        simp [execute_localGet, execute_refTest, execute_or, State.push, runCode_cons, stepInstr_running, flag, hof]
    rw [List.flatMap_cons, runCode_append, hone, Option.bind_some, ih, List.any_cons, Bool.or_assoc]

theorem runCode_testBody (self : InterfaceDispatch) (interface : TypeName) :
    runCode m invoke [receiver] (self.testBody interface) ⟨.running, [], calls⟩ =
      some ⟨.running, [flag ((testedStructs (self.instancesOf interface) (self.instancesOf interface) []).any
        fun structure_ => m.isOf false (.concrete structure_) receiver)], calls⟩ := by
  have htests := @runCode_tests m invoke receiver calls
    (testedStructs (self.instancesOf interface) (self.instancesOf interface) []) false
  rw [Bool.false_or] at htests
  rw [testBody, runCode_cons]
  exact htests

end Tests

end InterfaceDispatch

end Krusty.Wasm
