import Mathlib
import Krusty.Lib.Comparisons
import Krusty.Lib.Strings

/-! Intersection types: the types, the two orders of the components, and the one form a list of components
is put in. -/
namespace Krusty.Types
open Comparisons Strings

/-! ### Types -/

/-- The id a classifier's name was interned under. -/
abbrev TypeName := ℕ

inductive Ty where
  | unit
  | obj (name : TypeName) (args : List Ty)
  | null
  | nothing
  | error
  | pending
  | function (params : List Ty) (ret : Ty) (contextCount : ℕ) (hasReceiver suspend : Bool)
  | nullable (inner : Ty)
  | platformNullable (inner : Ty)
  | mutabilityFlexible (inner : Ty)
  | inProjection (inner : Ty)
  | outProjection (inner : Ty)
  | starProjection (inner : Ty)
  | rawProjection (inner : Ty)
  | tyParam (name : Text) (bound : Ty)
  | var (name : Text) (bound : Ty)
  | definitelyNotNull (inner : Ty)
  | intersection (parts : List Ty)

/-- The names as a tree: the path of each from the root, where one path is interned once. -/
structure NameTree where
  segments : TypeName → List Text
  injective : Function.Injective segments

namespace Ty

/-- `Ty::nullable`: no `T??`, and `(T & Any)?` is the original parameter's `T?`. -/
def nullableOf : Ty → Ty
  | definitelyNotNull original => original.nullableOf
  | nullable inner => nullable inner
  | null => null
  | error => error
  | platformNullable inner => nullable inner
  | inner => nullable inner

def structuralRank : Ty → ℕ
  | unit => 0
  | obj _ _ => 1
  | null => 2
  | nothing => 3
  | error => 4
  | pending => 5
  | function _ _ _ _ _ => 6
  | nullable _ => 7
  | platformNullable _ => 8
  | inProjection _ => 9
  | outProjection _ => 10
  | starProjection _ => 11
  | tyParam _ _ => 12
  | definitelyNotNull _ => 13
  | intersection _ => 14
  | rawProjection _ => 15
  | mutabilityFlexible _ => 16
  | var _ _ => 17

end Ty

/-! ### The structural order -/

mutual

def structuralCmp (left right : Ty) : Ordering :=
  (cmp left.structuralRank right.structuralRank).then (match left, right with
    | .obj leftName leftArgs, .obj rightName rightArgs =>
      (cmp leftName rightName).then
        ((cmp leftArgs.length rightArgs.length).then (structuralCmpAll leftArgs rightArgs))
    | .function params ret contextCount hasReceiver suspend,
        .function params' ret' contextCount' hasReceiver' suspend' =>
      (cmp suspend suspend').then ((cmp hasReceiver hasReceiver').then ((cmp contextCount contextCount').then
        (((cmp params.length params'.length).then (structuralCmpAll params params')).then
          (structuralCmp ret ret'))))
    | .nullable left, .nullable right => structuralCmp left right
    | .platformNullable left, .platformNullable right => structuralCmp left right
    | .inProjection left, .inProjection right => structuralCmp left right
    | .outProjection left, .outProjection right => structuralCmp left right
    | .starProjection left, .starProjection right => structuralCmp left right
    | .rawProjection left, .rawProjection right => structuralCmp left right
    | .definitelyNotNull left, .definitelyNotNull right => structuralCmp left right
    | .tyParam leftName leftBound, .tyParam rightName rightBound =>
      (List.compareLex cmp leftName rightName).then (structuralCmp leftBound rightBound)
    | .var leftName leftBound, .var rightName rightBound =>
      (List.compareLex cmp leftName rightName).then (structuralCmp leftBound rightBound)
    | .intersection left, .intersection right =>
      (cmp left.length right.length).then (structuralCmpAll left right)
    | _, _ => .eq)

/-- The pairs of `slice_cmp`, after the lengths: the first that differs decides. -/
def structuralCmpAll : List Ty → List Ty → Ordering
  | left :: lefts, right :: rights => (structuralCmp left right).then (structuralCmpAll lefts rights)
  | _, _ => .eq

end

namespace Ty

/-- What the orders read of a type at its root: the rank, names, lengths and flags in order. -/
def numbers : Ty → List ℕ
  | obj name args => [1, name, args.length]
  | function params _ contextCount hasReceiver suspend =>
    [6, suspend.toNat, hasReceiver.toNat, contextCount, params.length]
  | intersection parts => [14, parts.length]
  | ty => [ty.structuralRank]

def spelling : Ty → Text
  | tyParam name _ => name
  | var name _ => name
  | _ => []

/-- The types that `structural_cmp` goes on to compare below the root. It stops at a mutability-flexible
type. -/
def children : Ty → List Ty
  | obj _ args => args
  | function params ret _ _ _ => params ++ [ret]
  | nullable inner => [inner]
  | platformNullable inner => [inner]
  | inProjection inner => [inner]
  | outProjection inner => [inner]
  | starProjection inner => [inner]
  | rawProjection inner => [inner]
  | tyParam _ bound => [bound]
  | var _ bound => [bound]
  | definitelyNotNull inner => [inner]
  | intersection parts => parts
  | _ => []

theorem sizeOf_lt_of_mem_children {ty child : Ty} (h : child ∈ ty.children) : sizeOf child < sizeOf ty := by
  cases ty with
  | obj name args =>
    have hlt := List.sizeOf_lt_of_mem (show child ∈ args from h)
    simp only [obj.sizeOf_spec]
    omega
  | intersection parts =>
    have hlt := List.sizeOf_lt_of_mem (show child ∈ parts from h)
    simp only [intersection.sizeOf_spec]
    omega
  | function params ret contextCount hasReceiver suspend =>
    simp only [function.sizeOf_spec]
    rcases List.mem_append.mp h with hparam | hret
    · have hlt := List.sizeOf_lt_of_mem hparam
      omega
    · rw [List.mem_singleton.mp hret]
      omega
  | _ =>
    first
    | (rw [List.mem_singleton.mp h]; simp)
    | cases h

end Ty

/-- Roots compare by their numbers, then by a type parameter's name. -/
def rootCmp (left right : Ty) : Ordering :=
  (List.compareLex cmp left.numbers right.numbers).then (List.compareLex cmp left.spelling right.spelling)

theorem structuralCmpAll_eq {lefts : List Ty} : ∀ {rights : List Ty}, lefts.length = rights.length →
    structuralCmpAll lefts rights = List.compareLex structuralCmp lefts rights := by
  induction lefts with
  | nil =>
    intro rights h
    rw [List.eq_nil_of_length_eq_zero h.symm]
    rfl
  | cons left lefts ih =>
    intro rights h
    cases rights with
    | nil => cases h
    | cons right rights => rw [structuralCmpAll, List.compareLex_cons_cons, ih (Nat.succ.inj h)]

theorem cmp_length_then {lefts rights : List Ty} :
    (cmp lefts.length rights.length).then (structuralCmpAll lefts rights) =
      (cmp lefts.length rights.length).then (List.compareLex structuralCmp lefts rights) :=
  then_congr fun h => structuralCmpAll_eq ((cmp_eq_eq_iff _ _).mp h)

theorem Ty.numbers_eq (ty : Ty) : ∃ rest, ty.numbers = ty.structuralRank :: rest := by
  cases ty <;> exact ⟨_, rfl⟩

variable {left right : Ty}

theorem cmp_length_then_snoc {lefts rights : List Ty} : (cmp lefts.length rights.length).then
        (List.compareLex structuralCmp (lefts ++ [left]) (rights ++ [right])) =
      (cmp lefts.length rights.length).then
        ((List.compareLex structuralCmp lefts rights).then (structuralCmp left right)) :=
  then_congr fun h => compareLex_snoc ((cmp_eq_eq_iff _ _).mp h)

theorem cmp_toNat (a b : Bool) : cmp a.toNat b.toNat = cmp a b := by
  cases a <;> cases b <;> rfl

theorem toNat_inj {a b : Bool} : a.toNat = b.toNat ↔ a = b := by
  cases a <;> cases b <;> decide

theorem structuralCmp_eq_of_rank (h : left.structuralRank = right.structuralRank) : structuralCmp left right =
      (rootCmp left right).then (List.compareLex structuralCmp left.children right.children) := by
  -- every pair of constructors, of which the ranks leave the eighteen equal ones
  cases left <;> cases right <;> (try (cases h; done))
  all_goals
    simp [structuralCmp, rootCmp, Ty.numbers, Ty.spelling, Ty.children, Ty.structuralRank,
      List.compareLex_cons_cons, List.compareLex_nil_nil,
      cmp_length_then, cmp_length_then_snoc, cmp_toNat, Ordering.then_assoc]

theorem structuralCmp_eq (left right : Ty) : structuralCmp left right =
    (rootCmp left right).then (List.compareLex structuralCmp left.children right.children) := by
  by_cases h : left.structuralRank = right.structuralRank
  · exact structuralCmp_eq_of_rank h
  · obtain ⟨lefts, hleft⟩ := left.numbers_eq
    obtain ⟨rights, hright⟩ := right.numbers_eq
    have hne : cmp left.structuralRank right.structuralRank ≠ .eq := fun heq => h ((cmp_eq_eq_iff _ _).mp heq)
    have hroot : rootCmp left right = cmp left.structuralRank right.structuralRank := by
      unfold rootCmp
      rw [hleft, hright, List.compareLex_cons_cons]
      revert hne
      cases cmp left.structuralRank right.structuralRank <;> simp
    rw [hroot]
    unfold structuralCmp
    revert hne
    cases cmp left.structuralRank right.structuralRank <;> simp

theorem lawful_rootCmp : Lawful rootCmp :=
  (lawful_cmp.compareLex.comap Ty.numbers).then (lawful_cmp.compareLex.comap Ty.spelling)

/-- The structural order compares roots, then children. -/
theorem structuralLayers : Layered structuralCmp rootCmp id Ty.children sizeOf where
  size_lt := Ty.sizeOf_lt_of_mem_children
  lawful := lawful_rootCmp
  compare_eq := structuralCmp_eq

theorem lawful_structuralCmp : Lawful structuralCmp := structuralLayers.toLawful

/-- A type without a mutability-flexible type in it. -/
inductive Rigid : Ty → Prop
  | mk {ty : Ty} (root : ∀ inner, ty ≠ .mutabilityFlexible inner) (below : ∀ child ∈ ty.children, Rigid child) :
    Rigid ty

theorem Rigid.children {ty : Ty} (h : Rigid ty) : ∀ child ∈ ty.children, Rigid child := by
  cases h with
  | mk root below => exact below

theorem Rigid.root {ty : Ty} (h : Rigid ty) : ∀ inner, ty ≠ .mutabilityFlexible inner := by
  cases h with
  | mk root below => exact root

/-- A rigid type is its root and its children. -/
theorem eq_of_root_of_children (hleft : Rigid left) (hroot : rootCmp left right = .eq)
    (hchildren : left.children = right.children) : left = right := by
  obtain ⟨hnumbers, hspelling⟩ := Ordering.then_eq_eq.mp hroot
  replace hnumbers := eq_of_compareLex_cmp hnumbers
  replace hspelling := eq_of_compareLex_cmp hspelling
  have hflexible := hleft.root
  have hrank : left.structuralRank = right.structuralRank := by
    obtain ⟨lefts, hleft'⟩ := left.numbers_eq
    obtain ⟨rights, hright'⟩ := right.numbers_eq
    rw [hleft', hright'] at hnumbers
    exact (List.cons.inj hnumbers).1
  cases left <;> cases right <;> (try (cases hrank; done))
  all_goals simp_all [Ty.numbers, Ty.spelling, Ty.children, toNat_inj]

theorem eq_of_structuralCmp (hleft : Rigid left) (h : structuralCmp left right = .eq) : left = right :=
  structuralLayers.eq_of_eq Rigid.children eq_of_root_of_children hleft h

/-! ### The order of components -/

def typePathCmp (names : NameTree) (left right : TypeName) : Ordering :=
  List.compareLex (List.compareLex cmp) (names.segments left) (names.segments right)

mutual

/-- Components by their name paths, then by structure. -/
def componentOrder (names : NameTree) (left right : Ty) : Ordering :=
  match left, right with
  | .obj leftName leftArgs, .obj rightName rightArgs =>
    (typePathCmp names leftName rightName).then
      ((cmp leftArgs.length rightArgs.length).then (componentOrderAll names leftArgs rightArgs))
  | left, right => structuralCmp left right

def componentOrderAll (names : NameTree) : List Ty → List Ty → Ordering
  | left :: lefts, right :: rights =>
    (componentOrder names left right).then (componentOrderAll names lefts rights)
  | _, _ => .eq

end

namespace Ty

def path (names : NameTree) : Ty → List Text
  | obj name _ => names.segments name
  | _ => []

def args : Ty → List Ty
  | obj _ args => args
  | _ => []

/-- What `component_order` leaves to the structural order: nothing of a class type. -/
def shell : Ty → Ty
  | obj _ _ => unit
  | ty => ty

theorem sizeOf_lt_of_mem_args {ty arg : Ty} (h : arg ∈ ty.args) : sizeOf arg < sizeOf ty := by
  cases ty with
  | obj name args => exact sizeOf_lt_of_mem_children h
  | _ => cases h

end Ty

variable (names : NameTree)

def shellCmp (left right : Ty) : Ordering :=
  (cmp left.structuralRank right.structuralRank).then
    ((List.compareLex (List.compareLex cmp) (left.path names) (right.path names)).then
      ((cmp left.args.length right.args.length).then (structuralCmp left.shell right.shell)))

theorem lawful_shellCmp : Lawful (shellCmp names) :=
  (lawful_cmp.comap Ty.structuralRank).then
    ((lawful_cmp.compareLex.compareLex.comap (Ty.path names)).then
      ((lawful_cmp.comap fun ty => ty.args.length).then (lawful_structuralCmp.comap Ty.shell)))

theorem componentOrderAll_eq {lefts : List Ty} : ∀ {rights : List Ty}, lefts.length = rights.length →
    componentOrderAll names lefts rights = List.compareLex (componentOrder names) lefts rights := by
  induction lefts with
  | nil =>
    intro rights h
    rw [List.eq_nil_of_length_eq_zero h.symm]
    rfl
  | cons left lefts ih =>
    intro rights h
    cases rights with
    | nil => cases h
    | cons right rights => rw [componentOrderAll, List.compareLex_cons_cons, ih (Nat.succ.inj h)]

theorem rank_then_structuralCmp (left right : Ty) :
    (cmp left.structuralRank right.structuralRank).then (structuralCmp left right) =
      structuralCmp left right := by
  unfold structuralCmp
  rw [← Ordering.then_assoc]
  cases cmp left.structuralRank right.structuralRank <;> rfl

theorem componentOrder_of_rank (h : left.structuralRank ≠ 1 ∨ right.structuralRank ≠ 1) :
    componentOrder names left right = structuralCmp left right := by
  unfold componentOrder
  split
  · simp [Ty.structuralRank] at h
  · rfl

theorem shell_of_rank {ty : Ty} (h : ty.structuralRank ≠ 1) :
    ty.path names = [] ∧ ty.args = [] ∧ ty.shell = ty := by
  cases ty with
  | obj name args => exact absurd rfl h
  | _ => exact ⟨rfl, rfl, rfl⟩

theorem componentOrder_eq (left right : Ty) : componentOrder names left right =
    (shellCmp names left right).then
      (List.compareLex (componentOrder names) left.args right.args) := by
  by_cases hobj : left.structuralRank = 1 ∧ right.structuralRank = 1
  · cases left <;> (try (cases hobj.1; done))
    cases right <;> (try (cases hobj.2; done))
    simp only [shellCmp, Ty.path, Ty.args, Ty.shell, componentOrder, typePathCmp, Ordering.then_assoc]
    rw [lawful_structuralCmp.refl]
    refine congrArg _ (then_congr fun h => ?_)
    rw [componentOrderAll_eq names ((cmp_eq_eq_iff _ _).mp h)]
    rfl
  · have hother : left.structuralRank ≠ 1 ∨ right.structuralRank ≠ 1 := not_and_or.mp hobj
    rw [componentOrder_of_rank names hother, ← rank_then_structuralCmp, shellCmp, Ordering.then_assoc]
    refine then_congr fun h => ?_
    have hrank : left.structuralRank = right.structuralRank := (cmp_eq_eq_iff _ _).mp h
    have hleft : left.structuralRank ≠ 1 := fun h1 => hobj ⟨h1, hrank ▸ h1⟩
    have hright : right.structuralRank ≠ 1 := fun h1 => hobj ⟨hrank.trans h1, h1⟩
    obtain ⟨hpath, hargs, hshell⟩ := shell_of_rank names hleft
    obtain ⟨hpath', hargs', hshell'⟩ := shell_of_rank names hright
    rw [hpath, hargs, hshell, hpath', hargs', hshell']
    simp [List.compareLex_nil_nil]

theorem componentLayers : Layered (componentOrder names) (shellCmp names) id Ty.args sizeOf where
  size_lt := Ty.sizeOf_lt_of_mem_args
  lawful := lawful_shellCmp names
  compare_eq := componentOrder_eq names

theorem lawful_componentOrder : Lawful (componentOrder names) := (componentLayers names).toLawful

theorem eq_of_shell_of_args (hleft : Rigid left) (hshell : shellCmp names left right = .eq)
    (hargs : left.args = right.args) : left = right := by
  obtain ⟨hrank, hshell⟩ := Ordering.then_eq_eq.mp hshell
  obtain ⟨hpath, hshell⟩ := Ordering.then_eq_eq.mp hshell
  replace hrank := (cmp_eq_eq_iff _ _).mp hrank
  replace hshell := (Ordering.then_eq_eq.mp hshell).2
  by_cases hobj : left.structuralRank = 1
  · cases left <;> (try (cases hobj; done))
    cases right <;> (try (cases hrank; done))
    have hsegments := eq_of_compareLex (fun a _ b hab => eq_of_compareLex_cmp hab) hpath
    exact congrArg₂ Ty.obj (names.injective hsegments) hargs
  · have hobj' : right.structuralRank ≠ 1 := hrank ▸ hobj
    rw [(shell_of_rank names hobj).2.2, (shell_of_rank names hobj').2.2] at hshell
    exact eq_of_structuralCmp hleft hshell

theorem Rigid.args {ty : Ty} (h : Rigid ty) : ∀ arg ∈ ty.args, Rigid arg := by
  intro arg harg
  cases ty with
  | obj name args => exact h.children arg harg
  | _ => cases harg

theorem eq_of_componentOrder (hleft : Rigid left) (h : componentOrder names left right = .eq) : left = right :=
  (componentLayers names).eq_of_eq Rigid.args (eq_of_shell_of_args names) hleft h

/-! ### Components -/

structure Piece where
  core : Ty
  nullable : Bool

mutual

/-- The components a type stands for, with nullability split off. -/
def decompose : Ty → Bool → List Piece
  | .error, _ => []
  | .nullable inner, _ => decompose inner true
  | .platformNullable inner, _ => decompose inner true
  | .mutabilityFlexible inner, inheritedNullable => decompose inner inheritedNullable
  | .intersection parts, inheritedNullable => decomposeAll parts inheritedNullable
  | .null, _ => [⟨.nothing, true⟩]
  | ty, inheritedNullable => [⟨ty, inheritedNullable⟩]

def decomposeAll : List Ty → Bool → List Piece
  | [], _ => []
  | part :: parts, inheritedNullable => decompose part inheritedNullable ++ decomposeAll parts inheritedNullable

end

def addUnique (seen : List Ty) (ty : Ty) : List Ty :=
  if seen.any fun other => structuralCmp other ty == .eq then seen else seen ++ [ty]

/-- The types of a list that are not equal to an earlier one. -/
def unique (types : List Ty) : List Ty := types.foldl addUnique []

def Ty.isNothing : Ty → Bool
  | nothing => true
  | _ => false

/-- The intersection of components in order, nullable where all of them were. -/
def present (allNullable : Bool) : List Ty → Ty
  | [] => .nothing
  | [one] => if allNullable then one.nullableOf else one
  | many => if allNullable then (Ty.intersection many).nullableOf else .intersection many

def sortCores (cores : List Ty) : List Ty :=
  (unique cores).insertionSort fun left right => componentOrder names left right ≠ .gt

/-- `canonical`, once the parts are taken apart. -/
def assemble (pieces : List Piece) : Ty :=
  if pieces.isEmpty then .nothing
  else if pieces.any fun piece => piece.core.isNothing && !piece.nullable then .nothing
  else if pieces.any fun piece => piece.core.isNothing && piece.nullable then
    if pieces.all (·.nullable) then Ty.nothing.nullableOf else .nothing
  else present (pieces.all (·.nullable)) (sortCores names (pieces.map (·.core)))

def piecesOf (parts : List Ty) : List Piece := parts.flatMap (decompose · false)

def canonical (parts : List Ty) : Ty := assemble names (piecesOf parts)

/-! #### Cores -/

theorem decomposeAll_eq (parts : List Ty) (nullable : Bool) :
    decomposeAll parts nullable = parts.flatMap (decompose · nullable) := by
  induction parts with
  | nil => rfl
  | cons part parts ih => rw [decomposeAll, ih, List.flatMap_cons]

/-- A type that is its own and only component. -/
def Ty.isCore : Ty → Bool
  | error => false
  | null => false
  | nullable _ => false
  | platformNullable _ => false
  | mutabilityFlexible _ => false
  | intersection _ => false
  | _ => true

theorem decompose_core {core : Ty} (h : core.isCore) (nullable : Bool) :
    decompose core nullable = [⟨core, nullable⟩] := by
  cases core <;> first | rfl | cases h

theorem isCore_of_mem_decompose {ty : Ty} {nullable : Bool} {piece : Piece}
    (h : piece ∈ decompose ty nullable) : piece.core.isCore := by
  cases ty with
  | error => cases h
  | nullable inner =>
    unfold decompose at h
    exact isCore_of_mem_decompose h
  | platformNullable inner =>
    unfold decompose at h
    exact isCore_of_mem_decompose h
  | mutabilityFlexible inner =>
    unfold decompose at h
    exact isCore_of_mem_decompose h
  | intersection parts =>
    unfold decompose at h
    rw [decomposeAll_eq] at h
    obtain ⟨part, hpart, hpiece⟩ := List.mem_flatMap.mp h
    have hlt := List.sizeOf_lt_of_mem hpart
    exact isCore_of_mem_decompose hpiece
  | _ =>
    rw [List.mem_singleton.mp h]
    rfl
termination_by sizeOf ty

theorem nullableOf_core {core : Ty} (h : core.isCore) (hne : ∀ inner, core ≠ .definitelyNotNull inner) :
    core.nullableOf = .nullable core := by
  cases core with
  | definitelyNotNull inner => exact absurd rfl (hne inner)
  | _ => first | rfl | cases h

theorem isNothing_iff {ty : Ty} : ty.isNothing = true ↔ ty = .nothing := by
  cases ty <;> simp [Ty.isNothing]

/-! #### The components left after repetition -/

theorem addUnique_cases (seen : List Ty) (ty : Ty) :
    (addUnique seen ty = seen ∧ ∃ other ∈ seen, structuralCmp other ty = .eq) ∨
      (addUnique seen ty = seen ++ [ty] ∧ ty ∉ seen) := by
  unfold addUnique
  split
  · rename_i h
    obtain ⟨other, hother, heq⟩ := List.any_eq_true.mp h
    exact .inl ⟨rfl, other, hother, by simpa using heq⟩
  · rename_i h
    refine .inr ⟨rfl, fun hmem => h (List.any_eq_true.mpr ⟨ty, hmem, ?_⟩)⟩
    simp [lawful_structuralCmp.refl]

theorem nodup_addUnique {seen : List Ty} (h : seen.Nodup) (ty : Ty) : (addUnique seen ty).Nodup := by
  rcases addUnique_cases seen ty with hsame | hnew
  · rwa [hsame.1]
  · rw [hnew.1, List.nodup_append]
    refine ⟨h, List.nodup_singleton ty, fun a ha b hb hab => hnew.2 ?_⟩
    rw [← List.mem_singleton.mp hb, ← hab]
    exact ha

theorem mem_addUnique {seen : List Ty} (h : ∀ other ∈ seen, Rigid other) {ty other : Ty} :
    other ∈ addUnique seen ty ↔ other ∈ seen ∨ other = ty := by
  rcases addUnique_cases seen ty with ⟨hsame, equal, hequal, heq⟩ | hnew
  · rw [hsame]
    refine ⟨Or.inl, fun hother => hother.elim id fun hty => ?_⟩
    rw [hty, ← eq_of_structuralCmp (h equal hequal) heq]
    exact hequal
  · rw [hnew.1, List.mem_append, List.mem_singleton]

theorem nodup_unique (types : List Ty) : (unique types).Nodup := by
  have hstep : ∀ seen : List Ty, seen.Nodup → (types.foldl addUnique seen).Nodup := by
    induction types with
    | nil => exact fun seen h => h
    | cons ty types ih => exact fun seen h => ih _ (nodup_addUnique h ty)
  exact hstep [] List.nodup_nil

theorem mem_unique {types : List Ty} (h : ∀ ty ∈ types, Rigid ty) {ty : Ty} :
    ty ∈ unique types ↔ ty ∈ types := by
  have hstep : ∀ seen : List Ty, (∀ other ∈ seen, Rigid other) →
      (ty ∈ types.foldl addUnique seen ↔ ty ∈ seen ∨ ty ∈ types) := by
    induction types with
    | nil => simp
    | cons first types ih =>
      intro seen hseen
      have hrigid : ∀ other ∈ addUnique seen first, Rigid other := fun other hother =>
        ((mem_addUnique hseen).mp hother).elim (hseen other) fun heq => heq ▸ h first List.mem_cons_self
      rw [List.foldl_cons, ih (fun other hother => h other (List.mem_cons_of_mem first hother)) _ hrigid,
        mem_addUnique hseen, List.mem_cons, or_assoc]
  rw [unique, hstep [] (by simp)]
  simp

theorem mem_sortCores {cores : List Ty} (h : ∀ core ∈ cores, Rigid core) {core : Ty} :
    core ∈ sortCores names cores ↔ core ∈ cores := by
  rw [sortCores, List.mem_insertionSort, mem_unique h]

/-- The sorted components depend on which there are. -/
theorem sortCores_congr {cores cores' : List Ty} (h : ∀ core ∈ cores, Rigid core)
    (hmem : ∀ core, core ∈ cores ↔ core ∈ cores') : sortCores names cores = sortCores names cores' := by
  have h' : ∀ core ∈ cores', Rigid core := fun core hcore => h core ((hmem core).mpr hcore)
  have hlawful := lawful_componentOrder names
  have htrans : IsTrans Ty fun left right => componentOrder names left right ≠ .gt :=
    ⟨fun a b c hab hbc => (hlawful.consistent a b c).ne_gt hab hbc⟩
  have htotal : Std.Total fun left right => componentOrder names left right ≠ .gt := by
    refine ⟨fun a b => ?_⟩
    rw [hlawful.swap a b]
    cases componentOrder names b a <;> simp
  have hperm : (sortCores names cores).Perm (sortCores names cores') := by
    refine (List.perm_insertionSort _ _).trans (.trans ?_ (List.perm_insertionSort _ _).symm)
    refine (List.perm_ext_iff_of_nodup (nodup_unique cores) (nodup_unique cores')).mpr fun core => ?_
    rw [mem_unique h, mem_unique h', hmem]
  refine List.Perm.eq_of_pairwise (fun a b ha _ hab hba => ?_)
    (List.pairwise_insertionSort _ _) (List.pairwise_insertionSort _ _) hperm
  refine eq_of_componentOrder names (h a ((mem_sortCores names h).mp ha)) ?_
  rw [hlawful.swap b a] at hba
  revert hab hba
  cases componentOrder names a b <;> simp

/-! #### One type for the components -/

def cores (pieces : List Piece) : List Ty := pieces.map (·.core)

def allNullable (pieces : List Piece) : Bool := pieces.all (·.nullable)

theorem allNullable_eq_true {pieces : List Piece} :
    allNullable pieces = true ↔ ∀ piece ∈ pieces, piece.nullable = true := List.all_eq_true

variable {names : NameTree} {pieces : List Piece}

/-- `Nothing` takes in every other component. -/
theorem assemble_nothing (h : .nothing ∈ cores pieces) :
    assemble names pieces = if allNullable pieces then .nullable .nothing else .nothing := by
  obtain ⟨piece, hpiece, hcore⟩ := List.mem_map.mp h
  have hne : pieces.isEmpty = false := by
    cases pieces with
    | nil => cases hpiece
    | cons _ _ => rfl
  have hnothing : piece.core.isNothing = true := isNothing_iff.mpr hcore
  unfold assemble
  rw [hne]
  by_cases hnull : ∃ other ∈ pieces, (other.core.isNothing && !other.nullable) = true
  · obtain ⟨other, hother, hboth⟩ := hnull
    have hsome : ¬allNullable pieces = true := by
      rw [allNullable_eq_true]
      intro hall
      simp [hall other hother] at hboth
    rw [List.any_eq_true.mpr ⟨other, hother, hboth⟩]
    simp [hsome]
  · have hnone : (pieces.any fun other => other.core.isNothing && !other.nullable) = false := by
      rw [Bool.eq_false_iff]
      exact fun hany => hnull (List.any_eq_true.mp hany)
    have hsome : (pieces.any fun other => other.core.isNothing && other.nullable) = true := by
      refine List.any_eq_true.mpr ⟨piece, hpiece, ?_⟩
      cases hp : piece.nullable with
      | true => rw [hnothing]; rfl
      | false => exact absurd ⟨piece, hpiece, by simp [hnothing, hp]⟩ hnull
    rw [hnone, hsome]
    rfl

theorem assemble_cores (hne : pieces ≠ []) (h : .nothing ∉ cores pieces) :
    assemble names pieces = present (allNullable pieces) (sortCores names (cores pieces)) := by
  have hnothing : ∀ piece ∈ pieces, piece.core.isNothing = false := fun piece hpiece => by
    rw [Bool.eq_false_iff]
    exact fun hcore => h (List.mem_map.mpr ⟨piece, hpiece, isNothing_iff.mp hcore⟩)
  have hany : ∀ flag : Piece → Bool, (pieces.any fun piece => piece.core.isNothing && flag piece) = false := by
    intro flag
    rw [Bool.eq_false_iff]
    intro hany
    obtain ⟨piece, hpiece, hboth⟩ := List.any_eq_true.mp hany
    rw [hnothing piece hpiece] at hboth
    cases hboth
  have hempty : pieces.isEmpty = false := by
    cases pieces with
    | nil => exact absurd rfl hne
    | cons _ _ => rfl
  unfold assemble
  rw [hempty, hany, hany]
  rfl

theorem assemble_congr {pieces' : List Piece} (hne : pieces ≠ []) (hne' : pieces' ≠ [])
    (hrigid : ∀ core ∈ cores pieces, Rigid core) (hnull : allNullable pieces = allNullable pieces')
    (hnothing : .nothing ∈ cores pieces ↔ .nothing ∈ cores pieces')
    (hcores : .nothing ∉ cores pieces → ∀ core, core ∈ cores pieces ↔ core ∈ cores pieces') :
    assemble names pieces = assemble names pieces' := by
  by_cases h : .nothing ∈ cores pieces
  · rw [assemble_nothing h, assemble_nothing (hnothing.mp h), hnull]
  · rw [assemble_cores hne h, assemble_cores hne' fun h' => h (hnothing.mpr h'), hnull,
      sortCores_congr names hrigid (hcores h)]

/-- Taking a presented intersection apart gives its components back. -/
theorem decompose_present {all : Bool} {types : List Ty} (hne : types ≠ []) (hcore : ∀ ty ∈ types, ty.isCore)
    (hnull : all = true → ∀ ty ∈ types, ∀ inner, ty ≠ .definitelyNotNull inner) :
    decompose (present all types) false = types.map (⟨·, all⟩) := by
  have hmany : ∀ nullable, decompose (.intersection types) nullable = types.map (⟨·, nullable⟩) := by
    intro nullable
    unfold decompose
    rw [decomposeAll_eq]
    clear hne hnull
    induction types with
    | nil => rfl
    | cons ty types ih =>
      rw [List.flatMap_cons, decompose_core (hcore ty List.mem_cons_self),
        ih fun other hother => hcore other (List.mem_cons_of_mem ty hother)]
      rfl
  cases types with
  | nil => exact absurd rfl hne
  | cons ty types =>
    have hty := hcore ty List.mem_cons_self
    cases types with
    | nil =>
      cases all with
      | true =>
        simp only [present, if_true, nullableOf_core hty (hnull rfl ty List.mem_cons_self)]
        exact decompose_core hty true
      | false => exact decompose_core hty false
    | cons other types =>
      cases all with
      | true => exact hmany true
      | false => exact hmany false

theorem decompose_assemble (hne : pieces ≠ []) (hcore : ∀ piece ∈ pieces, piece.core.isCore)
    (hrigid : ∀ core ∈ cores pieces, Rigid core)
    (hnull : ∀ piece ∈ pieces, piece.nullable = true → ∀ inner, piece.core ≠ .definitelyNotNull inner) :
    ∃ types, decompose (assemble names pieces) false = types.map (⟨·, allNullable pieces⟩) ∧ types ≠ [] ∧
      (.nothing ∈ types ↔ .nothing ∈ cores pieces) ∧
      (.nothing ∉ cores pieces → ∀ core, core ∈ types ↔ core ∈ cores pieces) := by
  by_cases h : .nothing ∈ cores pieces
  · refine ⟨[.nothing], ?_, by simp, by simp [h], fun hnot => absurd h hnot⟩
    rw [assemble_nothing h]
    cases allNullable pieces <;> rfl
  · have hmem : ∀ core, core ∈ sortCores names (cores pieces) ↔ core ∈ cores pieces := fun core =>
      mem_sortCores names hrigid
    have hsorted : sortCores names (cores pieces) ≠ [] := by
      obtain ⟨piece, hpiece⟩ := List.exists_mem_of_ne_nil pieces hne
      exact List.ne_nil_of_mem ((hmem piece.core).mpr (List.mem_map_of_mem hpiece))
    refine ⟨sortCores names (cores pieces), ?_, hsorted, hmem _, fun _ => hmem⟩
    rw [assemble_cores hne h]
    refine decompose_present hsorted (fun ty hty => ?_) fun hall ty hty => ?_
    · obtain ⟨piece, hpiece, heq⟩ := List.mem_map.mp ((hmem ty).mp hty)
      exact heq ▸ hcore piece hpiece
    · obtain ⟨piece, hpiece, heq⟩ := List.mem_map.mp ((hmem ty).mp hty)
      exact heq ▸ hnull piece hpiece (allNullable_eq_true.mp hall piece hpiece)

/-! ### Lists of components -/

/-- A type without an error type in it, whose intersections have components. -/
inductive ErrorFree : Ty → Prop
  | mk {ty : Ty} (error : ty ≠ .error) (parts : ty ≠ .intersection [])
    (children : ∀ child ∈ ty.children, ErrorFree child)
    (flexible : ∀ inner, ty = .mutabilityFlexible inner → ErrorFree inner) : ErrorFree ty

/-- A type whose components the structural order tells apart, and of which none is a nullable `T & Any`. -/
def Settled (ty : Ty) : Prop :=
  ∀ piece ∈ decompose ty false, Rigid piece.core ∧
    (piece.nullable = true → ∀ inner, piece.core ≠ .definitelyNotNull inner)

theorem ErrorFree.decompose_ne_nil {ty : Ty} (h : ErrorFree ty) : ∀ nullable, decompose ty nullable ≠ [] := by
  induction h with
  | mk error parts children flexible ihchildren ihflexible =>
    intro nullable
    rename_i ty
    cases ty with
    | error => exact absurd rfl error
    | nullable inner => exact ihchildren inner List.mem_cons_self true
    | platformNullable inner => exact ihchildren inner List.mem_cons_self true
    | mutabilityFlexible inner => exact ihflexible inner rfl nullable
    | intersection parts' =>
      cases parts' with
      | nil => exact absurd rfl parts
      | cons part parts' =>
        unfold decompose decomposeAll
        exact List.append_ne_nil_of_left_ne_nil (ihchildren part List.mem_cons_self nullable) _
    | _ => exact List.cons_ne_nil _ _

section Lists

variable {parts : List Ty}

theorem piecesOf_ne_nil (hne : parts ≠ []) (h : ∀ part ∈ parts, ErrorFree part) : piecesOf parts ≠ [] := by
  obtain ⟨part, hpart⟩ := List.exists_mem_of_ne_nil parts hne
  obtain ⟨piece, hpiece⟩ := List.exists_mem_of_ne_nil _ ((h part hpart).decompose_ne_nil false)
  exact List.ne_nil_of_mem (List.mem_flatMap.mpr ⟨part, hpart, hpiece⟩)

theorem mem_cores_piecesOf {core : Ty} :
    core ∈ cores (piecesOf parts) ↔ ∃ part ∈ parts, core ∈ cores (decompose part false) := by
  rw [cores, piecesOf, List.map_flatMap, List.mem_flatMap]
  rfl

theorem allNullable_piecesOf :
    allNullable (piecesOf parts) = true ↔ ∀ part ∈ parts, allNullable (decompose part false) = true := by
  simp only [allNullable_eq_true, piecesOf, List.mem_flatMap]
  exact ⟨fun h part hpart piece hpiece => h piece ⟨part, hpart, hpiece⟩,
    fun h piece hpiece => hpiece.elim fun part hpart => h part hpart.1 piece hpart.2⟩

/-- The pieces of the intersection of a group, beside those of the group. -/
theorem decompose_canonical (names : NameTree) (hne : parts ≠ [])
    (h : ∀ part ∈ parts, ErrorFree part ∧ Settled part) :
    ∃ types, decompose (canonical names parts) false = types.map (⟨·, allNullable (piecesOf parts)⟩) ∧
      types ≠ [] ∧
      (.nothing ∈ types ↔ .nothing ∈ cores (piecesOf parts)) ∧
      (.nothing ∉ cores (piecesOf parts) → ∀ core, core ∈ types ↔ core ∈ cores (piecesOf parts)) := by
  have hsettled : ∀ piece ∈ piecesOf parts, Rigid piece.core ∧
      (piece.nullable = true → ∀ inner, piece.core ≠ .definitelyNotNull inner) := fun piece hpiece => by
    obtain ⟨part, hpart, hmem⟩ := List.mem_flatMap.mp hpiece
    exact (h part hpart).2 piece hmem
  refine decompose_assemble (piecesOf_ne_nil hne fun part hpart => (h part hpart).1) (fun piece hpiece => ?_)
    (fun core hcore => ?_) fun piece hpiece => (hsettled piece hpiece).2
  · obtain ⟨part, hpart, hmem⟩ := List.mem_flatMap.mp hpiece
    exact isCore_of_mem_decompose hmem
  · obtain ⟨piece, hpiece, heq⟩ := List.mem_map.mp hcore
    exact heq ▸ (hsettled piece hpiece).1

theorem rigid_of_mem_cores (h : ∀ part ∈ parts, ErrorFree part ∧ Settled part) :
    ∀ core ∈ cores (piecesOf parts), Rigid core := by
  intro core hcore
  obtain ⟨part, hpart, hmem⟩ := mem_cores_piecesOf.mp hcore
  obtain ⟨piece, hpiece, heq⟩ := List.mem_map.mp hmem
  exact heq ▸ ((h part hpart).2 piece hpiece).1

theorem canonical_congr (names : NameTree) (hne : parts ≠ [])
    (h : ∀ part ∈ parts, ErrorFree part ∧ Settled part)
    {other : List Ty} (hmem : ∀ part, part ∈ other ↔ part ∈ parts) :
    canonical names other = canonical names parts := by
  have hother : other ≠ [] := by
    obtain ⟨part, hpart⟩ := List.exists_mem_of_ne_nil parts hne
    exact List.ne_nil_of_mem ((hmem part).mpr hpart)
  have hfree : ∀ part ∈ other, ErrorFree part ∧ Settled part := fun part hpart => h part ((hmem part).mp hpart)
  have hcores : ∀ core, core ∈ cores (piecesOf other) ↔ core ∈ cores (piecesOf parts) := fun core => by
    simp only [mem_cores_piecesOf, hmem]
  refine assemble_congr (piecesOf_ne_nil hother fun part hpart => (hfree part hpart).1)
    (piecesOf_ne_nil hne fun part hpart => (h part hpart).1) (rigid_of_mem_cores hfree) ?_ (hcores _)
    fun _ => hcores
  rw [Bool.eq_iff_iff, allNullable_piecesOf, allNullable_piecesOf]
  simp only [hmem]

theorem allNullable_map {types : List Ty} (hne : types ≠ []) (all : Bool) :
    allNullable (types.map (⟨·, all⟩)) = all := by
  obtain ⟨ty, hty⟩ := List.exists_mem_of_ne_nil types hne
  rw [Bool.eq_iff_iff, allNullable_eq_true, List.forall_mem_map]
  exact ⟨fun hall => hall ty hty, fun hall _ _ => hall⟩

theorem cores_map (types : List Ty) (all : Bool) : cores (types.map (⟨·, all⟩)) = types := by
  rw [cores, List.map_map]
  exact List.map_id types

theorem canonical_groups (names : NameTree) (hne : parts ≠ [])
    (h : ∀ part ∈ parts, ErrorFree part ∧ Settled part)
    {groups : List (List Ty)} (hgroups : ∀ group ∈ groups, group ≠ [])
    (hmem : ∀ part, part ∈ groups.flatten ↔ part ∈ parts) :
    canonical names (groups.map (canonical names)) = canonical names parts := by
  have hgroup : ∀ group ∈ groups, ∃ types,
      decompose (canonical names group) false = types.map (⟨·, allNullable (piecesOf group)⟩) ∧ types ≠ [] ∧
        (.nothing ∈ types ↔ .nothing ∈ cores (piecesOf group)) ∧
        (.nothing ∉ cores (piecesOf group) → ∀ core, core ∈ types ↔ core ∈ cores (piecesOf group)) := by
    intro group hg
    exact decompose_canonical names (hgroups group hg) fun part hpart =>
      h part ((hmem part).mp (List.mem_flatten.mpr ⟨group, hg, hpart⟩))
  -- what the parts have, some group has
  have hcores : ∀ core,
      core ∈ cores (piecesOf parts) ↔ ∃ group ∈ groups, core ∈ cores (piecesOf group) := by
    intro core
    simp only [mem_cores_piecesOf, ← hmem, List.mem_flatten]
    constructor
    · rintro ⟨part, ⟨group, hg, hpart⟩, hcore⟩
      exact ⟨group, hg, part, hpart, hcore⟩
    · rintro ⟨group, hg, part, hpart, hcore⟩
      exact ⟨part, ⟨group, hg, hpart⟩, hcore⟩
  have hresults : ∀ core, core ∈ cores (piecesOf (groups.map (canonical names))) ↔
      ∃ group ∈ groups, core ∈ cores (decompose (canonical names group) false) := by
    intro core
    simp only [mem_cores_piecesOf, List.mem_map, exists_exists_and_eq_and]
  have hnothing : .nothing ∈ cores (piecesOf parts) ↔
      .nothing ∈ cores (piecesOf (groups.map (canonical names))) := by
    rw [hcores, hresults]
    refine exists_congr fun group => and_congr_right fun hg => ?_
    obtain ⟨types, hdecompose, -, hiff, -⟩ := hgroup group hg
    rw [hdecompose, cores_map, hiff]
  refine (assemble_congr (piecesOf_ne_nil hne fun part hpart => (h part hpart).1) ?_ (rigid_of_mem_cores h) ?_
    hnothing ?_).symm
  · obtain ⟨part, hpart⟩ := List.exists_mem_of_ne_nil parts hne
    obtain ⟨group, hg, -⟩ := List.mem_flatten.mp ((hmem part).mpr hpart)
    obtain ⟨types, hdecompose, htypes, -, -⟩ := hgroup group hg
    obtain ⟨ty, hty⟩ := List.exists_mem_of_ne_nil types htypes
    have hpiece : ⟨ty, allNullable (piecesOf group)⟩ ∈ decompose (canonical names group) false := by
      rw [hdecompose]
      exact List.mem_map_of_mem hty
    exact List.ne_nil_of_mem (List.mem_flatMap.mpr ⟨_, List.mem_map_of_mem hg, hpiece⟩)
  · rw [Bool.eq_iff_iff, allNullable_piecesOf, allNullable_piecesOf, List.forall_mem_map]
    have hflag : ∀ group ∈ groups, allNullable (decompose (canonical names group) false) =
        allNullable (piecesOf group) := fun group hg => by
      obtain ⟨types, hdecompose, htypes, -, -⟩ := hgroup group hg
      rw [hdecompose, allNullable_map htypes]
    constructor
    · intro hall group hg
      rw [hflag group hg, allNullable_piecesOf]
      exact fun part hpart => hall part ((hmem part).mp (List.mem_flatten.mpr ⟨group, hg, hpart⟩))
    · intro hall part hpart
      obtain ⟨group, hg, hin⟩ := List.mem_flatten.mp ((hmem part).mpr hpart)
      have hgroupNull := hall group hg
      rw [hflag group hg, allNullable_piecesOf] at hgroupNull
      exact hgroupNull part hin
  · intro hnot core
    rw [hcores, hresults]
    refine exists_congr fun group => and_congr_right fun hg => ?_
    obtain ⟨types, hdecompose, -, -, hiff⟩ := hgroup group hg
    have hgroupNot : .nothing ∉ cores (piecesOf group) := fun hin => hnot ((hcores _).mpr ⟨group, hg, hin⟩)
    rw [hdecompose, cores_map, hiff hgroupNot]

end Lists

def sampleNames : NameTree where
  segments name := [List.replicate name 'a']
  injective a b h := by simpa using congrArg (fun path => (path.headD []).length) h

theorem errorFree_class (name : TypeName) : ErrorFree (.obj name []) :=
  .mk (by simp) (by simp) (fun _ hchild => by cases hchild) (fun _ h => by cases h)

theorem rigid_class (name : TypeName) : Rigid (.obj name []) :=
  .mk (by simp) (fun _ hchild => by cases hchild)

end Krusty.Types
