import Krusty.Lib.Results
import Krusty.Types.Intersection

/-! The denotable type a declaration publishes for an intersection, and when the components are subtypes of
it. -/
namespace Krusty.Types

inductive TypeVariance where
  | invariant
  | «in»
  | out
deriving DecidableEq

structure FnSig where
  params : List Ty
  ret : Ty
  contextCount : ℕ
  hasReceiver : Bool
  suspend : Bool

variable {ty : Ty}

namespace Ty

def signature : Ty → Option FnSig
  | function params ret contextCount hasReceiver suspend => some ⟨params, ret, contextCount, hasReceiver, suspend⟩
  | _ => none

def isFun : Ty → Bool
  | function _ _ _ _ _ => true
  | _ => false

def isNullable : Ty → Bool
  | nullable _ => true
  | _ => false

def nonNull : Ty → Ty
  | nullable inner => inner.nonNull
  | platformNullable inner => inner.nonNull
  | mutabilityFlexible inner => inner
  | ty => ty

def funWithShape (params : List Ty) (ret : Ty) (contextCount : ℕ) (hasReceiver suspend : Bool) : Ty :=
  function params ret (min contextCount params.length) hasReceiver suspend

/-- Whether a type is the classifier with so many arguments. -/
def hasClassifier (name : TypeName) (length : ℕ) : Ty → Bool
  | obj other args => other == name && args.length == length
  | _ => false

theorem sizeOf_nonNull_le (ty : Ty) : sizeOf ty.nonNull ≤ sizeOf ty := by
  cases ty with
  | nullable inner =>
    have hinner := sizeOf_nonNull_le inner
    unfold nonNull
    simp only [nullable.sizeOf_spec]
    omega
  | platformNullable inner =>
    have hinner := sizeOf_nonNull_le inner
    unfold nonNull
    simp only [platformNullable.sizeOf_spec]
    omega
  | mutabilityFlexible inner =>
    unfold nonNull
    simp only [mutabilityFlexible.sizeOf_spec]
    omega
  | _ => exact le_refl _

theorem sizeOf_nonNull_lt (h : ty.isNullable = true) : sizeOf ty.nonNull < sizeOf ty := by
  cases ty with
  | nullable inner =>
    have hinner := sizeOf_nonNull_le inner
    unfold nonNull
    simp only [nullable.sizeOf_spec]
    omega
  | _ => cases h

theorem sizeOf_ret_lt {ty ret : Ty} (h : ty.signature.map (·.ret) = some ret) : sizeOf ret < sizeOf ty := by
  cases ty with
  | function params ret' contextCount hasReceiver suspend =>
    rw [← Option.some.inj h, function.sizeOf_spec]
    dsimp only
    omega
  | _ => cases h

end Ty

/-! ### Sizes of lists -/

noncomputable def weight (types : List Ty) : ℕ := (types.map sizeOf).sum

theorem weight_cons (ty : Ty) (types : List Ty) : weight (ty :: types) = sizeOf ty + weight types := by
  rw [weight, List.map_cons, List.sum_cons, weight]

variable {types : List Ty}

theorem weight_filterMap_le {f : Ty → Option Ty}
    (hf : ∀ ty ∈ types, ∀ part, f ty = some part → sizeOf part < sizeOf ty) :
    weight (types.filterMap f) ≤ weight types := by
  induction types with
  | nil => exact le_refl _
  | cons ty types ih =>
    have htail := ih fun other hother => hf other (List.mem_cons_of_mem ty hother)
    rw [weight_cons]
    cases hpart : f ty with
    | none =>
      rw [List.filterMap_cons_none hpart]
      omega
    | some part =>
      have hlt := hf ty List.mem_cons_self part hpart
      rw [List.filterMap_cons_some hpart, weight_cons]
      omega

/-- Parts of the types weigh less than the types. -/
theorem weight_filterMap_lt {f : Ty → Option Ty}
    (hf : ∀ ty ∈ types, ∀ part, f ty = some part → sizeOf part < sizeOf ty) (hne : types ≠ []) :
    weight (types.filterMap f) < weight types := by
  cases types with
  | nil => exact absurd rfl hne
  | cons ty types =>
    have htail := weight_filterMap_le fun other hother => hf other (List.mem_cons_of_mem ty hother)
    rw [weight_cons]
    cases hpart : f ty with
    | none =>
      have hpos : 0 < sizeOf ty := by cases ty <;> simp
      rw [List.filterMap_cons_none hpart]
      omega
    | some part =>
      have hlt := hf ty List.mem_cons_self part hpart
      rw [List.filterMap_cons_some hpart, weight_cons]
      omega

theorem weight_addUnique_le (seen : List Ty) (ty : Ty) : weight (addUnique seen ty) ≤ weight seen + sizeOf ty := by
  rcases addUnique_cases seen ty with hsame | hnew
  · rw [hsame.1]
    omega
  · rw [hnew.1, weight, List.map_append, List.sum_append]
    simp [weight]

theorem weight_unique_le (types : List Ty) : weight (unique types) ≤ weight types := by
  have hstep : ∀ seen, weight (types.foldl addUnique seen) ≤ weight seen + weight types := by
    induction types with
    | nil => exact fun seen => le_refl _
    | cons ty types ih =>
      intro seen
      have hhead := weight_addUnique_le seen ty
      have htail := ih (addUnique seen ty)
      rw [List.foldl_cons, weight_cons]
      omega
  have hall := hstep []
  rwa [show weight [] = 0 from rfl, Nat.zero_add] at hall

/-! ### Approximation -/

def sharedClassifier (parts : List Ty) : Option (TypeName × ℕ) :=
  match parts with
  | .obj name arguments :: _ =>
    if parts.all (·.hasClassifier name arguments.length) then some (name, arguments.length) else none
  | _ => none

def argumentsAt (index : ℕ) (parts : List Ty) : List Ty :=
  parts.filterMap fun part => match part with
    | .obj _ args => args[index]?
    | _ => none

/-- The types of a list, where they are all structurally equal. -/
def agreed (types : List Ty) : Option Ty :=
  types.head?.filter fun first => types.all fun ty => structuralCmp ty first == .eq

theorem eq_of_agreed {first : Ty} (h : agreed types = some first)
    (hrigid : ∀ ty ∈ types, Rigid ty) : first ∈ types ∧ ∀ ty ∈ types, ty = first := by
  obtain ⟨hhead, hall⟩ := Option.filter_eq_some_iff.mp h
  refine ⟨List.mem_of_head? hhead, fun ty hty => eq_of_structuralCmp (hrigid ty hty) ?_⟩
  simpa using List.all_eq_true.mp hall ty hty

def returnsOf (parts : List Ty) : List Ty := parts.filterMap fun part => part.signature.map (·.ret)

variable {parts : List Ty}

theorem ne_nil_of_sharedClassifier {shared : TypeName × ℕ}
    (h : sharedClassifier parts = some shared) : parts ≠ [] := by
  intro hnil
  rw [hnil] at h
  cases h

theorem weight_argumentsAt_lt (hne : parts ≠ []) (index : ℕ) :
    weight (argumentsAt index parts) < weight parts := by
  refine weight_filterMap_lt (fun ty _ part h => ?_) hne
  cases ty with
  | obj name args =>
    have hmem : part ∈ args := List.mem_of_getElem? h
    exact Ty.sizeOf_lt_of_mem_children (show part ∈ (Ty.obj name args).children from hmem)
  | _ => cases h

theorem weight_returnsOf_lt (hne : parts ≠ []) : weight (returnsOf parts) < weight parts :=
  weight_filterMap_lt (fun _ _ _ h => Ty.sizeOf_ret_lt h) hne

theorem weight_nonNull_lt (hne : types ≠ []) (h : types.all (·.isNullable) = true) :
    weight (types.map (·.nonNull)) < weight types := by
  rw [← List.filterMap_eq_map]
  refine weight_filterMap_lt (fun ty hty part hpart => ?_) hne
  rw [← Option.some.inj hpart]
  exact Ty.sizeOf_nonNull_lt (List.all_eq_true.mp h ty hty)

section Approximation

variable (any : TypeName) (varianceAt : TypeName → ℕ → Option TypeVariance)

def anyType : Ty := .obj any []

def starArgument : Ty := .starProjection (anyType any).nullableOf

/-- The parameter of the joined signatures at one position. -/
def approximateParameter (signatures : List FnSig) (index : ℕ) : Ty :=
  (agreed (signatures.filterMap (·.params[index]?))).getD (starArgument any)

mutual

def approximateArgument (classifier : TypeName) (index : ℕ) (arguments : List Ty) : Option Ty :=
  if arguments.isEmpty then some (anyType any)
  else match agreed arguments with
    | some argument => some argument
    | none => do
      match ← varianceAt classifier index with
      | .out => covariantJoin arguments
      | .invariant => (covariantJoin arguments).map .outProjection
      | .in => some (starArgument any)
termination_by (weight arguments, 2)

def approximateObjects (parts : List Ty) : Option Ty :=
  match _h : sharedClassifier parts with
  | none => some (anyType any)
  | some (name, length) =>
    if length = 0 then some (.obj name [])
    else ((List.range length).mapM fun index => approximateArgument name index (argumentsAt index parts)).map
      (.obj name)
termination_by (weight parts, 0)
decreasing_by exact Prod.Lex.left _ _ (weight_argumentsAt_lt (ne_nil_of_sharedClassifier _h) _)

def approximateFunctions (parts : List Ty) : Option Ty :=
  match _h : parts.filterMap Ty.signature with
  | [] => some (anyType any)
  | first :: rest =>
    if (first :: rest).any fun signature => signature.params.length != first.params.length ||
        signature.suspend != first.suspend || signature.hasReceiver != first.hasReceiver ||
        signature.contextCount != first.contextCount then some (anyType any)
    else do
      let params := (List.range first.params.length).map (approximateParameter any (first :: rest))
      let ret ← covariantJoin (returnsOf parts)
      some (.funWithShape params ret first.contextCount first.hasReceiver first.suspend)
termination_by (weight parts, 0)
decreasing_by
  refine Prod.Lex.left _ _ (weight_returnsOf_lt fun hnil => ?_)
  rw [hnil] at _h
  cases _h

def covariantJoin (types : List Ty) : Option Ty :=
  match _h : unique types with
  | [] => some (anyType any)
  | [one] => some one
  | one :: another :: rest =>
    let many := one :: another :: rest
    if (sharedClassifier many).isSome then approximateObjects many
    else if many.all (·.isFun) then approximateFunctions many
    else if _hnull : many.all (·.isNullable) then (covariantJoin (many.map (·.nonNull))).map Ty.nullableOf
    else some (anyType any)
termination_by (weight types, 1)
decreasing_by
  all_goals have hle : weight (one :: another :: rest) ≤ weight types := _h ▸ weight_unique_le types
  · rcases Nat.lt_or_eq_of_le hle with hlt | heq
    · exact Prod.Lex.left _ _ hlt
    · rw [← heq]
      exact Prod.Lex.right _ (by decide)
  · rcases Nat.lt_or_eq_of_le hle with hlt | heq
    · exact Prod.Lex.left _ _ hlt
    · rw [← heq]
      exact Prod.Lex.right _ (by decide)
  · exact Prod.Lex.left _ _ ((weight_nonNull_lt (List.cons_ne_nil _ _) _hnull).trans_le hle)

end

def approximateParts (parts : List Ty) : Option Ty :=
  if parts.all (·.isFun) then approximateFunctions any varianceAt parts
  else if (sharedClassifier parts).isSome then approximateObjects any varianceAt parts
  else some (anyType any)

def declarationApproximation (ty : Ty) : Option Ty :=
  match ty with
  | .nullable (.intersection _) => some (anyType any).nullableOf
  | .intersection parts => approximateParts any varianceAt parts
  | ty => some ty

end Approximation

/-! ### Subtypes -/

/-- A class type, a function type or `Unit`: a type that does not admit null. -/
def Ty.isValue : Ty → Bool
  | unit => true
  | obj _ _ => true
  | function _ _ _ _ _ => true
  | _ => false

/-- The types that intersections are made of: class and function types and their nullable forms. -/
inductive Plain : Ty → Prop
  | unit : Plain .unit
  | obj {name args} (hargs : ∀ arg ∈ args, Plain arg) : Plain (.obj name args)
  | function {params ret contextCount hasReceiver suspend} (hparams : ∀ param ∈ params, Plain param)
    (hret : Plain ret) (hcount : contextCount ≤ params.length) :
    Plain (.function params ret contextCount hasReceiver suspend)
  | nullable {inner} (hinner : Plain inner) (hvalue : inner.isValue) : Plain (.nullable inner)

mutual

/-- Subtypes under declared variances. -/
inductive IsSubtype (any : TypeName) (variance : TypeName → ℕ → TypeVariance) : Ty → Ty → Prop
  | refl (ty : Ty) : IsSubtype any variance ty ty
  | any {ty : Ty} (hvalue : ty.isValue) : IsSubtype any variance ty (anyType any)
  | obj {name : TypeName} {args args' : List Ty} (hlength : args.length = args'.length)
    (hargs : ∀ (i : ℕ) (arg arg' : Ty), args[i]? = some arg → args'[i]? = some arg' →
      Contains any variance (variance name i) arg arg') :
    IsSubtype any variance (.obj name args) (.obj name args')
  | function {params params' : List Ty} {ret ret' : Ty} {contextCount : ℕ} {hasReceiver suspend : Bool}
    (hlength : params.length = params'.length)
    (hparams : ∀ (i : ℕ) (param param' : Ty), params[i]? = some param → params'[i]? = some param' →
      Contains any variance .in param param')
    (hret : IsSubtype any variance ret ret') :
    IsSubtype any variance (.function params ret contextCount hasReceiver suspend)
      (.function params' ret' contextCount hasReceiver suspend)
  | nullable {ty ty' : Ty} (h : IsSubtype any variance ty ty') : IsSubtype any variance ty (.nullable ty')
  | both {ty ty' : Ty} (h : IsSubtype any variance ty ty') :
    IsSubtype any variance (.nullable ty) (.nullable ty')

/-- Whether an argument may stand where another is asked for, by the variance of the position. -/
inductive Contains (any : TypeName) (variance : TypeName → ℕ → TypeVariance) : TypeVariance → Ty → Ty → Prop
  | star (position : TypeVariance) (arg bound : Ty) : Contains any variance position arg (.starProjection bound)
  | outProjection {position : TypeVariance} {arg arg' : Ty} (hposition : position ≠ .in)
    (h : IsSubtype any variance arg arg') : Contains any variance position arg (.outProjection arg')
  | covariant {arg arg' : Ty} (h : IsSubtype any variance arg arg') : Contains any variance .out arg arg'
  | contravariant {arg arg' : Ty} (h : IsSubtype any variance arg' arg) : Contains any variance .in arg arg'
  | invariant {arg arg' : Ty} (h : IsSubtype any variance arg arg') (h' : IsSubtype any variance arg' arg) :
    Contains any variance .invariant arg arg'

end

/-- The types that come together in one place of types with a common shape: they themselves, their arguments
at one position that is not contravariant, their results, and what they are null besides. -/
inductive Meets (variance : TypeName → ℕ → TypeVariance) : Set Ty → Set Ty → Prop
  | here (types : Set Ty) : Meets variance types types
  | argument {types met : Set Ty} {name : TypeName} {length index : ℕ}
    (hshape : ∀ ty ∈ types, ty.hasClassifier name length) (hindex : index < length)
    (hposition : variance name index ≠ .in)
    (h : Meets variance {arg | ∃ args, .obj name args ∈ types ∧ args[index]? = some arg} met) :
    Meets variance types met
  | result {types met : Set Ty} {length contextCount : ℕ} {hasReceiver suspend : Bool}
    (hshape : ∀ ty ∈ types, ∃ params ret, params.length = length ∧
      ty = .function params ret contextCount hasReceiver suspend)
    (h : Meets variance {ret | ∃ params, .function params ret contextCount hasReceiver suspend ∈ types} met) :
    Meets variance types met
  | core {types met : Set Ty} (hshape : ∀ ty ∈ types, ty.isNullable)
    (h : Meets variance {core | .nullable core ∈ types} met) : Meets variance types met

/-- All types admit null, or none does. -/
def Unmixed (types : Set Ty) : Prop := (∀ ty ∈ types, ty.isNullable) ∨ ∀ ty ∈ types, ¬ty.isNullable

theorem Plain.rigid (h : Plain ty) : Rigid ty := by
  induction h with
  | unit => exact .mk (by simp) (fun _ hchild => by cases hchild)
  | obj hargs ih => exact .mk (by simp) ih
  | function hparams hret hcount ihparams ihret =>
    refine .mk (by simp) fun child hchild => ?_
    rcases List.mem_append.mp hchild with hparam | hchild
    · exact ihparams child hparam
    · exact List.mem_singleton.mp hchild ▸ ihret
  | nullable hinner hvalue ih =>
    exact .mk (by simp) fun child hchild => List.mem_singleton.mp hchild ▸ ih

theorem Plain.value_or_nullable (h : Plain ty) : ty.isValue = true ∨ ty.isNullable = true := by
  cases h with
  | nullable => exact .inr rfl
  | _ => exact .inl rfl

theorem not_nullable_of_value (h : ty.isValue = true) : ¬ty.isNullable = true := by
  cases ty <;> simp_all [Ty.isValue, Ty.isNullable]

section Subtypes

variable {any : TypeName} {variance : TypeName → ℕ → TypeVariance}

theorem Contains.refl (position : TypeVariance) (arg : Ty) : Contains any variance position arg arg := by
  cases position with
  | invariant => exact .invariant (.refl arg) (.refl arg)
  | «in» => exact .contravariant (.refl arg)
  | out => exact .covariant (.refl arg)

variable {name : TypeName}

theorem isSubtype_obj_iff {args args' : List Ty} (hlength : args.length = args'.length) :
    IsSubtype any variance (.obj name args) (.obj name args') ↔
      ∀ (i : ℕ) (arg arg' : Ty), args[i]? = some arg → args'[i]? = some arg' →
        Contains any variance (variance name i) arg arg' := by
  refine ⟨fun h => ?_, .obj hlength⟩
  cases h with
  | refl =>
    intro i arg arg' harg harg'
    rw [← Option.some.inj (harg.symm.trans harg')]
    exact .refl _ arg
  | any hvalue =>
    intro i arg arg' harg harg'
    cases harg'
  | obj hlength' hargs => exact hargs

theorem isSubtype_function_iff {params params' : List Ty} {ret ret' : Ty} {contextCount : ℕ}
    {hasReceiver suspend : Bool} (hlength : params.length = params'.length)
    (hparams : ∀ (i : ℕ) (param param' : Ty), params[i]? = some param → params'[i]? = some param' →
      Contains any variance .in param param') :
    IsSubtype any variance (.function params ret contextCount hasReceiver suspend)
        (.function params' ret' contextCount hasReceiver suspend) ↔ IsSubtype any variance ret ret' := by
  refine ⟨fun h => ?_, .function hlength hparams⟩
  cases h with
  | refl => exact .refl ret
  | function hlength' hparams' hret => exact hret

theorem isSubtype_any_iff (h : Plain ty) : IsSubtype any variance ty (anyType any) ↔ ¬ty.isNullable = true := by
  refine ⟨fun hsub => ?_, fun hnull => .any (h.value_or_nullable.resolve_right hnull)⟩
  unfold anyType at hsub
  cases h with
  | nullable hinner hvalue =>
    cases hsub with
    | any hvalue' => cases hvalue'
  | _ => exact fun hnull => by cases hnull

theorem isSubtype_both_iff {ty ty' : Ty} (h : ty'.isValue = true) :
    IsSubtype any variance (.nullable ty) (.nullable ty') ↔ IsSubtype any variance ty ty' := by
  refine ⟨fun hsub => ?_, .both⟩
  cases hsub with
  | refl => exact .refl ty
  | nullable hsub =>
    cases hsub with
    | refl => cases h
    | any hvalue => cases hvalue
    | nullable hsub => cases h
    | both hsub => cases h
  | both hsub => exact hsub

/-! ### Meeting places -/

theorem Meets.subsingleton {types met : Set Ty} (h : Meets variance types met) (htypes : types.Subsingleton) :
    met.Subsingleton := by
  induction h with
  | here => exact htypes
  | argument hshape hindex hposition h ih =>
    refine ih ?_
    rintro arg ⟨args, hargs, harg⟩ arg' ⟨args', hargs', harg'⟩
    have heq := (Ty.obj.inj (htypes hargs hargs')).2
    rw [heq, harg'] at harg
    exact (Option.some.inj harg).symm
  | result hshape h ih =>
    refine ih ?_
    rintro ret ⟨params, hret⟩ ret' ⟨params', hret'⟩
    exact (Ty.function.inj (htypes hret hret')).2.1
  | core hshape h ih =>
    refine ih fun core hcore core' hcore' => ?_
    exact Ty.nullable.inj (htypes hcore hcore')

theorem unmixed_of_subsingleton {types : Set Ty} (h : types.Subsingleton) : Unmixed types := by
  by_cases hnull : ∃ ty ∈ types, ty.isNullable = true
  · obtain ⟨ty, hty, hnull⟩ := hnull
    exact .inl fun other hother => h hty hother ▸ hnull
  · exact .inr fun ty hty hnull' => hnull ⟨ty, hty, hnull'⟩

/-- What no place leads on from. -/
theorem meets_iff_of_shapeless {types met : Set Ty}
    (hobj : ¬∃ name length, ∀ ty ∈ types, ty.hasClassifier name length = true)
    (hfun : ¬∃ length contextCount hasReceiver suspend, ∀ ty ∈ types, ∃ params ret, List.length params = length ∧
      ty = .function params ret contextCount hasReceiver suspend)
    (hnull : ¬∀ ty ∈ types, ty.isNullable = true) : Meets variance types met ↔ met = types := by
  refine ⟨fun h => ?_, fun h => by rw [h]; exact .here types⟩
  cases h with
  | here => rfl
  | argument hshape => exact absurd ⟨_, _, hshape⟩ hobj
  | result hshape => exact absurd ⟨_, _, _, _, hshape⟩ hfun
  | core hshape => exact absurd hshape hnull

variable {length : ℕ}

theorem hasClassifier_iff :
    ty.hasClassifier name length = true ↔ ∃ args, ty = .obj name args ∧ args.length = length := by
  cases ty <;> simp [Ty.hasClassifier]

theorem meets_obj_iff {types met : Set Ty} (hne : types.Nonempty)
    (hshape : ∀ ty ∈ types, ty.hasClassifier name length = true) : Meets variance types met ↔
      met = types ∨ ∃ index < length, variance name index ≠ .in ∧
        Meets variance {arg | ∃ args, .obj name args ∈ types ∧ args[index]? = some arg} met := by
  obtain ⟨ty, hty⟩ := hne
  obtain ⟨args, rfl, hlength⟩ := hasClassifier_iff.mp (hshape ty hty)
  constructor
  · intro h
    cases h with
    | here => exact .inl rfl
    | argument hshape' hindex hposition h =>
      obtain ⟨args', heq, hlength'⟩ := hasClassifier_iff.mp (hshape' _ hty)
      obtain ⟨rfl, rfl⟩ := Ty.obj.inj heq
      exact .inr ⟨_, hlength ▸ hlength' ▸ hindex, hposition, h⟩
    | result hshape' =>
      obtain ⟨params, ret, -, heq⟩ := hshape' _ hty
      cases heq
    | core hshape' => cases hshape' _ hty
  · rintro (rfl | ⟨index, hindex, hposition, h⟩)
    · exact .here met
    · exact .argument hshape hindex hposition h

theorem meets_function_iff {types met : Set Ty} {length contextCount : ℕ} {hasReceiver suspend : Bool}
    (hne : types.Nonempty)
    (hshape : ∀ ty ∈ types, ∃ params ret, List.length params = length ∧
      ty = .function params ret contextCount hasReceiver suspend) : Meets variance types met ↔
      met = types ∨
        Meets variance {ret | ∃ params, .function params ret contextCount hasReceiver suspend ∈ types} met := by
  obtain ⟨ty, hty⟩ := hne
  obtain ⟨params, ret, -, rfl⟩ := hshape ty hty
  constructor
  · intro h
    cases h with
    | here => exact .inl rfl
    | argument hshape' =>
      obtain ⟨args, heq, -⟩ := hasClassifier_iff.mp (hshape' _ hty)
      cases heq
    | result hshape' h =>
      obtain ⟨params', ret', -, heq⟩ := hshape' _ hty
      obtain ⟨-, -, rfl, rfl, rfl⟩ := Ty.function.inj heq
      exact .inr h
    | core hshape' => cases hshape' _ hty
  · rintro (rfl | h)
    · exact .here met
    · exact .result hshape h

theorem meets_nullable_iff {types met : Set Ty} (hne : types.Nonempty)
    (hshape : ∀ ty ∈ types, ty.isNullable = true) :
    Meets variance types met ↔ met = types ∨ Meets variance {core | .nullable core ∈ types} met := by
  obtain ⟨ty, hty⟩ := hne
  have hnull := hshape ty hty
  constructor
  · intro h
    cases h with
    | here => exact .inl rfl
    | argument hshape' =>
      obtain ⟨args, rfl, -⟩ := hasClassifier_iff.mp (hshape' _ hty)
      cases hnull
    | result hshape' h =>
      obtain ⟨params, ret, -, rfl⟩ := hshape' _ hty
      cases hnull
    | core hshape' h => exact .inr h
  · rintro (rfl | h)
    · exact .here met
    · exact .core hshape h

/-! ### The approximation admits its components -/

/-- The result is above every type just where no place mixes nullable types with others. -/
def Joined (any : TypeName) (variance : TypeName → ℕ → TypeVariance) (types : Set Ty) (result : Ty) : Prop :=
  (∀ ty ∈ types, IsSubtype any variance ty result) ↔ ∀ met, Meets variance types met → Unmixed met

def Joins (any : TypeName) (variance : TypeName → ℕ → TypeVariance) (types : List Ty) : Prop :=
  ∃ result, covariantJoin any (fun name index => some (variance name index)) types = some result ∧
    Joined any variance {ty | ty ∈ types} result ∧ (result.isValue = true ∨ result.isNullable = true) ∧
    ((∀ ty ∈ types, ty.isValue = true) → result.isValue = true)

theorem joined_of_subsingleton {types : Set Ty} {one : Ty} (h : ∀ ty ∈ types, ty = one) :
    Joined any variance types one := by
  have hsub : types.Subsingleton := fun ty hty ty' hty' => (h ty hty).trans (h ty' hty').symm
  refine ⟨fun _ met hmet => unmixed_of_subsingleton (hmet.subsingleton hsub), fun _ ty hty => ?_⟩
  rw [h ty hty]
  exact .refl one

theorem approximateArgument_contains (name : TypeName) (index : ℕ) {arguments : List Ty}
    (hne : arguments ≠ []) (hplain : ∀ arg ∈ arguments, Plain arg) (hjoin : Joins any variance arguments) :
    ∃ result, approximateArgument any (fun name index => some (variance name index)) name index arguments =
        some result ∧
      ((∀ arg ∈ arguments, Contains any variance (variance name index) arg result) ↔
        (variance name index ≠ .in →
          ∀ met, Meets variance {arg | arg ∈ arguments} met → Unmixed met)) := by
  have hempty : arguments.isEmpty = false := by
    cases arguments with
    | nil => exact absurd rfl hne
    | cons _ _ => rfl
  unfold approximateArgument
  rw [hempty]
  cases hagreed : agreed arguments with
  | some argument =>
    have heq := (eq_of_agreed hagreed fun arg harg => (hplain arg harg).rigid).2
    have hsub : Set.Subsingleton {arg | arg ∈ arguments} := fun ty hty ty' hty' =>
      (heq ty hty).trans (heq ty' hty').symm
    refine ⟨argument, rfl, fun _ _ met hmet => unmixed_of_subsingleton (hmet.subsingleton hsub),
      fun _ arg harg => ?_⟩
    rw [heq arg harg]
    exact .refl _ argument
  | none =>
    obtain ⟨joined, hresult, hjoined, hroot, -⟩ := hjoin
    cases hposition : variance name index with
    | «in» =>
      refine ⟨starArgument any, by simp, fun _ hnot => absurd rfl hnot, fun _ arg _ => ?_⟩
      exact .star .in arg _
    | out =>
      have hcontains : ∀ arg, Contains any variance .out arg joined ↔ IsSubtype any variance arg joined := by
        refine fun arg => ⟨fun h => ?_, .covariant⟩
        cases h with
        | covariant h => exact h
        | star => simp [Ty.isValue, Ty.isNullable] at hroot
        | outProjection => simp [Ty.isValue, Ty.isNullable] at hroot
      refine ⟨joined, by simp [hresult], ?_⟩
      simp only [hcontains]
      exact hjoined.trans (by simp)
    | invariant =>
      have hcontains : ∀ arg ∈ arguments, (Contains any variance .invariant arg (.outProjection joined) ↔
          IsSubtype any variance arg joined) := by
        refine fun arg harg => ⟨fun h => ?_, fun h => .outProjection (by decide) h⟩
        cases h with
        | outProjection hposition h => exact h
        | invariant h h' =>
          have hroot' := (hplain arg harg).value_or_nullable
          cases h with
          | refl => simp [Ty.isValue, Ty.isNullable] at hroot'
      refine ⟨.outProjection joined, by simp [hresult], ?_⟩
      rw [forall₂_congr hcontains]
      exact hjoined.trans (by simp)

theorem hasClassifier_of_shared
    (h : sharedClassifier parts = some (name, length)) : ∀ part ∈ parts, part.hasClassifier name length = true := by
  unfold sharedClassifier at h
  split at h
  · split at h
    · rename_i hall
      obtain ⟨rfl, rfl⟩ := Prod.mk.inj (Option.some.inj h)
      exact List.all_eq_true.mp hall
    · cases h
  · cases h

theorem mem_argumentsAt {length index : ℕ}
    (h : ∀ part ∈ parts, part.hasClassifier name length = true) {arg : Ty} :
    arg ∈ argumentsAt index parts ↔ ∃ args, .obj name args ∈ parts ∧ args[index]? = some arg := by
  rw [argumentsAt, List.mem_filterMap]
  constructor
  · rintro ⟨part, hpart, harg⟩
    obtain ⟨args, rfl, -⟩ := hasClassifier_iff.mp (h part hpart)
    exact ⟨args, hpart, harg⟩
  · rintro ⟨args, hargs, harg⟩
    exact ⟨.obj name args, hargs, harg⟩

theorem argumentsAt_ne_nil {length index : ℕ}
    (hshared : sharedClassifier parts = some (name, length)) (hindex : index < length) :
    argumentsAt index parts ≠ [] := by
  have hshape := hasClassifier_of_shared hshared
  obtain ⟨first, hfirst⟩ := List.exists_mem_of_ne_nil parts (ne_nil_of_sharedClassifier hshared)
  obtain ⟨args, rfl, hlength⟩ := hasClassifier_iff.mp (hshape first hfirst)
  have hget := List.getElem?_eq_getElem (hlength ▸ hindex : index < args.length)
  exact List.ne_nil_of_mem ((mem_argumentsAt hshape).mpr ⟨args, hfirst, hget⟩)

theorem plain_of_mem_argumentsAt (hplain : ∀ part ∈ parts, Plain part) {index : ℕ} :
    ∀ arg ∈ argumentsAt index parts, Plain arg := by
  intro arg harg
  obtain ⟨part, hpart, hget⟩ := List.mem_filterMap.mp harg
  cases hplain part hpart with
  | obj hargs => exact hargs arg (List.mem_of_getElem? hget)
  | _ => cases hget

variable {varianceAt : TypeName → ℕ → Option TypeVariance}

theorem approximateObjects_eq {results : List Ty} (hshared : sharedClassifier parts = some (name, length))
    (h : (List.range length).mapM (fun index =>
      approximateArgument any varianceAt name index (argumentsAt index parts)) = some results) :
    approximateObjects any varianceAt parts = some (.obj name results) := by
  unfold approximateObjects
  split
  · rename_i hnone
    rw [hshared] at hnone
    cases hnone
  · rename_i name' length' hsome
    rw [hshared] at hsome
    obtain ⟨rfl, rfl⟩ := Prod.mk.inj (Option.some.inj hsome)
    rw [h]
    split
    · rename_i hzero
      subst hzero
      rw [← Option.some.inj h]
      rfl
    · rfl

theorem approximateObjects_joined
    (hshared : sharedClassifier parts = some (name, length)) (hplain : ∀ part ∈ parts, Plain part)
    (hjoin : ∀ index < length, Joins any variance (argumentsAt index parts)) :
    ∃ args, approximateObjects any (fun name index => some (variance name index)) parts = some (.obj name args) ∧
      Joined any variance {part | part ∈ parts} (.obj name args) := by
  have hshape := hasClassifier_of_shared hshared
  obtain ⟨first, hfirst⟩ := List.exists_mem_of_ne_nil parts (ne_nil_of_sharedClassifier hshared)
  obtain ⟨firstArgs, rfl, hfirstLength⟩ := hasClassifier_iff.mp (hshape first hfirst)
  have hcontains := fun index (hindex : index < length) =>
    approximateArgument_contains name index (argumentsAt_ne_nil hshared hindex)
      (plain_of_mem_argumentsAt hplain) (hjoin index hindex)
  obtain ⟨results, hresults⟩ : ∃ results, (List.range length).mapM (fun index =>
      approximateArgument any (fun name index => some (variance name index)) name index
        (argumentsAt index parts)) = some results :=
    Results.exists_mapM_some fun index hindex => by
      obtain ⟨result, hresult, -⟩ := hcontains index (List.mem_range.mp hindex)
      exact ⟨result, hresult⟩
  obtain ⟨hlength, hget⟩ := List.forall₂_iff_get.mp (Results.mapM_some.mp hresults)
  rw [List.length_range] at hlength
  have hargument : ∀ index < length, ∀ result, results[index]? = some result →
      ((∀ arg ∈ argumentsAt index parts, Contains any variance (variance name index) arg result) ↔
        (variance name index ≠ .in →
          ∀ met, Meets variance {arg | arg ∈ argumentsAt index parts} met → Unmixed met)) := by
    intro index hindex result hresult
    obtain ⟨result', hresult', hiff⟩ := hcontains index hindex
    have heq := hget index (by rwa [List.length_range]) (hlength ▸ hindex)
    simp only [List.get_eq_getElem, List.getElem_range] at heq
    rw [List.getElem?_eq_getElem (hlength ▸ hindex)] at hresult
    rw [hresult', hresult] at heq
    exact Option.some.inj heq ▸ hiff
  refine ⟨results, approximateObjects_eq hshared hresults, ?_⟩
  have hsub : (∀ part ∈ parts, IsSubtype any variance part (.obj name results)) ↔
      ∀ index < length, ∀ result, results[index]? = some result → ∀ arg ∈ argumentsAt index parts,
        Contains any variance (variance name index) arg result := by
    constructor
    · intro h index hindex result hresult arg harg
      obtain ⟨args, hargs, hget'⟩ := (mem_argumentsAt hshape).mp harg
      obtain ⟨args', heq, hlength'⟩ := hasClassifier_iff.mp (hshape _ hargs)
      obtain ⟨-, rfl⟩ := Ty.obj.inj heq
      exact (isSubtype_obj_iff (hlength'.trans hlength)).mp (h _ hargs) index arg result hget' hresult
    · intro h part hpart
      obtain ⟨args, rfl, hlength'⟩ := hasClassifier_iff.mp (hshape part hpart)
      refine (isSubtype_obj_iff (hlength'.trans hlength)).mpr fun index arg result harg hresult => ?_
      have hindex : index < length := hlength' ▸ (List.getElem?_eq_some_iff.mp harg).1
      exact h index hindex result hresult arg ((mem_argumentsAt hshape).mpr ⟨args, hpart, harg⟩)
  have hplaces : ∀ index, {arg | ∃ args, .obj name args ∈ {part | part ∈ parts} ∧ args[index]? = some arg} =
      {arg | arg ∈ argumentsAt index parts} := fun index =>
    Set.ext fun arg => (mem_argumentsAt hshape).symm
  have hnonempty : Set.Nonempty {part | part ∈ parts} := ⟨_, hfirst⟩
  have hiff : ∀ met, Meets variance {part | part ∈ parts} met ↔ met = {part | part ∈ parts} ∨
      ∃ index < length, variance name index ≠ .in ∧
        Meets variance {arg | arg ∈ argumentsAt index parts} met := fun met => by
    rw [meets_obj_iff hnonempty hshape]
    simp only [hplaces]
  have hmeet : (∀ met, Meets variance {part | part ∈ parts} met → Unmixed met) ↔
      ∀ index < length, variance name index ≠ .in →
        ∀ met, Meets variance {arg | arg ∈ argumentsAt index parts} met → Unmixed met := by
    simp only [hiff]
    constructor
    · exact fun h index hindex hposition met hmet => h met (.inr ⟨index, hindex, hposition, hmet⟩)
    · rintro h met (rfl | ⟨index, hindex, hposition, hmet⟩)
      · refine .inr fun part hpart => ?_
        obtain ⟨args, rfl, -⟩ := hasClassifier_iff.mp (hshape part hpart)
        simp [Ty.isNullable]
      · exact h index hindex hposition met hmet
  unfold Joined
  rw [hmeet]
  refine hsub.trans (forall₂_congr fun index hindex => ?_)
  have hresult := List.getElem?_eq_getElem (hlength ▸ hindex : index < results.length)
  rw [← hargument index hindex _ hresult]
  refine ⟨fun h => h _ hresult, fun h result hresult' => ?_⟩
  rw [hresult] at hresult'
  exact Option.some.inj hresult' ▸ h

def FnSig.type (signature : FnSig) : Ty :=
  .function signature.params signature.ret signature.contextCount signature.hasReceiver signature.suspend

variable {signature : FnSig}

theorem signature_eq_some_iff : ty.signature = some signature ↔ ty = signature.type := by
  cases ty <;> cases signature <;> simp [Ty.signature, FnSig.type]

theorem mem_signatures : signature ∈ parts.filterMap Ty.signature ↔ signature.type ∈ parts := by
  simp only [List.mem_filterMap, signature_eq_some_iff, exists_eq_right]

theorem isFun_iff : ty.isFun = true ↔ ∃ signature : FnSig, ty = signature.type := by
  cases ty with
  | function params ret contextCount hasReceiver suspend =>
    exact ⟨fun _ => ⟨⟨params, ret, contextCount, hasReceiver, suspend⟩, rfl⟩, fun _ => rfl⟩
  | _ => simp [Ty.isFun, FnSig.type]

theorem mem_returnsOf {ret : Ty} :
    ret ∈ returnsOf parts ↔ ∃ signature : FnSig, signature.type ∈ parts ∧ signature.ret = ret := by
  simp only [returnsOf, List.mem_filterMap, Option.map_eq_some_iff, signature_eq_some_iff]
  constructor
  · rintro ⟨part, hpart, signature, rfl, hret⟩
    exact ⟨signature, hpart, hret⟩
  · rintro ⟨signature, hpart, hret⟩
    exact ⟨signature.type, hpart, signature, rfl, hret⟩

/-- Signatures of one shape: parameters, context receivers, receiver and suspension. -/
def FnSig.SameShape (signature other : FnSig) : Prop :=
  signature.params.length = other.params.length ∧ signature.suspend = other.suspend ∧
    signature.hasReceiver = other.hasReceiver ∧ signature.contextCount = other.contextCount

theorem approximateFunctions_eq {first : FnSig} {signatures : List FnSig} {ret : Ty}
    (h : parts.filterMap Ty.signature = first :: signatures)
    (hret : covariantJoin any varianceAt (returnsOf parts) = some ret) :
    ((∀ signature ∈ first :: signatures, signature.SameShape first) ∧
      approximateFunctions any varianceAt parts =
        some (.funWithShape ((List.range first.params.length).map (approximateParameter any (first :: signatures)))
          ret first.contextCount first.hasReceiver first.suspend)) ∨
    ((∃ signature ∈ first :: signatures, ¬signature.SameShape first) ∧
      approximateFunctions any varianceAt parts = some (anyType any)) := by
  unfold approximateFunctions
  split
  · rename_i hnil
    rw [h] at hnil
    cases hnil
  · rename_i first' rest' hcons
    rw [h] at hcons
    obtain ⟨rfl, rfl⟩ := List.cons.inj hcons
    split
    · rename_i hany
      obtain ⟨signature, hmem, hdiff⟩ := List.any_eq_true.mp hany
      refine .inr ⟨⟨signature, hmem, fun hsame => ?_⟩, rfl⟩
      obtain ⟨hparams, hsuspend, hreceiver, hcount⟩ := hsame
      simp [hparams, hsuspend, hreceiver, hcount] at hdiff
    · rename_i hany
      refine .inl ⟨fun signature hmem => ?_, by rw [hret]; rfl⟩
      have hsame := fun hdiff => hany (List.any_eq_true.mpr ⟨signature, hmem, hdiff⟩)
      simpa [FnSig.SameShape, and_assoc] using hsame

theorem contains_approximateParameter {signatures : List FnSig} {index : ℕ} {param : Ty}
    (hplain : ∀ signature ∈ signatures, ∀ param ∈ signature.params, Plain param)
    (hmem : signature ∈ signatures) (hparam : signature.params[index]? = some param) :
    Contains any variance .in param (approximateParameter any signatures index) := by
  have hrigid : ∀ param ∈ signatures.filterMap (·.params[index]?), Rigid param := fun param hparam => by
    obtain ⟨signature, hmem, hget⟩ := List.mem_filterMap.mp hparam
    exact (hplain signature hmem param (List.mem_of_getElem? hget)).rigid
  unfold approximateParameter
  cases hagreed : agreed (signatures.filterMap (·.params[index]?)) with
  | none => exact .star _ _ _
  | some first =>
    have heq := (eq_of_agreed hagreed hrigid).2 param (List.mem_filterMap.mpr ⟨signature, hmem, hparam⟩)
    rw [heq]
    exact .refl _ _

/-- A class or function type admits no null, and what meets at a place of unlike types is themselves. -/
theorem joined_any {types : Set Ty} (hplain : ∀ ty ∈ types, Plain ty)
    (hobj : ¬∃ name length, ∀ ty ∈ types, ty.hasClassifier name length = true)
    (hfun : ¬∃ length contextCount hasReceiver suspend, ∀ ty ∈ types, ∃ params ret, List.length params = length ∧
      ty = .function params ret contextCount hasReceiver suspend)
    (hnull : ¬∀ ty ∈ types, ty.isNullable = true) : Joined any variance types (anyType any) := by
  have hsub : (∀ ty ∈ types, IsSubtype any variance ty (anyType any)) ↔ ∀ ty ∈ types, ¬ty.isNullable = true :=
    forall₂_congr fun ty hty => isSubtype_any_iff (hplain ty hty)
  have hmeet : (∀ met, Meets variance types met → Unmixed met) ↔ Unmixed types := by
    simp only [meets_iff_of_shapeless hobj hfun hnull, forall_eq]
  unfold Joined
  rw [hsub, hmeet]
  exact ⟨.inr, fun h => h.resolve_left hnull⟩

theorem approximateFunctions_joined (hne : parts ≠ []) (hfun : ∀ part ∈ parts, part.isFun = true)
    (hplain : ∀ part ∈ parts, Plain part) (hjoin : Joins any variance (returnsOf parts)) :
    ∃ result, approximateFunctions any (fun name index => some (variance name index)) parts = some result ∧
      Joined any variance {part | part ∈ parts} result ∧ result.isValue = true := by
  obtain ⟨part, hpart⟩ := List.exists_mem_of_ne_nil parts hne
  obtain ⟨signature, rfl⟩ := isFun_iff.mp (hfun part hpart)
  obtain ⟨first, signatures, hsignatures⟩ := List.exists_cons_of_ne_nil
    (List.ne_nil_of_mem (mem_signatures.mpr hpart))
  have hmem : ∀ signature : FnSig, signature ∈ first :: signatures ↔ signature.type ∈ parts := fun signature => by
    rw [← hsignatures, mem_signatures]
  have hfirst := (hmem first).mp List.mem_cons_self
  have hnull : ¬∀ ty ∈ {part | part ∈ parts}, ty.isNullable = true := fun h => by cases h _ hfirst
  have hobj : ¬∃ name length, ∀ ty ∈ {part | part ∈ parts}, ty.hasClassifier name length = true := by
    rintro ⟨name, length, h⟩
    cases h _ hfirst
  obtain ⟨ret, hret, hjoined, -, -⟩ := hjoin
  rcases approximateFunctions_eq hsignatures hret with ⟨hsame, hresult⟩ | ⟨⟨other, hother, hdiff⟩, hresult⟩
  · refine ⟨_, hresult, ?_, rfl⟩
    have hshape : ∀ ty ∈ {part | part ∈ parts}, ∃ params ret, List.length params = first.params.length ∧
        ty = .function params ret first.contextCount first.hasReceiver first.suspend := by
      intro ty hty
      obtain ⟨signature, rfl⟩ := isFun_iff.mp (hfun ty hty)
      obtain ⟨hparams, hsuspend, hreceiver, hcount⟩ := hsame signature ((hmem signature).mpr hty)
      exact ⟨signature.params, signature.ret, hparams, by rw [FnSig.type, hsuspend, hreceiver, hcount]⟩
    have hparamPlain : ∀ signature ∈ first :: signatures, ∀ param ∈ signature.params, Plain param := by
      intro signature hsignature
      cases hplain _ ((hmem signature).mp hsignature) with
      | function hparams hret hcount => exact hparams
    have hcount : first.contextCount ≤ first.params.length := by
      cases hplain _ hfirst with
      | function hparams hret hcount => exact hcount
    have hsub : (∀ part ∈ parts, IsSubtype any variance part (.funWithShape
        ((List.range first.params.length).map (approximateParameter any (first :: signatures)))
        ret first.contextCount first.hasReceiver first.suspend)) ↔
        ∀ other ∈ returnsOf parts, IsSubtype any variance other ret := by
      have hpart : ∀ signature ∈ first :: signatures, (IsSubtype any variance signature.type (.funWithShape
          ((List.range first.params.length).map (approximateParameter any (first :: signatures)))
          ret first.contextCount first.hasReceiver first.suspend) ↔
          IsSubtype any variance signature.ret ret) := by
        intro signature hsignature
        obtain ⟨hparams, hsuspend, hreceiver, hcount'⟩ := hsame signature hsignature
        rw [Ty.funWithShape, List.length_map, List.length_range, min_eq_left hcount, FnSig.type, hsuspend,
          hreceiver, hcount']
        refine isSubtype_function_iff (by simpa using hparams) fun index param param' hparam hparam' => ?_
        rw [List.getElem?_map, Option.map_eq_some_iff] at hparam'
        obtain ⟨index', hindex, rfl⟩ := hparam'
        obtain ⟨hlt, heq⟩ := List.getElem?_eq_some_iff.mp hindex
        rw [List.getElem_range] at heq
        subst heq
        exact contains_approximateParameter hparamPlain hsignature hparam
      constructor
      · intro h other hother
        obtain ⟨signature, hin, rfl⟩ := mem_returnsOf.mp hother
        exact (hpart signature ((hmem signature).mpr hin)).mp (h _ hin)
      · intro h part hin
        obtain ⟨signature, rfl⟩ := isFun_iff.mp (hfun part hin)
        exact (hpart signature ((hmem signature).mpr hin)).mpr (h _ (mem_returnsOf.mpr ⟨signature, hin, rfl⟩))
    have hplaces : {ret | ∃ params, .function params ret first.contextCount first.hasReceiver first.suspend ∈
        {part | part ∈ parts}} = {ret | ret ∈ returnsOf parts} := by
      refine Set.ext fun ret => ⟨?_, fun hin => ?_⟩
      · rintro ⟨params, hin⟩
        exact mem_returnsOf.mpr ⟨⟨params, ret, _, _, _⟩, hin, rfl⟩
      · obtain ⟨signature, htype, rfl⟩ := mem_returnsOf.mp hin
        obtain ⟨-, hsuspend, hreceiver, hcount⟩ := hsame signature ((hmem signature).mpr htype)
        refine ⟨signature.params, ?_⟩
        rw [← hsuspend, ← hreceiver, ← hcount]
        exact htype
    have hnonempty : Set.Nonempty {part | part ∈ parts} := ⟨_, hpart⟩
    have hmeet : (∀ met, Meets variance {part | part ∈ parts} met → Unmixed met) ↔
        ∀ met, Meets variance {ret | ret ∈ returnsOf parts} met → Unmixed met := by
      simp only [meets_function_iff hnonempty hshape, hplaces]
      constructor
      · exact fun h met hmet => h met (.inr hmet)
      · rintro h met (rfl | hmet)
        · refine .inr fun part hpart => ?_
          obtain ⟨signature, rfl⟩ := isFun_iff.mp (hfun part hpart)
          simp [FnSig.type, Ty.isNullable]
        · exact h met hmet
    unfold Joined
    rw [hmeet]
    exact hsub.trans hjoined
  · refine ⟨_, hresult, joined_any hplain hobj ?_ hnull, rfl⟩
    rintro ⟨length, contextCount, hasReceiver, suspend, h⟩
    obtain ⟨params, ret, hlength, heq⟩ := h _ hfirst
    obtain ⟨params', ret', hlength', heq'⟩ := h _ ((hmem other).mp hother)
    obtain ⟨hparams, -, hcount, hreceiver, hsuspend⟩ := Ty.function.inj heq
    obtain ⟨hparams', -, hcount', hreceiver', hsuspend'⟩ := Ty.function.inj heq'
    refine hdiff ⟨?_, ?_, ?_, ?_⟩
    · rw [hparams, hparams', hlength, hlength']
    · rw [hsuspend, hsuspend']
    · rw [hreceiver, hreceiver']
    · rw [hcount, hcount']

theorem joinsNullable (hne : types ≠ []) (hplain : ∀ ty ∈ types, Plain ty)
    (hnull : ∀ ty ∈ types, ty.isNullable = true) (hjoin : Joins any variance (types.map (·.nonNull))) :
    ∃ result, (covariantJoin any (fun name index => some (variance name index)) (types.map (·.nonNull))).map
        Ty.nullableOf = some result ∧
      Joined any variance {ty | ty ∈ types} result ∧ result.isNullable = true := by
  have hcore : ∀ ty ∈ types, ∃ core, ty = .nullable core ∧ core.nonNull = core ∧ core.isValue = true := by
    intro ty hty
    have hty' := hnull ty hty
    cases hplain ty hty with
    | nullable hinner hvalue =>
      rename_i inner
      refine ⟨inner, rfl, ?_, hvalue⟩
      cases inner <;> first | rfl | cases hvalue
    | _ => cases hty'
  obtain ⟨result, hresult, hjoined, -, hvalue⟩ := hjoin
  have hresultValue : result.isValue = true := by
    refine hvalue fun core hin => ?_
    obtain ⟨ty, hty, rfl⟩ := List.mem_map.mp hin
    obtain ⟨core, rfl, hnonNull, hcoreValue⟩ := hcore ty hty
    rw [Ty.nonNull, hnonNull]
    exact hcoreValue
  have hnullable : result.nullableOf = .nullable result := by
    cases result <;> first | rfl | cases hresultValue
  refine ⟨.nullable result, by rw [hresult, Option.map_some, hnullable], ?_, rfl⟩
  have hplaces : {core | .nullable core ∈ {ty | ty ∈ types}} = {core | core ∈ types.map (·.nonNull)} := by
    refine Set.ext fun core => ⟨fun hin => ?_, fun hin => ?_⟩
    · obtain ⟨core', heq, hnonNull, -⟩ := hcore _ hin
      refine List.mem_map.mpr ⟨_, hin, ?_⟩
      rw [Ty.nonNull, Ty.nullable.inj heq, hnonNull]
    · obtain ⟨ty, hty, rfl⟩ := List.mem_map.mp hin
      obtain ⟨core, rfl, hnonNull, -⟩ := hcore ty hty
      rw [Ty.nonNull, hnonNull]
      exact hty
  have hnonempty : Set.Nonempty {ty | ty ∈ types} := List.exists_mem_of_ne_nil types hne
  have hsub : (∀ ty ∈ types, IsSubtype any variance ty (.nullable result)) ↔
      ∀ core ∈ types.map (·.nonNull), IsSubtype any variance core result := by
    rw [List.forall_mem_map]
    refine forall₂_congr fun ty hty => ?_
    obtain ⟨core, rfl, hnonNull, -⟩ := hcore ty hty
    rw [isSubtype_both_iff hresultValue, Ty.nonNull, hnonNull]
  have hmeet : (∀ met, Meets variance {ty | ty ∈ types} met → Unmixed met) ↔
      ∀ met, Meets variance {core | core ∈ types.map (·.nonNull)} met → Unmixed met := by
    simp only [meets_nullable_iff hnonempty hnull, hplaces]
    constructor
    · exact fun h met hmet => h met (.inr hmet)
    · rintro h met (rfl | hmet)
      · exact .inl hnull
      · exact h met hmet
  unfold Joined
  rw [hmeet]
  exact hsub.trans hjoined

theorem sharedClassifier_of_hasClassifier (hne : parts ≠ [])
    (h : ∀ part ∈ parts, part.hasClassifier name length = true) :
    sharedClassifier parts = some (name, length) := by
  cases parts with
  | nil => exact absurd rfl hne
  | cons first parts =>
    obtain ⟨args, rfl, rfl⟩ := hasClassifier_iff.mp (h first List.mem_cons_self)
    rw [sharedClassifier, List.all_eq_true.mpr h]
    rfl

theorem plain_of_mem_returnsOf (hplain : ∀ part ∈ parts, Plain part) : ∀ ret ∈ returnsOf parts, Plain ret := by
  intro ret hret
  obtain ⟨signature, hin, rfl⟩ := mem_returnsOf.mp hret
  cases hplain _ hin with
  | function hparams hret hcount => exact hret

theorem returnsOf_ne_nil (hne : parts ≠ []) (hfun : ∀ part ∈ parts, part.isFun = true) :
    returnsOf parts ≠ [] := by
  obtain ⟨part, hpart⟩ := List.exists_mem_of_ne_nil parts hne
  obtain ⟨signature, rfl⟩ := isFun_iff.mp (hfun part hpart)
  exact List.ne_nil_of_mem (mem_returnsOf.mpr ⟨signature, hpart, rfl⟩)

/-- The join of class and function types, by induction on their size: each place joined weighs less. -/
theorem joins_of_plain (types : List Ty) (hne : types ≠ []) (hplain : ∀ ty ∈ types, Plain ty) :
    Joins any variance types := by
  have hmem : ∀ ty, ty ∈ unique types ↔ ty ∈ types := fun ty => mem_unique fun ty hty => (hplain ty hty).rigid
  have hset : {ty | ty ∈ types} = {ty | ty ∈ unique types} := Set.ext fun ty => (hmem ty).symm
  have hplain' : ∀ ty ∈ unique types, Plain ty := fun ty hty => hplain ty ((hmem ty).mp hty)
  have hvalues : (∀ ty ∈ types, ty.isValue = true) → ∀ ty ∈ unique types, ty.isValue = true := fun h ty hty =>
    h ty ((hmem ty).mp hty)
  have hne' : unique types ≠ [] := by
    obtain ⟨ty, hty⟩ := List.exists_mem_of_ne_nil types hne
    exact List.ne_nil_of_mem ((hmem ty).mpr hty)
  have hweight : weight (unique types) ≤ weight types := weight_unique_le types
  unfold Joins covariantJoin
  rw [hset]
  split
  · rename_i hunique
    exact absurd hunique hne'
  · rename_i one hunique
    have hone : ∀ ty ∈ {ty | ty ∈ unique types}, ty = one := by
      rw [hunique]
      exact fun ty hty => List.mem_singleton.mp hty
    have hin : one ∈ unique types := by
      rw [hunique]
      exact List.mem_singleton.mpr rfl
    exact ⟨one, rfl, joined_of_subsingleton hone, (hplain' one hin).value_or_nullable, fun h => hvalues h one hin⟩
  · rename_i one another rest hunique
    dsimp only
    rw [← hunique]
    split
    · rename_i hshared
      obtain ⟨shared, hshared⟩ := Option.isSome_iff_exists.mp hshared
      have hjoin : ∀ index < shared.2, Joins any variance (argumentsAt index (unique types)) := by
        intro index hindex
        have hlt := weight_argumentsAt_lt hne' index
        exact joins_of_plain _ (argumentsAt_ne_nil hshared hindex) (plain_of_mem_argumentsAt hplain')
      obtain ⟨args, hresult, hjoined⟩ := approximateObjects_joined hshared hplain' hjoin
      exact ⟨_, hresult, hjoined, .inl rfl, fun _ => rfl⟩
    · rename_i hshared
      split
      · rename_i hfun
        have hfun' := List.all_eq_true.mp hfun
        have hlt := weight_returnsOf_lt hne'
        have hjoin : Joins any variance (returnsOf (unique types)) :=
          joins_of_plain _ (returnsOf_ne_nil hne' hfun') (plain_of_mem_returnsOf hplain')
        obtain ⟨result, hresult, hjoined, hvalue⟩ := approximateFunctions_joined hne' hfun' hplain' hjoin
        exact ⟨result, hresult, hjoined, .inl hvalue, fun _ => hvalue⟩
      · rename_i hfun
        split
        · rename_i hnull
          have hnull' := List.all_eq_true.mp hnull
          have hlt := weight_nonNull_lt hne' hnull
          have hjoin : Joins any variance ((unique types).map (·.nonNull)) := by
            refine joins_of_plain _ (by simpa using hne') fun core hcore => ?_
            obtain ⟨ty, hty, rfl⟩ := List.mem_map.mp hcore
            have htyNull := hnull' ty hty
            cases hplain' ty hty with
            | nullable hinner hvalue =>
              rename_i inner
              cases inner <;> first | exact hinner | cases hvalue
            | _ => cases htyNull
          obtain ⟨result, hresult, hjoined, hresultNull⟩ := joinsNullable hne' hplain' hnull' hjoin
          refine ⟨result, hresult, hjoined, .inr hresultNull, fun h => ?_⟩
          obtain ⟨ty, hty⟩ := List.exists_mem_of_ne_nil _ hne'
          exact absurd (hnull' ty hty) (not_nullable_of_value (hvalues h ty hty))
        · rename_i hnull
          refine ⟨anyType any, rfl, joined_any hplain' ?_ ?_ fun h => hnull (List.all_eq_true.mpr h), .inl rfl,
            fun _ => rfl⟩
          · rintro ⟨name, length, h⟩
            rw [sharedClassifier_of_hasClassifier hne' h] at hshared
            exact hshared rfl
          · rintro ⟨length, contextCount, hasReceiver, suspend, h⟩
            refine hfun (List.all_eq_true.mpr fun ty hty => ?_)
            obtain ⟨params, ret, -, rfl⟩ := h ty hty
            rfl
termination_by weight types
decreasing_by all_goals omega

theorem declarationApproximation_parts (h : ty = .intersection parts) :
    declarationApproximation any varianceAt ty = approximateParts any varianceAt parts := by
  rw [h]
  rfl

/-- The published type of an intersection of class and function types is above every component just where no
place of it, at any depth, mixes nullable types with others. A nullable intersection publishes `Any?`, which is
above all. -/
theorem declarationApproximation_isSubtype_iff (any : TypeName) (variance : TypeName → ℕ → TypeVariance)
    {parts : List Ty} (hne : parts ≠ []) (h : ∀ part ∈ parts, Plain part ∧ part.isValue = true) :
    (∃ result, declarationApproximation any (fun name index => some (variance name index)) (.intersection parts) =
        some result ∧
      ((∀ part ∈ parts, IsSubtype any variance part result) ↔
        ∀ met, Meets variance {part | part ∈ parts} met → Unmixed met)) ∧
    ∃ result, declarationApproximation any (fun name index => some (variance name index))
        (.nullable (.intersection parts)) = some result ∧
      ∀ part ∈ parts, IsSubtype any variance part.nullableOf result := by
  have hplain : ∀ part ∈ parts, Plain part := fun part hpart => (h part hpart).1
  constructor
  · rw [declarationApproximation_parts rfl]
    unfold approximateParts
    split
    · rename_i hfun
      have hfun' := List.all_eq_true.mp hfun
      obtain ⟨result, hresult, hjoined, -⟩ := approximateFunctions_joined hne hfun' hplain
        (joins_of_plain _ (returnsOf_ne_nil hne hfun') (plain_of_mem_returnsOf hplain))
      exact ⟨result, hresult, hjoined⟩
    · rename_i hfun
      split
      · rename_i hshared
        obtain ⟨shared, hshared⟩ := Option.isSome_iff_exists.mp hshared
        obtain ⟨args, hresult, hjoined⟩ := approximateObjects_joined hshared hplain fun index hindex =>
          joins_of_plain _ (argumentsAt_ne_nil hshared hindex) (plain_of_mem_argumentsAt hplain)
        exact ⟨_, hresult, hjoined⟩
      · rename_i hshared
        refine ⟨anyType any, rfl, joined_any hplain ?_ ?_ fun hnull => ?_⟩
        · rintro ⟨name, length, hshape⟩
          rw [sharedClassifier_of_hasClassifier hne hshape] at hshared
          exact hshared rfl
        · rintro ⟨length, contextCount, hasReceiver, suspend, hshape⟩
          refine hfun (List.all_eq_true.mpr fun ty hty => ?_)
          obtain ⟨params, ret, -, rfl⟩ := hshape ty hty
          rfl
        · obtain ⟨part, hpart⟩ := List.exists_mem_of_ne_nil parts hne
          exact not_nullable_of_value (h part hpart).2 (hnull part hpart)
  · refine ⟨_, rfl, fun part hpart => ?_⟩
    have hvalue := (h part hpart).2
    have hnullable : part.nullableOf = .nullable part := by
      cases part <;> first | rfl | cases hvalue
    rw [hnullable]
    exact .both (.any hvalue)

end Subtypes

theorem plain_class (name : TypeName) : Plain (.obj name []) := .obj fun _ h => by cases h

theorem declarationApproximation_isSubtype_iff_classes :
    ∃ result, declarationApproximation 0 (fun _ _ => some .out) (.intersection [.obj 1 [], .obj 2 []]) =
      some result ∧
      ((∀ part ∈ [Ty.obj 1 [], .obj 2 []], IsSubtype 0 (fun _ _ => .out) part result) ↔
        ∀ met, Meets (fun _ _ => .out) {part | part ∈ [Ty.obj 1 [], .obj 2 []]} met → Unmixed met) := by
  have hplain : ∀ part ∈ [Ty.obj 1 [], .obj 2 []], Plain part ∧ part.isValue = true := by
    intro part hpart
    simp only [List.mem_cons, List.not_mem_nil, or_false] at hpart
    rcases hpart with rfl | rfl
    · exact ⟨plain_class 1, rfl⟩
    · exact ⟨plain_class 2, rfl⟩
  exact (declarationApproximation_isSubtype_iff 0 (fun _ _ => .out) (by simp) hplain).1

/-- `List<A?> & List<B>` is published as `List<Any>`, which `List<A?>` is no subtype of. -/
theorem declarationApproximation_nullable_argument :
    declarationApproximation 0 (fun _ _ => some .out)
        (.intersection [.obj 1 [.nullable (.obj 2 [])], .obj 1 [.obj 3 []]]) = some (.obj 1 [.obj 0 []]) ∧
      ¬IsSubtype 0 (fun _ _ => .out) (.obj 1 [.nullable (.obj 2 [])]) (.obj 1 [.obj 0 []]) := by
  constructor
  · have hjoin : covariantJoin 0 (fun _ _ => some .out) [.nullable (.obj 2 []), .obj 3 []] =
        some (.obj 0 []) := by
      unfold covariantJoin
      rfl
    have hargument : approximateArgument 0 (fun _ _ => some .out) 1 0 [.nullable (.obj 2 []), .obj 3 []] =
        some (.obj 0 []) := by
      unfold approximateArgument
      exact hjoin
    have hobjects : approximateObjects 0 (fun _ _ => some .out)
        [.obj 1 [.nullable (.obj 2 [])], .obj 1 [.obj 3 []]] = some (.obj 1 [.obj 0 []]) :=
      approximateObjects_eq (rfl : _ = some (1, 1)) (Results.mapM_some.mpr (.cons hargument .nil))
    rw [declarationApproximation_parts rfl]
    exact hobjects
  · intro h
    have harg := (isSubtype_obj_iff (by rfl)).mp h 0 _ _ rfl rfl
    cases harg with
    | covariant hsub =>
      cases hsub with
      | any hvalue => cases hvalue

end Krusty.Types
