import Mathlib.Data.List.AList
import Mathlib.Data.String.Basic
import Krusty.Lib.Closure

/-! The semantic types and classifiers that `when` is checked against. -/
namespace Krusty.Resolve

/-- A classifier identity; the name tree holds one node for a path, whose segments are between slashes. -/
structure TypeName where
  path : String
deriving DecidableEq

namespace TypeName

theorem path_injective : Function.Injective path := by
  intro a b h
  cases a
  cases b
  cases h
  rfl

/-- `path_cmp`. -/
instance : LinearOrder TypeName := LinearOrder.lift' path path_injective

/-- What of `text` follows the last of `separators`, or all of it. -/
def afterLast (separators text : List Char) : List Char :=
  (text.reverse.takeWhile fun c => !separators.contains c).reverse

def segmentRef (self : TypeName) : List Char := afterLast ['/'] self.path.toList

def nestedSegmentRef (self : TypeName) : String := String.ofList (afterLast ['$', '.'] self.segmentRef)

end TypeName

/-- The kinds of a type that the queries below tell apart. -/
inductive Ty where
  | obj (internal : TypeName)
  | nullable (inner : Ty)
  | platformNullable (inner : Ty)
  | mutabilityFlexible (inner : Ty)
  | definitelyNotNull (inner : Ty)
  | tyParam (name : String) (bound : Ty)
  | var (id : ℕ) (bound : Ty)
  | other
deriving DecidableEq

namespace Ty

def nonNull : Ty → Ty
  | nullable inner => inner.nonNull
  | platformNullable inner => inner.nonNull
  | mutabilityFlexible inner => inner
  | ty => ty

def objInternal : Ty → Option TypeName
  | obj internal => some internal
  | definitelyNotNull inner => inner.objInternal
  | tyParam _ bound => bound.objInternal
  | var _ bound => bound.objInternal
  | platformNullable bound => bound.objInternal
  | mutabilityFlexible bound => bound.objInternal
  | _ => none

def isNullable : Ty → Bool
  | nullable _ => true
  | _ => false

end Ty

inductive TypeKind where
  | «class»
  | interface
  | annotation
  | enum
  | object
deriving DecidableEq

/-- What a provider says of a classifier. -/
structure LibraryType where
  kind : TypeKind
  sealedSubclasses : List TypeName

def LibraryType.isObject (self : LibraryType) : Bool := self.kind = .object

inductive FlowExclusion where
  | boolean (value : Bool)
  | enumEntry (classifier : TypeName) (name : String)
  | singleton (classifier : TypeName)
  | classifier (classifier : TypeName)
  | null

end Krusty.Resolve

/-! The branches that a `when` over a sealed subject still misses. -/
namespace Krusty.Resolve

structure ExprId where
  index : ℕ
deriving DecidableEq

structure TypeRef where
  name : String
  span : ℕ × ℕ

/-- The forms a branch condition is told apart by. -/
inductive Expr where
  | is (operand : ExprId) (ty : TypeRef) (negated : Bool)
  | name (name : String)
  | member (receiver : ExprId) (name : String)
  | nullLit
  | other

structure SingletonValue where
  classifier : TypeName
  companionOwner : Option TypeName

inductive ExprLowering where
  | singletonValue (singleton : SingletonValue)
  | other

inductive WhenCondition where
  | subjectEquals (expression : ExprId)
  | predicate (expression : ExprId)

def WhenCondition.expression : WhenCondition → ExprId
  | subjectEquals expression => expression
  | predicate expression => expression

structure WhenArm where
  conditions : List WhenCondition
  guard : Option ExprId
  body : ExprId

/-- What the checker knows when it comes to the arms: the classifiers its providers resolve, and its tables. -/
structure Checker (Scope NarrowPath : Type) where
  classifiers : AList fun _ : TypeName => LibraryType
  expr : ExprId → Expr
  resolvedTypeTys : ℕ × ℕ → Option Ty
  exprLowers : ExprId → Option ExprLowering
  exprTypes : List Ty
  typeRefTySilent : Scope → TypeRef → Ty
  exprAccessPath : ExprId → Option NarrowPath
  lookupFlowExclusions : Scope → NarrowPath → List FlowExclusion

/-- The classifiers named so far, and whether null was. -/
structure Coverage where
  covered : List TypeName
  coversNull : Bool

namespace Checker

variable {Scope NarrowPath : Type} (self : Checker Scope NarrowPath)

def resolvedTypeName (internal : TypeName) : Option LibraryType := self.classifiers.lookup internal

/-- The sealed subclasses of a classifier, none when it is not resolved. -/
def sealedSubclasses (internal : TypeName) : List TypeName :=
  ((self.resolvedTypeName internal).map LibraryType.sealedSubclasses).getD []

def isObject (internal : TypeName) : Bool := (self.resolvedTypeName internal).any LibraryType.isObject

/-- Every sealed descendant of `roots`. As many steps as there are roots and subclasses empty the list. -/
def sealedDescendants (roots : List TypeName) : List TypeName :=
  Closure.close self.sealedSubclasses
    (roots.length + (self.classifiers.keys.map fun name => (self.sealedSubclasses name).length).sum) [] roots.reverse

def coverExclusion (descendants : List TypeName) (coverage : Coverage) : FlowExclusion → Coverage
  | .classifier classifier | .singleton classifier =>
    if descendants.contains classifier then { coverage with covered := classifier :: coverage.covered } else coverage
  | .null => { coverage with coversNull := true }
  | .boolean _ | .enumEntry _ _ => coverage

def testedType (scope : Scope) (ty : TypeRef) : Ty :=
  (self.resolvedTypeTys ty.span).getD (self.typeRefTySilent scope ty)

/-- The object that a name or a member access stands for. -/
def conditionObject (condition : ExprId) : Option TypeName :=
  match self.exprLowers condition with
  | some (.singletonValue singleton) => some singleton.classifier
  | _ => do
    let ty ← self.exprTypes[condition.index]?
    let internal ← ty.nonNull.objInternal
    if self.isObject internal then some internal else none

def coverObject (descendants : List TypeName) (coverage : Coverage) (condition : ExprId) : Coverage :=
  match self.conditionObject condition with
  | some object =>
    if descendants.contains object then { coverage with covered := object :: coverage.covered } else coverage
  | none => coverage

def coverCondition (scope : Scope) (descendants : List TypeName) (coverage : Coverage) (condition : ExprId) : Coverage :=
  match self.expr condition with
  | .is _ ty false =>
    match self.testedType scope ty with
    | .obj internal => { coverage with covered := internal :: coverage.covered }
    | _ => coverage
  | .name _ => self.coverObject descendants coverage condition
  | .member _ _ => self.coverObject descendants coverage condition
  | .nullLit => { coverage with coversNull := true }
  | _ => coverage

def exclusions (scope : Scope) (subjectExpression : Option ExprId) : List FlowExclusion :=
  match subjectExpression.bind self.exprAccessPath with
  | some path => self.lookupFlowExclusions scope path
  | none => []

def plainConditions (arms : List WhenArm) : List ExprId :=
  (arms.filter fun arm => arm.guard.isNone).flatMap fun arm => arm.conditions.map WhenCondition.expression

def coverage (scope : Scope) (subjectExpression : Option ExprId) (arms : List WhenArm) (descendants : List TypeName) :
    Coverage :=
  let start := (self.exclusions scope subjectExpression).foldl (coverExclusion descendants) ⟨[], false⟩
  (plainConditions arms).foldl (self.coverCondition scope descendants) start

/-- `uncovered_leaves` at depth `16 - left`. -/
def uncoveredLeaves (covered : List TypeName) : ℕ → TypeName → List TypeName
  | 0, subclass => if covered.contains subclass then [] else [subclass]
  | left + 1, subclass =>
    if covered.contains subclass then []
    else
      let nested := self.sealedSubclasses subclass
      if nested.isEmpty then [subclass] else nested.flatMap (uncoveredLeaves covered left)

/-- The classifiers that the branches are still missing for. -/
def uncovered (covered subclasses : List TypeName) : List TypeName :=
  SortedSets.unique ((subclasses.flatMap (self.uncoveredLeaves covered 16)).insertionSort (· ≤ ·))

def branch (subclass : TypeName) : String :=
  if self.isObject subclass then subclass.nestedSegmentRef else "is " ++ subclass.nestedSegmentRef

/-- The sealed subclasses of the subject's classifier, if it has any. -/
def subjectSubclasses (subjectTy : Option Ty) : Option (List TypeName) := do
  let subject ← subjectTy
  let internal ← subject.nonNull.objInternal
  let shape ← self.resolvedTypeName internal
  if shape.sealedSubclasses.isEmpty then none else some (shape.sealedSubclasses.insertionSort (· ≤ ·))

def whenSealedMissingBranches (scope : Scope) (subjectExpression : Option ExprId) (subjectTy : Option Ty)
    (arms : List WhenArm) : Option (List String) := do
  let subject ← subjectTy
  let subclasses ← self.subjectSubclasses subjectTy
  let coverage := self.coverage scope subjectExpression arms (self.sealedDescendants subclasses)
  let missing := (self.uncovered coverage.covered subclasses).map self.branch
  some (if subject.isNullable && !coverage.coversNull then missing ++ ["null"] else missing)

end Checker

end Krusty.Resolve
