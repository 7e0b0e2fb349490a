import Krusty.Lib.Refinement
import Krusty.Lib.SortedSets
import Krusty.Jvm.Opcodes
import Krusty.Jvm.Descriptors

/-! kotlinc's `RedundantBoxedValuesCollection`: the boxes still safe to remove. `none` is a panic. -/
namespace Krusty.Jvm.BytecodePasses.RedundantBoxing

abbrev BoxId := ℕ

/-- The iterator of a progression: its `iterator()` call and what it yields. -/
structure ProgressionIterator where
  call : ℕ
  element : String
  deriving DecidableEq

def unboxedPrimitive (descriptor : String) : Option String :=
  if descriptor = "Ljava/lang/Boolean;" then some "Z"
  else if descriptor = "Ljava/lang/Character;" then some "C"
  else if descriptor = "Ljava/lang/Byte;" then some "B"
  else if descriptor = "Ljava/lang/Short;" then some "S"
  else if descriptor = "Ljava/lang/Integer;" then some "I"
  else if descriptor = "Ljava/lang/Float;" then some "F"
  else if descriptor = "Ljava/lang/Long;" then some "J"
  else if descriptor = "Ljava/lang/Double;" then some "D"
  else none

def isPrimitiveWrapper (descriptor : String) : Bool := (unboxedPrimitive descriptor).isSome

/-- One boxing, and the boxes it met at a merge. -/
structure BoxedValue where
  boxedType : String
  unboxedType : String
  boxing : ℕ
  progressionIterator : Option ProgressionIterator
  isValueClassValue : Bool
  mergedWith : List BoxId
  safeToRemove : Bool
  deriving DecidableEq

def BoxedValue.new (boxedType unboxedType : String) (boxing : ℕ)
    (progressionIterator : Option ProgressionIterator) : BoxedValue where
  boxedType := boxedType
  unboxedType := unboxedType
  boxing := boxing
  progressionIterator := progressionIterator
  isValueClassValue := !isPrimitiveWrapper boxedType
  mergedWith := []
  safeToRemove := true

structure Candidates where
  values : List BoxedValue
  safe : List BoxId
  deriving DecidableEq

namespace Candidates

def empty : Candidates := ⟨[], []⟩

variable (candidates : Candidates)

def add (value : BoxedValue) : BoxId × Candidates :=
  let id := candidates.values.length
  (id, ⟨candidates.values ++ [value], SortedSets.insert id candidates.safe⟩)

def drop (id : BoxId) (value : BoxedValue) : Candidates :=
  ⟨candidates.values.set id { value with safeToRemove := false }, SortedSets.remove id candidates.safe⟩

/-- `remove`, to a depth of `fuel` calls; `none` also when that is not enough. -/
def removeFrom : ℕ → Candidates → BoxId → Option Candidates
  | 0, _, _ => none
  | fuel + 1, candidates, id =>
    if id ∈ candidates.safe then do
      let value ← candidates.values[id]?
      value.mergedWith.foldlM (removeFrom fuel) (candidates.drop id value)
    else some candidates

/-- Each call in a chain of calls takes a box out of the safe ones. -/
def remove (id : BoxId) : Option Candidates := removeFrom (candidates.safe.length + 1) candidates id

/-- `w` joins the boxes `v` was merged with. -/
def join (v w : BoxId) : Option Candidates := do
  let value ← candidates.values[v]?
  let value := { value with mergedWith := SortedSets.insert w value.mergedWith }
  return { candidates with values := candidates.values.set v value }

def merge (v w : BoxId) : Option Candidates := do
  let candidates ← candidates.join v w
  let candidates ← candidates.join w v
  let first ← candidates.values[v]?
  let second ← candidates.values[w]?
  let candidates ← if first.safeToRemove && !second.safeToRemove then candidates.remove v else some candidates
  if !first.safeToRemove && second.safeToRemove then candidates.remove w else some candidates

def isEmpty : Bool := candidates.safe.isEmpty

/-- What the analysis does with its boxes. -/
inductive Op where
  | add (boxedType unboxedType : String) (boxing : ℕ) (progressionIterator : Option ProgressionIterator)
  | remove (id : BoxId)
  | merge (v w : BoxId)

def Op.makes : Op → Bool
  | .add _ _ _ _ => true
  | _ => false

/-- The id of a box made. -/
def apply : Op → Option (Option BoxId × Candidates)
  | .add boxedType unboxedType boxing progressionIterator =>
    let (id, candidates) := candidates.add (.new boxedType unboxedType boxing progressionIterator)
    some (some id, candidates)
  | .remove id => (candidates.remove id).map fun candidates => (none, candidates)
  | .merge v w => (candidates.merge v w).map fun candidates => (none, candidates)

def run : List Op → Option (List (Option BoxId) × Candidates) := Refinement.run apply candidates

end Candidates

end Krusty.Jvm.BytecodePasses.RedundantBoxing

/-! The instructions kotlinc's boxing analysis recognizes. -/
namespace Krusty.Jvm.BytecodePasses.RedundantBoxing

/-- The descriptor of a value class's underlying type, by internal name; `none` for any other class. -/
abbrev ValueClasses := String → Option String

/-- The owner, name and descriptor of a call by `callOp`. -/
def calledBy (callOp : UInt8) : Insn LabelId → Option (String × String × String)
  | .method op owner name desc _ => if op = callOp then some (owner, name, desc) else none
  | _ => none

def isPrimitiveBoxing (owner name desc : String) : Bool :=
  match unboxedPrimitive (ofInternalName owner) with
  | none => false
  | some primitive => name == "valueOf" && desc == "(" ++ primitive ++ ")L" ++ owner ++ ";"

def classToKClass : String := "(Ljava/lang/Class;)Lkotlin/reflect/KClass;"

def isClassBoxing (owner name desc : String) : Bool :=
  owner == "kotlin/jvm/internal/Reflection" && name == "getOrCreateKotlinClass" && desc == classToKClass

def isValueClassBoxing (valueClasses : ValueClasses) (owner name desc : String) : Bool :=
  name == "box-impl" &&
    (valueClasses owner).any fun underlying => desc == "(" ++ underlying ++ ")L" ++ owner ++ ";"

/-- The `Boxing` helpers, with what each takes and gives. -/
def coroutineBoxings : List (String × String) :=
  [("boxBoolean", "(Z)Ljava/lang/Boolean;"), ("boxChar", "(C)Ljava/lang/Character;"),
    ("boxByte", "(B)Ljava/lang/Byte;"), ("boxShort", "(S)Ljava/lang/Short;"),
    ("boxInt", "(I)Ljava/lang/Integer;"), ("boxFloat", "(F)Ljava/lang/Float;"),
    ("boxLong", "(J)Ljava/lang/Long;"), ("boxDouble", "(D)Ljava/lang/Double;")]

def isCoroutinePrimitiveBoxing (owner name desc : String) : Bool :=
  owner == "kotlin/coroutines/jvm/internal/Boxing" && coroutineBoxings.contains (name, desc)

/-- A primitive's `valueOf`, `Reflection.getOrCreateKotlinClass`, a value class's `box-impl` or a coroutine
`Boxing` helper. -/
def isBoxing (valueClasses : ValueClasses) (insn : Insn LabelId) : Bool :=
  (calledBy invokestatic insn).any fun (owner, name, desc) =>
    isPrimitiveBoxing owner name desc || isClassBoxing owner name desc ||
      isValueClassBoxing valueClasses owner name desc || isCoroutinePrimitiveBoxing owner name desc

def isIteratorCall (insn : Insn LabelId) : Bool :=
  (calledBy invokeinterface insn).any fun (_, name, desc) =>
    name == "iterator" && desc == "()Ljava/util/Iterator;"

/-- The descriptor of the iterator a progression class's `iterator()` returns; `none` for any other class. -/
def progressionIterator (progression : String) : Option String :=
  if progression = "Lkotlin/ranges/CharRange;" ∨ progression = "Lkotlin/ranges/CharProgression;" then
    some "Lkotlin/collections/CharIterator;"
  else if progression = "Lkotlin/ranges/IntRange;" ∨ progression = "Lkotlin/ranges/IntProgression;" then
    some "Lkotlin/collections/IntIterator;"
  else if progression = "Lkotlin/ranges/LongRange;" ∨ progression = "Lkotlin/ranges/LongProgression;" then
    some "Lkotlin/collections/LongIterator;"
  else none

end Krusty.Jvm.BytecodePasses.RedundantBoxing
