import Krusty.Jvm.BytecodePasses.Analysis.FrameExecution

/-! kotlinc's `OptimizationBasicInterpreter`: a value is its JVM type, with the int-like primitives kept
apart where a parameter or field declares them. -/
namespace Krusty.Jvm.BytecodePasses

inductive BasicValue where
  /-- An unassigned slot, or the meet of incompatible values. -/
  | uninitialized
  | int
  | float
  | long
  | double
  | boolean
  | char
  | byte
  | short
  /-- A reference, by its descriptor. -/
  | reference (descriptor : String)
  | null
  deriving DecidableEq

def objectDescriptor : String := "Ljava/lang/Object;"

def isReferenceDescriptor : List Char → Bool
  | 'L' :: _ | '[' :: _ => true
  | _ => false

namespace BasicValue

def size : BasicValue → ℕ
  | long | double => 2
  | _ => 1

def descriptor : BasicValue → Option String
  | uninitialized => none
  | int => some "I"
  | float => some "F"
  | long => some "J"
  | double => some "D"
  | boolean => some "Z"
  | char => some "C"
  | byte => some "B"
  | short => some "S"
  | reference descriptor => some descriptor
  | null => some objectDescriptor

def isReference : BasicValue → Bool
  | reference _ | null => true
  | _ => false

/-- Whether `istore` stores the value. -/
def isIntStorable : BasicValue → Bool
  | int | boolean | char | byte | short => true
  | _ => false

/-- The value of a field descriptor; `none` for `void`. -/
def ofDescriptor (descriptor : String) : Option BasicValue :=
  match descriptor.toList with
  | 'I' :: _ => some int
  | 'F' :: _ => some float
  | 'J' :: _ => some long
  | 'D' :: _ => some double
  | 'Z' :: _ => some boolean
  | 'C' :: _ => some char
  | 'B' :: _ => some byte
  | 'S' :: _ => some short
  | 'L' :: _ | '[' :: _ => some (reference descriptor)
  | _ => none

def ofClass (internal : String) : BasicValue := reference (ofInternalName internal)

def arrayOfObject (dimensions : ℕ) : BasicValue :=
  reference (String.ofList (List.replicate dimensions '[' ++ objectDescriptor.toList))

/-- The array dimensions two descriptors share, and what is left of both. -/
def commonDimensions : List Char → List Char → ℕ × List Char × List Char
  | '[' :: a, '[' :: b =>
    let (dimensions, a, b) := commonDimensions a b
    (dimensions + 1, a, b)
  | a, b => (0, a, b)

theorem commonDimensions_of_not {a b : List Char} (h : ∀ a' b', a = '[' :: a' → b = '[' :: b' → False) :
    commonDimensions a b = (0, a, b) := by
  fun_induction commonDimensions a b with
  | case1 a b => exact (h a b rfl rfl).elim
  | case2 a b => rfl

/-- `Object`, or an array of `Object` of the common dimension. -/
def mergeReferences (a b : String) : BasicValue :=
  let (dimensions, a, b) := commonDimensions a.toList b.toList
  if dimensions = 0 then reference objectDescriptor
  else if !isReferenceDescriptor a || !isReferenceDescriptor b then arrayOfObject (dimensions - 1)
  else arrayOfObject dimensions

def merge (first second : BasicValue) : BasicValue :=
  if first = second then first
  else if first = uninitialized ∨ second = uninitialized then uninitialized
  else if first.isReference && second.isReference then
    if first = null then second
    else if second = null then first
    else mergeReferences (second.descriptor.getD objectDescriptor) (first.descriptor.getD objectDescriptor)
  else if first.isIntStorable && second.isIntStorable then int
  else uninitialized

end BasicValue

namespace BasicInterpreter

variable (index : ℕ) (insn : Insn LabelId)

def newValue : Option String → Option BasicValue
  | none => some .uninitialized
  | some descriptor => BasicValue.ofDescriptor descriptor

def unexpected : AnalyzerError := ⟨index, "unexpected instruction " ++ hexByte (opcode insn)⟩

def fieldValue : Except AnalyzerError (Option BasicValue) :=
  match insn with
  | .field _ _ _ desc => .ok (BasicValue.ofDescriptor desc)
  | _ => .error (unexpected index insn)

def typeOperand : Except AnalyzerError String :=
  match insn with
  | .type _ cls => .ok cls
  | _ => .error (unexpected index insn)

def constantValue : Constant → BasicValue
  | .int _ => .int
  | .float _ => .float
  | .long _ => .long
  | .double _ => .double
  | .string _ => .ofClass "java/lang/String"
  | .cls _ => .ofClass "java/lang/Class"
  | .methodType _ => .ofClass "java/lang/invoke/MethodType"
  | .handle _ => .ofClass "java/lang/invoke/MethodHandle"

def newOperation : Except AnalyzerError BasicValue :=
  let op := opcode insn
  if op = aconstNull then .ok .null
  else if opRange iconstM1 iconst5 op ∨ op = bipush ∨ op = sipush then .ok .int
  else if op = lconst0 ∨ op = lconst1 then .ok .long
  else if opRange fconst0 fconst2 op then .ok .float
  else if op = dconst0 ∨ op = dconst1 then .ok .double
  else if op = ldcOp then
    match insn with
    | .ldc constant => .ok (constantValue constant)
    | _ => .error (unexpected index insn)
  else if op = getstatic then do
    match ← fieldValue index insn with
    | some value => return value
    | none => throw (unexpected index insn)
  else if op = newOp then do
    return .ofClass (← typeOperand index insn)
  else .error (unexpected index insn)

/-- The element type of an array of references, or `null` where the array's type is not known. -/
def elementValue (array : BasicValue) : BasicValue :=
  match array.descriptor.map String.toList with
  | some ('[' :: element) => .reference (String.ofList element)
  | _ => .null

def binaryOperation (first _second : BasicValue) : Except AnalyzerError (Option BasicValue) :=
  let op := opcode insn
  if op = iaload ∨ opRange baload saload op then .ok (some .int)
  else if op = faload then .ok (some .float)
  else if op = laload then .ok (some .long)
  else if op = daload then .ok (some .double)
  else if op = aaload then .ok (some (elementValue first))
  else if opRange iadd drem op ∨ opRange ishl lxor op then
    if ishl ≤ op then .ok (some (if (op - ishl) % 2 = 0 then .int else .long))
    else
      let kind := (op - iadd) % 4
      .ok (some (if kind = 0 then .int else if kind = 1 then .long else if kind = 2 then .float else .double))
  else if opRange lcmp dcmpg op then .ok (some .int)
  else if opRange ifIcmpeq ifAcmpne op ∨ op = putfield then .ok none
  else .error (unexpected index insn)

def naryOperation (_values : List BasicValue) : Except AnalyzerError (Option BasicValue) :=
  match insn with
  | .multiANewArray desc _ => .ok (some (.ofClass desc))
  | .method _ _ _ desc _ | .invokeDynamic _ desc _ _ =>
    match returnType desc with
    | some ret => .ok (BasicValue.ofDescriptor ret)
    | none => .error (unexpected index insn)
  | _ => .error (unexpected index insn)

/-- The element descriptor of the primitive array `newarray` makes. -/
def primitiveElement (operand : Int32) : Option String :=
  if operand = 4 then some "Z"
  else if operand = 5 then some "C"
  else if operand = 6 then some "F"
  else if operand = 7 then some "D"
  else if operand = 8 then some "B"
  else if operand = 9 then some "S"
  else if operand = 10 then some "I"
  else if operand = 11 then some "J"
  else none

def toInt : List UInt8 := [0x74, 0x84, 0x88, 0x8b, 0x8e, 0x91, 0x92, 0x93, 0xbe, 0xc1]
def toFloat : List UInt8 := [0x76, 0x86, 0x89, 0x90]
def toLong : List UInt8 := [0x75, 0x85, 0x8c, 0x8f]
def toDouble : List UInt8 := [0x77, 0x87, 0x8a, 0x8d]

def unaryOperation (value : BasicValue) : Except AnalyzerError (Option BasicValue) :=
  let op := opcode insn
  if op ∈ toInt then .ok (some .int)
  else if op ∈ toFloat then .ok (some .float)
  else if op ∈ toLong then .ok (some .long)
  else if op ∈ toDouble then .ok (some .double)
  else if opRange ifeq ifle op ∨ op = tableswitch ∨ op = lookupswitch ∨ opRange ireturn areturn op ∨
      op = putstatic ∨ op = athrow ∨ op = monitorenter ∨ op = monitorexit ∨ op = ifnull ∨ op = ifnonnull then
    .ok none
  else if op = getfield then fieldValue index insn
  else if op = newarray then
    match insn with
    | .int _ operand =>
      match primitiveElement operand with
      | some element => .ok (some (.reference ("[" ++ element)))
      | none => .error (unexpected index insn)
    | _ => .error (unexpected index insn)
  else if op = anewarray then do
    let cls ← typeOperand index insn
    return some (.reference ("[" ++ ofInternalName cls))
  else if op = checkcast then
    if value = .null then .ok (some .null)
    else do
      let cls ← typeOperand index insn
      return some (.ofClass cls)
  else .error (unexpected index insn)

end BasicInterpreter

/-- kotlinc's `OptimizationBasicInterpreter`. -/
def basicInterpreter : Operations BasicValue where
  newValue := BasicInterpreter.newValue
  newEmptyValue := .uninitialized
  -- a parameter's type is not void
  newParameterValue _ desc := (BasicValue.ofDescriptor desc).getD .uninitialized
  newExceptionValue cls := .ofClass cls
  mergeLocal := .merge
  mergeStack := .merge
  size := BasicValue.size
  newOperation := BasicInterpreter.newOperation
  copyOperation _ _ value := .ok value
  unaryOperation := BasicInterpreter.unaryOperation
  binaryOperation := BasicInterpreter.binaryOperation
  ternaryOperation _ _ _ _ _ := .ok none
  naryOperation := BasicInterpreter.naryOperation
  returnOperation _ _ _ _ := .ok ()

end Krusty.Jvm.BytecodePasses
