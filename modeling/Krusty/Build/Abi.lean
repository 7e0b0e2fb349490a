import Mathlib.Data.Char
import Mathlib.Data.List.Lex
import Mathlib.Data.List.Sort
import Mathlib.Order.Lex
import Krusty.Build.CacheKey

/-! The ABI surface of a module, and the bytes its fingerprint is the digest of. -/
namespace Krusty.Build

open Strings

inductive MemberKind where
  | field
  | method
  deriving DecidableEq

def MemberKind.tag : MemberKind → Text
  | field => "field".toList
  | method => "method".toList

/-- A `ConstantValue`: floating-point values by their bits, strings by their UTF-16 units. -/
inductive AbiConstant where
  | int (value : Int32)
  | long (value : Int64)
  | floatBits (bits : UInt32)
  | doubleBits (bits : UInt64)
  | string (units : List UInt16)
  deriving DecidableEq

mutual

inductive AbiAnnotation where
  | mk (name : Text) (arguments : List (Text × AbiAnnotationValue))

inductive AbiAnnotationValue where
  | int (value : Int32)
  | byte (value : Int8)
  | short (value : Int16)
  | long (value : Int64)
  | floatBits (bits : UInt32)
  | doubleBits (bits : UInt64)
  | boolean (value : Bool)
  | char (unit : UInt16)
  | string (units : List UInt16)
  | enum (ty entry : Text)
  | cls (ty : Text)
  | annotation ( annotation : AbiAnnotation)
  | array (values : List AbiAnnotationValue)

end

structure AbiMember where
  kind : MemberKind
  name : Text
  descriptor : Text
  access : UInt16
  signature : Option Text
  constant : Option AbiConstant

structure AbiClass where
  name : Text
  access : UInt16
  superName : Option Text
  interfaces : List Text
  signature : Option Text
  retention : Option Text
  metadata : Option AbiAnnotation
  /-- In declaration order. -/
  members : List AbiMember

section Absorb

open LittleEndian

def le16 (value : UInt16) : List UInt8 := leBytes 2 value.toNat
def le32 (value : UInt32) : List UInt8 := leBytes 4 value.toNat
def le64 (value : UInt64) : List UInt8 := leBytes 8 value.toNat

/-- UTF-16 units, counted. -/
def absorbUnits (countTag unitTag : Text) (units : List UInt16) (hasher : Hasher) : Hasher :=
  CacheKeyInputs.absorbAll countTag units (fun unit h => h.field unitTag (le16 unit)) hasher

def AbiConstant.absorb (value : AbiConstant) (hasher : Hasher) : Hasher :=
  match value with
  | .int value =>
    (hasher.text "constant-kind".toList "int".toList).field "constant-value".toList (le32 value.toUInt32)
  | .long value =>
    (hasher.text "constant-kind".toList "long".toList).field "constant-value".toList (le64 value.toUInt64)
  | .floatBits bits =>
    (hasher.text "constant-kind".toList "float".toList).field "constant-value".toList (le32 bits)
  | .doubleBits bits =>
    (hasher.text "constant-kind".toList "double".toList).field "constant-value".toList (le64 bits)
  | .string units =>
    absorbUnits "constant-units".toList "constant-unit".toList units
      (hasher.text "constant-kind".toList "string".toList)

def valueKind (kind : Text) (hasher : Hasher) : Hasher := hasher.text "annotation-value-kind".toList kind

def typedValue (kind : Text) (bytes : List UInt8) (hasher : Hasher) : Hasher :=
  (valueKind kind hasher).field "annotation-value".toList bytes

mutual

def AbiAnnotation.absorb : AbiAnnotation → Hasher → Hasher
  | .mk name arguments, hasher => absorbArguments arguments
      ((hasher.text "annotation".toList name).count "annotation-arguments".toList arguments.length)

def absorbArguments : List (Text × AbiAnnotationValue) → Hasher → Hasher
  | [], hasher => hasher
  | (name, value) :: arguments, hasher =>
    absorbArguments arguments (value.absorb (hasher.text "annotation-argument-name".toList name))

def AbiAnnotationValue.absorb : AbiAnnotationValue → Hasher → Hasher
  | .int value, hasher => typedValue "int".toList (le32 value.toUInt32) hasher
  | .byte value, hasher => typedValue "byte".toList [value.toUInt8] hasher
  | .short value, hasher => typedValue "short".toList (le16 value.toUInt16) hasher
  | .long value, hasher => typedValue "long".toList (le64 value.toUInt64) hasher
  | .floatBits bits, hasher => typedValue "float".toList (le32 bits) hasher
  | .doubleBits bits, hasher => typedValue "double".toList (le64 bits) hasher
  | .boolean value, hasher => typedValue "boolean".toList [if value then 1 else 0] hasher
  | .char unit, hasher => typedValue "char".toList (le16 unit) hasher
  | .string units, hasher =>
    absorbUnits "annotation-string-units".toList "annotation-string-unit".toList units
      (valueKind "string".toList hasher)
  | .enum ty entry, hasher =>
    ((valueKind "enum".toList hasher).text "annotation-enum-type".toList ty).text
      "annotation-enum-entry".toList entry
  | .cls ty, hasher => (valueKind "class".toList hasher).text "annotation-class".toList ty
  | AbiAnnotationValue.annotation annotation, hasher => annotation.absorb (valueKind "annotation".toList hasher)
  | .array values, hasher => absorbValues values
      ((valueKind "array".toList hasher).count "annotation-array-values".toList values.length)

def absorbValues : List AbiAnnotationValue → Hasher → Hasher
  | [], hasher => hasher
  | value :: values, hasher => absorbValues values (value.absorb hasher)

end

/-- An optional part behind a byte that says whether it is there. -/
def absorbOption {α : Type} (tag : Text) (absorb : α → Hasher → Hasher) (part : Option α)
    (hasher : Hasher) : Hasher :=
  match part with
  | some part => absorb part (hasher.field tag [1])
  | none => hasher.field tag [0]

/-- An optional text, the empty one when there is none. -/
def absorbText (tag : Text) (part : Option Text) (hasher : Hasher) : Hasher := hasher.text tag (part.getD [])

def AbiMember.absorb (member : AbiMember) (hasher : Hasher) : Hasher :=
  let hasher := hasher.text "kind".toList member.kind.tag
  let hasher := hasher.text "name".toList member.name
  let hasher := hasher.text "descriptor".toList member.descriptor
  let hasher := hasher.field "member-access".toList (le16 member.access)
  let hasher := absorbText "member-signature".toList member.signature hasher
  absorbOption "has-constant".toList AbiConstant.absorb member.constant hasher

def AbiClass.absorb (cls : AbiClass) (hasher : Hasher) : Hasher :=
  let hasher := hasher.text "class".toList cls.name
  let hasher := hasher.field "access".toList (le16 cls.access)
  let hasher := absorbText "super".toList cls.superName hasher
  let hasher := CacheKeyInputs.absorbAll "interfaces".toList cls.interfaces
    (fun interface h => h.text "interface".toList interface) hasher
  let hasher := absorbText "signature".toList cls.signature hasher
  let hasher := absorbText "retention".toList cls.retention hasher
  let hasher := absorbOption "has-meta".toList AbiAnnotation.absorb cls.metadata hasher
  CacheKeyInputs.absorbAll "members".toList cls.members AbiMember.absorb hasher

/-- The classes in the order of their names. -/
def ordered (classes : List AbiClass) : List AbiClass :=
  classes.insertionSort fun a b => a.name ≤ b.name

def absorbClasses (classes : List AbiClass) (hasher : Hasher) : Hasher :=
  CacheKeyInputs.absorbAll "classes".toList (ordered classes) AbiClass.absorb hasher

/-- A module's fingerprint, by the hash function in use. -/
def fingerprint (sha : List UInt8 → Digest) (classes : List AbiClass) : AbiFingerprint :=
  ⟨(absorbClasses classes Hasher.new).finish sha⟩

end Absorb

end Krusty.Build
