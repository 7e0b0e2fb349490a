import Mathlib.Data.Nat.Log
import Krusty.Native.Linker.Relocate

/-! The size and alignment of every C type for a target, and where each field of a record sits. -/
namespace Krusty.Native.Cinterop

open Linker (Arch)

inductive IntRank
  | bool
  | char
  | short
  | int
  | long
  | longLong
  | int128
deriving DecidableEq

def IntRank.size : IntRank → ℕ
  | .bool | .char => 1
  | .short => 2
  | .int => 4
  | .long | .longLong => 8
  | .int128 => 16

inductive FloatKind
  | float
  | double
  | longDouble
deriving DecidableEq

def floatSize : FloatKind → ℕ
  | .float => 4
  | .double => 8
  | .longDouble => 16

inductive RecordKind
  | struct
  | union
deriving DecidableEq

/-- What an alignment attribute or a pack pragma may ask for: the parser refuses all else. -/
abbrev Alignment := {n : ℕ // ∃ k < 64, n = 2 ^ k}

/-- An enum by its enumerators' values, once it is defined. -/
structure Enum where
  enumerators : Option (List ℤ)
  packed : Bool
  aligned : Option Alignment

mutual

/-- A type, with the types it is laid out from in place of their ids. -/
inductive CType where
  | void
  | function
  | int (rank : IntRank)
  | float (kind : FloatKind)
  | complex (kind : FloatKind)
  | pointer
  | array (element : CType) (length : Option ℕ)
  | record (record : Record)
  | enumeration (enumeration : Enum)
  | typedef (ty : CType) (aligned : Option Alignment)
  | qualified (ty : CType)
  | atomic (ty : CType)
  | vector (size : ℕ)

inductive Field where
  | mk (name : Option String) (ty : CType) (bitWidth : Option ℕ) (aligned : Option Alignment) (packed : Bool)

inductive Record where
  | mk (kind : RecordKind) (tag : Option String) (fields : Option (List Field)) (pack : Option Alignment)
    (packed : Bool) (aligned : Option Alignment)

end

structure Layout where
  size : ℕ
  align : ℕ
deriving DecidableEq

/-- A record's size and alignment, and where each field starts, in bits from the start of the record. -/
structure RecordLayout where
  size : ℕ
  align : ℕ
  fieldOffsets : List ℕ
deriving DecidableEq

/-- A type without a layout, or one whose numbers leave 64 bits. -/
inductive Stop
  | error (message : String)
  | overflow
deriving DecidableEq

def word (n : ℕ) : Except Stop ℕ := if n < 2 ^ 64 then .ok n else .error .overflow

/-- `u64::next_multiple_of`. -/
def nextMultipleOf (value rhs : ℕ) : Except Stop ℕ :=
  if rhs = 0 then .error .overflow
  else if value % rhs = 0 then .ok value
  else word (value + (rhs - value % rhs))

def nextPowerOfTwo (n : ℕ) : Except Stop ℕ := word (2 ^ Nat.clog 2 n)

/-- `u64::MAX` where no pack is active. -/
def packOf (pack : Option Alignment) : ℕ := (pack.map Subtype.val).getD (2 ^ 64 - 1)

def explicitOf (aligned : Option Alignment) : ℕ := (aligned.map Subtype.val).getD 1

structure BitfieldInput where
  width : ℕ
  storage : Layout
  packed : Bool
  pack : ℕ
  explicitAlign : Option Alignment
  countsTowardAlignment : Bool

/-- The running state of one record's layout, in bits but for `align`. -/
structure RecordBuilder where
  union : Bool
  dataBits : ℕ
  unfilledBits : ℕ
  align : ℕ
  fieldOffsets : List ℕ

namespace RecordBuilder

def field (self : RecordBuilder) (size align : ℕ) : Except Stop RecordBuilder := do
  let offset ← (if self.union then .ok 0 else word (align * 8) >>= nextMultipleOf self.dataBits)
  let bits ← word (size * 8)
  let dataBits ← (if self.union then .ok (max self.dataBits bits) else word (offset + bits))
  pure { self with
    fieldOffsets := self.fieldOffsets ++ [offset]
    unfilledBits := 0
    dataBits
    align := max self.align align }

def alignBits (input : BitfieldInput) : Except Stop ℕ := do
  let alignBits ← (if input.packed ∧ input.width ≠ 0 then .ok 1 else word (input.storage.align * 8))
  let alignBits ← (match input.explicitAlign with
    | some explicit => (max alignBits ·) <$> word (explicit.val * 8)
    | none => .ok alignBits)
  pure (if input.width ≠ 0 then min alignBits (min (input.pack * 8) (2 ^ 64 - 1)) else alignBits)

/-- Where a bitfield starts that may start at `offset`. -/
def bitOffset (input : BitfieldInput) (alignBits offset : ℕ) : Except Stop ℕ := do
  let storageBits ← word (input.storage.size * 8)
  let stop ← word ((offset &&& (alignBits - 1)) + input.width)
  if input.width = 0 ∨ storageBits < stop then nextMultipleOf offset alignBits
  else
    match input.explicitAlign with
    | some explicit => nextMultipleOf offset (← word (explicit.val * 8))
    | none => .ok offset

def bitfield (self : RecordBuilder) (input : BitfieldInput) : Except Stop RecordBuilder := do
  let alignBits ← alignBits input
  let offset ← bitOffset input alignBits (if self.union then 0 else self.dataBits - self.unfilledBits)
  let self := { self with
    fieldOffsets := self.fieldOffsets ++ [offset]
    align := if input.countsTowardAlignment then max self.align (alignBits / 8) else self.align }
  if self.union then
    let bits ← nextMultipleOf input.width 8
    pure { self with dataBits := max self.dataBits bits }
  else
    let stop ← word (offset + input.width)
    let dataBits ← nextMultipleOf stop 8
    pure { self with dataBits, unfilledBits := dataBits - stop }

def finish (self : RecordBuilder) : Except Stop RecordLayout := do
  let size ← nextMultipleOf (self.dataBits / 8) self.align
  pure { size, align := self.align, fieldOffsets := self.fieldOffsets }

end RecordBuilder

def scalar (size : ℕ) : Layout := ⟨size, size⟩

/-- The integer type an enum is laid out as. -/
def enumUnderlying (enumeration : Enum) : Option IntRank :=
  enumeration.enumerators.map fun enumerators =>
    let min := enumerators.min?.getD 0
    let max := enumerators.max?.getD 0
    let fits := fun rank : IntRank =>
      let bits := rank.size * 8
      if min < 0 then decide (-(2 ^ (bits - 1)) ≤ min) && decide (max < 2 ^ (bits - 1))
      else decide (max < 2 ^ bits)
    let candidates : List IntRank :=
      if enumeration.packed then [.char, .short, .int, .long, .int128] else [.int, .long, .int128]
    (candidates.find? fits).getD .int128

/-- What the loop over a record's fields hands to the builder for one of them. -/
inductive Shape
  | field (size align : ℕ)
  | bitfield (input : BitfieldInput)

def RecordBuilder.add (self : RecordBuilder) : Shape → Except Stop RecordBuilder
  | .field size align => self.field size align
  | .bitfield input => self.bitfield input

def incomplete (spelled : String) : Stop := .error ("`" ++ spelled ++ "` is an incomplete type")

def spellRecord (kind : RecordKind) (tag : Option String) : String :=
  (match kind with | .struct => "struct " | .union => "union ") ++ tag.getD "<anonymous>"

section Layouts

variable (arch : Arch) (spell : CType → String)

mutual

/-- The layout of a type, which `spell` writes in its errors. -/
def layout : CType → Except Stop Layout
  | .void | .function => .ok ⟨1, 1⟩
  | .int rank => .ok (scalar rank.size)
  | .float kind => .ok (scalar (floatSize kind))
  | .complex kind => .ok ⟨2 * floatSize kind, floatSize kind⟩
  | .pointer => .ok (scalar 8)
  | .array element none =>
    .error (.error ("`" ++ spell (.array element none) ++ "` is an array of unknown length"))
  | .array element (some length) => do
    let element ← layout element
    let size ← word (element.size * length)
    pure ⟨size, element.align⟩
  | .record record => do
    let layout ← layOutRecord record
    pure ⟨layout.size, layout.align⟩
  | .enumeration enumeration =>
    match enumUnderlying enumeration with
    | none => .error (incomplete (spell (.enumeration enumeration)))
    | some rank =>
      let base := scalar rank.size
      .ok ⟨base.size, max base.align (explicitOf enumeration.aligned)⟩
  | .typedef ty aligned => do
    let base ← layout ty
    pure ⟨base.size, (aligned.map Subtype.val).getD base.align⟩
  | .qualified ty => layout ty
  | .atomic ty => do
    let value ← layout ty
    if value.size = 0 then pure ⟨1, value.align⟩
    -- `MAX_ATOMIC_PROMOTE_SIZE`
    else if value.size ≤ 16 then scalar <$> nextPowerOfTwo value.size
    else pure value
  | .vector size => do
    let align ← nextPowerOfTwo size
    let cap := match arch with
      | .aarch64 => 16
      | .x86_64 | .riscv64 => align
    let size ← nextMultipleOf size align
    pure ⟨size, min align cap⟩

def layOutRecord : Record → Except Stop RecordLayout
  | .mk kind tag none _ _ _ => .error (incomplete (spellRecord kind tag))
  | .mk kind _ (some fields) pack packed aligned => do
    let builder ← layOutFields packed (packOf pack) fields
      ⟨kind == .union, 0, 0, explicitOf aligned, []⟩
    builder.finish

/-- The loop over a record's fields. -/
def layOutFields (packed : Bool) (pack : ℕ) : List Field → RecordBuilder → Except Stop RecordBuilder
  | [], builder => .ok builder
  | field :: fields, builder => do
    let shape ← shape packed pack fields.isEmpty field
    let builder ← builder.add shape
    layOutFields packed pack fields builder

/-- What the builder is given for a field; `last` says that no field follows it. -/
def shape (packed : Bool) (pack : ℕ) (last : Bool) : Field → Except Stop Shape
  | .mk name ty (some width) aligned fieldPacked => do
    let storage ← layout ty
    if (← word (storage.size * 8)) < width then
      .error (.error ("bitfield `" ++ name.getD "<unnamed>" ++ "` is wider than its type `" ++ spell ty ++ "`"))
    else
      pure (.bitfield {
        width
        storage
        packed := packed || fieldPacked
        pack
        explicitAlign := aligned
        countsTowardAlignment := name.isSome || arch == .aarch64 })
  | .mk _ ty none aligned fieldPacked => do
    let flexible ← (if last then flexibleElement ty else .ok none)
    let layout ← (match flexible with
      | some element => .ok ⟨0, element.align⟩
      | none => layout ty)
    let natural := if packed || fieldPacked then 1 else layout.align
    pure (.field layout.size (min (max natural (explicitOf aligned)) pack))

/-- The layout of the element of a flexible array, where the type is one once its names are looked up. -/
def flexibleElement : CType → Except Stop (Option Layout)
  | .array element none => some <$> layout element
  | .typedef ty _ => flexibleElement ty
  | .qualified ty => flexibleElement ty
  | _ => .ok none

end

end Layouts

end Krusty.Native.Cinterop
