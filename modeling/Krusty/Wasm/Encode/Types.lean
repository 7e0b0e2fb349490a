import Krusty.Wasm.Encode.Numbers
import Krusty.Wasm.Module

/-! Types written and read. -/
namespace Krusty.Wasm

open Parsing

/-! ### Types written -/

def HeapType.encode : HeapType → List UInt8
  | .concrete index => sleb index.toUInt64.toInt64
  | .none => [0x71]
  | .eq => [0x6d]
  | .func => [0x70]

def ValType.encode : ValType → List UInt8
  | .i32 => [0x7f]
  | .i64 => [0x7e]
  | .f32 => [0x7d]
  | .f64 => [0x7c]
  | .ref nullable heap => (if nullable then 0x63 else 0x64) :: heap.encode

def mutability (isMutable : Bool) : List UInt8 := [if isMutable then 1 else 0]

def StorageType.encode : StorageType → List UInt8
  | .val value => value.encode
  | .i16 => [0x77]

def FieldType.encode (self : FieldType) : List UInt8 := self.storage.encode ++ mutability self.isMutable

def CompositeType.encode : CompositeType → List UInt8
  | .func params results => 0x60 :: (vector ValType.encode params ++ vector ValType.encode results)
  | .struct fields => 0x5f :: vector FieldType.encode fields
  | .array element => 0x5e :: element.encode

def SubType.encode (self : SubType) : List UInt8 :=
  (if self.isOpen then 0x50 else 0x4f) ::
    ((match self.supertype with
      | some supertype => uleb 1 ++ index supertype
      | none => uleb 0) ++ self.composite.encode)

/-! ### Types read: the forms of the grammar that are written -/

def heapType : Parser HeapType
  | 0x71 :: rest => some (.none, rest)
  | 0x6d :: rest => some (.eq, rest)
  | 0x70 :: rest => some (.func, rest)
  | bytes =>
    match Leb128.signed 33 bytes with
    | some (index, rest) => if 0 ≤ index then some (.concrete (UInt32.ofNat index.toNat), rest) else none
    | none => none

def valType : Parser ValType := do
  match ← next with
  | 0x7f => return .i32
  | 0x7e => return .i64
  | 0x7d => return .f32
  | 0x7c => return .f64
  | 0x63 => ValType.ref true <$> heapType
  | 0x64 => ValType.ref false <$> heapType
  | _ => failure

def isMutable : Parser Bool := do
  match ← next with
  | 0 => return false
  | 1 => return true
  | _ => failure

def storageType : Parser StorageType
  | 0x77 :: rest => some (.i16, rest)
  | bytes => (StorageType.val <$> valType) bytes

def fieldType : Parser FieldType := do
  let storage ← storageType
  let isMutable ← isMutable
  return ⟨storage, isMutable⟩

def compositeType : Parser CompositeType := do
  match ← next with
  | 0x60 => do
    let params ← vec valType
    let results ← vec valType
    return .func params results
  | 0x5f => CompositeType.struct <$> vec fieldType
  | 0x5e => CompositeType.array <$> fieldType
  | _ => failure

def supertypes (isOpen : Bool) : Parser SubType := do
  let supers ← vec u32
  let composite ← compositeType
  match supers with
  | [] => return ⟨composite, none, isOpen⟩
  | [supertype] => return ⟨composite, some supertype, isOpen⟩
  | _ => failure

def subType : Parser SubType := do
  match ← next with
  | 0x50 => supertypes true
  | 0x4f => supertypes false
  | _ => failure

def recType : Parser (List SubType) := do
  match ← next with
  | 0x4e => vec subType
  | _ => failure

/-! ### What is written is read -/

/-- A number that is not negative starts with no byte of an abstract type. -/
theorem exists_head_encodeSigned {n : ℤ} (h : 0 ≤ n) :
    ∃ b tail, Leb128.encodeSigned n = b :: tail ∧ (b.toNat < 64 ∨ 128 ≤ b.toNat) := by
  unfold Leb128.encodeSigned
  split
  · refine ⟨_, [], rfl, .inl ?_⟩
    rw [UInt8.toNat_ofNat']
    omega
  · refine ⟨_, _, rfl, .inr ?_⟩
    rw [UInt8.toNat_ofNat']
    omega

theorem toInt_concrete (index : UInt32) : index.toUInt64.toInt64.toInt = index.toNat := by
  have hlt := index.toNat_lt
  have h : index.toUInt64.toInt64.toInt = (index.toUInt64.toNat : ℤ).bmod (2 ^ 64) :=
    BitVec.toInt_eq_toNat_bmod index.toUInt64.toBitVec
  rw [h, UInt32.toNat_toUInt64, Int.bmod_def]
  split <;> omega

theorem reads_heapType (heap : HeapType) : Reads LIMIT heapType heap.encode heap := by
  cases heap with
  | concrete index =>
    intro hlength rest
    have hlt := index.toNat_lt
    have hsigned : Leb128.signed 33 (HeapType.encode (.concrete index) ++ rest) = some ((index.toNat : ℤ), rest) := by
      rw [HeapType.encode, sleb_eq, toInt_concrete]
      exact Leb128.signed_encodeSigned (by omega) (by omega) rest
    obtain ⟨b, tail, hhead, hb⟩ := exists_head_encodeSigned (Int.natCast_nonneg index.toNat)
    rw [← toInt_concrete, ← sleb_eq] at hhead
    have hbytes : HeapType.encode (.concrete index) ++ rest = b :: (tail ++ rest) := by
      rw [HeapType.encode, hhead, List.cons_append]
    have hbyte (other : UInt8) (hother : 64 ≤ other.toNat ∧ other.toNat < 128) : b ≠ other := by
      rintro rfl
      omega
    rw [hbytes] at hsigned ⊢
    rw [heapType]
    · rw [hsigned]
      dsimp only
      rw [if_pos (Int.natCast_nonneg _), Int.toNat_natCast, UInt32.ofNat_toNat]
    · exact fun _ heq => hbyte 0x71 (by decide) (List.head_eq_of_cons_eq heq)
    · exact fun _ heq => hbyte 0x6d (by decide) (List.head_eq_of_cons_eq heq)
    · exact fun _ heq => hbyte 0x70 (by decide) (List.head_eq_of_cons_eq heq)
  | none => exact fun _ _ => rfl
  | eq => exact fun _ _ => rfl
  | func => exact fun _ _ => rfl

theorem reads_valType (value : ValType) : Reads LIMIT valType value.encode value := by
  cases value with
  | i32 => exact .next_bind (.pure _)
  | i64 => exact .next_bind (.pure _)
  | f32 => exact .next_bind (.pure _)
  | f64 => exact .next_bind (.pure _)
  | ref nullable heap =>
    cases nullable with
    | true => exact .next_bind ((reads_heapType heap).map _)
    | false => exact .next_bind ((reads_heapType heap).map _)

theorem reads_isMutable (b : Bool) : Reads LIMIT isMutable (mutability b) b := by
  cases b <;> exact .next_bind (.pure _)

theorem reads_storageType (storage : StorageType) : Reads LIMIT storageType storage.encode storage := by
  cases storage with
  | val value =>
    intro hlength rest
    have hread := (reads_valType value).map StorageType.val hlength rest
    cases value with
    | ref nullable heap => cases nullable <;> exact hread
    | _ => exact hread
  | i16 => exact fun _ _ => rfl

theorem reads_fieldType (field : FieldType) : Reads LIMIT fieldType field.encode field :=
  (reads_storageType field.storage).bind ((reads_isMutable field.isMutable).bind_pure rfl)

theorem valType_ne_nil (value : ValType) : value.encode ≠ [] := by cases value <;> simp [ValType.encode]

theorem fieldType_ne_nil (field : FieldType) : field.encode ≠ [] := by simp [FieldType.encode, mutability]

theorem reads_compositeType (composite : CompositeType) : Reads LIMIT compositeType composite.encode composite := by
  cases composite with
  | func params results =>
    have hparams := reads_vector valType_ne_nil fun value (_ : value ∈ params) => reads_valType value
    have hresults := reads_vector valType_ne_nil fun value (_ : value ∈ results) => reads_valType value
    exact .next_bind (hparams.bind (hresults.bind_pure rfl))
  | struct fields =>
    have hfields := reads_vector fieldType_ne_nil fun field (_ : field ∈ fields) => reads_fieldType field
    exact .next_bind (hfields.map _)
  | array element => exact .next_bind ((reads_fieldType element).map _)

theorem index_ne_nil (i : UInt32) : index i ≠ [] := uleb_ne_nil _

theorem reads_indices (indices : List UInt32) : Reads LIMIT (vec u32) (vector index indices) indices :=
  reads_vector index_ne_nil fun i _ => reads_index i

theorem subType_encode (ty : SubType) : ty.encode =
    (if ty.isOpen then 0x50 else 0x4f) :: (vector index ty.supertype.toList ++ ty.composite.encode) := by
  rw [SubType.encode]
  cases ty.supertype with
  | none =>
    congr 1
    rw [Option.toList_none, vector, List.flatMap_nil, List.append_nil]
    rfl
  | some supertype =>
    congr 1
    rw [Option.toList_some, vector, List.flatMap_singleton]
    rfl

theorem reads_subType (ty : SubType) : Reads LIMIT subType ty.encode ty := by
  cases ty with
  | mk composite supertype isOpen =>
    have hsupers : Reads LIMIT (supertypes isOpen) (vector index supertype.toList ++ composite.encode)
        ⟨composite, supertype, isOpen⟩ := by
      apply (reads_indices _).bind
      apply (reads_compositeType composite).bind_pure
      cases supertype <;> rfl
    rw [subType_encode]
    cases isOpen with
    | true => exact .next_bind hsupers
    | false => exact .next_bind hsupers

theorem subType_ne_nil (ty : SubType) : ty.encode ≠ [] := List.cons_ne_nil _ _

theorem reads_recType (types : List SubType) :
    Reads LIMIT recType (0x4e :: vector SubType.encode types) types :=
  .next_bind (reads_vector subType_ne_nil fun ty _ => reads_subType ty)

end Krusty.Wasm
