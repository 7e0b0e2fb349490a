import Krusty.Lib.Leb128
import Krusty.Lib.LittleEndian
import Krusty.Lib.Strings

/-! The numbers, names and vectors of the binary format. -/
namespace Krusty.Wasm

open Parsing

/-! ### Unsigned and signed LEB128 -/

theorem uint64_shiftRight7 (value : UInt64) : (value >>> 7).toNat = value.toNat / 128 := by
  rw [UInt64.toNat_shiftRight, Nat.shiftRight_eq_div_pow]
  rfl

theorem uint64_low7 (value : UInt64) : (value &&& 0x7f).toUInt8.toNat = value.toNat % 128 := by
  have hand : value.toNat &&& 0x7f = value.toNat % 128 := Nat.and_two_pow_sub_one_eq_mod value.toNat 7
  rw [UInt64.toNat_toUInt8, UInt64.toNat_and]
  change (value.toNat &&& 0x7f) % 256 = _
  omega

theorem int64_shiftRight7 (value : Int64) : (value >>> 7).toInt = value.toInt / 128 := by
  rw [← Int64.toInt_toBitVec]
  change (value.toBitVec.sshiftRight 7).toInt = _
  rw [BitVec.toInt_sshiftRight, Int.shiftRight_eq_div_pow]
  rfl

theorem int64_low7 (value : Int64) : ((value &&& 0x7f).toUInt64.toUInt8.toNat : ℤ) = value.toInt % 128 := by
  have hmod : (value.toUInt64.toNat : ℤ) = value.toInt % 2 ^ 64 := by
    have h : value.toInt = (value.toUInt64.toNat : ℤ).bmod (2 ^ 64) := BitVec.toInt_eq_toNat_bmod value.toBitVec
    have hlt := value.toUInt64.toNat_lt
    rw [h, Int.bmod_def]
    split <;> omega
  have hlow := uint64_low7 value.toUInt64
  rw [Int64.toUInt64_and]
  change ((value.toUInt64 &&& 0x7f).toUInt8.toNat : ℤ) = _
  omega

theorem or80_toNat {byte : UInt8} (h : byte.toNat < 128) : (byte ||| 0x80).toNat = byte.toNat + 128 := by
  rw [UInt8.toNat_or, Nat.or_comm]
  change 2 ^ 7 * 1 ||| byte.toNat = _
  rw [← Nat.two_pow_add_eq_or_of_lt h]
  omega

def uleb (value : UInt64) : List UInt8 :=
  let byte := (value &&& 0x7f).toUInt8
  let rest := value >>> 7
  if rest = 0 then [byte] else (byte ||| 0x80) :: uleb rest
termination_by value.toNat
decreasing_by
  next h =>
    have hdiv := uint64_shiftRight7 value
    have hne : (value >>> 7).toNat ≠ 0 := fun heq => h (UInt64.toNat_inj.mp heq)
    omega

/-- Whether a signed number ends with a byte: what is left is the byte's sign. -/
def slebDone (rest : Int64) (byte : UInt8) : Prop := rest = 0 ∧ byte &&& 0x40 = 0 ∨ rest = -1 ∧ byte &&& 0x40 ≠ 0

instance (rest : Int64) (byte : UInt8) : Decidable (slebDone rest byte) :=
  inferInstanceAs (Decidable (rest = 0 ∧ byte &&& 0x40 = 0 ∨ rest = -1 ∧ byte &&& 0x40 ≠ 0))

theorem bit6_eq_zero {byte : UInt8} (h : byte.toNat < 128) : byte &&& 0x40 = 0 ↔ byte.toNat < 64 := by
  have hall : ∀ n : Fin 128, n.val &&& 0x40 = 0 ↔ n.val < 64 := by decide +kernel
  rw [← UInt8.toNat_inj, UInt8.toNat_and]
  exact hall ⟨byte.toNat, h⟩

theorem slebDone_iff (value : Int64) :
    slebDone (value >>> 7) (value &&& 0x7f).toUInt64.toUInt8 ↔ -64 ≤ value.toInt ∧ value.toInt < 64 := by
  have hshift := int64_shiftRight7 value
  have hlow := int64_low7 value
  have hzero : value >>> 7 = 0 ↔ (value >>> 7).toInt = 0 := Int64.toInt_inj.symm
  have hone : value >>> 7 = -1 ↔ (value >>> 7).toInt = -1 := Int64.toInt_inj.symm
  rw [slebDone, Ne, bit6_eq_zero (by omega), hzero, hone]
  omega

def sleb (value : Int64) : List UInt8 :=
  let byte := (value &&& 0x7f).toUInt64.toUInt8
  let rest := value >>> 7
  if slebDone rest byte then [byte] else (byte ||| 0x80) :: sleb rest
termination_by value.toInt.natAbs
decreasing_by
  next h =>
    have hshift := int64_shiftRight7 value
    have hlarge := mt (slebDone_iff value).mpr h
    omega

theorem uleb_eq (value : UInt64) : uleb value = Varint.encode value.toNat := by
  induction hvalue : value.toNat using Nat.strong_induction_on generalizing value with
  | _ n ih =>
    have hdiv := uint64_shiftRight7 value
    have hlow := uint64_low7 value
    have hzero : value >>> 7 = 0 ↔ (value >>> 7).toNat = 0 := UInt64.toNat_inj.symm
    rw [uleb, Varint.encode]
    by_cases hsmall : n < 128
    · have hbyte : (value &&& 0x7f).toUInt8 = UInt8.ofNat n := by
        rw [← UInt8.toNat_inj, hlow, UInt8.toNat_ofNat']
        omega
      rw [if_pos (hzero.mpr (by omega)), if_pos hsmall, hbyte]
    · have hbyte : (value &&& 0x7f).toUInt8 ||| 0x80 = UInt8.ofNat (n % 128 + 128) := by
        rw [← UInt8.toNat_inj, or80_toNat (by omega), hlow, UInt8.toNat_ofNat']
        omega
      rw [if_neg (mt hzero.mp (by omega)), if_neg hsmall, hbyte, ih (n / 128) (by omega) _ (by omega)]

theorem sleb_eq (value : Int64) : sleb value = Leb128.encodeSigned value.toInt := by
  induction hvalue : value.toInt.natAbs using Nat.strong_induction_on generalizing value with
  | _ n ih =>
    have hshift := int64_shiftRight7 value
    have hlow := int64_low7 value
    have hdone := slebDone_iff value
    rw [sleb, Leb128.encodeSigned]
    by_cases hsmall : -64 ≤ value.toInt ∧ value.toInt < 64
    · have hbyte : (value &&& 0x7f).toUInt64.toUInt8 = UInt8.ofNat (value.toInt % 128).toNat := by
        rw [← UInt8.toNat_inj, UInt8.toNat_ofNat']
        omega
      rw [if_pos (hdone.mpr hsmall), if_pos hsmall, hbyte]
    · have hbyte : (value &&& 0x7f).toUInt64.toUInt8 ||| 0x80 = UInt8.ofNat ((value.toInt % 128).toNat + 128) := by
        rw [← UInt8.toNat_inj, or80_toNat (by omega), UInt8.toNat_ofNat']
        omega
      rw [if_neg (mt hdone.mp hsmall), if_neg hsmall, hbyte, ih (value.toInt / 128).natAbs (by omega) _ (by omega), hshift]

/-! ### Numbers written and read -/

/-- The limit of every size and count of the format. -/
def LIMIT : ℕ := 2 ^ 32

def index (i : UInt32) : List UInt8 := uleb i.toUInt64

def count (n : ℕ) : List UInt8 := uleb (UInt64.ofNat n)

def u32 : Parser UInt32 := UInt32.ofNat <$> Leb128.unsigned 32

def size : Parser ℕ := Leb128.unsigned 32

theorem reads_index (i : UInt32) : Reads LIMIT u32 (index i) i := by
  have hread := (@Leb128.reads_unsigned LIMIT 32 _ i.toNat_lt).map UInt32.ofNat
  rw [UInt32.ofNat_toNat] at hread
  rw [index, uleb_eq, UInt32.toNat_toUInt64]
  exact hread

theorem reads_count {n : ℕ} (h : n < LIMIT) : Reads LIMIT size (count n) n := by
  have hn : (UInt64.ofNat n).toNat = n := UInt64.toNat_ofNat_of_lt' (h.trans (by decide))
  rw [count, uleb_eq, hn]
  exact Leb128.reads_unsigned h

theorem reads_i32 (value : Int32) : Reads LIMIT (Leb128.signed 32) (sleb value.toInt64) value.toInt := by
  rw [sleb_eq, Int32.toInt_toInt64]
  exact Leb128.reads_signed value.le_toInt value.toInt_lt

theorem reads_i64 (value : Int64) : Reads LIMIT (Leb128.signed 64) (sleb value) value.toInt := by
  rw [sleb_eq]
  exact Leb128.reads_signed value.le_toInt value.toInt_lt

theorem uleb_ne_nil (value : UInt64) : uleb value ≠ [] := by
  rw [uleb_eq]
  exact Varint.encode_ne_nil _

/-! ### Vectors and names -/

def vector {α : Type} (encode : α → List UInt8) (items : List α) : List UInt8 :=
  count items.length ++ items.flatMap encode

def vec {α : Type} (p : Parser α) : Parser (List α) := do
  many p (← size)

def name (text : List Char) : List UInt8 :=
  let bytes := Strings.toUtf8 text
  count bytes.length ++ bytes

def utf8 : Parser (List Char) := do
  let bytes ← take (← size)
  match Strings.fromUtf8 bytes with
  | some text => return text
  | none => failure

/-- Items with an encoding of their own are no more than their bytes. -/
theorem length_le_flatMap {α : Type} {encode : α → List UInt8} (hne : ∀ a, encode a ≠ []) (items : List α) :
    items.length ≤ (items.flatMap encode).length := by
  induction items with
  | nil => exact le_refl _
  | cons a items ih =>
    have hpos := List.length_pos_of_ne_nil (hne a)
    rw [List.flatMap_cons, List.length_append, List.length_cons]
    omega

theorem reads_vector_map {α β : Type} {p : Parser α} {encode : β → List UInt8} {g : β → α} {items : List β}
    (hne : ∀ b, encode b ≠ []) (hp : ∀ b ∈ items, Reads LIMIT p (encode b) (g b)) :
    Reads LIMIT (vec p) (vector encode items) (items.map g) := by
  intro hlength
  have hcount := length_le_flatMap hne items
  have hlt : items.length < LIMIT := by
    rw [vector, List.length_append] at hlength
    omega
  have hread := (reads_count hlt).bind (Reads.many hp)
  exact hread hlength

theorem reads_vector {α : Type} {p : Parser α} {encode : α → List UInt8} {items : List α} (hne : ∀ a, encode a ≠ [])
    (hp : ∀ a ∈ items, Reads LIMIT p (encode a) a) : Reads LIMIT (vec p) (vector encode items) items := by
  have hread := reads_vector_map (g := id) hne hp
  rwa [List.map_id] at hread

/-- A vector of one item. -/
theorem vector_singleton {α : Type} (encode : α → List UInt8) (a : α) : vector encode [a] = uleb 1 ++ encode a := by
  rw [vector, List.flatMap_singleton]
  rfl

theorem reads_name (text : List Char) : Reads LIMIT utf8 (name text) text := by
  intro hlength
  have hlt : (Strings.toUtf8 text).length < LIMIT := by
    rw [name, List.length_append] at hlength
    omega
  unfold utf8 name
  refine (reads_count hlt).bind ?_ hlength
  apply (Reads.take _).bind_pure
  rw [Strings.fromUtf8_toUtf8]

end Krusty.Wasm
