import Krusty.Lib.Varint

/-! The cursor the metadata decoders read protobuf messages with. -/
namespace Krusty.Metadata.Decode

/-- A cursor over a message body. -/
structure Pb where
  b : List UInt8
  i : ℕ

namespace Pb

def new (bytes : List UInt8) : Pb := { b := bytes, i := 0 }

/-- The loop of `varint`, over the bytes from the cursor on. -/
def varintFrom : List UInt8 → UInt64 → ℕ → ℕ → Option (UInt64 × ℕ)
  | [], _, _, _ => none
  | byte :: rest, value, shift, i =>
    let value := value ||| (byte &&& 0x7f).toUInt64 <<< UInt64.ofNat shift
    if byte &&& 0x80 = 0 then some (value, i + 1)
    else if 64 ≤ shift + 7 then none
    else varintFrom rest value (shift + 7) (i + 1)

def varint (p : Pb) : Option (UInt64 × Pb) := do
  let (value, i) ← varintFrom (p.b.drop p.i) 0 0 p.i
  return (value, { p with i })

def bytes (p : Pb) (length : ℕ) : Option (List UInt8 × Pb) := do
  -- `checked_add` on a 64-bit `usize`
  guard (p.i + length < 2 ^ 64)
  let bytes ← Bytes.slice? p.b p.i length
  return (bytes, { p with i := p.i + length })

def atEnd (p : Pb) : Bool := p.b.length ≤ p.i

def skip (p : Pb) (wire : UInt64) : Option Pb :=
  if wire = 0 then do
    let (_, p) ← p.varint
    return p
  else if wire = 1 then do
    let (_, p) ← p.bytes 8
    return p
  else if wire = 2 then do
    let (length, p) ← p.varint
    let (_, p) ← p.bytes length.toNat
    return p
  else if wire = 5 then do
    let (_, p) ← p.bytes 4
    return p
  else none

/-- What the decoders take a field's value to be, by its wire type. -/
inductive Value where
  | varint (v : UInt64)
  | fixed64 (b : List UInt8)
  | bytes (b : List UInt8)
  | fixed32 (b : List UInt8)

def value (p : Pb) (wire : UInt64) : Option (Value × Pb) :=
  if wire = 0 then do
    let (v, p) ← p.varint
    return (.varint v, p)
  else if wire = 1 then do
    let (b, p) ← p.bytes 8
    return (.fixed64 b, p)
  else if wire = 2 then do
    let (length, p) ← p.varint
    let (b, p) ← p.bytes length.toNat
    return (.bytes b, p)
  else if wire = 5 then do
    let (b, p) ← p.bytes 4
    return (.fixed32 b, p)
  else none

/-- One turn of a decoder's loop: a tag, and the value its wire type announces. -/
def field (p : Pb) : Option ((UInt64 × Value) × Pb) := do
  let (tag, p) ← p.varint
  let (value, p) ← p.value (tag &&& 7)
  return ((tag >>> 3, value), p)

/-- A decoder's loop up to the end of the message; the fuel bounds the number of fields. -/
def fields : ℕ → Pb → Option (List (UInt64 × Value))
  | fuel, p =>
    if p.atEnd then some []
    else match fuel with
      | 0 => none
      | fuel + 1 => do
        let (field, p) ← p.field
        let others ← fields fuel p
        return field :: others

/-- The loop of `packedVarints`. -/
def varints : ℕ → Pb → Option (List UInt64)
  | fuel, p =>
    if p.atEnd then some []
    else match fuel with
      | 0 => none
      | fuel + 1 => do
        let (v, p) ← p.varint
        let others ← varints fuel p
        return v :: others

end Pb

/-- The fields of a message, in order. -/
def message (body : List UInt8) : Option (List (UInt64 × Pb.Value)) := Pb.fields body.length (.new body)

def packedVarints (body : List UInt8) : Option (List UInt64) := Pb.varints body.length (.new body)

section Varint

variable {l : List UInt8} {k i : ℕ}

/-- A number is read whenever at most ten bytes spell it, and read modulo `2 ^ 64`. -/
theorem varintFrom_eq (hk : k ≤ 9) {v : UInt64} (hv : v.toNat < 2 ^ (7 * k)) :
    Pb.varintFrom l v (7 * k) i = ((Varint.code? l).filter (·.length + k ≤ 10)).map fun code =>
      (UInt64.ofNat (v.toNat + 2 ^ (7 * k) * Varint.value code), i + code.length) := by
  induction l generalizing k v i with
  | nil => rfl
  | cons b rest ih =>
    have hgroup : v ||| (b &&& 0x7f).toUInt64 <<< UInt64.ofNat (7 * k) = Varint.pushGroup v k b := rfl
    unfold Pb.varintFrom Varint.code?
    simp only [hgroup, Varint.highBit_eq_zero_iff]
    split
    next hlast =>
      rw [Varint.pushGroup_eq b hk hv]
      have hle : 1 + k ≤ 10 := by omega
      simp [hle, Varint.value]
    next hmore =>
      by_cases htenth : k = 9
      · -- a tenth byte that asks for another
        have hnone : ((Varint.code? rest).map (b :: ·)).filter (·.length + k ≤ 10) = none := by
          rw [Option.filter_eq_none_iff]
          intro code hcode
          obtain ⟨tail, htail, rfl⟩ := Option.map_eq_some_iff.mp hcode
          have hpos := List.length_pos_iff.mpr (Varint.code?_ne_nil htail)
          simp only [List.length_cons, decide_eq_true_eq]
          omega
        rw [if_pos (by omega), hnone]
        rfl
      · obtain ⟨hvalue, hlt⟩ := Varint.pushGroup_toNat b (show k ≤ 8 by omega) hv
        have hshift : 7 * k + 7 = 7 * (k + 1) := by ring
        rw [if_neg (by omega), hshift, ih (by omega) hlt, hvalue]
        cases hcode : Varint.code? rest with
        | none => rfl
        | some code =>
          have hlength : code.length + (k + 1) ≤ 10 ↔ (b :: code).length + k ≤ 10 := by
            rw [List.length_cons]
            omega
          have hend : i + 1 + code.length = i + (b :: code).length := by
            rw [List.length_cons]
            omega
          simp only [Option.map_some, Option.filter_some, hlength, Varint.add_value_cons, hend,
            apply_ite (Option.map _), Option.map_none]

theorem Pb.varint_eq (p : Pb) : p.varint =
    ((Varint.code? (p.b.drop p.i)).filter (·.length ≤ 10)).map fun code =>
      (UInt64.ofNat (Varint.value code), { p with i := p.i + code.length }) := by
  have hfrom : Pb.varintFrom (p.b.drop p.i) 0 (7 * 0) p.i = _ := varintFrom_eq (by decide) (by decide)
  simp only [Nat.mul_zero, Nat.add_zero, pow_zero, Nat.one_mul, UInt64.toNat_zero, Nat.zero_add] at hfrom
  unfold Pb.varint
  rw [hfrom]
  cases (Varint.code? (p.b.drop p.i)).filter (·.length ≤ 10) <;> rfl

end Varint

end Krusty.Metadata.Decode
