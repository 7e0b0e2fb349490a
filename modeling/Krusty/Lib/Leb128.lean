import Krusty.Lib.Parsing
import Krusty.Lib.Varint

/-! Base-128 numbers of a limited number of bits, unsigned and signed. -/
namespace Leb128

open Parsing

/-- An unsigned number of at most `bits` bits. -/
def unsigned : ℕ → Parser ℕ
  | _, [] => none
  | bits, b :: rest =>
    if b.toNat < 128 then if b.toNat < 2 ^ bits then some (b.toNat, rest) else none
    else if 7 < bits then (unsigned (bits - 7) rest).map fun r => (128 * r.1 + (b.toNat - 128), r.2)
    else none

/-- A signed number of at most `bits` bits. -/
def signed : ℕ → Parser ℤ
  | _, [] => none
  | bits, b :: rest =>
    if b.toNat < 64 then if b.toNat < 2 ^ (bits - 1) then some (b.toNat, rest) else none
    else if b.toNat < 128 then if 128 ≤ b.toNat + 2 ^ (bits - 1) then some ((b.toNat : ℤ) - 128, rest) else none
    else if 7 < bits then (signed (bits - 7) rest).map fun r => (128 * r.1 + ((b.toNat : ℤ) - 128), r.2)
    else none

/-- The shortest bytes of a signed number. -/
def encodeSigned (n : ℤ) : List UInt8 :=
  if -64 ≤ n ∧ n < 64 then [UInt8.ofNat (n % 128).toNat]
  else UInt8.ofNat ((n % 128).toNat + 128) :: encodeSigned (n / 128)
termination_by n.natAbs
decreasing_by omega

/-! ### Unsigned numbers -/

theorem unsigned_encode {bits n : ℕ} (h : n < 2 ^ bits) (rest : List UInt8) :
    unsigned bits (Varint.encode n ++ rest) = some (n, rest) := by
  induction n using Nat.strong_induction_on generalizing bits with
  | _ n ih =>
    unfold Varint.encode
    split
    · next hsmall =>
      have hbyte : (UInt8.ofNat n).toNat = n := by
        rw [UInt8.toNat_ofNat']
        omega
      rw [List.singleton_append, unsigned, hbyte, if_pos hsmall, if_pos h]
    · next hlarge =>
      have hbyte : (UInt8.ofNat (n % 128 + 128)).toNat = n % 128 + 128 := by
        rw [UInt8.toNat_ofNat']
        omega
      have hbits : 7 < bits := by
        by_contra hle
        have hpow : 2 ^ bits ≤ 2 ^ 7 := Nat.pow_le_pow_right (by decide) (not_lt.mp hle)
        omega
      have hdiv : n / 128 < 2 ^ (bits - 7) := by
        have hpow : 2 ^ bits = 2 ^ (bits - 7) * 128 := by
          rw [show (128 : ℕ) = 2 ^ 7 from rfl, ← pow_add]
          congr 1
          omega
        omega
      have hmore : ¬n % 128 + 128 < 128 := by omega
      have hvalue : 128 * (n / 128) + (n % 128 + 128 - 128) = n := by omega
      rw [List.cons_append, unsigned, hbyte, if_neg hmore, if_pos hbits, ih (n / 128) (by omega) hdiv, Option.map_some,
        hvalue]

theorem reads_unsigned {limit bits n : ℕ} (h : n < 2 ^ bits) : Reads limit (unsigned bits) (Varint.encode n) n :=
  fun _ rest => unsigned_encode h rest

/-- No other bytes of a number are shorter. -/
theorem length_encode_le {bits n : ℕ} {bytes rest : List UInt8} (h : unsigned bits bytes = some (n, rest)) :
    (Varint.encode n).length + rest.length ≤ bytes.length := by
  induction bytes generalizing bits n with
  | nil => cases h
  | cons b bytes ih =>
    rw [unsigned] at h
    split at h
    · next hsmall =>
      rw [Option.ite_none_right_eq_some] at h
      cases h.2
      rw [Varint.encode, if_pos hsmall, List.length_singleton, List.length_cons]
      omega
    · next hlarge =>
      rw [Option.ite_none_right_eq_some, Option.map_eq_some_iff] at h
      obtain ⟨-, ⟨m, rest'⟩, hm, heq⟩ := h
      obtain ⟨rfl, rfl⟩ := Prod.mk.inj heq
      have hrest := ih hm
      have hb := b.toNat_lt
      rw [Varint.encode, List.length_cons]
      split
      · rw [List.length_singleton]
        have hne := List.length_pos_of_ne_nil (Varint.encode_ne_nil m)
        omega
      · have hdiv : (128 * m + (b.toNat - 128)) / 128 = m := by omega
        rw [hdiv, List.length_cons]
        omega

/-! ### Signed numbers -/

theorem encodeSigned_ne_nil (n : ℤ) : encodeSigned n ≠ [] := by
  unfold encodeSigned
  split <;> simp

theorem signed_encodeSigned {bits : ℕ} {n : ℤ} (hl : -2 ^ (bits - 1) ≤ n) (hu : n < 2 ^ (bits - 1)) (rest : List UInt8) :
    signed bits (encodeSigned n ++ rest) = some (n, rest) := by
  induction hsize : n.natAbs using Nat.strong_induction_on generalizing bits n with
  | _ size ih =>
    unfold encodeSigned
    split
    · next hsmall =>
      have hbyte : (UInt8.ofNat (n % 128).toNat).toNat = (n % 128).toNat := by
        rw [UInt8.toNat_ofNat']
        omega
      rw [List.singleton_append, signed, hbyte]
      by_cases hneg : n < 0
      · have hpow : (128 : ℤ) ≤ ((n % 128).toNat : ℤ) + 2 ^ (bits - 1) := by omega
        have hpow' : 128 ≤ (n % 128).toNat + 2 ^ (bits - 1) := by exact_mod_cast hpow
        rw [if_neg (by omega), if_pos (by omega), if_pos hpow']
        congr 2
        omega
      · have hpow : ((n % 128).toNat : ℤ) < 2 ^ (bits - 1) := by omega
        have hpow' : (n % 128).toNat < 2 ^ (bits - 1) := by exact_mod_cast hpow
        rw [if_pos (by omega), if_pos hpow']
        congr 2
        omega
    · next hlarge =>
      have hbyte : (UInt8.ofNat ((n % 128).toNat + 128)).toNat = (n % 128).toNat + 128 := by
        rw [UInt8.toNat_ofNat']
        omega
      have hbits : 7 < bits := by
        by_contra hle
        have hpow : 2 ^ (bits - 1) ≤ 2 ^ 6 := Nat.pow_le_pow_right (by decide) (by omega)
        have hpow' : (2 : ℤ) ^ (bits - 1) ≤ 2 ^ 6 := by exact_mod_cast hpow
        omega
      have hpow : (2 : ℤ) ^ (bits - 1) = 2 ^ (bits - 7 - 1) * 128 := by
        rw [show (128 : ℤ) = 2 ^ 7 from rfl, ← pow_add]
        congr 1
        omega
      rw [List.cons_append, signed, hbyte, if_neg (by omega), if_neg (by omega), if_pos hbits,
        ih (n / 128).natAbs (by omega) (by omega) (by omega) rfl, Option.map_some]
      congr 2
      omega

theorem reads_signed {limit bits : ℕ} {n : ℤ} (hl : -2 ^ (bits - 1) ≤ n) (hu : n < 2 ^ (bits - 1)) :
    Reads limit (signed bits) (encodeSigned n) n := fun _ rest => signed_encodeSigned hl hu rest

/-- No other bytes of a number are shorter. -/
theorem length_encodeSigned_le {bits : ℕ} {n : ℤ} {bytes rest : List UInt8} (h : signed bits bytes = some (n, rest)) :
    (encodeSigned n).length + rest.length ≤ bytes.length := by
  induction bytes generalizing bits n with
  | nil => cases h
  | cons b bytes ih =>
    have hb := b.toNat_lt
    rw [signed] at h
    split at h
    · next hsmall =>
      rw [Option.ite_none_right_eq_some] at h
      cases h.2
      rw [encodeSigned, if_pos (by omega), List.length_singleton, List.length_cons]
      omega
    · next hlarge =>
      split at h
      · rw [Option.ite_none_right_eq_some] at h
        cases h.2
        rw [encodeSigned, if_pos (by omega), List.length_singleton, List.length_cons]
        omega
      · rw [Option.ite_none_right_eq_some, Option.map_eq_some_iff] at h
        obtain ⟨-, ⟨m, rest'⟩, hm, heq⟩ := h
        obtain ⟨rfl, rfl⟩ := Prod.mk.inj heq
        have hrest := ih hm
        rw [encodeSigned, List.length_cons]
        split
        · rw [List.length_singleton]
          have hne := List.length_pos_of_ne_nil (encodeSigned_ne_nil m)
          omega
        · have hdiv : (128 * m + ((b.toNat : ℤ) - 128)) / 128 = m := by omega
          rw [hdiv, List.length_cons]
          omega

end Leb128
