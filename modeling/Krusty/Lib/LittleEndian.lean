import Mathlib.Data.Nat.Bitwise
import Krusty.Lib.Bytes

/-! Little-endian words in a byte list, bit by bit: bit `i` of the list is bit `i % 8` of byte `i / 8`. -/
namespace LittleEndian

def leNat : List UInt8 → ℕ
  | [] => 0
  | b :: bytes => 256 * leNat bytes + b.toNat

/-- The last `n` base-256 digits of `v`, least significant first. -/
def leBytes : ℕ → ℕ → List UInt8
  | 0, _ => []
  | n + 1, v => UInt8.ofNat v :: leBytes n (v / 256)

def bit (bytes : List UInt8) (i : ℕ) : Bool := (bytes.getD (i / 8) 0).toNat.testBit (i % 8)

/-- The word of the given number of bits at a byte offset, zeros where the list has ended. -/
def word (bits : ℕ) (bytes : List UInt8) (pos : ℕ) : BitVec bits := BitVec.ofNat bits (leNat (bytes.drop pos))

/-- The list with the bytes from an offset on replaced. -/
def write (bytes : List UInt8) (pos : ℕ) (new : List UInt8) : List UInt8 :=
  bytes.take pos ++ new ++ bytes.drop (pos + new.length)

@[simp] theorem leBytes_length (n v : ℕ) : (leBytes n v).length = n := by
  induction n generalizing v with
  | zero => rfl
  | succ n ih => simp [leBytes, ih]

theorem leNat_leBytes (n v : ℕ) : leNat (leBytes n v) = v % 256 ^ n := by
  induction n generalizing v with
  | zero => rw [leBytes, leNat, pow_zero, Nat.mod_one]
  | succ n ih =>
    have hsplit : v % (256 * 256 ^ n) = v % 256 + 256 * (v / 256 % 256 ^ n) := Nat.mod_mul
    rw [leBytes, leNat, ih, UInt8.toNat_ofNat', pow_succ 256, Nat.mul_comm (256 ^ n), hsplit]
    omega

theorem testBit_cons (b : UInt8) (acc i : ℕ) :
    (256 * acc + b.toNat).testBit i = if i < 8 then b.toNat.testBit i else acc.testBit (i - 8) :=
  Nat.testBit_two_pow_mul_add acc b.toNat_lt i

theorem bit_cons (b : UInt8) (bytes : List UInt8) (i : ℕ) :
    bit (b :: bytes) i = if i < 8 then b.toNat.testBit i else bit bytes (i - 8) := by
  unfold bit
  split
  · next h => rw [Nat.div_eq_of_lt h, Nat.mod_eq_of_lt h, List.getD_cons_zero]
  · next h =>
    have hd : i / 8 = (i - 8) / 8 + 1 := by omega
    have hm : i % 8 = (i - 8) % 8 := by omega
    rw [hd, hm, List.getD_cons_succ]

theorem testBit_leNat (bytes : List UInt8) (i : ℕ) : (leNat bytes).testBit i = bit bytes i := by
  induction bytes generalizing i with
  | nil => simp [leNat, bit]
  | cons b bytes ih => rw [leNat, testBit_cons, bit_cons, ih]

theorem bit_leBytes (n v i : ℕ) : bit (leBytes n v) i = (decide (i < 8 * n) && v.testBit i) := by
  induction n generalizing v i with
  | zero => simp [leBytes, bit]
  | succ n ih =>
    rw [leBytes, bit_cons]
    split
    · next h =>
      have hlt : i < 8 * (n + 1) := by omega
      have hb := Nat.testBit_mod_two_pow v 8 i
      rw [UInt8.toNat_ofNat', hb, decide_eq_true h, decide_eq_true hlt]
    · next h =>
      have hv : (v / 256).testBit (i - 8) = v.testBit i := by
        rw [show (256 : ℕ) = 2 ^ 8 from rfl, Nat.testBit_div_two_pow, Nat.sub_add_cancel (by omega)]
      rw [ih, hv]
      congr 1
      exact decide_eq_decide.mpr (by omega)

theorem bit_append (front rest : List UInt8) (i : ℕ) :
    bit (front ++ rest) i = if i < 8 * front.length then bit front i else bit rest (i - 8 * front.length) := by
  unfold bit
  split
  · next h => rw [List.getD_append _ _ _ _ (by omega)]
  · next h =>
    have hd : (i - 8 * front.length) / 8 = i / 8 - front.length := by omega
    have hm : (i - 8 * front.length) % 8 = i % 8 := by omega
    rw [List.getD_append_right _ _ _ _ (by omega), hd, hm]

theorem bit_drop (bytes : List UInt8) (pos i : ℕ) : bit (bytes.drop pos) i = bit bytes (8 * pos + i) := by
  have hd : (8 * pos + i) / 8 = pos + i / 8 := by omega
  have hm : (8 * pos + i) % 8 = i % 8 := by omega
  rw [bit, bit, hd, hm, List.getD_eq_getElem?_getD, List.getD_eq_getElem?_getD, List.getElem?_drop]

@[simp] theorem getLsbD_word (bits : ℕ) (bytes : List UInt8) (pos i : ℕ) :
    (word bits bytes pos).getLsbD i = (decide (i < bits) && bit bytes (8 * pos + i)) := by
  rw [word, BitVec.getLsbD_ofNat, testBit_leNat, bit_drop]

theorem bit_take (bytes : List UInt8) (n i : ℕ) : bit (bytes.take n) i = (decide (i < 8 * n) && bit bytes i) := by
  unfold bit
  by_cases hi : i < 8 * n
  · rw [decide_eq_true hi, Bool.true_and, List.getD_eq_getElem?_getD, List.getD_eq_getElem?_getD,
      List.getElem?_take_of_lt (by omega)]
  · rw [List.getD_eq_getElem?_getD, List.getElem?_take_eq_none (by omega)]
    simp [hi]

/-- A word read from a slice of its own length. -/
theorem ofNat_leNat_take (n : ℕ) (bytes : List UInt8) (pos : ℕ) :
    BitVec.ofNat (8 * n) (leNat ((bytes.drop pos).take n)) = word (8 * n) bytes pos := by
  apply BitVec.eq_of_getLsbD_eq
  intro i hi
  rw [BitVec.getLsbD_ofNat, testBit_leNat, bit_take, bit_drop, getLsbD_word, decide_eq_true hi, Bool.true_and,
    Bool.true_and]

theorem word_congr {bits : ℕ} {bytes bytes' : List UInt8} {pos : ℕ}
    (h : ∀ i < bits, bit bytes (8 * pos + i) = bit bytes' (8 * pos + i)) :
    word bits bytes pos = word bits bytes' pos := by
  apply BitVec.eq_of_getLsbD_eq
  intro i hi
  rw [getLsbD_word, getLsbD_word, h i hi]

/-- A double word is its two halves, the lower one first. -/
theorem toNat_word_double (n : ℕ) (bytes : List UInt8) (pos : ℕ) :
    (word (8 * n + 8 * n) bytes pos).toNat =
      2 ^ (8 * n) * (word (8 * n) bytes (pos + n)).toNat + (word (8 * n) bytes pos).toNat := by
  apply Nat.eq_of_testBit_eq
  intro i
  rw [Nat.testBit_two_pow_mul_add _ (word (8 * n) bytes pos).isLt]
  change (word (8 * n + 8 * n) bytes pos).getLsbD i =
    if i < 8 * n then (word (8 * n) bytes pos).getLsbD i else (word (8 * n) bytes (pos + n)).getLsbD (i - 8 * n)
  rw [getLsbD_word, getLsbD_word, getLsbD_word]
  split
  · next h => rw [decide_eq_true h, decide_eq_true (by omega : i < 8 * n + 8 * n)]
  · next h =>
    have hpos : 8 * (pos + n) + (i - 8 * n) = 8 * pos + i := by omega
    rw [hpos]
    congr 1
    exact decide_eq_decide.mpr (by omega)

section Write

variable {bytes new : List UInt8} {pos : ℕ}

theorem write_length (h : pos + new.length ≤ bytes.length) : (write bytes pos new).length = bytes.length := by
  simp only [write, List.length_append, List.length_take, List.length_drop]
  omega

theorem bit_write (h : pos + new.length ≤ bytes.length) (i : ℕ) :
    bit (write bytes pos new) i =
      if 8 * pos ≤ i ∧ i < 8 * (pos + new.length) then bit new (i - 8 * pos) else bit bytes i := by
  have ht : (bytes.take pos).length = pos := by
    rw [List.length_take]
    omega
  have hfront : ∀ i < 8 * pos, bit (bytes.take pos) i = bit bytes i := by
    intro i hi
    have := bit_append (bytes.take pos) (bytes.drop pos) i
    rw [List.take_append_drop, ht, if_pos hi] at this
    exact this.symm
  rw [write, List.append_assoc, bit_append, bit_append, ht, bit_drop]
  split
  · next h1 => rw [if_neg (by omega), hfront i h1]
  · next h1 =>
    split
    · next h2 => rw [if_pos (by omega)]
    · next h2 =>
      rw [if_neg (by omega)]
      congr 1
      omega

theorem word_write_self {n v : ℕ} (h : pos + n ≤ bytes.length) :
    word (8 * n) (write bytes pos (leBytes n v)) pos = BitVec.ofNat (8 * n) v := by
  apply BitVec.eq_of_getLsbD_eq
  intro i hi
  rw [getLsbD_word, bit_write (by simpa using h), leBytes_length, if_pos (by omega), bit_leBytes, BitVec.getLsbD_ofNat,
    decide_eq_true hi, Nat.add_sub_cancel_left, decide_eq_true hi, Bool.true_and]

theorem word_write_of_apart {n pos' : ℕ} (h : pos + new.length ≤ bytes.length)
    (ha : pos' + n ≤ pos ∨ pos + new.length ≤ pos') :
    word (8 * n) (write bytes pos new) pos' = word (8 * n) bytes pos' := by
  apply word_congr
  intro i hi
  rw [bit_write h, if_neg (by omega)]

end Write

end LittleEndian
