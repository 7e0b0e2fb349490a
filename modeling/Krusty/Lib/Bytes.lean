import Mathlib.Data.List.Induction
import Mathlib.Tactic.Ring

/-! Big-endian integers in a byte list, read at an offset. -/
namespace Bytes

/-- The last `n` base-256 digits of `v`, most significant first. -/
def beBytes : ℕ → ℕ → List UInt8
  | 0, _ => []
  | n + 1, v => beBytes n (v / 256) ++ [UInt8.ofNat v]

def beNat (bytes : List UInt8) : ℕ := bytes.foldl (fun acc b => acc * 256 + b.toNat) 0

@[simp] theorem beBytes_length (n v : ℕ) : (beBytes n v).length = n := by
  induction n generalizing v with
  | zero => rfl
  | succ n ih => simp [beBytes, ih]

theorem beNat_concat (bytes : List UInt8) (b : UInt8) :
    beNat (bytes ++ [b]) = beNat bytes * 256 + b.toNat := by
  simp [beNat]

theorem beNat_beBytes (n v : ℕ) : beNat (beBytes n v) = v % 256 ^ n := by
  induction n generalizing v with
  | zero => simp [beBytes, beNat, Nat.mod_one]
  | succ n ih =>
    have hd : v % (256 * 256 ^ n) = v % 256 + 256 * (v / 256 % 256 ^ n) := Nat.mod_mul
    rw [beBytes, beNat_concat, ih, UInt8.toNat_ofNat', pow_succ 256, Nat.mul_comm (256 ^ n), hd]
    omega

theorem beBytes_beNat (bytes : List UInt8) : beBytes bytes.length (beNat bytes) = bytes := by
  induction bytes using List.reverseRecOn with
  | nil => rfl
  | append_singleton bytes b ih =>
    have hb := b.toNat_lt
    have hdiv : (beNat bytes * 256 + b.toNat) / 256 = beNat bytes := by omega
    have hlast : UInt8.ofNat (beNat bytes * 256 + b.toNat) = b := by
      rw [← UInt8.toNat_inj, UInt8.toNat_ofNat']
      omega
    rw [beNat_concat, List.length_append, List.length_singleton, beBytes, hdiv, ih, hlast]

theorem beBytes_mod (n v : ℕ) : beBytes n (v % 256 ^ n) = beBytes n v := by
  have h := beBytes_beNat (beBytes n v)
  rwa [beBytes_length, beNat_beBytes] at h

theorem beNat_lt (bytes : List UInt8) : beNat bytes < 256 ^ bytes.length := by
  induction bytes using List.reverseRecOn with
  | nil => simp [beNat]
  | append_singleton bytes b ih =>
    have hb := b.toNat_lt
    rw [beNat_concat, List.length_append, List.length_singleton, pow_succ]
    omega

/-- `n` bytes from offset `pos`, as a slice read that fails outside the list. -/
def slice? (bytes : List UInt8) (pos n : ℕ) : Option (List UInt8) :=
  if pos + n ≤ bytes.length then some ((bytes.drop pos).take n) else none

def u1 (bytes : List UInt8) (pos : ℕ) : UInt8 := bytes.getD pos 0

def u2 (bytes : List UInt8) (pos : ℕ) : UInt16 :=
  UInt16.ofNat (beNat ((bytes.drop pos).take 2))

/-- A signed four-byte integer. -/
def i4 (bytes : List UInt8) (pos : ℕ) : Int32 :=
  Int32.ofNat (beNat ((bytes.drop pos).take 4))

/-- A signed four-byte integer, read as a slice. -/
def i4? (bytes : List UInt8) (pos : ℕ) : Option Int32 :=
  (slice? bytes pos 4).map fun b => Int32.ofNat (beNat b)

def u2Bytes (x : UInt16) : List UInt8 := beBytes 2 x.toNat

/-- The two's-complement bytes of a signed integer, `n` of them. -/
def intBytes (n : ℕ) (x : ℤ) : List UInt8 := beBytes n (x % 256 ^ n).toNat

@[simp] theorem u2Bytes_length (x : UInt16) : (u2Bytes x).length = 2 := by
  simp [u2Bytes]

@[simp] theorem intBytes_length (n : ℕ) (x : ℤ) : (intBytes n x).length = n := by
  simp [intBytes]

section Reads

variable {bytes front rest : List UInt8} {pos n : ℕ}

theorem drop_add (h : bytes.drop pos = front ++ rest) :
    bytes.drop (pos + front.length) = rest := by
  rw [← List.drop_drop, h, List.drop_left]

theorem le_length (h : bytes.drop pos = front ++ rest) (hf : 0 < front.length) :
    pos + front.length ≤ bytes.length := by
  have hl := congrArg List.length h
  rw [List.length_drop, List.length_append] at hl
  omega

theorem u1_of_drop {b : UInt8} (h : bytes.drop pos = b :: rest) : u1 bytes pos = b := by
  have hb : bytes[pos]? = some b := by rw [← List.head?_drop, h, List.head?_cons]
  simp [u1, List.getD_eq_getElem?_getD, hb]

theorem take_of_drop (h : bytes.drop pos = front ++ rest) (hn : front.length = n) :
    (bytes.drop pos).take n = front := by
  rw [h, ← hn, List.take_left]

theorem slice?_of_drop (h : bytes.drop pos = front ++ rest) (hn : front.length = n)
    (hf : 0 < n) : slice? bytes pos n = some front := by
  have hle := le_length h (by omega)
  rw [slice?, if_pos (by omega), take_of_drop h hn]

theorem u2_of_drop {x : UInt16} (h : bytes.drop pos = u2Bytes x ++ rest) : u2 bytes pos = x := by
  have hx := x.toNat_lt
  rw [u2, take_of_drop h (by simp), u2Bytes, beNat_beBytes, Nat.mod_eq_of_lt (by omega)]
  exact UInt16.ofNat_toNat

/-- A two-byte field read back with its sign. -/
theorem i2_of_drop {x : ℤ} (h : bytes.drop pos = intBytes 2 x ++ rest)
    (hl : -2 ^ 15 ≤ x) (hu : x < 2 ^ 15) : (u2 bytes pos).toInt16.toInt = x := by
  rw [u2, take_of_drop h (by simp), intBytes, beNat_beBytes, UInt16.toInt16_ofNat',
    Int16.toInt_ofNat']
  have hs : (Int16.size : ℕ) = 65536 := rfl
  rw [hs, Int.bmod_def]
  split <;> omega

theorem i4_of_drop {x : ℤ} (h : bytes.drop pos = intBytes 4 x ++ rest) :
    i4 bytes pos = Int32.ofInt x := by
  rw [← Int32.toInt_inj, i4, take_of_drop h (by simp), intBytes, beNat_beBytes,
    Int32.toInt_ofNat', Int32.toInt_ofInt]
  have hs : (Int32.size : ℕ) = 4294967296 := rfl
  rw [hs, Int.bmod_def, Int.bmod_def]
  split <;> split <;> omega

theorem i4?_of_drop {x : ℤ} (h : bytes.drop pos = intBytes 4 x ++ rest) :
    i4? bytes pos = some (Int32.ofInt x) := by
  rw [i4?, slice?_of_drop h (by simp) (by decide), Option.map_some, ← i4_of_drop h, i4,
    take_of_drop h (by simp)]

/-- An element of a run of equal-sized records. -/
theorem drop_flatMap {α : Type} {f : α → List UInt8} {xs : List α} {k : ℕ} {a : α}
    (hf : ∀ x, (f x).length = n) (h : bytes.drop pos = xs.flatMap f ++ rest)
    (hk : xs[k]? = some a) : ∃ rest', bytes.drop (pos + k * n) = f a ++ rest' := by
  induction xs generalizing pos k with
  | nil => simp at hk
  | cons x xs ih =>
    rw [List.flatMap_cons, List.append_assoc] at h
    cases k with
    | zero =>
      obtain rfl : x = a := by simpa using hk
      exact ⟨_, by simpa using h⟩
    | succ k =>
      have hnext := drop_add h
      rw [hf x] at hnext
      obtain ⟨rest', hr⟩ := ih hnext (by simpa using hk)
      refine ⟨rest', ?_⟩
      rw [← hr]
      congr 1
      ring

end Reads

/-- Reading every record of a table at its index gives the table. -/
theorem map_range_eq {α β : Type} {g : ℕ → β} {r : α → β} {xs : List α}
    (h : ∀ k a, xs[k]? = some a → g k = r a) : (List.range xs.length).map g = xs.map r := by
  apply List.ext_getElem?
  intro k
  rw [List.getElem?_map, List.getElem?_map]
  by_cases hk : k < xs.length
  · rw [List.getElem?_range hk, List.getElem?_eq_getElem hk]
    exact congrArg some (h k _ (List.getElem?_eq_getElem hk))
  · rw [List.getElem?_eq_none (by simpa using hk), List.getElem?_eq_none (by simpa using hk)]
    rfl

section Narrowing

theorem toInt8_toInt (x : UInt8) : x.toInt8.toInt = (x.toNat : ℤ).bmod (2 ^ 8) :=
  BitVec.toInt_eq_toNat_bmod x.toBitVec

theorem toInt16_toInt (x : UInt16) : x.toInt16.toInt = (x.toNat : ℤ).bmod (2 ^ 16) :=
  BitVec.toInt_eq_toNat_bmod x.toBitVec

theorem toUInt32_toNat (x : Int32) : (x.toUInt32.toNat : ℤ) = x.toInt % 2 ^ 32 := by
  have h : x.toInt = (x.toUInt32.toNat : ℤ).bmod (2 ^ 32) :=
    BitVec.toInt_eq_toNat_bmod x.toBitVec
  have hl := x.toUInt32.toNat_lt
  rw [h, Int.bmod_def]
  split <;> omega

theorem toUInt16_toNat (x : Int16) : (x.toUInt16.toNat : ℤ) = x.toInt % 2 ^ 16 := by
  have h : x.toInt = (x.toUInt16.toNat : ℤ).bmod (2 ^ 16) :=
    BitVec.toInt_eq_toNat_bmod x.toBitVec
  have hl := x.toUInt16.toNat_lt
  rw [h, Int.bmod_def]
  split <;> omega

/-- The low byte of a value that fits one, read with its sign. -/
theorem ofInt_low8 {x : Int32} (hl : -2 ^ 7 ≤ x.toInt) (hu : x.toInt < 2 ^ 7) :
    Int32.ofInt x.toUInt32.toUInt8.toInt8.toInt = x := by
  have hx := toUInt32_toNat x
  have hs : (Int32.size : ℕ) = 4294967296 := rfl
  rw [← Int32.toInt_inj, Int32.toInt_ofInt, toInt8_toInt, UInt32.toNat_toUInt8, hs,
    Int.bmod_def, Int.bmod_def]
  split <;> split <;> omega

theorem ofInt_low16 {x : Int32} (hl : -2 ^ 15 ≤ x.toInt) (hu : x.toInt < 2 ^ 15) :
    Int32.ofInt x.toUInt32.toUInt16.toInt16.toInt = x := by
  have hx := toUInt32_toNat x
  have hs : (Int32.size : ℕ) = 4294967296 := rfl
  rw [← Int32.toInt_inj, Int32.toInt_ofInt, toInt16_toInt, UInt32.toNat_toUInt16, hs,
    Int.bmod_def, Int.bmod_def]
  split <;> split <;> omega

theorem ofInt_lowByte {x : Int32} (hl : 0 ≤ x.toInt) (hu : x.toInt < 2 ^ 8) :
    Int32.ofInt x.toUInt32.toUInt8.toNat = x := by
  have hx := toUInt32_toNat x
  have hs : (Int32.size : ℕ) = 4294967296 := rfl
  rw [← Int32.toInt_inj, Int32.toInt_ofInt, UInt32.toNat_toUInt8, hs, Int.bmod_def]
  split <;> omega

theorem int16_ofInt_low8 {x : Int16} (hl : -128 ≤ x) (hu : x ≤ 127) :
    Int16.ofInt x.toUInt16.toUInt8.toInt8.toInt = x := by
  have hx := toUInt16_toNat x
  have hl : -128 ≤ x.toInt := Int16.le_iff_toInt_le.mp hl
  have hu : x.toInt ≤ 127 := Int16.le_iff_toInt_le.mp hu
  have hs : (Int16.size : ℕ) = 65536 := rfl
  rw [← Int16.toInt_inj, Int16.toInt_ofInt, toInt8_toInt, UInt16.toNat_toUInt8, hs,
    Int.bmod_def, Int.bmod_def]
  split <;> split <;> omega

theorem toUInt8_toUInt16 {x : UInt16} (h : x ≤ 255) : x.toUInt8.toUInt16 = x := by
  have h : x.toNat ≤ 255 := UInt16.le_iff_toNat_le.mp h
  rw [← UInt16.toNat_inj, UInt8.toNat_toUInt16, UInt16.toNat_toUInt8]
  omega

end Narrowing

end Bytes
