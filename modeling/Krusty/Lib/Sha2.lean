import Krusty.Lib.Bytes
import Mathlib.Data.Nat.Find
import Mathlib.Data.Nat.Prime.Basic
import Mathlib.Tactic.NormNum.Prime

/-! SHA-256 as FIPS 180-4 defines it. -/
namespace Sha2

/-- Eight words, or eight of whatever stands for a word. -/
@[ext] structure Registers (α : Type) where
  a : α
  b : α
  c : α
  d : α
  e : α
  f : α
  g : α
  h : α
deriving DecidableEq

namespace Registers

variable {α β : Type}

def map (φ : α → β) (r : Registers α) : Registers β :=
  ⟨φ r.a, φ r.b, φ r.c, φ r.d, φ r.e, φ r.f, φ r.g, φ r.h⟩

def add [Add α] (r s : Registers α) : Registers α :=
  ⟨r.a + s.a, r.b + s.b, r.c + s.c, r.d + s.d, r.e + s.e, r.f + s.f, r.g + s.g, r.h + s.h⟩

def toList (r : Registers α) : List α := [r.a, r.b, r.c, r.d, r.e, r.f, r.g, r.h]

end Registers

/-! ### Constants -/

/-- The first 32 bits of the fractional part of the `n`-th root of `p`. -/
def rootFraction (n p : ℕ) : UInt32 :=
  UInt32.ofNat (Nat.findGreatest (fun c => c ^ n ≤ p * 2 ^ (32 * n)) (p * 2 ^ (32 * n)))

def primes : List ℕ := (List.range 312).filter Nat.Prime

/-- The round constants, of the cube roots of the primes. -/
def K (t : ℕ) : UInt32 := rootFraction 3 (primes.getD t 0)

/-- The initial hash value, of the square roots of the first eight primes. -/
def initial : Registers UInt32 :=
  ⟨rootFraction 2 2, rootFraction 2 3, rootFraction 2 5, rootFraction 2 7, rootFraction 2 11, rootFraction 2 13,
    rootFraction 2 17, rootFraction 2 19⟩

/-! ### Functions on words -/

def rotr (n x : UInt32) : UInt32 := x >>> n ||| x <<< (32 - n)

def ch (x y z : UInt32) : UInt32 := (x &&& y) ^^^ (~~~x &&& z)

def maj (x y z : UInt32) : UInt32 := (x &&& y) ^^^ (x &&& z) ^^^ (y &&& z)

def bigSigma0 (x : UInt32) : UInt32 := rotr 2 x ^^^ rotr 13 x ^^^ rotr 22 x

def bigSigma1 (x : UInt32) : UInt32 := rotr 6 x ^^^ rotr 11 x ^^^ rotr 25 x

def smallSigma0 (x : UInt32) : UInt32 := rotr 7 x ^^^ rotr 18 x ^^^ x >>> 3

def smallSigma1 (x : UInt32) : UInt32 := rotr 17 x ^^^ rotr 19 x ^^^ x >>> 10

/-! ### The hash computation -/

def schedule (block : ℕ → UInt32) (t : ℕ) : UInt32 :=
  if t < 16 then block t
  else smallSigma1 (schedule block (t - 2)) + schedule block (t - 7) + smallSigma0 (schedule block (t - 15)) +
    schedule block (t - 16)
termination_by t

def round (k w : UInt32) (r : Registers UInt32) : Registers UInt32 :=
  let t1 := r.h + bigSigma1 r.e + ch r.e r.f r.g + k + w
  let t2 := bigSigma0 r.a + maj r.a r.b r.c
  ⟨t1 + t2, r.a, r.b, r.c, r.d + t1, r.e, r.f, r.g⟩

def wordAt (block : List UInt8) (t : ℕ) : UInt32 := UInt32.ofNat (Bytes.beNat ((block.drop (4 * t)).take 4))

def compress (hash : Registers UInt32) (block : List UInt8) : Registers UInt32 :=
  hash.add ((List.range 64).foldl (fun r t => round (K t) (schedule (wordAt block) t) r) hash)

/-- The first blocks of a message, each of 64 bytes. -/
def blocks : ℕ → List UInt8 → List (List UInt8)
  | 0, _ => []
  | n + 1, bytes => bytes.take 64 :: blocks n (bytes.drop 64)

/-- The hash value after the whole blocks of `bytes`. -/
def hashBlocks (hash : Registers UInt32) (bytes : List UInt8) : Registers UInt32 :=
  (blocks (bytes.length / 64) bytes).foldl compress hash

/-- As few zero bytes as fill the last block to eight bytes short of its end. -/
def zeros (length : ℕ) : ℕ := (119 - length % 64) % 64

def pad (message : List UInt8) : List UInt8 :=
  message ++ 0x80 :: List.replicate (zeros message.length) 0 ++ Bytes.beBytes 8 (8 * message.length)

def output (hash : Registers UInt32) : List UInt8 := hash.toList.flatMap fun word => Bytes.beBytes 4 word.toNat

/-- The digest of a message. The standard stops at 2^61 bytes; the length counts modulo 2^64 bits after that. -/
def sha256 (message : List UInt8) : List UInt8 := output (hashBlocks initial (pad message))

/-! ### Blocks -/

theorem blocks_append {m : ℕ} {front : List UInt8} (n : ℕ) (rest : List UInt8) (h : front.length = 64 * m) :
    blocks (m + n) (front ++ rest) = blocks m front ++ blocks n rest := by
  induction m generalizing front with
  | zero =>
    rw [List.length_eq_zero_iff.mp h, Nat.zero_add]
    rfl
  | succ m ih =>
    have htake : (front ++ rest).take 64 = front.take 64 := List.take_append_of_le_length (by omega)
    have hdrop : (front ++ rest).drop 64 = front.drop 64 ++ rest := List.drop_append_of_le_length (by omega)
    have hlength : (front.drop 64).length = 64 * m := by
      rw [List.length_drop, h]
      omega
    rw [Nat.succ_add, blocks, htake, hdrop, ih hlength]
    rfl

theorem hashBlocks_append (hash : Registers UInt32) {front : List UInt8} (rest : List UInt8) (h : 64 ∣ front.length) :
    hashBlocks hash (front ++ rest) = hashBlocks (hashBlocks hash front) rest := by
  obtain ⟨m, hm⟩ := h
  have hsum : (front ++ rest).length / 64 = m + rest.length / 64 := by
    rw [List.length_append, hm]
    omega
  have hfront : front.length / 64 = m := by omega
  rw [hashBlocks, hsum, blocks_append _ _ hm, List.foldl_append, hashBlocks, hashBlocks, hfront]

theorem hashBlocks_block (hash : Registers UInt32) {block : List UInt8} (h : block.length = 64) :
    hashBlocks hash block = compress hash block := by
  have htake : block.take 64 = block := List.take_of_length_le (le_of_eq h)
  rw [hashBlocks, h]
  change compress hash (block.take 64) = _
  rw [htake]

theorem output_length (hash : Registers UInt32) : (output hash).length = 32 := by
  rw [output, Registers.toList]
  simp only [List.flatMap_cons, List.flatMap_nil, List.length_append, Bytes.beBytes_length, List.length_nil]

/-! ### The constants computed -/

theorem rootFraction_eq {n p c : ℕ} (hle : c ^ n ≤ p * 2 ^ (32 * n)) (hlt : p * 2 ^ (32 * n) < (c + 1) ^ n)
    (hn : n ≠ 0) : rootFraction n p = UInt32.ofNat c := by
  rw [rootFraction]
  congr 1
  rw [Nat.findGreatest_eq_iff]
  refine ⟨?_, fun _ => hle, ?_⟩
  · exact (Nat.le_self_pow hn c).trans hle
  · intro d hd _ hle'
    exact absurd (hlt.trans_le (Nat.pow_le_pow_left hd n)) (not_lt.mpr hle')

/-- A number without a divisor from two up to it, looked for below 18. -/
def undivided (n : ℕ) : Bool := 2 ≤ n && (List.range 18).all fun m => m < 2 || n ≤ m || n % m ≠ 0

theorem undivided_iff {n : ℕ} (hn : n < 18 * 18) : undivided n = true ↔ n.Prime := by
  rw [undivided, Bool.and_eq_true, decide_eq_true_eq, List.all_eq_true]
  constructor
  · rintro ⟨htwo, h⟩
    refine Nat.prime_def_le_sqrt.mpr ⟨htwo, fun m hm hle hdvd => ?_⟩
    have hroot : m < 18 := hle.trans_lt (Nat.sqrt_lt.mpr hn)
    have hself : m < n := hle.trans_lt (Nat.sqrt_lt_self htwo)
    have hmod := Nat.mod_eq_zero_of_dvd hdvd
    have hm' := h m (List.mem_range.mpr hroot)
    simp at hm'
    omega
  · intro h
    refine ⟨h.two_le, fun m _ => ?_⟩
    have hdvd := (Nat.prime_def_lt'.mp h).2 m
    rw [Nat.dvd_iff_mod_eq_zero] at hdvd
    simp
    omega

theorem primes_eq : primes = [2, 3, 5, 7, 11, 13, 17, 19, 23, 29, 31, 37, 41, 43, 47, 53, 59, 61, 67, 71, 73, 79, 83, 89,
    97, 101, 103, 107, 109, 113, 127, 131, 137, 139, 149, 151, 157, 163, 167, 173, 179, 181, 191, 193, 197, 199, 211,
    223, 227, 229, 233, 239, 241, 251, 257, 263, 269, 271, 277, 281, 283, 293, 307, 311] := by
  have hfilter : primes = (List.range 312).filter undivided := by
    apply List.filter_congr
    intro n hn
    have hlt := List.mem_range.mp hn
    rw [Bool.eq_iff_iff, decide_eq_true_eq, undivided_iff (by omega)]
  rw [hfilter]
  decide +kernel

end Sha2
