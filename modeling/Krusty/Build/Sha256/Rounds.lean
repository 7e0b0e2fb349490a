import Krusty.Lib.Sha2
import Mathlib.Data.List.GetD

/-! One block compressed: a message at a time, eight messages at a time, and eight on the vector unit. -/
namespace Krusty.Build.Sha256

open Sha2

def K : List UInt32 := [
  0x428a2f98, 0x71374491, 0xb5c0fbcf, 0xe9b5dba5, 0x3956c25b, 0x59f111f1, 0x923f82a4, 0xab1c5ed5,
  0xd807aa98, 0x12835b01, 0x243185be, 0x550c7dc3, 0x72be5d74, 0x80deb1fe, 0x9bdc06a7, 0xc19bf174,
  0xe49b69c1, 0xefbe4786, 0x0fc19dc6, 0x240ca1cc, 0x2de92c6f, 0x4a7484aa, 0x5cb0a9dc, 0x76f988da,
  0x983e5152, 0xa831c66d, 0xb00327c8, 0xbf597fc7, 0xc6e00bf3, 0xd5a79147, 0x06ca6351, 0x14292967,
  0x27b70a85, 0x2e1b2138, 0x4d2c6dfc, 0x53380d13, 0x650a7354, 0x766a0abb, 0x81c2c92e, 0x92722c85,
  0xa2bfe8a1, 0xa81a664b, 0xc24b8b70, 0xc76c51a3, 0xd192e819, 0xd6990624, 0xf40e3585, 0x106aa070,
  0x19a4c116, 0x1e376c08, 0x2748774c, 0x34b0bcb5, 0x391c0cb3, 0x4ed8aa4a, 0x5b9cca4f, 0x682e6ff3,
  0x748f82ee, 0x78a5636f, 0x84c87814, 0x8cc70208, 0x90befffa, 0xa4506ceb, 0xbef9a3f7, 0xc67178f2]

def IV : Registers UInt32 :=
  ⟨0x6a09e667, 0xbb67ae85, 0x3c6ef372, 0xa54ff53a, 0x510e527f, 0x9b05688c, 0x1f83d9ab, 0x5be0cd19⟩

/-- `u32::rotate_right`. -/
def rotateRight (x : UInt32) (n : ℕ) : UInt32 := ⟨x.toBitVec.rotateRight n⟩

/-- `u32::from_be_bytes` of the four bytes from `start`. -/
def fromBeBytes (bytes : List UInt8) (start : ℕ) : UInt32 := UInt32.ofNat (Bytes.beNat ((bytes.drop start).take 4))

/-! ### One message -/

/-- Word `index` of the schedule, from the words before it. -/
def nextWord (w : List UInt32) : UInt32 :=
  let index := w.length
  let w15 := w.getD (index - 15) 0
  let w2 := w.getD (index - 2) 0
  let s0 := rotateRight w15 7 ^^^ rotateRight w15 18 ^^^ w15 >>> 3
  let s1 := rotateRight w2 17 ^^^ rotateRight w2 19 ^^^ w2 >>> 10
  w.getD (index - 16) 0 + s0 + w.getD (index - 7) 0 + s1

def expand : ℕ → List UInt32 → List UInt32
  | 0, w => w
  | n + 1, w => expand n (w ++ [nextWord w])

def step (r : Registers UInt32) (kw : UInt32 × UInt32) : Registers UInt32 :=
  let s1 := rotateRight r.e 6 ^^^ rotateRight r.e 11 ^^^ rotateRight r.e 25
  let ch := (r.e &&& r.f) ^^^ (~~~r.e &&& r.g)
  let temp1 := r.h + s1 + ch + kw.1 + kw.2
  let s0 := rotateRight r.a 2 ^^^ rotateRight r.a 13 ^^^ rotateRight r.a 22
  let maj := (r.a &&& r.b) ^^^ (r.a &&& r.c) ^^^ (r.b &&& r.c)
  let temp2 := s0 + maj
  ⟨temp1 + temp2, r.a, r.b, r.c, r.d + temp1, r.e, r.f, r.g⟩

def compress (state : Registers UInt32) (block : List UInt8) : Registers UInt32 :=
  let w := expand 48 ((List.range 16).map fun index => fromBeBytes block (index * 4))
  state.add ((K.zip w).foldl step state)

/-! ### Eight messages -/

abbrev LANES : ℕ := 8

abbrev Words := Fin LANES → UInt32

namespace Lanes

def nextWord (w : List Words) : Words :=
  let index := w.length
  let w15 := w.getD (index - 15) fun _ => 0
  let w2 := w.getD (index - 2) fun _ => 0
  let w16 := w.getD (index - 16) fun _ => 0
  let w7 := w.getD (index - 7) fun _ => 0
  fun l =>
    let s0 := rotateRight (w15 l) 7 ^^^ rotateRight (w15 l) 18 ^^^ w15 l >>> 3
    let s1 := rotateRight (w2 l) 17 ^^^ rotateRight (w2 l) 19 ^^^ w2 l >>> 10
    w16 l + s0 + w7 l + s1

def expand : ℕ → List Words → List Words
  | 0, w => w
  | n + 1, w => expand n (w ++ [nextWord w])

def step (r : Registers Words) (kw : UInt32 × Words) : Registers Words :=
  let temp1 : Words := fun l =>
    let s1 := rotateRight (r.e l) 6 ^^^ rotateRight (r.e l) 11 ^^^ rotateRight (r.e l) 25
    let ch := (r.e l &&& r.f l) ^^^ (~~~(r.e l) &&& r.g l)
    r.h l + s1 + ch + kw.1 + kw.2 l
  let temp2 : Words := fun l =>
    let s0 := rotateRight (r.a l) 2 ^^^ rotateRight (r.a l) 13 ^^^ rotateRight (r.a l) 22
    let maj := (r.a l &&& r.b l) ^^^ (r.a l &&& r.c l) ^^^ (r.b l &&& r.c l)
    s0 + maj
  ⟨fun l => temp1 l + temp2 l, r.a, r.b, r.c, fun l => r.d l + temp1 l, r.e, r.f, r.g⟩

def compress (state : Registers Words) (block : List Words) : Registers Words :=
  state.add ((K.zip (expand 48 block)).foldl step state)

end Lanes

/-! ### Eight messages on the vector unit -/

namespace Avx2

/-! The intrinsics, on the eight 32-bit integers of a vector. -/

def set1 (x : UInt32) : Words := fun _ => x

def srli (n : UInt32) (x : Words) : Words := fun l => x l >>> n

def slli (n : UInt32) (x : Words) : Words := fun l => x l <<< n

def or (x y : Words) : Words := fun l => x l ||| y l

def and (x y : Words) : Words := fun l => x l &&& y l

def andnot (x y : Words) : Words := fun l => ~~~(x l) &&& y l

def xor (x y : Words) : Words := fun l => x l ^^^ y l

def add (x y : Words) : Words := fun l => x l + y l

def rotr (right left : UInt32) (x : Words) : Words := or (srli right x) (slli left x)

def xor3 (x y z : Words) : Words := xor (xor x y) z

def nextWord (w : List Words) : Words :=
  let index := w.length
  let w15 := w.getD (index - 15) fun _ => 0
  let w2 := w.getD (index - 2) fun _ => 0
  let s0 := xor3 (rotr 7 25 w15) (rotr 18 14 w15) (srli 3 w15)
  let s1 := xor3 (rotr 17 15 w2) (rotr 19 13 w2) (srli 10 w2)
  add (add (w.getD (index - 16) fun _ => 0) s0) (add (w.getD (index - 7) fun _ => 0) s1)

def expand : ℕ → List Words → List Words
  | 0, w => w
  | n + 1, w => expand n (w ++ [nextWord w])

def step (r : Registers Words) (kw : UInt32 × Words) : Registers Words :=
  let s1 := xor3 (rotr 6 26 r.e) (rotr 11 21 r.e) (rotr 25 7 r.e)
  let ch := xor (and r.e r.f) (andnot r.e r.g)
  let temp1 := add (add r.h s1) (add ch (add (set1 kw.1) kw.2))
  let s0 := xor3 (rotr 2 30 r.a) (rotr 13 19 r.a) (rotr 22 10 r.a)
  let maj := or (and r.a r.b) (and r.c (or r.a r.b))
  ⟨add temp1 (add s0 maj), r.a, r.b, r.c, add r.d temp1, r.e, r.f, r.g⟩

def compress (state : Registers Words) (block : List Words) : Registers Words :=
  let r := (K.zip (expand 48 block)).foldl step state
  ⟨add state.a r.a, add state.b r.b, add state.c r.c, add state.d r.d, add state.e r.e, add state.f r.f,
    add state.g r.g, add state.h r.h⟩

end Avx2

/-! ### The constants are those of the standard -/

theorem IV_eq : IV = initial := by
  rw [IV, initial, rootFraction_eq (c := 0x16a09e667) (by decide) (by decide) (by decide),
    rootFraction_eq (c := 0x1bb67ae85) (by decide) (by decide) (by decide),
    rootFraction_eq (c := 0x23c6ef372) (by decide) (by decide) (by decide),
    rootFraction_eq (c := 0x2a54ff53a) (by decide) (by decide) (by decide),
    rootFraction_eq (c := 0x3510e527f) (by decide) (by decide) (by decide),
    rootFraction_eq (c := 0x39b05688c) (by decide) (by decide) (by decide),
    rootFraction_eq (c := 0x41f83d9ab) (by decide) (by decide) (by decide),
    rootFraction_eq (c := 0x45be0cd19) (by decide) (by decide) (by decide)]
  rfl

theorem length_K : K.length = 64 := by decide

theorem K_eq : K = (List.range 64).map Sha2.K := by
  have hroots : ∀ t < 64, ∃ whole < 8,
      (whole * 2 ^ 32 + (K.getD t 0).toNat) ^ 3 ≤ primes.getD t 0 * 2 ^ (32 * 3) ∧
      primes.getD t 0 * 2 ^ (32 * 3) < (whole * 2 ^ 32 + (K.getD t 0).toNat + 1) ^ 3 := by
    rw [primes_eq]
    decide +kernel
  apply List.ext_getElem
  · rw [length_K, List.length_map, List.length_range]
  · intro t ht ht'
    have ht64 : t < 64 := lt_of_lt_of_eq ht length_K
    obtain ⟨whole, -, hle, hlt⟩ := hroots t ht64
    have hword := (K[t]).toNat_lt
    rw [List.getElem_map, List.getElem_range, Sha2.K, rootFraction_eq hle hlt (by decide), List.getD_eq_getElem _ _ ht,
      ← UInt32.toNat_inj, UInt32.toNat_ofNat']
    omega

/-! ### One message, as the standard has it -/

theorem step_eq (r : Registers UInt32) (k w : UInt32) : step r (k, w) = round k w r := rfl

/-- The words of the schedule so far. -/
def scheduled (block : List UInt8) (n : ℕ) : List UInt32 := (List.range n).map (schedule (wordAt block))

theorem nextWord_scheduled (block : List UInt8) {n : ℕ} (hn : 16 ≤ n) :
    nextWord (scheduled block n) = schedule (wordAt block) n := by
  have hget (t : ℕ) (ht : t < n) : (scheduled block n).getD t 0 = schedule (wordAt block) t := by
    rw [scheduled, List.getD_eq_getElem _ _ (by simpa using ht), List.getElem_map, List.getElem_range]
  have hlength : (scheduled block n).length = n := by simp [scheduled]
  have hsmall : ¬n < 16 := by omega
  rw [nextWord, schedule, if_neg hsmall, hlength]
  rw [hget _ (by omega), hget _ (by omega), hget _ (by omega), hget _ (by omega)]
  have hsum (w16 w15 w7 w2 : UInt32) : w16 + smallSigma0 w15 + w7 + smallSigma1 w2 =
      smallSigma1 w2 + w7 + smallSigma0 w15 + w16 := by ac_rfl
  exact hsum ..

theorem expand_scheduled (block : List UInt8) (n : ℕ) {m : ℕ} (hm : 16 ≤ m) :
    expand n (scheduled block m) = scheduled block (m + n) := by
  induction n generalizing m with
  | zero => rfl
  | succ n ih =>
    have hnext : scheduled block m ++ [nextWord (scheduled block m)] = scheduled block (m + 1) := by
      rw [nextWord_scheduled block hm, scheduled, scheduled, List.range_succ, List.map_append]
      rfl
    rw [expand, hnext, ih (by omega), Nat.add_right_comm, Nat.add_assoc]

theorem words_eq (block : List UInt8) :
    (List.range 16).map (fun index => fromBeBytes block (index * 4)) = scheduled block 16 := by
  apply List.map_congr_left
  intro t ht
  rw [schedule, if_pos (List.mem_range.mp ht), fromBeBytes, wordAt, Nat.mul_comm]

theorem compress_eq (state : Registers UInt32) (block : List UInt8) : compress state block = Sha2.compress state block := by
  have hw : expand 48 ((List.range 16).map fun index => fromBeBytes block (index * 4)) = scheduled block 64 := by
    rw [words_eq, expand_scheduled block 48 (le_refl 16)]
  have hzip : K.zip (scheduled block 64) =
      (List.range 64).map fun t => (Sha2.K t, schedule (wordAt block) t) := by
    rw [K_eq, scheduled, List.zip_map']
  rw [compress, Sha2.compress, hw, hzip, List.foldl_map]
  rfl

/-! ### Each lane is one message -/

namespace Lanes

/-- Registers are equal when each lane of them is. -/
theorem ext_lane {r s : Registers Words} (h : ∀ l, r.map (· l) = s.map (· l)) : r = s := by
  have hfield (get : Registers UInt32 → UInt32) (l : Fin LANES) : get (r.map (· l)) = get (s.map (· l)) := by rw [h]
  apply Registers.ext
  · exact funext (hfield Registers.a)
  · exact funext (hfield Registers.b)
  · exact funext (hfield Registers.c)
  · exact funext (hfield Registers.d)
  · exact funext (hfield Registers.e)
  · exact funext (hfield Registers.f)
  · exact funext (hfield Registers.g)
  · exact funext (hfield Registers.h)

theorem step_lane (r : Registers Words) (kw : UInt32 × Words) (l : Fin LANES) :
    (step r kw).map (· l) = Sha256.step (r.map (· l)) (kw.1, kw.2 l) := rfl

theorem nextWord_lane (w : List Words) (l : Fin LANES) : nextWord w l = Sha256.nextWord (w.map (· l)) := by
  have hget (t : ℕ) : (w.map (· l)).getD t 0 = w.getD t (fun _ => 0) l := by
    rw [List.getD_eq_getElem?_getD, List.getD_eq_getElem?_getD, List.getElem?_map]
    cases w[t]? <;> rfl
  rw [Sha256.nextWord, List.length_map, hget, hget, hget, hget]
  rfl

theorem expand_lane (n : ℕ) (w : List Words) (l : Fin LANES) :
    (expand n w).map (· l) = Sha256.expand n (w.map (· l)) := by
  induction n generalizing w with
  | zero => rfl
  | succ n ih =>
    rw [expand, ih, List.map_append, Sha256.expand, ← nextWord_lane]
    rfl

theorem foldl_step_lane (kws : List (UInt32 × Words)) (r : Registers Words) (l : Fin LANES) :
    (kws.foldl step r).map (· l) = (kws.map fun kw => (kw.1, kw.2 l)).foldl Sha256.step (r.map (· l)) := by
  induction kws generalizing r with
  | nil => rfl
  | cons kw kws ih => rw [List.foldl_cons, ih, step_lane, List.map_cons, List.foldl_cons]

/-- A lane of the compressed state is the lane's block compressed into the lane's state. -/
theorem compress_lane (state : Registers Words) (block : List Words) (bytes : List UInt8) (l : Fin LANES)
    (h : block.map (· l) = scheduled bytes 16) :
    (compress state block).map (· l) = Sha2.compress (state.map (· l)) bytes := by
  have hadd (r s : Registers Words) : (r.add s).map (· l) = (r.map (· l)).add (s.map (· l)) := rfl
  have hzip : (K.zip (expand 48 block)).map (fun kw => (kw.1, kw.2 l)) = K.zip (scheduled bytes 64) := by
    rw [← expand_scheduled bytes 48 (le_refl 16), ← h, ← expand_lane, List.zip_map_right]
    rfl
  rw [← compress_eq, compress, Sha256.compress, hadd, foldl_step_lane, hzip, words_eq,
    expand_scheduled bytes 48 (le_refl 16)]

end Lanes

/-! ### The vector unit computes the same -/

theorem maj_or (a b c : UInt32) :
    (a &&& b) ||| (c &&& (a ||| b)) = (a &&& b) ^^^ (a &&& c) ^^^ (b &&& c) := by
  apply UInt32.toBitVec_inj.mp
  simp only [UInt32.toBitVec_or, UInt32.toBitVec_and, UInt32.toBitVec_xor]
  apply BitVec.eq_of_getLsbD_eq
  intro i _
  simp only [BitVec.getLsbD_or, BitVec.getLsbD_and, BitVec.getLsbD_xor]
  cases a.toBitVec.getLsbD i <;> cases b.toBitVec.getLsbD i <;> cases c.toBitVec.getLsbD i <;> rfl

namespace Avx2

theorem step_eq (r : Registers Words) (kw : UInt32 × Words) : step r kw = Lanes.step r kw := by
  have htemp1 (h s1 ch k w : UInt32) : h + s1 + (ch + (k + w)) = h + s1 + ch + k + w := by ac_rfl
  have hlane (l : Fin LANES) : (step r kw).map (· l) = (Lanes.step r kw).map (· l) := by
    have hch := htemp1 (r.h l) (rotateRight (r.e l) 6 ^^^ rotateRight (r.e l) 11 ^^^ rotateRight (r.e l) 25)
      ((r.e l &&& r.f l) ^^^ (~~~(r.e l) &&& r.g l)) kw.1 (kw.2 l)
    have hmaj := maj_or (r.a l) (r.b l) (r.c l)
    rw [Lanes.step_lane, Sha256.step]
    simp only [Registers.map, ← hch, ← hmaj]
    rfl
  exact Lanes.ext_lane hlane

theorem nextWord_eq (w : List Words) : nextWord w = Lanes.nextWord w := by
  have hsum (w16 s0 w7 s1 : UInt32) : w16 + s0 + (w7 + s1) = w16 + s0 + w7 + s1 := by ac_rfl
  funext l
  exact hsum ..

theorem expand_eq (n : ℕ) (w : List Words) : expand n w = Lanes.expand n w := by
  induction n generalizing w with
  | zero => rfl
  | succ n ih => rw [expand, ih, nextWord_eq, Lanes.expand]

theorem compress_eq (state : Registers Words) (block : List Words) : compress state block = Lanes.compress state block := by
  have hstep : step = Lanes.step := by
    funext r kw
    exact step_eq r kw
  rw [compress, expand_eq, hstep]
  rfl

end Avx2

end Krusty.Build.Sha256
