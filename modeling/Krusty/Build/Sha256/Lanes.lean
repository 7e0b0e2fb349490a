import Krusty.Build.Sha256.Stream
import Mathlib.Tactic.IntervalCases

/-! Up to eight messages of one length digested at once. -/
namespace Krusty.Build.Sha256

open Sha2 (Registers hashBlocks hashBlocks_append hashBlocks_block)

/-- Word `index` of the padding block that ends every lane's message. -/
def paddingWord (length index : ℕ) : UInt32 :=
  match index with
  | 0 => 0x80000000
  | 14 => ((UInt64.ofNat length * 8) >>> 32).toUInt32
  | 15 => (UInt64.ofNat length * 8).toUInt32
  | _ => 0

/-- `(0..length).step_by(64)`. -/
def offsets (length : ℕ) : List ℕ := (List.range ((length + 63) / 64)).map (64 * ·)

/-- The sixteen words of the block at `offset`, each of all lanes. -/
def blockWords (lanes : Fin LANES → List UInt8) (offset : ℕ) : List Words :=
  (List.range 16).map fun index l => fromBeBytes (lanes l) (offset + index * 4)

def paddingWords (length : ℕ) : List Words := (List.range 16).map fun index _ => paddingWord length index

def digestLanes (lanes : Fin LANES → List UInt8) (length : ℕ) : Registers Words :=
  let state := IV.map fun word _ => word
  let state := (offsets length).foldl (fun state offset => Lanes.compress state (blockWords lanes offset)) state
  Lanes.compress state (paddingWords length)

def digestAvx2 (lanes : Fin LANES → List UInt8) (length : ℕ) : Registers Words :=
  let state := IV.map Avx2.set1
  let state := (offsets length).foldl (fun state offset => Avx2.compress state (blockWords lanes offset)) state
  Avx2.compress state (paddingWords length)

/-- The digest of each message, by the vector unit where there is one. Nothing is returned where an assertion fails. -/
def digestEqual (avx2 : Bool) (messages : List (List UInt8)) : Option (List Digest) :=
  match messages with
  | [] => none
  | first :: _ =>
    if messages.length ≤ LANES ∧ first.length % 64 = 0 ∧ messages.all (fun message => message.length = first.length) then
      let lanes : Fin LANES → List UInt8 := fun l => messages.getD l first
      let state := if avx2 then digestAvx2 lanes first.length else digestLanes lanes first.length
      some ((List.finRange LANES).take messages.length |>.map fun lane =>
        ⟨bytesOf (state.map (· lane)), Sha2.output_length _⟩)
    else none

/-! ### The vector unit digests as the portable rounds do -/

theorem digestAvx2_eq (lanes : Fin LANES → List UInt8) (length : ℕ) : digestAvx2 lanes length = digestLanes lanes length := by
  have hcompress : Avx2.compress = Lanes.compress := by
    funext state block
    exact Avx2.compress_eq state block
  rw [digestAvx2, hcompress]
  rfl

/-! ### The padding block -/

/-- The padding of a message of whole blocks. -/
def paddingBlock (length : ℕ) : List UInt8 := 0x80 :: List.replicate 55 0 ++ Bytes.beBytes 8 (8 * length)

theorem pad_eq {message : List UInt8} (h : 64 ∣ message.length) :
    Sha2.pad message = message ++ paddingBlock message.length := by
  have hzeros : Sha2.zeros message.length = 55 := by
    rw [Sha2.zeros]
    omega
  rw [Sha2.pad, hzeros, List.append_assoc]
  rfl

theorem length_paddingBlock (length : ℕ) : (paddingBlock length).length = 64 := by
  rw [paddingBlock, List.length_append, Bytes.beBytes_length]
  rfl

theorem beBytes_append (m n v : ℕ) :
    Bytes.beBytes (m + n) v = Bytes.beBytes m (v / 256 ^ n) ++ Bytes.beBytes n v := by
  induction n generalizing v with
  | zero => rw [pow_zero, Nat.div_one, Bytes.beBytes, List.append_nil, Nat.add_zero]
  | succ n ih => rw [← Nat.add_assoc, Bytes.beBytes, ih, Bytes.beBytes, Nat.div_div_eq_div_mul, pow_succ',
      List.append_assoc]

theorem toNat_bitLength (length : ℕ) : (UInt64.ofNat length * 8).toNat = 8 * length % 2 ^ 64 := by
  have height : (8 : UInt64).toNat = 8 := rfl
  rw [UInt64.toNat_mul, UInt64.toNat_ofNat', height]
  omega

theorem paddingWord_eq (length : ℕ) {index : ℕ} (h : index < 16) :
    paddingWord length index = fromBeBytes (paddingBlock length) (index * 4) := by
  have hhalves := beBytes_append 4 4 (8 * length)
  have hfront : index < 14 → fromBeBytes (paddingBlock length) (index * 4) =
      fromBeBytes (0x80 :: List.replicate 55 0) (index * 4) := by
    intro hindex
    have hlength : (0x80 :: List.replicate 55 (0 : UInt8)).length = 56 := rfl
    rw [fromBeBytes, paddingBlock, List.drop_append_of_le_length (by rw [hlength]; omega),
      List.take_append_of_le_length (by rw [List.length_drop, hlength]; omega), fromBeBytes]
  by_cases hindex : index < 14
  · have hzero : ∀ t < 14, fromBeBytes (0x80 :: List.replicate 55 0) (t * 4) = if t = 0 then 0x80000000 else 0 := by
      decide +kernel
    rw [hfront hindex, hzero index hindex]
    interval_cases index <;> rfl
  · have hlast : index = 14 ∨ index = 15 := by omega
    cases hlast with
    | inl hhigh =>
      have hword : (paddingBlock length).drop (14 * 4) =
          Bytes.beBytes 4 (8 * length / 256 ^ 4) ++ Bytes.beBytes 4 (8 * length) := hhalves
      have htake := @List.take_left _ (Bytes.beBytes 4 (8 * length / 256 ^ 4)) (Bytes.beBytes 4 (8 * length))
      rw [Bytes.beBytes_length] at htake
      rw [hhigh, fromBeBytes, hword, htake, Bytes.beNat_beBytes, paddingWord, ← UInt32.toNat_inj, UInt32.toNat_ofNat',
        UInt64.toNat_toUInt32, UInt64.toNat_shiftRight, toNat_bitLength, Nat.shiftRight_eq_div_pow]
      change 8 * length % 2 ^ 64 / 2 ^ 32 % 2 ^ 32 = _
      omega
    | inr hlow =>
      have hword : (paddingBlock length).drop (15 * 4) = (Bytes.beBytes 4 (8 * length / 256 ^ 4) ++
          Bytes.beBytes 4 (8 * length)).drop 4 := congrArg (List.drop 4) hhalves
      have hdrop := @List.drop_left _ (Bytes.beBytes 4 (8 * length / 256 ^ 4)) (Bytes.beBytes 4 (8 * length))
      rw [Bytes.beBytes_length] at hdrop
      rw [hlow, fromBeBytes, hword, hdrop, List.take_of_length_le (le_of_eq (Bytes.beBytes_length ..)),
        Bytes.beNat_beBytes, paddingWord, ← UInt32.toNat_inj, UInt32.toNat_ofNat', UInt64.toNat_toUInt32,
        toNat_bitLength]
      omega

theorem paddingWords_lane (length : ℕ) (l : Fin LANES) :
    (paddingWords length).map (· l) = scheduled (paddingBlock length) 16 := by
  rw [paddingWords, List.map_map, ← words_eq]
  apply List.map_congr_left
  intro index hindex
  exact paddingWord_eq length (List.mem_range.mp hindex)

/-! ### Each lane is the digest of its message -/

theorem blockWords_lane (lanes : Fin LANES → List UInt8) (offset : ℕ) (l : Fin LANES) :
    (blockWords lanes offset).map (· l) = scheduled (((lanes l).drop offset).take 64) 16 := by
  rw [blockWords, List.map_map, ← words_eq]
  apply List.map_congr_left
  intro index hindex
  have hlt := List.mem_range.mp hindex
  have hmin : min 4 (64 - index * 4) = 4 := by omega
  change fromBeBytes (lanes l) (offset + index * 4) = _
  rw [fromBeBytes, fromBeBytes, List.drop_take, List.take_take, hmin, List.drop_drop]

/-- The blocks from `offset` on. -/
theorem foldl_blocks (lanes : Fin LANES → List UInt8) (l : Fin LANES) (n start : ℕ) (state : Registers Words) :
    (((List.range' start n).map (64 * ·)).foldl (fun state offset => Lanes.compress state (blockWords lanes offset))
      state).map (· l) = (Sha2.blocks n ((lanes l).drop (64 * start))).foldl Sha2.compress (state.map (· l)) := by
  induction n generalizing start state with
  | zero => rfl
  | succ n ih =>
    have hblock := Lanes.compress_lane state _ _ l (blockWords_lane lanes (64 * start) l)
    have hnext : 64 * start + 64 = 64 * (start + 1) := by omega
    rw [List.range'_succ, List.map_cons, List.foldl_cons, ih, hblock, Sha2.blocks, List.foldl_cons, List.drop_drop,
      hnext]

theorem digestLanes_lane {lanes : Fin LANES → List UInt8} {length : ℕ} (l : Fin LANES) (hlength : (lanes l).length = length)
    (hwhole : 64 ∣ length) : bytesOf ((digestLanes lanes length).map (· l)) = Sha2.sha256 (lanes l) := by
  have hcount : (length + 63) / 64 = (lanes l).length / 64 := by omega
  have hblocks : ((offsets length).foldl (fun state offset => Lanes.compress state (blockWords lanes offset))
      (IV.map fun word _ => word)).map (· l) = hashBlocks IV (lanes l) := by
    rw [offsets, List.range_eq_range', foldl_blocks, hcount]
    rfl
  have hpadding := Lanes.compress_lane ((offsets length).foldl (fun state offset =>
    Lanes.compress state (blockWords lanes offset)) (IV.map fun word _ => word)) _ _ l (paddingWords_lane length l)
  have hpad : Sha2.pad (lanes l) = lanes l ++ paddingBlock length := by
    rw [pad_eq (by rwa [hlength]), hlength]
  rw [digestLanes, hpadding, hblocks, Sha2.sha256, hpad, hashBlocks_append _ _ (by rwa [hlength]),
    hashBlocks_block _ (length_paddingBlock length), IV_eq]
  rfl

theorem digest_eq_of_bytes {d e : Digest} (h : d.bytes = e.bytes) : d = e := by
  cases d
  cases e
  rw [Digest.mk.injEq]
  exact h

/-- The digests of up to eight messages are those of the messages one at a time, with the vector unit or without. -/
theorem digestEqual_eq (avx2 : Bool) {messages : List (List UInt8)} {length : ℕ} (hsome : messages ≠ [])
    (hcount : messages.length ≤ LANES) (hlength : ∀ message ∈ messages, message.length = length) (hwhole : 64 ∣ length) :
    digestEqual avx2 messages = some (messages.map digestBytes) := by
  cases messages with
  | nil => exact absurd rfl hsome
  | cons first rest =>
    have hfirst : first.length = length := hlength first (List.mem_cons_self ..)
    have hassert : (first :: rest).length ≤ LANES ∧ first.length % 64 = 0 ∧
        (first :: rest).all (fun message => message.length = first.length) = true := by
      refine ⟨hcount, by omega, List.all_eq_true.mpr fun message hmem => decide_eq_true ?_⟩
      rw [hfirst, hlength message hmem]
    have hstate (lanes : Fin LANES → List UInt8) :
        (if avx2 then digestAvx2 lanes first.length else digestLanes lanes first.length) =
          digestLanes lanes first.length := by
      rw [digestAvx2_eq, ite_self]
    rw [digestEqual, if_pos hassert]
    simp only [hstate]
    apply congrArg some
    apply List.ext_getElem
    · rw [List.length_map, List.length_map, List.length_take, List.length_finRange]
      exact Nat.min_eq_left hcount
    · intro i hi hi'
      have hindex : i < (first :: rest).length := by rwa [List.length_map] at hi'
      have hlane : (List.getD (first :: rest) i first).length = first.length := by
        rw [List.getD_eq_getElem _ _ hindex, hfirst]
        exact hlength _ (List.getElem_mem hindex)
      have hdigest := @digestLanes_lane (fun l => List.getD (first :: rest) l first) _
        ⟨i, lt_of_lt_of_le hindex hcount⟩ hlane (by rwa [hfirst])
      apply digest_eq_of_bytes
      rw [List.getElem_map, List.getElem_map, digestBytes_bytes, List.getElem_take, List.getElem_finRange]
      rw [List.getD_eq_getElem _ _ hindex] at hdigest
      exact hdigest

end Krusty.Build.Sha256
