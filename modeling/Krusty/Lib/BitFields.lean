import Mathlib.Algebra.BigOperators.Group.List.Basic
import Mathlib.Data.List.Pairwise
import Mathlib.Data.Nat.Bitwise

/-! Immediates scattered over the bits of a word. -/
namespace BitFields

/-- Bits `word ..< word + width` of a word hold bits `imm ..< imm + width` of an immediate. -/
structure Slice where
  word : ℕ
  imm : ℕ
  width : ℕ
deriving DecidableEq

/-- The bits of the word that the slice takes. -/
def Slice.Holds (s : Slice) (i : ℕ) : Prop := s.word ≤ i ∧ i < s.word + s.width

instance (s : Slice) (i : ℕ) : Decidable (s.Holds i) := inferInstanceAs (Decidable (_ ∧ _))

def Slice.Apart (s t : Slice) : Prop := s.word + s.width ≤ t.word ∨ t.word + t.width ≤ s.word

instance (s t : Slice) : Decidable (s.Apart t) := inferInstanceAs (Decidable (_ ∨ _))

instance : Std.Symm Slice.Apart where
  symm _ _ h := h.symm

/-- Slices of an `n`-bit word, no two of them with a bit of it in common. -/
structure Layout (n : ℕ) where
  slices : List Slice
  inside : ∀ s ∈ slices, s.word + s.width ≤ n
  apart : slices.Pairwise Slice.Apart

variable {n : ℕ}

/-- The bits of an immediate that the slice takes, at their place in the word. -/
def Slice.put (s : Slice) (x : BitVec n) : BitVec n :=
  ((x >>> s.imm) &&& BitVec.ofNat n (2 ^ s.width - 1)) <<< s.word

def scatter (slices : List Slice) (x : BitVec n) : BitVec n := slices.foldr (fun s acc => s.put x ||| acc) 0

namespace Layout

/-- The bits of a word that some slice takes. -/
def mask (l : Layout n) : BitVec n :=
  l.slices.foldr (fun s acc => BitVec.ofNat n (2 ^ s.width - 1) <<< s.word ||| acc) 0

/-- A word with an immediate in its slices. -/
def patch (l : Layout n) (w x : BitVec n) : BitVec n := (w &&& ~~~l.mask) ||| scatter l.slices x

/-- The number that the slices of a word spell. -/
def gather (l : Layout n) (w : BitVec n) : ℕ :=
  (l.slices.map fun s => w.toNat / 2 ^ s.word % 2 ^ s.width * 2 ^ s.imm).sum

/-- The part of a number that the slices take. -/
def taken (l : Layout n) (x : ℕ) : ℕ :=
  (l.slices.map fun s => x / 2 ^ s.imm % 2 ^ s.width * 2 ^ s.imm).sum

/-- The whole word, as it is. -/
def whole (n : ℕ) : Layout n := ⟨[⟨0, 0, n⟩], by simp, by simp⟩

end Layout

theorem toNat_and_ones (x : BitVec n) {m : ℕ} (hm : m ≤ n) :
    (x &&& BitVec.ofNat n (2 ^ m - 1)).toNat = x.toNat % 2 ^ m := by
  have hlt : 2 ^ m - 1 < 2 ^ n := by
    have := Nat.pow_le_pow_right (n := 2) (by decide) hm
    have := Nat.two_pow_pos m
    omega
  rw [BitVec.toNat_and, BitVec.toNat_ofNat, Nat.mod_eq_of_lt hlt, Nat.and_two_pow_sub_one_eq_mod]

theorem and_ones_of_lt {x : BitVec n} {m : ℕ} (hm : m ≤ n) (hx : x.toNat < 2 ^ m) :
    x &&& BitVec.ofNat n (2 ^ m - 1) = x := by
  apply BitVec.eq_of_toNat_eq
  rw [toNat_and_ones x hm, Nat.mod_eq_of_lt hx]

theorem Slice.getLsbD_put (s : Slice) (x : BitVec n) (i : ℕ) :
    (s.put x).getLsbD i = (decide (i < n ∧ s.Holds i) && x.getLsbD (s.imm + (i - s.word))) := by
  rw [put, BitVec.getLsbD_shiftLeft, BitVec.getLsbD_and, BitVec.getLsbD_ushiftRight,
    BitVec.getLsbD_ofNat, Nat.testBit_two_pow_sub_one]
  rw [Bool.eq_iff_iff]
  simp only [Bool.and_eq_true, Bool.not_eq_true', decide_eq_true_eq, decide_eq_false_iff_not]
  unfold Slice.Holds
  constructor
  · intro h
    exact ⟨by omega, h.2.1⟩
  · intro h
    exact ⟨by omega, h.2, by omega⟩

theorem getLsbD_scatter (slices : List Slice) (x : BitVec n) (i : ℕ) :
    (scatter slices x).getLsbD i = true ↔ ∃ s ∈ slices, (s.put x).getLsbD i = true := by
  unfold scatter
  induction slices with
  | nil => simp
  | cons s slices ih => simp only [List.foldr_cons, BitVec.getLsbD_or, Bool.or_eq_true, ih, List.exists_mem_cons_iff]

/-- Scattering in a wider word and cutting it is scattering in the narrower one. -/
theorem scatter_setWidth {m : ℕ} {slices : List Slice} (hi : ∀ s ∈ slices, s.imm + s.width ≤ n) (hn : n ≤ m)
    (x : BitVec m) : (scatter slices x).setWidth n = scatter slices (x.setWidth n) := by
  apply BitVec.eq_of_getLsbD_eq
  intro i hlt
  rw [BitVec.getLsbD_setWidth, decide_eq_true hlt, Bool.true_and, Bool.eq_iff_iff, getLsbD_scatter, getLsbD_scatter]
  apply exists_congr
  intro s
  apply and_congr_right
  intro hs
  have hw := hi s hs
  rw [s.getLsbD_put, s.getLsbD_put, BitVec.getLsbD_setWidth]
  simp only [Bool.and_eq_true, decide_eq_true_eq]
  unfold Slice.Holds
  constructor
  · intro h
    exact ⟨⟨hlt, h.1.2⟩, by omega, h.2⟩
  · intro h
    exact ⟨⟨by omega, h.1.2⟩, h.2.2⟩

namespace Layout

variable (l : Layout n)

theorem getLsbD_mask (i : ℕ) : l.mask.getLsbD i = true ↔ ∃ s ∈ l.slices, i < n ∧ s.Holds i := by
  unfold mask
  induction l.slices with
  | nil => simp
  | cons s slices ih =>
    have hs : (BitVec.ofNat n (2 ^ s.width - 1) <<< s.word).getLsbD i = true ↔ i < n ∧ s.Holds i := by
      rw [BitVec.getLsbD_shiftLeft, BitVec.getLsbD_ofNat, Nat.testBit_two_pow_sub_one]
      simp only [Bool.and_eq_true, Bool.not_eq_true', decide_eq_true_eq, decide_eq_false_iff_not]
      unfold Slice.Holds
      omega
    simp only [List.foldr_cons, BitVec.getLsbD_or, Bool.or_eq_true, ih, hs, List.exists_mem_cons_iff]

/-- Patching leaves every bit that no slice takes. -/
theorem getLsbD_patch_of_not_mask (w x : BitVec n) {i : ℕ} (h : l.mask.getLsbD i = false) :
    (l.patch w x).getLsbD i = w.getLsbD i := by
  have hs : (scatter l.slices x).getLsbD i = false := by
    by_contra hne
    obtain ⟨s, hs, hp⟩ := (getLsbD_scatter l.slices x i).mp (by simpa using hne)
    rw [s.getLsbD_put, Bool.and_eq_true, decide_eq_true_eq] at hp
    have hm := (l.getLsbD_mask i).mpr ⟨s, hs, hp.1⟩
    rw [h] at hm
    cases hm
  rw [patch, BitVec.getLsbD_or, BitVec.getLsbD_and, BitVec.getLsbD_not, h, hs]
  by_cases hi : i < n
  · simp [hi]
  · simp [BitVec.getLsbD_of_ge w i (by omega)]

/-- Patching puts the bits of the immediate where its slices are. -/
theorem getLsbD_patch (w x : BitVec n) {s : Slice} (hs : s ∈ l.slices) {j : ℕ} (hj : j < s.width) :
    (l.patch w x).getLsbD (s.word + j) = x.getLsbD (s.imm + j) := by
  have hn := l.inside s hs
  have hm := (l.getLsbD_mask (s.word + j)).mpr ⟨s, hs, by omega, by omega, by omega⟩
  rw [patch, BitVec.getLsbD_or, BitVec.getLsbD_and, BitVec.getLsbD_not, hm, Bool.not_true, Bool.and_false,
    Bool.and_false, Bool.false_or, Bool.eq_iff_iff, getLsbD_scatter]
  constructor
  · rintro ⟨t, ht, hp⟩
    rw [t.getLsbD_put, Bool.and_eq_true, decide_eq_true_eq] at hp
    obtain ⟨⟨-, hlo, hhi⟩, hx⟩ := hp
    have hst : s = t := by
      by_contra hne
      have ha : s.Apart t := l.apart.forall hs ht hne
      unfold Slice.Apart at ha
      omega
    subst hst
    rwa [Nat.add_sub_cancel_left] at hx
  · intro hx
    refine ⟨s, hs, ?_⟩
    rw [s.getLsbD_put, Nat.add_sub_cancel_left, hx, Bool.and_true, decide_eq_true_eq]
    exact ⟨by omega, by omega, by omega⟩

/-- A slice of a word as a number depends on its own bits only. -/
theorem slice_congr {a b i j m : ℕ} (h : ∀ k < m, a.testBit (i + k) = b.testBit (j + k)) :
    a / 2 ^ i % 2 ^ m = b / 2 ^ j % 2 ^ m := by
  apply Nat.eq_of_testBit_eq
  intro k
  rw [Nat.testBit_mod_two_pow, Nat.testBit_mod_two_pow, Nat.testBit_div_two_pow, Nat.testBit_div_two_pow,
    Nat.add_comm k, Nat.add_comm k]
  by_cases hk : k < m
  · rw [h k hk]
  · simp [hk]

theorem gather_patch (w x : BitVec n) : l.gather (l.patch w x) = l.taken x.toNat := by
  unfold gather taken
  congr 1
  apply List.map_congr_left
  intro s hs
  rw [slice_congr fun k hk => l.getLsbD_patch w x hs hk]

/-- What the slices spell depends on the bits they take. -/
theorem gather_congr {v w : BitVec n} (h : ∀ i, l.mask.getLsbD i = true → v.getLsbD i = w.getLsbD i) :
    l.gather v = l.gather w := by
  unfold gather
  congr 1
  apply List.map_congr_left
  intro s hs
  have hn := l.inside s hs
  have hbits : ∀ k < s.width, v.getLsbD (s.word + k) = w.getLsbD (s.word + k) := by
    intro k hk
    apply h
    exact (l.getLsbD_mask _).mpr ⟨s, hs, by omega, by omega, by omega⟩
  rw [slice_congr hbits]

theorem whole_patch (w x : BitVec n) : (whole n).patch w x = x := by
  apply BitVec.eq_of_getLsbD_eq
  intro i hi
  have h := (whole n).getLsbD_patch w x (List.mem_singleton_self _) hi
  rwa [Nat.zero_add] at h

@[simp] theorem whole_gather (w : BitVec n) : (whole n).gather w = w.toNat := by
  simp [gather, whole, Nat.mod_eq_of_lt w.isLt]

@[simp] theorem whole_taken (x : ℕ) : (whole n).taken x = x % 2 ^ n := by
  simp [taken, whole]

end Layout

end BitFields
