import Mathlib.Data.List.Pairwise
import Mathlib.Data.Nat.Bitwise

/-! Spans laid out in order by a running cursor, and the rounding of a cursor. -/
namespace Spans

section RoundUp

variable {value align : ℕ}

/-- The first multiple of `align` from a value on. -/
def roundUp (value align : ℕ) : ℕ := (value + align - 1) / align * align

theorem dvd_roundUp (value align : ℕ) : align ∣ roundUp value align := Nat.dvd_mul_left _ _

theorem le_roundUp (h : 0 < align) : value ≤ roundUp value align := by
  have hdiv := Nat.div_add_mod (value + align - 1) align
  have hmod := Nat.mod_lt (value + align - 1) h
  rw [Nat.mul_comm] at hdiv
  unfold roundUp
  omega

theorem roundUp_lt (h : 0 < align) : roundUp value align < value + align := by
  have hle := Nat.div_mul_le_self (value + align - 1) align
  unfold roundUp
  omega

/-- No multiple is nearer. -/
theorem roundUp_le {bound : ℕ} (hdvd : align ∣ bound) (hle : value ≤ bound) : roundUp value align ≤ bound := by
  rcases Nat.eq_zero_or_pos align with rfl | hpos
  · exact Nat.zero_le bound
  · obtain ⟨k, rfl⟩ := hdvd
    have hlt : roundUp value align < value + align := roundUp_lt hpos
    obtain ⟨j, hj⟩ := dvd_roundUp value align
    rw [hj] at hlt ⊢
    have hjk : j < k + 1 := by
      apply Nat.lt_of_mul_lt_mul_left (a := align)
      rw [Nat.mul_succ]
      omega
    exact Nat.mul_le_mul_left align (Nat.lt_succ_iff.mp hjk)

theorem roundUp_of_dvd (hdvd : align ∣ value) (hpos : 0 < align) : roundUp value align = value :=
  Nat.le_antisymm (roundUp_le hdvd (Nat.le_refl value)) (le_roundUp hpos)

theorem roundUp_eq {result : ℕ} (hdvd : align ∣ result) (hle : value ≤ result) (hlt : result < value + align) :
    roundUp value align = result := by
  have hpos : 0 < align := by omega
  apply Nat.le_antisymm (roundUp_le hdvd hle)
  obtain ⟨j, hj⟩ := dvd_roundUp value align
  obtain ⟨k, rfl⟩ := hdvd
  have hvalue : value ≤ roundUp value align := le_roundUp hpos
  rw [hj] at hvalue ⊢
  apply Nat.mul_le_mul_left
  apply Nat.le_of_lt_succ
  apply Nat.lt_of_mul_lt_mul_left (a := align)
  rw [Nat.mul_succ]
  omega

/-- Rounding down to a power of two by masking the bits below it. -/
theorem and_mask (k : ℕ) (hk : k ≤ 64) (h : value < 2 ^ 64) :
    value &&& (2 ^ 64 - 1 - (2 ^ k - 1)) = value / 2 ^ k * 2 ^ k := by
  have hpos : 1 ≤ 2 ^ k := Nat.one_le_two_pow
  have hmask : 2 ^ 64 - 1 - (2 ^ k - 1) = 2 ^ 64 - (2 ^ k - 1 + 1) := by omega
  have hlt : 2 ^ k - 1 < 2 ^ 64 := by
    have hle : 2 ^ k ≤ 2 ^ 64 := Nat.pow_le_pow_right (by decide) hk
    omega
  rw [hmask]
  apply Nat.eq_of_testBit_eq
  intro i
  rw [Nat.testBit_and, Nat.testBit_two_pow_sub_succ hlt, Nat.testBit_two_pow_sub_one, Nat.testBit_mul_two_pow,
    Nat.testBit_div_two_pow]
  by_cases hi : k ≤ i
  · by_cases hbit : i < 64
    · have hnot : ¬ i < k := by omega
      simp [hi, hbit]
    · have hfalse : value.testBit i = false :=
        Nat.testBit_lt_two_pow (h.trans_le (Nat.pow_le_pow_right (by decide) (by omega)))
      simp [hi, hfalse]
  · simp [hi]
    omega

end RoundUp

structure Span where
  start : ℕ
  size : ℕ

def Span.stop (span : Span) : ℕ := span.start + span.size

/-- Each span starts where the cursor is or later, and moves it to its end. -/
def InOrder : ℕ → List Span → ℕ → Prop
  | cursor, [], stop => cursor ≤ stop
  | cursor, span :: spans, stop => cursor ≤ span.start ∧ InOrder span.stop spans stop

section InOrder

variable {cursor middle stop : ℕ} {span : Span} {spans later : List Span}

theorem InOrder.le (h : InOrder cursor spans stop) : cursor ≤ stop := by
  induction spans generalizing cursor with
  | nil => exact h
  | cons span spans ih => exact (h.1.trans (Nat.le_add_right _ _)).trans (ih h.2)

theorem InOrder.append (h : InOrder cursor spans middle) (hlater : InOrder middle later stop) :
    InOrder cursor (spans ++ later) stop := by
  induction spans generalizing cursor with
  | nil =>
    cases later with
    | nil => exact Nat.le_trans h hlater
    | cons span later => exact ⟨Nat.le_trans h hlater.1, hlater.2⟩
  | cons span spans ih => exact ⟨h.1, ih h.2⟩

theorem InOrder.bounds (h : InOrder cursor spans stop) (hspan : span ∈ spans) :
    cursor ≤ span.start ∧ span.stop ≤ stop := by
  induction spans generalizing cursor with
  | nil => cases hspan
  | cons first spans ih =>
    rcases List.mem_cons.mp hspan with rfl | hspan
    · exact ⟨h.1, h.2.le⟩
    · obtain ⟨hstart, hstop⟩ := ih h.2 hspan
      exact ⟨(h.1.trans (Nat.le_add_right _ _)).trans hstart, hstop⟩

/-- What starts later starts after the end. -/
theorem InOrder.pairwise (h : InOrder cursor spans stop) : spans.Pairwise fun a b => a.stop ≤ b.start := by
  induction spans generalizing cursor with
  | nil => exact .nil
  | cons span spans ih => exact List.pairwise_cons.mpr ⟨fun later hlater => (h.2.bounds hlater).1, ih h.2⟩

end InOrder

end Spans
