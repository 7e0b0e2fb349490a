import Mathlib.Data.List.Basic
import Mathlib.Data.List.Range
import Mathlib.Order.Monotone.Basic

/-! Lists with the elements at some places taken out, and where the others end up. -/
namespace Retaining

variable {α : Type*} (keep : ℕ → Bool)

/-- The elements at the places kept. -/
def retain (xs : List α) : List α := (xs.zipIdx.filter fun x => keep x.2).map Prod.fst

/-- Where the element at place `i` ends up: the kept places before it. -/
def rank (i : ℕ) : ℕ := (List.range i).countP keep

variable {keep} {i j : ℕ} {x : α} {xs : List α}

@[simp] theorem rank_zero : rank keep 0 = 0 := rfl

theorem rank_succ_of_kept (h : keep i) : rank keep (i + 1) = rank keep i + 1 := by
  simp [rank, List.range_succ, h]

theorem rank_succ_of_not (h : keep i = false) : rank keep (i + 1) = rank keep i := by
  simp [rank, List.range_succ, h]

theorem rank_mono : Monotone (rank keep) := by
  refine monotone_nat_of_le_succ fun i => ?_
  cases h : keep i with
  | true =>
    rw [rank_succ_of_kept h]
    exact Nat.le_succ _
  | false => rw [rank_succ_of_not h]

theorem rank_lt (h : keep i) (hlt : i < j) : rank keep i < rank keep j := by
  have hle : rank keep (i + 1) ≤ rank keep j := rank_mono hlt
  rw [rank_succ_of_kept h] at hle
  exact hle

/-- A kept place keeps its side of every other. -/
theorem rank_le_iff (h : keep j) : rank keep i ≤ rank keep j ↔ i ≤ j := by
  refine ⟨fun hle => ?_, fun hle => rank_mono hle⟩
  by_contra hlt
  exact absurd (rank_lt h (Nat.lt_of_not_le hlt)) (Nat.not_lt.mpr hle)

theorem rank_lt_iff (h : keep i) : rank keep i < rank keep j ↔ i < j := by
  refine ⟨fun hlt => ?_, rank_lt h⟩
  by_contra hle
  exact absurd (rank_mono (Nat.le_of_not_lt hle)) (Nat.not_le.mpr hlt)

@[simp] theorem retain_nil : retain keep ([] : List α) = [] := rfl

theorem retain_concat (xs : List α) (x : α) :
    retain keep (xs ++ [x]) = retain keep xs ++ if keep xs.length then [x] else [] := by
  simp only [retain, List.zipIdx_append, List.filter_append, List.map_append, Nat.zero_add, List.zipIdx_cons,
    List.zipIdx_nil, List.filter_cons, List.filter_nil]
  cases keep xs.length <;> rfl

theorem length_retain (xs : List α) : (retain keep xs).length = rank keep xs.length := by
  induction xs using List.reverseRecOn with
  | nil => rfl
  | append_singleton xs x ih =>
    rw [retain_concat, List.length_append, ih, List.length_append]
    cases h : keep xs.length with
    | true => simp [rank_succ_of_kept h]
    | false => simp [rank_succ_of_not h]

/-- A kept element stands at its rank. -/
theorem getElem?_retain (h : keep i) : (retain keep xs)[rank keep i]? = xs[i]? := by
  induction xs using List.reverseRecOn with
  | nil => rfl
  | append_singleton xs x ih =>
    rw [retain_concat]
    rcases Nat.lt_trichotomy i xs.length with hlt | rfl | hgt
    · rw [List.getElem?_append_left (by rw [length_retain]; exact rank_lt h hlt), ih,
        List.getElem?_append_left hlt]
    · rw [← length_retain, List.getElem?_append_right le_rfl, List.getElem?_append_right le_rfl]
      simp [h]
    · have hrank : rank keep (xs.length + 1) ≤ rank keep i := rank_mono (Nat.succ_le_of_lt hgt)
      have hlen : (retain keep xs ++ if keep xs.length then [x] else []).length ≤ rank keep i := by
        rw [← retain_concat, length_retain, List.length_append]
        exact hrank
      have hlen' : (xs ++ [x]).length ≤ i := by
        rw [List.length_append, List.length_singleton]
        exact hgt
      rw [List.getElem?_eq_none hlen, List.getElem?_eq_none hlen']

/-- Every element left was kept. -/
theorem exists_of_getElem?_retain {k : ℕ} (h : (retain keep xs)[k]? = some x) :
    ∃ i, keep i ∧ rank keep i = k ∧ xs[i]? = some x := by
  induction xs using List.reverseRecOn with
  | nil => simp at h
  | append_singleton xs y ih =>
    rw [retain_concat] at h
    by_cases hlt : k < (retain keep xs).length
    · rw [List.getElem?_append_left hlt] at h
      obtain ⟨i, hi, hk, hx⟩ := ih h
      exact ⟨i, hi, hk, by rw [List.getElem?_append_left (List.getElem?_eq_some_iff.mp hx).1, hx]⟩
    · have hge := Nat.le_of_not_lt hlt
      rw [List.getElem?_append_right hge] at h
      cases hkeep : keep xs.length with
      | false => simp [hkeep] at h
      | true =>
        rw [hkeep, if_pos rfl, List.getElem?_singleton] at h
        split_ifs at h with hzero
        refine ⟨xs.length, hkeep, ?_, ?_⟩
        · rw [← length_retain]
          omega
        · simpa using h

theorem mem_retain : x ∈ retain keep xs ↔ ∃ i : ℕ, keep i ∧ xs[i]? = some x := by
  constructor
  · intro h
    obtain ⟨k, hk⟩ := List.mem_iff_getElem?.mp h
    obtain ⟨i, hi, -, hx⟩ := exists_of_getElem?_retain hk
    exact ⟨i, hi, hx⟩
  · rintro ⟨i, hi, hx⟩
    exact List.mem_of_getElem? ((getElem?_retain hi).trans hx)

/-- A search finds what it found, when nothing it would accept is taken out. -/
theorem find?_retain {p : α → Bool} (h : ∀ (i : ℕ) x, xs[i]? = some x → keep i = false → p x = false) :
    (retain keep xs).find? p = xs.find? p := by
  induction xs using List.reverseRecOn with
  | nil => rfl
  | append_singleton xs x ih =>
    have hinit : ∀ (i : ℕ) y, xs[i]? = some y → keep i = false → p y = false := by
      intro i y hy
      refine h i y ?_
      rw [List.getElem?_append_left (List.getElem?_eq_some_iff.mp hy).1, hy]
    rw [retain_concat, List.find?_append, List.find?_append, ih hinit]
    cases hkeep : keep xs.length with
    | true => rfl
    | false =>
      have hx := h xs.length x (by simp) hkeep
      simp [hx]

/-- What is read off the elements stays, when nothing is read off those taken out. -/
theorem filterMap_retain {β : Type*} {f : α → Option β}
    (h : ∀ (i : ℕ) x, xs[i]? = some x → keep i = false → f x = none) :
    (retain keep xs).filterMap f = xs.filterMap f := by
  induction xs using List.reverseRecOn with
  | nil => rfl
  | append_singleton xs x ih =>
    have hinit : ∀ (i : ℕ) y, xs[i]? = some y → keep i = false → f y = none := by
      intro i y hy
      refine h i y ?_
      rw [List.getElem?_append_left (List.getElem?_eq_some_iff.mp hy).1, hy]
    rw [retain_concat, List.filterMap_append, List.filterMap_append, ih hinit]
    cases hkeep : keep xs.length with
    | true => rfl
    | false =>
      have hx := h xs.length x (by simp) hkeep
      simp [hx]

/-- Nothing is taken out where every place is kept. -/
theorem retain_eq_self (h : ∀ i < xs.length, keep i) : retain keep xs = xs := by
  unfold retain
  rw [List.filter_eq_self.mpr, List.zipIdx_map_fst]
  rintro ⟨x, i⟩ hx
  exact h i (List.getElem?_eq_some_iff.mp (List.mem_zipIdx_iff_getElem?.mp hx)).1

end Retaining
