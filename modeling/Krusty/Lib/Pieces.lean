import Mathlib.Data.List.Basic
import Mathlib.Tactic.Ring

/-! Regions of one list: what they hold, and writing one of them over. -/
namespace Regions

variable {α : Type*}

def slice (values : List α) (start length : ℕ) : List α := (values.drop start).take length

/-- `new` in place of as many values from `start` on. -/
def overwrite (values : List α) (start : ℕ) (new : List α) : List α :=
  values.take start ++ new ++ values.drop (start + new.length)

variable {values new more : List α} {start length start' length' : ℕ}

theorem slice_getElem? (i : ℕ) :
    (slice values start length)[i]? = if i < length then values[start + i]? else none := by
  rw [slice, List.getElem?_take]
  split_ifs with hi
  · rw [List.getElem?_drop]
  · rfl

theorem length_slice (h : start + length ≤ values.length) : (slice values start length).length = length := by
  rw [slice, List.length_take, List.length_drop]
  omega

theorem length_overwrite (h : start + new.length ≤ values.length) :
    (overwrite values start new).length = values.length := by
  rw [overwrite, List.length_append, List.length_append, List.length_take, List.length_drop]
  omega

theorem overwrite_getElem? (h : start + new.length ≤ values.length) (i : ℕ) :
    (overwrite values start new)[i]? =
      if start ≤ i ∧ i < start + new.length then new[i - start]? else values[i]? := by
  have htake : (values.take start).length = start := List.length_take_of_le (by omega)
  rw [overwrite, List.append_assoc]
  obtain hlt | hge := Nat.lt_or_ge i start
  · rw [List.getElem?_append_left (by omega), List.getElem?_take_of_lt hlt, if_neg (by omega)]
  · rw [List.getElem?_append_right (by omega), htake]
    obtain hlt' | hge' := Nat.lt_or_ge i (start + new.length)
    · rw [List.getElem?_append_left (by omega), if_pos ⟨hge, hlt'⟩]
    · rw [List.getElem?_append_right (by omega), List.getElem?_drop, if_neg (by omega)]
      congr 1
      omega

/-- What was there stays when the list grows. -/
theorem slice_append (h : start + length ≤ values.length) :
    slice (values ++ more) start length = slice values start length := by
  apply List.ext_getElem?
  intro i
  rw [slice_getElem?, slice_getElem?]
  split_ifs with hi
  · rw [List.getElem?_append_left (by omega)]
  · rfl

theorem slice_append_right : slice (values ++ more) values.length more.length = more := by
  rw [slice, List.drop_left, List.take_length]

theorem slice_overwrite (h : start + new.length ≤ values.length) :
    slice (overwrite values start new) start new.length = new := by
  apply List.ext_getElem?
  intro i
  rw [slice_getElem?, overwrite_getElem? h]
  split_ifs with hi hin
  · rw [Nat.add_sub_cancel_left]
  · omega
  · rw [List.getElem?_eq_none (by omega)]

/-- A region apart from the one written over holds what it held. -/
theorem slice_overwrite_of_disjoint (h : start + new.length ≤ values.length)
    (hapart : start' + length' ≤ start ∨ start + new.length ≤ start') :
    slice (overwrite values start new) start' length' = slice values start' length' := by
  apply List.ext_getElem?
  intro i
  rw [slice_getElem?, slice_getElem?, overwrite_getElem? h]
  split_ifs with hi hin
  · omega
  · rfl
  · rfl

/-- Two neighbouring regions. -/
theorem slice_add : slice values start (length + length') =
    slice values start length ++ slice values (start + length) length' := by
  rw [slice, slice, slice, List.take_add, List.drop_drop]

end Regions

/-! Lists cut into consecutive pieces of one length. -/
namespace Pieces

variable {α : Type}

def divCeil (a b : ℕ) : ℕ := if a % b = 0 then a / b else a / b + 1

def piece (n : ℕ) (l : List α) (i : ℕ) : List α := (l.drop (i * n)).take n

/-- The pieces of a list, the last of them shorter where it has to be. -/
def chunks (n : ℕ) (l : List α) : List (List α) := (List.range (divCeil l.length n)).map (piece n l)

/-- The same, with one empty piece for the empty list. -/
def pieces (n : ℕ) (l : List α) : List (List α) := (List.range (max (divCeil l.length n) 1)).map (piece n l)

variable {n k : ℕ} {l front rest : List α}

theorem divCeil_add (a : ℕ) (hn : 0 < n) : divCeil (n + a) n = divCeil a n + 1 := by
  have hmod : (n + a) % n = a % n := Nat.add_mod_left n a
  have hdiv : (n + a) / n = a / n + 1 := Nat.add_div_left a hn
  rw [divCeil, divCeil, hmod, hdiv]
  split <;> rfl

theorem divCeil_pos {a : ℕ} (ha : 0 < a) : 0 < divCeil a n := by
  rw [divCeil]
  split
  · next hmod =>
    by_contra hzero
    have hsum := Nat.div_add_mod a n
    rw [Nat.eq_zero_of_not_pos hzero, hmod] at hsum
    omega
  · exact Nat.succ_pos _

/-- Every piece starts inside the list, or at its end. -/
theorem mul_le_of_lt {a i : ℕ} (h : i < max (divCeil a n) 1) : i * n ≤ a := by
  have hi : i ≤ a / n := by
    rw [divCeil] at h
    generalize a / n = quotient at h ⊢
    split at h <;> omega
  exact (Nat.mul_le_mul_right n hi).trans (Nat.div_mul_le_self a n)

theorem take_of_end (start : ℕ) : (l.drop start).take (min (l.length - min start l.length) n) = (l.drop start).take n := by
  rw [List.take_eq_take_iff, List.length_drop]
  omega

theorem chunks_eq_pieces (h : l ≠ []) : chunks n l = pieces n l := by
  have hpos : 0 < divCeil l.length n := divCeil_pos (List.length_pos_iff.mpr h)
  rw [chunks, pieces, Nat.max_eq_left hpos]

theorem length_pieces : (pieces n l).length = max (divCeil l.length n) 1 := by
  rw [pieces, List.length_map, List.length_range]

theorem pieces_short (h : l.length ≤ n) (hn : 0 < n) : pieces n l = [l] := by
  have hcount : max (divCeil l.length n) 1 = 1 := by
    rw [divCeil]
    by_cases heq : l.length = n
    · rw [heq, Nat.mod_self, if_pos rfl, Nat.div_self hn, Nat.max_self]
    · rw [Nat.div_eq_of_lt (by omega)]
      split <;> rfl
  rw [pieces, hcount]
  simp [piece, List.take_of_length_le h]

theorem pieces_long (h : n < l.length) (hn : 0 < n) : pieces n l = l.take n :: pieces n (l.drop n) := by
  have hlength : l.length = n + (l.drop n).length := by
    rw [List.length_drop]
    omega
  have hpos : 0 < divCeil (l.drop n).length n := divCeil_pos (by rw [List.length_drop]; omega)
  have hcount : max (divCeil l.length n) 1 = max (divCeil (l.drop n).length n) 1 + 1 := by
    rw [hlength, divCeil_add _ hn]
    omega
  rw [pieces, hcount, List.range_succ_eq_map, List.map_cons, List.map_map, pieces]
  congr 1
  · rw [piece, Nat.zero_mul, List.drop_zero]
  · apply List.map_congr_left
    intro i _
    have hindex : n + i * n = (i + 1) * n := by ring
    rw [Function.comp_apply, piece, piece, List.drop_drop, hindex]

/-- A cut after whole pieces cuts the list of pieces. -/
theorem pieces_append (hn : 0 < n) (hwhole : n ∣ front.length) (hfront : front ≠ []) (hrest : rest ≠ []) :
    pieces n (front ++ rest) = pieces n front ++ pieces n rest := by
  obtain ⟨m, hm⟩ := hwhole
  have hlength := List.length_pos_iff.mpr hrest
  induction m generalizing front with
  | zero => exact absurd (List.length_eq_zero_iff.mp hm) hfront
  | succ m ih =>
    have hlong : n ≤ front.length := by
      rw [hm]
      exact Nat.le_mul_of_pos_right n (Nat.succ_pos m)
    rw [pieces_long (by rw [List.length_append]; omega) hn, List.take_append_of_le_length hlong,
      List.drop_append_of_le_length hlong]
    by_cases hlast : front.length = n
    · rw [List.take_of_length_le (le_of_eq hlast), List.drop_of_length_le (le_of_eq hlast), List.nil_append,
        pieces_short (le_of_eq hlast) hn]
      rfl
    · have hdrop : (front.drop n).length = n * m := by
        rw [List.length_drop, hm, Nat.mul_succ, Nat.add_sub_cancel]
      have hne : front.drop n ≠ [] := by
        rw [ne_eq, List.drop_eq_nil_iff]
        omega
      rw [ih hne hdrop, ← List.cons_append, ← pieces_long (by omega) hn]

/-- Pieces of pieces, where the larger ones hold whole numbers of the smaller. -/
theorem flatMap_pieces (hn : 0 < n) (hk : 0 < k) (l : List α) : (pieces (k * n) l).flatMap (pieces n) = pieces n l := by
  have hkn : 0 < k * n := Nat.mul_pos hk hn
  induction hlength : l.length using Nat.strong_induction_on generalizing l with
  | _ size ih =>
    by_cases hlong : k * n < l.length
    · have htake : (l.take (k * n)).length = k * n := List.length_take_of_le (le_of_lt hlong)
      have hfront : l.take (k * n) ≠ [] := List.length_pos_iff.mp (by rw [htake]; exact hkn)
      have hrest : l.drop (k * n) ≠ [] := by
        rw [ne_eq, List.drop_eq_nil_iff]
        omega
      have hdrop := ih (l.drop (k * n)).length (by rw [List.length_drop]; omega) _ rfl
      have hsplit := pieces_append hn (by rw [htake]; exact Nat.dvd_mul_left n k) hfront hrest
      rw [List.take_append_drop] at hsplit
      rw [pieces_long hlong hkn, List.flatMap_cons, hdrop, hsplit]
    · rw [pieces_short (not_lt.mp hlong) hkn, List.flatMap_singleton]

theorem flatten_pieces (hn : 0 < n) (l : List α) : (pieces n l).flatten = l := by
  induction hlength : l.length using Nat.strong_induction_on generalizing l with
  | _ size ih =>
    by_cases hlong : n < l.length
    · have hdrop := ih (l.drop n).length (by rw [List.length_drop]; omega) _ rfl
      rw [pieces_long hlong hn, List.flatten_cons, hdrop, List.take_append_drop]
    · rw [pieces_short (not_lt.mp hlong) hn, List.flatten_singleton]

end Pieces
