import Mathlib.Data.List.Basic

/-! Lists split at a separator, and joined again. -/
namespace Splits

variable {α : Type*} {xs : List α} {parts : List (List α)} {sep : α}

section Separators

variable [DecidableEq α]

/-- The parts between the separators, one more than there are separators. -/
def split (sep : α) : List α → List (List α)
  | [] => [[]]
  | a :: rest => if a = sep then [] :: split sep rest else (split sep rest).modifyHead (a :: ·)

theorem split_eq_splitOn (sep : α) (xs : List α) : split sep xs = xs.splitOn sep := by
  induction xs with
  | nil => rfl
  | cons a rest ih =>
    rw [split, ih, List.splitOn_cons_eq_if_modifyHead]
    simp only [beq_iff_eq]

theorem split_ne_nil (sep : α) (xs : List α) : split sep xs ≠ [] := by
  rw [split_eq_splitOn]
  exact List.splitOn_ne_nil sep xs

theorem exists_split_eq (sep : α) (xs : List α) : ∃ part parts, split sep xs = part :: parts :=
  List.exists_cons_of_ne_nil (split_ne_nil sep xs)

@[simp] theorem split_cons_self (sep : α) (xs : List α) : split sep (sep :: xs) = [] :: split sep xs := if_pos rfl

theorem split_cons_of_ne {sep a : α} (h : a ≠ sep) (xs : List α) :
    split sep (a :: xs) = (split sep xs).modifyHead (a :: ·) := if_neg h

theorem split_append {part : List α} (h : sep ∉ part) (xs : List α) :
    split sep (part ++ sep :: xs) = part :: split sep xs := by
  induction part with
  | nil => exact split_cons_self sep xs
  | cons a part ih =>
    have ha : a ≠ sep := fun h' => h (h' ▸ List.mem_cons_self)
    have hpart : sep ∉ part := fun h' => h (List.mem_cons_of_mem _ h')
    rw [List.cons_append, split_cons_of_ne ha, ih hpart]
    rfl

theorem split_of_notMem (h : sep ∉ xs) : split sep xs = [xs] := by
  induction xs with
  | nil => rfl
  | cons a xs ih =>
    have ha : a ≠ sep := fun h' => h (h' ▸ List.mem_cons_self)
    have hxs : sep ∉ xs := fun h' => h (List.mem_cons_of_mem _ h')
    rw [split_cons_of_ne ha, ih hxs]
    rfl

theorem length_split (sep : α) (xs : List α) : (split sep xs).length = xs.count sep + 1 := by
  induction xs with
  | nil => rfl
  | cons a xs ih =>
    by_cases ha : a = sep
    · rw [ha, split_cons_self, List.length_cons, ih, List.count_cons_self]
    · rw [split_cons_of_ne ha, List.length_modifyHead, ih, List.count_cons_of_ne ha]

/-- No part contains the separator, and each takes its members from the whole. -/
theorem mem_split {xs part : List α} (h : part ∈ split sep xs) : sep ∉ part ∧ ∀ a ∈ part, a ∈ xs := by
  induction xs generalizing part with
  | nil =>
    have hpart : part = [] := List.mem_singleton.mp h
    simp [hpart]
  | cons b xs ih =>
    by_cases hb : b = sep
    · rw [hb, split_cons_self] at h
      cases h with
      | head => simp
      | tail _ h =>
        have hpart := ih h
        exact ⟨hpart.1, fun a ha => List.mem_cons_of_mem b (hpart.2 a ha)⟩
    · have hcons := exists_split_eq sep xs
      obtain ⟨first, parts, heq⟩ := hcons
      rw [split_cons_of_ne hb, heq, List.modifyHead_cons] at h
      rw [heq] at ih
      cases h with
      | head =>
        have hfirst := ih List.mem_cons_self
        constructor
        · intro hmem
          cases hmem with
          | head => exact hb rfl
          | tail _ hmem => exact hfirst.1 hmem
        · intro a ha
          cases ha with
          | head => exact List.mem_cons_self
          | tail _ ha => exact List.mem_cons_of_mem b (hfirst.2 a ha)
      | tail _ h =>
        have hpart := ih (List.mem_cons_of_mem first h)
        exact ⟨hpart.1, fun a ha => List.mem_cons_of_mem b (hpart.2 a ha)⟩

theorem intercalate_split (sep : α) (xs : List α) : [sep].intercalate (split sep xs) = xs := by
  rw [split_eq_splitOn]
  exact List.intercalate_splitOn sep

/-- A join has one separator fewer than parts. -/
theorem count_intercalate (h : ∀ part ∈ parts, sep ∉ part) :
    ([sep].intercalate parts).count sep = parts.length - 1 := by
  induction parts with
  | nil => rfl
  | cons part parts ih =>
    have hpart : part.count sep = 0 := List.count_eq_zero.mpr (h part List.mem_cons_self)
    cases parts with
    | nil => simpa using hpart
    | cons next parts =>
      have hrest := ih fun other hother => h other (List.mem_cons_of_mem part hother)
      have hsep : [sep].count sep = 1 := List.count_singleton_self
      rw [List.intercalate_cons_cons, List.count_append, List.count_append, hrest, hpart, hsep]
      simp only [List.length_cons]
      omega

end Separators

theorem mem_intercalate {sep a : α} (h : a ∈ [sep].intercalate parts) : a = sep ∨ ∃ part ∈ parts, a ∈ part := by
  induction parts with
  | nil => cases h
  | cons part parts ih =>
    cases parts with
    | nil => exact .inr ⟨part, List.mem_cons_self, by simpa using h⟩
    | cons next parts =>
      rw [List.intercalate_cons_cons] at h
      have hcases := List.mem_append.mp h
      cases hcases with
      | inl h =>
        have h := List.mem_append.mp h
        cases h with
        | inl h => exact .inr ⟨part, List.mem_cons_self, h⟩
        | inr h => exact .inl (List.mem_singleton.mp h)
      | inr h =>
        have hrest := ih h
        cases hrest with
        | inl h => exact .inl h
        | inr h =>
          obtain ⟨other, hother, ha⟩ := h
          exact .inr ⟨other, List.mem_cons_of_mem part hother, ha⟩

theorem eq_of_intercalate_eq_nil (h : [sep].intercalate parts = []) : parts = [] ∨ parts = [[]] := by
  cases parts with
  | nil => exact .inl rfl
  | cons part parts =>
    cases parts with
    | nil => exact .inr (congrArg (fun l => [l]) (by simpa using h))
    | cons next parts => simp [List.intercalate_cons_cons] at h

theorem mem_intercalate_of_mem {sep a : α} {part : List α} (h : part ∈ parts) (ha : a ∈ part) :
    a ∈ [sep].intercalate parts := by
  induction parts with
  | nil => cases h
  | cons first parts ih =>
    cases parts with
    | nil =>
      have hfirst : part = first := List.mem_singleton.mp h
      simpa [← hfirst] using ha
    | cons next parts =>
      rw [List.intercalate_cons_cons]
      cases h with
      | head => exact List.mem_append_left _ (List.mem_append_left _ ha)
      | tail _ h => exact List.mem_append_right _ (ih h)

/-! A list without its last element, or without its first and last, where these satisfy `p`. -/

def dropEnd (p : α → Bool) : List α → List α
  | [] => []
  | [a] => if p a then [] else [a]
  | a :: b :: rest => a :: dropEnd p (b :: rest)

def dropEnds (p : α → Bool) : List α → List α
  | [] => []
  | a :: rest => (if p a then [] else [a]) ++ dropEnd p rest

theorem dropEnd_concat (p : α → Bool) (xs : List α) (a : α) : dropEnd p (xs ++ [a]) = xs ++ if p a then [] else [a] := by
  induction xs with
  | nil => rfl
  | cons b xs ih =>
    cases xs with
    | nil => rfl
    | cons c xs => exact congrArg (b :: ·) ih

theorem dropEnds_concat (p : α → Bool) (a : α) (xs : List α) (b : α) :
    dropEnds p (a :: (xs ++ [b])) = (if p a then [] else [a]) ++ xs ++ if p b then [] else [b] := by
  rw [dropEnds, dropEnd_concat, List.append_assoc]

variable {p : α → Bool}

theorem dropEnd_of_all (h : ∀ a ∈ xs, p a) : dropEnd p xs = xs.dropLast := by
  induction xs with
  | nil => rfl
  | cons a xs ih =>
    cases xs with
    | nil => exact if_pos (h a List.mem_cons_self)
    | cons b xs => exact congrArg (a :: ·) (ih fun c hc => h c (List.mem_cons_of_mem a hc))

theorem dropEnds_of_all (h : ∀ a ∈ xs, p a) : dropEnds p xs = xs.tail.dropLast := by
  cases xs with
  | nil => rfl
  | cons a xs =>
    rw [dropEnds, if_pos (h a List.mem_cons_self), List.nil_append, dropEnd_of_all fun b hb =>
      h b (List.mem_cons_of_mem a hb)]
    rfl

theorem zipIdx_filterMap_dropEnd {β : Type*} (p : α → Bool) (f : α → β) (xs : List α) (start : ℕ) :
    ((xs.zipIdx (start + 1)).filterMap fun (a, index) =>
      if (index = 0 || index = start + xs.length) && p a then none else some (f a)) = (dropEnd p xs).map f := by
  induction xs generalizing start with
  | nil => rfl
  | cons a xs ih =>
    have hrest := ih (start + 1)
    have hlen : start + (a :: xs).length = start + 1 + xs.length := by
      rw [List.length_cons]
      omega
    rw [hlen, List.zipIdx_cons, List.filterMap_cons, hrest]
    cases xs with
    | nil => cases h : p a <;> simp [dropEnd, h]
    | cons b xs =>
      have hlast : ¬start + 1 = start + 1 + (b :: xs).length := by
        rw [List.length_cons]
        omega
      simp [dropEnd]

/-- The elements a loop over the indices keeps when it passes over a first and a last one that satisfy `p`. -/
theorem zipIdx_filterMap_dropEnds {β : Type*} (p : α → Bool) (f : α → β) (xs : List α) :
    (xs.zipIdx.filterMap fun (a, index) =>
      if (index = 0 || index = xs.length - 1) && p a then none else some (f a)) = (dropEnds p xs).map f := by
  cases xs with
  | nil => rfl
  | cons a xs =>
    have hrest := zipIdx_filterMap_dropEnd p f xs 0
    have hlen : (a :: xs).length - 1 = 0 + xs.length := by simp
    rw [hlen, List.zipIdx_cons, List.filterMap_cons, hrest, dropEnds]
    cases h : p a <;> simp [h]

theorem mem_of_mem_dropEnd {a : α} (h : a ∈ dropEnd p xs) : a ∈ xs := by
  induction xs with
  | nil => exact h
  | cons b xs ih =>
    cases xs with
    | nil =>
      cases hb : p b
      · simpa [dropEnd, hb] using h
      · simp [dropEnd, hb] at h
    | cons c xs =>
      cases h with
      | head => exact List.mem_cons_self
      | tail _ h => exact List.mem_cons_of_mem b (ih h)

theorem mem_of_mem_dropEnds {a : α} (h : a ∈ dropEnds p xs) : a ∈ xs := by
  cases xs with
  | nil => exact h
  | cons b xs =>
    have hcases := List.mem_append.mp h
    cases hcases with
    | inl h =>
      cases hb : p b
      · have hab : a = b := by simpa [hb] using h
        exact hab ▸ List.mem_cons_self
      · simp [hb] at h
    | inr h => exact List.mem_cons_of_mem b (mem_of_mem_dropEnd h)

end Splits
