import Mathlib.Data.List.Basic
import Mathlib.Data.List.Pairwise
import Mathlib.Order.Basic
import Mathlib.Data.List.Sort

/-! Neighbours in a list sorted by a key. -/
namespace Neighbours

variable {α : Type*} {key : α → ℕ}

/-- In a sorted list, two elements are neighbours when no element stands between them. -/
theorem mem_zip_tail_iff {xs : List α} (hsorted : xs.Pairwise fun x y => key x < key y) {x y : α} :
    (x, y) ∈ xs.zip xs.tail ↔
      x ∈ xs ∧ y ∈ xs ∧ key x < key y ∧ ∀ z ∈ xs, ¬ (key x < key z ∧ key z < key y) := by
  induction xs with
  | nil => simp
  | cons a xs ih =>
    obtain ⟨hfirst, hsorted⟩ := List.pairwise_cons.mp hsorted
    cases xs with
    | nil =>
      simp only [List.tail_cons, List.zip_nil_right, List.not_mem_nil, List.mem_singleton, false_iff]
      rintro ⟨rfl, rfl, hlt, -⟩
      exact Nat.lt_irrefl _ hlt
    | cons b xs =>
      have hab := hfirst b (List.mem_cons_self ..)
      have hb := (List.pairwise_cons.mp hsorted).1
      rw [List.tail_cons, List.zip_cons_cons, List.mem_cons]
      constructor
      · rintro (heq | hmem)
        · cases heq
          refine ⟨by simp, by simp, hab, ?_⟩
          rintro z hz ⟨hlt, hlt'⟩
          rcases List.mem_cons.mp hz with rfl | hz
          · exact Nat.lt_irrefl _ hlt
          rcases List.mem_cons.mp hz with rfl | hz
          · exact Nat.lt_irrefl _ hlt'
          · exact Nat.lt_asymm hlt' (hb z hz)
        · obtain ⟨hx, hy, hlt, hnone⟩ := (ih hsorted).mp hmem
          refine ⟨List.mem_cons_of_mem _ hx, List.mem_cons_of_mem _ hy, hlt, ?_⟩
          rintro z hz ⟨hlt, hlt'⟩
          rcases List.mem_cons.mp hz with rfl | hz
          · exact Nat.lt_asymm hlt (hfirst x hx)
          · exact hnone z hz ⟨hlt, hlt'⟩
      · rintro ⟨hx, hy, hlt, hnone⟩
        have hy' : y ∈ b :: xs := by
          rcases List.mem_cons.mp hy with rfl | hy
          · rcases List.mem_cons.mp hx with rfl | hx
            · exact absurd hlt (Nat.lt_irrefl _)
            · exact absurd hlt (Nat.lt_asymm (hfirst x hx))
          · exact hy
        rcases List.mem_cons.mp hx with rfl | hx
        · left
          rcases List.mem_cons.mp hy' with rfl | hy''
          · rfl
          · exact absurd ⟨hab, hb y hy''⟩ (hnone b (by simp))
        · exact .inr ((ih hsorted).mpr ⟨hx, hy', hlt, fun z hz => hnone z (List.mem_cons_of_mem _ hz)⟩)

end Neighbours

/-! Finite sets as their elements in ascending order. -/
namespace SortedSets

variable {α : Type*} [LinearOrder α]

def insert (a : α) : List α → List α
  | [] => [a]
  | b :: set => if a < b then a :: b :: set else if a = b then b :: set else b :: insert a set

def remove (a : α) (set : List α) : List α := set.filter (· ≠ a)

variable {a b : α} {set other : List α}

@[simp] theorem mem_insert : b ∈ insert a set ↔ b = a ∨ b ∈ set := by
  induction set with
  | nil => simp [insert]
  | cons c set ih =>
    rw [insert]
    split_ifs with hlt heq
    · simp
    · simp [heq]
    · rw [List.mem_cons, ih, List.mem_cons]
      tauto

@[simp] theorem mem_remove : b ∈ remove a set ↔ b ∈ set ∧ b ≠ a := by simp [remove]

theorem pairwise_insert (h : set.Pairwise (· < ·)) : (insert a set).Pairwise (· < ·) := by
  induction set with
  | nil => exact List.pairwise_singleton ..
  | cons c set ih =>
    obtain ⟨hfirst, hset⟩ := List.pairwise_cons.mp h
    rw [insert]
    split_ifs with hlt heq
    · refine List.pairwise_cons.mpr ⟨fun d hd => ?_, h⟩
      obtain rfl | hd := List.mem_cons.mp hd
      · exact hlt
      · exact hlt.trans (hfirst d hd)
    · exact h
    · refine List.pairwise_cons.mpr ⟨fun d hd => ?_, ih hset⟩
      obtain rfl | hd := mem_insert.mp hd
      · exact lt_of_le_of_ne (not_lt.mp hlt) (Ne.symm heq)
      · exact hfirst d hd

theorem pairwise_remove (h : set.Pairwise (· < ·)) : (remove a set).Pairwise (· < ·) := h.filter _

theorem length_remove_lt (h : a ∈ set) : (remove a set).length < set.length :=
  List.length_filter_lt_length_iff_exists.mpr ⟨a, h, by simp⟩

/-- Sets with the same elements are the same list. -/
theorem eq_of_mem_iff (h : set.Pairwise (· < ·)) (h' : other.Pairwise (· < ·)) (hmem : ∀ a, a ∈ set ↔ a ∈ other) :
    set = other := by
  have hperm : set.Perm other := (List.perm_ext_iff_of_nodup h.nodup h'.nodup).mpr hmem
  exact hperm.eq_of_pairwise (fun a b _ _ hab hba => absurd hba (lt_asymm hab)) h h'

def unique : List α → List α
  | [] => []
  | [a] => [a]
  | a :: b :: rest => if a = b then unique (b :: rest) else a :: unique (b :: rest)

@[simp] theorem mem_unique : a ∈ unique set ↔ a ∈ set := by
  induction set using unique.induct with
  | case1 => rfl
  | case2 b => rfl
  | case3 c rest ih =>
    rw [unique, if_pos rfl, ih]
    simp
  | case4 b c rest h ih => rw [unique, if_neg h, List.mem_cons, ih, ← List.mem_cons]

theorem pairwise_unique (h : set.Pairwise (· ≤ ·)) : (unique set).Pairwise (· < ·) := by
  induction set using unique.induct with
  | case1 => exact .nil
  | case2 b => exact List.pairwise_singleton ..
  | case3 c rest ih =>
    rw [unique, if_pos rfl]
    exact ih (List.pairwise_cons.mp h).2
  | case4 b c rest hne ih =>
    have hcons := List.pairwise_cons.mp h
    have hsorted := List.pairwise_cons.mp hcons.2
    rw [unique, if_neg hne]
    apply List.Pairwise.cons
    · intro d hd
      have hbc : b < c := lt_of_le_of_ne (hcons.1 c List.mem_cons_self) hne
      cases mem_unique.mp hd with
      | head => exact hbc
      | tail _ hd => exact hbc.trans_le (hsorted.1 d hd)
    · exact ih hcons.2

/-! Maps as their entries in ascending order of the keys. -/

section Entries

variable {ν : Type*} {k : α} {v : ν} {entries : List (α × ν)}

def insertEntry (k : α) (v : ν) : List (α × ν) → List (α × ν)
  | [] => [(k, v)]
  | e :: entries =>
    if k < e.1 then (k, v) :: e :: entries else if k = e.1 then (k, v) :: entries else e :: insertEntry k v entries

theorem perm_insertEntry (h : k ∉ entries.map Prod.fst) : (insertEntry k v entries).Perm ((k, v) :: entries) := by
  induction entries with
  | nil => exact .refl _
  | cons e entries ih =>
    have hne : k ≠ e.1 := fun heq => h (heq ▸ List.mem_cons_self)
    have hrest : k ∉ entries.map Prod.fst := fun hmem => h (List.mem_cons_of_mem _ hmem)
    rw [insertEntry, if_neg hne]
    split_ifs
    · exact .refl _
    · exact ((ih hrest).cons e).trans (.swap ..)

theorem mem_of_mem_insertEntry {e : α × ν} (h : e ∈ insertEntry k v entries) : e = (k, v) ∨ e ∈ entries := by
  induction entries with
  | nil => exact .inl (List.mem_singleton.mp h)
  | cons first entries ih =>
    rw [insertEntry] at h
    split_ifs at h
    · exact List.mem_cons.mp h
    · cases List.mem_cons.mp h with
      | inl h => exact .inl h
      | inr h => exact .inr (List.mem_cons_of_mem first h)
    · cases List.mem_cons.mp h with
      | inl h => exact .inr (h ▸ List.mem_cons_self)
      | inr h =>
        cases ih h with
        | inl h => exact .inl h
        | inr h => exact .inr (List.mem_cons_of_mem first h)

theorem keys_insertEntry : (insertEntry k v entries).map Prod.fst = insert k (entries.map Prod.fst) := by
  induction entries with
  | nil => rfl
  | cons e entries ih =>
    rw [insertEntry, List.map_cons, insert]
    split_ifs with hlt heq
    · rfl
    · rw [List.map_cons, heq]
    · rw [List.map_cons, ih]

/-- Entries in ascending order of their keys are determined by which they are. -/
theorem eq_of_perm {other : List (α × ν)} (h : (entries.map Prod.fst).Pairwise (· < ·))
    (h' : (other.map Prod.fst).Pairwise (· < ·)) (hperm : entries.Perm other) : entries = other := by
  rw [List.pairwise_map] at h h'
  exact hperm.eq_of_pairwise (fun a b _ _ hab hba => absurd hba (lt_asymm hab)) h h'

end Entries

end SortedSets
