import Mathlib.Data.List.Nodup

/-! Lists of keys with values, read by their first entry for a key. -/
namespace Lookups

variable {κ ν : Type} [DecidableEq κ]

theorem lookup_cons_of_ne {k : κ} {e : κ × ν} (h : k ≠ e.1) (entries : List (κ × ν)) :
    (e :: entries).lookup k = entries.lookup k := by
  rw [List.lookup_cons, beq_false_of_ne h]

theorem lookup_cons_of_eq {k : κ} {e : κ × ν} (h : k = e.1) (entries : List (κ × ν)) :
    (e :: entries).lookup k = some e.2 := by
  rw [List.lookup_cons, h, beq_self_eq_true]

variable {entries : List (κ × ν)}

theorem mem_of_lookup {k : κ} {v : ν} (h : entries.lookup k = some v) : (k, v) ∈ entries := by
  obtain ⟨before, after, rfl, -⟩ := List.lookup_eq_some_iff.mp h
  simp

theorem lookup_of_mem {k : κ} {v : ν} (hnodup : (entries.map Prod.fst).Nodup)
    (h : (k, v) ∈ entries) : entries.lookup k = some v := by
  induction entries with
  | nil => cases h
  | cons e entries ih =>
    rw [List.map_cons, List.nodup_cons] at hnodup
    rcases List.mem_cons.mp h with rfl | h
    · exact List.lookup_cons_self
    · have hne : k ≠ e.1 := by
        rintro rfl
        exact hnodup.1 (List.mem_map.mpr ⟨_, h, rfl⟩)
      rw [lookup_cons_of_ne hne, ih hnodup.2 h]

theorem lookup_eq_none {k : κ} (h : k ∉ entries.map Prod.fst) : entries.lookup k = none := by
  cases hl : entries.lookup k with
  | none => rfl
  | some v => exact absurd (List.mem_map.mpr ⟨_, mem_of_lookup hl, rfl⟩) h

/-- The values of one key changed. -/
theorem lookup_modify (f : ν → ν) (k k' : κ) (entries : List (κ × ν)) :
    (entries.map fun e => if e.1 = k then (e.1, f e.2) else e).lookup k' =
      if k' = k then (entries.lookup k).map f else entries.lookup k' := by
  induction entries with
  | nil => simp
  | cons e entries ih =>
    have hkey : (if e.1 = k then (e.1, f e.2) else e).1 = e.1 := by split <;> rfl
    rw [List.map_cons]
    by_cases hk' : k' = e.1
    · rw [lookup_cons_of_eq (hk'.trans hkey.symm), lookup_cons_of_eq hk', ← hk']
      split
      · next h =>
        rw [lookup_cons_of_eq (h.symm.trans hk')]
        rfl
      · rfl
    · have hne : k' ≠ (if e.1 = k then (e.1, f e.2) else e).1 := by rwa [hkey]
      rw [lookup_cons_of_ne hne, ih, lookup_cons_of_ne hk']
      split
      · next h => rw [lookup_cons_of_ne (h ▸ hk')]
      · rfl

theorem keys_modify (f : ν → ν) (k : κ) (entries : List (κ × ν)) :
    (entries.map fun e => if e.1 = k then (e.1, f e.2) else e).map Prod.fst = entries.map Prod.fst := by
  rw [List.map_map]
  apply List.map_congr_left
  intro e _
  simp only [Function.comp]
  split <;> rfl

/-- The first entry of a key taken away. -/
theorem lookup_eraseP (k k' : κ) (hnodup : (entries.map Prod.fst).Nodup) :
    (entries.eraseP (·.1 = k)).lookup k' = if k' = k then none else entries.lookup k' := by
  induction entries with
  | nil => simp
  | cons e entries ih =>
    rw [List.map_cons, List.nodup_cons] at hnodup
    rw [List.eraseP_cons]
    by_cases hk : e.1 = k
    · rw [decide_eq_true hk, cond_true]
      split
      · next h => exact lookup_eq_none (h ▸ hk ▸ hnodup.1)
      · next h => rw [lookup_cons_of_ne (hk ▸ h)]
    · rw [decide_eq_false hk, cond_false]
      by_cases hk' : k' = e.1
      · rw [lookup_cons_of_eq hk', lookup_cons_of_eq hk', if_neg (hk' ▸ hk)]
      · rw [lookup_cons_of_ne hk', lookup_cons_of_ne hk', ih hnodup.2]

theorem nodup_eraseP (k : κ) (hnodup : (entries.map Prod.fst).Nodup) :
    ((entries.eraseP (·.1 = k)).map Prod.fst).Nodup :=
  hnodup.sublist (List.eraseP_sublist.map _)

end Lookups
