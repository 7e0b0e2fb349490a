import Mathlib.Data.List.Induction
import Mathlib.Data.List.Nodup

/-! Records grouped by a key, the keys in the order of their first record. -/
namespace Groups

variable {κ τ γ : Type} [DecidableEq κ]

/-- Update the entry of a key, or add one at the end. -/
def upsert (k : κ) (new : γ) (update : γ → γ) : List (κ × γ) → List (κ × γ)
  | [] => [(k, new)]
  | (known, c) :: entries =>
    if known = k then (known, update c) :: entries else (known, c) :: upsert k new update entries

/-- The values recorded under each key. -/
def group (records : List (τ × κ)) : List (κ × List τ) :=
  records.foldl (fun groups r => upsert r.2 [r.1] (· ++ [r.1]) groups) []

/-- The number of records under each key. -/
def count (records : List (τ × κ)) : List (κ × ℕ) :=
  records.foldl (fun groups r => upsert r.2 1 (· + 1) groups) []

/-- The values of the records under one key. -/
def under (records : List (τ × κ)) (k : κ) : List τ := (records.filter (·.2 = k)).map (·.1)

variable {records : List (τ × κ)}

theorem mem_under {k : κ} {t : τ} : t ∈ under records k ↔ (t, k) ∈ records := by
  simp [under]

theorem upsert_map {δ : Type} (f : γ → δ) {k : κ} {new : γ} {update : γ → γ} (update' : δ → δ)
    (h : ∀ c, f (update c) = update' (f c)) (entries : List (κ × γ)) :
    (upsert k new update entries).map (fun e => (e.1, f e.2)) =
      upsert k (f new) update' (entries.map fun e => (e.1, f e.2)) := by
  induction entries with
  | nil => rfl
  | cons e entries ih =>
    rw [List.map_cons, upsert, upsert]
    split
    · rw [List.map_cons, h]
    · rw [List.map_cons, ih]

theorem keys_upsert (k : κ) (new : γ) (update : γ → γ) (entries : List (κ × γ)) :
    (upsert k new update entries).map (·.1) =
      if k ∈ entries.map (·.1) then entries.map (·.1) else entries.map (·.1) ++ [k] := by
  induction entries with
  | nil => rfl
  | cons e entries ih =>
    rw [upsert, List.map_cons]
    split
    · next h => simp [h]
    · next h =>
      rw [List.map_cons, ih]
      by_cases hk : k ∈ entries.map (·.1)
      · rw [if_pos hk, if_pos (List.mem_cons_of_mem _ hk)]
      · have hne : k ∉ e.1 :: entries.map (·.1) := by
          rw [List.mem_cons, not_or]
          exact ⟨Ne.symm h, hk⟩
        rw [if_neg hk, if_neg hne, List.cons_append]

/-- The entries after an update: the one of the key, and the others as they were. -/
theorem mem_upsert {k x : κ} {new c : γ} {update : γ → γ} {entries : List (κ × γ)}
    (hn : (entries.map (·.1)).Nodup) :
    (x, c) ∈ upsert k new update entries ↔
      x ≠ k ∧ (x, c) ∈ entries ∨
      x = k ∧ ((∃ c', (k, c') ∈ entries ∧ c = update c') ∨ k ∉ entries.map (·.1) ∧ c = new) := by
  induction entries with
  | nil =>
    rw [upsert, List.mem_singleton]
    by_cases hx : x = k <;> simp [hx]
  | cons e entries ih =>
    obtain ⟨known, d⟩ := e
    rw [List.map_cons, List.nodup_cons] at hn
    rw [upsert]
    split
    · next h =>
      subst h
      have hnot : ∀ c', (known, c') ∉ entries := fun c' hc => hn.1 (List.mem_map.mpr ⟨_, hc, rfl⟩)
      by_cases hx : x = known
      · subst hx
        simp [hnot]
      · simp [hx]
    · next h =>
      rw [List.mem_cons, ih hn.2]
      by_cases hx : x = k
      · subst hx
        simp [Ne.symm h]
      · simp [hx]

theorem group_concat (records : List (τ × κ)) (r : τ × κ) :
    group (records ++ [r]) = upsert r.2 [r.1] (· ++ [r.1]) (group records) := by
  rw [group, List.foldl_append]
  rfl

theorem nodup_group (records : List (τ × κ)) : ((group records).map (·.1)).Nodup := by
  induction records using List.reverseRecOn with
  | nil => exact List.nodup_nil
  | append_singleton records r ih =>
    rw [group_concat, keys_upsert]
    split
    · exact ih
    · next h => exact ih.append (List.nodup_singleton _) (by simpa using h)

theorem mem_group {k : κ} {ts : List τ} : (k, ts) ∈ group records ↔ ts ≠ [] ∧ ts = under records k := by
  induction records using List.reverseRecOn generalizing k ts with
  | nil =>
    simp only [group, under, List.foldl_nil, List.not_mem_nil, List.filter_nil, List.map_nil, false_iff]
    exact fun h => h.1 h.2
  | append_singleton records r ih =>
    have hu : under (records ++ [r]) k = under records k ++ if r.2 = k then [r.1] else [] := by
      by_cases h : r.2 = k <;> simp [under, h]
    rw [group_concat, mem_upsert (nodup_group records), hu]
    by_cases hk : k = r.2
    · subst hk
      have hkeys : r.2 ∉ (group records).map (·.1) ↔ under records r.2 = [] := by
        constructor
        · intro h
          by_contra hne
          exact h (List.mem_map.mpr ⟨(r.2, under records r.2), ih.mpr ⟨hne, rfl⟩, rfl⟩)
        · intro h hm
          obtain ⟨⟨k', ts'⟩, hg, rfl⟩ := List.mem_map.mp hm
          have := ih.mp hg
          exact this.1 (this.2.trans h)
      rw [hkeys]
      simp only [ne_eq, not_true_eq_false, false_and, true_and, false_or, if_true, ih]
      constructor
      · rintro (⟨c', ⟨hne, rfl⟩, rfl⟩ | ⟨hnil, rfl⟩)
        · simp
        · simp [hnil]
      · rintro ⟨-, rfl⟩
        by_cases hnil : under records r.2 = []
        · exact .inr ⟨hnil, by simp [hnil]⟩
        · exact .inl ⟨_, ⟨hnil, rfl⟩, rfl⟩
    · simp [hk, Ne.symm hk, ih]

theorem count_eq (records : List (τ × κ)) : count records = (group records).map fun g => (g.1, g.2.length) := by
  induction records using List.reverseRecOn with
  | nil => rfl
  | append_singleton records r ih =>
    rw [group_concat, upsert_map List.length (· + 1) (by simp), ← ih, count, List.foldl_append]
    rfl

theorem exists_group_of_mem {t : τ} {k : κ} (h : (t, k) ∈ records) :
    ∃ ts, (k, ts) ∈ group records ∧ t ∈ ts := by
  refine ⟨under records k, mem_group.mpr ⟨?_, rfl⟩, mem_under.mpr h⟩
  exact List.ne_nil_of_mem (mem_under.mpr h)

theorem mem_of_group {t : τ} {k : κ} {ts : List τ} (h : (k, ts) ∈ group records)
    (ht : t ∈ ts) : (t, k) ∈ records :=
  mem_under.mp ((mem_group.mp h).2 ▸ ht)

end Groups
