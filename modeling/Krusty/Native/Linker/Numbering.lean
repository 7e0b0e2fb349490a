import Krusty.Lib.Results
import Krusty.Native.Linker.InterfaceTables

/-! Numbering the members that read a table: the tables as a map from a type and an index to a function. -/
namespace Krusty.Native.Linker

/-- The records give each type at most one function. -/
def OneFunction (records : List (Target × Target)) : Prop := ∀ r ∈ records, ∀ q ∈ records, r.1 = q.1 → r.2 = q.2

def Table.entry (table : Table) (index : ℕ) : Option Target := (table.entries[index]?).join

/-- The function that the table of a type holds at an index. -/
def entryOf (tables : List Table) (ty : Target) (index : ℕ) : Option Target :=
  (tables.find? (·.ty = ty)).bind (·.entry index)

theorem entry_append_replicate (entries : List (Option Target)) (n j : ℕ) :
    ((entries ++ List.replicate n none)[j]?).join = (entries[j]?).join := by
  rw [List.getElem?_append]
  split
  · rfl
  · next h =>
    rw [List.getElem?_eq_none (by omega : entries.length ≤ j), List.getElem?_replicate]
    split <;> rfl

variable {index : ℕ}

theorem Table.enter_spec {table : Table} {function : Target}
    (h : table.entry index = none ∨ table.entry index = some function) :
    ∃ table', table.enter index function = .ok table' ∧ table'.ty = table.ty ∧
      ∀ j, table'.entry j = if j = index then some function else table.entry j := by
  obtain ⟨entries, hentries, hlen, hsame⟩ : ∃ entries, entries = (if table.entries.length ≤ index then
      table.entries ++ List.replicate (index + 1 - table.entries.length) none else table.entries) ∧
      index < entries.length ∧ ∀ j, (entries[j]?).join = table.entry j := by
    refine ⟨_, rfl, ?_, ?_⟩
    · split
      · rw [List.length_append, List.length_replicate]
        omega
      · omega
    · intro j
      split
      · exact entry_append_replicate ..
      · rfl
  have hset : ∀ j, ((entries.set index (some function))[j]?).join =
      if j = index then some function else table.entry j := by
    intro j
    rw [List.getElem?_set]
    by_cases hj : index = j
    · subst hj
      simp [hlen]
    · rw [if_neg hj, if_neg (Ne.symm hj), hsame]
  refine ⟨{ table with entries := entries.set index (some function) }, ?_, rfl, hset⟩
  unfold Table.enter
  rw [← hentries]
  dsimp only
  rw [← hsame] at h
  split
  · next known hk =>
    rw [hk] at h
    have hkf : known = function := by simpa using h
    rw [if_neg (not_not.mpr hkf)]
  · rfl

/-- Entering a function changes one place of the map. -/
theorem enterTable_spec {tables : List Table} {ty : Target} {function : Target}
    (h : entryOf tables ty index = none ∨ entryOf tables ty index = some function) :
    ∃ tables', enterTable ty index function tables = .ok tables' ∧
      tables'.map (·.ty) = (if ty ∈ tables.map (·.ty) then tables.map (·.ty) else tables.map (·.ty) ++ [ty]) ∧
      ∀ ty' j, entryOf tables' ty' j = if ty' = ty ∧ j = index then some function else entryOf tables ty' j := by
  induction tables with
  | nil =>
    have hnone : Table.entry ⟨ty, 0, []⟩ index = none ∨ Table.entry ⟨ty, 0, []⟩ index = some function := .inl rfl
    obtain ⟨table, htable, hty, hentry⟩ := Table.enter_spec hnone
    refine ⟨[table], by rw [enterTable, htable]; rfl, by simpa using hty, fun ty' j => ?_⟩
    have hempty : Table.entry ⟨ty, 0, []⟩ j = none := rfl
    by_cases hty' : ty' = ty
    · subst hty'
      by_cases hj : j = index <;> simp [entryOf, hty, hentry, hj, hempty]
    · simp [entryOf, hty, Ne.symm hty', hty']
  | cons table tables ih =>
    by_cases hty : table.ty = ty
    · have hfind : ∀ j, entryOf (table :: tables) ty j = table.entry j := by
        intro j
        simp [entryOf, hty]
      rw [hfind] at h
      obtain ⟨table', htable, hty', hentry⟩ := Table.enter_spec h
      refine ⟨table' :: tables, by rw [enterTable, if_pos hty, htable]; rfl, by simp [hty', hty], fun t j => ?_⟩
      by_cases ht : t = ty
      · subst ht
        simp [entryOf, hty', hty, hentry]
      · have hne : table.ty ≠ t := hty ▸ Ne.symm ht
        simp [entryOf, hty', hne, ht]
    · have hskip : ∀ j, entryOf (table :: tables) ty j = entryOf tables ty j := by
        intro j
        simp [entryOf, hty]
      rw [hskip] at h
      obtain ⟨tables', htables, hkeys, hentry⟩ := ih h
      refine ⟨table :: tables', by rw [enterTable, if_neg hty, htables]; rfl, ?_, fun t j => ?_⟩
      · rw [List.map_cons, List.map_cons, hkeys]
        by_cases hm : ty ∈ tables.map (·.ty)
        · rw [if_pos hm, if_pos (List.mem_cons_of_mem _ hm)]
        · have hm' : ty ∉ table.ty :: tables.map (·.ty) := by
            rw [List.mem_cons, not_or]
            exact ⟨Ne.symm hty, hm⟩
          rw [if_neg hm, if_neg hm', List.cons_append]
      · by_cases ht : table.ty = t
        · subst ht
          simp [entryOf, hty]
        · have h1 : entryOf (table :: tables') t j = entryOf tables' t j := by simp [entryOf, ht]
          have h2 : entryOf (table :: tables) t j = entryOf tables t j := by simp [entryOf, ht]
          rw [h1, h2, hentry]

theorem nodup_concat {α : Type} [DecidableEq α] {l : List α} (h : l.Nodup) (a : α) :
    (if a ∈ l then l else l ++ [a]).Nodup := by
  split
  · exact h
  · next hn => exact h.append (List.nodup_singleton a) (by simpa using hn)

variable {st : Numbering}

/-- Entering one record at an index that its type has free or already holds the function at. -/
theorem record_spec {r : Target × Target}
    (hfree : entryOf st.tables r.1 index = none ∨ entryOf st.tables r.1 index = some r.2) :
    ∃ st', Numbering.record index st r = .ok st' ∧ st'.indices = st.indices ∧
      ((st.tables.map (·.ty)).Nodup → (st'.tables.map (·.ty)).Nodup) ∧
      (∀ ty j, j ∈ st'.taken ty ↔ j ∈ st.taken ty ∨ j = index ∧ ty = r.1) ∧
      ∀ ty j, entryOf st'.tables ty j = if ty = r.1 ∧ j = index then some r.2 else entryOf st.tables ty j := by
  obtain ⟨tables, htables, hkeys, hentry⟩ := enterTable_spec hfree
  refine ⟨{ st with tables, taken := fun ty => if ty = r.1 then index :: st.taken ty else st.taken ty },
    by rw [Numbering.record, htables]; rfl, rfl, fun hn => ?_, fun ty j => ?_, hentry⟩
  · dsimp only
    rw [hkeys]
    exact nodup_concat hn r.1
  · by_cases hty : ty = r.1
    · simp [hty, or_comm]
    · simp [hty]

/-- Entering the records of one member at an index that is free for its types. -/
theorem record_foldlM {records : List (Target × Target)} (hone : OneFunction records)
    (hfree : ∀ r ∈ records, entryOf st.tables r.1 index = none ∨ entryOf st.tables r.1 index = some r.2) :
    ∃ st', records.foldlM (Numbering.record index) st = .ok st' ∧ st'.indices = st.indices ∧
      ((st.tables.map (·.ty)).Nodup → (st'.tables.map (·.ty)).Nodup) ∧
      (∀ ty j, j ∈ st'.taken ty ↔ j ∈ st.taken ty ∨ j = index ∧ ty ∈ records.map (·.1)) ∧
      (∀ r ∈ records, entryOf st'.tables r.1 index = some r.2) ∧
      ∀ ty j, ¬(j = index ∧ ty ∈ records.map (·.1)) → entryOf st'.tables ty j = entryOf st.tables ty j := by
  induction records generalizing st with
  | nil => exact ⟨st, rfl, rfl, id, by simp, by simp, fun _ _ _ => rfl⟩
  | cons r records ih =>
    obtain ⟨st₁, hst₁, hind₁, hnd₁, htaken₁, hentry₁⟩ := record_spec (hfree r (List.mem_cons_self ..))
    have hone' : OneFunction records :=
      fun a ha b hb => hone a (List.mem_cons_of_mem _ ha) b (List.mem_cons_of_mem _ hb)
    have hfree' : ∀ q ∈ records, entryOf st₁.tables q.1 index = none ∨ entryOf st₁.tables q.1 index = some q.2 := by
      intro q hq
      rw [hentry₁]
      split
      · next h => exact .inr (congrArg some (hone r (List.mem_cons_self ..) q (List.mem_cons_of_mem _ hq) h.1.symm))
      · exact hfree q (List.mem_cons_of_mem _ hq)
    obtain ⟨st', hst, hind, hnd, htaken, hset, hframe⟩ := ih hone' hfree'
    refine ⟨st', ?_, hind.trans hind₁, fun hn => hnd (hnd₁ hn), fun ty j => ?_, fun q hq => ?_, fun ty j hj => ?_⟩
    · rw [List.foldlM_cons, hst₁]
      exact hst
    · rw [htaken, htaken₁, List.map_cons, List.mem_cons]
      tauto
    · rcases List.mem_cons.mp hq with rfl | hq
      · by_cases hm : q.1 ∈ records.map (·.1)
        · obtain ⟨q', hq', heq⟩ := List.mem_map.mp hm
          rw [← heq, hset q' hq', hone q' (List.mem_cons_of_mem _ hq') q (List.mem_cons_self ..) heq]
        · rw [hframe _ _ fun h => hm h.2, hentry₁, if_pos ⟨rfl, rfl⟩]
      · exact hset q hq
    · rw [List.map_cons, List.mem_cons] at hj
      rw [hframe ty j fun h => hj ⟨h.1, .inr h.2⟩, hentry₁, if_neg fun h => hj ⟨h.2, .inl h.1⟩]

/-- The members numbered so far: what each one's table entries hold, and which indices are taken. -/
structure Numbered (done : List (List (Target × Target) × ℕ)) (st : Numbering) : Prop where
  entries : ∀ m ∈ done, ∀ r ∈ m.1, entryOf st.tables r.1 m.2 = some r.2
  held : ∀ m ∈ done, ∀ r ∈ m.1, m.2 ∈ st.taken r.1
  taken : ∀ ty j, entryOf st.tables ty j ≠ none → j ∈ st.taken ty
  apart : done.Pairwise fun m q => ∀ r ∈ m.1, ∀ r' ∈ q.1, r.1 = r'.1 → m.2 ≠ q.2
  nodup : (st.tables.map (·.ty)).Nodup
  indices : st.indices = done.map (·.2)

theorem Numbered.member {done : List (List (Target × Target) × ℕ)} (h : Numbered done st)
    {records : List (Target × Target)} (hone : OneFunction records) :
    ∃ st' index, st.member records = .ok st' ∧ Numbered (done ++ [(records, index)]) st' := by
  have hspec : ∀ ty ∈ records.map (·.1), freeIndex st.taken (records.map (·.1)) ∉ st.taken ty :=
    Nat.find_spec (exists_free st.taken (records.map (·.1)))
  have hmember : st.member records = do
      let st' ← records.foldlM (Numbering.record (freeIndex st.taken (records.map (·.1)))) st
      return { st' with indices := st'.indices ++ [freeIndex st.taken (records.map (·.1))] } := rfl
  generalize freeIndex st.taken (records.map (·.1)) = index at hspec hmember
  have hfree : ∀ r ∈ records, entryOf st.tables r.1 index = none ∨ entryOf st.tables r.1 index = some r.2 := by
    intro r hr
    left
    by_contra hne
    exact hspec r.1 (List.mem_map.mpr ⟨r, hr, rfl⟩) (h.taken r.1 index hne)
  obtain ⟨st', hst, hind, hnd, htaken, hset, hframe⟩ := record_foldlM hone hfree
  refine ⟨{ st' with indices := st'.indices ++ [index] }, index, ?_, ?_⟩
  · rw [hmember, hst]
    rfl
  · -- an entry of an earlier member is not at this index, or not of a type of this member
    have hold : ∀ m ∈ done, ∀ r ∈ m.1, ¬(m.2 = index ∧ r.1 ∈ records.map (·.1)) := by
      rintro m hm r hr ⟨rfl, hty⟩
      exact hspec r.1 hty (h.held m hm r hr)
    constructor
    · intro m hm r hr
      rcases List.mem_append.mp hm with hm | hm
      · exact (hframe r.1 m.2 (hold m hm r hr)).trans (h.entries m hm r hr)
      · obtain rfl := List.mem_singleton.mp hm
        exact hset r hr
    · intro m hm r hr
      rcases List.mem_append.mp hm with hm | hm
      · exact (htaken r.1 m.2).mpr (.inl (h.held m hm r hr))
      · obtain rfl := List.mem_singleton.mp hm
        exact (htaken r.1 index).mpr (.inr ⟨rfl, List.mem_map.mpr ⟨r, hr, rfl⟩⟩)
    · intro ty j hne
      by_cases hj : j = index ∧ ty ∈ records.map (·.1)
      · exact (htaken ty j).mpr (.inr hj)
      · have hne : entryOf st'.tables ty j ≠ none := hne
        rw [hframe ty j hj] at hne
        exact (htaken ty j).mpr (.inl (h.taken ty j hne))
    · rw [List.pairwise_append]
      refine ⟨h.apart, List.pairwise_singleton .., ?_⟩
      intro m hm q hq r hr r' hr' heq hi
      obtain rfl := List.mem_singleton.mp hq
      exact hold m hm r hr ⟨hi, heq ▸ List.mem_map.mpr ⟨r', hr', rfl⟩⟩
    · exact hnd h.nodup
    · rw [List.map_append, ← h.indices, ← hind]
      rfl

/-- All members numbered, in the order given. -/
theorem member_foldlM {members : List (List (Target × Target))} (hone : ∀ m ∈ members, OneFunction m)
    {done : List (List (Target × Target) × ℕ)} (h : Numbered done st) :
    ∃ st' indices, members.foldlM Numbering.member st = .ok st' ∧ indices.length = members.length ∧
      Numbered (done ++ members.zip indices) st' := by
  induction members generalizing done st with
  | nil => exact ⟨st, [], rfl, rfl, by simpa using h⟩
  | cons records members ih =>
    obtain ⟨st₁, index, hst₁, h₁⟩ := h.member (hone records (List.mem_cons_self ..))
    obtain ⟨st', indices, hst', hlen, h'⟩ := ih (fun m hm => hone m (List.mem_cons_of_mem _ hm)) h₁
    refine ⟨st', index :: indices, ?_, by simp [hlen], ?_⟩
    · rw [List.foldlM_cons, hst₁]
      exact hst'
    · rw [List.append_assoc] at h'
      exact h'

section Place

theorem place_cons (size : ℕ) (table : Table) (tables : List Table) :
    place size (table :: tables) = ({ table with offset := size } :: (place (size + table.entries.length * 8) tables).1,
      (place (size + table.entries.length * 8) tables).2) := rfl

theorem place_types (size : ℕ) (tables : List Table) : (place size tables).1.map (·.ty) = tables.map (·.ty) := by
  induction tables generalizing size with
  | nil => rfl
  | cons table tables ih => exact congrArg (table.ty :: ·) (ih _)

theorem entryOf_place (size : ℕ) (tables : List Table) (ty : Target) (j : ℕ) :
    entryOf (place size tables).1 ty j = entryOf tables ty j := by
  induction tables generalizing size with
  | nil => rfl
  | cons table tables ih =>
    have ih := ih (size + table.entries.length * 8)
    unfold entryOf at ih ⊢
    rw [place_cons]
    by_cases hty : table.ty = ty
    · simp [hty, Table.entry]
    · simpa [hty] using ih

/-- The tables lie one after the other. -/
theorem place_apart (size : ℕ) (tables : List Table) :
    (∀ t ∈ (place size tables).1, size ≤ t.offset ∧ t.offset + t.entries.length * 8 ≤ (place size tables).2) ∧
      size ≤ (place size tables).2 ∧
      (place size tables).1.Pairwise fun t u => t.offset + t.entries.length * 8 ≤ u.offset := by
  induction tables generalizing size with
  | nil => exact ⟨by simp [place], le_refl _, .nil⟩
  | cons table tables ih =>
    obtain ⟨hin, hle, hpair⟩ := ih (size + table.entries.length * 8)
    rw [place_cons]
    refine ⟨?_, by omega, List.pairwise_cons.mpr ⟨fun t ht => (hin t ht).1, hpair⟩⟩
    intro t ht
    rcases List.mem_cons.mp ht with rfl | ht
    · exact ⟨le_refl _, hle⟩
    · have := hin t ht
      exact ⟨by omega, this.2⟩

end Place

/-- What numbering gives: every member an index at which the tables hold its records, no index twice for
members with a type in common, and tables that lie apart. -/
theorem number_spec {members : List (List (Target × Target))} (hone : ∀ m ∈ members, OneFunction m) :
    ∃ tables indices, InterfaceTables.number members = .ok (tables, indices) ∧ indices.length = members.length ∧
      (∀ m ∈ members.zip indices, ∀ r ∈ m.1, entryOf tables.tables r.1 m.2 = some r.2) ∧
      ((members.zip indices).Pairwise fun m q => ∀ r ∈ m.1, ∀ r' ∈ q.1, r.1 = r'.1 → m.2 ≠ q.2) ∧
      (tables.tables.map (·.ty)).Nodup ∧
      (∀ t ∈ tables.tables, t.offset + t.entries.length * 8 ≤ tables.size) ∧
      tables.tables.Pairwise fun t u => t.offset + t.entries.length * 8 ≤ u.offset := by
  have hinit : Numbered [] ⟨fun _ => [], [], []⟩ :=
    ⟨by simp, by simp, by simp [entryOf], .nil, List.nodup_nil, rfl⟩
  obtain ⟨st, indices, hst, hlen, h⟩ := member_foldlM hone hinit
  rw [List.nil_append] at h
  have hind : st.indices = indices := by
    rw [h.indices, List.map_snd_zip]
    omega
  obtain ⟨hin, -, hpair⟩ := place_apart 0 st.tables
  refine ⟨⟨(place 0 st.tables).1, (place 0 st.tables).2⟩, indices, ?_, hlen, ?_, h.apart, ?_, ?_, hpair⟩
  · rw [InterfaceTables.number, hst, ← hind]
    rfl
  · intro m hm r hr
    exact (entryOf_place 0 st.tables r.1 m.2).trans (h.entries m hm r hr)
  · rw [place_types]
    exact h.nodup
  · exact fun t ht => (hin t ht).2

end Krusty.Native.Linker
