import Krusty.Lib.Refinement
import Krusty.Lru.Cache

/-! The cache is a map that drops the key used longest ago. -/
namespace Krusty.Lru

open Refinement

variable {K V : Type} [DecidableEq K]

/-- The reference map under the cache's operations. -/
def reference {cap : ℕ} (hcap : 0 < cap) (self : LeastRecent K V cap) :
    Op K V → Option (Option V × LeastRecent K V cap)
  | .get k => some (self.access id k)
  | .getMut k write => some (self.access write k)
  | .insert k v => some (none, self.insert hcap k v)
  | .remove k => some (self.remove k)
  | .clear => some (none, .empty)

namespace LruCache

variable {map : AList fun _ : K => V × ℕ} {entries : List (K × V)} {bound : ℕ} {k : K}

/-- An entry of the map without its stamp. -/
def pair (e : Σ _ : K, V × ℕ) : K × V := (e.1, e.2.1)

/-- Ascending stamps put the map's entries in the order of `entries`, and none passes `bound`. -/
structure Ordered (map : AList fun _ : K => V × ℕ) (bound : ℕ) (entries : List (K × V)) : Prop where
  sorted : ∃ l : List (Σ _ : K, V × ℕ), map.entries.Perm l ∧ l.Pairwise (fun a b => a.2.2 < b.2.2) ∧
    entries = l.map pair
  le_bound : ∀ e ∈ map.entries, e.2.2 ≤ bound

theorem kerase_eq_filter (k : K) {l : List (Σ _ : K, V × ℕ)} (h : l.NodupKeys) :
    l.kerase k = l.filter fun e => e.1 ≠ k := by
  induction l with
  | nil => rfl
  | cons e l ih =>
    obtain ⟨hnew, hrest⟩ := List.nodupKeys_cons.mp h
    by_cases hk : k = e.1
    · have hall : ∀ e' ∈ l, decide (e'.1 ≠ k) = true := by
        intro e' he'
        rw [decide_eq_true_eq]
        rintro heq
        exact hnew (hk ▸ heq ▸ List.mem_map_of_mem he')
      rw [List.kerase_cons_eq hk, List.filter_cons_of_neg (by simp [hk]), List.filter_eq_self.mpr hall]
    · rw [List.kerase_cons_ne hk, List.filter_cons_of_pos (by simpa using Ne.symm hk), ih hrest]

omit [DecidableEq K] in
theorem Ordered.mono {bound' : ℕ} (h : Ordered map bound entries) (hle : bound ≤ bound') :
    Ordered map bound' entries :=
  ⟨h.sorted, fun e he => (h.le_bound e he).trans hle⟩

theorem Ordered.mem_iff (h : Ordered map bound entries) {v : V} :
    (k, v) ∈ entries ↔ ∃ s, map.lookup k = some (v, s) := by
  obtain ⟨l, hperm, -, rfl⟩ := h.sorted
  simp only [List.mem_map, ← hperm.mem_iff]
  constructor
  · rintro ⟨⟨k', v', s⟩, he, heq⟩
    cases heq
    exact ⟨s, AList.mem_lookup_iff.mpr he⟩
  · rintro ⟨s, hs⟩
    exact ⟨⟨k, v, s⟩, AList.mem_lookup_iff.mp hs, rfl⟩

theorem Ordered.mem_keys (h : Ordered map bound entries) : k ∈ entries.map Prod.fst ↔ k ∈ map := by
  rw [← AList.lookup_isSome, Option.isSome_iff_exists]
  constructor
  · intro hk
    obtain ⟨⟨k', v⟩, he, rfl⟩ := List.mem_map.mp hk
    obtain ⟨s, hs⟩ := h.mem_iff.mp he
    exact ⟨_, hs⟩
  · rintro ⟨⟨v, s⟩, hs⟩
    exact List.mem_map.mpr ⟨(k, v), h.mem_iff.mpr ⟨s, hs⟩, rfl⟩

omit [DecidableEq K] in
theorem Ordered.perm (h : Ordered map bound entries) : (map.entries.map pair).Perm entries := by
  obtain ⟨l, hperm, -, rfl⟩ := h.sorted
  exact hperm.map pair

omit [DecidableEq K] in
theorem Ordered.length (h : Ordered map bound entries) : map.keys.length = entries.length := by
  rw [← h.perm.length_eq, List.length_map]
  exact List.length_map ..

theorem Ordered.lookup (h : Ordered map bound entries) (hdistinct : (entries.map Prod.fst).Nodup) (k : K) :
    (map.lookup k).map Prod.fst = entries.lookup k := by
  cases hlookup : map.lookup k with
  | none =>
    have hk : k ∉ entries.map Prod.fst := by rwa [h.mem_keys, ← AList.lookup_eq_none]
    exact (Lookups.lookup_eq_none hk).symm
  | some stamped => exact (Lookups.lookup_of_mem hdistinct (h.mem_iff.mpr ⟨stamped.2, hlookup⟩)).symm

theorem Ordered.erase (h : Ordered map bound entries) (k : K) :
    Ordered (map.erase k) bound (LeastRecent.without k entries) := by
  obtain ⟨l, hperm, hsorted, rfl⟩ := h.sorted
  refine ⟨⟨l.filter fun e => e.1 ≠ k, ?_, hsorted.filter _, ?_⟩, ?_⟩
  · have herase : (map.erase k).entries = map.entries.filter fun e => e.1 ≠ k :=
      kerase_eq_filter k map.nodupKeys
    rw [herase]
    exact hperm.filter _
  · rw [LeastRecent.without, List.filter_map]
    rfl
  · intro e he
    exact h.le_bound e ((List.kerase_sublist k _).subset he)

/-- A new key stamped after all others comes last. -/
theorem Ordered.insert (h : Ordered map bound entries) (hk : k ∉ map) {t : ℕ} (hlt : bound < t) (v : V) :
    Ordered (map.insert k (v, t)) t (entries ++ [(k, v)]) := by
  obtain ⟨l, hperm, hsorted, rfl⟩ := h.sorted
  have hentries : (map.insert k (v, t)).entries = ⟨k, v, t⟩ :: map.entries :=
    AList.entries_insert_of_notMem hk
  have hlate : ∀ e ∈ map.entries, e.2.2 < t := fun e he => (h.le_bound e he).trans_lt hlt
  refine ⟨⟨l ++ [⟨k, v, t⟩], ?_, ?_, ?_⟩, ?_⟩
  · rw [hentries]
    exact (hperm.cons _).trans (List.perm_append_singleton ..).symm
  · refine List.pairwise_append.mpr ⟨hsorted, List.pairwise_singleton .., ?_⟩
    intro e he e' he'
    rw [List.mem_singleton.mp he']
    exact hlate e (hperm.mem_iff.mpr he)
  · rw [List.map_append]
    rfl
  · intro e he
    rw [hentries] at he
    rcases List.mem_cons.mp he with rfl | he
    · exact le_rfl
    · exact (hlate e he).le

theorem insert_erase (k : K) (w : V × ℕ) : (map.erase k).insert k w = map.insert k w := by
  apply AList.ext
  have hkeys := List.notMem_keys_kerase k map.nodupKeys
  have hkerase : (map.erase k).entries.kerase k = map.entries.kerase k := List.kerase_of_notMem_keys hkeys
  rw [AList.entries_insert, AList.entries_insert, hkerase]

/-- A key that is used again comes last. -/
theorem Ordered.use (h : Ordered map bound entries) {t : ℕ} (hlt : bound < t) (k : K) (v : V) :
    Ordered (map.insert k (v, t)) t (LeastRecent.without k entries ++ [(k, v)]) := by
  have hgone : k ∉ map.erase k := by simp
  have hinsert := (h.erase k).insert hgone hlt v
  rwa [insert_erase] at hinsert

/-- The key whose stamp is no later than any other comes first. -/
theorem Ordered.oldest (h : Ordered map bound entries) (hdistinct : (entries.map Prod.fst).Nodup) {v : V} {s : ℕ}
    (hk : map.lookup k = some (v, s)) (hle : ∀ k' v' s', map.lookup k' = some (v', s') → s ≤ s') :
    LeastRecent.without k entries = entries.drop 1 := by
  obtain ⟨l, hperm, hsorted, rfl⟩ := h.sorted
  have hmem : (⟨k, v, s⟩ : Σ _ : K, V × ℕ) ∈ l := hperm.mem_iff.mp (AList.mem_lookup_iff.mp hk)
  cases l with
  | nil => cases hmem
  | cons first l =>
    have hfirst : map.lookup first.1 = some first.2 :=
      AList.mem_lookup_iff.mpr (hperm.mem_iff.mpr (List.mem_cons_self ..))
    have hkey : first.1 = k := by
      rcases List.mem_cons.mp hmem with heq | hlater
      · rw [← heq]
      · have hlt := (List.pairwise_cons.mp hsorted).1 _ hlater
        have hge := hle _ _ _ hfirst
        exact absurd hlt (Nat.not_lt.mpr hge)
    rw [← hkey]
    exact LeastRecent.without_head hdistinct

/-- The cache holds what the reference does, and a record no newer than its stamp for each key. -/
structure Stands {cap : ℕ} (cache : LruCache K V) (ref : LeastRecent K V cap) : Prop where
  cap_eq : cache.cap = cap
  ordered : Ordered cache.map cache.tick ref.entries
  backed : Backed (· ≤ ·) cache.map cache.recency

section Step

variable {cap : ℕ} {self : LruCache K V} {ref : LeastRecent K V cap}

theorem stands_withCap (cap : ℕ) :
    Stands (withCap cap : LruCache K V) (.empty : LeastRecent K V (max cap 1)) where
  cap_eq := rfl
  ordered := ⟨⟨[], .refl _, .nil, rfl⟩, by simp [withCap]⟩
  backed := backed_empty _

theorem Stands.lookup (h : Stands self ref) (k : K) : (self.map.lookup k).map Prod.fst = ref.lookup k :=
  h.ordered.lookup ref.distinct k

theorem Stands.mem_iff (h : Stands self ref) {k : K} : k ∈ ref.entries.map Prod.fst ↔ k ∈ self.map :=
  h.ordered.mem_keys

theorem Stands.len_eq (h : Stands self ref) : self.len = ref.entries.length := h.ordered.length

omit [DecidableEq K] in
theorem nextTick_eq (h : self.tick + 1 < 2 ^ 64) : self.nextTick = self.tick + 1 := Nat.mod_eq_of_lt h

/-- A read leaves the key last, whatever the caller writes there. -/
theorem Stands.getMut (h : Stands self ref) (htick : self.tick + 1 < 2 ^ 64) (k : K) (write : V → V) :
    Agree Stands (self.getMut k write) (ref.access write k) := by
  have hlookup := h.lookup k
  have hnext : self.tick < self.nextTick := by rw [nextTick_eq htick]; omega
  unfold LruCache.getMut
  cases hk : self.map.lookup k with
  | none =>
    have habsent : ref.lookup k = none := by rw [← hlookup, hk]; rfl
    rw [LeastRecent.access_of_absent habsent]
    exact ⟨rfl, h.cap_eq, h.ordered.mono hnext.le, h.backed⟩
  | some stamped =>
    obtain ⟨v, s⟩ := stamped
    have hpresent : ref.lookup k = some v := by rw [← hlookup, hk]; rfl
    have hstamp : s ≤ self.tick := h.ordered.le_bound _ (AList.mem_lookup_iff.mp hk)
    rw [LeastRecent.access_of_lookup hpresent]
    exact ⟨rfl, h.cap_eq, h.ordered.use hnext k _, h.backed.use hk (fun tick hle => by omega) _⟩

theorem Stands.insert (h : Stands self ref) (hcap : 0 < cap) (htick : self.tick + 1 < 2 ^ 64) (k : K) (v : V) :
    ∃ next, self.insert k v = some next ∧ Stands next (ref.insert hcap k v) ∧ next.tick = self.tick + 1 := by
  have hnext : self.tick < self.nextTick := by rw [nextTick_eq htick]; omega
  unfold LeastRecent.insert
  by_cases hk : k ∈ self.map
  · rw [dif_pos (h.mem_iff.mpr hk)]
    obtain ⟨⟨w, s⟩, hlive⟩ := Option.isSome_iff_exists.mp (AList.lookup_isSome.mpr hk)
    have hstamp : s ≤ self.tick := h.ordered.le_bound _ (AList.mem_lookup_iff.mp hlive)
    refine ⟨_, insert_replacing hk v, ⟨h.cap_eq, h.ordered.use hnext k v, ?_⟩, nextTick_eq htick⟩
    exact h.backed.use hlive (fun tick hle => by omega) v
  · rw [dif_neg fun hmem => hk (h.mem_iff.mp hmem)]
    by_cases hfull : self.cap ≤ self.len
    · obtain ⟨victim, rest, hevicts, heq⟩ :=
        insert_full le_refl h.backed (h.cap_eq ▸ hcap) hk hfull v
      refine ⟨_, heq, ⟨h.cap_eq, ?_, hevicts.backed.insert le_rfl k v⟩, nextTick_eq htick⟩
      obtain ⟨w, s, hvictim, holdest⟩ := hevicts.oldest
      have hfirst : LeastRecent.without victim ref.entries = ref.entries.drop 1 := by
        apply h.ordered.oldest ref.distinct hvictim
        intro k' v' s' hk'
        obtain ⟨t, hst, hts⟩ := holdest k' v' s' hk'
        exact hst.trans hts
      have hgone : k ∉ self.map.erase victim := fun hmem => hk (AList.mem_erase.mp hmem).2
      have hentries := (h.ordered.erase victim).insert hgone hnext v
      have hlen : cap ≤ ref.entries.length := by rw [← h.len_eq, ← h.cap_eq]; exact hfull
      rw [hfirst] at hentries
      rw [LeastRecent.add_entries_full hlen]
      exact hentries
    · have hroom : self.len < self.cap := Nat.not_le.mp hfull
      have hlen : ref.entries.length < cap := by rw [← h.len_eq, ← h.cap_eq]; exact hroom
      refine ⟨_, insert_below hk hroom v, ⟨h.cap_eq, ?_, h.backed.insert le_rfl k v⟩, nextTick_eq htick⟩
      rw [LeastRecent.add_entries_room hlen]
      exact h.ordered.insert hk hnext v

theorem Stands.remove (h : Stands self ref) (k : K) : Agree Stands (self.remove k) (ref.remove k) :=
  ⟨h.lookup k, h.cap_eq, h.ordered.erase k, h.backed.remove k⟩

theorem Stands.clear (h : Stands self ref) : Stands self.clear (.empty : LeastRecent K V cap) where
  cap_eq := h.cap_eq
  ordered := ⟨⟨[], .refl _, .nil, rfl⟩, by simp [LruCache.clear]⟩
  backed := backed_empty _

/-- One operation answers as the reference does, and takes at most one tick. -/
theorem Stands.apply (h : Stands self ref) (hcap : 0 < cap) (htick : self.tick + 1 < 2 ^ 64) (op : Op K V) :
    ∃ answer next ref', self.apply op = some (answer, next) ∧ reference hcap ref op = some (answer, ref') ∧
      Stands next ref' ∧ next.tick ≤ self.tick + 1 := by
  have hread : ∀ k write, (self.getMut k write).2.tick = self.tick + 1 := by
    intro k write
    unfold LruCache.getMut
    split <;> exact nextTick_eq htick
  cases op with
  | get k =>
    have hagree := h.getMut htick k id
    exact ⟨_, _, _, rfl, congrArg some (Prod.ext hagree.1.symm rfl), hagree.2, (hread k id).le⟩
  | getMut k write =>
    have hagree := h.getMut htick k write
    exact ⟨_, _, _, rfl, congrArg some (Prod.ext hagree.1.symm rfl), hagree.2, (hread k write).le⟩
  | insert k v =>
    obtain ⟨next, heq, hstands, hnext⟩ := h.insert hcap htick k v
    exact ⟨none, next, _, by rw [LruCache.apply, heq]; rfl, rfl, hstands, hnext.le⟩
  | remove k =>
    have hagree := h.remove k
    exact ⟨_, _, _, rfl, congrArg some (Prod.ext hagree.1.symm rfl), hagree.2, Nat.le_succ _⟩
  | clear => exact ⟨none, _, _, rfl, rfl, h.clear, Nat.le_succ _⟩

theorem Stands.run (h : Stands self ref) (hcap : 0 < cap) (ops : List (Op K V))
    (htick : self.tick + ops.length < 2 ^ 64) :
    ∃ answers cache ref', Refinement.run LruCache.apply self ops = some (answers, cache) ∧
      Refinement.run (reference hcap) ref ops = some (answers, ref') ∧ Stands cache ref' := by
  induction ops generalizing self ref with
  | nil => exact ⟨[], self, ref, rfl, rfl, h⟩
  | cons op ops ih =>
    rw [List.length_cons] at htick
    obtain ⟨answer, next, ref₁, hop, href, hstands, hnext⟩ := h.apply hcap (by omega) op
    obtain ⟨answers, cache, ref₂, hops, hrefs, hlast⟩ := ih hstands (by omega)
    refine ⟨answer :: answers, cache, ref₂, ?_, ?_, hlast⟩
    · simp [Refinement.run, hop, hops]
    · simp [Refinement.run, href, hrefs]

end Step

theorem cap_pos (cap : ℕ) : 0 < max cap 1 := lt_max_of_lt_right Nat.one_pos

/-- Fewer than 2⁶⁴ operations answer as the reference map does and leave its entries; every eviction walk ends,
and each live key has a record no newer than its stamp. -/
theorem run_refines_leastRecent (cap : ℕ) (ops : List (Op K V)) (h : ops.length < 2 ^ 64) :
    ∃ answers cache, ∃ ref : LeastRecent K V (max cap 1),
      Refinement.run apply (withCap cap) ops = some (answers, cache) ∧
      Refinement.run (reference (cap_pos cap)) .empty ops = some (answers, ref) ∧
      (∀ k, (cache.map.lookup k).map Prod.fst = ref.lookup k) ∧
      (cache.map.entries.map pair).Perm ref.entries ∧ cache.len ≤ cache.cap ∧
      ∀ k v s, cache.map.lookup k = some (v, s) → ∃ r ∈ cache.recency, r.key = k ∧ r.tick ≤ s := by
  have htick : (withCap cap : LruCache K V).tick + ops.length < 2 ^ 64 := by simpa [withCap] using h
  obtain ⟨answers, cache, ref, hrun, href, hstands⟩ := (stands_withCap cap).run (cap_pos cap) ops htick
  have hlen : cache.len ≤ cache.cap := by
    rw [hstands.len_eq, hstands.cap_eq]
    exact ref.bounded
  exact ⟨answers, cache, ref, hrun, href, hstands.lookup, hstands.ordered.perm, hlen, hstands.backed⟩

/-- A key removed and inserted again is not evicted for its stale record. -/
theorem run_refines_leastRecent_reinserted : ∃ answers cache, ∃ ref : LeastRecent ℕ ℕ (max 2 1),
    Refinement.run apply (withCap 2)
      [.insert 1 10, .insert 2 20, .remove 1, .insert 1 11, .insert 3 30, .get 1, .get 2] = some (answers, cache) ∧
    Refinement.run (reference (cap_pos 2)) .empty
      [.insert 1 10, .insert 2 20, .remove 1, .insert 1 11, .insert 3 30, .get 1, .get 2] = some (answers, ref) ∧
    (∀ k, (cache.map.lookup k).map Prod.fst = ref.lookup k) ∧
    (cache.map.entries.map pair).Perm ref.entries ∧ cache.len ≤ cache.cap ∧
    ∀ k v s, cache.map.lookup k = some (v, s) → ∃ r ∈ cache.recency, r.key = k ∧ r.tick ≤ s :=
  run_refines_leastRecent 2 _ (by decide)

example : (Refinement.run apply (withCap 2)
    [.insert 1 10, .insert 2 20, .remove 1, .insert 1 11, .insert 3 30, .get 1, .get 2]).map (fun r => r.1) =
      some [none, none, some 10, none, none, some 11, (none : Option ℕ)] := by
  decide

end LruCache

end Krusty.Lru
