import Krusty.Native.Linker.InterfaceStubs

/-! The form of a stub: decided on names before layout, on addresses after it. -/
namespace Krusty.Native.Linker

open Groups

/-- Where a form transfers to on a receiver whose type is at `ty`, `load` reading the image. -/
def Kind.run (load : UInt64 → Option UInt64) (index : Option ℕ) (ty : UInt64) : Kind → Option UInt64
  | .direct function => some function
  | .compare t thenTo otherwise => some (if ty = t then thenTo else otherwise)
  | .table => do
    let index ← index
    let itable ← load (ty + itableOffset)
    load (itable + UInt64.ofNat (index * 8))

/-- The records of a member at their addresses. -/
def located (address : Target → UInt64) (records : List (Target × Target)) : List (UInt64 × UInt64) :=
  records.map fun r => (address r.1, address r.2)

/-- Types at one address are recorded with functions at one address. -/
def Consistent (records : List (UInt64 × UInt64)) : Prop := ∀ r ∈ records, ∀ q ∈ records, r.1 = q.1 → r.2 = q.2

section Forms

variable {records : List (Target × Target)} {address : Target → UInt64}

theorem under_located {k : Target} (h : ∀ r ∈ records, address r.2 = address k → r.2 = k) :
    under (located address records) (address k) = (under records k).map address := by
  unfold under located
  rw [List.filter_map, List.map_map, List.map_map]
  have hf : records.filter ((fun r : UInt64 × UInt64 => decide (r.2 = address k)) ∘ fun r => (address r.1, address r.2)) =
      records.filter fun r => decide (r.2 = k) := by
    apply List.filter_congr
    intro r hr
    exact decide_eq_decide.mpr ⟨h r hr, fun heq => heq ▸ rfl⟩
  rw [hf]
  rfl

/-- Every function at an address is the place of a function by name. -/
theorem exists_of_group_located {g : UInt64 × List UInt64} (h : g ∈ group (located address records)) :
    ∃ k ∈ (group records).map (·.1), g.1 = address k := by
  obtain ⟨hne, heq⟩ := mem_group.mp h
  obtain ⟨t, ht⟩ := List.exists_mem_of_ne_nil g.2 hne
  have hr := mem_of_group h ht
  obtain ⟨r, hr, heq⟩ := List.mem_map.mp hr
  obtain ⟨ts, hts, -⟩ := exists_group_of_mem (t := r.1) (k := r.2) hr
  exact ⟨r.2, List.mem_map.mpr ⟨_, hts, rfl⟩, (Prod.mk.inj heq).2.symm⟩

/-- A group of two with a single type on one side is told apart by a comparison. -/
theorem choose_ne_table_of_pair {located : List (UInt64 × UInt64)} {a b : UInt64 × List UInt64}
    (hg : group located = [a, b]) (h : a.2.length = 1 ∨ b.2.length = 1) : choose located ≠ .table := by
  obtain ⟨f, ts⟩ := a
  obtain ⟨g, us⟩ := b
  unfold choose
  rw [hg]
  dsimp only at h ⊢
  split
  · nofun
  · nofun
  · next hts hus =>
    rcases h with h | h
    · obtain ⟨t, rfl⟩ := List.length_eq_one_iff.mp h
      exact absurd rfl (hts t)
    · obtain ⟨t, rfl⟩ := List.length_eq_one_iff.mp h
      exact absurd rfl (hus t)

theorem choose_ne_table_of_single {located : List (UInt64 × UInt64)} {a : UInt64 × List UInt64}
    (hg : group located = [a]) : choose located ≠ .table := by
  unfold choose
  rw [hg]
  nofun

theorem length_group_located {k : Target} {ts : List Target} {a : UInt64 × List UInt64} (hk : (k, ts) ∈ group records)
    (ha : a ∈ group (located address records)) (heq : a.1 = address k)
    (hsep : ∀ r ∈ records, address r.2 = address k → r.2 = k) : a.2.length = ts.length := by
  rw [(mem_group.mp ha).2, heq, under_located hsep, List.length_map, ← (mem_group.mp hk).2]

theorem group_located_ne_nil (address : Target → UInt64) {g : Target × List Target} (hg : g ∈ group records) :
    group (located address records) ≠ [] := by
  obtain ⟨hne, -⟩ := mem_group.mp hg
  obtain ⟨t, ht⟩ := List.exists_mem_of_ne_nil g.2 hne
  have hr : (address t, address g.1) ∈ located address records :=
    List.mem_map.mpr ⟨(t, g.1), mem_of_group hg ht, rfl⟩
  obtain ⟨ts, hts, -⟩ := exists_group_of_mem hr
  exact List.ne_nil_of_mem hts

/-- Addresses only merge functions: a member whose records rule a table lookup out is never given one. -/
theorem mayReadATable_of_table (h : choose (located address records) = .table) : mayReadATable records = true := by
  by_contra hmay
  unfold mayReadATable at hmay
  rw [count_eq] at hmay
  have hnd := nodup_group (located address records)
  have hkeys : ∀ a ∈ group (located address records), ∃ k ∈ (group records).map (·.1), a.1 = address k :=
    fun _ => exists_of_group_located
  rcases hG : group records with _ | ⟨⟨f, ts⟩, _ | ⟨⟨g, us⟩, _ | ⟨c, rest⟩⟩⟩
  · simp [hG] at hmay
  · -- one function by name is one address
    have hne := group_located_ne_nil address (hG ▸ List.mem_cons_self ..)
    rw [hG] at hkeys
    rcases hL : group (located address records) with _ | ⟨a, _ | ⟨b, rest⟩⟩
    · exact hne hL
    · exact choose_ne_table_of_single hL h
    · simp_all
  · -- two functions by name are one address or two, with as many types at each
    have hf : (f, ts) ∈ group records := hG ▸ List.mem_cons_self ..
    have hg : (g, us) ∈ group records := hG ▸ List.mem_cons_of_mem _ (List.mem_cons_self ..)
    have hcount : ts.length = 1 ∨ us.length = 1 := by
      have hts := List.length_pos_of_ne_nil (mem_group.mp hf).1
      have hus := List.length_pos_of_ne_nil (mem_group.mp hg).1
      simp [hG] at hmay
      omega
    have hnames : ∀ r ∈ records, r.2 = f ∨ r.2 = g := by
      intro r hr
      obtain ⟨vs, hvs, -⟩ := exists_group_of_mem (t := r.1) (k := r.2) hr
      rw [hG] at hvs
      simp at hvs
      exact hvs.imp (·.1) (·.1)
    have hkey : ∀ a ∈ group (located address records), a.1 = address f ∨ a.1 = address g := by
      intro a ha
      obtain ⟨k, hk, heq⟩ := hkeys a ha
      rw [hG] at hk
      simp at hk
      rcases hk with rfl | rfl
      · exact .inl heq
      · exact .inr heq
    have hlen : address f ≠ address g → ∀ a ∈ group (located address records),
        (a.1 = address f → a.2.length = ts.length) ∧ (a.1 = address g → a.2.length = us.length) := by
      intro hne a ha
      constructor
      · intro heq
        apply length_group_located hf ha heq
        intro r hr hrf
        exact (hnames r hr).resolve_right fun hrg => hne (hrg ▸ hrf).symm
      · intro heq
        apply length_group_located hg ha heq
        intro r hr hrg
        exact (hnames r hr).resolve_left fun hrf => hne (hrf ▸ hrg)
    rcases hL : group (located address records) with _ | ⟨a, _ | ⟨b, _ | ⟨c, rest⟩⟩⟩
    · exact group_located_ne_nil address hf hL
    · exact choose_ne_table_of_single hL h
    · rw [hL] at hnd hkey hlen
      have hab : a.1 ≠ b.1 := by simpa using hnd
      have ha := hkey a (by simp)
      have hb := hkey b (by simp)
      have hne : address f ≠ address g := by
        intro heq
        rw [heq, or_self] at ha hb
        exact hab (ha.trans hb.symm)
      have hla := hlen hne a (by simp)
      have hlb := hlen hne b (by simp)
      refine choose_ne_table_of_pair hL ?_ h
      rcases ha with ha | ha <;> rcases hb with hb | hb
      · exact absurd (ha.trans hb.symm) hab
      · rw [hla.1 ha, hlb.2 hb]
        exact hcount
      · rw [hla.2 ha, hlb.1 hb]
        exact hcount.symm
      · exact absurd (ha.trans hb.symm) hab
    · -- three different addresses of two functions
      rw [hL] at hnd hkey
      simp only [List.map_cons, List.nodup_cons, List.mem_cons, not_or] at hnd
      have ha := hkey a (by simp)
      have hb := hkey b (by simp)
      have hc := hkey c (by simp)
      obtain ⟨⟨hab, hac, -⟩, ⟨hbc, -⟩, -⟩ := hnd
      rcases ha with ha | ha <;> rcases hb with hb | hb <;> rcases hc with hc | hc <;> simp_all
  · simp [hG] at hmay

/-- The direct form and the comparison reach the function of every record. -/
theorem run_choose {records : List (UInt64 × UInt64)} (hc : Consistent records) {r : UInt64 × UInt64}
    (hr : r ∈ records) (ht : choose records ≠ .table) (load : UInt64 → Option UInt64) (index : Option ℕ) :
    (choose records).run load index r.1 = some r.2 := by
  have hpair : ∀ t f g us, group records = [(f, [t]), (g, us)] ∨ group records = [(g, us), (f, [t])] →
      (if r.1 = t then f else g) = r.2 := by
    intro t f g us hG
    have hnd := nodup_group records
    have hf : (f, [t]) ∈ group records := by rcases hG with hG | hG <;> simp [hG]
    have hfg : f ≠ g := by
      rcases hG with hG | hG
      · simpa [hG] using hnd
      · have : g ≠ f := by simpa [hG] using hnd
        exact this.symm
    have htf := mem_of_group hf (List.mem_singleton_self t)
    obtain ⟨vs, hvs, hmem⟩ := exists_group_of_mem (t := r.1) (k := r.2) hr
    have hcases : (r.2, vs) = (f, [t]) ∨ (r.2, vs) = (g, us) := by
      rcases hG with hG | hG
      · simpa [hG] using hvs
      · have := hvs
        rw [hG] at this
        simpa [or_comm] using this
    rcases hcases with heq | heq
    · obtain ⟨hr2, rfl⟩ := Prod.mk.inj heq
      rw [if_pos (List.mem_singleton.mp hmem), hr2]
    · obtain ⟨hr2, -⟩ := Prod.mk.inj heq
      have hne : r.1 ≠ t := fun h1 => hfg ((hc _ htf r hr h1.symm).trans hr2)
      rw [if_neg hne, hr2]
  unfold choose at ht ⊢
  split
  · next only ts hG =>
    obtain ⟨vs, hvs, -⟩ := exists_group_of_mem (t := r.1) (k := r.2) hr
    rw [hG, List.mem_singleton] at hvs
    rw [Kind.run, (Prod.mk.inj hvs).1]
  · next first ts second us hG =>
    rw [hG] at ht
    dsimp only at ht
    split
    · next t => exact congrArg some (hpair t first second us (.inl hG))
    · next t _ => exact congrArg some (hpair t second first ts (.inr hG))
    · next hts hus =>
      split at ht
      · exact absurd rfl (hts _)
      · exact absurd rfl (hus _)
      · exact absurd rfl ht
  · next hone htwo =>
    split at ht
    · next hG => exact absurd hG (hone _ _)
    · next hG => exact absurd hG (htwo _ _ _ _)
    · exact absurd rfl ht

end Forms

end Krusty.Native.Linker
