import Krusty.Jvm.BytecodePasses.Temporaries.TemporaryValues
import Krusty.Lib.Dataflow

/-! What a local may hold, and that joining the analysis' values joins it. -/
namespace Krusty.Jvm.BytecodePasses.Temporaries

open Dataflow

/-- What a local holds: no candidate's value, one store's value, or maybe one of several stores'. -/
inductive Contents where
  | unknown
  | only (store : ℕ)
  | among (stores : Finset ℕ)
  deriving DecidableEq

namespace Contents

def stores : Contents → Finset ℕ
  | unknown => ∅
  | only store => {store}
  | among stores => stores

def Le (a b : Contents) : Prop := a = b ∨ ∃ stores, b = among stores ∧ a.stores ⊆ stores

def join (a b : Contents) : Contents := if a = b then a else among (a.stores ∪ b.stores)

theorem Le.refl (a : Contents) : a.Le a := .inl rfl

variable {a b : Contents}

theorem Le.stores_subset (h : a.Le b) : a.stores ⊆ b.stores := by
  obtain rfl | ⟨S, rfl, hsub⟩ := h
  · exact Finset.Subset.refl _
  · exact hsub

theorem Le.trans {a b c : Contents} (hab : a.Le b) (hbc : b.Le c) : a.Le c := by
  obtain rfl | ⟨S, rfl, hsub⟩ := hbc
  · exact hab
  · exact .inr ⟨S, rfl, hab.stores_subset.trans hsub⟩

theorem Le.antisymm (hab : a.Le b) (hba : b.Le a) : a = b := by
  obtain rfl | ⟨S, rfl, hsub⟩ := hab
  · rfl
  · obtain h | ⟨T, rfl, hsub'⟩ := hba
    · exact h.symm
    · have hsets : T = S := Finset.Subset.antisymm hsub hsub'
      rw [hsets]

theorem le_join_left (a b : Contents) : a.Le (a.join b) := by
  unfold join
  split
  · exact Le.refl a
  · exact .inr ⟨_, rfl, Finset.subset_union_left⟩

theorem le_join_right (a b : Contents) : b.Le (a.join b) := by
  unfold join
  split
  · next h => exact .inl h.symm
  · exact .inr ⟨_, rfl, Finset.subset_union_right⟩

theorem join_le {a b c : Contents} (ha : a.Le c) (hb : b.Le c) : (a.join b).Le c := by
  unfold join
  split
  · exact ha
  · next hne =>
    have hamong : ∃ S, c = among S := by
      obtain rfl | ⟨S, hS, -⟩ := ha
      · obtain rfl | ⟨S, hS, -⟩ := hb
        · exact absurd rfl hne
        · exact ⟨S, hS⟩
      · exact ⟨S, hS⟩
    obtain ⟨S, rfl⟩ := hamong
    exact .inr ⟨S, rfl, Finset.union_subset ha.stores_subset hb.stores_subset⟩

/-- How far a value is from the bottom. -/
def rank : Contents → ℕ
  | unknown => 0
  | only _ => 1
  | among stores => 2 + stores.card

theorem Le.rank_le (h : a.Le b) : a.rank ≤ b.rank := by
  obtain rfl | ⟨S, rfl, hsub⟩ := h
  · exact Nat.le_refl _
  · have hcard := Finset.card_le_card hsub
    cases a with
    | unknown => exact Nat.zero_le _
    | only store =>
      simp only [rank]
      omega
    | among T => simpa [rank, stores] using hcard

theorem Le.rank_lt (h : a.Le b) (hne : a ≠ b) : a.rank < b.rank := by
  obtain rfl | ⟨S, rfl, hsub⟩ := h
  · exact absurd rfl hne
  · cases a with
    | unknown => simp [rank]
    | only store =>
      simp only [rank]
      omega
    | among T =>
      have hlt : T.card < S.card := by
        apply Finset.card_lt_card
        refine Finset.ssubset_iff_subset_ne.mpr ⟨hsub, ?_⟩
        rintro rfl
        exact hne rfl
      simpa [rank] using hlt

end Contents

/-- What each slot holds. -/
abbrev Slots := ℕ → Contents

namespace Slots

def Le (f g : Slots) : Prop := ∀ slot, (f slot).Le (g slot)

def join (f g : Slots) : Slots := fun slot => (f slot).join (g slot)

instance : IsPartialOrder Slots Le where
  refl f slot := Contents.Le.refl (f slot)
  trans _ _ _ hab hbc slot := (hab slot).trans (hbc slot)
  antisymm _ _ hab hba := funext fun slot => (hab slot).antisymm (hba slot)

end Slots

/-- The value's set, if it names one, is there. -/
def Held.In (sets : DirtySets) : Held → Prop
  | .dirty set => set < sets.length
  | _ => True

namespace DirtySets

variable {sets sets' : DirtySets} {held other : Held}

def view (sets : DirtySets) : Held → Contents
  | .unknown => .unknown
  | .store store => .only store
  | .dirty set => .among (sets.getSet set)

theorem mark_eq (held : Held) (dirty : Finset ℕ) : sets.mark held dirty = dirty ∪ (sets.view held).stores := by
  cases held with
  | unknown => simp [mark, view, Contents.stores]
  | store store => rw [mark, view, Contents.stores, Finset.union_comm, Finset.insert_eq]
  | dirty set => rfl

theorem in_of_prefix (h : sets <+: sets') (hin : held.In sets) : held.In sets' := by
  cases held with
  | dirty set => exact hin.trans_le h.length_le
  | _ => trivial

theorem view_of_prefix (h : sets <+: sets') (hin : held.In sets) : sets'.view held = sets.view held := by
  obtain ⟨more, rfl⟩ := h
  cases held with
  | dirty set =>
    have hset : (sets ++ more).getSet set = sets.getSet set := by
      unfold getSet
      rw [List.getD_eq_getElem?_getD, List.getD_eq_getElem?_getD, List.getElem?_append_left hin]
    rw [view, view, hset]
  | _ => rfl

/-- What absorbing a value into another leaves: its join, and a change exactly when that is another one. -/
structure Absorbs (sets : DirtySets) (held other : Held) (result : DirtySets × Held × Bool) : Prop where
  grown : sets <+: result.1
  inside : result.2.1.In result.1
  joined : result.1.view result.2.1 = (sets.view held).join (sets.view other)
  changed : result.2.2 = true ↔ result.1.view result.2.1 ≠ sets.view held

theorem absorbs_same (hin : held.In sets) (hle : (sets.view other).Le (sets.view held)) :
    Absorbs sets held other (sets, held, false) where
  grown := List.prefix_refl sets
  inside := hin
  joined := (Contents.le_join_left _ _).antisymm (Contents.join_le (Contents.Le.refl _) hle)
  changed := by simp

theorem holds_dirty {set store : ℕ} : sets.holds (.dirty set) store = true ↔ store ∈ sets.getSet set := by
  simp [holds]

theorem covers_iff : sets.covers held other = true ↔
    ∃ set, held = .dirty set ∧ (sets.view other).stores ⊆ sets.getSet set := by
  unfold covers
  cases held with
  | dirty set =>
    cases other with
    | unknown => simp [view, Contents.stores]
    | store store => simp [holds_dirty, view, Contents.stores]
    | dirty other =>
      simp only [decide_eq_true_eq, holds_dirty, view, Contents.stores]
      constructor
      · intro h
        exact ⟨set, rfl, h⟩
      · rintro ⟨set', hset, h⟩
        cases hset
        exact h
  | _ => simp

theorem absorb_absorbs (hin : held.In sets) (hother : other.In sets) :
    Absorbs sets held other (sets.absorb held other) := by
  unfold absorb
  split_ifs with heq hcov
  · exact absorbs_same hin (heq ▸ Contents.Le.refl _)
  · obtain ⟨set, rfl, hsub⟩ := covers_iff.mp hcov
    exact absorbs_same hin (.inr ⟨_, rfl, hsub⟩)
  · have hviews : sets.view held ≠ sets.view other := by
      intro hviews
      cases held with
      | dirty set => exact hcov (covers_iff.mpr ⟨set, rfl, by rw [← hviews]; exact Finset.Subset.refl _⟩)
      | unknown => cases other <;> simp_all [view]
      | store store => cases other <;> simp_all [view]
    have hraised : (sets.view held).join (sets.view other) ≠ sets.view held := by
      intro hjoin
      have hle := Contents.le_join_right (sets.view held) (sets.view other)
      rw [hjoin] at hle
      obtain h | ⟨S, hS, hsub⟩ := hle
      · exact hviews h.symm
      · cases held with
        | dirty set =>
          cases hS
          exact hcov (covers_iff.mpr ⟨set, rfl, hsub⟩)
        | _ => cases hS
    have hadded : Absorbs sets held other
        (sets ++ [sets.mark other (sets.mark held ∅)], .dirty sets.length, true) := by
      have hview : (sets ++ [sets.mark other (sets.mark held ∅)]).view (.dirty sets.length) =
          (sets.view held).join (sets.view other) := by
        have hget : (sets ++ [sets.mark other (sets.mark held ∅)]).getSet sets.length =
            sets.mark other (sets.mark held ∅) := by simp [getSet]
        rw [view, hget, mark_eq, mark_eq, Finset.empty_union, Contents.join, if_neg hviews]
      refine ⟨List.prefix_append _ _, ?_, hview, ?_⟩
      · simp [Held.In]
      · rw [hview]
        simpa using hraised
    split
    · next set => 
      have hjoin : (sets.view .unknown).join (sets.view (.dirty set)) = sets.view (.dirty set) := by
        simp [view, Contents.join, Contents.stores]
      refine ⟨List.prefix_refl _, hother, hjoin.symm, ?_⟩
      simp [view]
    · exact hadded

end DirtySets

/-- What the slots of a state hold; a slot past its end holds nothing known. -/
def slots (sets : DirtySets) (state : List Held) : Slots := fun slot => sets.view (state.getD slot .unknown)

/-- What the slots hold once the overrides are applied. -/
def overridden (overrides : List (ℕ × Held)) (f : Slots) : Slots := fun slot =>
  match overrides.find? fun override => override.1 == slot with
  | some override => DirtySets.view [] override.2
  | none => f slot

/-- A list of values of the analysis that names only sets that are there. -/
structure StateIn (width : ℕ) (sets : DirtySets) (state : List Held) : Prop where
  length : state.length = width
  inside : ∀ held ∈ state, held.In sets

namespace StateIn

variable {width : ℕ} {sets sets' : DirtySets} {state base : List Held}

theorem getD_in (h : StateIn width sets state) (slot : ℕ) : (state.getD slot .unknown).In sets := by
  rw [List.getD_eq_getElem?_getD]
  cases hslot : state[slot]? with
  | none => trivial
  | some held => exact h.inside held (List.mem_of_getElem? hslot)

theorem mono (h : StateIn width sets state) (hsets : sets <+: sets') : StateIn width sets' state :=
  ⟨h.length, fun held hmem => DirtySets.in_of_prefix hsets (h.inside held hmem)⟩

theorem slots_eq (h : StateIn width sets state) (hsets : sets <+: sets') :
    slots sets' state = slots sets state :=
  funext fun slot => DirtySets.view_of_prefix hsets (h.getD_in slot)

theorem slots_outside (h : StateIn width sets state) {slot : ℕ} (hslot : width ≤ slot) :
    slots sets state slot = .unknown := by
  unfold slots
  have hnone : state[slot]? = none := List.getElem?_eq_none (by rw [h.length]; exact hslot)
  rw [List.getD_eq_getElem?_getD, hnone]
  rfl

end StateIn

/-- Overrides of an instruction: each of another slot, by a value that names no set. -/
structure Plain (width : ℕ) (overrides : List (ℕ × Held)) : Prop where
  nodup : (overrides.map Prod.fst).Nodup
  inside : ∀ override ∈ overrides, override.1 < width
  simple : ∀ override ∈ overrides, override.2.In []

/-- What replaces a slot's value. -/
def incoming (overrides : List (ℕ × Held)) (slot : ℕ) (base : Held) : Held :=
  ((overrides.find? fun override => override.1 == slot).map Prod.snd).getD base

namespace Plain

variable {width : ℕ} {sets : DirtySets} {overrides : List (ℕ × Held)} {base : List Held}

theorem nil (width : ℕ) : Plain width [] := ⟨by simp, by simp, by simp⟩

theorem incoming_in (h : Plain width overrides) {slot : ℕ} {held : Held} (hin : held.In sets) :
    (incoming overrides slot held).In sets := by
  unfold incoming
  cases hfind : overrides.find? fun override => override.1 == slot with
  | none => exact hin
  | some override =>
    have hsimple := h.simple override (List.mem_of_find?_eq_some hfind)
    exact DirtySets.in_of_prefix List.nil_prefix hsimple

theorem view_incoming (h : Plain width overrides) (slot : ℕ) (held : Held) :
    sets.view (incoming overrides slot held) =
      match overrides.find? fun override => override.1 == slot with
      | some override => DirtySets.view [] override.2
      | none => sets.view held := by
  unfold incoming
  cases hfind : overrides.find? fun override => override.1 == slot with
  | none => rfl
  | some override =>
    have hsimple := h.simple override (List.mem_of_find?_eq_some hfind)
    exact DirtySets.view_of_prefix List.nil_prefix hsimple

theorem override_getD (h : Plain width overrides) (hbase : base.length = width) (slot : ℕ) :
    (DirtySets.override base overrides).getD slot .unknown = incoming overrides slot (base.getD slot .unknown) := by
  induction overrides generalizing base with
  | nil => rfl
  | cons head rest ih =>
    obtain ⟨at', held⟩ := head
    have hrest : Plain width rest :=
      ⟨(List.nodup_cons.mp h.nodup).2, fun o ho => h.inside o (List.mem_cons_of_mem _ ho),
        fun o ho => h.simple o (List.mem_cons_of_mem _ ho)⟩
    have hat : at' < base.length := hbase ▸ h.inside _ (List.mem_cons_self ..)
    have hstep := ih hrest (show (base.set at' held).length = width by simpa using hbase)
    change (DirtySets.override (base.set at' held) rest).getD slot .unknown = _
    rw [hstep]
    by_cases hslot : at' = slot
    · subst hslot
      have hnone : rest.find? (fun override => override.1 == at') = none := by
        apply List.find?_eq_none.mpr
        intro o ho heq
        apply (List.nodup_cons.mp h.nodup).1
        exact List.mem_map.mpr ⟨o, ho, by simpa using heq⟩
      simp [incoming, hnone, hat]
    · have hskip : ((at' == slot) = false) := by simpa using hslot
      have hget : (base.set at' held).getD slot .unknown = base.getD slot .unknown := by
        rw [List.getD_eq_getElem?_getD, List.getD_eq_getElem?_getD, List.getElem?_set_ne hslot]
      rw [hget]
      simp [incoming, hskip]

theorem override_in (h : Plain width overrides) (hbase : StateIn width sets base) :
    StateIn width sets (DirtySets.override base overrides) := by
  have hlen : (DirtySets.override base overrides).length = width := by
    rw [← hbase.length]
    unfold DirtySets.override
    induction overrides generalizing base with
    | nil => rfl
    | cons head rest ih =>
      rw [List.foldl_cons]
      have hrest : Plain width rest :=
        ⟨(List.nodup_cons.mp h.nodup).2, fun o ho => h.inside o (List.mem_cons_of_mem _ ho),
          fun o ho => h.simple o (List.mem_cons_of_mem _ ho)⟩
      have hset : StateIn width sets (base.set head.1 head.2) := by
        refine ⟨by simpa using hbase.length, fun held hmem => ?_⟩
        rcases List.mem_or_eq_of_mem_set hmem with hmem | rfl
        · exact hbase.inside held hmem
        · exact DirtySets.in_of_prefix List.nil_prefix (h.simple head (List.mem_cons_self ..))
      rw [ih hrest hset, List.length_set]
  refine ⟨hlen, fun held hmem => ?_⟩
  obtain ⟨slot, hslot⟩ := List.getElem?_of_mem hmem
  have hget := h.override_getD hbase.length slot
  rw [List.getD_eq_getElem?_getD, hslot, Option.getD_some] at hget
  rw [hget]
  exact h.incoming_in (hbase.getD_in slot)

theorem slots_override (h : Plain width overrides) (hbase : StateIn width sets base) :
    slots sets (DirtySets.override base overrides) = overridden overrides (slots sets base) := by
  funext slot
  unfold slots
  rw [h.override_getD hbase.length, h.view_incoming]
  rfl

end Plain

namespace DirtySets

variable {width : ℕ} {sets : DirtySets} {overrides : List (ℕ × Held)}

theorem absorbAll_spec (hplain : Plain width overrides) : ∀ (current base : List Held) (sets : DirtySets)
    (slot : ℕ), (∀ held ∈ current, held.In sets) → (∀ held ∈ base, held.In sets) →
    current.length = base.length →
    let result := absorbAll overrides sets slot current base
    sets <+: result.1 ∧ (∀ held ∈ result.2.1, held.In result.1) ∧ result.2.1.length = current.length ∧
      (∀ k < current.length, result.1.view (result.2.1.getD k .unknown) =
        (sets.view (current.getD k .unknown)).join
          (sets.view (incoming overrides (slot + k) (base.getD k .unknown)))) ∧
      (result.2.2 = true ↔ ∃ k < current.length,
        result.1.view (result.2.1.getD k .unknown) ≠ sets.view (current.getD k .unknown)) := by
  intro current
  induction current with
  | nil =>
    intro base sets slot _ _ _
    simp [absorbAll]
  | cons held current ih =>
    intro base sets slot hcurrent hbase hlen
    cases base with
    | nil => simp at hlen
    | cons b rest =>
      have hheld := hcurrent held (List.mem_cons_self ..)
      have hb : (incoming overrides slot b).In sets := hplain.incoming_in (hbase b (List.mem_cons_self ..))
      have hone := absorb_absorbs hheld hb
      rcases hresult : sets.absorb held (incoming overrides slot b) with ⟨sets₁, held₁, changed₁⟩
      rw [hresult] at hone
      have hsub := hone.grown
      have htail := ih rest sets₁ (slot + 1)
        (fun h hmem => in_of_prefix hsub (hcurrent h (List.mem_cons_of_mem _ hmem)))
        (fun h hmem => in_of_prefix hsub (hbase h (List.mem_cons_of_mem _ hmem))) (by simpa using hlen)
      rcases hall : absorbAll overrides sets₁ (slot + 1) current rest with ⟨sets₂, current₂, changed₂⟩
      rw [hall] at htail
      obtain ⟨hgrown, hinside, hlength, hview, hchanged⟩ := htail
      have hunfold : absorbAll overrides sets slot (held :: current) (b :: rest) =
          (sets₂, held₁ :: current₂, changed₁ || changed₂) := by
        have : ((overrides.find? fun override => override.1 == slot).map Prod.snd).getD b =
            incoming overrides slot b := rfl
        simp only [absorbAll, this, hresult, hall]
      have hhead : sets₂.view held₁ = sets₁.view held₁ := view_of_prefix hgrown hone.inside
      have hold : ∀ k, sets₁.view (current.getD k .unknown) = sets.view (current.getD k .unknown) := by
        intro k
        apply view_of_prefix hsub
        rw [List.getD_eq_getElem?_getD]
        cases hk : current[k]? with
        | none => trivial
        | some h => exact hcurrent h (List.mem_cons_of_mem _ (List.mem_of_getElem? hk))
      have hnew : ∀ k, sets₁.view (incoming overrides (slot + 1 + k) (rest.getD k .unknown)) =
          sets.view (incoming overrides (slot + 1 + k) (rest.getD k .unknown)) := by
        intro k
        apply view_of_prefix hsub
        apply hplain.incoming_in
        rw [List.getD_eq_getElem?_getD]
        cases hk : rest[k]? with
        | none => trivial
        | some h => exact hbase h (List.mem_cons_of_mem _ (List.mem_of_getElem? hk))
      rw [hunfold]
      refine ⟨hsub.trans hgrown, ?_, by simpa using hlength, ?_, ?_⟩
      · intro h hmem
        rcases List.mem_cons.mp hmem with rfl | hmem
        · exact in_of_prefix hgrown hone.inside
        · exact hinside h hmem
      · intro k hk
        cases k with
        | zero =>
          simp only [List.getD_cons_zero, hhead]
          exact hone.joined
        | succ k =>
          have := hview k (by simpa using hk)
          rw [hold, hnew] at this
          simpa [Nat.add_assoc, Nat.add_comm 1 k] using this
      · rw [Bool.or_eq_true, hone.changed, hchanged]
        constructor
        · rintro (h | ⟨k, hk, h⟩)
          · exact ⟨0, by simp, by simpa [hhead] using h⟩
          · rw [hold] at h
            exact ⟨k + 1, by simpa using hk, by simpa using h⟩
        · rintro ⟨k, hk, h⟩
          cases k with
          | zero => exact .inl (by simpa [hhead] using h)
          | succ k =>
            refine .inr ⟨k, by simpa using hk, ?_⟩
            rw [hold]
            simpa using h

/-- Joining a state into another joins what their slots hold. -/
theorem joinInto_spec (hplain : Plain width overrides) {current : Option (List Held)} {base : List Held}
    (hcurrent : ∀ state, current = some state → StateIn width sets state) (hbase : StateIn width sets base) :
    let result := joinInto sets current base overrides
    let arrived := overridden overrides (slots sets base)
    sets <+: result.1 ∧ StateIn width result.1 result.2.1 ∧
      slots result.1 result.2.1 = current.elim arrived (fun state => (slots sets state).join arrived) ∧
      (result.2.2 = true ↔ ∀ state, current = some state → slots result.1 result.2.1 ≠ slots sets state) := by
  cases current with
  | none => exact ⟨List.prefix_refl _, hplain.override_in hbase, hplain.slots_override hbase, by simp [joinInto]⟩
  | some state =>
    have hstate := hcurrent state rfl
    obtain ⟨hgrown, hinside, hlength, hview, hchanged⟩ := absorbAll_spec hplain state base sets 0
      hstate.inside hbase.inside (hstate.length.trans hbase.length.symm)
    have hin : StateIn width (absorbAll overrides sets 0 state base).1 (absorbAll overrides sets 0 state base).2.1 :=
      ⟨hlength.trans hstate.length, hinside⟩
    have hjoin : slots (absorbAll overrides sets 0 state base).1 (absorbAll overrides sets 0 state base).2.1 =
        (slots sets state).join (overridden overrides (slots sets base)) := by
      funext slot
      by_cases hslot : slot < width
      · have := hview slot (by rw [hstate.length]; exact hslot)
        rw [Nat.zero_add, hplain.view_incoming] at this
        exact this
      · have hout := Nat.le_of_not_lt hslot
        have hnone : overrides.find? (fun override => override.1 == slot) = none := by
          apply List.find?_eq_none.mpr
          intro o ho heq
          have := hplain.inside o ho
          have heq : o.1 = slot := by simpa using heq
          omega
        rw [hin.slots_outside hout, Slots.join, hstate.slots_outside hout, overridden, hnone,
          hbase.slots_outside hout]
        rfl
    refine ⟨hgrown, hin, hjoin, ?_⟩
    change (absorbAll overrides sets 0 state base).2.2 = true ↔ _
    rw [hchanged]
    constructor
    · rintro ⟨k, -, hk⟩ state' hsome heq
      cases hsome
      exact hk (congrFun heq k)
    · intro hne
      have hne := hne state rfl
      obtain ⟨k, hk⟩ := Function.ne_iff.mp hne
      refine ⟨k, ?_, hk⟩
      by_contra hout
      have hout := Nat.le_of_not_lt hout
      rw [hstate.length] at hout
      exact hk (by rw [hstate.slots_outside hout, joinInto, hin.slots_outside hout])

end DirtySets

end Krusty.Jvm.BytecodePasses.Temporaries
