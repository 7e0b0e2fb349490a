import Mathlib.Logic.Relation
import Krusty.Jvm.BytecodePasses.RedundantBoxing.Candidates

/-! Boxes connected by merges stand or fall together. -/
namespace Krusty.Jvm.BytecodePasses.RedundantBoxing

open Relation Refinement

/-- What was done with the boxes, whatever came of it. -/
structure History where
  count : ℕ
  merges : List (BoxId × BoxId)
  removed : List BoxId

namespace History

def empty : History := ⟨0, [], []⟩

variable (history : History)

/-- Removing a box that was not made yet does nothing, and merging one is a panic. -/
def apply : Candidates.Op → Option (Option BoxId × History)
  | .add _ _ _ _ => some (some history.count, { history with count := history.count + 1 })
  | .remove id =>
    some (none, { history with removed := if id < history.count then id :: history.removed else history.removed })
  | .merge v w =>
    if v < history.count ∧ w < history.count then
      some (none, { history with merges := (v, w) :: history.merges })
    else none

def run : List Candidates.Op → Option (List (Option BoxId) × History) := Refinement.run apply history

/-- Connected through merges, in either direction. -/
def Connected : BoxId → BoxId → Prop := EqvGen fun v w => (v, w) ∈ history.merges

end History

namespace Candidates

variable {candidates c c' : Candidates} {history : History} {id v w : BoxId} {fuel : ℕ}

/-- The boxes one was merged with. -/
def merged (candidates : Candidates) (id : BoxId) : List BoxId :=
  match candidates.values[id]? with
  | some value => value.mergedWith
  | none => []

/-- The safe set is the boxes whose flag is set. -/
structure Flagged (candidates : Candidates) : Prop where
  flag : ∀ id value, candidates.values[id]? = some value → (id ∈ candidates.safe ↔ value.safeToRemove = true)
  bound : ∀ id ∈ candidates.safe, id < candidates.values.length
  sorted : candidates.safe.Pairwise (· < ·)

/-- What a removal that starts at the boxes in `seeds` does. -/
structure Swept (c c' : Candidates) (seeds : BoxId → Prop) : Prop where
  length : c'.values.length = c.values.length
  merged : ∀ v, c'.merged v = c.merged v
  flagged : c'.Flagged
  sub : ∀ id ∈ c'.safe, id ∈ c.safe
  gone : ∀ id, seeds id → id ∉ c'.safe
  closed : ∀ v ∈ c.safe, v ∉ c'.safe → ∀ w ∈ c.merged v, w ∉ c'.safe
  cause : ∀ v ∈ c.safe, v ∉ c'.safe → ∃ id, seeds id ∧ ReflTransGen (fun v w => w ∈ c.merged v) id v

theorem Swept.refl (h : c.Flagged) (seeds : BoxId → Prop) (hgone : ∀ id, seeds id → id ∉ c.safe) :
    Swept c c seeds where
  length := rfl
  merged _ := rfl
  flagged := h
  sub _ hid := hid
  gone := hgone
  closed _ hsafe hgone := absurd hsafe hgone
  cause _ hsafe hgone := absurd hsafe hgone

/-- One removal after another. -/
theorem Swept.trans {c'' : Candidates} {seeds seeds' : BoxId → Prop} (h : Swept c c' seeds)
    (h' : Swept c' c'' seeds') : Swept c c'' fun id => seeds id ∨ seeds' id where
  length := h'.length.trans h.length
  merged v := (h'.merged v).trans (h.merged v)
  flagged := h'.flagged
  sub id hid := h.sub id (h'.sub id hid)
  gone := by
    rintro id (hid | hid)
    · exact fun hsafe => h.gone id hid (h'.sub id hsafe)
    · exact h'.gone id hid
  closed := by
    intro v hv hgone w hw hsafe
    by_cases hv' : v ∈ c'.safe
    · exact h'.closed v hv' hgone w (by rwa [h.merged]) hsafe
    · exact h.closed v hv hv' w hw (h'.sub w hsafe)
  cause := by
    intro v hv hgone
    by_cases hv' : v ∈ c'.safe
    · obtain ⟨id, hid, hpath⟩ := h'.cause v hv' hgone
      refine ⟨id, .inr hid, ?_⟩
      simpa only [h.merged] using hpath
    · obtain ⟨id, hid, hpath⟩ := h.cause v hv hv'
      exact ⟨id, .inl hid, hpath⟩

variable {value : BoxedValue}

theorem flagged_drop (h : c.Flagged) (hvalue : c.values[id]? = some value) : (c.drop id value).Flagged := by
  have hlt := (List.getElem?_eq_some_iff.mp hvalue).1
  constructor
  case flag =>
    intro v other hother
    rw [drop, List.getElem?_set] at hother
    by_cases hv : id = v
    · subst hv
      rw [if_pos rfl, if_pos hlt] at hother
      cases hother
      simp [drop]
    · rw [if_neg hv] at hother
      rw [← h.flag v other hother, drop, SortedSets.mem_remove]
      exact ⟨And.left, fun hsafe => ⟨hsafe, Ne.symm hv⟩⟩
  case bound =>
    intro v hv
    rw [drop, SortedSets.mem_remove] at hv
    exact (h.bound v hv.1).trans_eq (List.length_set ..).symm
  case sorted => exact SortedSets.pairwise_remove h.sorted

theorem merged_drop (hvalue : c.values[id]? = some value) (v : BoxId) :
    (c.drop id value).merged v = c.merged v := by
  have hlt := (List.getElem?_eq_some_iff.mp hvalue).1
  rw [merged, merged, drop, List.getElem?_set]
  by_cases hv : id = v
  · subst hv
    rw [if_pos rfl, if_pos hlt, hvalue]
  · rw [if_neg hv]

/-- Removals of several boxes, each by a removal that does what it should. -/
theorem foldlM_removeFrom (hremove : ∀ {c : Candidates} (id : BoxId), c.Flagged → c.safe.length < fuel →
      ∃ c', removeFrom fuel c id = some c' ∧ Swept c c' (· = id))
    (ids : List BoxId) (h : c.Flagged) (hfuel : c.safe.length < fuel) :
    ∃ c', ids.foldlM (removeFrom fuel) c = some c' ∧ Swept c c' (· ∈ ids) := by
  induction ids generalizing c with
  | nil => exact ⟨c, rfl, .refl h _ fun id hid => absurd hid List.not_mem_nil⟩
  | cons id ids ih =>
    obtain ⟨c₁, hc₁, hswept₁⟩ := hremove id h hfuel
    have hsub : c₁.safe ⊆ c.safe := hswept₁.sub
    have hnodup : c₁.safe.Nodup := hswept₁.flagged.sorted.nodup
    have hshort : c₁.safe.length < fuel := (List.subperm_of_subset hnodup hsub).length_le.trans_lt hfuel
    obtain ⟨c₂, hc₂, hswept₂⟩ := ih hswept₁.flagged hshort
    refine ⟨c₂, ?_, ?_⟩
    · rw [List.foldlM_cons, hc₁]
      exact hc₂
    · simpa only [List.mem_cons] using hswept₁.trans hswept₂

/-- A removal ends, after what is connected to the box is gone from the safe set, and nothing else. -/
theorem removeFrom_spec (h : c.Flagged) (hfuel : c.safe.length < fuel) (id : BoxId) :
    ∃ c', removeFrom fuel c id = some c' ∧ Swept c c' (· = id) := by
  induction fuel generalizing c id with
  | zero => exact absurd hfuel (Nat.not_lt_zero _)
  | succ fuel ih =>
    rw [removeFrom]
    split_ifs with hid
    · obtain ⟨value, hvalue⟩ : ∃ value, c.values[id]? = some value :=
        ⟨_, List.getElem?_eq_getElem (h.bound id hid)⟩
      have hmerged : c.merged id = value.mergedWith := by rw [merged, hvalue]
      have hshort : (c.drop id value).safe.length < fuel :=
        (SortedSets.length_remove_lt hid).trans_le (Nat.le_of_lt_succ hfuel)
      obtain ⟨c', hc', hswept⟩ :=
        foldlM_removeFrom (fun id h hfuel => ih h hfuel id) value.mergedWith (flagged_drop h hvalue) hshort
      have hdrop : ∀ v, v ∈ (c.drop id value).safe ↔ v ∈ c.safe ∧ v ≠ id := fun v => SortedSets.mem_remove
      refine ⟨c', ?_, ?_⟩
      · rw [hvalue]
        exact hc'
      · constructor
        case length => exact hswept.length.trans (List.length_set ..)
        case merged => exact fun v => (hswept.merged v).trans (merged_drop hvalue v)
        case flagged => exact hswept.flagged
        case sub => exact fun v hv => ((hdrop v).mp (hswept.sub v hv)).1
        case gone =>
          intro v hv hsafe
          exact ((hdrop v).mp (hswept.sub v hsafe)).2 hv
        case closed =>
          intro v hv hgone w hw
          by_cases hvid : v = id
          · subst hvid
            exact hswept.gone w (hmerged ▸ hw)
          · exact hswept.closed v ((hdrop v).mpr ⟨hv, hvid⟩) hgone w (by rwa [merged_drop hvalue])
        case cause =>
          intro v hv hgone
          refine ⟨id, rfl, ?_⟩
          by_cases hvid : v = id
          · rw [hvid]
          · obtain ⟨first, hfirst, hpath⟩ := hswept.cause v ((hdrop v).mpr ⟨hv, hvid⟩) hgone
            simp only [merged_drop hvalue] at hpath
            exact .head (hmerged ▸ hfirst) hpath
    · exact ⟨c, rfl, .refl h _ fun id' hid' => hid' ▸ hid⟩

theorem remove_spec (h : c.Flagged) (id : BoxId) : ∃ c', c.remove id = some c' ∧ Swept c c' (· = id) :=
  removeFrom_spec h (Nat.lt_succ_self _) id

/-- The safe set and the merges of the boxes against what was done with them. -/
structure Tracks (candidates : Candidates) (history : History) : Prop where
  count : candidates.values.length = history.count
  flagged : candidates.Flagged
  adjacent : ∀ v w, w ∈ candidates.merged v ↔ (v, w) ∈ history.merges ∨ (w, v) ∈ history.merges
  inside : ∀ pair ∈ history.merges, pair.1 < history.count ∧ pair.2 < history.count
  made : ∀ id ∈ history.removed, id < history.count
  gone : ∀ id ∈ history.removed, id ∉ candidates.safe
  closed : ∀ v < history.count, v ∉ candidates.safe → ∀ w ∈ candidates.merged v, w ∉ candidates.safe
  cause : ∀ v < history.count, v ∉ candidates.safe → ∃ id ∈ history.removed, history.Connected id v

/-- Connected boxes are both safe or neither is. -/
theorem Tracks.safe_iff_of_connected (h : candidates.Tracks history) (hconnected : history.Connected v w) :
    v ∈ candidates.safe ↔ w ∈ candidates.safe := by
  induction hconnected with
  | rel v w hmerge =>
    obtain ⟨hv, hw⟩ := h.inside _ hmerge
    constructor
    · intro hsafe
      by_contra hgone
      exact h.closed w hw hgone v ((h.adjacent w v).mpr (.inr hmerge)) hsafe
    · intro hsafe
      by_contra hgone
      exact h.closed v hv hgone w ((h.adjacent v w).mpr (.inl hmerge)) hsafe
  | refl v => rfl
  | symm v w _ ih => exact ih.symm
  | trans u v w _ _ ih ih' => exact ih.trans ih'

theorem Tracks.mem_safe_iff (h : candidates.Tracks history) (id : BoxId) :
    id ∈ candidates.safe ↔ id < history.count ∧ ∀ removed ∈ history.removed, ¬ history.Connected removed id := by
  constructor
  · intro hsafe
    refine ⟨h.count ▸ h.flagged.bound id hsafe, fun removed hremoved hconnected => ?_⟩
    exact h.gone removed hremoved ((h.safe_iff_of_connected hconnected).mpr hsafe)
  · rintro ⟨hlt, hnone⟩
    by_contra hgone
    obtain ⟨removed, hremoved, hconnected⟩ := h.cause id hlt hgone
    exact hnone removed hremoved hconnected

theorem tracks_empty : Tracks empty .empty where
  count := rfl
  flagged := ⟨fun id value h => by simp [empty] at h, fun id h => by simp [empty] at h, List.Pairwise.nil⟩
  adjacent := by simp [merged, empty, History.empty]
  inside := by simp [History.empty]
  made := by simp [History.empty]
  gone := by simp [History.empty]
  closed := by simp [History.empty]
  cause := by simp [History.empty]

theorem connected_of_path (hadjacent : ∀ v w, w ∈ c.merged v → history.Connected v w)
    (hpath : ReflTransGen (fun v w => w ∈ c.merged v) v w) : history.Connected v w := by
  induction hpath with
  | refl => exact .refl _
  | tail _ hedge ih => exact .trans _ _ _ ih (hadjacent _ _ hedge)

theorem Tracks.connected (h : candidates.Tracks history) (hw : w ∈ candidates.merged v) : history.Connected v w := by
  obtain hmerge | hmerge := (h.adjacent v w).mp hw
  · exact .rel _ _ hmerge
  · exact .symm _ _ (.rel _ _ hmerge)

theorem Tracks.add (h : candidates.Tracks history) (hmerged : value.mergedWith = [])
    (hsafe : value.safeToRemove = true) :
    Tracks (candidates.add value).2 { history with count := history.count + 1 } := by
  have hmem : ∀ id, id ∈ (candidates.add value).2.safe ↔ id = history.count ∨ id ∈ candidates.safe := by
    intro id
    simp [Candidates.add, h.count]
  have hvalues : ∀ id, (candidates.add value).2.values[id]? =
      if id = history.count then some value else candidates.values[id]? := by
    intro id
    have happend : (candidates.add value).2.values = candidates.values ++ [value] := rfl
    rw [happend, ← h.count]
    obtain hlt | rfl | hgt := lt_trichotomy id candidates.values.length
    · rw [List.getElem?_append_left hlt, if_neg hlt.ne]
    · simp
    · rw [if_neg hgt.ne', List.getElem?_eq_none (by simpa using Nat.succ_le_of_lt hgt),
        List.getElem?_eq_none hgt.le]
  have hlt_of_old : ∀ {id}, id < history.count + 1 → id ≠ history.count → id < history.count := fun hlt hne =>
    lt_of_le_of_ne (Nat.le_of_lt_succ hlt) hne
  have hmergedAt : ∀ v, (candidates.add value).2.merged v = candidates.merged v := by
    intro v
    rw [merged, merged, hvalues]
    split_ifs with hv
    · rw [hv, List.getElem?_eq_none h.count.le]
      exact hmerged
    · rfl
  constructor
  case count => simp [Candidates.add, h.count]
  case flagged =>
    constructor
    case flag =>
      intro id other hother
      rw [hvalues] at hother
      rw [hmem]
      split_ifs at hother with hid
      · cases hother
        simp [hid, hsafe]
      · rw [← h.flagged.flag id other hother]
        exact ⟨fun hid' => hid'.resolve_left hid, .inr⟩
    case bound =>
      intro id hid
      have hlen : (candidates.add value).2.values.length = candidates.values.length + 1 := by
        simp [Candidates.add]
      obtain rfl | hid := (hmem id).mp hid
      · rw [hlen, h.count]
        exact Nat.lt_succ_self _
      · rw [hlen]
        exact Nat.lt_succ_of_lt (h.flagged.bound id hid)
    case sorted => exact SortedSets.pairwise_insert h.flagged.sorted
  case adjacent =>
    intro v w
    rw [hmergedAt]
    exact h.adjacent v w
  case inside =>
    intro pair hpair
    obtain ⟨hfirst, hsecond⟩ := h.inside pair hpair
    exact ⟨Nat.lt_succ_of_lt hfirst, Nat.lt_succ_of_lt hsecond⟩
  case made => exact fun id hid => Nat.lt_succ_of_lt (h.made id hid)
  case gone =>
    intro id hid hsafe
    obtain rfl | hsafe := (hmem id).mp hsafe
    · exact Nat.lt_irrefl _ (h.made _ hid)
    · exact h.gone id hid hsafe
  case closed =>
    intro v hv hgone w hw hsafe
    rw [hmem, not_or] at hgone
    rw [hmergedAt] at hw
    obtain rfl | hsafe := (hmem w).mp hsafe
    · obtain hmerge | hmerge := (h.adjacent v history.count).mp hw
      · exact Nat.lt_irrefl _ (h.inside _ hmerge).2
      · exact Nat.lt_irrefl _ (h.inside _ hmerge).1
    · exact h.closed v (hlt_of_old hv hgone.1) hgone.2 w hw hsafe
  case cause =>
    intro v hv hgone
    rw [hmem, not_or] at hgone
    exact h.cause v (hlt_of_old hv hgone.1) hgone.2

theorem Tracks.remove (h : candidates.Tracks history) (id : BoxId) :
    ∃ c', candidates.remove id = some c' ∧ c'.Tracks
      { history with removed := if id < history.count then id :: history.removed else history.removed } := by
  obtain ⟨c', hc', hswept⟩ := remove_spec h.flagged id
  refine ⟨c', hc', ?_⟩
  constructor
  case count => exact hswept.length.trans h.count
  case flagged => exact hswept.flagged
  case adjacent =>
    intro v w
    rw [hswept.merged]
    exact h.adjacent v w
  case inside => exact h.inside
  case made =>
    intro r hr
    split_ifs at hr with hid
    · obtain rfl | hr := List.mem_cons.mp hr
      · exact hid
      · exact h.made r hr
    · exact h.made r hr
  case gone =>
    intro r hr hsafe
    split_ifs at hr with hid
    · obtain rfl | hr := List.mem_cons.mp hr
      · exact hswept.gone r rfl hsafe
      · exact h.gone r hr (hswept.sub r hsafe)
    · exact h.gone r hr (hswept.sub r hsafe)
  case closed =>
    intro v hv hgone w hw
    rw [hswept.merged] at hw
    by_cases hsafe : v ∈ candidates.safe
    · exact hswept.closed v hsafe hgone w hw
    · exact fun hw' => h.closed v hv hsafe w hw (hswept.sub w hw')
  case cause =>
    intro v hv hgone
    by_cases hsafe : v ∈ candidates.safe
    · obtain ⟨_, rfl, hpath⟩ := hswept.cause v hsafe hgone
      rename_i id
      have hid : id < history.count := by
        obtain rfl | ⟨w, hedge, -⟩ := ReflTransGen.cases_head hpath
        · exact hv
        · obtain hmerge | hmerge := (h.adjacent id w).mp hedge
          · exact (h.inside _ hmerge).1
          · exact (h.inside _ hmerge).2
      refine ⟨id, ?_, connected_of_path (fun v w hw => h.connected hw) hpath⟩
      rw [if_pos hid]
      exact List.mem_cons_self ..
    · obtain ⟨r, hr, hconnected⟩ := h.cause v hv hsafe
      refine ⟨r, ?_, hconnected⟩
      split_ifs
      · exact List.mem_cons_of_mem _ hr
      · exact hr

/-- One side of a merge. -/
theorem join_spec (h : c.Flagged) (hv : v < c.values.length) (w : BoxId) :
    ∃ c', c.join v w = some c' ∧ c'.values.length = c.values.length ∧ c'.safe = c.safe ∧ c'.Flagged ∧
      ∀ x y, y ∈ c'.merged x ↔ (x = v ∧ y = w) ∨ y ∈ c.merged x := by
  obtain ⟨value, hvalue⟩ : ∃ value, c.values[v]? = some value := ⟨_, List.getElem?_eq_getElem hv⟩
  refine ⟨{ c with values := c.values.set v { value with mergedWith := SortedSets.insert w value.mergedWith } },
    by rw [join, hvalue]; rfl, List.length_set .., rfl, ?_, ?_⟩
  · refine ⟨fun x other hother => ?_, fun x hx => (h.bound x hx).trans_eq (List.length_set ..).symm, h.sorted⟩
    rw [List.getElem?_set] at hother
    by_cases hx : v = x
    · subst hx
      rw [if_pos rfl, if_pos hv] at hother
      cases hother
      exact h.flag v value hvalue
    · rw [if_neg hx] at hother
      exact h.flag x other hother
  · intro x y
    rw [merged, merged, List.getElem?_set]
    by_cases hx : v = x
    · subst hx
      rw [if_pos rfl, if_pos hv, hvalue]
      simp
    · simp [hx, Ne.symm hx]

/-- The boxes after a merge of `v` and `w` and the removal it may lead to. -/
theorem Tracks.of_joined (h : candidates.Tracks history) (hv : v < history.count) (hw : w < history.count)
    (hlen : c.values.length = candidates.values.length) (hsafe : c.safe = candidates.safe)
    (hmerged : ∀ x y, y ∈ c.merged x ↔ (x = w ∧ y = v) ∨ (x = v ∧ y = w) ∨ y ∈ candidates.merged x)
    {seeds : BoxId → Prop} (hswept : Swept c c' seeds)
    (hseeds : ∀ x, seeds x → (x = v ∧ w ∉ candidates.safe) ∨ (x = w ∧ v ∉ candidates.safe))
    (hboth : v ∉ candidates.safe → w ∉ c'.safe) (hboth' : w ∉ candidates.safe → v ∉ c'.safe) :
    c'.Tracks { history with merges := (v, w) :: history.merges } := by
  have hmono : ∀ {x y}, history.Connected x y →
      History.Connected { history with merges := (v, w) :: history.merges } x y := by
    intro x y hxy
    exact hxy.mono fun a b hab => List.mem_cons_of_mem _ hab
  have hmerge : History.Connected { history with merges := (v, w) :: history.merges } v w :=
    .rel _ _ (List.mem_cons_self ..)
  have hconnected : ∀ x y, y ∈ c.merged x →
      History.Connected { history with merges := (v, w) :: history.merges } x y := by
    intro x y hy
    obtain ⟨rfl, rfl⟩ | ⟨rfl, rfl⟩ | hy := (hmerged x y).mp hy
    · exact .symm _ _ hmerge
    · exact hmerge
    · exact hmono (h.connected hy)
  constructor
  case count => exact hswept.length.trans (hlen.trans h.count)
  case flagged => exact hswept.flagged
  case adjacent =>
    intro x y
    rw [hswept.merged, hmerged, h.adjacent, List.mem_cons, List.mem_cons, Prod.mk.injEq, Prod.mk.injEq]
    tauto
  case inside =>
    intro pair hpair
    obtain rfl | hpair := List.mem_cons.mp hpair
    · exact ⟨hv, hw⟩
    · exact h.inside pair hpair
  case made => exact h.made
  case gone => exact fun r hr hr' => h.gone r hr (hsafe ▸ hswept.sub r hr')
  case closed =>
    intro x hx hgone y hy
    rw [hswept.merged] at hy
    by_cases hx' : x ∈ c.safe
    · exact hswept.closed x hx' hgone y hy
    · rw [hsafe] at hx'
      obtain ⟨rfl, rfl⟩ | ⟨rfl, rfl⟩ | hy := (hmerged x y).mp hy
      · exact hboth' hx'
      · exact hboth hx'
      · exact fun hy' => h.closed x hx hx' y hy (hsafe ▸ hswept.sub y hy')
  case cause =>
    intro x hx hgone
    by_cases hx' : x ∈ c.safe
    · -- newly gone, along a path from the end of the merge that was safe
      obtain ⟨seed, hseed, hpath⟩ := hswept.cause x hx' hgone
      have hto := connected_of_path hconnected hpath
      obtain ⟨rfl, hother⟩ | ⟨rfl, hother⟩ := hseeds seed hseed
      · obtain ⟨r, hr, hcause⟩ := h.cause w hw hother
        exact ⟨r, hr, .trans _ _ _ (hmono hcause) (.trans _ _ _ (.symm _ _ hmerge) hto)⟩
      · obtain ⟨r, hr, hcause⟩ := h.cause v hv hother
        exact ⟨r, hr, .trans _ _ _ (hmono hcause) (.trans _ _ _ hmerge hto)⟩
    · obtain ⟨r, hr, hcause⟩ := h.cause x hx (hsafe ▸ hx')
      exact ⟨r, hr, hmono hcause⟩

theorem Tracks.merge (h : candidates.Tracks history) (hv : v < history.count) (hw : w < history.count) :
    ∃ c', candidates.merge v w = some c' ∧ c'.Tracks { history with merges := (v, w) :: history.merges } := by
  obtain ⟨c₁, hc₁, hlen₁, hsafe₁, hflagged₁, hmerged₁⟩ := join_spec h.flagged (h.count ▸ hv) w
  have hw₁ : w < c₁.values.length := by rwa [hlen₁, h.count]
  obtain ⟨c₂, hc₂, hlen₂, hsafe₂, hflagged₂, hmerged₂⟩ := join_spec hflagged₁ hw₁ v
  have hlen : c₂.values.length = candidates.values.length := hlen₂.trans hlen₁
  have hsafe : c₂.safe = candidates.safe := hsafe₂.trans hsafe₁
  have hmerged : ∀ x y, y ∈ c₂.merged x ↔ (x = w ∧ y = v) ∨ (x = v ∧ y = w) ∨ y ∈ candidates.merged x := by
    intro x y
    rw [hmerged₂, hmerged₁]
  obtain ⟨first, hfirst⟩ : ∃ value, c₂.values[v]? = some value :=
    ⟨_, List.getElem?_eq_getElem (by rw [hlen, h.count]; exact hv)⟩
  obtain ⟨second, hsecond⟩ : ∃ value, c₂.values[w]? = some value :=
    ⟨_, List.getElem?_eq_getElem (by rw [hlen, h.count]; exact hw)⟩
  have hfirstSafe := hflagged₂.flag v first hfirst
  have hsecondSafe := hflagged₂.flag w second hsecond
  rw [hsafe] at hfirstSafe hsecondSafe
  simp only [Candidates.merge, hc₁, hc₂, hfirst, hsecond, Option.bind_eq_bind, Option.bind_some]
  cases hf : first.safeToRemove <;> cases hs : second.safeToRemove <;>
    simp only [hf, hs, iff_true, Bool.false_eq_true, iff_false] at hfirstSafe hsecondSafe
  · refine ⟨c₂, by simp, h.of_joined hv hw hlen hsafe hmerged
      (.refl hflagged₂ (fun _ => False) fun _ => False.elim) (fun _ => False.elim) ?_ ?_⟩
    · exact fun _ => hsafe ▸ hsecondSafe
    · exact fun _ => hsafe ▸ hfirstSafe
  · obtain ⟨c', hc', hswept⟩ := remove_spec hflagged₂ w
    refine ⟨c', by simpa using hc', h.of_joined hv hw hlen hsafe hmerged hswept ?_ ?_ ?_⟩
    · exact fun x hx => .inr ⟨hx, hfirstSafe⟩
    · exact fun _ => hswept.gone w rfl
    · exact fun hgone => absurd hsecondSafe hgone
  · obtain ⟨c', hc', hswept⟩ := remove_spec hflagged₂ v
    refine ⟨c', by simpa using hc', h.of_joined hv hw hlen hsafe hmerged hswept ?_ ?_ ?_⟩
    · exact fun x hx => .inl ⟨hx, hsecondSafe⟩
    · exact fun hgone => absurd hfirstSafe hgone
    · exact fun _ => hswept.gone v rfl
  · refine ⟨c₂, by simp, h.of_joined hv hw hlen hsafe hmerged
      (.refl hflagged₂ (fun _ => False) fun _ => False.elim) (fun _ => False.elim) ?_ ?_⟩
    · exact fun hgone => absurd hfirstSafe hgone
    · exact fun hgone => absurd hsecondSafe hgone

theorem join_eq_none (hv : c.values.length ≤ v) (w : BoxId) : c.join v w = none := by
  rw [join, List.getElem?_eq_none hv]
  rfl

theorem Tracks.merge_eq_none (h : candidates.Tracks history) (hout : ¬ (v < history.count ∧ w < history.count)) :
    candidates.merge v w = none := by
  rw [Candidates.merge]
  by_cases hv : v < history.count
  · have hw : history.count ≤ w := Nat.le_of_not_lt fun hw => hout ⟨hv, hw⟩
    obtain ⟨c₁, hc₁, hlen₁, -⟩ := join_spec h.flagged (h.count ▸ hv) w
    rw [hc₁]
    change (c₁.join w v).bind _ = none
    rw [join_eq_none (by rw [hlen₁, h.count]; exact hw)]
    rfl
  · rw [join_eq_none (by rw [h.count]; exact Nat.le_of_not_lt hv)]
    rfl

theorem Tracks.apply (h : candidates.Tracks history) (op : Op) :
    Option.Rel (Agree Tracks) (candidates.apply op) (history.apply op) := by
  cases op with
  | add boxedType unboxedType boxing progressionIterator =>
    exact .some ⟨congrArg some h.count, h.add rfl rfl⟩
  | remove id =>
    obtain ⟨c', hc', htracks⟩ := h.remove id
    rw [Candidates.apply, hc']
    exact .some ⟨rfl, htracks⟩
  | merge v w =>
    rw [Candidates.apply, History.apply]
    split_ifs with hin
    · obtain ⟨c', hc', htracks⟩ := h.merge hin.1 hin.2
      rw [hc']
      exact .some ⟨rfl, htracks⟩
    · rw [h.merge_eq_none hin]
      exact .none

theorem run_tracks (ops : List Op) : Option.Rel (Agree Tracks) (empty.run ops) (History.empty.run ops) :=
  run_rel (fun op h => h.apply op) tracks_empty ops

end Candidates

namespace History

variable {history history' : History}

/-- The same boxes, merged and removed in whatever order. -/
structure Alike (history history' : History) : Prop where
  count : history.count = history'.count
  merges : ∀ pair, pair ∈ history.merges ↔ pair ∈ history'.merges
  removed : ∀ id, id ∈ history.removed ↔ id ∈ history'.removed

theorem Alike.refl (history : History) : history.Alike history := ⟨rfl, fun _ => .rfl, fun _ => .rfl⟩

theorem Alike.connected (h : history.Alike history') (v w : BoxId) : history.Connected v w ↔ history'.Connected v w := by
  rw [Connected, Connected]
  simp only [h.merges]

theorem Alike.apply (h : history.Alike history') (op : Candidates.Op) :
    Option.Rel (fun a b => a.2.Alike b.2) (history.apply op) (history'.apply op) := by
  obtain ⟨hcount, hmerges, hremoved⟩ := h
  cases op with
  | add boxedType unboxedType boxing progressionIterator =>
    exact .some ⟨congrArg (· + 1) hcount, hmerges, hremoved⟩
  | remove id =>
    refine .some ⟨hcount, hmerges, fun r => ?_⟩
    rw [hcount]
    split_ifs
    · rw [List.mem_cons, List.mem_cons, hremoved]
    · exact hremoved r
  | merge v w =>
    rw [History.apply, History.apply, hcount]
    split_ifs
    · refine .some ⟨rfl, fun pair => ?_, hremoved⟩
      rw [List.mem_cons, List.mem_cons, hmerges]
    · exact .none

theorem Alike.trans {history'' : History} (h : history.Alike history') (h' : history'.Alike history'') :
    history.Alike history'' :=
  ⟨h.count.trans h'.count, fun pair => (h.merges pair).trans (h'.merges pair),
    fun id => (h.removed id).trans (h'.removed id)⟩

/-- The history after operations. -/
def after (history : History) (ops : List Candidates.Op) : Option History := (history.run ops).map Prod.snd

theorem after_nil (history : History) : history.after [] = some history := rfl

theorem after_cons (history : History) (op : Candidates.Op) (ops : List Candidates.Op) :
    history.after (op :: ops) = (history.apply op).bind fun a => a.2.after ops := by
  rw [after, run, Refinement.run]
  cases history.apply op with
  | none => rfl
  | some a =>
    change Option.map Prod.snd ((a.2.run ops).bind _) = (a.2.run ops).map Prod.snd
    cases a.2.run ops <;> rfl

theorem after_append (history : History) (ops more : List Candidates.Op) :
    history.after (ops ++ more) = (history.after ops).bind fun h => h.after more := by
  induction ops generalizing history with
  | nil => rfl
  | cons op ops ih =>
    rw [List.cons_append, after_cons, after_cons]
    cases history.apply op with
    | none => rfl
    | some a => exact ih a.2

theorem Alike.after (h : history.Alike history') (ops : List Candidates.Op) :
    Option.Rel Alike (history.after ops) (history'.after ops) := by
  induction ops generalizing history history' with
  | nil => exact .some h
  | cons op ops ih =>
    rw [after_cons, after_cons]
    exact rel_bind (fun hab => ih hab) (h.apply op)

/-- Two operations on boxes there are, in either order. -/
theorem apply_swap (history : History) {op op' : Candidates.Op} (hop : op.makes = false) (hop' : op'.makes = false) :
    Option.Rel Alike (history.after [op, op']) (history.after [op', op]) := by
  cases op with
  | add boxedType unboxedType boxing progressionIterator => cases hop
  | remove id =>
    cases op' with
    | add boxedType unboxedType boxing progressionIterator => cases hop'
    | remove id' =>
      refine .some ⟨rfl, fun pair => .rfl, fun r => ?_⟩
      dsimp only
      split_ifs <;> simp only [List.mem_cons]
      tauto
    | merge v w =>
      by_cases hin : v < history.count ∧ w < history.count
      · simp only [after_cons, after_nil, History.apply, if_pos hin, Option.bind_some]
        exact .some (.refl _)
      · simp only [after_cons, after_nil, History.apply, if_neg hin, Option.bind_some, Option.bind_none]
        exact .none
  | merge v w =>
    cases op' with
    | add boxedType unboxedType boxing progressionIterator => cases hop'
    | remove id' =>
      by_cases hin : v < history.count ∧ w < history.count
      · simp only [after_cons, after_nil, History.apply, if_pos hin, Option.bind_some]
        exact .some (.refl _)
      · simp only [after_cons, after_nil, History.apply, if_neg hin, Option.bind_some, Option.bind_none]
        exact .none
    | merge v' w' =>
      have hafter : ∀ v w v' w' : BoxId, history.after [.merge v w, .merge v' w'] =
          if (v < history.count ∧ w < history.count) ∧ v' < history.count ∧ w' < history.count then
            some { history with merges := (v', w') :: (v, w) :: history.merges }
          else none := by
        intro v w v' w'
        simp only [after_cons, after_nil, History.apply]
        split_ifs <;> simp_all
      rw [hafter, hafter]
      by_cases hin : (v < history.count ∧ w < history.count) ∧ v' < history.count ∧ w' < history.count
      · rw [if_pos hin, if_pos hin.symm]
        refine .some ⟨rfl, fun pair => ?_, fun r => .rfl⟩
        simp only [List.mem_cons]
        tauto
      · rw [if_neg hin, if_neg fun hin' => hin hin'.symm]
        exact .none

theorem after_perm {ops ops' : List Candidates.Op} (hperm : ops.Perm ops') (hmakes : ∀ op ∈ ops, op.makes = false)
    (history : History) : Option.Rel Alike (history.after ops) (history.after ops') := by
  induction hperm generalizing history with
  | nil => exact .some (.refl history)
  | cons op _ ih =>
    rw [after_cons, after_cons]
    cases history.apply op with
    | none => exact .none
    | some a => exact ih (fun op hop => hmakes op (List.mem_cons_of_mem _ hop)) a.2
  | swap op op' ops =>
    have hswap := apply_swap history (hmakes op' (by simp)) (hmakes op (by simp))
    have happend : ∀ op op' : Candidates.Op, history.after (op :: op' :: ops) =
        (history.after [op, op']).bind fun h => h.after ops := fun op op' => after_append history [op, op'] ops
    rw [happend, happend]
    exact rel_bind (fun hab => hab.after ops) hswap
  | trans hperm _ ih ih' =>
    have hsecond := ih' (fun op hop => hmakes op (hperm.mem_iff.mpr hop)) history
    exact rel_trans (R := Alike) (fun h h' => h.trans h') (ih hmakes history) hsecond

end History

namespace Candidates

variable {candidates candidates' : Candidates} {history history' : History}

theorem Tracks.safe_eq (h : candidates.Tracks history) (h' : candidates'.Tracks history')
    (halike : history.Alike history') : candidates.safe = candidates'.safe := by
  refine SortedSets.eq_of_mem_iff h.flagged.sorted h'.flagged.sorted fun id => ?_
  rw [h.mem_safe_iff, h'.mem_safe_iff]
  simp only [halike.count, halike.removed, halike.connected]

theorem safe_eq_of_alike {ops ops' : List Op}
    (h : Option.Rel History.Alike (History.empty.after ops) (History.empty.after ops')) :
    (empty.run ops).map (fun a => a.2.safe) = (empty.run ops').map fun a => a.2.safe := by
  have htracks := run_tracks ops
  have htracks' := run_tracks ops'
  rw [History.after, History.after] at h
  cases hhistory : History.empty.run ops <;> cases hhistory' : History.empty.run ops' <;>
    rw [hhistory, hhistory'] at h <;> rw [hhistory] at htracks <;> rw [hhistory'] at htracks' <;> cases h <;>
    cases hrun : empty.run ops <;> cases hrun' : empty.run ops' <;> rw [hrun] at htracks <;>
    rw [hrun'] at htracks' <;> cases htracks <;> cases htracks'
  rename_i halike _ _ h h'
  exact congrArg some (h.2.safe_eq h'.2 halike)

/-- The safe boxes after any operations: those whose flag is set, which are those no removed box is connected
to. Merges and removals of given boxes may come in any order. -/
theorem run_safe (ops : List Op) :
    Option.Rel (Agree fun candidates history =>
        (∀ id, id ∈ candidates.safe ↔ ∃ value, candidates.values[id]? = some value ∧ value.safeToRemove = true) ∧
        ∀ id, id ∈ candidates.safe ↔ id < history.count ∧ ∀ removed ∈ history.removed, ¬ history.Connected removed id)
      (empty.run ops) (History.empty.run ops) ∧
    ∀ made rest rest', ops = made ++ rest → (∀ op ∈ rest, op.makes = false) → rest.Perm rest' →
      (empty.run ops).map (fun a => a.2.safe) = (empty.run (made ++ rest')).map fun a => a.2.safe := by
  constructor
  · have htracks := run_tracks ops
    cases hrun : empty.run ops <;> cases hhistory : History.empty.run ops <;> rw [hrun, hhistory] at htracks <;>
      cases htracks
    · exact .none
    · rename_i h
      refine .some ⟨h.1, fun id => ⟨fun hid => ?_, ?_⟩, h.2.mem_safe_iff⟩
      · have hvalue := List.getElem?_eq_getElem (h.2.flagged.bound id hid)
        exact ⟨_, hvalue, (h.2.flagged.flag id _ hvalue).mp hid⟩
      · rintro ⟨value, hvalue, hflag⟩
        exact (h.2.flagged.flag id value hvalue).mpr hflag
  · rintro made rest rest' rfl hmakes hperm
    have halike : Option.Rel History.Alike (History.empty.after (made ++ rest)) (History.empty.after (made ++ rest')) := by
      rw [History.after_append, History.after_append]
      cases History.empty.after made with
      | none => exact .none
      | some history => exact History.after_perm hperm hmakes history
    exact safe_eq_of_alike halike

/-- Two boxes merged and one of them removed, in either order. -/
theorem run_safe_swap :
    let boxes := [Op.add "Ljava/lang/Integer;" "I" 0 none, .add "Ljava/lang/Integer;" "I" 3 none]
    (empty.run (boxes ++ [.merge 0 1, .remove 0])).map (fun a => a.2.safe) =
      (empty.run (boxes ++ [.remove 0, .merge 0 1])).map fun a => a.2.safe :=
  (run_safe _).2 _ [.merge 0 1, .remove 0] [.remove 0, .merge 0 1] rfl (by simp [Op.makes]) (.swap ..)

end Candidates

end Krusty.Jvm.BytecodePasses.RedundantBoxing
