import Krusty.Jvm.BytecodePasses.Temporaries.Settled
import Krusty.Lib.RoundRobin

/-! The fixpoint ends at the least assignment its flow is closed under. -/
namespace Krusty.Jvm.BytecodePasses.Temporaries

open Dataflow

namespace Fixpoint

/-- Every slot may hold every store. -/
def ceiling (task : Task) : Slots := fun slot =>
  if slot < task.width then .among (Finset.range task.graph.len) else .unknown

def height (task : Task) (f : Slots) : ℕ := ∑ slot ∈ Finset.range task.width, (f slot).rank

variable {task : Task} {index : ℕ}

theorem edgesAt_overrides {edge : ℕ × List (ℕ × Held)} (hmem : edge ∈ edgesAt task index) :
    edge.1 ∈ task.graph.successors index ∧ (edge.2 = [] ∨ edge.2 = overridesAt task index) := by
  unfold edgesAt at hmem
  unfold InstructionGraph.successors
  rcases List.mem_append.mp hmem with hmem | hmem
  · obtain ⟨target, htarget, rfl⟩ := List.mem_map.mp hmem
    exact ⟨List.mem_append_left _ htarget, .inr rfl⟩
  · obtain ⟨handler, hhandler, hmem⟩ := List.mem_flatMap.mp hmem
    have hsucc := List.mem_append_right (task.graph.normal index) hhandler
    rcases List.mem_cons.mp hmem with rfl | hmem
    · exact ⟨hsucc, .inl rfl⟩
    · rw [List.mem_singleton.mp hmem]
      exact ⟨hsucc, .inr rfl⟩

theorem mem_edges {f : Slots} {edge : ℕ × Slots} : edge ∈ edges task index f ↔
    index < task.graph.len ∧ ∃ e ∈ edgesAt task index, e.1 ≤ task.graph.len ∧ edge = (e.1, overridden e.2 f) := by
  unfold edges
  split
  · next h => simp [h, and_assoc, eq_comm]
  · next h => simp [h]

/-- What an instruction puts into a slot is its own value or nobody's. -/
theorem overridesAt_simple {override : ℕ × Held} (hmem : override ∈ overridesAt task index) :
    override.2 = .unknown ∨ override.2 = .store index := by
  unfold overridesAt at hmem
  split at hmem
  · next kind slot _ =>
    rcases List.mem_cons.mp hmem with rfl | hmem
    · dsimp only
      split
      · exact .inr rfl
      · exact .inl rfl
    · split_ifs at hmem with hwide
      · rw [List.mem_singleton.mp hmem]
        exact .inl rfl
      · cases hmem
  · rw [List.mem_singleton.mp hmem]
    exact .inl rfl
  · cases hmem

theorem unknown_le_ceiling : Slots.Le (fun _ => .unknown) (ceiling task) := by
  intro slot
  unfold ceiling
  split
  · exact .inr ⟨_, rfl, Finset.empty_subset _⟩
  · exact .inl rfl

theorem overridden_le_ceiling (hfits : Fits task) (hindex : index < task.graph.len) {f : Slots}
    (hf : Slots.Le f (ceiling task)) {overrides : List (ℕ × Held)}
    (hover : overrides = [] ∨ overrides = overridesAt task index) :
    Slots.Le (overridden overrides f) (ceiling task) := by
  rcases hover with rfl | rfl
  · exact hf
  · intro slot
    unfold overridden
    cases hfind : (overridesAt task index).find? fun override => override.1 == slot with
    | none => exact hf slot
    | some override =>
      have hmem := List.mem_of_find?_eq_some hfind
      have hslot : override.1 = slot := by simpa using List.find?_some hfind
      have hwidth : slot < task.width := hslot ▸ (hfits index).inside override hmem
      unfold ceiling
      rw [if_pos hwidth]
      refine .inr ⟨_, rfl, ?_⟩
      rcases overridesAt_simple hmem with hheld | hheld
      · simp [hheld, DirtySets.view, Contents.stores]
      · simpa [hheld, DirtySets.view, Contents.stores] using hindex

theorem height_lt {f g : Slots} (hle : Slots.Le f g) (hg : Slots.Le g (ceiling task)) (hne : f ≠ g) :
    height task f < height task g := by
  obtain ⟨slot, hslot⟩ := Function.ne_iff.mp hne
  have hwidth : slot < task.width := by
    by_contra hout
    have hbottom : ceiling task slot = .unknown := if_neg hout
    have hgslot : g slot = .unknown := by
      rcases hg slot with h | ⟨S, hS, -⟩
      · rw [h, hbottom]
      · rw [hbottom] at hS
        cases hS
    have hfslot : f slot = .unknown := by
      rcases hle slot with h | ⟨S, hS, -⟩
      · rw [h, hgslot]
      · rw [hgslot] at hS
        cases hS
    exact hslot (hfslot.trans hgslot.symm)
  apply Finset.sum_lt_sum fun slot _ => (hle slot).rank_le
  exact ⟨slot, Finset.mem_range.mpr hwidth, (hle slot).rank_lt hslot⟩

theorem ceiling_spec (hfits : Fits task) : Ceiling (flow task) (ceiling task) (height task) where
  rises _ _ hle hg hne := height_lt hle hg hne
  closed := {
    steps := by
      intro n f hf
      exact ⟨(le_everywhere (.refl _) hf).1, rfl⟩
    above := by
      have hat : ∀ n ≤ task.graph.len, everywhere (flow task) (ceiling task) n = some (ceiling task) :=
        fun n hn => if_pos (Nat.lt_succ_of_le hn)
      rintro m g (⟨rfl, rfl⟩ | ⟨n, f, es, hf, hout, hmem⟩)
      · exact ⟨_, hat 0 (Nat.zero_le _), unknown_le_ceiling⟩
      · obtain rfl : edges task n f = es := Option.some.inj hout
        obtain ⟨hn, e, he, hle, heq⟩ := mem_edges.mp hmem
        obtain ⟨rfl, rfl⟩ := Prod.mk.inj heq
        exact ⟨_, hat _ hle, overridden_le_ceiling hfits hn (le_everywhere (.refl _) hf).2 (edgesAt_overrides he).2⟩ }

/-- What was recorded of an instruction entered with `f` is all there is to record. -/
structure Recorded (task : Task) (s : Fixpoint) (index : ℕ) (f : Slots) : Prop where
  delivered : ∀ edge ∈ edges task index f, ∃ h, s.known edge.1 = some h ∧ Slots.Le edge.2 h
  marked : marksAt task index f ⊆ s.dirty
  loaded : ∀ kind slot store, opAt task index = some (.load kind slot) → f slot = .only store →
    index ∈ s.loads store

/-- What every step of the fixpoint keeps. -/
structure Inv (task : Task) (s : Fixpoint) : Prop where
  good : Good task.width s
  least : ∀ t, Closed (flow task) t → s.known.Le Slots.Le t
  entry : ∃ h, s.known 0 = some h ∧ Slots.Le (fun _ => .unknown) h
  recorded : ∀ index < task.graph.len, ∀ f, s.known index = some f → s.pending index = false →
    Recorded task s index f
  dirtyOnly : ∀ store ∈ s.dirty, ∃ index < task.graph.len, ∃ f, s.known index = some f ∧
    store ∈ marksAt task index f
  loadsOnly : ∀ store index, index ∈ s.loads store → index < task.graph.len ∧ ∃ kind slot f,
    opAt task index = some (.load kind slot) ∧ s.known index = some f ∧ store ∈ (f slot).stores

theorem initial_inv (width : ℕ) (h : task.width = width) : Inv task (.initial width) := by
  subst h
  have hknown : (initial task.width).known 0 = some fun _ => .unknown := by
    simp only [known, initial, Function.update_self, Option.map_some, Option.some.injEq]
    funext slot
    simp only [slots]
    rw [List.getD_eq_getElem?_getD, List.getElem?_replicate]
    split <;> rfl
  have helse : ∀ index, index ≠ 0 → (initial task.width).before index = none := by
    intro index hne
    simp [initial, Function.update_of_ne hne]
  refine ⟨?_, ?_, ⟨_, hknown, refl_of Slots.Le _⟩, ?_, ?_, ?_⟩
  · intro index state hstate
    by_cases hzero : index = 0
    · subst hzero
      obtain rfl : List.replicate task.width Held.unknown = state := by simpa [initial] using hstate
      refine ⟨List.length_replicate, fun held hmem => ?_⟩
      rw [List.eq_of_mem_replicate hmem]
      trivial
    · rw [helse index hzero] at hstate
      cases hstate
  · intro t ht index f hf
    by_cases hzero : index = 0
    · subst hzero
      rw [hknown] at hf
      obtain rfl := Option.some.inj hf
      exact ht.above 0 _ (.inl ⟨rfl, rfl⟩)
    · simp [known, helse index hzero] at hf
  · intro index _ f hf hpending
    by_cases hzero : index = 0
    · subst hzero
      simp [initial] at hpending
    · simp [known, helse index hzero] at hf
  · intro store hmem
    simp [initial] at hmem
  · intro store index hmem
    simp [initial] at hmem

/-- Recorded facts stay while what is known rises and nothing is forgotten. -/
theorem Recorded.mono {s s' : Fixpoint} {f : Slots} (h : Recorded task s index f)
    (hrise : s.known.Le Slots.Le s'.known) (hdirty : s.dirty ⊆ s'.dirty)
    (hloads : ∀ store, s.loads store ⊆ s'.loads store) : Recorded task s' index f where
  delivered := by
    intro edge hmem
    obtain ⟨x, hx, hle⟩ := h.delivered edge hmem
    obtain ⟨y, hy, hxy⟩ := hrise edge.1 x hx
    exact ⟨y, hy, trans_of Slots.Le hle hxy⟩
  marked := h.marked.trans hdirty
  loaded := fun kind slot store hop hf => hloads store (h.loaded kind slot store hop hf)

/-- A pending instruction taken off and stepped. -/
theorem Inv.stepped (hfits : Fits task) {s : Fixpoint} (h : Inv task s)
    (hindex : index < task.graph.len) {state : List Held} (hstate : s.before index = some state) :
    let taken := { s with pending := Function.update s.pending index false }
    Inv task (stepAt task taken index state) ∧ s.known.Le Slots.Le (stepAt task taken index state).known ∧
      ∀ j, (stepAt task taken index state).pending j = true ↔
        (j ≠ index ∧ s.pending j = true) ∨ (stepAt task taken index state).known j ≠ s.known j := by
  intro taken
  have hadvance := stepAt_advance hfits (s := taken) (show Good task.width taken from h.good) hindex hstate
  generalize hs' : stepAt task taken index state = s' at hadvance
  obtain ⟨hbefore, hsets, hpend⟩ := record_before task taken index state
  have hknown : (record task taken index state).known = s.known := by
    funext j
    unfold known
    rw [hbefore, hsets]
  have hat : s.known index = some (slots s.sets state) := by simp [known, hstate]
  have hrise : s.known.Le Slots.Le s'.known := hknown ▸ hadvance.rises
  have hpending : ∀ j, s'.pending j = true ↔ (j ≠ index ∧ s.pending j = true) ∨ s'.known j ≠ s.known j := by
    intro j
    rw [hadvance.pending, hknown, hpend]
    by_cases hj : j = index
    · subst hj
      simp [taken]
    · simp [taken, hj]
  have hdirty : s'.dirty = s.dirty ∪ marksAt task index (slots s.sets state) := by
    rw [hadvance.dirty, record_dirty]
  have hloads : ∀ store j, j ∈ s'.loads store ↔ j ∈ s.loads store ∨ (j = index ∧
      ∃ kind slot, opAt task index = some (.load kind slot) ∧ slots s.sets state slot = .only store) := by
    intro store j
    rw [hadvance.loads, mem_record_loads]
  refine ⟨⟨hadvance.good, ?_, ?_, ?_, ?_, ?_⟩, hrise, hpending⟩
  · intro t ht
    apply hadvance.low t (hknown.symm ▸ h.least t ht)
    obtain ⟨x, hx, hle⟩ := h.least t ht index _ hat
    obtain ⟨es, hes, hall⟩ := ht.edge hx hle
    obtain rfl : edges task index (slots s.sets state) = es := Option.some.inj hes
    exact fun edge hmem => hall edge.1 edge.2 hmem
  · obtain ⟨x, hx, hle⟩ := h.entry
    obtain ⟨y, hy, hxy⟩ := hrise 0 x hx
    exact ⟨y, hy, trans_of Slots.Le hle hxy⟩
  · intro j hj f hf hquiet
    have hsame : s'.known j = s.known j := by
      by_contra hne
      rw [(hpending j).mpr (.inr hne)] at hquiet
      cases hquiet
    by_cases hji : j = index
    · -- The instruction itself: this step recorded it, and its own state did not move.
      subst hji
      rw [hsame, hat] at hf
      obtain rfl := Option.some.inj hf
      refine ⟨hadvance.delivered, ?_, ?_⟩
      · rw [hdirty]
        exact Finset.subset_union_right
      · intro kind slot store hop hslot
        exact (hloads store j).mpr (.inr ⟨rfl, kind, slot, hop, hslot⟩)
    · have hold : s.pending j = false := by
        by_contra hnot
        have hpend : s.pending j = true := by simpa using hnot
        rw [(hpending j).mpr (.inl ⟨hji, hpend⟩)] at hquiet
        cases hquiet
      apply (h.recorded j hj f (hsame ▸ hf) hold).mono hrise
      · rw [hdirty]
        exact Finset.subset_union_left
      · exact fun store k hk => (hloads store k).mpr (.inl hk)
  · intro store hmem
    rw [hdirty] at hmem
    rcases Finset.mem_union.mp hmem with hmem | hmem
    · obtain ⟨j, hj, f, hf, hmark⟩ := h.dirtyOnly store hmem
      obtain ⟨g, hg, hle⟩ := hrise j f hf
      exact ⟨j, hj, g, hg, marksAt_mono task hle hmark⟩
    · obtain ⟨g, hg, hle⟩ := hrise index _ hat
      exact ⟨index, hindex, g, hg, marksAt_mono task hle hmem⟩
  · intro store j hmem
    rcases (hloads store j).mp hmem with hmem | ⟨rfl, kind, slot, hop, hslot⟩
    · obtain ⟨hj, kind, slot, f, hop, hf, hin⟩ := h.loadsOnly store j hmem
      obtain ⟨g, hg, hle⟩ := hrise j f hf
      exact ⟨hj, kind, slot, g, hop, hg, (hle slot).stores_subset hin⟩
    · obtain ⟨g, hg, hle⟩ := hrise j _ hat
      refine ⟨hindex, kind, slot, g, hop, hg, (hle slot).stores_subset ?_⟩
      rw [hslot]
      exact Finset.mem_singleton_self store

/-- How far the fixpoint is from its end: the height left to climb, then the steps that wait. -/
def workLeft (task : Task) (s : Fixpoint) : ℕ :=
  (climbed (flow task) (height task) (everywhere (flow task) (ceiling task)) -
      climbed (flow task) (height task) s.known) * (task.graph.len + 1) +
    ((Finset.range task.graph.len).filter fun index => s.pending index = true).card

theorem Inv.below (hfits : Fits task) {s : Fixpoint} (h : Inv task s) :
    s.known.Le Slots.Le (everywhere (flow task) (ceiling task)) :=
  h.least _ (ceiling_spec hfits).closed

theorem Inv.stepped_work (hfits : Fits task) {s : Fixpoint} (h : Inv task s)
    (hindex : index < task.graph.len) (hpending : s.pending index = true) {state : List Held}
    (hstate : s.before index = some state) :
    workLeft task (Fixpoint.stepAt task { s with pending := Function.update s.pending index false } index state) <
      workLeft task s := by
  obtain ⟨hinv, hrise, hpend⟩ := h.stepped hfits hindex hstate
  generalize Fixpoint.stepAt task { s with pending := Function.update s.pending index false } index state = s'
    at hinv hrise hpend
  unfold workLeft
  by_cases hsame : s.known = s'.known
  · have hcard : ((Finset.range task.graph.len).filter fun j => s'.pending j = true).card <
        ((Finset.range task.graph.len).filter fun j => s.pending j = true).card := by
      apply Finset.card_lt_card
      refine Finset.ssubset_iff_of_subset ?_ |>.mpr ⟨index, ?_, ?_⟩
      · intro j hj
        simp only [Finset.mem_filter, hpend, hsame, ne_eq, not_true, or_false] at hj ⊢
        exact ⟨hj.1, hj.2.2⟩
      · simp [hindex, hpending]
      · simp [hpend, hsame]
    rw [hsame]
    omega
  · have hclimb := climbed_lt (ceiling_spec hfits) hrise (hinv.below hfits) hsame
    have hbound := climbed_le (ceiling_spec hfits) (hinv.below hfits) (.refl _)
    have hcard : ((Finset.range task.graph.len).filter fun j => s'.pending j = true).card ≤ task.graph.len := by
      have := Finset.card_filter_le (Finset.range task.graph.len) fun j => s'.pending j = true
      rwa [Finset.card_range] at this
    generalize climbed (flow task) (height task) (everywhere (flow task) (ceiling task)) = top at hbound ⊢
    generalize climbed (flow task) (height task) s'.known = high at hclimb hbound ⊢
    generalize climbed (flow task) (height task) s.known = low at hclimb ⊢
    have hmul := Nat.mul_le_mul_right (task.graph.len + 1) (show top - high + 1 ≤ top - low by omega)
    rw [Nat.add_mul] at hmul
    omega

/-- A visit either steps, and less work is left, or leaves everything but a mark as it was. -/
theorem Inv.visit (hfits : Fits task) {s : Fixpoint} (h : Inv task s) (index : ℕ) (flag : Bool) :
    let result := visit task (s, flag) index
    Inv task result.1 ∧ workLeft task result.1 ≤ workLeft task s ∧
      ((result.2 = true ∧ workLeft task result.1 < workLeft task s) ∨
        (result.2 = flag ∧ result.1.before = s.before ∧
          (∀ j, result.1.pending j = true → s.pending j = true) ∧
          (index < task.graph.len → (s.before index).isSome → result.1.pending index = false))) := by
  unfold Fixpoint.visit
  dsimp only
  split
  · next hskip =>
    refine ⟨h, Nat.le_refl _, .inr ⟨rfl, rfl, fun _ hj => hj, fun hindex _ => ?_⟩⟩
    simpa [Nat.not_le.mpr hindex] using hskip
  · next hgo =>
    simp only [Bool.or_eq_true, decide_eq_true_eq, Bool.not_eq_true', not_or, Bool.not_eq_false, Nat.not_le] at hgo
    cases hstate : s.before index with
    | none =>
      have hknown : ∀ j f, s.known j = some f → j ≠ index := by
        rintro j f hf rfl
        simp [known, hstate] at hf
      have hclear : ∀ j, Function.update s.pending index false j = true → s.pending j = true := by
        intro j hj
        by_cases hji : j = index
        · simp [hji] at hj
        · rwa [Function.update_of_ne hji] at hj
      refine ⟨⟨h.good, h.least, h.entry, ?_, h.dirtyOnly, h.loadsOnly⟩, ?_, .inr ⟨rfl, rfl, hclear, ?_⟩⟩
      · intro j hj f hf hquiet
        dsimp only at hquiet
        rw [Function.update_of_ne (hknown j f hf)] at hquiet
        exact (h.recorded j hj f hf hquiet).mono (.refl _) (Finset.Subset.refl _) fun _ => Finset.Subset.refl _
      · apply Nat.add_le_add_left
        apply Finset.card_le_card
        intro j hj
        simp only [Finset.mem_filter] at hj ⊢
        exact ⟨hj.1, hclear j hj.2⟩
      · simp
    | some state =>
      obtain ⟨hinv, -, -⟩ := h.stepped hfits hgo.1 hstate
      have hless := h.stepped_work hfits hgo.1 hgo.2 hstate
      exact ⟨hinv, hless.le, .inl ⟨rfl, hless⟩⟩

/-- A round either steps something, and less work is left, or leaves nothing in the order waiting. -/
theorem Inv.round (hfits : Fits task) : ∀ (order : List ℕ) {s : Fixpoint} (flag : Bool), Inv task s →
    let result := order.foldl (Fixpoint.visit task) (s, flag)
    Inv task result.1 ∧ workLeft task result.1 ≤ workLeft task s ∧
      (flag = true → result.2 = true) ∧ (result.2 = true → flag = true ∨ workLeft task result.1 < workLeft task s) ∧
      (result.2 = false → result.1.before = s.before ∧ (∀ j, result.1.pending j = true → s.pending j = true) ∧
        ∀ index ∈ order, index < task.graph.len → (s.before index).isSome →
          result.1.pending index = false) := by
  intro order
  induction order with
  | nil =>
    intro s flag h
    exact ⟨h, Nat.le_refl _, id, .inl, fun _ => ⟨rfl, fun _ hj => hj, by simp⟩⟩
  | cons index order ih =>
    intro s flag h
    obtain ⟨hinv, hwork, hone⟩ := h.visit hfits index flag
    rw [List.foldl_cons]
    rcases hvisit : Fixpoint.visit task (s, flag) index with ⟨s₁, flag₁⟩
    rw [hvisit] at hinv hwork hone
    obtain ⟨hinv', hwork', hkeeps, hless, hquiet⟩ := ih flag₁ hinv
    rcases hone with ⟨hflag, hless₁⟩ | ⟨hflag, hbefore, hpending, hdone⟩
    · have hflag : flag₁ = true := hflag
      refine ⟨hinv', hwork'.trans hwork, fun _ => hkeeps hflag, fun _ => .inr (hwork'.trans_lt hless₁), ?_⟩
      intro hstill
      rw [hkeeps hflag] at hstill
      cases hstill
    · have hflag : flag₁ = flag := hflag
      subst hflag
      refine ⟨hinv', hwork'.trans hwork, hkeeps, ?_, ?_⟩
      · intro hstepped
        exact (hless hstepped).imp_right fun hlt => hlt.trans_le hwork
      · intro hstill
        obtain ⟨hbefore', hpending', hdone'⟩ := hquiet hstill
        refine ⟨hbefore'.trans hbefore, fun j hj => hpending j (hpending' j hj), ?_⟩
        intro j hj hlt hsome
        rcases List.mem_cons.mp hj with rfl | hj
        · have hclear := hdone hlt hsome
          by_contra hnot
          rw [hpending' j (by simpa using hnot)] at hclear
          cases hclear
        · exact hdone' j hj hlt (hbefore ▸ hsome)

/-- The rounds end, with everything the order has recorded. -/
theorem Inv.settle_total (hfits : Fits task) (order : List ℕ) : ∀ (left : ℕ) {s : Fixpoint},
    workLeft task s = left → Inv task s → ∃ s', (∀ fuel, left < fuel → settle task order fuel s = some s') ∧
      Inv task s' ∧ ∀ index ∈ order, index < task.graph.len → (s'.before index).isSome →
        s'.pending index = false := by
  intro left
  induction left using Nat.strongRecOn with
  | ind left ih =>
    intro s hleft h
    obtain ⟨hinv, hwork, -, hless, hquiet⟩ := h.round hfits order false
    rcases hround : order.foldl (Fixpoint.visit task) (s, false) with ⟨s', stepped⟩
    rw [hround] at hinv hwork hless hquiet
    cases hstepped : stepped with
    | false =>
      obtain ⟨hbefore, -, hdone⟩ := hquiet hstepped
      refine ⟨s', ?_, hinv, ?_⟩
      · intro fuel hfuel
        obtain ⟨fuel, rfl⟩ := Nat.exists_eq_succ_of_ne_zero (by omega : fuel ≠ 0)
        simp [settle, hround, hstepped]
      · intro index hmem hlt hsome
        exact hdone index hmem hlt (hbefore ▸ hsome)
    | true =>
      have hlt : workLeft task s' < left := by
        rcases hless hstepped with hfalse | hlt
        · cases hfalse
        · exact hleft ▸ hlt
      obtain ⟨final, hrun, hfinal⟩ := ih _ hlt rfl hinv
      refine ⟨final, ?_, hfinal⟩
      intro fuel hfuel
      obtain ⟨fuel, rfl⟩ := Nat.exists_eq_succ_of_ne_zero (by omega : fuel ≠ 0)
      simp only [settle, hround, hstepped, if_true]
      exact hrun fuel (by omega)

/-- Where the fixpoint ends: at the least assignment the flow is closed under, with exactly what it records. -/
structure Final (task : Task) (s : Fixpoint) : Prop where
  closed : Closed (flow task) s.known
  least : ∀ t, Closed (flow task) t → s.known.Le Slots.Le t
  mem_dirty : ∀ store, store ∈ s.dirty ↔ ∃ index < task.graph.len, ∃ f, s.known index = some f ∧
    store ∈ marksAt task index f
  mem_loads : ∀ store ∉ s.dirty, ∀ index, index ∈ s.loads store ↔ index < task.graph.len ∧ ∃ kind slot f,
    opAt task index = some (.load kind slot) ∧ s.known index = some f ∧ f slot = .only store

theorem Inv.final (hfits : Fits task) {s : Fixpoint} (h : Inv task s)
    (hdone : ∀ index < task.graph.len, (s.before index).isSome → s.pending index = false) : Final task s := by
  have hrecorded : ∀ index < task.graph.len, ∀ f, s.known index = some f → Recorded task s index f := by
    intro index hindex f hf
    apply h.recorded index hindex f hf
    apply hdone index hindex
    cases hbefore : s.before index with
    | none => simp [known, hbefore] at hf
    | some state => rfl
  have hdirty : ∀ store, store ∈ s.dirty ↔ ∃ index < task.graph.len, ∃ f, s.known index = some f ∧
      store ∈ marksAt task index f := by
    intro store
    constructor
    · exact h.dirtyOnly store
    · rintro ⟨index, hindex, f, hf, hmark⟩
      exact (hrecorded index hindex f hf).marked hmark
  refine ⟨?_, h.least, hdirty, ?_⟩
  · apply closed_of_delivered (ceiling_spec hfits) (h.below hfits) h.entry
    intro n _ f es hf hes edge hmem
    obtain rfl : edges task n f = es := Option.some.inj hes
    exact (hrecorded n (mem_edges.mp hmem).1 f hf).delivered edge hmem
  · intro store hclean index
    constructor
    · intro hmem
      obtain ⟨hindex, kind, slot, f, hop, hf, hin⟩ := h.loadsOnly store index hmem
      refine ⟨hindex, kind, slot, f, hop, hf, ?_⟩
      cases hslot : f slot with
      | unknown => simp [hslot, Contents.stores] at hin
      | only other =>
        rw [hslot, Contents.stores, Finset.mem_singleton] at hin
        rw [hin]
      | among stores =>
        -- A load of a dirty value marks all its stores, this one among them.
        rw [hslot, Contents.stores] at hin
        refine absurd ((hdirty store).mpr ⟨index, hindex, f, hf, ?_⟩) hclean
        simp [marksAt, hop, hslot, hin]
    · rintro ⟨hindex, kind, slot, f, hop, hf, hslot⟩
      exact (hrecorded index hindex f hf).loaded kind slot store hop hslot

end Fixpoint

end Krusty.Jvm.BytecodePasses.Temporaries
