import Krusty.Jvm.BytecodePasses.Temporaries.Contents

/-! The fixpoint as a dataflow: what one step does to what is known, and what all of them keep. -/
namespace Krusty.Jvm.BytecodePasses.Temporaries

open Dataflow

namespace Fixpoint

/-- What the slots hold before each instruction, as far as the fixpoint knows. -/
def known (s : Fixpoint) : Assignment Slots := fun index => (s.before index).map (slots s.sets)

/-- Every state is as wide as the locals and names sets that are there. -/
def Good (width : ℕ) (s : Fixpoint) : Prop :=
  ∀ index state, s.before index = some state → StateIn width s.sets state

/-- From `s` to `s'` exactly the given edges were joined in. -/
structure Advance (width : ℕ) (s s' : Fixpoint) (edges : List (ℕ × Slots)) : Prop where
  good : Good width s'
  sets : s.sets <+: s'.sets
  rises : s.known.Le Slots.Le s'.known
  delivered : ∀ edge ∈ edges, ∃ h, s'.known edge.1 = some h ∧ Slots.Le edge.2 h
  low : ∀ t : Assignment Slots, s.known.Le Slots.Le t →
    (∀ edge ∈ edges, ∃ h, t edge.1 = some h ∧ Slots.Le edge.2 h) → s'.known.Le Slots.Le t
  others : ∀ index, index ∉ edges.map Prod.fst → s'.before index = s.before index
  pending : ∀ index, s'.pending index = true ↔ s.pending index = true ∨ s'.known index ≠ s.known index
  loads : s'.loads = s.loads
  dirty : s'.dirty = s.dirty

section Advance

variable {width : ℕ} {s s' s'' : Fixpoint} {edges edges' : List (ℕ × Slots)}

theorem known_le_refl (s : Fixpoint) : s.known.Le Slots.Le s.known :=
  fun _ f hf => ⟨f, hf, refl_of Slots.Le f⟩

theorem Advance.nil (h : Good width s) : Advance width s s [] where
  good := h
  sets := List.prefix_refl _
  rises := known_le_refl s
  delivered := by simp
  low := fun _ ht _ => ht
  others := fun _ _ => rfl
  pending := by simp
  loads := rfl
  dirty := rfl

/-- States that rise from `a` over `b` to `c` differ at the ends exactly where they do on the way. -/
theorem rise_ne_iff {a b c : Assignment Slots} (hab : a.Le Slots.Le b) (hbc : b.Le Slots.Le c) (index : ℕ) :
    c index ≠ a index ↔ b index ≠ a index ∨ c index ≠ b index := by
  constructor
  · intro h
    by_contra hnot
    push Not at hnot
    exact h (hnot.2.trans hnot.1)
  · intro hor heq
    have hback : b index = a index := by
      cases hb : b index with
      | none =>
        cases ha : a index with
        | none => rfl
        | some f =>
          obtain ⟨g, hg, -⟩ := hab index f ha
          rw [hb] at hg
          cases hg
      | some g =>
        obtain ⟨k, hk, hgk⟩ := hbc index g hb
        have hk' : a index = some k := heq ▸ hk
        obtain ⟨g', hg', hkg⟩ := hab index k hk'
        rw [hb] at hg'
        cases hg'
        rw [hk', antisymm_of Slots.Le hgk hkg]
    rcases hor with h | h
    · exact h hback
    · exact h (heq.trans hback.symm)

theorem Advance.trans (h : Advance width s s' edges) (h' : Advance width s' s'' edges') :
    Advance width s s'' (edges ++ edges') where
  good := h'.good
  sets := h.sets.trans h'.sets
  rises := h.rises.trans h'.rises
  delivered := by
    intro edge hmem
    rcases List.mem_append.mp hmem with hmem | hmem
    · obtain ⟨x, hx, hle⟩ := h.delivered edge hmem
      obtain ⟨y, hy, hxy⟩ := h'.rises edge.1 x hx
      exact ⟨y, hy, trans_of Slots.Le hle hxy⟩
    · exact h'.delivered edge hmem
  low := by
    intro t ht hall
    apply h'.low t
    · exact h.low t ht fun edge hmem => hall edge (List.mem_append_left _ hmem)
    · exact fun edge hmem => hall edge (List.mem_append_right _ hmem)
  others := by
    intro index hnot
    rw [List.map_append, List.mem_append, not_or] at hnot
    rw [h'.others index hnot.2, h.others index hnot.1]
  pending := by
    intro index
    rw [h'.pending, h.pending, rise_ne_iff h.rises h'.rises, or_assoc]
  loads := h'.loads.trans h.loads
  dirty := h'.dirty.trans h.dirty

theorem Advance.congr (h : Advance width s s' edges) (hmem : ∀ edge, edge ∈ edges ↔ edge ∈ edges') :
    Advance width s s' edges' where
  good := h.good
  sets := h.sets
  rises := h.rises
  delivered := fun edge hedge => h.delivered edge ((hmem edge).mpr hedge)
  low := fun t ht hall => h.low t ht fun edge hedge => hall edge ((hmem edge).mp hedge)
  others := by
    intro index hnot
    apply h.others index
    intro hin
    obtain ⟨edge, hedge, rfl⟩ := List.mem_map.mp hin
    exact hnot (List.mem_map_of_mem ((hmem edge).mp hedge))
  pending := h.pending
  loads := h.loads
  dirty := h.dirty

/-- One edge joined in. -/
theorem flowInto_advance (hgood : Good width s) (target : ℕ) {base : List Held} {overrides : List (ℕ × Held)}
    (hplain : Plain width overrides) (hbase : StateIn width s.sets base) :
    Advance width s (s.flowInto target base overrides)
      [(target, overridden overrides (slots s.sets base))] := by
  obtain ⟨hgrown, hstate, hslots, hchanged⟩ := DirtySets.joinInto_spec hplain (hgood target) hbase
  set result := s.sets.joinInto (s.before target) base overrides with hresult
  set arrived := overridden overrides (slots s.sets base) with harrived
  have hbefore : (s.flowInto target base overrides).before =
      Function.update s.before target (some result.2.1) := rfl
  have hsets : (s.flowInto target base overrides).sets = result.1 := rfl
  have hat : (s.flowInto target base overrides).known target = some (slots result.1 result.2.1) := by
    simp [known, hbefore, hsets]
  have helse : ∀ index, index ≠ target → (s.flowInto target base overrides).known index = s.known index := by
    intro index hne
    unfold known
    rw [hbefore, hsets, Function.update_of_ne hne]
    cases hstate' : s.before index with
    | none => rfl
    | some state => simp [(hgood index state hstate').slots_eq hgrown]
  have hkeeps : ∀ f, s.known target = some f → slots result.1 result.2.1 = f.join arrived := by
    intro f hf
    unfold known at hf
    cases hb : s.before target with
    | none => simp [hb] at hf
    | some state =>
      rw [hb, Option.map_some, Option.some.injEq] at hf
      rw [hslots, hb, ← hf, Option.elim_some]
  have hnone : s.known target = none → slots result.1 result.2.1 = arrived := by
    intro hf
    cases hb : s.before target with
    | none => rw [hslots, hb, Option.elim_none]
    | some state => simp [known, hb] at hf
  refine ⟨?_, hgrown, ?_, ?_, ?_, ?_, ?_, rfl, rfl⟩
  · intro index state hindex
    rw [hbefore] at hindex
    rw [hsets]
    by_cases hne : index = target
    · rw [hne, Function.update_self, Option.some.injEq] at hindex
      rw [← hindex]
      exact hstate
    · rw [Function.update_of_ne hne] at hindex
      exact (hgood index state hindex).mono hgrown
  · intro index f hf
    by_cases hne : index = target
    · subst hne
      refine ⟨_, hat, ?_⟩
      rw [hkeeps f hf]
      exact fun slot => Contents.le_join_left _ _
    · exact ⟨f, by rw [helse index hne, hf], refl_of Slots.Le f⟩
  · intro edge hmem
    rw [List.mem_singleton.mp hmem]
    refine ⟨_, hat, ?_⟩
    cases hf : s.known target with
    | none =>
      rw [hnone hf]
      exact refl_of Slots.Le _
    | some f =>
      rw [hkeeps f hf]
      exact fun slot => Contents.le_join_right _ _
  · intro t ht hall index f hf
    by_cases hne : index = target
    · subst hne
      rw [hat] at hf
      cases hf
      obtain ⟨h, hh, hle⟩ := hall _ (List.mem_singleton_self _)
      refine ⟨h, hh, ?_⟩
      cases hf : s.known index with
      | none =>
        rw [hnone hf]
        exact hle
      | some f =>
        rw [hkeeps f hf]
        obtain ⟨h', hh', hle'⟩ := ht index f hf
        rw [hh] at hh'
        cases hh'
        exact fun slot => Contents.join_le (hle' slot) (hle slot)
    · rw [helse index hne] at hf
      exact ht index f hf
  · intro index hnot
    have hne : index ≠ target := by simpa using hnot
    rw [hbefore, Function.update_of_ne hne]
  · intro index
    have hpending : (s.flowInto target base overrides).pending =
        if result.2.2 then Function.update s.pending target true else s.pending := rfl
    by_cases hne : index = target
    · subst hne
      have hflag : result.2.2 = true ↔ (s.flowInto index base overrides).known index ≠ s.known index := by
        rw [hchanged, hat]
        unfold known
        cases hb : s.before index with
        | none => simp
        | some state => simp
      rw [← hflag, hpending]
      cases result.2.2 <;> simp
    · rw [helse index hne, hpending]
      split <;> simp [Function.update_of_ne hne]

/-- Edges joined in one after another. -/
theorem foldl_flowInto_advance {α : Type} (target : α → ℕ) (base : α → List Held)
    (overrides : α → List (ℕ × Held)) : ∀ (es : List α) {s : Fixpoint}, Good width s →
    (∀ e ∈ es, Plain width (overrides e) ∧ StateIn width s.sets (base e)) →
    Advance width s (es.foldl (fun s e => s.flowInto (target e) (base e) (overrides e)) s)
      (es.map fun e => (target e, overridden (overrides e) (slots s.sets (base e)))) := by
  intro es
  induction es with
  | nil => exact fun hgood _ => .nil hgood
  | cons e es ih =>
    intro s hgood hall
    obtain ⟨hplain, hbase⟩ := hall e (List.mem_cons_self ..)
    have hone := flowInto_advance hgood (target e) hplain hbase
    have hrest := ih hone.good fun e' hmem =>
      ⟨(hall e' (List.mem_cons_of_mem _ hmem)).1, (hall e' (List.mem_cons_of_mem _ hmem)).2.mono hone.sets⟩
    have hboth := hone.trans hrest
    have hsame : (es.map fun e' => (target e', overridden (overrides e')
        (slots (s.flowInto (target e) (base e) (overrides e)).sets (base e')))) =
        es.map fun e' => (target e', overridden (overrides e') (slots s.sets (base e'))) := by
      apply List.map_congr_left
      intro e' hmem
      rw [(hall e' (List.mem_cons_of_mem _ hmem)).2.slots_eq hone.sets]
    rw [hsame] at hboth
    exact hboth

end Advance

section Task

variable (task : Task) {s : Fixpoint}

/-- The edges out of an instruction entered with `f`. -/
def edges (index : ℕ) (f : Slots) : List (ℕ × Slots) :=
  if index < task.graph.len then
    ((edgesAt task index).filter fun edge => decide (edge.1 ≤ task.graph.len)).map
      fun edge => (edge.1, overridden edge.2 f)
  else []

/-- The stores an instruction finds dirty, entered with `f`. -/
def marksAt (index : ℕ) (f : Slots) : Finset ℕ :=
  ((task.namedStarts index).toFinset.biUnion fun slot => (f slot).stores) ∪
    match opAt task index with
    | some (.load _ slot) =>
      match f slot with
      | .among stores => stores
      | _ => ∅
    | some (.iinc slot) => (f slot).stores
    | _ => ∅

theorem overridden_mono {overrides : List (ℕ × Held)} {f g : Slots} (h : Slots.Le f g) :
    Slots.Le (overridden overrides f) (overridden overrides g) := by
  intro slot
  unfold overridden
  split
  · exact Contents.Le.refl _
  · exact h slot

/-- The analysis as a dataflow over the instructions and the exit. -/
def flow : Problem Slots Slots.Le where
  count := task.graph.len + 1
  entry := fun _ => .unknown
  targets index := (edges task index fun _ => .unknown).map Prod.fst
  out index f := some (edges task index f)
  out_targets := by
    intro index f es target hes
    cases hes
    unfold edges
    split <;> simp
  out_mono := by
    intro index f g es hle hes
    cases hes
    refine ⟨_, rfl, ?_⟩
    unfold edges
    split
    · rw [List.forall₂_map_left_iff, List.forall₂_map_right_iff]
      exact List.forall₂_same.mpr fun edge _ => ⟨rfl, overridden_mono hle⟩
    · exact .nil

theorem marksAt_mono {index : ℕ} {f g : Slots} (h : Slots.Le f g) : marksAt task index f ⊆ marksAt task index g := by
  unfold marksAt
  apply Finset.union_subset_union
  · exact Finset.biUnion_mono fun slot _ => (h slot).stores_subset
  · split
    · next slot _ =>
      obtain heq | ⟨S, hS, hsub⟩ := h slot
      · rw [heq]
      · rw [hS]
        cases hf : f slot with
        | among T => simpa [hf, Contents.stores] using hsub
        | _ => simp
    · exact (h _).stores_subset
    · exact Finset.Subset.refl _

variable {task}

variable (task) in
theorem record_before (s : Fixpoint) (index : ℕ) (state : List Held) :
    (record task s index state).before = s.before ∧ (record task s index state).sets = s.sets ∧
      (record task s index state).pending = s.pending := by
  unfold record
  split
  · split <;> exact ⟨rfl, rfl, rfl⟩
  · exact ⟨rfl, rfl, rfl⟩
  · exact ⟨rfl, rfl, rfl⟩

/-- What the named locals that start at an instruction make dirty. -/
theorem markNamed_eq (sets : DirtySets) (state : List Held) (named : List ℕ) (dirty : Finset ℕ) :
    sets.markNamed state named dirty =
      dirty ∪ named.toFinset.biUnion fun slot => (slots sets state slot).stores := by
  induction named generalizing dirty with
  | nil => simp [DirtySets.markNamed]
  | cons slot named ih =>
    have hone : sets.markNamed state (slot :: named) dirty =
        sets.markNamed state named (dirty ∪ (slots sets state slot).stores) := by
      unfold slots DirtySets.markNamed
      rw [List.getD_eq_getElem?_getD, List.foldl_cons]
      congr 1
      cases state[slot]? with
      | none => simp [DirtySets.view, Contents.stores]
      | some held => exact DirtySets.mark_eq held dirty
    rw [hone, ih, List.toFinset_cons, Finset.biUnion_insert, Finset.union_assoc]

theorem record_dirty (s : Fixpoint) (index : ℕ) (state : List Held) :
    (record task s index state).dirty = s.dirty ∪ marksAt task index (slots s.sets state) := by
  unfold record marksAt
  dsimp only
  rw [markNamed_eq, ← Finset.union_assoc]
  rcases hop : opAt task index with _ | (⟨kind, slot⟩ | ⟨kind, slot⟩ | slot)
  · simp
  · have hslot : slots s.sets state slot = s.sets.view (state.getD slot .unknown) := rfl
    dsimp only
    rw [hslot]
    cases state.getD slot .unknown with
    | dirty set => rfl
    | _ => simp [DirtySets.view]
  · simp
  · exact DirtySets.mark_eq _ _

theorem mem_record_loads (s : Fixpoint) (index : ℕ) (state : List Held) (d j : ℕ) :
    j ∈ (record task s index state).loads d ↔ j ∈ s.loads d ∨
      (j = index ∧ ∃ kind slot, opAt task index = some (.load kind slot) ∧
        slots s.sets state slot = .only d) := by
  unfold record
  split
  · next kind slot hop =>
    have hslot : slots s.sets state slot = s.sets.view (state.getD slot .unknown) := rfl
    have hiff : (∃ kind' slot', opAt task index = some (.load kind' slot') ∧
        slots s.sets state slot' = .only d) ↔ s.sets.view (state.getD slot .unknown) = .only d := by
      constructor
      · rintro ⟨kind', slot', hop', h⟩
        rw [hop] at hop'
        cases hop'
        exact h
      · exact fun h => ⟨kind, slot, hop, h⟩
    rw [hiff]
    cases state.getD slot .unknown with
    | store store =>
      by_cases hd : d = store
      · subst hd
        simp [DirtySets.view, or_comm]
      · simp [DirtySets.view, Function.update_of_ne hd, Ne.symm hd]
    | unknown => simp [DirtySets.view]
    | dirty set => simp [DirtySets.view]
  · next slot hop => simp [hop]
  · next hload _ =>
    constructor
    · exact .inl
    · rintro (h | ⟨-, kind, slot, hop, -⟩)
      · exact h
      · exact absurd hop (hload kind slot)

/-- Every instruction replaces slots the locals have. -/
def Fits (task : Task) : Prop := ∀ index, Plain task.width (overridesAt task index)

/-- One step: what it records, and its edges joined in. -/
theorem stepAt_advance (hfits : Fits task) (hgood : Good task.width s) {index : ℕ}
    (hindex : index < task.graph.len) {state : List Held} (hstate : s.before index = some state) :
    Advance task.width (record task s index state) (stepAt task s index state)
      (edges task index (slots s.sets state)) := by
  obtain ⟨hbefore, hsets, -⟩ := record_before task s index state
  have hin := hgood index state hstate
  have hgood' : Good task.width (record task s index state) := by
    intro i st hst
    rw [hbefore] at hst
    rw [hsets]
    exact hgood i st hst
  have hplain : ∀ edge ∈ (edgesAt task index).filter (fun edge => decide (edge.1 ≤ task.graph.len)),
      Plain task.width edge.2 := by
    intro edge hmem
    have hmem := (List.mem_filter.mp hmem).1
    unfold edgesAt at hmem
    rcases List.mem_append.mp hmem with hmem | hmem
    · obtain ⟨target, -, rfl⟩ := List.mem_map.mp hmem
      exact hfits index
    · obtain ⟨handler, -, hmem⟩ := List.mem_flatMap.mp hmem
      rcases List.mem_cons.mp hmem with rfl | hmem
      · exact .nil _
      · rw [List.mem_singleton.mp hmem]
        exact hfits index
  generalize hedges : (edgesAt task index).filter (fun edge => decide (edge.1 ≤ task.graph.len)) = es at hplain
  have hfirst := foldl_flowInto_advance (fun edge : ℕ × List (ℕ × Held) => edge.1) (fun _ => state)
    (fun edge => edge.2) (es.filter fun edge => edge.1 != index) hgood' fun edge hmem =>
      ⟨hplain edge (List.mem_filter.mp hmem).1, by rw [hsets]; exact hin⟩
  have hsecond := foldl_flowInto_advance (fun _ : ℕ × List (ℕ × Held) => index)
    (fun edge => DirtySets.override state edge.2) (fun _ => []) (es.filter fun edge => edge.1 == index)
    hfirst.good fun edge hmem =>
      ⟨.nil _, ((hplain edge (List.mem_filter.mp hmem).1).override_in (by rw [hsets]; exact hin)).mono
        hfirst.sets⟩
  have hstep : stepAt task s index state = (es.filter fun edge => edge.1 == index).foldl
      (fun s edge => s.flowInto index (DirtySets.override state edge.2) [])
      ((es.filter fun edge => edge.1 != index).foldl (fun s edge => s.flowInto edge.1 state edge.2)
        (record task s index state)) := by
    rw [stepAt, hedges]
  rw [hstep]
  apply (hfirst.trans hsecond).congr
  intro edge
  have hself : ∀ e ∈ es, overridden [] (slots ((es.filter fun edge => edge.1 != index).foldl
      (fun s edge => s.flowInto edge.1 state edge.2) (record task s index state)).sets
        (DirtySets.override state e.2)) = overridden e.2 (slots s.sets state) := by
    intro e hmem
    have hin' : StateIn task.width (record task s index state).sets state := by
      rw [hsets]
      exact hin
    have hover := (hplain e hmem).override_in hin'
    rw [show overridden [] = id from rfl, id, hover.slots_eq hfirst.sets, hsets,
      (hplain e hmem).slots_override hin]
  rw [edges, if_pos hindex, hedges]
  simp only [List.mem_append, List.mem_map, List.mem_filter, bne_iff_ne, beq_iff_eq, ne_eq]
  constructor
  · rintro (⟨e, ⟨hmem, -⟩, rfl⟩ | ⟨e, ⟨hmem, heq⟩, rfl⟩)
    · exact ⟨e, hmem, by rw [hsets]⟩
    · exact ⟨e, hmem, by rw [hself e hmem, heq]⟩
  · rintro ⟨e, hmem, rfl⟩
    by_cases heq : e.1 = index
    · exact .inr ⟨e, ⟨hmem, heq⟩, by rw [hself e hmem, heq]⟩
    · exact .inl ⟨e, ⟨hmem, heq⟩, by rw [hsets]⟩

end Task

end Fixpoint

end Krusty.Jvm.BytecodePasses.Temporaries
