import Krusty.Build.Graph.Modules
import Krusty.Lib.Closure
import Krusty.Lib.Lookups
import Krusty.Lib.Topological
import Mathlib

/-! The build order: Kahn's counting of the dependencies that are yet to be built. -/
namespace Krusty.Build.Graph

open Topological Relation

/-- The nodes not placed yet, each with a count, those whose count is zero, and those placed. -/
structure Planning (α : Type) where
  remaining : List (α × ℕ)
  ready : List α
  order : List α

namespace Planning

variable {α : Type} [DecidableEq α]

/-- One dependency fewer for `dependent`, if it is not placed yet. -/
def discharge (self : Planning α) (dependent : α) : Planning α :=
  match self.remaining.lookup dependent with
  | none => self
  | some count =>
    let remaining := self.remaining.map fun e => if e.1 = dependent then (e.1, count - 1) else e
    if count - 1 = 0 then { self with remaining, ready := self.ready ++ [dependent] } else { self with remaining }

/-- Place `id`, which has been taken from the ready ones, and discharge it from those `waiting` for it. -/
def place (self : Planning α) (id : α) (waiting : List α) : Planning α :=
  waiting.foldl discharge { self with
    remaining := self.remaining.filter (·.1 ≠ id)
    order := self.order ++ [id] }

end Planning

namespace ModuleGraph

variable (self : ModuleGraph)

def ids : List ModuleId := self.modules.map Prod.fst

/-- The modules that depend on `id`: its entry in the reverse index. -/
def dependents (id : ModuleId) : List ModuleId :=
  self.modules.foldl (fun waiting (owner, module) =>
    if id ∈ module.dependsOn then SortedSets.insert owner waiting else waiting) []

def start : Planning ModuleId where
  remaining := self.modules.map fun (id, module) => (id, module.dependsOn.length)
  ready := ((self.modules.map fun (id, module) => (id, module.dependsOn.length)).filter (·.2 = 0)).map Prod.fst
  order := []

def plan : ℕ → Planning ModuleId → Planning ModuleId
  | 0, planning => planning
  | fuel + 1, planning =>
    match planning.ready with
    | [] => planning
    | id :: ready => plan fuel ({ planning with ready }.place id (self.dependents id))

def buildOrder : Except GraphError (List ModuleId) := do
  self.validate
  let planning := self.plan self.modules.length self.start
  if planning.remaining.isEmpty then .ok planning.order
  else .error (.cycle ((planning.remaining.map Prod.fst).insertionSort (· ≤ ·)))

end ModuleGraph

/-! ### One node placed -/

namespace Planning

variable {α : Type} [DecidableEq α] {planning : Planning α} {id d x : α} {waiting : List α} {count : ℕ}

theorem remaining_discharge (h : (planning.remaining.map Prod.fst).Nodup) :
    (planning.discharge d).remaining = planning.remaining.map fun e => if e.1 = d then (e.1, e.2 - 1) else e := by
  unfold discharge
  cases hlookup : planning.remaining.lookup d with
  | none =>
    have hd : ∀ e ∈ planning.remaining, e.1 ≠ d := by
      intro e he heq
      have hsome := Lookups.lookup_of_mem h (heq ▸ he : (d, e.2) ∈ planning.remaining)
      rw [hlookup] at hsome
      cases hsome
    conv_lhs => rw [← List.map_id planning.remaining]
    exact List.map_congr_left fun e he => (if_neg (hd e he)).symm
  | some count =>
    have hmap : (planning.remaining.map fun e => if e.1 = d then (e.1, count - 1) else e) =
        planning.remaining.map fun e => if e.1 = d then (e.1, e.2 - 1) else e := by
      apply List.map_congr_left
      intro e he
      split_ifs with heq
      · have hsome := Lookups.lookup_of_mem h (heq ▸ he : (d, e.2) ∈ planning.remaining)
        rw [hlookup] at hsome
        cases hsome
        rfl
      · rfl
    dsimp only
    split_ifs <;> exact hmap

theorem ready_discharge : (planning.discharge d).ready =
    planning.ready ++ if (planning.remaining.lookup d).any (· ≤ 1) then [d] else [] := by
  unfold discharge
  cases hlookup : planning.remaining.lookup d with
  | none => simp
  | some count =>
    have hcount : count - 1 = 0 ↔ count ≤ 1 := by omega
    simp only [hcount, Option.any_some, decide_eq_true_eq]
    split_ifs <;> simp

theorem order_discharge : (planning.discharge d).order = planning.order := by
  unfold discharge
  cases planning.remaining.lookup d with
  | none => rfl
  | some count =>
    dsimp only
    split_ifs <;> rfl

theorem keys_discharge (h : (planning.remaining.map Prod.fst).Nodup) :
    (planning.discharge d).remaining.map Prod.fst = planning.remaining.map Prod.fst := by
  rw [remaining_discharge h, List.map_map]
  apply List.map_congr_left
  intro e _
  rw [Function.comp_apply]
  split_ifs <;> rfl

theorem lookup_discharge (h : (planning.remaining.map Prod.fst).Nodup) (hne : x ≠ d) :
    (planning.discharge d).remaining.lookup x = planning.remaining.lookup x := by
  rw [remaining_discharge h]
  exact (Lookups.lookup_modify (· - 1) d x planning.remaining).trans (if_neg hne)

/-- Each of the waiting has one dependency fewer, and is ready if it was the last. -/
theorem foldl_discharge (h : (planning.remaining.map Prod.fst).Nodup) (hwaiting : waiting.Nodup) :
    (waiting.foldl discharge planning).remaining =
      (planning.remaining.map fun e => if e.1 ∈ waiting then (e.1, e.2 - 1) else e) ∧
    (waiting.foldl discharge planning).ready =
      planning.ready ++ waiting.filter (fun d => (planning.remaining.lookup d).any (· ≤ 1)) ∧
    (waiting.foldl discharge planning).order = planning.order := by
  induction waiting generalizing planning with
  | nil => simp
  | cons d waiting ih =>
    have hcons := List.nodup_cons.mp hwaiting
    have hkeys : ((planning.discharge d).remaining.map Prod.fst).Nodup := by rwa [keys_discharge h]
    obtain ⟨hremaining, hready, horder⟩ := ih hkeys hcons.2
    rw [List.foldl_cons]
    refine ⟨?_, ?_, ?_⟩
    · rw [hremaining, remaining_discharge h, List.map_map]
      apply List.map_congr_left
      intro e _
      rw [Function.comp_apply]
      by_cases hd : e.1 = d
      · simp [hd, hcons.1]
      · simp [hd]
    · have hlookup : waiting.filter (fun x => ((planning.discharge d).remaining.lookup x).any (· ≤ 1)) =
          waiting.filter (fun x => (planning.remaining.lookup x).any (· ≤ 1)) := by
        apply List.filter_congr
        intro x hx
        have hne : x ≠ d := fun heq => hcons.1 (heq ▸ hx)
        rw [lookup_discharge h hne]
      rw [hready, hlookup, ready_discharge, List.append_assoc, List.filter_cons]
      split_ifs <;> rfl
    · rw [horder, order_discharge]

section Place

variable (h : (planning.remaining.map Prod.fst).Nodup) (hwaiting : waiting.Nodup)

include h

theorem nodup_kept : ((planning.remaining.filter (·.1 ≠ id)).map Prod.fst).Nodup :=
  (List.filter_sublist.map Prod.fst).nodup h

include hwaiting

theorem remaining_place : (planning.place id waiting).remaining =
    (planning.remaining.filter (·.1 ≠ id)).map fun e => if e.1 ∈ waiting then (e.1, e.2 - 1) else e :=
  (foldl_discharge (nodup_kept h) hwaiting).1

theorem ready_place : (planning.place id waiting).ready = planning.ready ++
    waiting.filter fun d => ((planning.remaining.filter (·.1 ≠ id)).lookup d).any (· ≤ 1) :=
  (foldl_discharge (nodup_kept h) hwaiting).2.1

theorem order_place : (planning.place id waiting).order = planning.order ++ [id] :=
  (foldl_discharge (nodup_kept h) hwaiting).2.2

theorem keys_place : (planning.place id waiting).remaining.map Prod.fst =
    (planning.remaining.map Prod.fst).filter (· ≠ id) := by
  rw [remaining_place h hwaiting, List.map_map, List.filter_map]
  apply List.map_congr_left
  intro e _
  rw [Function.comp_apply]
  split_ifs <;> rfl

theorem mem_ready_place : x ∈ (planning.place id waiting).ready ↔
    x ∈ planning.ready ∨ x ∈ waiting ∧ x ≠ id ∧ ∃ count ≤ 1, (x, count) ∈ planning.remaining := by
  have hkept (count : ℕ) : (x, count) ∈ planning.remaining.filter (·.1 ≠ id) ↔
      (x, count) ∈ planning.remaining ∧ x ≠ id := by simp
  rw [ready_place h hwaiting, List.mem_append, List.mem_filter]
  apply or_congr_right
  apply and_congr_right
  intro _
  cases hlookup : (planning.remaining.filter (·.1 ≠ id)).lookup x with
  | none =>
    constructor
    · intro hany
      cases hany
    · intro hmem
      obtain ⟨hne, count, -, hmem⟩ := hmem
      rw [Lookups.lookup_of_mem (nodup_kept h) ((hkept count).mpr ⟨hmem, hne⟩)] at hlookup
      cases hlookup
  | some count =>
    have hcount := (hkept count).mp (Lookups.mem_of_lookup hlookup)
    rw [Option.any_some, decide_eq_true_eq]
    constructor
    · intro hle
      exact ⟨hcount.2, count, hle, hcount.1⟩
    · intro hmem
      obtain ⟨hne, count', hle, hmem⟩ := hmem
      rw [Lookups.lookup_of_mem (nodup_kept h) ((hkept count').mpr ⟨hmem, hne⟩)] at hlookup
      cases hlookup
      exact hle

end Place

end Planning

/-! ### The whole plan -/

namespace ModuleGraph

variable {self : ModuleGraph} {planning : Planning ModuleId} {id owner dependency : ModuleId} {module : Module}

theorem get_of_mem (h : (id, module) ∈ self.modules) : self.get id = some module := by
  obtain ⟨before, after, heq⟩ := List.append_of_mem h
  have hsorted := self.sorted
  rw [heq, List.map_append, List.map_cons] at hsorted
  have hbefore := (List.pairwise_append.mp hsorted).2.2
  apply List.lookup_eq_some_iff.mpr
  refine ⟨before, after, heq, ?_⟩
  intro e he
  have hlt := hbefore e.1 (List.mem_map_of_mem he) id List.mem_cons_self
  simpa using hlt.ne'

theorem directDependencies_of_mem (h : (id, module) ∈ self.modules) :
    self.directDependencies id = module.dependsOn := by
  rw [directDependencies, get_of_mem h]
  rfl

theorem directDependencies_of_notMem (h : id ∉ self.ids) : self.directDependencies id = [] := by
  have hnone : self.get id = none := by
    rw [get, List.lookup_eq_none_iff]
    intro e he
    have hne : id ≠ e.1 := fun heq => h (heq ▸ List.mem_map_of_mem he)
    simpa using hne
  rw [directDependencies, hnone]
  rfl

theorem nodup_directDependencies (id : ModuleId) : (self.directDependencies id).Nodup := by
  by_cases h : id ∈ self.ids
  · obtain ⟨e, he, rfl⟩ := List.mem_map.mp h
    rw [directDependencies_of_mem he]
    exact self.declared_once e he
  · rw [directDependencies_of_notMem h]
    exact .nil

theorem mem_dependents : owner ∈ self.dependents id ↔ id ∈ self.directDependencies owner := by
  have hfold := Folds.foldl_or (p := fun waiting => owner ∈ waiting)
    (q := fun e : ModuleId × Module => owner = e.1 ∧ id ∈ e.2.dependsOn)
    (f := fun waiting e => if id ∈ e.2.dependsOn then SortedSets.insert e.1 waiting else waiting)
    (fun waiting e => by
      split_ifs with hid
      · simp [hid, or_comm]
      · simp [hid])
    self.modules []
  have hmem : owner ∈ self.dependents id ↔ ∃ e ∈ self.modules, owner = e.1 ∧ id ∈ e.2.dependsOn :=
    hfold.trans (or_iff_right List.not_mem_nil)
  rw [hmem]
  constructor
  · intro h
    obtain ⟨e, he, howner, hid⟩ := h
    rw [howner, directDependencies_of_mem he]
    exact hid
  · intro h
    by_cases howner : owner ∈ self.ids
    · obtain ⟨e, he, heq⟩ := List.mem_map.mp howner
      rw [← heq, directDependencies_of_mem he] at h
      exact ⟨e, he, heq.symm, h⟩
    · rw [directDependencies_of_notMem howner] at h
      cases h

theorem sorted_dependents (id : ModuleId) : (self.dependents id).Pairwise (· < ·) := by
  apply Folds.foldl_preserves (p := fun waiting : List ModuleId => waiting.Pairwise (· < ·))
  · intro waiting e hwaiting
    dsimp only
    split_ifs
    · exact SortedSets.pairwise_insert hwaiting
    · exact hwaiting
  · exact .nil

/-- What holds of a plan under way: the counts are those of the dependencies not placed. -/
structure Planned (graph : ModuleGraph) (planning : Planning ModuleId) : Prop where
  keys : planning.remaining.map Prod.fst = graph.ids.filter (· ∉ planning.order)
  count : ∀ e ∈ planning.remaining, e.2 = ((graph.directDependencies e.1).filter (· ∉ planning.order)).length
  ready_iff : ∀ id, id ∈ planning.ready ↔ (id, 0) ∈ planning.remaining
  ready_nodup : planning.ready.Nodup
  order_nodup : planning.order.Nodup
  order_ids : ∀ id ∈ planning.order, id ∈ graph.ids
  order_sorted : Sorted graph.directDependencies planning.order

theorem nodup_ids : self.ids.Nodup := self.sorted.nodup

theorem planned_start : self.Planned self.start where
  keys := by
    rw [start, List.map_map]
    simp [ids, Function.comp_def]
  count := by
    intro e he
    obtain ⟨m, hm, rfl⟩ := List.mem_map.mp he
    rw [directDependencies_of_mem hm]
    simp [start]
  ready_iff := by
    intro id
    simp [start]
  ready_nodup := by
    have hkeys : (self.modules.map fun (id, module) => (id, module.dependsOn.length)).map Prod.fst = self.ids := by
      rw [List.map_map]
      rfl
    exact (List.filter_sublist.map Prod.fst).nodup (hkeys ▸ nodup_ids)
  order_nodup := .nil
  order_ids := fun id h => absurd h List.not_mem_nil
  order_sorted := sorted_nil

theorem Planned.nodup_keys (h : self.Planned planning) : (planning.remaining.map Prod.fst).Nodup := by
  rw [h.keys]
  exact nodup_ids.filter _

theorem Planned.placed_of_ready (h : self.Planned planning) (hid : id ∈ planning.ready) :
    ∀ d ∈ self.directDependencies id, d ∈ planning.order := by
  intro d hd
  have hcount := h.count _ ((h.ready_iff id).mp hid)
  by_contra hnot
  have hmem : d ∈ (self.directDependencies id).filter (· ∉ planning.order) := List.mem_filter.mpr ⟨hd, by simpa⟩
  rw [List.eq_nil_of_length_eq_zero hcount.symm] at hmem
  cases hmem

/-- One dependency fewer is left when `id` is placed, if it is one. -/
theorem length_filter_placed {deps order : List ModuleId} (hdeps : deps.Nodup) (hid : id ∉ order) :
    (deps.filter (· ∉ order ++ [id])).length =
      if id ∈ deps then (deps.filter (· ∉ order)).length - 1 else (deps.filter (· ∉ order)).length := by
  have hsplit : deps.filter (· ∉ order ++ [id]) = (deps.filter (· ∉ order)).erase id := by
    rw [(hdeps.filter _).erase_eq_filter, List.filter_filter]
    apply List.filter_congr
    intro d _
    rw [Bool.eq_iff_iff]
    simp [and_comm]
  rw [hsplit, List.length_erase]
  simp [hid]

theorem Planned.notMem_dependents (h : self.Planned planning) (hid : id ∉ planning.order)
    (howner : owner ∈ planning.ready) : owner ∉ self.dependents id := fun hmem =>
  hid (h.placed_of_ready howner id (mem_dependents.mp hmem))

theorem Planned.place {ready : List ModuleId} (h : self.Planned planning) (hready : planning.ready = id :: ready) :
    self.Planned ({ planning with ready }.place id (self.dependents id)) := by
  have hid : id ∈ planning.ready := hready ▸ List.mem_cons_self
  have hmem_ready {x : ModuleId} (hx : x ∈ ready) : x ∈ planning.ready := hready ▸ List.mem_cons_of_mem id hx
  have hnodup_ready := List.nodup_cons.mp (hready ▸ h.ready_nodup)
  have hzero := (h.ready_iff id).mp hid
  have hkey : id ∈ planning.remaining.map Prod.fst := List.mem_map_of_mem hzero
  rw [h.keys, List.mem_filter] at hkey
  have hnew : id ∉ planning.order := by simpa using hkey.2
  have hdependents : (self.dependents id).Nodup := (sorted_dependents id).nodup
  have hkeys : ({ planning with ready }.remaining.map Prod.fst).Nodup := h.nodup_keys
  have hremaining := @Planning.remaining_place _ _ _ id _ hkeys hdependents
  have horder := @Planning.order_place _ _ _ id _ hkeys hdependents
  constructor
  case keys =>
    rw [Planning.keys_place hkeys hdependents, h.keys, List.filter_filter, horder]
    apply List.filter_congr
    intro x _
    rw [Bool.eq_iff_iff]
    simp [and_comm]
  case count =>
    intro e' he'
    rw [hremaining] at he'
    obtain ⟨e, he, rfl⟩ := List.mem_map.mp he'
    have hcount := h.count e (List.mem_filter.mp he).1
    rw [horder]
    split_ifs with hmem
    · rw [length_filter_placed (nodup_directDependencies e.1) hnew, if_pos (mem_dependents.mp hmem), ← hcount]
    · rw [length_filter_placed (nodup_directDependencies e.1) hnew, if_neg fun hdep => hmem (mem_dependents.mpr hdep),
        ← hcount]
  case ready_iff =>
    intro x
    rw [Planning.mem_ready_place hkeys hdependents, hremaining, List.mem_map]
    constructor
    · intro hx
      cases hx with
      | inl hx =>
        have hne : x ≠ id := fun heq => hnodup_ready.1 (heq ▸ hx)
        have hmem := (h.ready_iff x).mp (hmem_ready hx)
        exact ⟨(x, 0), List.mem_filter.mpr ⟨hmem, by simpa⟩, if_neg (h.notMem_dependents hnew (hmem_ready hx))⟩
      | inr hx =>
        obtain ⟨hwaits, hne, count, hcount, hmem⟩ := hx
        refine ⟨(x, count), List.mem_filter.mpr ⟨hmem, by simpa⟩, ?_⟩
        have hlast : count - 1 = 0 := by omega
        rw [if_pos hwaits, hlast]
    · intro hx
      obtain ⟨e, he, heq⟩ := hx
      obtain ⟨hmem, hne⟩ := List.mem_filter.mp he
      split_ifs at heq with hwaits
      · have hx : e.1 = x := congrArg Prod.fst heq
        have hlast : e.2 - 1 = 0 := congrArg Prod.snd heq
        rw [← hx]
        exact .inr ⟨hwaits, by simpa using hne, e.2, by omega, hmem⟩
      · have hx := (h.ready_iff x).mpr (heq ▸ hmem)
        rw [hready] at hx
        have hne : x ≠ id := by simpa [heq] using hne
        exact .inl ((List.mem_cons.mp hx).resolve_left hne)
  case ready_nodup =>
    rw [Planning.ready_place hkeys hdependents]
    apply hnodup_ready.2.append (hdependents.filter _)
    intro x hx hwaits
    exact h.notMem_dependents hnew (hmem_ready hx) (List.mem_filter.mp hwaits).1
  case order_nodup =>
    rw [horder]
    apply h.order_nodup.append (List.nodup_singleton id)
    intro x hx hlast
    exact hnew (List.mem_singleton.mp hlast ▸ hx)
  case order_ids =>
    intro x hx
    rw [horder] at hx
    cases List.mem_append.mp hx with
    | inl hx => exact h.order_ids x hx
    | inr hx => exact List.mem_singleton.mp hx ▸ hkey.1
  case order_sorted =>
    rw [horder]
    exact h.order_sorted.concat (h.placed_of_ready hid)

/-- As many rounds as there are modules leave none ready. -/
theorem planned_plan {fuel : ℕ} (h : self.Planned planning) (hfuel : self.modules.length ≤ fuel + planning.order.length) :
    self.Planned (self.plan fuel planning) ∧ (self.plan fuel planning).ready = [] := by
  induction fuel generalizing planning with
  | zero =>
    refine ⟨h, ?_⟩
    have hlength : self.ids.length ≤ planning.order.length := by
      rw [ids, List.length_map]
      omega
    have hperm := (List.subperm_of_subset h.order_nodup h.order_ids).perm_of_length_le hlength
    have hall : ∀ id ∈ self.ids, id ∈ planning.order := fun id hid => hperm.mem_iff.mpr hid
    rw [plan, List.eq_nil_iff_forall_not_mem]
    intro id hid
    have hkey : id ∈ planning.remaining.map Prod.fst := List.mem_map_of_mem ((h.ready_iff id).mp hid)
    rw [h.keys, List.mem_filter] at hkey
    exact absurd (hall id hkey.1) (by simpa using hkey.2)
  | succ fuel ih =>
    rw [plan]
    cases hready : planning.ready with
    | nil => exact ⟨h, hready⟩
    | cons id ready =>
      have hplace := h.place hready
      apply ih hplace
      have hkeys : ({ planning with ready }.remaining.map Prod.fst).Nodup := h.nodup_keys
      rw [Planning.order_place hkeys (sorted_dependents id).nodup, List.length_append, List.length_singleton]
      dsimp only
      omega

/-- The plan of all modules. -/
def planned (self : ModuleGraph) : Planning ModuleId := self.plan self.modules.length self.start

theorem planned_planned : self.Planned self.planned ∧ self.planned.ready = [] :=
  planned_plan planned_start (Nat.le_add_right ..)

theorem mem_remaining_iff : id ∈ self.planned.remaining.map Prod.fst ↔ id ∈ self.ids ∧ id ∉ self.planned.order := by
  rw [planned_planned.1.keys, List.mem_filter, decide_eq_true_eq]

/-- What is left over is on a cycle or depends on one, as each module left has a dependency left. -/
theorem mem_remaining_iff_reachesCycle (hvalid : self.validate = .ok ()) :
    id ∈ self.planned.remaining.map Prod.fst ↔ id ∈ self.ids ∧ ReachesCycle self.directDependencies id := by
  have hplanned := (@planned_planned self).1
  constructor
  · intro h
    have hid := mem_remaining_iff.mp h
    refine ⟨hid.1, reachesCycle_of_closed ?_ h⟩
    intro a ha
    obtain ⟨e, he, rfl⟩ := List.mem_map.mp ha
    have hpos : e.2 ≠ 0 := by
      intro hzero
      have hready := (hplanned.ready_iff e.1).mpr (hzero ▸ he)
      rw [planned_planned.2] at hready
      cases hready
    rw [hplanned.count e he] at hpos
    obtain ⟨d, hd⟩ := List.exists_mem_of_length_pos (Nat.pos_of_ne_zero hpos)
    obtain ⟨hdep, hnot⟩ := List.mem_filter.mp hd
    obtain ⟨m, hm, hkey⟩ := List.mem_map.mp (mem_remaining_iff.mp ha).1
    have hknown : d ∈ self.ids := by
      rw [← hkey, directDependencies_of_mem hm] at hdep
      exact mem_of_validate hvalid hm hdep
    exact ⟨d, mem_remaining_iff.mpr ⟨hknown, by simpa using hnot⟩, hdep⟩
  · intro h
    rw [mem_remaining_iff]
    exact ⟨h.1, fun hmem => hplanned.order_sorted.not_reachesCycle hplanned.order_nodup hmem h.2⟩

theorem mem_ids_of_dep (h : Dep self.directDependencies id dependency) : id ∈ self.ids := by
  by_contra hnot
  rw [Dep, directDependencies_of_notMem hnot] at h
  cases h

theorem acyclic_iff (hvalid : self.validate = .ok ()) :
    Acyclic self.directDependencies ↔ self.planned.remaining = [] := by
  constructor
  · intro hacyclic
    by_contra hne
    obtain ⟨e, he⟩ := List.exists_mem_of_ne_nil _ hne
    obtain ⟨-, c, -, hcycle⟩ := (mem_remaining_iff_reachesCycle hvalid).mp (List.mem_map_of_mem he)
    exact hacyclic c hcycle
  · intro hnil a hcycle
    obtain ⟨b, hab, -⟩ := TransGen.head'_iff.mp hcycle
    have hmem := (mem_remaining_iff_reachesCycle hvalid).mpr ⟨mem_ids_of_dep hab, a, .refl, hcycle⟩
    rw [hnil] at hmem
    cases hmem

theorem buildOrder_eq (hvalid : self.validate = .ok ()) : self.buildOrder =
    if self.planned.remaining.isEmpty then .ok self.planned.order
    else .error (.cycle ((self.planned.remaining.map Prod.fst).insertionSort (· ≤ ·))) := by
  rw [buildOrder, hvalid]
  rfl

/-- The order, where there is one, lists each module once, after its dependencies. -/
theorem perm_order (h : self.planned.remaining = []) : self.planned.order.Perm self.ids := by
  have hplanned := (@planned_planned self).1
  apply (List.perm_ext_iff_of_nodup hplanned.order_nodup nodup_ids).mpr
  intro id
  constructor
  · exact hplanned.order_ids id
  · intro hid
    by_contra hnot
    have hmem := mem_remaining_iff.mpr ⟨hid, hnot⟩
    rw [h] at hmem
    cases hmem

end ModuleGraph

end Krusty.Build.Graph

/-! What must rebuild when a module changes, and the two queries over any order of insertion. -/
namespace Krusty.Build.Graph

open Topological Relation

namespace ModuleGraph

/-- Every module that must rebuild when `id`'s ABI changes. At most each module is queued, beside `id`. -/
def transitiveDependents (self : ModuleGraph) (id : ModuleId) : List ModuleId :=
  SortedSets.remove id (Closure.spread self.dependents (self.modules.length + 1) [] [id])

variable {self graph : ModuleGraph} {id owner : ModuleId}

theorem mem_ids_of_mem_dependents (h : owner ∈ self.dependents id) : owner ∈ self.ids :=
  mem_ids_of_dep (mem_dependents.mp h)

/-- The reverse index leads from a module to those that reach it. -/
theorem transGen_dependents : TransGen (Closure.Edge self.dependents) id owner ↔
    TransGen (Dep self.directDependencies) owner id := by
  have hswap : Closure.Edge self.dependents = Function.swap (Dep self.directDependencies) := by
    funext a b
    exact propext mem_dependents
  rw [hswap]
  exact transGen_swap

theorem mem_transitiveDependents : owner ∈ self.transitiveDependents id ↔
    owner ≠ id ∧ TransGen (Dep self.directDependencies) owner id := by
  have hsettled : Closure.Settled self.dependents ([], [id]) := fun a ha => absurd ha List.not_mem_nil
  have hwork : Closure.work self.ids ([], [id]) ≤ self.modules.length + 1 := by
    simp [Closure.work, ids, Nat.add_comm]
  rw [transitiveDependents, SortedSets.mem_remove,
    Closure.mem_spread (fun a b => mem_ids_of_mem_dependents) hsettled hwork, and_comm]
  simp [transGen_dependents]

theorem sorted_transitiveDependents (id : ModuleId) : (self.transitiveDependents id).Pairwise (· < ·) :=
  SortedSets.pairwise_remove (Closure.sorted_spread .nil)

/-! ### From the modules put in -/

theorem entry_eq_some {module : Module} {e : ModuleId × Module} (h : entry module = some e) :
    module.id = some e.1 ∧ e.2.dependsOn = retainNew [] module.dependsOn := by
  unfold entry at h
  cases hid : module.id with
  | none => simp [hid] at h
  | some id =>
    cases hpaths : module.normalizePaths with
    | error base => simp [hid, hpaths, Except.toOption] at h
    | ok normalized =>
      have hsame : normalized.dependsOn = module.dependsOn := by
        unfold Module.normalizePaths at hpaths
        split_ifs at hpaths
        cases hpaths
        rfl
      simp only [hid, hpaths, Except.toOption, Option.bind_eq_bind, Option.bind_some, Option.some.injEq] at h
      subst h
      exact ⟨rfl, congrArg (retainNew []) hsame⟩

/-- The dependencies of a module in the graph are the declared ones. -/
theorem mem_directDependencies_of_insertAll {modules : List Module} (h : new.insertAll modules = .ok graph)
    {module : Module} (hmodule : module ∈ modules) : ∃ id ∈ graph.ids, module.id = some id ∧
      ∀ dependency, Dep graph.directDependencies id dependency ↔ dependency ∈ module.dependsOn := by
  obtain ⟨hsome, -, hperm⟩ := insertAll_ok_iff.mp h
  obtain ⟨e, he⟩ := Option.isSome_iff_exists.mp (hsome module hmodule)
  have hmem : e ∈ graph.modules := hperm.mem_iff.mpr (List.mem_filterMap.mpr ⟨module, hmodule, he⟩)
  obtain ⟨hid, hdeps⟩ := entry_eq_some he
  refine ⟨e.1, List.mem_map_of_mem hmem, hid, ?_⟩
  intro dependency
  rw [Dep, directDependencies_of_mem hmem, hdeps, mem_retainNew]
  simp

theorem length_ids_of_insertAll {modules : List Module} (h : new.insertAll modules = .ok graph) :
    graph.ids.length = modules.length := by
  obtain ⟨hsome, -, hperm⟩ := insertAll_ok_iff.mp h
  rw [ids, List.length_map, hperm.length_eq]
  exact List.filterMap_length_eq_length.mpr hsome

theorem buildOrder_ok_iff (hvalid : graph.validate = .ok ()) :
    (∃ order, graph.buildOrder = .ok order) ↔ Acyclic graph.directDependencies := by
  rw [acyclic_iff hvalid, buildOrder_eq hvalid]
  split_ifs with hempty
  · exact ⟨fun _ => List.isEmpty_iff.mp hempty, fun _ => ⟨_, rfl⟩⟩
  · constructor
    · intro h
      obtain ⟨order, h⟩ := h
      cases h
    · intro hnil
      exact absurd (List.isEmpty_iff.mpr hnil) hempty

theorem order_of_buildOrder {order : List ModuleId} (hvalid : graph.validate = .ok ())
    (h : graph.buildOrder = .ok order) : order.Perm graph.ids ∧ Sorted graph.directDependencies order := by
  rw [buildOrder_eq hvalid] at h
  split_ifs at h with hempty
  cases h
  exact ⟨perm_order (List.isEmpty_iff.mp hempty), planned_planned.1.order_sorted⟩

theorem cycle_of_buildOrder {error : GraphError} (hvalid : graph.validate = .ok ())
    (h : graph.buildOrder = .error error) : ∃ cycle, error = .cycle cycle ∧ cycle.Nodup ∧
      ∀ id, id ∈ cycle ↔ id ∈ graph.ids ∧ ReachesCycle graph.directDependencies id := by
  rw [buildOrder_eq hvalid] at h
  split_ifs at h with hempty
  cases h
  refine ⟨_, rfl, ?_, ?_⟩
  · exact (List.perm_insertionSort _ _).nodup_iff.mpr planned_planned.1.nodup_keys
  · intro id
    rw [List.mem_insertionSort]
    exact mem_remaining_iff_reachesCycle hvalid

/-- Modules put in, in any order, are all planned, each once and after its dependencies, if these are acyclic, and
otherwise those on a cycle or after one are named. The dependents of a module are the others that reach it. -/
theorem buildOrder_topological {modules : List Module} (h : new.insertAll modules = .ok graph)
    (hvalid : graph.validate = .ok ()) :
    (graph.ids.length = modules.length ∧ ∀ module ∈ modules, ∃ id ∈ graph.ids, module.id = some id ∧
      ∀ dependency, Dep graph.directDependencies id dependency ↔ dependency ∈ module.dependsOn) ∧
    (∀ modules', modules.Perm modules' → new.insertAll modules' = .ok graph) ∧
    ((∃ order, graph.buildOrder = .ok order) ↔ Acyclic graph.directDependencies) ∧
    (∀ order, graph.buildOrder = .ok order → order.Perm graph.ids ∧ Sorted graph.directDependencies order) ∧
    (∀ error, graph.buildOrder = .error error → ∃ cycle, error = .cycle cycle ∧ cycle.Nodup ∧
      ∀ id, id ∈ cycle ↔ id ∈ graph.ids ∧ ReachesCycle graph.directDependencies id) ∧
    ∀ id, (self.transitiveDependents id).Nodup ∧ ∀ owner, owner ∈ self.transitiveDependents id ↔
      owner ≠ id ∧ TransGen (Dep self.directDependencies) owner id := by
  refine ⟨⟨length_ids_of_insertAll h, fun module => mem_directDependencies_of_insertAll h⟩,
    fun modules' hperm => insertAll_perm hperm h, buildOrder_ok_iff hvalid, fun order => order_of_buildOrder hvalid,
    fun error => cycle_of_buildOrder hvalid, ?_⟩
  intro id
  exact ⟨(sorted_transitiveDependents id).nodup, fun owner => mem_transitiveDependents⟩

/-- A module with nothing but an id and dependencies. -/
def bare (id : ModuleId) (dependsOn : List ModuleId) : Module where
  id := some id
  displayName := id
  baseDirectory := [.rootDir]
  sourceRoots := []
  resources := []
  javaSources := []
  classpath := []
  friendPaths := []
  dependsOn
  outputs := []
  jdkHome := none
  processorPath := []

def chain : ModuleGraph :=
  (new.put ['b'] (bare ['b'] [])).put ['a'] (bare ['a'] [['b'], ['b']])

theorem buildOrder_topological_chain :
    (chain.ids.length = [bare ['b'] [], bare ['a'] [['b'], ['b']]].length ∧
      ∀ module ∈ [bare ['b'] [], bare ['a'] [['b'], ['b']]], ∃ id ∈ chain.ids, module.id = some id ∧
        ∀ dependency, Dep chain.directDependencies id dependency ↔ dependency ∈ module.dependsOn) ∧
    (∀ modules', [bare ['b'] [], bare ['a'] [['b'], ['b']]].Perm modules' → new.insertAll modules' = .ok chain) ∧
    ((∃ order, chain.buildOrder = .ok order) ↔ Acyclic chain.directDependencies) ∧
    (∀ order, chain.buildOrder = .ok order → order.Perm chain.ids ∧ Sorted chain.directDependencies order) ∧
    (∀ error, chain.buildOrder = .error error → ∃ cycle, error = .cycle cycle ∧ cycle.Nodup ∧
      ∀ id, id ∈ cycle ↔ id ∈ chain.ids ∧ ReachesCycle chain.directDependencies id) ∧
    ∀ id, (chain.transitiveDependents id).Nodup ∧ ∀ owner, owner ∈ chain.transitiveDependents id ↔
      owner ≠ id ∧ TransGen (Dep chain.directDependencies) owner id :=
  buildOrder_topological rfl (by decide)

def pair : ModuleGraph :=
  (new.put ['a'] (bare ['a'] [['b']])).put ['b'] (bare ['b'] [['a']])

/-- A module on a cycle reaches itself and is not among its dependents. -/
theorem transitiveDependents_excludes : ¬∀ (graph : ModuleGraph) (id owner : ModuleId),
    owner ∈ graph.transitiveDependents id ↔ TransGen (Dep graph.directDependencies) owner id := by
  intro h
  have hforth : Dep pair.directDependencies ['a'] ['b'] := by
    unfold Dep
    decide
  have hback : Dep pair.directDependencies ['b'] ['a'] := by
    unfold Dep
    decide
  have hmem := (h pair ['a'] ['a']).mpr (.head hforth (.single hback))
  exact absurd hmem (by decide)

end ModuleGraph

end Krusty.Build.Graph
