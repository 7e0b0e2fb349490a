import Krusty.Jvm.BytecodePasses.Temporaries.Reads

/-! The classification of the stores: what it says of every run, and the plain fixed point it agrees with. -/
namespace Krusty.Jvm.BytecodePasses.Temporaries

open Dataflow

/-! ### The plain fixed point: every instruction in every round, and dirty values as sets -/

section Plain

variable (task : Task)

def sameState : Option Slots → Option Slots → Bool
  | none, none => true
  | some f, some g => (List.range task.width).all fun slot => f slot == g slot
  | _, _ => false

def plainStates (fuel : ℕ) : Option (Assignment Slots) :=
  roundRobin (Fixpoint.flow task) Slots.join (sameState task) fuel (atEntry (Fixpoint.flow task))

/-- Some instruction finds the store dirty. -/
def plainDirty (states : Assignment Slots) (store : ℕ) : Bool :=
  (List.range task.graph.len).any fun index =>
    (states index).any fun f => decide (store ∈ Fixpoint.marksAt task index f)

/-- The instruction loads from a local that holds only the store's value. -/
def plainLoad (states : Assignment Slots) (store index : ℕ) : Bool :=
  (states index).any fun f =>
    match Fixpoint.opAt task index with
    | some (.load _ slot) => f slot == .only store
    | _ => false

def plainTemporaries (states : Assignment Slots) : Found :=
  ((List.range task.graph.len).filter fun index =>
    task.candidate index && !plainDirty task states index && (states index).isSome).map
    fun store => (store, (List.range task.graph.len).filter fun index => plainLoad task states store index)

end Plain

variable {task : Task}

theorem sameState_iff {s t : Assignment Slots} (hst : s.Le Slots.Le t)
    (ht : t.Le Slots.Le (everywhere (Fixpoint.flow task) (Fixpoint.ceiling task))) :
    ((List.range (Fixpoint.flow task).count).all fun n => sameState task (s n) (t n)) = true ↔ s = t := by
  rw [List.all_eq_true]
  constructor
  · intro hall
    funext n
    cases htn : t n with
    | none =>
      cases hsn : s n with
      | none => rfl
      | some f =>
        obtain ⟨g, hg, -⟩ := hst n f hsn
        rw [htn] at hg
        cases hg
    | some g =>
      obtain ⟨hn, hceiling⟩ := le_everywhere ht htn
      have hat := hall n (List.mem_range.mpr hn)
      rw [htn] at hat
      cases hsn : s n with
      | none =>
        rw [hsn] at hat
        cases hat
      | some f =>
        rw [hsn] at hat
        obtain ⟨g', hg', hle⟩ := hst n f hsn
        rw [htn] at hg'
        cases hg'
        -- States that agree below the width agree: two that differ climb.
        by_contra hne
        have hfg : f ≠ g := fun h => hne (by rw [h])
        have hlt := Fixpoint.height_lt hle hceiling hfg
        have heq : Fixpoint.height task f = Fixpoint.height task g := by
          apply Finset.sum_congr rfl
          intro slot hslot
          have hslots := List.all_eq_true.mp hat slot (List.mem_range.mpr (Finset.mem_range.mp hslot))
          rw [beq_iff_eq.mp hslots]
        omega
  · rintro rfl n _
    cases s n with
    | none => rfl
    | some f => simp [sameState]

theorem Slots.join_isJoin (f g : Slots) : IsJoin Slots.Le (fun h => h = f ∨ h = g) (f.join g) := by
  constructor
  · rintro h (rfl | rfl) slot
    · exact Contents.le_join_left _ _
    · exact Contents.le_join_right _ _
  · intro u hu slot
    exact Contents.join_le (hu f (.inl rfl) slot) (hu g (.inr rfl) slot)

/-- The plain rounds end, at the least assignment the flow is closed under. -/
theorem plainStates_total (hfits : Fixpoint.Fits task) : ∃ enough states,
    (∀ fuel, enough ≤ fuel → plainStates task fuel = some states) ∧ Closed (Fixpoint.flow task) states ∧
      ∀ t, Closed (Fixpoint.flow task) t → states.Le Slots.Le t :=
  roundRobin_total (Fixpoint.ceiling_spec hfits) Slots.join_isJoin fun _ _ => sameState_iff

theorem mem_plainDirty {states : Assignment Slots} {store : ℕ} : plainDirty task states store = true ↔
    ∃ index < task.graph.len, ∃ f, states index = some f ∧ store ∈ Fixpoint.marksAt task index f := by
  simp [plainDirty, Option.any_eq_true]

theorem plainLoad_iff {states : Assignment Slots} {store index : ℕ} : plainLoad task states store index = true ↔
    ∃ kind slot f, Fixpoint.opAt task index = some (.load kind slot) ∧ states index = some f ∧
      f slot = .only store := by
  unfold plainLoad
  rw [Option.any_eq_true]
  constructor
  · rintro ⟨f, hf, hload⟩
    split at hload
    · next kind slot hop => exact ⟨kind, slot, f, hop, hf, beq_iff_eq.mp hload⟩
    · cases hload
  · rintro ⟨kind, slot, f, hop, hf, hslot⟩
    exact ⟨f, hf, by simp [hop, hslot]⟩

namespace Fixpoint

variable {s : Fixpoint}

/-- What the fixpoint finds can be read off the states it ends with. -/
theorem Final.temporaries_eq (h : Final task s) : s.temporaries task = plainTemporaries task s.known := by
  have hclean : ∀ store, plainDirty task s.known store = decide (store ∈ s.dirty) := by
    intro store
    rw [Bool.eq_iff_iff, mem_plainDirty, decide_eq_true_eq, h.mem_dirty]
  have hsome : ∀ index, (s.known index).isSome = (s.before index).isSome := by
    intro index
    simp [known]
  have hloads : ∀ store ∉ s.dirty, (s.loads store).sort (· ≤ ·) =
      (List.range task.graph.len).filter fun index => plainLoad task s.known store index := by
    intro store hstore
    have hset : s.loads store =
        ((List.range task.graph.len).filter fun index => plainLoad task s.known store index).toFinset := by
      ext index
      rw [List.mem_toFinset, List.mem_filter, List.mem_range, plainLoad_iff, h.mem_loads store hstore]
    rw [hset]
    apply List.toFinset_sort (· ≤ ·) _ |>.mpr
    · exact (List.pairwise_le_range).filter _
    · exact List.nodup_range.filter _
  unfold temporaries plainTemporaries
  simp only [hclean, hsome]
  rw [show (List.range task.graph.len).filter (fun index =>
      task.candidate index && decide (index ∉ s.dirty) && (s.before index).isSome) =
    (List.range task.graph.len).filter (fun index =>
      task.candidate index && !decide (index ∈ s.dirty) && (s.before index).isSome) by simp]
  apply List.map_congr_left
  intro store hmem
  have hstore : store ∉ s.dirty := by
    have := (List.mem_filter.mp hmem).2
    simp only [Bool.and_eq_true, Bool.not_eq_true', decide_eq_false_iff_not] at this
    exact this.1.2
  rw [hloads store hstore]

end Fixpoint

theorem Fixpoint.mem_temporaries {s : Fixpoint} {store : ℕ} {loads : List ℕ} :
    (store, loads) ∈ s.temporaries task ↔ (store < task.graph.len ∧ task.candidate store = true ∧
      store ∉ s.dirty ∧ (s.before store).isSome) ∧ loads = (s.loads store).sort (· ≤ ·) := by
  simp only [temporaries, List.mem_map, List.mem_filter, List.mem_range, Bool.and_eq_true, decide_eq_true_eq,
    Prod.mk.injEq]
  constructor
  · rintro ⟨_, ⟨hlt, ⟨hcandidate, hclean⟩, hsome⟩, rfl, rfl⟩
    exact ⟨⟨hlt, hcandidate, hclean, hsome⟩, rfl⟩
  · rintro ⟨⟨hlt, hcandidate, hclean, hsome⟩, rfl⟩
    exact ⟨store, ⟨hlt, ⟨hcandidate, hclean⟩, hsome⟩, rfl, rfl⟩

section Runs

variable {method : MethodNode} {s : Fixpoint} {store load : ℕ} {cells : ℕ → Cell}

/-- A listed load reads nothing but the store's value. -/
theorem Fixpoint.Final.reads (h : Final task s) (hof : task.Of method) (hclean : store ∉ s.dirty)
    (hload : load ∈ s.loads store) (hrun : Holds method load cells) :
    ∃ kind slot, opOf method load = some (.load kind slot) ∧ cells slot = .value store := by
  obtain ⟨-, kind, slot, f, hop, hf, hslot⟩ := (h.mem_loads store hclean load).mp hload
  obtain ⟨g, hg, hcells⟩ := hrun.described hof h.closed
  rw [hf] at hg
  cases hg
  have hcell := hcells slot
  rw [hslot] at hcell
  exact ⟨kind, slot, hof.opAt load ▸ hop, hcell⟩

/-- A load that reads the store's value is listed. -/
theorem Fixpoint.Final.listed (h : Final task s) (hof : task.Of method) (hcandidate : task.candidate store = true)
    (hclean : store ∉ s.dirty) {kind : Kind} {slot : ℕ} (hop : opOf method load = some (.load kind slot))
    (hrun : Holds method load cells) (hcell : cells slot = .value store) : load ∈ s.loads store := by
  obtain ⟨f, hf, hcells⟩ := hrun.described hof h.closed
  rw [← hof.opAt] at hop
  have hlt : load < task.graph.len := opAt_lt hop
  have hdescribes := hcells slot
  cases hslot : f slot with
  | unknown =>
    rw [hslot] at hdescribes
    exact absurd hcell (hdescribes store hcandidate)
  | only other =>
    rw [hslot] at hdescribes
    have heq : cells slot = .value other := hdescribes
    rw [hcell] at heq
    cases heq
    exact (h.mem_loads store hclean load).mpr ⟨hlt, kind, slot, f, hop, hf, hslot⟩
  | among stores =>
    -- The load finds a dirty value: the store is among its stores, and marked.
    rw [hslot] at hdescribes
    refine absurd ((h.mem_dirty store).mpr ⟨load, hlt, f, hf, ?_⟩) hclean
    simp [marksAt, hop, hslot, hdescribes store hcandidate hcell]

end Runs

/-- The fixpoint over the reverse post-order ends. -/
theorem Fixpoint.settled {method : MethodNode} (hof : task.Of method) : ∃ enough order s,
    (∀ fuel, enough ≤ fuel → task.graph.reversePostOrder fuel = some order ∧
      Fixpoint.settle task order fuel (.initial task.width) = some s) ∧ Fixpoint.Final task s := by
  obtain ⟨enough, order, horder, hreach⟩ := InstructionGraph.reversePostOrder_total hof.models
  obtain ⟨s, hsettle, hinv, hdone⟩ := Fixpoint.Inv.settle_total hof.fits order _ rfl
    (Fixpoint.initial_inv task.width rfl)
  refine ⟨max enough (Fixpoint.workLeft task (.initial task.width) + 1), order, s, ?_, ?_⟩
  · intro fuel hfuel
    exact ⟨horder fuel (by omega), hsettle fuel (by omega)⟩
  · apply hinv.final hof.fits
    intro index hindex hsome
    apply hdone index _ hindex hsome
    apply hreach (by omega)
    -- The fixpoint only gets to instructions that edges lead to, and the order has all of these.
    have hknown : ∃ f, s.known index = some f := by
      obtain ⟨state, hstate⟩ := Option.isSome_iff_exists.mp hsome
      exact ⟨_, by rw [Fixpoint.known, hstate]; rfl⟩
    obtain ⟨f, hf⟩ := hknown
    have hreach := reachable_of_least (Fixpoint.ceiling_spec hof.fits).closed hinv.least hf
    refine Relation.ReflTransGen.mono (fun i j hj => ?_) 0 index hreach
    obtain ⟨edge, hedge, rfl⟩ := List.mem_map.mp hj
    obtain ⟨-, e, he, -, rfl⟩ := Fixpoint.mem_edges.mp hedge
    exact (Fixpoint.edgesAt_overrides he).1

/-- For every method the analysis ends. Where it finds temporaries, each is a store; the loads listed for it
read its value and no other on every path from the entry; every load its value gets to is listed; and the
plain rounds over all instructions find the same. -/
theorem analyze_classifies (method : MethodNode) : ∃ enough result,
    (∀ fuel, enough ≤ fuel → analyze fuel method = some result) ∧
    ∀ found, result = .ok found →
      (∀ store loads, (store, loads) ∈ found →
        (∃ kind slot, opOf method store = some (.store kind slot)) ∧
        (∀ load ∈ loads, ∀ cells, Holds method load cells →
          ∃ kind slot, opOf method load = some (.load kind slot) ∧ cells slot = .value store) ∧
        ∀ load cells kind slot, Holds method load cells → opOf method load = some (.load kind slot) →
          cells slot = .value store → load ∈ loads) ∧
      ∃ task states, prepare method = .ok task ∧
        (∀ fuel, enough ≤ fuel → plainStates task fuel = some states) ∧ found = plainTemporaries task states := by
  cases hprepare : prepare method with
  | error refusal => exact ⟨0, .error refusal, fun fuel _ => by rw [analyze, hprepare], fun found h => by cases h⟩
  | ok task =>
    have hof := prepare_of hprepare
    obtain ⟨enough, order, s, hrun, hfinal⟩ := Fixpoint.settled hof
    obtain ⟨rounds, states, hplain, hclosed, hleast⟩ := plainStates_total hof.fits
    have hsame : s.known = states := (hfinal.least states hclosed).antisymm (hleast s.known hfinal.closed)
    refine ⟨max enough rounds, .ok (s.temporaries task), ?_, ?_⟩
    · intro fuel hfuel
      obtain ⟨horder, hsettle⟩ := hrun fuel (by omega)
      simp [analyze, hprepare, horder, hsettle]
    · intro found hfound
      obtain rfl := Except.ok.inj hfound
      refine ⟨?_, task, states, rfl, fun fuel hfuel => hplain fuel (by omega), ?_⟩
      · intro store loads hmem
        obtain ⟨⟨-, hcandidate, hclean, -⟩, rfl⟩ := Fixpoint.mem_temporaries.mp hmem
        refine ⟨?_, ?_, ?_⟩
        · have hstore := hof.stores store hcandidate
          unfold isStore at hstore
          split at hstore
          · next kind slot hop => exact ⟨kind, slot, hof.opAt store ▸ hop⟩
          · cases hstore
        · intro load hload cells hholds
          exact hfinal.reads hof hclean ((Finset.mem_sort _).mp hload) hholds
        · intro load cells kind slot hholds hop hcell
          exact (Finset.mem_sort _).mpr (hfinal.listed hof hcandidate hclean hop hholds hcell)
      · rw [hfinal.temporaries_eq, hsame]

end Krusty.Jvm.BytecodePasses.Temporaries
