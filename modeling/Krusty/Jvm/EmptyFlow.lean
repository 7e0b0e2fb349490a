import Krusty.Lib.Settling
import Krusty.Jvm.Execution

/-! Control that passes on without doing anything, and the bodies that differ in nothing else. -/
namespace Krusty.Jvm

open Simulation Settling

namespace Insn

theorem fallsThrough_map (f : LabelId → LabelId) (insn : Insn LabelId) :
    (insn.map f).fallsThrough = insn.fallsThrough := by
  cases insn <;> rfl

/-- Falling through depends on the shape alone. -/
theorem fallsThrough_congr {insn insn' : Insn LabelId} (h : insn.shape = insn'.shape) :
    insn.fallsThrough = insn'.fallsThrough := by
  have hconst : insn.map (fun _ => (⟨0⟩ : LabelId)) = insn'.map fun _ => ⟨0⟩ := by
    have := congrArg (Insn.map fun _ => (⟨0⟩ : LabelId)) h
    simpa only [shape, map_map, Function.comp_def] using this
  rw [← fallsThrough_map (fun _ => ⟨0⟩) insn, hconst, fallsThrough_map]

end Insn

namespace MethodNode

/-- Where a label, a line number, a `nop` or a `goto` passes control on to; every other node stops. -/
def passOn (method : MethodNode) (index : ℕ) : Option ℕ :=
  match method.nodes[index]? with
  | some (.insn (.op op)) => if op = nop then some (index + 1) else none
  | some (.insn (.jump op target)) => if op = gotoOp then method.position target else none
  | some (.insn _) => none
  | some _ => some (index + 1)
  | none => none

/-- The nodes some path from the first one reaches. Only an instruction that does more than pass control
on can throw. -/
inductive Visits (method : MethodNode) : ℕ → Prop
  | entry : Visits method 0
  | passes {i k : ℕ} (h : Visits method i) (hpass : method.passOn i = some k) : Visits method k
  | falls {i : ℕ} {insn : Insn LabelId} (h : Visits method i) (hstop : method.passOn i = none)
      (hi : method.nodes[i]? = some (.insn insn)) (hfalls : insn.fallsThrough) : Visits method (i + 1)
  | jumps {i k : ℕ} {insn : Insn LabelId} {label : LabelId} (h : Visits method i)
      (hstop : method.passOn i = none) (hi : method.nodes[i]? = some (.insn insn))
      (hlabel : label ∈ insn.jumpTargets) (hk : method.position label = some k) : Visits method k
  | catches {i k : ℕ} {insn : Insn LabelId} {block : TryCatchBlock} (h : Visits method i)
      (hstop : method.passOn i = none) (hi : method.nodes[i]? = some (.insn insn))
      (hblock : block ∈ method.tryCatchBlocks) (hprotects : method.protects block i)
      (hk : method.position block.handler = some k) : Visits method k

variable {method method' : MethodNode} {i j k : ℕ}

/-- A node that passes control on takes one step to where it passes it, whatever the machine. -/
theorem advance_passOn {S X O V : Type} (M : Machine S X O V) (h : method.passOn i = some k) (s : S) :
    method.advance M (i, s) = .goes (k, s) := by
  unfold passOn at h
  unfold advance
  split at h
  · rename_i op hi
    split_ifs at h with hop
    obtain rfl := Option.some.inj h
    subst hop
    simp only [hi, Insn.shape, Insn.map, M.exec_nop, proceed]
  · rename_i op target hi
    split_ifs at h with hop
    subst hop
    simp only [hi, Insn.shape, Insn.map, M.exec_goto, proceed]
    simp [Insn.jumpTargets, arrive, h]
  · cases h
  · rename_i node hnode hjump hinsn hi
    obtain rfl := Option.some.inj h
    cases node with
    | insn insn => exact (hinsn insn rfl).elim
    | label label => simp only [hi]
    | line line start => simp only [hi]
  · cases h

theorem Visits.of_passes (h : method.Visits i) (hpass : Passes method.passOn i j) : method.Visits j := by
  induction hpass with
  | refl => exact h
  | tail _ hstep ih => exact ih.passes hstep

/-- What control reaches from two places, in one body and in the other. -/
def Meets (method method' : MethodNode) (i i' : ℕ) : Prop :=
  ∀ j, Settles method.passOn i j ↔ Settles method'.passOn i' j

/-- Two targets stand nowhere, or at places that settle alike. -/
def MeetsAt (method method' : MethodNode) (label label' : Option LabelId) : Prop :=
  (label.bind method.position = none ∧ label'.bind method'.position = none) ∨
    ∃ p p', label.bind method.position = some p ∧ label'.bind method'.position = some p' ∧
      Meets method method' p p'

/-- An instruction that keeps its shape, and whose targets still settle where they did. -/
def Rejoins (method method' : MethodNode) (insn insn' : Insn LabelId) : Prop :=
  insn.shape = insn'.shape ∧ ∀ k : ℕ, MeetsAt method method' insn.jumpTargets[k]? insn'.jumpTargets[k]?

/-- The bodies differ only in how control passes on between the same instructions. -/
structure SameFlow (method method' : MethodNode) : Prop where
  position : ∀ label, method.position label = method'.position label
  blocks : method.tryCatchBlocks = method'.tryCatchBlocks
  settles : ∀ i, Meets method method' i i
  forth : ∀ {i insn}, method.passOn i = none → method.nodes[i]? = some (.insn insn) →
    ∃ insn', method'.nodes[i]? = some (.insn insn') ∧ Rejoins method method' insn insn'
  back : ∀ {i insn'}, method'.passOn i = none → method'.nodes[i]? = some (.insn insn') →
    ∃ insn, method.nodes[i]? = some (.insn insn) ∧ Rejoins method' method insn' insn

theorem Meets.symm {i' : ℕ} (h : Meets method method' i i') : Meets method' method i' i :=
  fun j => (h j).symm

/-- A place that stops holds an instruction, or lies past the last node. -/
theorem insn_of_stops (h : method.passOn i = none) (hlt : i < method.nodes.length) :
    ∃ insn, method.nodes[i]? = some (.insn insn) := by
  unfold passOn at h
  rw [List.getElem?_eq_getElem hlt] at h ⊢
  cases hnode : method.nodes[i] with
  | insn insn => exact ⟨insn, rfl⟩
  | label label => simp [hnode] at h
  | line line start => simp [hnode] at h

theorem MeetsAt.symm {label label' : Option LabelId} (h : MeetsAt method method' label label') :
    MeetsAt method' method label' label := by
  rcases h with ⟨hnone, hnone'⟩ | ⟨p, p', hp, hp', hmeets⟩
  · exact .inl ⟨hnone', hnone⟩
  · exact .inr ⟨p', p, hp', hp, hmeets.symm⟩

theorem Rejoins.symm {insn insn' : Insn LabelId} (h : Rejoins method method' insn insn') :
    Rejoins method' method insn' insn :=
  ⟨h.1.symm, fun k => (h.2 k).symm⟩

namespace SameFlow

/-- Bodies of one length: what the first one's instructions become says it all. -/
theorem of_forth (hlen : method.nodes.length = method'.nodes.length)
    (hposition : ∀ label, method.position label = method'.position label)
    (hblocks : method.tryCatchBlocks = method'.tryCatchBlocks) (hsettles : ∀ i, Meets method method' i i)
    (hforth : ∀ {i insn}, method.passOn i = none → method.nodes[i]? = some (.insn insn) →
      ∃ insn', method'.nodes[i]? = some (.insn insn') ∧ Rejoins method method' insn insn') :
    SameFlow method method' where
  position := hposition
  blocks := hblocks
  settles := hsettles
  forth := hforth
  back := by
    intro i insn' hstop hi'
    have hsettles : Settles method.passOn i i := (hsettles i i).mpr (.of_none hstop)
    obtain ⟨insn, hi⟩ := insn_of_stops hsettles.2 (hlen ▸ (List.getElem?_eq_some_iff.mp hi').1)
    obtain ⟨insn'', hi'', hrejoins⟩ := hforth hsettles.2 hi
    rw [hi'] at hi''
    cases hi''
    exact ⟨insn, hi, hrejoins.symm⟩

theorem symm (h : SameFlow method method') : SameFlow method' method where
  position label := (h.position label).symm
  blocks := h.blocks.symm
  settles i := (h.settles i).symm
  forth := h.back
  back := h.forth

theorem protects (h : SameFlow method method') (block : TryCatchBlock) (i : ℕ) :
    method.protects block i = method'.protects block i := by
  simp only [MethodNode.protects, spans, h.position]

/-- The instructions both bodies reach are the same, up to where their targets settle. -/
theorem stops_iff (h : SameFlow method method') : method.passOn i = none ↔ method'.passOn i = none := by
  constructor
  · intro hstop
    have hsettles := (h.settles i i).mp (.of_none hstop)
    exact hsettles.2
  · intro hstop
    have hsettles := (h.settles i i).mpr (.of_none hstop)
    exact hsettles.2

theorem visits (h : SameFlow method method') (hvisits : method.Visits i)
    (hj : Settles method.passOn i j) : method'.Visits j := by
  -- what is visited in one body is only known to be visited in the other where control settles
  induction hvisits generalizing j with
  | entry => exact Visits.entry.of_passes ((h.settles 0 j).mp hj).1
  | passes _ hpass ih => exact ih ((settles_iff_of_step hpass).mpr hj)
  | @falls i insn _ hstop hi hfalls ih =>
    obtain ⟨insn', hi', hshape, -⟩ := h.forth hstop hi
    have hnext : method'.Visits (i + 1) := (ih (.of_none hstop)).falls (h.stops_iff.mp hstop) hi'
      (Insn.fallsThrough_congr hshape ▸ hfalls)
    exact hnext.of_passes ((h.settles _ j).mp hj).1
  | @jumps i k insn label _ hstop hi hlabel hk ih =>
    obtain ⟨insn', hi', -, htargets⟩ := h.forth hstop hi
    obtain ⟨n, hn⟩ := List.mem_iff_getElem?.mp hlabel
    rcases htargets n with ⟨hnone, -⟩ | ⟨p, p', hp, hp', hmeets⟩
    · rw [hn, Option.bind_some, hk] at hnone
      cases hnone
    · rw [hn, Option.bind_some, hk] at hp
      obtain rfl := Option.some.inj hp
      obtain ⟨label', hlabel', hp'⟩ := Option.bind_eq_some_iff.mp hp'
      have htarget := (ih (.of_none hstop)).jumps (h.stops_iff.mp hstop) hi'
        (List.mem_of_getElem? hlabel') hp'
      exact htarget.of_passes ((hmeets j).mp hj).1
  | @catches i k insn block _ hstop hi hblock hprotects hk ih =>
    obtain ⟨insn', hi', -⟩ := h.forth hstop hi
    have hhandler := (ih (.of_none hstop)).catches (h.stops_iff.mp hstop) hi' (h.blocks ▸ hblock)
      (h.protects block i ▸ hprotects) (h.position _ ▸ hk)
    exact hhandler.of_passes ((h.settles _ j).mp hj).1

end SameFlow

section Run

variable {S X O V : Type} (M : Machine S X O V)

/-- A state of each body: the same machine state, at nodes from which control settles alike. -/
def Beside (method method' : MethodNode) (a b : ℕ × S) : Prop := Meets method method' a.1 b.1 ∧ a.2 = b.2

variable {M} {rank : ℕ × S → ℕ × S → ℕ} {a b : ℕ × S}

theorem progress_arrive {label label' : Option LabelId} (h : MeetsAt method method' label label') (s : S)
    (ha : method.advance M a = method.arrive label s) (hb : method'.advance M b = method'.arrive label' s) :
    Progress (method.program M) (method'.program M) (Beside method method') rank a b := by
  rcases h with ⟨hnone, hnone'⟩ | ⟨p, p', hp, hp', hmeet⟩
  · simp only [arrive, hnone] at ha
    simp only [arrive, hnone'] at hb
    exact .done ha hb
  · simp only [arrive, hp] at ha
    simp only [arrive, hp'] at hb
    exact .both ha hb ⟨hmeet, rfl⟩

/-- At a node that stops, both bodies execute the same instruction. -/
theorem SameFlow.progress_stop (h : SameFlow method method') (hstop : method.passOn i = none) (s : S) :
    Progress (method.program M) (method'.program M) (Beside method method') rank (i, s) (i, s) := by
  cases hnode : method.nodes[i]? with
  | none =>
    have hnode' : method'.nodes[i]? = none := by
      by_contra hsome
      have hlt : i < method'.nodes.length := by simpa using hsome
      obtain ⟨insn', hi'⟩ := insn_of_stops (h.stops_iff.mp hstop) hlt
      obtain ⟨insn, hi, -⟩ := h.back (h.stops_iff.mp hstop) hi'
      rw [hnode] at hi
      cases hi
    exact .done (o := none) (by simp [program, advance, hnode]) (by simp [program, advance, hnode'])
  | some node =>
    have hlt := (List.getElem?_eq_some_iff.mp hnode).1
    obtain ⟨insn, hi⟩ := insn_of_stops hstop hlt
    obtain ⟨insn', hi', hshape, htargets⟩ := h.forth hstop hi
    have ha : method.advance M (i, s) = method.proceed M i insn (M.exec insn.shape s) := by
      simp only [advance, hi]
    have hb : method'.advance M (i, s) = method'.proceed M i insn' (M.exec insn.shape s) := by
      simp only [advance, hi', hshape]
    cases heffect : M.exec insn.shape s with
    | next s' =>
      rw [heffect] at ha hb
      exact .both ha hb ⟨h.settles (i + 1), rfl⟩
    | branch k s' =>
      rw [heffect] at ha hb
      exact progress_arrive (htargets k) s' ha hb
    | throws x s' =>
      rw [heffect] at ha hb
      have hcatcher : method'.catcher M i x s' = method.catcher M i x s' := by
        simp only [catcher, h.blocks, h.protects]
      simp only [proceed] at ha
      simp only [proceed, hcatcher] at hb
      cases hblock : method.catcher M i x s' with
      | none =>
        rw [hblock] at ha hb
        exact .done ha hb
      | some block =>
        rw [hblock] at ha hb
        refine progress_arrive ?_ _ ha hb
        cases hp : method.position block.handler with
        | none => exact .inl ⟨hp, (h.position _).symm.trans hp⟩
        | some p => exact .inr ⟨p, p, hp, (h.position _).symm.trans hp, h.settles p⟩
    | returns o =>
      rw [heffect] at ha hb
      exact .done ha hb
    | stuck =>
      rw [heffect] at ha hb
      exact .done ha hb

theorem SameFlow.ranked (h : SameFlow method method') (M : Machine S X O V) :
    ∃ rank : ℕ × S → ℕ × S → ℕ,
      Ranked (method.program M) (method'.program M) (Beside method method') rank := by
  obtain ⟨depth, hdepth⟩ := exists_depth method.passOn
  obtain ⟨depth', hdepth'⟩ := exists_depth method'.passOn
  refine ⟨fun a b => depth a.1 + depth' b.1, ?_, ?_⟩
  · rintro ⟨i, s⟩ ⟨i', s'⟩ ⟨-, hs⟩
    exact congrArg M.view hs
  rintro ⟨i, s⟩ ⟨i', s'⟩ ⟨hmeets, rfl⟩
  simp only at hmeets
  cases hi : method.passOn i with
  | none =>
    have hsettles := (hmeets i).mp (.of_none hi)
    cases hi' : method'.passOn i' with
    | none =>
      obtain rfl := hsettles.eq_of_none hi'
      exact h.progress_stop hi s
    | some k' =>
      -- the other body still passes control on to the instruction this one is at
      have hk' : Meets method method' i k' := fun j => (hmeets j).trans (settles_iff_of_step hi')
      exact .right (advance_passOn M hi' s) ⟨hk', rfl⟩
        (Nat.add_lt_add_left (hdepth' hi' hsettles) _)
  | some k =>
    by_cases hsettles : ∃ j, Settles method.passOn i j
    · obtain ⟨j, hj⟩ := hsettles
      have hk : Meets method method' k i' := fun j => (settles_iff_of_step hi).symm.trans (hmeets j)
      exact .left (advance_passOn M hi s) ⟨hk, rfl⟩ (Nat.add_lt_add_right (hdepth hi hj) _)
    · -- both bodies go round an empty cycle for good
      cases hi' : method'.passOn i' with
      | none => exact absurd ⟨i', (hmeets i').mpr (.of_none hi')⟩ hsettles
      | some k' =>
        refine .both (advance_passOn M hi s) (advance_passOn M hi' s) ⟨?_, rfl⟩
        intro j
        rw [← settles_iff_of_step hi, ← settles_iff_of_step hi']
        exact hmeets j

/-- Bodies that differ only in how control passes on do the same on every machine. -/
theorem SameFlow.same (h : SameFlow method method') (M : Machine S X O V) (s : S) :
    Same (method.program M) (method'.program M) (0, s) (0, s) := by
  obtain ⟨rank, hranked⟩ := h.ranked M
  exact hranked.same ⟨h.settles 0, rfl⟩

end Run

end MethodNode

end Krusty.Jvm
