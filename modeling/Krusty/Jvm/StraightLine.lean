import Krusty.Jvm.Deletion

/-! Bodies in which a straight line of nodes is replaced by one that does the same. -/
namespace Krusty.Jvm

open Simulation

/-- How control leaves a line of nodes: past its end, or by a jump. -/
inductive Exit (S : Type) where
  | falls (s : S)
  | jumps (label : Option LabelId) (s : S)

variable {stretch : List Node}

section Line

variable {S X O V : Type} (M : Machine S X O V)

/-- Nodes run one after the other, nothing to be seen of it before control leaves. -/
inductive Line : List Node → S → Exit S → Prop
  | nil (s : S) : Line [] s (.falls s)
  | pass {node : Node} {rest : List Node} {s : S} {e : Exit S} (hnode : node.isInsn = false)
      (hrest : Line rest s e) : Line (node :: rest) s e
  | next {insn : Insn LabelId} {rest : List Node} {s s' : S} {e : Exit S}
      (heffect : M.exec insn.shape s = .next s') (hview : M.view s' = M.view s) (hrest : Line rest s' e) :
      Line (.insn insn :: rest) s e
  | branch {insn : Insn LabelId} {rest : List Node} {k : ℕ} {s s' : S}
      (heffect : M.exec insn.shape s = .branch k s') : Line (.insn insn :: rest) s (.jumps insn.jumpTargets[k]? s')

/-- The line does not get to its end: an instruction of it is stuck. -/
inductive Blocked : List Node → S → Prop
  | stuck {insn : Insn LabelId} {rest : List Node} {s : S} (heffect : M.exec insn.shape s = .stuck) :
      Blocked (.insn insn :: rest) s
  | pass {node : Node} {rest : List Node} {s : S} (hnode : node.isInsn = false) (hrest : Blocked rest s) :
      Blocked (node :: rest) s
  | next {insn : Insn LabelId} {rest : List Node} {s s' : S} (heffect : M.exec insn.shape s = .next s')
      (hrest : Blocked rest s') : Blocked (.insn insn :: rest) s

/-- Where the first line gets through, the second does, and leaves the same way. -/
def Stands (stretch stretch' : List Node) : Prop :=
  ∀ s, Blocked M stretch s ∨ ∃ e, Line M stretch s e ∧ Line M stretch' s e

variable {M} {between rest : List Node} {s : S} {e : Exit S}

/-- A node that does nothing. -/
def Node.isIdle (node : Node) : Bool := !node.isInsn || node.isNop

theorem Line.idle (h : ∀ node ∈ between, node.isIdle) (hrest : Line M rest s e) : Line M (between ++ rest) s e := by
  induction between with
  | nil => exact hrest
  | cons node between ih =>
    have ih := ih fun node hnode => h node (List.mem_cons_of_mem _ hnode)
    have hnode := h node List.mem_cons_self
    cases hinsn : node.isInsn with
    | false => exact .pass hinsn ih
    | true =>
      rw [Node.isIdle, hinsn, Bool.not_true, Bool.false_or, Node.isNop_iff] at hnode
      subst hnode
      exact .next (M.exec_nop s) rfl ih

theorem Blocked.idle (h : ∀ node ∈ between, node.isIdle) (hrest : Blocked M rest s) : Blocked M (between ++ rest) s := by
  induction between with
  | nil => exact hrest
  | cons node between ih =>
    have ih := ih fun node hnode => h node (List.mem_cons_of_mem _ hnode)
    have hnode := h node List.mem_cons_self
    cases hinsn : node.isInsn with
    | false => exact .pass hinsn ih
    | true =>
      rw [Node.isIdle, hinsn, Bool.not_true, Bool.false_or, Node.isNop_iff] at hnode
      subst hnode
      exact .next (M.exec_nop s) ih

/-- A line is left by a jump of its own. -/
theorem Line.target {label : LabelId} {s s' : S} (h : Line M stretch s (.jumps (some label) s')) :
    ∃ insn, .insn insn ∈ stretch ∧ label ∈ insn.jumpTargets := by
  generalize he : Exit.jumps (some label) s' = e at h
  induction h with
  | nil s => cases he
  | pass hnode hrest ih =>
    obtain ⟨insn, hinsn, hlabel⟩ := ih he
    exact ⟨insn, List.mem_cons_of_mem _ hinsn, hlabel⟩
  | next heffect hview hrest ih =>
    obtain ⟨insn, hinsn, hlabel⟩ := ih he
    exact ⟨insn, List.mem_cons_of_mem _ hinsn, hlabel⟩
  | branch heffect =>
    injection he with hlabel
    exact ⟨_, List.mem_cons_self, List.mem_of_getElem? hlabel.symm⟩

end Line

namespace MethodNode

section Leave

variable {S X O V : Type} {M : Machine S X O V} {method : MethodNode}

/-- Where control goes when it leaves a line that ends before node `stop`. -/
def leave (method : MethodNode) (stop : ℕ) : Exit S → Move (ℕ × S) (Option O)
  | .falls s => .goes (stop, s)
  | .jumps label s => method.arrive label s

theorem leave_eq_ends {stop : ℕ} {e : Exit S} {o : Option O} (h : method.leave stop e = .ends o) : o = none := by
  cases e with
  | falls s => cases h
  | jumps label s =>
    simp only [leave, arrive] at h
    split at h <;> cases h
    rfl

/-- A run passes hidden states to where a move leads, or ends. -/
def Passes (P : Program (ℕ × S) (Option O) V) (Hidden : ℕ × S → Prop) (a : ℕ × S) :
    Move (ℕ × S) (Option O) → Prop
  | .goes b => Passage P Hidden a b
  | .ends o => P.Ends a o

theorem Passes.head {P : Program (ℕ × S) (Option O) V} {Hidden : ℕ × S → Prop} {a b : ℕ × S}
    {move : Move (ℕ × S) (Option O)} (hgoes : P.Goes a b) (hhidden : Hidden b) (hview : P.view b = P.view a)
    (h : Passes P Hidden b move) : Passes P Hidden a move := by
  cases move with
  | goes c => exact .more hgoes hhidden hview h
  | ends o => exact Program.Ends.head hgoes h

theorem goes_of_pass {i : ℕ} {node : Node} (hi : method.nodes[i]? = some node) (hnode : node.isInsn = false)
    (s : S) : (method.program M).Goes (i, s) (i + 1, s) := by
  change method.advance M (i, s) = _
  cases node with
  | insn insn => cases hnode
  | label label => simp only [advance, hi]
  | line line start => simp only [advance, hi]

theorem step_insn {i : ℕ} {insn : Insn LabelId} (hi : method.nodes[i]? = some (.insn insn)) (s : S) :
    (method.program M).step (i, s) = method.proceed M i insn (M.exec insn.shape s) := by
  change method.advance M (i, s) = _
  simp only [advance, hi]

/-- A run takes a line of the body in a passage. -/
theorem passes_of_line {s : S} {e : Exit S} (h : Line M stretch s e) :
    ∀ {i : ℕ} {Hidden : ℕ × S → Prop}, stretch ≠ [] →
      (∀ (k : ℕ) node, stretch[k]? = some node → method.nodes[i + k]? = some node) →
      (∀ k s, 0 < k → k < stretch.length → Hidden (i + k, s)) →
      Passes (method.program M) Hidden (i, s) (method.leave (i + stretch.length) e) := by
  have hstep : ∀ {i : ℕ} {Hidden : ℕ × S → Prop} {node : Node} {rest : List Node} {s s' : S} {e : Exit S},
      (method.program M).Goes (i, s) (i + 1, s') → M.view s' = M.view s → Line M rest s' e →
      (rest ≠ [] → Passes (method.program M) Hidden (i + 1, s') (method.leave (i + 1 + rest.length) e)) →
      (∀ k s, 0 < k → k < (node :: rest).length → Hidden (i + k, s)) →
      Passes (method.program M) Hidden (i, s) (method.leave (i + (node :: rest).length) e) := by
    intro i Hidden node rest s s' e hgoes hview hrest hpasses hhidden
    cases rest with
    | nil =>
      cases hrest with
      | nil => exact .last hgoes
    | cons node' rest =>
      rw [List.length_cons, ← Nat.add_assoc, Nat.add_right_comm]
      exact (hpasses (List.cons_ne_nil _ _)).head hgoes (hhidden 1 s' Nat.one_pos (by simp)) hview
  induction h with
  | nil s =>
    intro i Hidden hne
    exact absurd rfl hne
  | @pass node rest s e hnode hrest ih =>
    intro i Hidden _ hat hhidden
    have hi := hat 0 node rfl
    refine hstep (goes_of_pass hi hnode s) rfl hrest (fun hne => ih hne ?_ ?_) hhidden
    · intro k node' hk
      rw [Nat.add_assoc, Nat.add_comm 1 k]
      exact hat (k + 1) node' hk
    · intro k s' hpos hk
      rw [Nat.add_assoc, Nat.add_comm 1 k]
      exact hhidden (k + 1) s' (Nat.succ_pos k) (Nat.succ_lt_succ hk)
  | @next insn rest s s' e heffect hview hrest ih =>
    intro i Hidden _ hat hhidden
    have hi : method.nodes[i]? = some (.insn insn) := hat 0 _ rfl
    have hgoes : (method.program M).Goes (i, s) (i + 1, s') := by
      rw [Program.Goes, step_insn hi, heffect]
      rfl
    refine hstep hgoes hview hrest (fun hne => ih hne ?_ ?_) hhidden
    · intro k node' hk
      rw [Nat.add_assoc, Nat.add_comm 1 k]
      exact hat (k + 1) node' hk
    · intro k s' hpos hk
      rw [Nat.add_assoc, Nat.add_comm 1 k]
      exact hhidden (k + 1) s' (Nat.succ_pos k) (Nat.succ_lt_succ hk)
  | @branch insn rest k s s' heffect =>
    intro i Hidden _ hat _
    have hi : method.nodes[i]? = some (.insn insn) := hat 0 _ rfl
    have hmove : (method.program M).step (i, s) = method.arrive insn.jumpTargets[k]? s' := by
      rw [step_insn hi, heffect]
      rfl
    change Passes _ _ _ (method.arrive insn.jumpTargets[k]? s')
    cases harrive : method.arrive (O := O) insn.jumpTargets[k]? s' with
    | goes b => exact .last (hmove.trans harrive)
    | ends o => exact ⟨_, .refl, hmove.trans harrive⟩

/-- A run that meets a blocked line is stuck in it. -/
theorem ends_of_blocked {s : S} (h : Blocked M stretch s) :
    ∀ {i : ℕ}, (∀ (k : ℕ) node, stretch[k]? = some node → method.nodes[i + k]? = some node) →
      (method.program M).Ends (i, s) none := by
  induction h with
  | stuck heffect =>
    intro i hat
    have hi : method.nodes[i]? = some (.insn _) := hat 0 _ rfl
    refine ⟨_, .refl, ?_⟩
    rw [step_insn hi, heffect]
    rfl
  | @pass node rest s hnode hrest ih =>
    intro i hat
    refine (ih fun k node' hk => ?_).head (goes_of_pass (hat 0 node rfl) hnode s)
    rw [Nat.add_assoc, Nat.add_comm 1 k]
    exact hat (k + 1) node' hk
  | @next insn rest s s' heffect hrest ih =>
    intro i hat
    have hi : method.nodes[i]? = some (.insn insn) := hat 0 _ rfl
    have hgoes : (method.program M).Goes (i, s) (i + 1, s') := by
      rw [Program.Goes, step_insn hi, heffect]
      rfl
    refine (ih fun k node' hk => ?_).head hgoes
    rw [Nat.add_assoc, Nat.add_comm 1 k]
    exact hat (k + 1) node' hk

end Leave

section Replace

variable {method method' : MethodNode}

/-- The labels a jump, a switch or a handler reaches. -/
def Joins (method : MethodNode) (label : LabelId) : Prop :=
  (∃ insn ∈ method.instructions, label ∈ insn.jumpTargets) ∨ ∃ block ∈ method.tryCatchBlocks, block.handler = label

/-- `method'` is `method` with one stretch of nodes put for another, no label of them moved and none inside
the stretch a place where paths join. -/
structure Replacement (method method' : MethodNode) (M : Machine S X O V) (first : ℕ) (stretch stretch' : List Node) :
    Prop where
  nodes : ∃ before after, method.nodes = before ++ stretch ++ after ∧
    method'.nodes = before ++ stretch' ++ after ∧ before.length = first
  length : stretch.length = stretch'.length
  nonempty : stretch ≠ []
  blocks : method'.tryCatchBlocks = method.tryCatchBlocks
  labels : ∀ (k : ℕ) label, stretch[k]? = some (.label label) ↔ stretch'[k]? = some (.label label)
  closed : ∀ (k : ℕ) label, 0 < k → stretch[k]? = some (.label label) → ¬ method.Joins label
  stands : Stands M stretch stretch'

/-- The places inside the stretch. -/
def Inside (first : ℕ) (stretch : List Node) (i : ℕ) : Prop := first < i ∧ i < first + stretch.length

namespace Replacement

variable {S X O V : Type} {M : Machine S X O V} {first : ℕ} {stretch stretch' : List Node}

theorem getElem?_stretch (h : Replacement method method' M first stretch stretch') {k : ℕ} {node : Node}
    (hk : stretch[k]? = some node) : method.nodes[first + k]? = some node := by
  obtain ⟨before, after, hnodes, -, rfl⟩ := h.nodes
  have hlt := (List.getElem?_eq_some_iff.mp hk).1
  rw [hnodes, List.append_assoc, List.getElem?_append_right (Nat.le_add_right _ _), Nat.add_sub_cancel_left,
    List.getElem?_append_left hlt, hk]

theorem getElem?_stretch' (h : Replacement method method' M first stretch stretch') {k : ℕ} {node : Node}
    (hk : stretch'[k]? = some node) : method'.nodes[first + k]? = some node := by
  obtain ⟨before, after, -, hnodes, rfl⟩ := h.nodes
  have hlt := (List.getElem?_eq_some_iff.mp hk).1
  rw [hnodes, List.append_assoc, List.getElem?_append_right (Nat.le_add_right _ _), Nat.add_sub_cancel_left,
    List.getElem?_append_left hlt, hk]

theorem getElem?_outside (h : Replacement method method' M first stretch stretch') {i : ℕ}
    (hi : i < first ∨ first + stretch.length ≤ i) : method'.nodes[i]? = method.nodes[i]? := by
  obtain ⟨before, after, hnodes, hnodes', rfl⟩ := h.nodes
  have hlen := h.length
  rw [hnodes, hnodes', List.append_assoc, List.append_assoc]
  rcases hi with hi | hi
  · rw [List.getElem?_append_left hi, List.getElem?_append_left hi]
  · have hle : before.length ≤ i := by omega
    rw [List.getElem?_append_right hle, List.getElem?_append_right hle,
      List.getElem?_append_right (by omega), List.getElem?_append_right (by omega), hlen]

theorem sameLabels (h : Replacement method method' M first stretch stretch') : SameLabels method method' := by
  intro i label
  by_cases hi : i < first ∨ first + stretch.length ≤ i
  · rw [h.getElem?_outside hi]
  · obtain ⟨k, rfl⟩ := Nat.exists_eq_add_of_le (show first ≤ i by omega)
    have hk : k < stretch.length := by omega
    have hk' : k < stretch'.length := h.length ▸ hk
    rw [h.getElem?_stretch (List.getElem?_eq_getElem hk), h.getElem?_stretch' (List.getElem?_eq_getElem hk'),
      ← List.getElem?_eq_getElem hk, ← List.getElem?_eq_getElem hk']
    exact h.labels k label

theorem nonempty' (h : Replacement method method' M first stretch stretch') : stretch' ≠ [] := by
  intro hnil
  have hlen := h.length
  rw [hnil] at hlen
  exact h.nonempty (List.length_eq_zero_iff.mp hlen)

theorem length_nodes (h : Replacement method method' M first stretch stretch') :
    method.nodes.length = method'.nodes.length := by
  obtain ⟨before, after, hnodes, hnodes', -⟩ := h.nodes
  simp [hnodes, hnodes', h.length]

theorem position_eq (h : Replacement method method' M first stretch stretch') (hunique : method.labels.Nodup)
    (label : LabelId) : method'.position label = method.position label :=
  (SameLabels.position h.sameLabels h.length_nodes hunique label).symm

theorem arrive_eq (h : Replacement method method' M first stretch stretch') (hunique : method.labels.Nodup)
    (label : Option LabelId) (s : S) : method'.arrive (O := O) label s = method.arrive label s := by
  have hposition : method'.position = method.position := funext (h.position_eq hunique)
  rw [arrive, arrive, hposition]

theorem step_outside (h : Replacement method method' M first stretch stretch') (hunique : method.labels.Nodup)
    {i : ℕ} (hi : i < first ∨ first + stretch.length ≤ i) (s : S) :
    (method'.program M).step (i, s) = (method.program M).step (i, s) := by
  have hcatcher : method'.catcher M = method.catcher M := by
    funext i x s
    unfold catcher protects spans
    simp only [h.position_eq hunique, h.blocks]
  change method'.advance M (i, s) = method.advance M (i, s)
  simp only [advance, h.getElem?_outside hi]
  split
  · rename_i insn _
    cases M.exec insn.shape s <;> simp only [proceed, hcatcher, h.arrive_eq hunique]
  · rfl
  · rfl

/-- Nobody jumps into the stretch. -/
theorem not_inside (h : Replacement method method' M first stretch stretch') {label : LabelId} {j : ℕ}
    (hjoins : method.Joins label) (hj : method.position label = some j) : ¬ Inside first stretch j := by
  rintro ⟨hlt, hlt'⟩
  obtain ⟨k, rfl⟩ := Nat.exists_eq_add_of_le hlt.le
  have hk : k < stretch.length := by omega
  have hlabel := position_spec hj
  rw [h.getElem?_stretch (List.getElem?_eq_getElem hk), ← List.getElem?_eq_getElem hk] at hlabel
  exact h.closed k label (by omega) hlabel hjoins

theorem seen_of_goes (h : Replacement method method' M first stretch stretch') {i : ℕ} {s : S} {b : ℕ × S}
    (hi : i < first ∨ first + stretch.length ≤ i) (hgoes : (method.program M).Goes (i, s) b) :
    ¬ Inside first stretch b.1 := by
  cases Flows.of_goes hgoes with
  | passes _ _ hj | falls _ _ hj =>
    rintro ⟨hlt, hlt'⟩
    dsimp only at hj
    omega
  | jumps hinsn hlabel hj =>
    exact h.not_inside (.inl ⟨_, List.mem_filterMap.mpr ⟨_, List.mem_of_getElem? hinsn, rfl⟩, hlabel⟩) hj
  | catches _ hblock _ hj => exact h.not_inside (.inr ⟨_, hblock, rfl⟩) hj

theorem seen_of_leave (h : Replacement method method' M first stretch stretch') {s : S} {e : Exit S} {b : ℕ × S}
    (hline : Line M stretch s e) (hleave : method.leave (O := O) (first + stretch.length) e = .goes b) :
    ¬ Inside first stretch b.1 := by
  cases e with
  | falls s' =>
    cases hleave
    exact fun hinside => Nat.lt_irrefl _ hinside.2
  | jumps label s' =>
    simp only [leave, arrive] at hleave
    split at hleave
    · rename_i j hj
      obtain ⟨l, rfl, hposition⟩ := Option.bind_eq_some_iff.mp hj
      cases hleave
      obtain ⟨insn, hinsn, hlabel⟩ := hline.target
      obtain ⟨k, hk⟩ := List.mem_iff_getElem?.mp hinsn
      have hmem := List.mem_of_getElem? (h.getElem?_stretch hk)
      exact h.not_inside (.inl ⟨insn, List.mem_filterMap.mpr ⟨_, hmem, rfl⟩, hlabel⟩) hposition
    · cases hleave

/-- The bodies differ in nothing but the states inside the stretch. -/
theorem between (h : Replacement method method' M first stretch stretch') (hunique : method.labels.Nodup) :
    Between (method.program M) (method'.program M) (fun a => Inside first stretch a.1)
      fun a => ¬ (method.program M).Ends a none where
  view _ := rfl
  progress := by
    rintro ⟨i, s⟩ hseen hsafe
    by_cases hi : i = first
    · subst hi
      have hhidden : ∀ (k : ℕ) (s : S), 0 < k → k < stretch.length → Inside i stretch (i + k) :=
        fun k s hpos hk => ⟨by omega, by omega⟩
      obtain hblocked | ⟨e, hline, hline'⟩ := h.stands s
      · exact absurd (ends_of_blocked hblocked fun k node hk => h.getElem?_stretch hk) hsafe
      have hpasses : Passes (method.program M) (fun a => Inside i stretch a.1) (i, s)
          (method.leave (i + stretch.length) e) :=
        passes_of_line hline h.nonempty (fun k node hk => h.getElem?_stretch hk) hhidden
      have hpasses' : Passes (method'.program M) (fun a => Inside i stretch a.1) (i, s)
          (method'.leave (i + stretch'.length) e) :=
        passes_of_line hline' h.nonempty' (fun k node hk => h.getElem?_stretch' hk) (h.length ▸ hhidden)
      have hleave : method'.leave (O := O) (i + stretch'.length) e = method.leave (i + stretch.length) e := by
        rw [← h.length]
        cases e with
        | falls s' => rfl
        | jumps label s' => exact h.arrive_eq hunique label s'
      rw [hleave] at hpasses'
      cases hmove : method.leave (O := O) (i + stretch.length) e with
      | goes b =>
        rw [hmove] at hpasses hpasses'
        refine .inr ⟨b, h.seen_of_leave hline hmove, fun hends => hsafe ?_, hpasses, hpasses'⟩
        exact hends.of_reaches hpasses.reaches
      | ends o =>
        obtain rfl := leave_eq_ends hmove
        rw [hmove] at hpasses
        exact absurd hpasses hsafe
    · have hout : i < first ∨ first + stretch.length ≤ i := by
        by_contra hin
        exact hseen ⟨by omega, by omega⟩
      cases hstep : (method.program M).step (i, s) with
      | ends o => exact .inl ⟨o, rfl, (h.step_outside hunique hout s).trans hstep⟩
      | goes b =>
        refine .inr ⟨b, h.seen_of_goes hout hstep, fun hends => hsafe (hends.head hstep), .last hstep, ?_⟩
        exact .last ((h.step_outside hunique hout s).trans hstep)

end Replacement

end Replace

end MethodNode

end Krusty.Jvm
