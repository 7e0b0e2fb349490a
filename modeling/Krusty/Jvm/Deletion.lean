import Krusty.Lib.Retaining
import Krusty.Jvm.EmptyFlow
import Krusty.Jvm.BytecodePasses.InstructionGraph

/-! Bodies with nodes taken out: the ones that do nothing, and the ones no path reaches. -/
namespace Krusty.Jvm

open Simulation Retaining

theorem lastPosition_retain {keep : ℕ → Bool} {nodes : List Node} {label : LabelId}
    (h : ∀ i : ℕ, nodes[i]? = some (.label label) → keep i) :
    lastPosition (retain keep nodes) label = (lastPosition nodes label).map (rank keep) := by
  induction nodes using List.reverseRecOn with
  | nil => rfl
  | append_singleton nodes node ih =>
    have hinit : ∀ i : ℕ, nodes[i]? = some (.label label) → keep i := by
      intro i hi
      refine h i ?_
      rw [List.getElem?_append_left (List.getElem?_eq_some_iff.mp hi).1, hi]
    rw [retain_concat, lastPosition_concat]
    by_cases hnode : node = .label label
    · have hkeep : keep nodes.length := h _ (by simp [hnode])
      rw [if_pos hkeep, lastPosition_concat, if_pos hnode, if_pos hnode, length_retain]
      rfl
    · rw [if_neg hnode, ← ih hinit]
      split
      · rw [lastPosition_concat, if_neg hnode]
      · rw [List.append_nil]

namespace MethodNode

/-- Control can go from one node to the other: on past it, to a target, or to the handler of a range that
protects it. -/
inductive Flows (method : MethodNode) (i j : ℕ) : Prop
  | passes {node : Node} (hi : method.nodes[i]? = some node) (hnode : node.isInsn = false) (hj : j = i + 1)
  | falls {insn : Insn LabelId} (hi : method.nodes[i]? = some (.insn insn)) (hfalls : insn.fallsThrough)
      (hj : j = i + 1)
  | jumps {insn : Insn LabelId} {label : LabelId} (hi : method.nodes[i]? = some (.insn insn))
      (hlabel : label ∈ insn.jumpTargets) (hj : method.position label = some j)
  | catches {insn : Insn LabelId} {block : TryCatchBlock} (hi : method.nodes[i]? = some (.insn insn))
      (hblock : block ∈ method.tryCatchBlocks) (hprotects : method.protects block i)
      (hj : method.position block.handler = some j)

/-- The nodes some path from the first one reaches. -/
def Reaches (method : MethodNode) : ℕ → Prop := Relation.ReflTransGen method.Flows 0

theorem Flows.of_passOn {method : MethodNode} {i j : ℕ} (h : method.passOn i = some j) : method.Flows i j := by
  unfold passOn at h
  split at h
  · rename_i op hi
    split_ifs at h with hop
    obtain rfl := Option.some.inj h
    exact .falls hi (by rw [hop]; rfl) rfl
  · rename_i op target hi
    split_ifs at h with hop
    exact .jumps hi (by simp [Insn.jumpTargets]) h
  · cases h
  · rename_i node hop hjump hinsn hi
    refine .passes hi ?_ (Option.some.inj h).symm
    cases node with
    | insn insn => exact (hinsn insn rfl).elim
    | label label => rfl
    | line line start => rfl
  · cases h

/-- A run goes where control can. -/
theorem Flows.of_goes {S X O V : Type} {M : Machine S X O V} {method : MethodNode} {a b : ℕ × S}
    (h : (method.program M).Goes a b) : method.Flows a.1 b.1 := by
  obtain ⟨i, s⟩ := a
  have harrive : ∀ {label : Option LabelId} {s' : S}, method.arrive (O := O) label s' = .goes b →
      ∃ l, label = some l ∧ method.position l = some b.1 := by
    intro label s' h
    unfold arrive at h
    split at h
    · rename_i j hj
      obtain ⟨l, hl, hposition⟩ := Option.bind_eq_some_iff.mp hj
      cases h
      exact ⟨l, hl, hposition⟩
    · cases h
  change method.advance M (i, s) = .goes b at h
  unfold advance at h
  dsimp only at h
  split at h
  · rename_i insn hi
    cases heffect : M.exec insn.shape s with
    | next s' =>
      rw [heffect] at h
      cases h
      exact .falls hi (M.falls heffect) rfl
    | branch k s' =>
      rw [heffect] at h
      obtain ⟨l, hl, hposition⟩ := harrive h
      exact .jumps hi (List.mem_of_getElem? hl) hposition
    | throws x s' =>
      rw [heffect] at h
      simp only [proceed] at h
      split at h
      · rename_i block hblock
        obtain ⟨l, hl, hposition⟩ := harrive h
        cases hl
        have hfound := List.find?_some hblock
        rw [Bool.and_eq_true] at hfound
        exact .catches hi (List.mem_of_find?_eq_some hblock) hfound.1 hposition
      · cases h
    | returns o =>
      rw [heffect] at h
      cases h
    | stuck =>
      rw [heffect] at h
      cases h
  · rename_i node hinsn hi
    cases h
    refine .passes hi ?_ rfl
    cases node with
    | insn insn => exact (hinsn insn rfl).elim
    | label label => rfl
    | line line start => rfl
  · cases h

/-- `after` is `before` without the nodes not kept and without some ranges. Where control can be, the nodes
gone did nothing and the ranges gone protected nothing. -/
structure Deletion (before after : MethodNode) (keep keepBlock : ℕ → Bool) (Live : ℕ → Prop) : Prop where
  nodes : after.nodes = retain keep before.nodes
  blocks : after.tryCatchBlocks = retain keepBlock before.tryCatchBlocks
  labels : ∀ {i label}, before.nodes[i]? = some (.label label) → keep i
  entry : Live 0
  closed : ∀ {i j}, Live i → before.Flows i j → Live j
  idle : ∀ {i}, Live i → i < before.nodes.length → keep i = false → before.passOn i = some (i + 1)
  covered : ∀ {i insn}, Live i → before.nodes[i]? = some (.insn insn) →
    ∀ (n : ℕ) block, before.tryCatchBlocks[n]? = some block → keepBlock n = false → before.protects block i = false

namespace Deletion

variable {before after : MethodNode} {keep keepBlock : ℕ → Bool} {Live : ℕ → Prop}

/-- Nothing on any path misses a `nop`. -/
theorem of_nops (hnodes : after.nodes = retain keep before.nodes)
    (hblocks : after.tryCatchBlocks = before.tryCatchBlocks)
    (hnops : ∀ k < before.nodes.length, keep k = false → before.nodes[k]? = some (.insn (.op nop))) :
    Deletion before after keep (fun _ => true) fun _ => True where
  nodes := hnodes
  blocks := by rw [hblocks, retain_eq_self fun _ _ => rfl]
  labels := by
    intro i label hlabel
    by_contra hdrop
    have hnop := hnops i (List.getElem?_eq_some_iff.mp hlabel).1 (Bool.eq_false_iff.mpr hdrop)
    cases hnop.symm.trans hlabel
  entry := trivial
  closed _ _ := trivial
  idle := by
    intro k _ hk hdrop
    simp [passOn, hnops k hk hdrop]
  covered _ _ _ _ _ h := by cases h

theorem position (h : Deletion before after keep keepBlock Live) (label : LabelId) :
    after.position label = (before.position label).map (rank keep) := by
  have hlast := lastPosition_retain fun i (hi : before.nodes[i]? = some (.label label)) => h.labels hi
  rw [← h.nodes] at hlast
  exact hlast

variable {i : ℕ}

theorem getElem? (h : Deletion before after keep keepBlock Live) (hkeep : keep i) :
    after.nodes[rank keep i]? = before.nodes[i]? := by
  rw [h.nodes, getElem?_retain hkeep]

theorem spans (h : Deletion before after keep keepBlock Live) (start stop : LabelId)
    (hkeep : keep i) : after.spans start stop (rank keep i) = before.spans start stop i := by
  unfold MethodNode.spans
  rw [h.position, h.position]
  cases before.position start with
  | none => rfl
  | some start =>
    cases before.position stop with
    | none => rfl
    | some stop =>
      simp only [Option.map_some]
      rw [decide_eq_decide.mpr (rank_le_iff hkeep), decide_eq_decide.mpr (rank_lt_iff hkeep)]

theorem protects (h : Deletion before after keep keepBlock Live) (block : TryCatchBlock)
    (hkeep : keep i) : after.protects block (rank keep i) = before.protects block i :=
  h.spans block.start block.stop hkeep

/-- A node of `after` is a kept node of `before`. -/
theorem exists_kept (h : Deletion before after keep keepBlock Live) {k : ℕ} {node : Node}
    (hk : after.nodes[k]? = some node) : ∃ i, keep i ∧ rank keep i = k ∧ before.nodes[i]? = some node := by
  rw [h.nodes] at hk
  exact exists_of_getElem?_retain hk

/-- The labels left are the labels there were, in order. -/
theorem labels_eq (h : Deletion before after keep keepBlock Live) : after.labels = before.labels := by
  unfold MethodNode.labels
  rw [h.nodes]
  refine filterMap_retain fun i node hi hdrop => ?_
  cases node with
  | label label =>
    have hkeep := h.labels hi
    rw [hdrop] at hkeep
    cases hkeep
  | line line start => rfl
  | insn insn => rfl

variable {insn : Insn LabelId}

theorem mem_instructions (h : Deletion before after keep keepBlock Live)
    (hinsn : insn ∈ after.instructions) : insn ∈ before.instructions := by
  obtain ⟨node, hnode, heq⟩ := List.mem_filterMap.mp hinsn
  rw [h.nodes] at hnode
  obtain ⟨i, -, hi⟩ := mem_retain.mp hnode
  exact List.mem_filterMap.mpr ⟨node, List.mem_of_getElem? hi, heq⟩

theorem complete (h : Deletion before after keep keepBlock Live) (hcomplete : before.Complete)
    (hlocals : ∀ v ∈ after.localVariables, v ∈ before.localVariables) : after.Complete where
  targets insn hinsn label hlabel := by
    rw [h.labels_eq]
    exact hcomplete.targets insn (h.mem_instructions hinsn) label hlabel
  blocks block hblock := by
    rw [h.blocks] at hblock
    obtain ⟨n, -, hn⟩ := mem_retain.mp hblock
    rw [h.labels_eq]
    exact hcomplete.blocks block (List.mem_of_getElem? hn)
  locals v hv := by
    rw [h.labels_eq]
    exact hcomplete.locals v (hlocals v hv)

/-- Where only labels and line numbers went from among the reachable nodes, what was reached still is. -/
theorem reaches (h : Deletion before after keep keepBlock before.Reaches)
    (hinsn : ∀ {i insn}, before.Reaches i → before.nodes[i]? = some (.insn insn) → keep i)
    (hreach : before.Reaches i) : after.Reaches (rank keep i) := by
  induction hreach with
  | refl => exact .refl
  | @tail i j hreach hflows ih =>
    cases hflows with
    | passes hi hnode hj =>
      subst hj
      cases hkeep : keep i with
      | true =>
        rw [rank_succ_of_kept hkeep]
        exact ih.tail (.passes ((h.getElem? hkeep).trans hi) hnode rfl)
      | false =>
        rw [rank_succ_of_not hkeep]
        exact ih
    | falls hi hfalls hj =>
      have hkeep := hinsn hreach hi
      rw [hj, rank_succ_of_kept hkeep]
      exact ih.tail (.falls ((h.getElem? hkeep).trans hi) hfalls rfl)
    | jumps hi hlabel hj =>
      refine ih.tail (.jumps ((h.getElem? (hinsn hreach hi)).trans hi) hlabel ?_)
      rw [h.position, hj, Option.map_some]
    | @catches insn block hi hblock hprotects hj =>
      have hkeep := hinsn hreach hi
      obtain ⟨n, hn⟩ := List.mem_iff_getElem?.mp hblock
      have hkept : keepBlock n = true := by
        by_contra hdrop
        have hnot := h.covered hreach hi n block hn (Bool.eq_false_iff.mpr hdrop)
        rw [hprotects] at hnot
        cases hnot
      refine ih.tail (.catches ((h.getElem? hkeep).trans hi) (?_ : block ∈ after.tryCatchBlocks) ?_ ?_)
      · rw [h.blocks]
        exact mem_retain.mpr ⟨n, hkept, hn⟩
      · rwa [h.protects block hkeep]
      · rw [h.position, hj, Option.map_some]

section Run

variable {S X O V : Type} (M : Machine S X O V)

theorem catcher (h : Deletion before after keep keepBlock Live)
    (hlive : Live i) (hi : before.nodes[i]? = some (.insn insn)) (hkeep : keep i) (x : X) (s : S) :
    after.catcher M (rank keep i) x s = before.catcher M i x s := by
  unfold MethodNode.catcher
  simp only [h.protects _ hkeep, h.blocks]
  refine find?_retain fun n block hn hdrop => ?_
  rw [h.covered hlive hi n block hn hdrop, Bool.false_and]

/-- The states of a run of `before` at live nodes, beside those of `after` at their new places. -/
def Beside (keep : ℕ → Bool) (Live : ℕ → Prop) (a b : ℕ × S) : Prop := Live a.1 ∧ b = (rank keep a.1, a.2)

variable {M} {rank' : ℕ × S → ℕ × S → ℕ}

theorem progress_arrive (h : Deletion before after keep keepBlock Live) {a b : ℕ × S}
    {label : Option LabelId} {s : S}
    (hlive : ∀ l j, label = some l → before.position l = some j → Live j)
    (ha : before.advance M a = before.arrive label s) (hb : after.advance M b = after.arrive label s) :
    Progress (before.program M) (after.program M) (Beside keep Live) rank' a b := by
  cases hposition : label.bind before.position with
  | none =>
    have hposition' : label.bind after.position = none := by
      cases label with
      | none => rfl
      | some l =>
        rw [Option.bind_some] at hposition ⊢
        rw [h.position, hposition]
        rfl
    simp only [MethodNode.arrive, hposition] at ha
    simp only [MethodNode.arrive, hposition'] at hb
    exact .done ha hb
  | some j =>
    obtain ⟨l, rfl, hj⟩ := Option.bind_eq_some_iff.mp hposition
    simp only [MethodNode.arrive, Option.bind_some, hj] at ha
    simp only [MethodNode.arrive, Option.bind_some, h.position, hj, Option.map_some] at hb
    exact .both ha hb ⟨hlive l j rfl hj, rfl⟩

theorem progress_insn (h : Deletion before after keep keepBlock Live)
    (hlive : Live i) (hi : before.nodes[i]? = some (.insn insn)) (hkeep : keep i) (s : S) :
    Progress (before.program M) (after.program M) (Beside keep Live) rank' (i, s) (rank keep i, s) := by
  have ha : before.advance M (i, s) = before.proceed M i insn (M.exec insn.shape s) := by
    simp only [advance, hi]
  have hb : after.advance M (rank keep i, s) =
      after.proceed M (rank keep i) insn (M.exec insn.shape s) := by
    simp only [advance, h.getElem? hkeep, hi]
  cases heffect : M.exec insn.shape s with
  | next s' =>
    rw [heffect] at ha hb
    rw [MethodNode.proceed, ← rank_succ_of_kept hkeep] at hb
    exact .both ha hb ⟨h.closed hlive (.falls hi (M.falls heffect) rfl), rfl⟩
  | branch k s' =>
    rw [heffect] at ha hb
    refine h.progress_arrive (fun l j hl hj => ?_) ha hb
    exact h.closed hlive (.jumps hi (List.mem_of_getElem? hl) hj)
  | throws x s' =>
    rw [heffect] at ha hb
    simp only [MethodNode.proceed] at ha
    simp only [MethodNode.proceed, h.catcher M hlive hi hkeep] at hb
    cases hblock : before.catcher M i x s' with
    | none =>
      rw [hblock] at ha hb
      exact .done ha hb
    | some block =>
      rw [hblock] at ha hb
      have hfound := List.find?_some hblock
      rw [Bool.and_eq_true] at hfound
      refine h.progress_arrive (fun l j hl hj => ?_) ha hb
      cases hl
      exact h.closed hlive (.catches hi (List.mem_of_find?_eq_some hblock) hfound.1 hj)
  | returns o =>
    rw [heffect] at ha hb
    exact .done ha hb
  | stuck =>
    rw [heffect] at ha hb
    exact .done ha hb

theorem ranked (h : Deletion before after keep keepBlock Live) (M : Machine S X O V) :
    Ranked (before.program M) (after.program M) (Beside keep Live) fun a _ => before.nodes.length - a.1 where
  view := by
    rintro ⟨i, s⟩ _ ⟨-, rfl⟩
    rfl
  progress := by
    rintro ⟨i, s⟩ _ ⟨hlive, rfl⟩
    cases hi : before.nodes[i]? with
    | none =>
      have hle : rank keep before.nodes.length ≤ rank keep i := rank_mono (List.getElem?_eq_none_iff.mp hi)
      rw [← length_retain, ← h.nodes] at hle
      have hi' : after.nodes[rank keep i]? = none := List.getElem?_eq_none hle
      exact .done (o := none) (by simp [program, advance, hi]) (by simp [program, advance, hi'])
    | some node =>
      have hlt := (List.getElem?_eq_some_iff.mp hi).1
      cases hkeep : keep i with
      | false =>
        -- a node that is gone takes the old body one step the new one need not take
        have hpass := h.idle hlive hlt hkeep
        refine .left (advance_passOn M hpass s) ⟨h.closed hlive (.of_passOn hpass), ?_⟩ ?_
        · rw [rank_succ_of_not hkeep]
        · change before.nodes.length - (i + 1) < before.nodes.length - i
          omega
      | true =>
        have hpass : ∀ node : Node, before.nodes[i]? = some node → node.isInsn = false →
            Progress (before.program M) (after.program M) (Beside keep Live)
              (fun a _ => before.nodes.length - a.1) (i, s) (rank keep i, s) := by
          intro node hi hnode
          have hi' := (h.getElem? hkeep).trans hi
          have hlive' := h.closed hlive (.passes hi hnode rfl)
          have ha : (before.program M).Goes (i, s) (i + 1, s) := by
            cases node <;> simp_all [Program.Goes, program, advance]
          have hb : (after.program M).Goes (rank keep i, s) (rank keep i + 1, s) := by
            cases node <;> simp_all [Program.Goes, program, advance]
          refine .both ha hb ⟨hlive', ?_⟩
          rw [rank_succ_of_kept hkeep]
        cases node with
        | insn insn => exact h.progress_insn hlive hi hkeep s
        | label label => exact hpass _ hi rfl
        | line line start => exact hpass _ hi rfl

/-- A run passes the nodes kept in the states it passed them in. -/
theorem reaches_iff (h : Deletion before after keep keepBlock Live) (M : Machine S X O V) (hkeep : keep i)
    (hi : i < before.nodes.length) (s s' : S) : (before.program M).Reaches (0, s) (i, s') ↔
      (after.program M).Reaches (0, s) (rank keep i, s') := by
  constructor
  · intro hreach
    obtain ⟨b, hreach', -, rfl⟩ := (h.ranked M).reaches hreach (b := (0, s)) ⟨h.entry, rfl⟩
    exact hreach'
  · intro hreach
    obtain ⟨⟨j, t⟩, hreach', hlive, heq⟩ :=
      (h.ranked M).symm.reaches hreach (b := (0, s)) ⟨h.entry, rfl⟩
    obtain ⟨hrank, rfl⟩ := Prod.mk.inj heq
    have hle : j ≤ i := (rank_le_iff hkeep).mp hrank.ge
    -- the old body is at most some nodes that are gone short of the one kept
    suffices hrun : ∀ d j, i = j + d → rank keep i = rank keep j → Live j →
        (before.program M).Reaches (j, s') (i, s') from
      hreach'.trans (hrun (i - j) j (by omega) hrank hlive)
    intro d
    induction d with
    | zero =>
      rintro j rfl _ _
      exact .refl
    | succ d ih =>
      intro j hj hrank hlive
      have hdrop : keep j = false := by
        by_contra hkept
        have hlt := rank_lt (Bool.not_eq_false _ ▸ hkept : keep j = true) (show j < i by omega)
        omega
      have hpass := h.idle hlive (by omega) hdrop
      refine .head (advance_passOn M hpass s') (ih (j + 1) (by omega) ?_ (h.closed hlive (.of_passOn hpass)))
      rw [hrank, rank_succ_of_not hdrop]

/-- What is gone was never missed. -/
theorem same (h : Deletion before after keep keepBlock Live) (M : Machine S X O V) (s : S) :
    Same (before.program M) (after.program M) (0, s) (0, s) :=
  (h.ranked M).same ⟨h.entry, rfl⟩

end Run

end Deletion

end MethodNode

end Krusty.Jvm
