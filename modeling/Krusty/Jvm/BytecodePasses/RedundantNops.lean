import Krusty.Lib.SortedSets
import Krusty.Jvm.Deletion

/-! kotlinc's `RedundantNopsCleanupMethodTransformer`: every `nop` goes but the first of a stretch, from a line
number to the next debug point, that holds no other instruction, and the first instruction of a protected
range. -/
namespace Krusty.Jvm.BytecodePasses.RedundantNops

open Retaining

section Required

variable (nodes : List Node)

/-- The first place of a label among nodes; `none` is a panic. -/
def firstPosition (label : LabelId) : Option ℕ := nodes.findIdx? (· == .label label)

def firstInsn (start : ℕ) : Option ℕ :=
  (List.range' start (nodes.length - start)).find? fun k => (nodes[k]?.map Node.isInsn).getD false

def isNopAt (k : ℕ) : Bool := (nodes[k]?.map Node.isNop).getD false

/-- The `nop` a protected range starts with. -/
def rangeNop (block : TryCatchBlock) : Option (Option ℕ) := do
  let start ← firstPosition nodes block.start
  return (firstInsn nodes start).filter (isNopAt nodes)

/-- The first `nop` of nodes that hold no other instruction, the first of them at `index`. -/
def stretchNop : ℕ → Option ℕ → List Node → Option ℕ
  | _, first, [] => first
  | index, first, node :: rest =>
    if node.isNop then stretchNop (index + 1) (first.or (some index)) rest
    else if node.isInsn then none
    else stretchNop (index + 1) first rest

/-- The debug points in order: a local variable's range boundary, or a line number (`true`). -/
def debugPoints (bounds : List LabelId) : List (ℕ × Bool) :=
  nodes.zipIdx.filterMap fun
    | (.label label, k) => if label ∈ bounds then some (k, false) else none
    | (.line _ _, k) => some (k, true)
    | (.insn _, _) => none

/-- The `nop` kept for the debugger between two neighbouring debug points. -/
def pairNop : (ℕ × Bool) × (ℕ × Bool) → Option ℕ
  | ((start, true), (stop, _)) => stretchNop start none ((nodes.take stop).drop start)
  | _ => none

end Required

/-- The `nop`s the cleanup keeps, by node position. -/
def requiredNops (method : MethodNode) : Option (List ℕ) := do
  let starts ← method.tryCatchBlocks.mapM (rangeNop method.nodes)
  let bounds := method.localVariables.flatMap fun v => [v.start, v.stop]
  let points := debugPoints method.nodes bounds
  return starts.filterMap id ++ (points.zip points.tail).filterMap (pairNop method.nodes)

/-- Remove every `nop` `requiredNops` does not keep; `true` when any went. -/
def remove (method : MethodNode) : Option (MethodNode × Bool) :=
  if !method.nodes.any Node.isNop then some (method, false)
  else do
    let required ← requiredNops method
    let removed := (List.range method.nodes.length).filter fun k =>
      isNopAt method.nodes k && decide (k ∉ required)
    return ({ method with nodes := retain (fun k => decide (k ∉ removed)) method.nodes }, !removed.isEmpty)

/-! ### The `nop`s required -/

variable {k : ℕ}

section Spec

variable {method : MethodNode}

def NopAt (method : MethodNode) (k : ℕ) : Prop := method.nodes[k]? = some (.insn (.op nop))

/-- The first instruction from `start` on stands at `k`. -/
structure FirstInsn (method : MethodNode) (start k : ℕ) : Prop where
  le : start ≤ k
  insn : method.InsnAt k
  first : ∀ p, start ≤ p → p < k → ¬ method.InsnAt p

def LineAt (method : MethodNode) (k : ℕ) : Prop := ∃ line start, method.nodes[k]? = some (.line line start)

/-- A line number, or a boundary of a local variable's range. -/
def DebugPoint (method : MethodNode) (k : ℕ) : Prop :=
  LineAt method k ∨ ∃ v ∈ method.localVariables, ∃ label, (label = v.start ∨ label = v.stop) ∧
    method.nodes[k]? = some (.label label)

/-- The nodes from a line number up to the next debug point. -/
structure Stretch (method : MethodNode) (start stop : ℕ) : Prop where
  line : LineAt method start
  point : DebugPoint method stop
  lt : start < stop
  next : ∀ p, DebugPoint method p → ¬ (start < p ∧ p < stop)

/-- The first of the `nop`s that are all a stretch holds. -/
structure SoleNop (method : MethodNode) (start stop k : ℕ) : Prop where
  le : start ≤ k
  lt : k < stop
  nops : ∀ p, start ≤ p → p < stop → method.InsnAt p → NopAt method p
  first : ∀ p, start ≤ p → p < k → ¬ NopAt method p

/-- A `nop` that starts a protected range, or keeps a line number's stretch from being empty. -/
def Required (method : MethodNode) (k : ℕ) : Prop :=
  NopAt method k ∧
    ((∃ block ∈ method.tryCatchBlocks, ∃ start, method.position block.start = some start ∧
        FirstInsn method start k) ∨
      ∃ start stop, Stretch method start stop ∧ SoleNop method start stop k)

theorem NopAt.insnAt (h : NopAt method k) : method.InsnAt k := ⟨_, h⟩

theorem isInsn_getD : (method.nodes[k]?.map Node.isInsn).getD false = true ↔ method.InsnAt k := by
  unfold MethodNode.InsnAt
  cases method.nodes[k]? with
  | none => simp
  | some node => cases node <;> simp

theorem isNopAt_iff : isNopAt method.nodes k ↔ NopAt method k := by
  unfold isNopAt NopAt
  cases method.nodes[k]? with
  | none => simp
  | some node => simp

theorem firstPosition_eq (h : method.labels.Nodup) {label : LabelId} (hlabel : label ∈ method.labels) :
    firstPosition method.nodes label = method.position label := by
  obtain ⟨i, hi⟩ := MethodNode.exists_position hlabel
  have hat := MethodNode.position_spec hi
  cases hfirst : firstPosition method.nodes label with
  | none =>
    have hnone := List.findIdx?_eq_none_iff.mp hfirst _ (List.mem_of_getElem? hat)
    simp at hnone
  | some k =>
    obtain ⟨hlt, hk, -⟩ := List.findIdx?_eq_some_iff_getElem.mp hfirst
    symm
    rw [MethodNode.position_eq_some h, List.getElem?_eq_getElem hlt, beq_iff_eq.mp hk]

theorem firstInsn_eq_some {start k : ℕ} : firstInsn method.nodes start = some k ↔ FirstInsn method start k := by
  unfold firstInsn
  rw [List.find?_range'_eq_some, isInsn_getD, List.mem_range'_1]
  constructor
  · rintro ⟨hinsn, ⟨hle, -⟩, hfirst⟩
    refine ⟨hle, hinsn, fun p hp hlt hat => ?_⟩
    have hnot := hfirst p hp hlt
    rw [isInsn_getD.mpr hat] at hnot
    cases hnot
  · rintro ⟨hle, hinsn, hfirst⟩
    obtain ⟨insn, hk⟩ := hinsn
    have hlt := (List.getElem?_eq_some_iff.mp hk).1
    refine ⟨⟨insn, hk⟩, ⟨hle, by omega⟩, fun p hp hpk => ?_⟩
    rw [Bool.not_eq_true', ← Bool.not_eq_true, isInsn_getD]
    exact hfirst p hp hpk

theorem rangeNop_spec (h : method.WellPlaced) {block : TryCatchBlock} (hblock : block ∈ method.tryCatchBlocks) :
    ∃ found, rangeNop method.nodes block = some found ∧
      ∀ k, found = some k ↔ NopAt method k ∧ ∃ start, method.position block.start = some start ∧
        FirstInsn method start k := by
  have hstart := (h.blocks block hblock).1
  obtain ⟨start, hposition⟩ := MethodNode.exists_position hstart
  refine ⟨_, by rw [rangeNop, firstPosition_eq h.unique hstart, hposition]; rfl, fun k => ?_⟩
  rw [Option.filter_eq_some_iff, isNopAt_iff, firstInsn_eq_some, hposition]
  constructor
  · rintro ⟨hfirst, hnop⟩
    exact ⟨hnop, start, rfl, hfirst⟩
  · rintro ⟨hnop, start', heq, hfirst⟩
    cases heq
    exact ⟨hfirst, hnop⟩

/-- A scan over nodes finds the first `nop`, unless another instruction is among them. -/
theorem stretchNop_spec (nodes : List Node) (index : ℕ) (first : Option ℕ) (k : ℕ) :
    stretchNop index first nodes = some k ↔
      (∀ node ∈ nodes, node.isInsn → node.isNop) ∧
        first.or ((nodes.findIdx? Node.isNop).map (index + ·)) = some k := by
  induction nodes generalizing index first with
  | nil => simp [stretchNop]
  | cons node nodes ih =>
    have hshift : (nodes.findIdx? Node.isNop).map (index + 1 + ·) =
        ((nodes.findIdx? Node.isNop).map (· + 1)).map (index + ·) := by
      rw [Option.map_map]
      congr 1
      funext i
      simp only [Function.comp_apply]
      omega
    rw [stretchNop, List.findIdx?_cons]
    by_cases hnop : node.isNop
    · rw [if_pos hnop, if_pos hnop, ih, List.forall_mem_cons]
      simp only [hnop, implies_true, true_and]
      cases first <;> simp
    · rw [if_neg hnop, if_neg hnop]
      by_cases hinsn : node.isInsn
      · rw [if_pos hinsn, List.forall_mem_cons]
        constructor
        · intro h
          cases h
        · rintro ⟨⟨hnode, -⟩, -⟩
          exact absurd (hnode hinsn) hnop
      · rw [if_neg hinsn, ih, List.forall_mem_cons, hshift]
        simp [hinsn]

theorem pairNop_eq_some {start stop k : ℕ} {line : Bool} :
    pairNop method.nodes ((start, true), (stop, line)) = some k ↔
      NopAt method k ∧ SoleNop method start stop k := by
  have hat : ∀ i, ((method.nodes.take stop).drop start)[i]? =
      if start + i < stop then method.nodes[start + i]? else none := by
    intro i
    rw [List.getElem?_drop, List.getElem?_take]
  unfold pairNop
  rw [stretchNop_spec, Option.none_or, Option.map_eq_some_iff]
  constructor
  · rintro ⟨hall, i, hi, rfl⟩
    obtain ⟨hlt, hnop, hfirst⟩ := List.findIdx?_eq_some_iff_getElem.mp hi
    have hnode := hat i
    rw [List.getElem?_eq_getElem hlt] at hnode
    split_ifs at hnode with hstop
    refine ⟨?_, Nat.le_add_right _ _, hstop, ?_, ?_⟩
    · rw [NopAt, ← hnode, Node.isNop_iff.mp hnop]
    · rintro p hle hp ⟨insn, hinsn⟩
      have hmem : Node.insn insn ∈ (method.nodes.take stop).drop start := by
        refine List.mem_of_getElem? (i := p - start) ?_
        rw [hat, Nat.add_sub_cancel' hle, if_pos hp, hinsn]
      rw [NopAt, hinsn, Node.isNop_iff.mp (hall _ hmem rfl)]
    · intro p hle hp hnop
      have hlt' : p - start < i := by omega
      have hnode' := hat (p - start)
      rw [Nat.add_sub_cancel' hle, if_pos (by omega), hnop, List.getElem?_eq_getElem (by omega)] at hnode'
      exact hfirst (p - start) hlt' (Node.isNop_iff.mpr (Option.some.inj hnode'))
  · rintro ⟨hnop, hle, hlt, hall, hfirst⟩
    refine ⟨fun node hnode hinsn => ?_, k - start, ?_, Nat.add_sub_cancel' hle⟩
    · obtain ⟨i, hi⟩ := List.mem_iff_getElem?.mp hnode
      rw [hat] at hi
      split_ifs at hi with hstop
      cases node with
      | insn insn =>
        have hnop := hall (start + i) (Nat.le_add_right _ _) hstop ⟨insn, hi⟩
        rw [NopAt, hi] at hnop
        exact Node.isNop_iff.mpr (Option.some.inj hnop)
      | label label => cases hinsn
      | line line start => cases hinsn
    · have hk := hat (k - start)
      rw [Nat.add_sub_cancel' hle, if_pos hlt, hnop] at hk
      obtain ⟨hlt', hk⟩ := List.getElem?_eq_some_iff.mp hk
      refine List.findIdx?_eq_some_iff_getElem.mpr ⟨hlt', Node.isNop_iff.mpr hk, fun j hj hnop' => ?_⟩
      have hnode := hat j
      rw [List.getElem?_eq_getElem (Nat.lt_trans hj hlt'), if_pos (by omega), Node.isNop_iff.mp hnop'] at hnode
      exact hfirst (start + j) (Nat.le_add_right _ _) (by omega) hnode.symm

theorem mem_debugPoints {bounds : List LabelId} {line : Bool} : (k, line) ∈ debugPoints method.nodes bounds ↔
      if line then LineAt method k else ∃ label ∈ bounds, method.nodes[k]? = some (.label label) := by
  unfold debugPoints LineAt
  rw [List.mem_filterMap]
  constructor
  · rintro ⟨⟨node, i⟩, hmem, h⟩
    have hi := List.mem_zipIdx_iff_getElem?.mp hmem
    cases node with
    | label label =>
      simp only at h
      split_ifs at h with hbounds
      cases h
      exact ⟨label, hbounds, hi⟩
    | line number start =>
      cases h
      exact ⟨number, start, hi⟩
    | insn insn => cases h
  · intro h
    cases line with
    | true =>
      obtain ⟨number, start, hk⟩ := h
      exact ⟨(.line number start, k), List.mem_zipIdx_iff_getElem?.mpr hk, rfl⟩
    | false =>
      obtain ⟨label, hbounds, hk⟩ := h
      exact ⟨(.label label, k), List.mem_zipIdx_iff_getElem?.mpr hk, if_pos hbounds⟩

theorem debugPoints_sorted (nodes : List Node) (bounds : List LabelId) :
    (debugPoints nodes bounds).Pairwise fun x y => x.1 < y.1 := by
  unfold debugPoints
  have hzip : nodes.zipIdx.Pairwise fun x y => x.2 < y.2 := by
    refine List.pairwise_iff_getElem.mpr fun i j hi hj hlt => ?_
    simpa using hlt
  have hplace : ∀ (x : Node × ℕ) (y : ℕ × Bool), (match x with
      | (.label label, k) => if label ∈ bounds then some (k, false) else none
      | (.line _ _, k) => some (k, true)
      | (.insn _, _) => none) = some y → y.1 = x.2 := by
    rintro ⟨node, k⟩ y h
    cases node with
    | label label =>
      simp only at h
      split_ifs at h
      cases h
      rfl
    | line number start =>
      cases h
      rfl
    | insn insn => cases h
  refine List.pairwise_filterMap.mpr (hzip.imp fun {x y} hlt a ha b hb => ?_)
  rw [hplace x a ha, hplace y b hb]
  exact hlt

/-- The neighbouring debug points the first of which is a line number are the stretches. -/
theorem mem_pairs {start stop : ℕ} :
    (∃ line, ((start, true), (stop, line)) ∈
      (debugPoints method.nodes (method.localVariables.flatMap fun v => [v.start, v.stop])).zip
        (debugPoints method.nodes (method.localVariables.flatMap fun v => [v.start, v.stop])).tail) ↔
      Stretch method start stop := by
  have hpoint : ∀ k, (∃ line, (k, line) ∈ debugPoints method.nodes
      (method.localVariables.flatMap fun v => [v.start, v.stop])) ↔ DebugPoint method k := by
    intro k
    simp only [mem_debugPoints, Bool.exists_bool, DebugPoint, List.mem_flatMap, List.mem_cons, List.not_mem_nil,
      or_false, if_true, Bool.false_eq_true, if_false]
    constructor
    · rintro (⟨label, ⟨v, hv, hlabel⟩, hk⟩ | hline)
      · exact .inr ⟨v, hv, label, hlabel, hk⟩
      · exact .inl hline
    · rintro (hline | ⟨v, hv, label, hlabel, hk⟩)
      · exact .inr hline
      · exact .inl ⟨label, ⟨v, hv, hlabel⟩, hk⟩
  constructor
  · rintro ⟨line, hmem⟩
    obtain ⟨hstart, hstop, hlt, hnone⟩ := (Neighbours.mem_zip_tail_iff (debugPoints_sorted _ _)).mp hmem
    refine ⟨mem_debugPoints.mp hstart, (hpoint stop).mp ⟨line, hstop⟩, hlt, fun p hp hbetween => ?_⟩
    obtain ⟨line', hp⟩ := (hpoint p).mpr hp
    exact hnone _ hp hbetween
  · rintro ⟨hline, hpoint', hlt, hnext⟩
    obtain ⟨line, hstop⟩ := (hpoint stop).mpr hpoint'
    refine ⟨line, (Neighbours.mem_zip_tail_iff (debugPoints_sorted _ _)).mpr
      ⟨mem_debugPoints.mpr hline, hstop, hlt, ?_⟩⟩
    rintro ⟨p, line'⟩ hp hbetween
    exact hnext p ((hpoint p).mp ⟨line', hp⟩) hbetween

/-- The cleanup finds exactly the `nop`s required. -/
theorem requiredNops_spec (h : method.WellPlaced) :
    ∃ required, requiredNops method = some required ∧ ∀ k, k ∈ required ↔ Required method k := by
  have hranges : ∀ block ∈ method.tryCatchBlocks, ∃ found, rangeNop method.nodes block = some found := by
    intro block hblock
    obtain ⟨found, hfound, -⟩ := rangeNop_spec h hblock
    exact ⟨found, hfound⟩
  obtain ⟨starts, hstarts⟩ := Results.exists_mapM_some hranges
  refine ⟨_, by rw [requiredNops, hstarts]; rfl, fun k => ?_⟩
  rw [List.mem_append, Required, and_or_left]
  have hall := Results.mapM_some.mp hstarts
  refine or_congr ?_ ?_
  · simp only [List.mem_filterMap, id_eq]
    constructor
    · rintro ⟨found, hmem, rfl⟩
      obtain ⟨block, hblock, hfound⟩ := Results.exists_left hall hmem
      obtain ⟨found', hfound', hspec⟩ := rangeNop_spec h hblock
      rw [hfound] at hfound'
      cases hfound'
      obtain ⟨hnop, hfirst⟩ := (hspec k).mp rfl
      exact ⟨hnop, block, hblock, hfirst⟩
    · rintro ⟨hnop, block, hblock, hfirst⟩
      obtain ⟨found, hmem, hfound⟩ := Results.exists_right hall hblock
      obtain ⟨found', hfound', hspec⟩ := rangeNop_spec h hblock
      rw [hfound] at hfound'
      cases hfound'
      exact ⟨found, hmem, (hspec k).mpr ⟨hnop, hfirst⟩⟩
  · rw [List.mem_filterMap]
    constructor
    · rintro ⟨⟨⟨start, line⟩, ⟨stop, line'⟩⟩, hmem, hk⟩
      cases line with
      | false => cases hk
      | true =>
        obtain ⟨hnop, hsole⟩ := pairNop_eq_some.mp hk
        exact ⟨hnop, start, stop, mem_pairs.mp ⟨line', hmem⟩, hsole⟩
    · rintro ⟨hnop, start, stop, hstretch, hsole⟩
      obtain ⟨line, hmem⟩ := mem_pairs.mpr hstretch
      exact ⟨_, hmem, pairNop_eq_some.mpr ⟨hnop, hsole⟩⟩

end Spec

/-! ### What is left -/

/-- What removing `nop`s leaves of a body. -/
structure Cleaned (before after : MethodNode) : Prop where
  /-- Only `nop`s went, and what is left kept its order. -/
  nops : ∃ keep : ℕ → Bool, after.nodes = retain keep before.nodes ∧
    ∀ k < before.nodes.length, keep k = false → NopAt before k
  tables : after.tryCatchBlocks = before.tryCatchBlocks ∧ after.localVariables = before.localVariables
  runs : ∀ {S X O V : Type} (M : Machine S X O V) (s : S),
    Simulation.Same (before.program M) (after.program M) (0, s) (0, s)
  /-- No protected range lost its last instruction. -/
  ranges : ∀ block ∈ before.tryCatchBlocks, (∃ p, before.InsnAt p ∧ before.protects block p) →
    ∃ p, after.InsnAt p ∧ after.protects block p
  /-- No stretch from a line number to the next debug point lost its last instruction. -/
  stretches : ∃ place : ℕ → ℕ, ∀ start stop, Stretch before start stop →
    Stretch after (place start) (place stop) ∧
      ((∃ p, start < p ∧ p < stop ∧ before.InsnAt p) →
        ∃ p, place start < p ∧ p < place stop ∧ after.InsnAt p)

section Result

variable {method after : MethodNode}

/-- The nodes that stay: all but the `nop`s not required. -/
def keeps (method : MethodNode) (required : List ℕ) (k : ℕ) : Bool :=
  decide (k ∉ (List.range method.nodes.length).filter fun k => isNopAt method.nodes k && decide (k ∉ required))

variable {required : List ℕ}

theorem keeps_eq_false : keeps method required k = false ↔ NopAt method k ∧ k ∉ required := by
  unfold keeps
  rw [decide_eq_false_iff_not, not_not, List.mem_filter, Bool.and_eq_true, isNopAt_iff, decide_eq_true_iff,
    List.mem_range]
  refine ⟨fun h => h.2, fun h => ⟨?_, h⟩⟩
  exact (List.getElem?_eq_some_iff.mp h.1).1

theorem keeps_of_not_nop (h : ¬ NopAt method k) : keeps method required k := by
  by_contra hdrop
  exact h (keeps_eq_false.mp (Bool.eq_false_iff.mpr hdrop)).1

theorem keeps_of_required (h : k ∈ required) : keeps method required k := by
  by_contra hdrop
  exact (keeps_eq_false.mp (Bool.eq_false_iff.mpr hdrop)).2 h

/-- Taking out `nop`s is a deletion that nothing on any path misses. -/
theorem deletion (hnodes : after.nodes = retain (keeps method required) method.nodes)
    (hblocks : after.tryCatchBlocks = method.tryCatchBlocks) :
    MethodNode.Deletion method after (keeps method required) (fun _ => true) fun _ => True :=
  .of_nops hnodes hblocks fun _ _ hdrop => (keeps_eq_false.mp hdrop).1

variable {keep keepBlock : ℕ → Bool} {Live : ℕ → Prop}

/-- A debug point of what is left is a debug point there was, at its new place. -/
theorem debugPoint_iff (h : MethodNode.Deletion method after keep keepBlock Live)
    (hlocals : after.localVariables = method.localVariables) (hkeep : keep k) :
    DebugPoint after (rank keep k) ↔ DebugPoint method k := by
  simp only [DebugPoint, LineAt, h.getElem? hkeep, hlocals]

theorem DebugPoint.keeps (h : DebugPoint method k) : keeps method required k := by
  refine keeps_of_not_nop fun hnop => ?_
  rw [NopAt] at hnop
  rcases h with ⟨line, start, hk⟩ | ⟨v, -, label, -, hk⟩
  · rw [hk] at hnop
    cases hnop
  · rw [hk] at hnop
    cases hnop

theorem InsnAt.exists_kept (h : MethodNode.Deletion method after keep keepBlock Live)
    (hk : after.InsnAt k) : ∃ p, keep p ∧ rank keep p = k ∧ method.InsnAt p := by
  obtain ⟨insn, hk⟩ := hk
  obtain ⟨p, hkeep, hrank, hp⟩ := h.exists_kept hk
  exact ⟨p, hkeep, hrank, insn, hp⟩

theorem Stretch.retain (h : MethodNode.Deletion method after (RedundantNops.keeps method required) keepBlock Live)
    (hlocals : after.localVariables = method.localVariables) {start stop : ℕ} (hstretch : Stretch method start stop) :
    Stretch after (rank (RedundantNops.keeps method required) start)
      (rank (RedundantNops.keeps method required) stop) := by
  have hstart : RedundantNops.keeps method required start := DebugPoint.keeps (.inl hstretch.line)
  have hstop : RedundantNops.keeps method required stop := hstretch.point.keeps
  refine ⟨?_, (debugPoint_iff h hlocals hstop).mpr hstretch.point, rank_lt hstart hstretch.lt, ?_⟩
  · obtain ⟨line, label, hline⟩ := hstretch.line
    exact ⟨line, label, (h.getElem? hstart).trans hline⟩
  · rintro p hp ⟨hlt, hlt'⟩
    have hnode : ∃ node, after.nodes[p]? = some node := by
      rcases hp with ⟨line, label, hp⟩ | ⟨v, -, label, -, hp⟩
      · exact ⟨_, hp⟩
      · exact ⟨_, hp⟩
    obtain ⟨node, hnode⟩ := hnode
    obtain ⟨q, hkeep, rfl, -⟩ := h.exists_kept hnode
    exact hstretch.next q ((debugPoint_iff h hlocals hkeep).mp hp)
      ⟨(rank_lt_iff hstart).mp hlt, (rank_lt_iff hkeep).mp hlt'⟩

/-- Some kept instruction of a stretch that had one. -/
theorem Stretch.exists_kept (hrequired : ∀ k, k ∈ required ↔ Required method k) {start stop p : ℕ}
    (hstretch : Stretch method start stop) (hle : start < p) (hlt : p < stop) (hp : method.InsnAt p) :
    ∃ q, start < q ∧ q < stop ∧ method.InsnAt q ∧ RedundantNops.keeps method required q := by
  by_cases hother : ∃ q, start < q ∧ q < stop ∧ method.InsnAt q ∧ ¬ NopAt method q
  · obtain ⟨q, hsq, hqs, hq, hnop⟩ := hother
    exact ⟨q, hsq, hqs, hq, keeps_of_not_nop hnop⟩
  · have hnotStart : ¬ method.InsnAt start := by
      rintro ⟨insn, hinsn⟩
      obtain ⟨line, label, hline⟩ := hstretch.line
      rw [hline] at hinsn
      cases hinsn
    have hnops : ∀ q, start ≤ q → q < stop → method.InsnAt q → NopAt method q := by
      intro q hsq hqs hq
      by_contra hnop
      refine hother ⟨q, Nat.lt_of_le_of_ne hsq ?_, hqs, hq, hnop⟩
      rintro rfl
      exact hnotStart hq
    -- the first `nop` of the stretch is required
    classical
    have hexists : ∃ q, start ≤ q ∧ NopAt method q := ⟨p, hle.le, hnops p hle.le hlt hp⟩
    obtain ⟨hsq, hq⟩ := Nat.find_spec hexists
    have hqp : Nat.find hexists ≤ p := Nat.find_min' hexists ⟨hle.le, hnops p hle.le hlt hp⟩
    have hmem : Nat.find hexists ∈ required := by
      refine (hrequired _).mpr ⟨hq, .inr ⟨start, stop, hstretch, hsq, by omega, hnops, ?_⟩⟩
      intro q hsq' hlt' hnop
      exact Nat.find_min hexists hlt' ⟨hsq', hnop⟩
    refine ⟨Nat.find hexists, Nat.lt_of_le_of_ne hsq ?_, by omega, hq.insnAt, keeps_of_required hmem⟩
    intro heq
    rw [← heq] at hq
    exact hnotStart hq.insnAt

/-- The first instruction a protected range held is kept. -/
theorem range_kept (hrequired : ∀ k, k ∈ required ↔ Required method k) {block : TryCatchBlock}
    (hblock : block ∈ method.tryCatchBlocks) {p : ℕ} (hp : method.InsnAt p) (hprotects : method.protects block p) :
    ∃ q, method.InsnAt q ∧ method.protects block q ∧ keeps method required q := by
  unfold MethodNode.protects MethodNode.spans at hprotects
  cases hstart : method.position block.start with
  | none => simp [hstart] at hprotects
  | some start =>
    cases hstop : method.position block.stop with
    | none => simp [hstart, hstop] at hprotects
    | some stop =>
      simp only [hstart, hstop, Bool.and_eq_true, decide_eq_true_iff] at hprotects
      obtain ⟨hle, hlt⟩ := hprotects
      classical
      have hexists : ∃ q, start ≤ q ∧ method.InsnAt q := ⟨p, hle, hp⟩
      obtain ⟨hsq, hq⟩ := Nat.find_spec hexists
      have hqp : Nat.find hexists ≤ p := Nat.find_min' hexists ⟨hle, hp⟩
      have hfirst : FirstInsn method start (Nat.find hexists) :=
        ⟨hsq, hq, fun q hsq' hlt' hat => Nat.find_min hexists hlt' ⟨hsq', hat⟩⟩
      refine ⟨Nat.find hexists, hq, ?_, ?_⟩
      · simp only [MethodNode.protects, MethodNode.spans, hstart, hstop, Bool.and_eq_true, decide_eq_true_iff]
        omega
      · by_cases hnop : NopAt method (Nat.find hexists)
        · exact keeps_of_required ((hrequired _).mpr ⟨hnop, .inl ⟨block, hblock, start, hstart, hfirst⟩⟩)
        · exact keeps_of_not_nop hnop

/-- A `nop` kept because it was required still is. -/
theorem Required.retain (h : MethodNode.Deletion method after (RedundantNops.keeps method required) keepBlock Live)
    (hblocks : after.tryCatchBlocks = method.tryCatchBlocks)
    (hlocals : after.localVariables = method.localVariables) (hk : Required method k)
    (hkeep : RedundantNops.keeps method required k) :
    Required after (rank (RedundantNops.keeps method required) k) := by
  refine ⟨(h.getElem? hkeep).trans hk.1, ?_⟩
  rcases hk.2 with ⟨block, hblock, start, hstart, hfirst⟩ | ⟨start, stop, hstretch, hsole⟩
  · refine .inl ⟨block, hblocks ▸ hblock, rank _ start, ?_, rank_mono hfirst.le, ?_, ?_⟩
    · rw [h.position, hstart, Option.map_some]
    · exact ⟨_, (h.getElem? hkeep).trans hk.1⟩
    · intro p hle hlt hp
      obtain ⟨q, hkeep', rfl, hq⟩ := InsnAt.exists_kept h hp
      exact hfirst.first q ((rank_le_iff hkeep').mp hle) ((rank_lt_iff hkeep').mp hlt) hq
  · refine .inr ⟨_, _, hstretch.retain h hlocals, rank_mono hsole.le, rank_lt hkeep hsole.lt, ?_, ?_⟩
    · intro p hle hlt hp
      obtain ⟨q, hkeep', rfl, hq⟩ := InsnAt.exists_kept h hp
      have hnop := hsole.nops q ((rank_le_iff hkeep').mp hle) ((rank_lt_iff hkeep').mp hlt) hq
      exact (h.getElem? hkeep').trans hnop
    · intro p hle hlt hp
      obtain ⟨q, hkeep', rfl, hq⟩ := h.exists_kept hp
      exact hsole.first q ((rank_le_iff hkeep').mp hle) ((rank_lt_iff hkeep').mp hlt) hq

theorem cleaned_self (method : MethodNode) : Cleaned method method where
  nops := ⟨fun _ => true, by rw [retain_eq_self fun _ _ => rfl], fun _ _ h => by cases h⟩
  tables := ⟨rfl, rfl⟩
  runs M s := .refl _ _
  ranges _ _ h := h
  stretches := ⟨id, fun _ _ hstretch => ⟨hstretch, fun h => h⟩⟩

theorem cleaned (hrequired : ∀ k, k ∈ required ↔ Required method k)
    (hnodes : after.nodes = retain (keeps method required) method.nodes)
    (hblocks : after.tryCatchBlocks = method.tryCatchBlocks)
    (hlocals : after.localVariables = method.localVariables) : Cleaned method after where
  nops := ⟨_, hnodes, fun _ _ hdrop => (keeps_eq_false.mp hdrop).1⟩
  tables := ⟨hblocks, hlocals⟩
  runs := (deletion hnodes hblocks).same
  ranges := by
    rintro block hblock ⟨p, hp, hprotects⟩
    obtain ⟨q, ⟨insn, hq⟩, hprotects, hkeep⟩ := range_kept hrequired hblock hp hprotects
    have h := deletion hnodes hblocks
    exact ⟨_, ⟨insn, (h.getElem? hkeep).trans hq⟩, by rw [h.protects block hkeep, hprotects]⟩
  stretches := by
    have h := deletion hnodes hblocks
    refine ⟨rank (keeps method required), fun start stop hstretch => ⟨hstretch.retain h hlocals, ?_⟩⟩
    rintro ⟨p, hle, hlt, hp⟩
    obtain ⟨q, hsq, hqs, ⟨insn, hq⟩, hkeep⟩ := hstretch.exists_kept hrequired hle hlt hp
    have hstart : keeps method required start := DebugPoint.keeps (.inl hstretch.line)
    exact ⟨rank _ q, rank_lt hstart hsq, rank_lt hkeep hqs, insn, (h.getElem? hkeep).trans hq⟩

theorem remove_of_required {required : List ℕ} (hany : method.nodes.any Node.isNop = true)
    (hrequired : requiredNops method = some required) :
    remove method = some ({ method with nodes := retain (keeps method required) method.nodes },
      !((List.range method.nodes.length).filter fun k =>
        isNopAt method.nodes k && decide (k ∉ required)).isEmpty) := by
  simp only [remove, hany, hrequired, Bool.not_true, Bool.false_eq_true, if_false, Option.bind_eq_bind,
    Option.bind_some]
  rfl

/-- Where every `nop` is required, none goes. -/
theorem remove_self (h : method.WellPlaced) (hall : ∀ k, NopAt method k → Required method k) :
    remove method = some (method, false) := by
  cases hany : method.nodes.any Node.isNop with
  | false => simp [remove, hany]
  | true =>
    obtain ⟨required, hfound, hrequired⟩ := requiredNops_spec h
    have hkeep : ∀ k, keeps method required k := by
      intro k
      by_contra hdrop
      obtain ⟨hnop, hnot⟩ := keeps_eq_false.mp (Bool.eq_false_iff.mpr hdrop)
      exact hnot ((hrequired k).mpr (hall k hnop))
    have hnone : (List.range method.nodes.length).filter (fun k =>
        isNopAt method.nodes k && decide (k ∉ required)) = [] := by
      refine List.filter_eq_nil_iff.mpr fun k _ hk => ?_
      rw [Bool.and_eq_true, isNopAt_iff, decide_eq_true_iff] at hk
      exact hk.2 ((hrequired k).mpr (hall k hk.1))
    rw [remove_of_required hany hfound, hnone, retain_eq_self fun k _ => hkeep k]
    rfl

/-- A method with a `nop` alone in a local variable's range. -/
def nopInRange : MethodNode :=
  { access := 9, name := "f", desc := "()V"
    nodes := [.label ⟨0⟩, .insn (.op 0x00), .label ⟨1⟩, .insn (.op 0xb1)], tryCatchBlocks := []
    localVariables := [⟨"x", "I", ⟨0⟩, ⟨1⟩, 0⟩], maxStack := 0, maxLocals := 1, labelCount := 2 }

end Result

end Krusty.Jvm.BytecodePasses.RedundantNops
