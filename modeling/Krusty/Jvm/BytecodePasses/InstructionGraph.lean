import Krusty.Jvm.MethodNode.Nodes
import Krusty.Lib.Results

/-! The control flow between the instructions of a method, with normal and exceptional edges kept apart. -/
namespace Krusty.Jvm.BytecodePasses

/-- The instructions numbered so far, with the labels that wait for the next one. -/
structure Numbering where
  positions : List ℕ
  labelAt : LabelId → Option ℕ
  pending : List LabelId

namespace Numbering

def empty : Numbering := ⟨[], fun _ => none, []⟩

/-- The waiting labels stand in front of the instruction numbered next, or of the exit. -/
def placeLabels (s : Numbering) : LabelId → Option ℕ :=
  s.pending.foldl (fun labelAt label => Function.update labelAt label (some s.positions.length)) s.labelAt

def scan (s : Numbering) (position : ℕ) : Node → Numbering
  | .label label => { s with pending := s.pending ++ [label] }
  | .line _ _ => s
  | .insn _ => ⟨s.positions ++ [position], s.placeLabels, []⟩

def scanFrom (position : ℕ) : List Node → Numbering → Numbering
  | [], s => s
  | node :: nodes, s => scanFrom (position + 1) nodes (s.scan position node)

end Numbering

structure InstructionGraph where
  method : MethodNode
  /-- The node position of each instruction. -/
  positions : List ℕ
  /-- The instruction each label stands in front of; the exit for a label after the last one. -/
  labelAt : LabelId → Option ℕ
  normal : ℕ → List ℕ
  exceptional : ℕ → List ℕ

/-- The normal successors of instruction `index`; `none` for a subroutine or a label never placed. -/
def normalEdges (ordinal : LabelId → Option ℕ) (index : ℕ) : Insn LabelId → Option (List ℕ)
  | .jump op target =>
    if op = jsr then none
    else do
      let target ← ordinal target
      return if op = gotoOp then [target] else [target, index + 1]
  | .tableSwitch low high default labels =>
    (Insn.tableSwitch low high default labels).jumpTargets.mapM ordinal
  | .lookupSwitch default keys labels => (Insn.lookupSwitch default keys labels).jumpTargets.mapM ordinal
  | .var op slot => if op = ret then none else some (if (Insn.var op slot).fallsThrough then [index + 1] else [])
  | insn => some (if insn.fallsThrough then [index + 1] else [])

/-- The rows of a table of edges, in order. -/
def edgeRows (rows : ℕ → Insn LabelId → Option (List ℕ)) : ℕ → List (Insn LabelId) → Option (List (List ℕ))
  | _, [] => some []
  | index, insn :: insns => do
    let row ← rows index insn
    let rest ← edgeRows rows (index + 1) insns
    return row :: rest

/-- A protected range by instruction numbers: its start, its end and its handler. -/
def protectedRange (ordinal : LabelId → Option ℕ) (exit : ℕ) (block : TryCatchBlock) : Option (ℕ × ℕ × ℕ) := do
  let start ← ordinal block.start
  let stop ← ordinal block.stop
  let handler ← ordinal block.handler
  if exit ≤ handler then none else some (start, stop, handler)

/-- Every instruction of the range reaches its handler. -/
def protect (exceptional : ℕ → List ℕ) (range : ℕ × ℕ × ℕ) : ℕ → List ℕ := fun index =>
  if range.1 ≤ index ∧ index < range.2.1 ∧ range.2.2 ∉ exceptional index then
    exceptional index ++ [range.2.2]
  else exceptional index

namespace InstructionGraph

/-- The graph of `method`, or `none` when it uses the subroutine instructions. -/
def build (method : MethodNode) : Option InstructionGraph := do
  let s := Numbering.scanFrom 0 method.nodes .empty
  let exit := s.positions.length
  let ordinal := s.placeLabels
  let normal ← edgeRows (normalEdges ordinal) 0 method.instructions
  let ranges ← method.tryCatchBlocks.mapM (protectedRange ordinal exit)
  return ⟨method, s.positions, ordinal, fun index => normal.getD index [],
    ranges.foldl protect fun _ => []⟩

variable (g : InstructionGraph)

/-- How many instructions the method has: the exit's number. -/
def len : ℕ := g.positions.length

def insn (index : ℕ) : Option (Insn LabelId) := do
  let position ← g.positions[index]?
  match g.method.nodes[position]? with
  | some (.insn insn) => some insn
  | _ => none

/-- The labels standing in front of instruction `index`, after the instruction before it. -/
def labelsBefore (index : ℕ) : List LabelId :=
  let start := if index = 0 then 0 else g.positions.getD (index - 1) 0 + 1
  let stop := g.positions.getD index g.method.nodes.length
  ((g.method.nodes.take stop).drop start).filterMap fun
    | .label label => some label
    | _ => none

def successors (index : ℕ) : List ℕ := g.normal index ++ g.exceptional index

end InstructionGraph

end Krusty.Jvm.BytecodePasses

variable {nodes : List Node}

namespace Krusty.Jvm

/-! ### Where control goes, read off the method -/

def Node.isInsn : Node → Bool
  | .insn _ => true
  | _ => false

@[simp] theorem Node.isInsn_insn (insn : Insn LabelId) : (Node.insn insn).isInsn = true := rfl

@[simp] theorem Node.isInsn_label (label : LabelId) : (Node.label label).isInsn = false := rfl

@[simp] theorem Node.isInsn_line (line : UInt16) (start : LabelId) : (Node.line line start).isInsn = false := rfl

def lastPosition (nodes : List Node) (label : LabelId) : Option ℕ :=
  (nodes.zipIdx.reverse.find? fun (node, _) => node == .label label).map Prod.snd

/-- The instruction a label stands in front of: how many instructions precede it. -/
def ordinalIn (nodes : List Node) (label : LabelId) : Option ℕ :=
  (lastPosition nodes label).map fun position => ((nodes.take position).filter Node.isInsn).length

def MethodNode.ordinal (method : MethodNode) (label : LabelId) : Option ℕ := ordinalIn method.nodes label

/-- Control can go from instruction `i` to instruction `j` when `i` completes. -/
def MethodNode.Continues (method : MethodNode) (i j : ℕ) : Prop :=
  ∃ insn, method.instructions[i]? = some insn ∧
    ((insn.fallsThrough ∧ j = i + 1) ∨ ∃ label ∈ insn.jumpTargets, method.ordinal label = some j)

/-- Control can go from instruction `i` to the handler at `j` when `i` throws. -/
def MethodNode.Throws (method : MethodNode) (i j : ℕ) : Prop :=
  ∃ block ∈ method.tryCatchBlocks, ∃ start stop, method.ordinal block.start = some start ∧
    method.ordinal block.stop = some stop ∧ method.ordinal block.handler = some j ∧ start ≤ i ∧ i < stop

theorem lastPosition_concat (nodes : List Node) (node : Node) (label : LabelId) :
    lastPosition (nodes ++ [node]) label =
      if node = .label label then some nodes.length else lastPosition nodes label := by
  unfold lastPosition
  rw [List.zipIdx_append, List.reverse_append]
  simp only [List.zipIdx_cons, List.zipIdx_nil, List.reverse_singleton, List.singleton_append, List.find?_cons]
  by_cases h : node = .label label
  · simp [h]
  · have hne : (node == .label label) = false := by simpa using h
    simp [h, hne]

theorem lastPosition_lt {label : LabelId} {position : ℕ}
    (h : lastPosition nodes label = some position) : position < nodes.length := by
  unfold lastPosition at h
  obtain ⟨⟨node, i⟩, hfind, rfl⟩ := Option.map_eq_some_iff.mp h
  have hmem := List.mem_reverse.mp (List.mem_of_find?_eq_some hfind)
  have hat := List.mem_zipIdx_iff_getElem?.mp hmem
  exact (List.getElem?_eq_some_iff.mp hat).1

theorem ordinalIn_concat (nodes : List Node) (node : Node) (label : LabelId) :
    ordinalIn (nodes ++ [node]) label =
      if node = .label label then some (nodes.filter Node.isInsn).length else ordinalIn nodes label := by
  unfold ordinalIn
  rw [lastPosition_concat]
  split
  · simp
  · cases hlast : lastPosition nodes label with
    | none => rfl
    | some position =>
      have hlt := lastPosition_lt hlast
      simp [List.take_append_of_le_length hlt.le]

theorem ordinalIn_le {label : LabelId} {index : ℕ}
    (h : ordinalIn nodes label = some index) : index ≤ (nodes.filter Node.isInsn).length := by
  unfold ordinalIn at h
  obtain ⟨position, -, rfl⟩ := Option.map_eq_some_iff.mp h
  exact ((List.take_sublist position nodes).filter Node.isInsn).length_le

theorem MethodNode.length_instructions (method : MethodNode) :
    method.instructions.length = (method.nodes.filter Node.isInsn).length := by
  unfold MethodNode.instructions
  induction method.nodes with
  | nil => rfl
  | cons node nodes ih => cases node <;> simp [List.filter_cons, ih]

end Krusty.Jvm

namespace Krusty.Jvm.BytecodePasses

namespace Numbering

/-- What the numbering of a prefix of the nodes knows. -/
structure Numbers (nodes : List Node) (s : Numbering) : Prop where
  length : s.positions.length = (nodes.filter Node.isInsn).length
  insns : List.Forall₂ (fun position insn => nodes[position]? = some (.insn insn)) s.positions
    (nodes.filterMap fun
      | .insn insn => some insn
      | _ => none)
  ordinal : s.placeLabels = ordinalIn nodes

theorem placeLabels_label (s : Numbering) (label : LabelId) :
    { s with pending := s.pending ++ [label] }.placeLabels =
      Function.update s.placeLabels label (some s.positions.length) := by
  simp [placeLabels]

theorem Numbers.scan {s : Numbering} (h : Numbers nodes s) (node : Node) :
    Numbers (nodes ++ [node]) (s.scan nodes.length node) := by
  have hkeep : ∀ (position : ℕ) (insn : Insn LabelId), nodes[position]? = some (Node.insn insn) →
      (nodes ++ [node])[position]? = some (Node.insn insn) := by
    intro position insn hat
    have hlt := (List.getElem?_eq_some_iff.mp hat).1
    rw [List.getElem?_append_left hlt, hat]
  have hinsns := h.insns.imp hkeep
  cases node with
  | label label =>
    refine ⟨?_, ?_, ?_⟩
    · simpa [Numbering.scan] using h.length
    · simpa [Numbering.scan] using hinsns
    · funext other
      simp only [Numbering.scan, placeLabels_label, ordinalIn_concat, h.ordinal]
      by_cases hother : label = other
      · subst hother
        simp [h.length]
      · rw [Function.update_of_ne (Ne.symm hother)]
        simp [hother]
  | line line start =>
    refine ⟨?_, ?_, ?_⟩
    · simpa [Numbering.scan] using h.length
    · simpa [Numbering.scan] using hinsns
    · funext other
      simp [Numbering.scan, ordinalIn_concat, h.ordinal]
  | insn insn =>
    refine ⟨?_, ?_, ?_⟩
    · simpa [Numbering.scan, List.filter_cons] using h.length
    · simp only [Numbering.scan, List.filterMap_append, List.filterMap_cons, List.filterMap_nil]
      exact List.rel_append hinsns (.cons (by simp) .nil)
    · funext other
      rw [ordinalIn_concat, if_neg (by simp), ← h.ordinal]
      rfl

theorem scanFrom_numbers : ∀ {before : List Node} {s : Numbering}, Numbers before s →
    Numbers (before ++ nodes) (scanFrom before.length nodes s) := by
  induction nodes with
  | nil =>
    intro before s h
    simpa [scanFrom] using h
  | cons node nodes ih =>
    intro before s h
    have hnext := ih (h.scan node)
    rw [List.append_assoc, List.length_append] at hnext
    exact hnext

theorem numbers (nodes : List Node) : Numbers nodes (scanFrom 0 nodes .empty) := by
  have hempty : Numbers [] .empty := ⟨rfl, .nil, by funext label; rfl⟩
  exact scanFrom_numbers hempty

end Numbering

theorem edgeRows_getD {rows : ℕ → Insn LabelId → Option (List ℕ)} {insns : List (Insn LabelId)} :
    ∀ {start : ℕ} {table : List (List ℕ)}, edgeRows rows start insns = some table →
      ∀ {index : ℕ} {insn : Insn LabelId}, insns[index]? = some insn →
        rows (start + index) insn = some (table.getD index []) := by
  induction insns with
  | nil =>
    intro start table _ index insn hat
    simp at hat
  | cons head insns ih =>
    intro start table h index insn hat
    obtain ⟨row, hrow, h⟩ := Option.bind_eq_some_iff.mp h
    obtain ⟨rest, hrest, h⟩ := Option.bind_eq_some_iff.mp h
    obtain rfl := Option.some.inj h
    cases index with
    | zero =>
      obtain rfl : head = insn := by simpa using hat
      simpa using hrow
    | succ index =>
      have hat : insns[index]? = some insn := by simpa using hat
      have htail := ih hrest hat
      rw [Nat.add_right_comm] at htail
      simpa [Nat.add_assoc] using htail

theorem edgeRows_length {rows : ℕ → Insn LabelId → Option (List ℕ)} {insns : List (Insn LabelId)} :
    ∀ {start : ℕ} {table : List (List ℕ)}, edgeRows rows start insns = some table →
      table.length = insns.length := by
  induction insns with
  | nil =>
    intro start table h
    obtain rfl := Option.some.inj h
    rfl
  | cons head insns ih =>
    intro start table h
    obtain ⟨row, -, h⟩ := Option.bind_eq_some_iff.mp h
    obtain ⟨rest, hrest, h⟩ := Option.bind_eq_some_iff.mp h
    obtain rfl := Option.some.inj h
    simp [ih hrest]

theorem mem_normalEdges {ordinal : LabelId → Option ℕ} {index : ℕ} {insn : Insn LabelId} {row : List ℕ}
    (h : normalEdges ordinal index insn = some row) (j : ℕ) :
    j ∈ row ↔ (insn.fallsThrough ∧ j = index + 1) ∨ ∃ label ∈ insn.jumpTargets, ordinal label = some j := by
  have hplain : ∀ {insn : Insn LabelId}, insn.jumpTargets = [] →
      some (if insn.fallsThrough then [index + 1] else []) = some row →
      (j ∈ row ↔ (insn.fallsThrough ∧ j = index + 1) ∨
        ∃ label ∈ insn.jumpTargets, ordinal label = some j) := by
    intro insn hnone hrow
    obtain rfl := Option.some.inj hrow
    rw [hnone]
    cases insn.fallsThrough <;> simp
  have hswitch : ∀ {insn : Insn LabelId}, insn.fallsThrough = false →
      insn.jumpTargets.mapM ordinal = some row →
      (j ∈ row ↔ (insn.fallsThrough ∧ j = index + 1) ∨
        ∃ label ∈ insn.jumpTargets, ordinal label = some j) := by
    intro insn hfalls hrow
    rw [hfalls]
    have hall := Results.mapM_some.mp hrow
    constructor
    · intro hj
      obtain ⟨label, hlabel, hat⟩ := Results.exists_left hall hj
      exact .inr ⟨label, hlabel, hat⟩
    · rintro (⟨hf, -⟩ | ⟨label, hlabel, hat⟩)
      · cases hf
      · obtain ⟨k, hk, hat'⟩ := Results.exists_right hall hlabel
        rw [hat] at hat'
        cases hat'
        exact hk
  cases insn with
  | jump op target =>
    by_cases hjsr : op = jsr
    · simp [normalEdges, hjsr] at h
    rw [normalEdges, if_neg hjsr] at h
    obtain ⟨k, hk, h⟩ := Option.bind_eq_some_iff.mp h
    obtain rfl := Option.some.inj h
    have hfalls : (Insn.jump op target).fallsThrough = (op != gotoOp && op != jsr) := rfl
    have hmem : (∃ label ∈ (Insn.jump op target).jumpTargets, ordinal label = some j) ↔ j = k := by
      constructor
      · rintro ⟨label, hlabel, hat⟩
        rw [List.mem_singleton.mp hlabel, hk] at hat
        exact (Option.some.inj hat).symm
      · rintro rfl
        exact ⟨target, List.mem_singleton_self _, hk⟩
    rw [hmem, hfalls]
    by_cases hgoto : op = gotoOp
    · simp [hgoto]
    · simp [hgoto, hjsr, or_comm]
  | tableSwitch low high default labels => exact hswitch rfl h
  | lookupSwitch default keys labels => exact hswitch rfl h
  | var op slot =>
    by_cases hret : op = ret
    · simp [normalEdges, hret] at h
    rw [normalEdges, if_neg hret] at h
    exact hplain rfl h
  | op _ => exact hplain rfl h
  | int _ _ => exact hplain rfl h
  | iinc _ _ => exact hplain rfl h
  | type _ _ => exact hplain rfl h
  | field _ _ _ _ => exact hplain rfl h
  | method _ _ _ _ _ => exact hplain rfl h
  | invokeDynamic _ _ _ _ => exact hplain rfl h
  | ldc _ => exact hplain rfl h
  | multiANewArray _ _ => exact hplain rfl h

theorem mem_foldl_protect {ranges : List (ℕ × ℕ × ℕ)} : ∀ {exceptional : ℕ → List ℕ} {i j : ℕ},
    j ∈ ranges.foldl protect exceptional i ↔
      j ∈ exceptional i ∨ ∃ range ∈ ranges, range.1 ≤ i ∧ i < range.2.1 ∧ range.2.2 = j := by
  induction ranges with
  | nil => simp
  | cons range ranges ih =>
    intro exceptional i j
    have hone : j ∈ protect exceptional range i ↔
        j ∈ exceptional i ∨ (range.1 ≤ i ∧ i < range.2.1 ∧ range.2.2 = j) := by
      unfold protect
      split
      · next h => simp [h.1, h.2.1, eq_comm]
      · next h =>
        constructor
        · exact .inl
        · rintro (hj | ⟨hle, hlt, rfl⟩)
          · exact hj
          · by_contra hnot
            exact h ⟨hle, hlt, hnot⟩
    rw [List.foldl_cons, ih, hone]
    simp [or_assoc]

namespace InstructionGraph

variable {method : MethodNode} {g : InstructionGraph}

/-- The graph numbers the method's instructions and has exactly the edges of its control flow. -/
structure Models (g : InstructionGraph) (method : MethodNode) : Prop where
  len : g.len = method.instructions.length
  insn : ∀ index, g.insn index = method.instructions[index]?
  labelAt : ∀ label, g.labelAt label = method.ordinal label
  normal : ∀ i j, j ∈ g.normal i ↔ method.Continues i j
  exceptional : ∀ i j, j ∈ g.exceptional i ↔ method.Throws i j

theorem build_models (h : build method = some g) : g.Models method := by
  obtain ⟨normal, hnormal, h⟩ := Option.bind_eq_some_iff.mp h
  obtain ⟨ranges, hranges, h⟩ := Option.bind_eq_some_iff.mp h
  obtain rfl := Option.some.inj h
  have hnumbers := Numbering.numbers method.nodes
  have hordinal : ∀ label,
      (Numbering.scanFrom 0 method.nodes .empty).placeLabels label = method.ordinal label := by
    intro label
    rw [hnumbers.ordinal]
    rfl
  have hall := Results.mapM_some.mp hranges
  refine ⟨?_, ?_, hordinal, ?_, ?_⟩
  · rw [method.length_instructions]
    exact hnumbers.length
  · intro index
    have hinsns := hnumbers.insns
    change List.Forall₂ _ _ method.instructions at hinsns
    have hlen := hinsns.length_eq
    unfold insn
    by_cases hlt : index < method.instructions.length
    · have hat := List.Forall₂.get hinsns (i := index) (by omega) hlt
      simp only [List.get_eq_getElem] at hat
      simp [hlt, hlen, hat]
    · simp [hlt, hlen]
  · intro i j
    change j ∈ normal.getD i [] ↔ _
    constructor
    · intro hj
      by_cases hlt : i < method.instructions.length
      · have hat : method.instructions[i]? = some method.instructions[i] := List.getElem?_eq_getElem hlt
        have hrow := edgeRows_getD hnormal hat
        rw [Nat.zero_add] at hrow
        refine ⟨_, hat, ?_⟩
        simpa only [hordinal] using (mem_normalEdges hrow j).mp hj
      · have hlen := edgeRows_length hnormal
        simp [hlen, hlt] at hj
    · rintro ⟨insn, hat, hedge⟩
      have hrow := edgeRows_getD hnormal hat
      rw [Nat.zero_add] at hrow
      apply (mem_normalEdges hrow j).mpr
      simpa only [hordinal] using hedge
  · intro i j
    change j ∈ ranges.foldl protect (fun _ => []) i ↔ _
    rw [mem_foldl_protect]
    simp only [List.not_mem_nil, false_or]
    have hrange : ∀ {block : TryCatchBlock} {range : ℕ × ℕ × ℕ},
        protectedRange (Numbering.scanFrom 0 method.nodes .empty).placeLabels
          (Numbering.scanFrom 0 method.nodes .empty).positions.length block = some range →
        method.ordinal block.start = some range.1 ∧ method.ordinal block.stop = some range.2.1 ∧
          method.ordinal block.handler = some range.2.2 := by
      intro block range hblock
      obtain ⟨start, hstart, hblock⟩ := Option.bind_eq_some_iff.mp hblock
      obtain ⟨stop, hstop, hblock⟩ := Option.bind_eq_some_iff.mp hblock
      obtain ⟨handler, hhandler, hblock⟩ := Option.bind_eq_some_iff.mp hblock
      split_ifs at hblock
      obtain rfl := Option.some.inj hblock
      rw [hordinal] at hstart hstop hhandler
      exact ⟨hstart, hstop, hhandler⟩
    constructor
    · rintro ⟨range, hmem, hle, hlt, rfl⟩
      obtain ⟨block, hblock, hat⟩ := Results.exists_left hall hmem
      obtain ⟨hstart, hstop, hhandler⟩ := hrange hat
      exact ⟨block, hblock, _, _, hstart, hstop, hhandler, hle, hlt⟩
    · rintro ⟨block, hblock, start, stop, hstart, hstop, hhandler, hle, hlt⟩
      obtain ⟨range, hmem, hat⟩ := Results.exists_right hall hblock
      obtain ⟨hstart', hstop', hhandler'⟩ := hrange hat
      rw [hstart] at hstart'
      rw [hstop] at hstop'
      rw [hhandler] at hhandler'
      cases hstart'
      cases hstop'
      cases hhandler'
      exact ⟨range, hmem, hle, hlt, rfl⟩

/-- Every edge leads to an instruction or to the exit. -/
theorem Models.successors_le (h : g.Models method) {i j : ℕ} (hj : j ∈ g.successors i) : j ≤ g.len := by
  have hordinal : ∀ {label : LabelId}, method.ordinal label = some j → j ≤ g.len := by
    intro label hat
    rw [h.len, method.length_instructions]
    exact ordinalIn_le hat
  rcases List.mem_append.mp hj with hj | hj
  · obtain ⟨insn, hat, ⟨-, rfl⟩ | ⟨label, -, hlabel⟩⟩ := (h.normal i j).mp hj
    · rw [h.len]
      exact (List.getElem?_eq_some_iff.mp hat).1
    · exact hordinal hlabel
  · obtain ⟨block, -, start, stop, -, -, hhandler, -, -⟩ := (h.exceptional i j).mp hj
    exact hordinal hhandler

end InstructionGraph

end Krusty.Jvm.BytecodePasses
