import Krusty.Lib.Simulation
import Krusty.Jvm.MethodNode.Nodes

/-! Running a method body. A machine says what each instruction does to its state; the body says where
control goes from there. -/
namespace Krusty.Jvm

open Simulation

/-- What executing an instruction does. -/
inductive Effect (S X O : Type) where
  | next (s : S)
  /-- Control goes to target number `k`. -/
  | branch (k : ℕ) (s : S)
  | throws (exception : X) (s : S)
  | returns (outcome : O)
  /-- The instruction does not execute in this state, as in no verifiable body. -/
  | stuck

/-- An instruction without the labels it names: all that its effect on a state depends on. -/
def Insn.shape {L : Type} (insn : Insn L) : Insn Unit := insn.map fun _ => ()

/-- Machine states `S`, exceptions `X`, outcomes `O`, and what the outside sees of a state. -/
structure Machine (S X O V : Type) where
  exec : Insn Unit → S → Effect S X O
  catches : Option String → X → S → Bool
  /-- The state a handler starts in. -/
  enter : X → S → S
  /-- The outcome of an exception no range catches. -/
  uncaught : X → S → O
  view : S → V
  exec_nop : ∀ s, exec (.op nop) s = .next s
  exec_goto : ∀ s, exec (.jump gotoOp ()) s = .branch 0 s
  falls : ∀ {insn : Insn LabelId} {s s' : S}, exec insn.shape s = .next s' → insn.fallsThrough

def Node.isNop : Node → Bool
  | .insn (.op op) => op == nop
  | _ => false

@[simp] theorem Node.isNop_iff {node : Node} : node.isNop ↔ node = .insn (.op nop) := by
  constructor
  · intro h
    unfold isNop at h
    split at h
    · rw [beq_iff_eq.mp h]
    · cases h
  · rintro rfl
    rfl

namespace MethodNode

variable (method : MethodNode)

def labels : List LabelId :=
  method.nodes.filterMap fun
    | .label label => some label
    | _ => none

/-- Every label a jump, a protected range or a local variable names stands in the body. -/
structure Complete : Prop where
  targets : ∀ insn ∈ method.instructions, ∀ label ∈ insn.jumpTargets, label ∈ method.labels
  blocks : ∀ block ∈ method.tryCatchBlocks,
    block.start ∈ method.labels ∧ block.stop ∈ method.labels ∧ block.handler ∈ method.labels
  locals : ∀ v ∈ method.localVariables, v.start ∈ method.labels ∧ v.stop ∈ method.labels

/-- Each label stands once, and every label named stands. -/
structure WellPlaced : Prop extends method.Complete where
  unique : method.labels.Nodup

def InsnAt (index : ℕ) : Prop := ∃ insn, method.nodes[index]? = some (.insn insn)

/-- A node between two labels. -/
def spans (start stop : LabelId) (index : ℕ) : Bool :=
  match method.position start, method.position stop with
  | some start, some stop => decide (start ≤ index) && decide (index < stop)
  | _, _ => false

def protects (block : TryCatchBlock) (index : ℕ) : Bool := method.spans block.start block.stop index

variable {S X O V : Type} (M : Machine S X O V)

/-- The first range in table order that protects a node and catches what it threw. -/
def catcher (index : ℕ) (x : X) (s : S) : Option TryCatchBlock :=
  method.tryCatchBlocks.find? fun block => method.protects block index && M.catches block.catchType x s

/-- Control arrives at a label; `none` is the outcome of a body that is stuck. -/
def arrive (label : Option LabelId) (s : S) : Move (ℕ × S) (Option O) :=
  match label.bind method.position with
  | some index => .goes (index, s)
  | none => .ends none

/-- What follows an instruction's effect. -/
def proceed (index : ℕ) (insn : Insn LabelId) : Effect S X O → Move (ℕ × S) (Option O)
  | .next s => .goes (index + 1, s)
  | .branch k s => method.arrive insn.jumpTargets[k]? s
  | .throws x s =>
    match method.catcher M index x s with
    | some block => method.arrive (some block.handler) (M.enter x s)
    | none => .ends (some (M.uncaught x s))
  | .returns o => .ends (some o)
  | .stuck => .ends none

/-- One node of a run. Labels and line numbers do nothing. -/
def advance : ℕ × S → Move (ℕ × S) (Option O)
  | (index, s) =>
    match method.nodes[index]? with
    | some (.insn insn) => method.proceed M index insn (M.exec insn.shape s)
    | some _ => .goes (index + 1, s)
    | none => .ends none

/-- The body as a program: its states are a node and a machine state before it. -/
def program : Program (ℕ × S) (Option O) V where
  step := method.advance M
  view := fun a => M.view a.2

end MethodNode

namespace MethodNode

variable {method : MethodNode} {label : LabelId} {index : ℕ}

theorem mem_labels : label ∈ method.labels ↔ ∃ i : ℕ, method.nodes[i]? = some (.label label) := by
  unfold labels
  rw [List.mem_filterMap]
  constructor
  · rintro ⟨node, hnode, h⟩
    cases node with
    | label other =>
      cases h
      exact List.mem_iff_getElem?.mp hnode
    | line line start => cases h
    | insn insn => cases h
  · rintro ⟨i, hi⟩
    exact ⟨_, List.mem_of_getElem? hi, rfl⟩

theorem exists_position (h : label ∈ method.labels) : ∃ index, method.position label = some index := by
  obtain ⟨i, hi⟩ := mem_labels.mp h
  cases hposition : method.position label with
  | some index => exact ⟨index, rfl⟩
  | none =>
    have hfind := List.find?_eq_none.mp (Option.map_eq_none_iff.mp hposition) (.label label, i)
      (List.mem_reverse.mpr (List.mem_zipIdx_iff_getElem?.mpr hi))
    simp at hfind

/-- In a body that places each label once, a label's position is where it stands. -/
theorem position_eq_some (h : method.labels.Nodup) :
    method.position label = some index ↔ method.nodes[index]? = some (.label label) := by
  refine ⟨position_spec, fun hindex => ?_⟩
  obtain ⟨i, hi⟩ := exists_position (mem_labels.mpr ⟨index, hindex⟩)
  rw [hi]
  have hpair := List.pairwise_iff_getElem.mp (List.pairwise_filterMap.mp h)
  have hlabel := position_spec hi
  obtain ⟨hlt, hat⟩ := List.getElem?_eq_some_iff.mp hindex
  obtain ⟨hlt', hat'⟩ := List.getElem?_eq_some_iff.mp hlabel
  have hne : ∀ {k k' : ℕ} (hk : k < method.nodes.length) (hk' : k' < method.nodes.length),
      method.nodes[k] = .label label → method.nodes[k'] = .label label → ¬ k < k' := by
    intro k k' hk hk' hat hat' hlt
    exact hpair k k' hk hk' hlt label (by rw [hat]) label (by rw [hat']) rfl
  have hle := Nat.le_of_not_lt (hne hlt hlt' hat hat')
  have hge := Nat.le_of_not_lt (hne hlt' hlt hat' hat)
  rw [Nat.le_antisymm hle hge]

theorem Complete.exists_target (h : method.Complete) {insn : Insn LabelId}
    (hinsn : method.nodes[index]? = some (.insn insn)) (hlabel : label ∈ insn.jumpTargets) :
    ∃ target, method.position label = some target :=
  exists_position (h.targets insn (List.mem_filterMap.mpr ⟨_, List.mem_of_getElem? hinsn, rfl⟩) label hlabel)

/-- Bodies with their labels at the same nodes. -/
def SameLabels (method method' : MethodNode) : Prop :=
  ∀ {i : ℕ} {label : LabelId}, method.nodes[i]? = some (.label label) ↔ method'.nodes[i]? = some (.label label)

theorem SameLabels.labels {method' : MethodNode} (h : SameLabels method method')
    (hlen : method.nodes.length = method'.nodes.length) : method.labels = method'.labels := by
  have hmap : ∀ m : MethodNode, m.labels = (m.nodes.map fun
      | .label label => some label
      | _ => none).filterMap id := by
    intro m
    rw [MethodNode.labels, List.filterMap_map]
    rfl
  rw [hmap method, hmap method']
  congr 1
  refine List.ext_getElem (by simpa using hlen) fun i hi hi' => ?_
  rw [List.getElem_map, List.getElem_map]
  rw [List.length_map] at hi hi'
  have hiff : ∀ label, method.nodes[i]? = some (.label label) ↔ method'.nodes[i]? = some (.label label) :=
    fun _ => h
  rw [List.getElem?_eq_getElem hi, List.getElem?_eq_getElem hi'] at hiff
  refine Option.ext fun label => ?_
  have hlabel : ∀ node : Node, (match node with
      | .label label => some label
      | _ => none) = some label ↔ some node = some (.label label) := by
    intro node
    cases node <;> simp
  exact (hlabel _).trans ((hiff label).trans (hlabel _).symm)

theorem SameLabels.position {method' : MethodNode} (h : SameLabels method method')
    (hlen : method.nodes.length = method'.nodes.length) (hunique : method.labels.Nodup) (label : LabelId) :
    method.position label = method'.position label := by
  refine Option.ext fun index => ?_
  rw [position_eq_some hunique, position_eq_some (h.labels hlen ▸ hunique), h]

end MethodNode

end Krusty.Jvm
