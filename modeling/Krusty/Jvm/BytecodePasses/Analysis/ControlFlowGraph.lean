import Krusty.Lib.Exploration
import Krusty.Jvm.Deletion

/-! kotlinc's `ControlFlowGraph`: the edges between the nodes of a method, labels and line numbers
included. -/
namespace Krusty.Jvm.BytecodePasses

open Exploration

structure ControlFlowGraph where
  count : ℕ
  /-- The nodes some path from the first one reaches. -/
  reached : List ℕ
  /-- The edges recorded out of a reached node. -/
  edges : ℕ → List ℕ

namespace ControlFlowGraph

variable (method : MethodNode)

/-- The nodes a block protects, and its handler; `none` is a panic. -/
def spanOf (block : TryCatchBlock) : Option (ℕ × ℕ × ℕ) := do
  let handler ← method.position block.handler
  let start ← method.position block.start
  let stop ← method.position block.stop
  if start ≤ stop then some (start, stop, handler) else none

def handlersOf (spans : List (ℕ × ℕ × ℕ)) (index : ℕ) : List ℕ :=
  (spans.filter fun span => span.1 ≤ index ∧ index < span.2.1).map fun span => span.2.2

/-- Where control goes from a node when nothing is thrown; `none` is a panic. -/
def targetsOf (index : ℕ) : Node → Option (List ℕ)
  | .label _ | .line _ _ => some [index + 1]
  | .insn insn => do
    let targets ← insn.jumpTargets.mapM method.position
    return (if insn.fallsThrough then [index + 1] else []) ++ targets

/-- The edges out of a node; each leads to a node. -/
def edgesOf (spans : List (ℕ × ℕ × ℕ)) (index : ℕ) : Except Unit (List ℕ) :=
  match method.nodes[index]?.bind (targetsOf method index) with
  | none => .error ()
  | some targets =>
    let edges := targets ++ handlersOf spans index
    if edges.all fun target => target < method.nodes.length then .ok edges else .error ()

/-- The graph of `method`. Without `followExceptions` an exception edge still makes its handler reachable,
but is not recorded. `none` is a panic. -/
def build (followExceptions : Bool) : Option ControlFlowGraph := do
  let spans ← method.tryCatchBlocks.mapM (spanOf method)
  if method.nodes = [] then some ⟨0, [], fun _ => []⟩
  else
    match explore (edgesOf method spans) method.nodes.length (.start 0) with
    | some (.ok reached) =>
      some ⟨method.nodes.length, reached, fun index =>
        if followExceptions then
          match edgesOf method spans index with
          | .ok edges => edges
          | .error _ => []
        else (method.nodes[index]?.bind (targetsOf method index)).getD []⟩
    | _ => none

variable (g : ControlFlowGraph)

/-- In ascending order, each once. -/
def successors (index : ℕ) : List ℕ :=
  (List.range g.count).filter fun target => index ∈ g.reached ∧ target ∈ g.edges index

end ControlFlowGraph

open ControlFlowGraph

variable {method : MethodNode} {spans : List (ℕ × ℕ × ℕ)} {n m : ℕ}

theorem spanOf_spec {block : TryCatchBlock} {span : ℕ × ℕ × ℕ} (h : spanOf method block = some span) :
    method.position block.start = some span.1 ∧ method.position block.stop = some span.2.1 ∧
      method.position block.handler = some span.2.2 := by
  unfold spanOf at h
  obtain ⟨handler, hhandler, h⟩ := Option.bind_eq_some_iff.mp h
  obtain ⟨start, hstart, h⟩ := Option.bind_eq_some_iff.mp h
  obtain ⟨stop, hstop, h⟩ := Option.bind_eq_some_iff.mp h
  split_ifs at h
  cases h
  exact ⟨hstart, hstop, hhandler⟩

/-- Control can go from one node to the other when nothing is thrown. -/
inductive Leads (method : MethodNode) (n m : ℕ) : Prop
  | passes {node : Node} (hn : method.nodes[n]? = some node) (hnode : node.isInsn = false) (hm : m = n + 1)
  | falls {insn : Insn LabelId} (hn : method.nodes[n]? = some (.insn insn)) (hfalls : insn.fallsThrough)
      (hm : m = n + 1)
  | jumps {insn : Insn LabelId} {label : LabelId} (hn : method.nodes[n]? = some (.insn insn))
      (hlabel : label ∈ insn.jumpTargets) (hm : method.position label = some m)

/-- Or to a handler, from the labels and line numbers it protects too. -/
inductive Steps (method : MethodNode) (n m : ℕ) : Prop
  | leads (h : Leads method n m)
  | catches {block : TryCatchBlock} (hn : n < method.nodes.length) (hblock : block ∈ method.tryCatchBlocks)
      (hprotects : method.protects block n) (hm : method.position block.handler = some m)

theorem mem_targetsOf {node : Node} {targets : List ℕ} (hn : method.nodes[n]? = some node)
    (h : targetsOf method n node = some targets) : m ∈ targets ↔ Leads method n m := by
  constructor
  · intro hm
    cases node with
    | label label =>
      cases h
      exact .passes hn rfl (List.mem_singleton.mp hm)
    | line line start =>
      cases h
      exact .passes hn rfl (List.mem_singleton.mp hm)
    | insn insn =>
      obtain ⟨jumps, hjumps, heq⟩ := Option.bind_eq_some_iff.mp h
      cases heq
      rw [List.mem_append] at hm
      obtain hm | hm := hm
      · split_ifs at hm with hfalls
        · exact .falls hn hfalls (List.mem_singleton.mp hm)
        · cases hm
      · obtain ⟨label, hlabel, hm⟩ := Results.exists_left (Results.mapM_some.mp hjumps) hm
        exact .jumps hn hlabel hm
  · intro hm
    cases hm with
    | passes hn' hnode hm =>
      rw [hn] at hn'
      cases hn'
      cases node with
      | insn insn => cases hnode
      | label label =>
        cases h
        exact hm ▸ List.mem_singleton_self _
      | line line start =>
        cases h
        exact hm ▸ List.mem_singleton_self _
    | falls hn' hfalls hm =>
      rw [hn] at hn'
      cases hn'
      obtain ⟨jumps, -, heq⟩ := Option.bind_eq_some_iff.mp h
      cases heq
      simp [hfalls, hm]
    | @jumps insn label hn' hlabel hm =>
      rw [hn] at hn'
      cases hn'
      obtain ⟨jumps, hjumps, heq⟩ := Option.bind_eq_some_iff.mp h
      cases heq
      obtain ⟨m', hm', hat⟩ := Results.exists_right (Results.mapM_some.mp hjumps) hlabel
      rw [hm] at hat
      cases hat
      exact List.mem_append_right _ hm'

theorem mem_handlersOf_spans (hspans : method.tryCatchBlocks.mapM (spanOf method) = some spans) :
    m ∈ ControlFlowGraph.handlersOf spans n ↔
      ∃ block ∈ method.tryCatchBlocks, method.protects block n ∧ method.position block.handler = some m := by
  have hpairs := Results.mapM_some.mp hspans
  have hprotects : ∀ {block span}, spanOf method block = some span →
      (method.protects block n ↔ span.1 ≤ n ∧ n < span.2.1) := by
    intro block span hof
    obtain ⟨hstart, hstop, -⟩ := spanOf_spec hof
    simp [MethodNode.protects, MethodNode.spans, hstart, hstop]
  unfold ControlFlowGraph.handlersOf
  rw [List.mem_map]
  constructor
  · rintro ⟨span, hspan, rfl⟩
    obtain ⟨hmem, hin⟩ := List.mem_filter.mp hspan
    obtain ⟨block, hblock, hof⟩ := Results.exists_left hpairs hmem
    exact ⟨block, hblock, (hprotects hof).mpr (of_decide_eq_true hin), (spanOf_spec hof).2.2⟩
  · rintro ⟨block, hblock, hin, hm⟩
    obtain ⟨span, hspan, hof⟩ := Results.exists_right hpairs hblock
    have hhandler := (spanOf_spec hof).2.2
    rw [hm] at hhandler
    exact ⟨span, List.mem_filter.mpr ⟨hspan, decide_eq_true ((hprotects hof).mp hin)⟩,
      (Option.some.inj hhandler).symm⟩

/-- The edges out of a node are where control can step. -/
theorem mem_edgesOf (hspans : method.tryCatchBlocks.mapM (spanOf method) = some spans) {edges : List ℕ}
    (h : edgesOf method spans n = .ok edges) : m ∈ edges ↔ Steps method n m := by
  unfold edgesOf at h
  split at h
  · cases h
  · rename_i targets htargets
    dsimp only at h
    split_ifs at h
    cases h
    obtain ⟨node, hnode, htargets⟩ := Option.bind_eq_some_iff.mp htargets
    rw [List.mem_append, mem_targetsOf hnode htargets, mem_handlersOf_spans hspans]
    constructor
    · rintro (hleads | ⟨block, hblock, hprotects, hm⟩)
      · exact .leads hleads
      · exact .catches (List.getElem?_eq_some_iff.mp hnode).1 hblock hprotects hm
    · intro hsteps
      cases hsteps with
      | leads hleads => exact .inl hleads
      | catches _ hblock hprotects hm => exact .inr ⟨_, hblock, hprotects, hm⟩

/-- What building the graph found: every node control can reach, with every way control can go from it. -/
structure ControlFlowGraph.Covers (g : ControlFlowGraph) (method : MethodNode) : Prop where
  reached : ∀ n, method.Reaches n → n ∈ g.reached
  successors : ∀ n m, method.Reaches n → method.Flows n m → m ∈ g.successors n

/-- The nodes control can step to from the first one. -/
def Stepped (method : MethodNode) : ℕ → Prop := Relation.ReflTransGen (Steps method) 0

/-- A body whose graph can be built: its blocks stand in order, the targets of what control reaches stand,
and control stays in the body. -/
structure Graphable (method : MethodNode) : Prop where
  blocks : ∀ block ∈ method.tryCatchBlocks, ∃ start stop handler, method.position block.start = some start ∧
    method.position block.stop = some stop ∧ method.position block.handler = some handler ∧ start ≤ stop
  targets : ∀ n insn, Stepped method n → method.nodes[n]? = some (.insn insn) →
    ∀ label ∈ insn.jumpTargets, (method.position label).isSome
  inside : ∀ n m, Stepped method n → Steps method n m → m < method.nodes.length

/-- What the edges of a node being read says. -/
theorem edgesOf_ok {edges : List ℕ} (h : edgesOf method spans n = .ok edges) :
    (∀ m ∈ edges, m < method.nodes.length) ∧
      ∀ insn, method.nodes[n]? = some (.insn insn) → ∀ label ∈ insn.jumpTargets,
        (method.position label).isSome := by
  unfold edgesOf at h
  split at h
  · cases h
  · rename_i targets htargets
    dsimp only at h
    split_ifs at h with hall
    cases h
    refine ⟨fun m hm => of_decide_eq_true (List.all_eq_true.mp hall m hm), ?_⟩
    intro insn hinsn label hlabel
    rw [hinsn, Option.bind_some] at htargets
    obtain ⟨jumps, hjumps, -⟩ := Option.bind_eq_some_iff.mp htargets
    obtain ⟨m, -, hm⟩ := Results.exists_right (Results.mapM_some.mp hjumps) hlabel
    rw [hm]
    rfl

/-- What building the graph of a body with nodes found. -/
structure ControlFlowGraph.Built (g : ControlFlowGraph) (method : MethodNode) (spans : List (ℕ × ℕ × ℕ)) :
    Prop where
  count : g.count = method.nodes.length
  mem_reached : ∀ n, n ∈ g.reached ↔ Stepped method n
  edges : ∀ n ∈ g.reached, edgesOf method spans n = .ok (g.edges n)

variable {g : ControlFlowGraph}

theorem build_built (h : build method true = some g) (hnodes : method.nodes ≠ []) :
    ∃ spans, method.tryCatchBlocks.mapM (spanOf method) = some spans ∧ g.Built method spans := by
  unfold build at h
  obtain ⟨spans, hspans, h⟩ := Option.bind_eq_some_iff.mp h
  rw [if_neg hnodes] at h
  have hlt : ∀ n, Relation.ReflTransGen (Edge (edgesOf method spans)) 0 n → n < method.nodes.length := by
    intro n hn
    cases hn with
    | refl => exact List.length_pos_iff.mpr hnodes
    | tail _ hedge =>
      obtain ⟨edges, hedges, hmem⟩ := hedge
      exact (edgesOf_ok hedges).1 n hmem
  obtain ⟨marked, hmarked, hexplored⟩ | ⟨n, e, herror, -, -⟩ := explore_lt hlt
  · rw [hmarked] at h
    cases h
    refine ⟨spans, hspans, rfl, ?_, ?_⟩
    · intro n
      constructor
      · intro hn
        refine Relation.ReflTransGen.mono ?_ _ _ ((hexplored.mem_iff n).mp hn)
        rintro a b ⟨edges, hedges, hmem⟩
        exact (mem_edgesOf hspans hedges).mp hmem
      · intro hn
        induction hn with
        | refl => exact (hexplored.mem_iff 0).mpr .refl
        | tail _ hsteps ih =>
          obtain ⟨edges, hedges, hall⟩ := hexplored.expanded _ ih
          exact hall _ ((mem_edgesOf hspans hedges).mpr hsteps)
    · intro n hn
      obtain ⟨edges, hedges, -⟩ := hexplored.expanded n hn
      simp [hedges]
  · rw [herror] at h
    cases h

theorem ControlFlowGraph.Built.mem_successors (h : g.Built method spans)
    (hspans : method.tryCatchBlocks.mapM (spanOf method) = some spans) :
    m ∈ g.successors n ↔ Stepped method n ∧ Steps method n m := by
  unfold ControlFlowGraph.successors
  rw [List.mem_filter, List.mem_range, decide_eq_true_iff, h.mem_reached, h.count]
  constructor
  · rintro ⟨-, hn, hm⟩
    exact ⟨hn, (mem_edgesOf hspans (h.edges n ((h.mem_reached n).mpr hn))).mp hm⟩
  · rintro ⟨hn, hsteps⟩
    have hedges := h.edges n ((h.mem_reached n).mpr hn)
    have hm := (mem_edgesOf hspans hedges).mpr hsteps
    exact ⟨(edgesOf_ok hedges).1 m hm, hn, hm⟩

theorem Graphable.edgesOf (h : Graphable method) (hspans : method.tryCatchBlocks.mapM (spanOf method) = some spans)
    (hlt : n < method.nodes.length) (hn : Stepped method n) :
    ∃ edges, ControlFlowGraph.edgesOf method spans n = .ok edges := by
  have hnode : method.nodes[n]? = some (method.nodes[n]) := List.getElem?_eq_getElem hlt
  generalize method.nodes[n] = node at hnode
  obtain ⟨targets, htargets⟩ : ∃ targets, targetsOf method n node = some targets := by
    cases node with
    | label label => exact ⟨_, rfl⟩
    | line line start => exact ⟨_, rfl⟩
    | insn insn =>
      obtain ⟨jumps, hjumps⟩ := Results.exists_mapM_some fun label hlabel =>
        Option.isSome_iff_exists.mp (h.targets n insn hn hnode label hlabel)
      exact ⟨_, by rw [targetsOf, hjumps]; rfl⟩
  have hinside : ∀ m ∈ targets ++ ControlFlowGraph.handlersOf spans n, m < method.nodes.length := by
    intro m hm
    refine h.inside n m hn ?_
    rw [List.mem_append, mem_targetsOf hnode htargets, mem_handlersOf_spans hspans] at hm
    obtain hleads | ⟨block, hblock, hprotects, hm⟩ := hm
    · exact .leads hleads
    · exact .catches hlt hblock hprotects hm
  refine ⟨targets ++ ControlFlowGraph.handlersOf spans n, ?_⟩
  unfold ControlFlowGraph.edgesOf
  rw [hnode, Option.bind_some, htargets]
  exact if_pos (List.all_eq_true.mpr fun m hm => decide_eq_true (hinside m hm))

theorem Steps.lt (h : Steps method n m) : n < method.nodes.length := by
  cases h with
  | leads hleads =>
    cases hleads with
    | passes hn => exact (List.getElem?_eq_some_iff.mp hn).1
    | falls hn => exact (List.getElem?_eq_some_iff.mp hn).1
    | jumps hn => exact (List.getElem?_eq_some_iff.mp hn).1
  | catches hn => exact hn

/-- The edges of the graph are the steps control can come to. -/
theorem mem_successors_iff (h : build method true = some g) :
    m ∈ g.successors n ↔ Stepped method n ∧ Steps method n m := by
  by_cases hnodes : method.nodes = []
  · constructor
    · intro hm
      obtain ⟨spans, -, h⟩ := Option.bind_eq_some_iff.mp h
      rw [if_pos hnodes] at h
      cases h
      cases hm
    · intro hsteps
      have hlt := hsteps.2.lt
      simp [hnodes] at hlt
  · obtain ⟨spans, hspans, hbuilt⟩ := build_built h hnodes
    exact hbuilt.mem_successors hspans

/-- The graph of a body is built unless the body is malformed, and then its edges are the steps of control. -/
theorem build_isSome_iff : (build method true).isSome ↔ Graphable method := by
  constructor
  · intro h
    obtain ⟨g, hg⟩ := Option.isSome_iff_exists.mp h
    obtain ⟨spans, hspans, -⟩ := Option.bind_eq_some_iff.mp hg
    refine ⟨?_, ?_, ?_⟩
    case refine_1 =>
      intro block hblock
      obtain ⟨span, -, hof⟩ := Results.exists_right (Results.mapM_some.mp hspans) hblock
      obtain ⟨hstart, hstop, hhandler⟩ := spanOf_spec hof
      refine ⟨_, _, _, hstart, hstop, hhandler, ?_⟩
      simp only [spanOf, hstart, hstop, hhandler, Option.bind_eq_bind, Option.bind_some] at hof
      split_ifs at hof with hle
      exact hle
    all_goals by_cases hnodes : method.nodes = []
    · simp [hnodes]
    · obtain ⟨spans, hspans, hbuilt⟩ := build_built hg hnodes
      exact fun n insn hn => (edgesOf_ok (hbuilt.edges n ((hbuilt.mem_reached n).mpr hn))).2 insn
    · intro n m _ hsteps
      have hlt := hsteps.lt
      simp [hnodes] at hlt
    · obtain ⟨spans, hspans, hbuilt⟩ := build_built hg hnodes
      intro n m hn hsteps
      have hedges := hbuilt.edges n ((hbuilt.mem_reached n).mpr hn)
      exact (edgesOf_ok hedges).1 m ((mem_edgesOf hspans hedges).mpr hsteps)
  · intro h
    obtain ⟨spans, hspans⟩ : ∃ spans, method.tryCatchBlocks.mapM (spanOf method) = some spans := by
      apply Results.exists_mapM_some
      intro block hblock
      obtain ⟨start, stop, handler, hstart, hstop, hhandler, hle⟩ := h.blocks block hblock
      exact ⟨(start, stop, handler), by simp [spanOf, hstart, hstop, hhandler, hle]⟩
    unfold build
    rw [hspans]
    dsimp only [Option.bind_eq_bind, Option.bind_some]
    by_cases hnodes : method.nodes = []
    · rw [if_pos hnodes]
      rfl
    · rw [if_neg hnodes]
      have hstepped : ∀ n, Relation.ReflTransGen (Edge (edgesOf method spans)) 0 n → Stepped method n := by
        intro n hn
        refine Relation.ReflTransGen.mono ?_ _ _ hn
        rintro a b ⟨edges, hedges, hmem⟩
        exact (mem_edgesOf hspans hedges).mp hmem
      have hlt : ∀ n, Stepped method n → n < method.nodes.length := by
        intro n hn
        cases hn with
        | refl => exact List.length_pos_iff.mpr hnodes
        | tail hn hsteps => exact h.inside _ _ hn hsteps
      obtain ⟨marked, hmarked, -⟩ | ⟨n, e, -, hn, herror⟩ := explore_lt fun n hn => hlt n (hstepped n hn)
      · rw [hmarked]
        rfl
      · obtain ⟨edges, hedges⟩ := h.edgesOf hspans (hlt n (hstepped n hn)) (hstepped n hn)
        rw [hedges] at herror
        cases herror

end Krusty.Jvm.BytecodePasses
