import Krusty.Jvm.BytecodePasses.Analysis.Worklist

/-! The flow of frames through a method body, over its fall-through, jump and handler edges. -/
namespace Krusty.Jvm.BytecodePasses

open Ascending Dataflow

variable {n : ℕ}

section Flow

variable {V : Type} (method : MethodNode) (ranges : List Range) (I : Interpreter V) (execute : Executor V)

/-- Where control goes from a node when nothing is thrown: on to the next node, or to its targets. -/
def nextNodes (n : ℕ) : List ℕ :=
  match method.nodes[n]? with
  | none => []
  | some (.insn insn) =>
    if opcode insn = nop then [n + 1]
    else if opcode insn = returnOp then []
    else (if insn.fallsThrough then [n + 1] else []) ++ insn.jumpTargets.filterMap method.position
  | some _ => [n + 1]

/-- The handlers of the ranges that protect an instruction, with the type each catches. -/
def handlersOf (n : ℕ) : List (ℕ × String) :=
  match method.nodes[n]? with
  | some (.insn _) => (ranges.filter fun range => range.start ≤ n ∧ n < range.stop).map fun range =>
      (range.handler, range.catchType)
  | _ => []

/-- The frame after a node. Only instructions other than `nop` and `return` are executed. -/
def transfer (n : ℕ) (f : Frame V) : Option (Frame V) :=
  match method.nodes[n]? with
  | none => none
  | some (.insn insn) =>
    if opcode insn = nop ∨ opcode insn = returnOp then some f else (execute n insn f).toOption
  | some _ => some f

/-- What leaves a node: the frame after it where control goes on, and the frame before it, its stack
replaced by the caught value, at its handlers. -/
def outEdges (n : ℕ) (f : Frame V) : Option (List (ℕ × Frame V)) :=
  (transfer method execute n f).map fun after =>
    (nextNodes method n).map (fun m => (m, after)) ++
      (handlersOf method ranges n).map fun handler =>
        (handler.1, { f with stack := [I.newExceptionValue handler.2] })

/-- What leaves a node whose handlers are `handlers`. -/
def edgesVia (handlers : List (ℕ × String)) (n : ℕ) (f : Frame V) : Option (List (ℕ × Frame V)) :=
  (transfer method execute n f).map fun after =>
    (nextNodes method n).map (fun m => (m, after)) ++
      handlers.map fun handler => (handler.1, { f with stack := [I.newExceptionValue handler.2] })

theorem mem_edgesVia {handlers : List (ℕ × String)} {n m : ℕ} {f g : Frame V} {es : List (ℕ × Frame V)}
    (h : edgesVia method I execute handlers n f = some es) :
    (m, g) ∈ es ↔ (m ∈ nextNodes method n ∧ transfer method execute n f = some g) ∨
      ∃ catchType, (m, catchType) ∈ handlers ∧
        g = { f with stack := [I.newExceptionValue catchType] } := by
  obtain ⟨after, hafter, rfl⟩ := Option.map_eq_some_iff.mp h
  rw [List.mem_append, List.mem_map, List.mem_map, hafter]
  constructor
  · rintro (⟨m', hm, heq⟩ | ⟨⟨m', catchType⟩, hm, heq⟩)
    · cases heq
      exact .inl ⟨hm, rfl⟩
    · cases heq
      exact .inr ⟨catchType, hm, rfl⟩
  · rintro (⟨hm, heq⟩ | ⟨catchType, hm, rfl⟩)
    · cases heq
      exact .inl ⟨m, hm, rfl⟩
    · exact .inr ⟨(m, catchType), hm, rfl⟩

theorem transfer_mono (hexec : execute.Monotone I) {f g g' : Frame V} (hle : Frame.Le I f g)
    (hg : transfer method execute n g = some g') :
    ∃ f', transfer method execute n f = some f' ∧ Frame.Le I f' g' := by
  unfold transfer at hg ⊢
  split at hg
  · cases hg
  · rename_i insn hn
    split_ifs at hg with hop
    · cases hg
      rw [if_pos hop]
      exact ⟨f, rfl, hle⟩
    · rw [if_neg hop]
      cases hx : execute n insn g with
      | error e => simp [hx, Except.toOption] at hg
      | ok y =>
        simp only [hx, Except.toOption, Option.some.injEq] at hg
        cases hg
        obtain ⟨x, hfx, hxy⟩ := hexec.mono n insn f g g' hle hx
        exact ⟨x, by rw [hfx]; rfl, hxy⟩
  · cases hg
    exact ⟨f, rfl, hle⟩

theorem transfer_shape (hexec : execute.Monotone I) {f f' : Frame V}
    (hf : transfer method execute n f = some f') :
    f'.locals.length = f.locals.length ∧ f'.returnValue = f.returnValue := by
  unfold transfer at hf
  split at hf
  · cases hf
  · rename_i insn hn
    split_ifs at hf
    · cases hf
      exact ⟨rfl, rfl⟩
    · cases hx : execute n insn f with
      | error e => simp [hx, Except.toOption] at hf
      | ok y =>
        simp only [hx, Except.toOption, Option.some.injEq] at hf
        cases hf
        exact ⟨hexec.locals n insn f f' hx, hexec.returnValue n insn f f' hx⟩
  · cases hf
    exact ⟨rfl, rfl⟩

theorem edgesVia_mono (hlat : I.Lattice) (hexec : execute.Monotone I) (handlers : List (ℕ × String))
    (n : ℕ) (f g : Frame V) (es : List (ℕ × Frame V)) (hle : Frame.Le I f g)
    (hes : edgesVia method I execute handlers n g = some es) :
    ∃ es', edgesVia method I execute handlers n f = some es' ∧
      List.Forall₂ (fun a b => a.1 = b.1 ∧ Frame.Le I a.2 b.2) es' es := by
  obtain ⟨after, hafter, rfl⟩ := Option.map_eq_some_iff.mp hes
  obtain ⟨low, hlow, hlowle⟩ := transfer_mono method I execute hexec hle hafter
  refine ⟨_, by rw [edgesVia, hlow, Option.map_some], ?_⟩
  apply List.rel_append
  · rw [List.forall₂_map_left_iff, List.forall₂_map_right_iff]
    exact List.forall₂_same.mpr fun m _ => ⟨rfl, hlowle⟩
  · rw [List.forall₂_map_left_iff, List.forall₂_map_right_iff]
    exact List.forall₂_same.mpr fun handler _ =>
      ⟨rfl, hle.locals, hlat.stack_laws.forall₂_refl _, hle.returnValue⟩

/-- The flow of a body entered with `entry`, over the handlers `handlers` gives each node. -/
def flowVia (handlers : ℕ → List (ℕ × String)) (hlat : I.Lattice) (hexec : execute.Monotone I)
    (entry : Frame V) : Problem (Frame V) (Frame.Le I) where
  count := method.nodes.length
  entry := entry
  targets := fun n => nextNodes method n ++ (handlers n).map Prod.fst
  out := fun n => edgesVia method I execute (handlers n) n
  out_targets := by
    intro n f es m hes
    obtain ⟨after, -, rfl⟩ := Option.map_eq_some_iff.mp hes
    simp [List.map_map, Function.comp_def]
  out_mono := fun n => edgesVia_mono method I execute hlat hexec (handlers n) n

/-- The flow of a body entered with `entry`. -/
def flow (hlat : I.Lattice) (hexec : execute.Monotone I) (entry : Frame V) :
    Problem (Frame V) (Frame.Le I) where
  count := method.nodes.length
  entry := entry
  targets := fun n => nextNodes method n ++ (handlersOf method ranges n).map Prod.fst
  out := outEdges method ranges I execute
  out_targets := (flowVia method I execute (handlersOf method ranges) hlat hexec entry).out_targets
  out_mono := (flowVia method I execute (handlersOf method ranges) hlat hexec entry).out_mono

theorem flow_eq_flowVia (hlat : I.Lattice) (hexec : execute.Monotone I) (entry : Frame V) :
    flow method ranges I execute hlat hexec entry =
      flowVia method I execute (handlersOf method ranges) hlat hexec entry := rfl

end Flow

section Placed

variable {method : MethodNode} {options : AnalyzerOptions} {ranges : List Range} {merge : List ℕ}

theorem mem_instructions {insn : Insn LabelId} (h : method.nodes[n]? = some (.insn insn)) :
    insn ∈ method.instructions :=
  List.mem_filterMap.mpr ⟨.insn insn, List.mem_of_getElem? h, rfl⟩

/-- Every label a jump names stands at a merge node. -/
theorem target_mem_merge (hmerge : mergeNodes method = some merge) {insn : Insn LabelId}
    (hinsn : insn ∈ method.instructions) {label : LabelId} (hlabel : label ∈ insn.jumpTargets) :
    ∃ m ∈ merge, method.position label = some m := by
  unfold mergeNodes at hmerge
  obtain ⟨targets, htargets, hmerge⟩ := Option.bind_eq_some_iff.mp hmerge
  obtain ⟨handlers, -, hmerge⟩ := Option.bind_eq_some_iff.mp hmerge
  cases hmerge
  obtain ⟨m, hm, hpos⟩ := Results.exists_right (Results.mapM_some.mp htargets)
    (List.mem_flatMap.mpr ⟨insn, hinsn, hlabel⟩)
  exact ⟨m, List.mem_append_left _ hm, hpos⟩

theorem rangeOf_handler {block : TryCatchBlock} {range : Range} (h : rangeOf method options block = some range) :
    method.position block.handler = some range.handler := by
  unfold rangeOf at h
  obtain ⟨handler, hhandler, h⟩ := Option.bind_eq_some_iff.mp h
  obtain ⟨start, -, h⟩ := Option.bind_eq_some_iff.mp h
  rw [hhandler]
  split_ifs at h
  · cases h
    rfl
  · obtain ⟨stop, -, h⟩ := Option.bind_eq_some_iff.mp h
    split_ifs at h
    cases h
    rfl

theorem handler_mem_merge (hmerge : mergeNodes method = some merge)
    (hranges : method.tryCatchBlocks.mapM (rangeOf method options) = some ranges) {range : Range}
    (hrange : range ∈ ranges) :
    range.handler ∈ merge ∧ ∃ label, method.nodes[range.handler]? = some (.label label) := by
  obtain ⟨block, hblock, hof⟩ := Results.exists_left (Results.mapM_some.mp hranges) hrange
  have hpos := rangeOf_handler hof
  refine ⟨?_, block.handler, MethodNode.position_spec hpos⟩
  unfold mergeNodes at hmerge
  obtain ⟨targets, -, hmerge⟩ := Option.bind_eq_some_iff.mp hmerge
  obtain ⟨handlers, hhandlers, hmerge⟩ := Option.bind_eq_some_iff.mp hmerge
  cases hmerge
  obtain ⟨m, hm, hat⟩ := Results.exists_right (Results.mapM_some.mp hhandlers) hblock
  rw [hpos] at hat
  cases hat
  exact List.mem_append_right _ hm

theorem mem_handlersOf {n m : ℕ} {catchType : String}
    (h : (m, catchType) ∈ handlersOf method ranges n) :
    ∃ range ∈ ranges, range.handler = m ∧ ∃ insn, method.nodes[n]? = some (.insn insn) := by
  unfold handlersOf at h
  split at h
  · rename_i insn hn
    obtain ⟨range, hrange, heq⟩ := List.mem_map.mp h
    cases heq
    exact ⟨range, List.mem_of_mem_filter hrange, rfl, insn, hn⟩
  · cases h

theorem mem_nextNodes (hmerge : mergeNodes method = some merge) {n m : ℕ}
    (h : m ∈ nextNodes method n) : m = n + 1 ∨ (m ∈ merge ∧ m ≠ n) := by
  unfold nextNodes at h
  split at h
  · cases h
  · rename_i insn hn
    split_ifs at h with hnop hret hfall
    · exact .inl (List.mem_singleton.mp h)
    · cases h
    all_goals
      obtain hhead | htail := List.mem_append.mp h
      · first
          | exact .inl (List.mem_singleton.mp hhead)
          | cases hhead
      · right
        obtain ⟨label, hlabel, hpos⟩ := List.mem_filterMap.mp htail
        obtain ⟨m', hm', hpos'⟩ := target_mem_merge hmerge (mem_instructions hn) hlabel
        rw [hpos] at hpos'
        cases hpos'
        refine ⟨hm', ?_⟩
        rintro rfl
        have hnode := MethodNode.position_spec hpos
        rw [hn] at hnode
        cases hnode
  · exact .inl (List.mem_singleton.mp h)

/-- A switch or jump leads to its targets, whatever order the analyzer queues them in. -/
theorem successors_spec (hmerge : mergeNodes method = some merge) {insn : Insn LabelId}
    (hinsn : insn ∈ method.instructions) (n : ℕ) :
    ∃ targets, successors method insn n = some targets ∧ ∀ m, m ∈ targets ↔
      m ∈ (if insn.fallsThrough then [n + 1] else []) ++ insn.jumpTargets.filterMap method.position := by
  have horder : ∀ label, label ∈ visitOrder insn ↔ label ∈ insn.jumpTargets := by
    intro label
    cases insn <;> simp [visitOrder, Insn.jumpTargets]
  have hall : ∀ label ∈ visitOrder insn, ∃ m, method.position label = some m := by
    intro label hlabel
    obtain ⟨m, -, hm⟩ := target_mem_merge hmerge hinsn ((horder label).mp hlabel)
    exact ⟨m, hm⟩
  obtain ⟨ms, hms⟩ := Results.exists_mapM_some hall
  have hmem : ∀ m, m ∈ ms ↔ m ∈ insn.jumpTargets.filterMap method.position := by
    intro m
    rw [List.mem_filterMap]
    constructor
    · intro hm
      obtain ⟨label, hlabel, hpos⟩ := Results.exists_left (Results.mapM_some.mp hms) hm
      exact ⟨label, (horder label).mp hlabel, hpos⟩
    · rintro ⟨label, hlabel, hpos⟩
      obtain ⟨m', hm', hpos'⟩ := Results.exists_right (Results.mapM_some.mp hms)
        ((horder label).mpr hlabel)
      rw [hpos] at hpos'
      cases hpos'
      exact hm'
  refine ⟨_, by rw [successors, hms]; rfl, ?_⟩
  intro m
  rw [List.mem_append, List.mem_append, hmem]

/-- Leaving a node executes it and leads where control goes on. -/
theorem leave_spec {V : Type} (execute : Executor V) (hmerge : mergeNodes method = some merge)
    (hn : n < method.nodes.length) (f : Frame V) :
    (∃ e, leave method execute n f = .error (.error e) ∧ transfer method execute n f = none) ∨
      ∃ after fall targets, leave method execute n f = .ok (after, fall, targets) ∧
        transfer method execute n f = some after ∧
        ∀ m, m ∈ nextNodes method n ↔ m ∈ targets ∨ fall = some m := by
  have hnode := List.getElem?_eq_getElem hn
  cases hkind : method.nodes[n] with
  | insn insn =>
    rw [hkind] at hnode
    by_cases hnop : opcode insn = nop
    · right
      refine ⟨f, some (n + 1), [], ?_, ?_, ?_⟩
      · simp [leave, hnode, hnop]
      · simp [transfer, hnode, hnop]
      · intro m
        simp [nextNodes, hnode, hnop, eq_comm]
    by_cases hret : opcode insn = returnOp
    · right
      refine ⟨f, none, [], ?_, ?_, ?_⟩
      · simp [leave, hnode, hret, returnOp, nop]
      · simp [transfer, hnode, hret]
      · intro m
        simp [nextNodes, hnode, hret, returnOp, nop]
    cases hx : execute n insn f with
    | error e =>
      left
      refine ⟨e, ?_, ?_⟩
      · simp [leave, hnode, hnop, hret, hx]
      · simp [transfer, hnode, hnop, hret, hx, Except.toOption]
    | ok after =>
      have htransfer : transfer method execute n f = some after := by
        simp [transfer, hnode, hnop, hret, hx, Except.toOption]
      right
      by_cases hfall : insn.fallsThrough = true ∧ insn.isBranch = false
      · refine ⟨after, some (n + 1), [], ?_, htransfer, ?_⟩
        · simp [leave, hnode, hnop, hret, hx, hfall]
        · intro m
          simp [nextNodes, hnode, hnop, hret, hfall.1, Insn.jumpTargets_eq_nil hfall.2, eq_comm]
      · obtain ⟨targets, htargets, hmem⟩ := successors_spec hmerge (mem_instructions hnode) n
        refine ⟨after, none, targets, ?_, htransfer, ?_⟩
        · have hno : (insn.fallsThrough && !insn.isBranch) = false := by
            simpa [Bool.and_eq_true] using hfall
          simp [leave, hnode, hnop, hret, hx, hno, htargets]
        · intro m
          simp only [nextNodes, hnode, hnop, hret, if_false, hmem, reduceCtorEq, or_false]
  | label label =>
    rw [hkind] at hnode
    right
    refine ⟨f, some (n + 1), [], by simp [leave, hnode], by simp [transfer, hnode], ?_⟩
    intro m
    simp [nextNodes, hnode, eq_comm]
  | line line start =>
    rw [hkind] at hnode
    right
    refine ⟨f, some (n + 1), [], by simp [leave, hnode], by simp [transfer, hnode], ?_⟩
    intro m
    simp [nextNodes, hnode, eq_comm]

theorem handlersAt_eq (hfast : options.fastHandlers = false) (n : ℕ) :
    handlersAt method options ranges n = handlersOf method ranges n := by
  unfold handlersAt handlersOf
  simp only [hfast, Bool.false_eq_true, if_false]
  cases method.nodes[n]? with
  | none => simp
  | some node =>
    cases node with
    | insn insn =>
      simp only [← List.filterMap_eq_map, List.filterMap_filter, decide_eq_true_eq]
      rfl
    | label label => simp
    | line line start => simp

/-- The handlers the walk feeds from a node. -/
def fedHandlers (method : MethodNode) (options : AnalyzerOptions) (ranges : List Range) (n : ℕ) :
    List (ℕ × String) :=
  if reachesHandlers method options ranges n then handlersAt method options ranges n else []

theorem handlerEdges_eq {V : Type} {I : Interpreter V} {f : Frame V} :
    handlerEdges method options I ranges n f = (fedHandlers method options ranges n).map fun handler =>
      (handler.1, { f with stack := [I.newExceptionValue handler.2] }) := by
  unfold handlerEdges fedHandlers
  split_ifs
  · rfl
  · rfl

theorem mem_handlerEdges {V : Type} {I : Interpreter V} {n m : ℕ} {f g : Frame V} :
    (m, g) ∈ handlerEdges method options I ranges n f ↔
      ∃ catchType, (m, catchType) ∈ fedHandlers method options ranges n ∧
        g = { f with stack := [I.newExceptionValue catchType] } := by
  rw [handlerEdges_eq, List.mem_map]
  constructor
  · rintro ⟨⟨m', catchType⟩, hm, heq⟩
    cases heq
    exact ⟨catchType, hm, rfl⟩
  · rintro ⟨catchType, hm, rfl⟩
    exact ⟨(m, catchType), hm, rfl⟩

theorem fedHandlers_subset (hfast : options.fastHandlers = false) (n : ℕ) :
    fedHandlers method options ranges n ⊆ handlersOf method ranges n := by
  unfold fedHandlers
  rw [handlersAt_eq hfast]
  split_ifs
  · exact List.Subset.refl _
  · exact List.nil_subset _

/-- Without pruning, every protected instruction feeds its handlers. -/
theorem fedHandlers_exact (hprune : options.pruneExceptionEdges = false)
    (hfast : options.fastHandlers = false) :
    fedHandlers method options ranges = handlersOf method ranges := by
  funext n
  unfold fedHandlers reachesHandlers
  rw [handlersAt_eq hfast, hprune]
  cases handlersOf method ranges n with
  | nil => simp
  | cons handler handlers => simp

end Placed

/-- A flow in which a node outside `merge` is entered only from the node before it, by one edge, and in
which frames keep their shape. -/
structure Chained {V : Type} {I : Interpreter V} (P : Problem (Frame V) (Frame.Le I)) (merge : List ℕ) :
    Prop where
  apart : ∀ n f es m g, P.out n f = some es → (m, g) ∈ es → m ≠ n
  single : ∀ n f es m g, P.out n f = some es → (m, g) ∈ es → m ∉ merge →
    m = n + 1 ∧ ∀ g', (m, g') ∈ es → g' = g
  locals : ∀ n f es m g, P.out n f = some es → (m, g) ∈ es → g.locals.length = f.locals.length
  returnValue : ∀ n f es m g, P.out n f = some es → (m, g) ∈ es → g.returnValue = f.returnValue

theorem chained_flowVia {V : Type} {method : MethodNode} {options : AnalyzerOptions} {ranges : List Range}
    {merge : List ℕ} {I : Interpreter V} {execute : Executor V} {handlers : ℕ → List (ℕ × String)}
    (hlat : I.Lattice) (hexec : execute.Monotone I) (entry : Frame V)
    (hmerge : mergeNodes method = some merge)
    (hranges : method.tryCatchBlocks.mapM (rangeOf method options) = some ranges)
    (hhandlers : ∀ n, handlers n ⊆ handlersOf method ranges n) :
    Chained (flowVia method I execute handlers hlat hexec entry) merge where
  apart := by
    intro n f es m g hes hmem
    obtain ⟨hnext, -⟩ | ⟨catchType, hhandler, -⟩ := (mem_edgesVia method I execute hes).mp hmem
    · obtain rfl | ⟨-, hne⟩ := mem_nextNodes hmerge hnext
      · omega
      · exact hne
    · obtain ⟨range, hrange, rfl, insn, hn⟩ := mem_handlersOf (hhandlers n hhandler)
      obtain ⟨-, label, hlabel⟩ := handler_mem_merge hmerge hranges hrange
      rintro rfl
      rw [hn] at hlabel
      cases hlabel
  single := by
    intro n f es m g hes hmem hno
    have hedge : ∀ g', (m, g') ∈ es →
        m ∈ nextNodes method n ∧ transfer method execute n f = some g' := by
      intro g' hmem
      obtain hnext | ⟨catchType, hhandler, -⟩ := (mem_edgesVia method I execute hes).mp hmem
      · exact hnext
      · obtain ⟨range, hrange, rfl, -⟩ := mem_handlersOf (hhandlers n hhandler)
        exact absurd (handler_mem_merge hmerge hranges hrange).1 hno
    obtain ⟨hnext, hg⟩ := hedge g hmem
    constructor
    · obtain heq | ⟨hin, -⟩ := mem_nextNodes hmerge hnext
      · exact heq
      · exact absurd hin hno
    · intro g' hmem'
      obtain ⟨-, hg'⟩ := hedge g' hmem'
      rw [hg] at hg'
      cases hg'
      rfl
  locals := by
    intro n f es m g hes hmem
    obtain ⟨-, hg⟩ | ⟨catchType, -, rfl⟩ := (mem_edgesVia method I execute hes).mp hmem
    · exact (transfer_shape method I execute hexec hg).1
    · rfl
  returnValue := by
    intro n f es m g hes hmem
    obtain ⟨-, hg⟩ | ⟨catchType, -, rfl⟩ := (mem_edgesVia method I execute hes).mp hmem
    · exact (transfer_shape method I execute hexec hg).2
    · rfl

end Krusty.Jvm.BytecodePasses
