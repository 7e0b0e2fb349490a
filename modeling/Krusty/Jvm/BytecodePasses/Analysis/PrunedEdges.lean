import Krusty.Jvm.BytecodePasses.Analysis.LeastSolution
import Krusty.Jvm.Opcodes

/-! What an analysis that prunes exception edges knows at the handlers. -/
namespace Krusty.Jvm.BytecodePasses

open Ascending Dataflow

/-- The options that prune exception edges and otherwise follow and meet every edge. -/
def prunedOptions (inIndexOrder : Bool) : AnalyzerOptions := ⟨true, false, false, inIndexOrder⟩

theorem prunedOptions_merges : AnalyzerOptions.Merges prunedOptions := ⟨fun _ => rfl, fun _ => rfl⟩

/-- The handlers a pruned analysis feeds: those of a store, of an `iinc`, and of the node after the start
label of some range. -/
def prunedHandlersOf (method : MethodNode) (ranges : List Range) (n : ℕ) : List (ℕ × String) :=
  match method.nodes[n]? with
  | some (.insn insn) =>
    if opRange istore astore (opcode insn) || opcode insn == iincOp || tcbStart ranges n then
      handlersOf method ranges n
    else []
  | _ => []

section Handlers

variable {method : MethodNode} {ranges : List Range}

theorem prunedHandlersOf_subset (n : ℕ) : prunedHandlersOf method ranges n ⊆ handlersOf method ranges n := by
  unfold prunedHandlersOf
  split
  · split_ifs
    · exact List.Subset.refl _
    · exact List.nil_subset _
  · exact List.nil_subset _

theorem fedHandlers_pruned (inIndexOrder : Bool) :
    fedHandlers method (prunedOptions inIndexOrder) ranges = prunedHandlersOf method ranges := by
  funext n
  have hfast : (prunedOptions inIndexOrder).fastHandlers = false := rfl
  have hprune : (prunedOptions inIndexOrder).pruneExceptionEdges = true := rfl
  unfold fedHandlers reachesHandlers prunedHandlersOf
  rw [handlersAt_eq hfast, hprune]
  cases hnode : method.nodes[n]? with
  | none => simp [handlersOf, hnode]
  | some node =>
    cases node with
    | label label => simp [handlersOf, hnode]
    | line line start => simp [handlersOf, hnode]
    | insn insn =>
      cases handlersOf method ranges n with
      | nil => simp
      | cons handler handlers => simp

end Handlers

section Flow

variable {V : Type} (method : MethodNode) (ranges : List Range) (I : Interpreter V) (execute : Executor V)

/-- The flow a pruned analysis follows. -/
def prunedFlow (hlat : I.Lattice) (hexec : execute.Monotone I) (entry : Frame V) :
    Problem (Frame V) (Frame.Le I) :=
  flowVia method I execute (prunedHandlersOf method ranges) hlat hexec entry

/-- Each handler of a node with a state has a state that covers what the node brings: its locals, and the
value caught. -/
def HandlersCover (handlers : ℕ → List (ℕ × String)) (S : Assignment (Frame V)) : Prop :=
  ∀ n f handler, S n = some f → handler ∈ handlers n →
    ∃ g, S handler.1 = some g ∧
      Frame.Le I { f with stack := [I.newExceptionValue handler.2] } g

/-- No frame's locals change at the node. -/
def KeepsLocals (n : ℕ) : Prop :=
  ∀ f f', transfer method execute n f = some f' → f'.locals = f.locals

/-- Nodes from which control can go on, no instruction on the way changing the locals, to one that feeds
the handler. -/
inductive Feeding (handler : ℕ × String) : ℕ → Prop where
  | fed {n : ℕ} : handler ∈ prunedHandlersOf method ranges n → Feeding handler n
  | step {n m : ℕ} : m ∈ nextNodes method n → KeepsLocals method execute n → Feeding handler m →
      Feeding handler n

variable {method ranges I execute} {hlat : I.Lattice} {hexec : execute.Monotone I} {entry : Frame V}
  {handlers : ℕ → List (ℕ × String)} {S : Assignment (Frame V)}

theorem walked_pruned (inIndexOrder : Bool) :
    walked method (prunedOptions inIndexOrder) ranges hlat hexec entry =
      prunedFlow method ranges I execute hlat hexec entry := by
  rw [walked, fedHandlers_pruned, prunedFlow]

theorem HandlersCover.subset {fewer : ℕ → List (ℕ × String)} (h : HandlersCover I handlers S)
    (hsub : ∀ n, fewer n ⊆ handlers n) : HandlersCover I fewer S :=
  fun n f handler hf hmem => h n f handler hf (hsub n hmem)

/-- Closed over the edges to handlers is closed over the other edges, with handlers that cover. -/
theorem closed_flowVia : Closed (flowVia method I execute handlers hlat hexec entry) S ↔
    Closed (flowVia method I execute (fun _ => []) hlat hexec entry) S ∧ HandlersCover I handlers S := by
  have hsteps : ∀ others n f, ((flowVia method I execute others hlat hexec entry).out n f).isSome ↔
      (transfer method execute n f).isSome := by
    intro others n f
    simp [flowVia, edgesVia]
  constructor
  · intro h
    refine ⟨⟨?_, ?_⟩, ?_⟩
    · intro n f hf
      obtain ⟨hlt, hout⟩ := h.steps n f hf
      exact ⟨hlt, (hsteps _ n f).mpr ((hsteps _ n f).mp hout)⟩
    · rintro m g (hentry | ⟨n, f, es, hf, hes, hmem⟩)
      · exact h.above m g (.inl hentry)
      · obtain ⟨-, hout⟩ := h.steps n f hf
        obtain ⟨all, hall⟩ := Option.isSome_iff_exists.mp hout
        obtain hnext | ⟨catchType, hhandler, -⟩ := (mem_edgesVia method I execute hes).mp hmem
        · exact h.above m g (.inr ⟨n, f, all, hf, hall,
            (mem_edgesVia method I execute hall).mpr (.inl hnext)⟩)
        · cases hhandler
    · intro n f handler hf hmem
      obtain ⟨-, hout⟩ := h.steps n f hf
      obtain ⟨all, hall⟩ := Option.isSome_iff_exists.mp hout
      apply h.above handler.1
      exact .inr ⟨n, f, all, hf, hall,
        (mem_edgesVia method I execute hall).mpr (.inr ⟨handler.2, hmem, rfl⟩)⟩
  · rintro ⟨h, hcover⟩
    constructor
    · intro n f hf
      obtain ⟨hlt, hout⟩ := h.steps n f hf
      exact ⟨hlt, (hsteps _ n f).mpr ((hsteps _ n f).mp hout)⟩
    · rintro m g (hentry | ⟨n, f, es, hf, hes, hmem⟩)
      · exact h.above m g (.inl hentry)
      · obtain hnext | ⟨catchType, hhandler, rfl⟩ := (mem_edgesVia method I execute hes).mp hmem
        · obtain ⟨-, hout⟩ := h.steps n f hf
          obtain ⟨some, hsome⟩ := Option.isSome_iff_exists.mp hout
          exact h.above m g (.inr ⟨n, f, some, hf, hsome,
            (mem_edgesVia method I execute hsome).mpr (.inl hnext)⟩)
        · exact hcover n f (m, catchType) hf hhandler

/-- The handler covers the locals of every node from which control goes on to one that feeds it. -/
theorem feeding_covered (h : Closed (prunedFlow method ranges I execute hlat hexec entry) S)
    {handler : ℕ × String} {n : ℕ} (hfeeds : Feeding method ranges execute handler n) {f : Frame V}
    (hf : S n = some f) :
    ∃ g, S handler.1 = some g ∧ List.Forall₂ (Below I.mergeLocal) f.locals g.locals := by
  obtain ⟨hon, hcover⟩ := closed_flowVia.mp h
  induction hfeeds generalizing f with
  | fed hmem =>
    obtain ⟨g, hg, hle⟩ := hcover _ f handler hf hmem
    exact ⟨g, hg, hle.locals⟩
  | @step n m hnext hkeeps _ ih =>
    obtain ⟨-, hout⟩ := hon.steps n f hf
    obtain ⟨es, hes⟩ := Option.isSome_iff_exists.mp hout
    obtain ⟨after, hafter, -⟩ := Option.map_eq_some_iff.mp hes
    obtain ⟨y, hy, hle⟩ := hon.above m after (.inr ⟨n, f, es, hf, hes,
      (mem_edgesVia method I execute hes).mpr (.inl ⟨hnext, hafter⟩)⟩)
    obtain ⟨g, hg, hyg⟩ := ih hy
    refine ⟨g, hg, ?_⟩
    rw [← hkeeps f after hafter]
    exact hlat.local_laws.forall₂_trans hle.locals hyg

end Flow

section Analyze

variable {V : Type} [DecidableEq V] {I : Interpreter V} {execute : Executor V} {method : MethodNode}

theorem fails_of_subroutines (owner : String) (hnodes : method.nodes ≠ [])
    (hsub : usesSubroutines method = true) (options : Bool → AnalyzerOptions) :
    FailsWith I execute method owner options := by
  have hcount : method.nodes.length ≠ 0 := mt List.length_eq_zero_iff.mp hnodes
  intro inIndexOrder keepNode
  refine ⟨0, .error ⟨0, "subroutines are not supported"⟩, ?_⟩
  intro fuel _
  simp [analyzeKept, hcount, hsub]

variable (hlat : I.Lattice) (hexec : execute.Monotone I)

/-- The pruned analysis computes the least solution of the pruned flow. At a handler it covers the locals
before every reached node from which control goes on to one that feeds the handler, with no change to the
locals on the way. Its frames lie below the exact ones, and are those just when every handler covers
every reached node of its range. -/
theorem analyzeKept_pruned (owner : String) :
    (method.nodes = [] → GivesWith I execute method owner prunedOptions (fun _ => none) ∧
      Gives I execute method owner fun _ => none) ∧
    (method.nodes ≠ [] → usesSubroutines method = false →
      ∀ ranges merge entry, Prepared I method owner ranges merge entry →
      (∃ S, LeastSolution (prunedFlow method ranges I execute hlat hexec entry) S ∧
        GivesWith I execute method owner prunedOptions S ∧
        (∀ handler n f, Feeding method ranges execute handler n → S n = some f →
          ∃ g, S handler.1 = some g ∧ List.Forall₂ (Below I.mergeLocal) f.locals g.locals) ∧
        ((∃ T, LeastSolution (flow method ranges I execute hlat hexec entry) T ∧
          Gives I execute method owner T ∧ S.Le (Frame.Le I) T ∧
          (S = T ↔ HandlersCover I (handlersOf method ranges) S)) ∨ Fails I execute method owner)) ∨
      FailsWith I execute method owner prunedOptions ∧ Fails I execute method owner) ∧
    (method.nodes ≠ [] → usesSubroutines method = true ∨
        (∀ ranges merge entry, ¬ Prepared I method owner ranges merge entry) →
      FailsWith I execute method owner prunedOptions ∧ Fails I execute method owner) := by
  have := hlat.isPartialOrder
  refine ⟨?_, ?_, ?_⟩
  · intro hnodes
    exact ⟨gives_of_empty hnodes prunedOptions, gives_of_empty hnodes exactOptions⟩
  · intro hnodes hsub ranges merge entry hprep
    -- what is closed with every exception edge is closed with fewer
    have hfewer : ∀ T, Closed (flow method ranges I execute hlat hexec entry) T →
        Closed (prunedFlow method ranges I execute hlat hexec entry) T := by
      intro T hT
      rw [flow_eq_flowVia] at hT
      obtain ⟨hon, hcover⟩ := closed_flowVia.mp hT
      exact closed_flowVia.mpr ⟨hon, hcover.subset prunedHandlersOf_subset⟩
    have hexact := gives_or_fails hlat hexec hnodes hsub hprep exactOptions_merges
      (walked_exact hlat hexec)
    obtain ⟨S, hS, hleast, hgives⟩ | ⟨hnone, hfails⟩ :=
      gives_or_fails hlat hexec hnodes hsub hprep prunedOptions_merges walked_pruned
    · left
      refine ⟨S, leastSolution_of_closed hS hleast hlat.hasJoins, hgives,
        fun handler n f hfeeds hf => feeding_covered hS hfeeds hf, ?_⟩
      obtain ⟨T, hT, hleastT, hgivesT⟩ | ⟨-, hfails⟩ := hexact
      · left
        have hle := hleast T (hfewer T hT)
        refine ⟨T, leastSolution_of_closed hT hleastT hlat.hasJoins, hgivesT, hle, ?_⟩
        constructor
        · rintro rfl
          rw [flow_eq_flowVia] at hT
          exact (closed_flowVia.mp hT).2
        · intro hcover
          apply hle.antisymm
          apply hleastT
          rw [flow_eq_flowVia]
          exact closed_flowVia.mpr ⟨(closed_flowVia.mp hS).1, hcover⟩
      · exact .inr hfails
    · right
      obtain ⟨T, hT, -⟩ | ⟨-, hfailsT⟩ := hexact
      · exact absurd (hfewer T hT) (hnone T)
      · exact ⟨hfails, hfailsT⟩
  · rintro hnodes (hsub | hprep)
    · exact ⟨fails_of_subroutines owner hnodes hsub prunedOptions,
        fails_of_subroutines owner hnodes hsub exactOptions⟩
    · exact ⟨fails_of_unprepared hnodes hprep prunedOptions_merges,
        fails_of_unprepared hnodes hprep exactOptions_merges⟩

end Analyze

namespace Nullness

/-- `true` is a value that may be null. Instructions without a case here drop the top of the stack. -/
def execute : Executor Bool := fun index insn frame =>
  match insn with
  | .op op =>
    if op = aconstNull then .ok { frame with stack := frame.stack ++ [true] }
    else dropTop index frame
  | .var op slot =>
    if op = aload then .ok { frame with stack := frame.stack ++ [frame.locals.getD slot.toNat true] }
    else
      match dropTop index frame with
      | .error e => .error e
      | .ok after =>
        .ok { after with locals := frame.locals.set slot.toNat (frame.stack.getLast?.getD true) }
  | _ => dropTop index frame
where
  dropTop (index : ℕ) (frame : Frame Bool) : Except AnalyzerError (Frame Bool) :=
    if frame.stack = [] then .error ⟨index, "Cannot pop operand off an empty stack."⟩
    else .ok { frame with stack := frame.stack.dropLast }

/-- `try { x = null; throw x }`, with a handler that drops the exception. -/
def throwNull : MethodNode where
  access := 8
  name := "f"
  desc := "(Ljava/lang/Throwable;)V"
  nodes := [.label ⟨0⟩, .insn (.op aconstNull), .insn (.var astore 0), .insn (.var aload 0),
    .insn (.op athrow), .label ⟨1⟩, .insn (.op popOp), .insn (.op returnOp)]
  tryCatchBlocks := [⟨⟨0⟩, ⟨1⟩, ⟨1⟩, none⟩]
  localVariables := []
  maxStack := 1
  maxLocals := 1
  labelCount := 2

section Values

variable {r : Bool → Bool → Prop} {xs ys : List Bool} (h : List.Forall₂ r xs ys)

include h

theorem rel_getD {d : Bool} (hd : r d d) (n : ℕ) : r (xs.getD n d) (ys.getD n d) := by
  induction h generalizing n with
  | nil => simpa using hd
  | cons hxy _ ih =>
    cases n with
    | zero => simpa using hxy
    | succ n => simpa using ih n

theorem rel_getLast {d : Bool} (hd : r d d) : r (xs.getLast?.getD d) (ys.getLast?.getD d) := by
  have hat := rel_getD h hd (xs.length - 1)
  rw [List.getD_eq_getElem?_getD, List.getD_eq_getElem?_getD] at hat
  rw [List.getLast?_eq_getElem?, List.getLast?_eq_getElem?, ← h.length_eq]
  exact hat

theorem rel_set {a b : Bool} (hab : r a b) (n : ℕ) : List.Forall₂ r (xs.set n a) (ys.set n b) := by
  induction h generalizing n with
  | nil => exact .nil
  | cons hxy hrest ih =>
    cases n with
    | zero => exact .cons hab hrest
    | succ n => exact .cons hxy (ih n)

theorem rel_dropLast : List.Forall₂ r xs.dropLast ys.dropLast := by
  rw [List.dropLast_eq_take, List.dropLast_eq_take, h.length_eq]
  exact List.forall₂_take _ h

end Values

theorem dropTop_mono {index : ℕ} {f g g' : Frame Bool} (hle : Frame.Le sampleInterpreter f g)
    (hg : execute.dropTop index g = .ok g') :
    ∃ f', execute.dropTop index f = .ok f' ∧ Frame.Le sampleInterpreter f' g' := by
  unfold execute.dropTop at hg ⊢
  split_ifs at hg with hempty
  cases hg
  have hne : f.stack ≠ [] := by
    intro hf
    have hlen := hle.stack.length_eq
    rw [hf, eq_comm, List.length_nil, List.length_eq_zero_iff] at hlen
    exact hempty hlen
  rw [if_neg hne]
  exact ⟨_, rfl, hle.locals, rel_dropLast hle.stack, hle.returnValue⟩

theorem execute_monotone : execute.Monotone sampleInterpreter := by
  have htrue : Below sampleInterpreter.mergeLocal true true := rfl
  have hdrop : ∀ index f f', execute.dropTop index f = .ok f' →
      f'.locals = f.locals ∧ f'.returnValue = f.returnValue := by
    intro index f f' hf
    unfold execute.dropTop at hf
    split_ifs at hf
    cases hf
    exact ⟨rfl, rfl⟩
  have hshape : ∀ index insn f f', execute index insn f = .ok f' →
      f'.locals.length = f.locals.length ∧ f'.returnValue = f.returnValue := by
    intro index insn f f' hf
    unfold execute at hf
    split at hf
    · split_ifs at hf
      · cases hf
        exact ⟨rfl, rfl⟩
      · exact ⟨by rw [(hdrop index f f' hf).1], (hdrop index f f' hf).2⟩
    · split_ifs at hf
      · cases hf
        exact ⟨rfl, rfl⟩
      · split at hf
        · cases hf
        · rename_i after hafter
          cases hf
          exact ⟨List.length_set .., (hdrop index f after hafter).2⟩
    · exact ⟨by rw [(hdrop index f f' hf).1], (hdrop index f f' hf).2⟩
  refine ⟨?_, fun index insn f f' hf => (hshape index insn f f' hf).1,
    fun index insn f f' hf => (hshape index insn f f' hf).2⟩
  intro index insn f g g' hle hg
  unfold execute at hg ⊢
  split at hg
  · split_ifs at hg ⊢ with hop
    · cases hg
      exact ⟨_, rfl, hle.locals, List.rel_append hle.stack (.cons htrue .nil), hle.returnValue⟩
    · exact dropTop_mono hle hg
  · split_ifs at hg ⊢ with hop
    · cases hg
      exact ⟨_, rfl, hle.locals,
        List.rel_append hle.stack (.cons (rel_getD hle.locals htrue _) .nil), hle.returnValue⟩
    · split at hg
      · cases hg
      · rename_i after hafter
        cases hg
        obtain ⟨before, hbefore, hbelow⟩ := dropTop_mono hle hafter
        rw [hbefore]
        exact ⟨_, rfl, rel_set hle.locals (rel_getLast hle.stack htrue) _,
          hbelow.stack, hbelow.returnValue⟩
  · exact dropTop_mono hle hg

/-- After the store the variable may be null, and the pruned handler still has it not null. -/
theorem throwNull_frames :
    ∃ w exact, analyzeWith sampleInterpreter execute 20 throwNull "A" (prunedOptions true) = some (.ok w) ∧
      analyzeWith sampleInterpreter execute 20 throwNull "A" (exactOptions true) = some (.ok exact) ∧
      w.frames 3 = .recorded [true] [] ∧ w.frames 5 = .recorded [false] [false] ∧
      exact.frames 5 = .recorded [true] [false] :=
  ⟨_, _, rfl, rfl, rfl, rfl, rfl⟩

theorem analyzeKept_pruned_throwNull :
    ∃ S T, LeastSolution (prunedFlow throwNull [⟨0, 5, 5, "java/lang/Throwable"⟩] sampleInterpreter execute
        sampleInterpreter_lattice execute_monotone ⟨[false], [], some false⟩) S ∧
      GivesWith sampleInterpreter execute throwNull "A" prunedOptions S ∧
      Gives sampleInterpreter execute throwNull "A" T ∧ S.Le (Frame.Le sampleInterpreter) T ∧
      (S = T ↔ HandlersCover sampleInterpreter
        (handlersOf throwNull [⟨0, 5, 5, "java/lang/Throwable"⟩]) S) := by
  have hprep : Prepared sampleInterpreter throwNull "A" [⟨0, 5, 5, "java/lang/Throwable"⟩] [5]
      ⟨[false], [], some false⟩ := ⟨fun _ => rfl, by decide, by decide⟩
  have hnodes : throwNull.nodes ≠ [] := by decide
  -- the walks of this body end well within the fuel
  have hends : ∀ options w, analyzeWith sampleInterpreter execute 20 throwNull "A" (options true) =
      some (.ok w) → ¬ FailsWith sampleInterpreter execute throwNull "A" options := by
    intro options w hw hfails
    obtain ⟨fuel₀, halt, hhalt⟩ := hfails true fun _ _ => true
    have hmore := analyzeKept_more (le_max_right fuel₀ 20) hw
    rw [hhalt _ (le_max_left fuel₀ 20)] at hmore
    cases hmore
  obtain ⟨w, exact, hw, hexact, -⟩ := throwNull_frames
  have hsub : usesSubroutines throwNull = false := by decide
  obtain ⟨S, hS, hgives, -, ⟨T, -, hgivesT, hle, hiff⟩ | hfails⟩ | ⟨hfails, -⟩ :=
    (analyzeKept_pruned sampleInterpreter_lattice execute_monotone "A").2.1 hnodes hsub _ _ _ hprep
  · exact ⟨S, T, hS, hgives, hgivesT, hle, hiff⟩
  · exact absurd hfails (hends exactOptions exact hexact)
  · exact absurd hfails (hends prunedOptions w hw)

/-- The locals before an instruction of a range are not all covered at the range's handler. -/
theorem pruned_handler_uncovered :
    ¬ ∀ (V : Type) [DecidableEq V] (I : Interpreter V) (execute : Executor V), I.Lattice →
      execute.Monotone I → ∀ (method : MethodNode) (owner : String) (ranges : List Range) (fuel : ℕ)
        (w : Worklist V),
      method.tryCatchBlocks.mapM (rangeOf method (prunedOptions true)) = some ranges →
      analyzeWith I execute fuel method owner (prunedOptions true) = some (.ok w) →
      ∀ n handler locals stack, w.frames n = .recorded locals stack →
        handler ∈ handlersOf method ranges n →
        ∃ locals' stack', w.frames handler.1 = .recorded locals' stack' ∧
          List.Forall₂ (Below I.mergeLocal) locals locals' := by
  intro h
  obtain ⟨w, -, hw, -, hstored, hhandler, -⟩ := throwNull_frames
  obtain ⟨locals, stack, hframe, hcover⟩ := h Bool sampleInterpreter execute sampleInterpreter_lattice
    execute_monotone throwNull "A" [⟨0, 5, 5, "java/lang/Throwable"⟩] 20 w rfl hw 3
    (5, "java/lang/Throwable") [true] [] hstored (by decide)
  rw [hhandler] at hframe
  cases hframe
  obtain hbelow | ⟨hbelow, -⟩ := hcover
  cases hbelow

end Nullness

end Krusty.Jvm.BytecodePasses
