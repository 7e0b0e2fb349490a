import Mathlib.Algebra.Order.BigOperators.Group.Finset
import Mathlib.Algebra.Order.Monoid.Prod
import Mathlib.Data.Prod.Lex
import Krusty.Jvm.BytecodePasses.Analysis.LeastSolution

/-! When a walk ends without its merges being joins: every meet leaves the value it met or one of lower
rank. -/
namespace Krusty.Jvm.BytecodePasses

section Meets

variable {V : Type} [DecidableEq V] (I : Interpreter V)

/-- The values recorded before `dest` that `state` meets there, each beside the value it meets. -/
def Worklist.meets (w : Worklist V) (dest : ℕ) (state : Frame V) : List (V × V) :=
  match w.frames dest with
  | .recorded locals stack =>
    if !w.fastMerge ∧ dest ∈ w.mergeNodes ∧ stack.length = state.stack.length then
      locals.zip state.locals ++ stack.zip state.stack
    else []
  | _ => []

/-- What installing several edges in turn meets. -/
def Worklist.meetsAll (origin : ℕ) : List (ℕ × Frame V) → Worklist V → List (V × V)
  | [], _ => []
  | (dest, state) :: edges, w => w.meets dest state ++
    match w.install I origin dest state with
    | .ok w => meetsAll origin edges w
    | .error _ => []

/-- What falling through meets. -/
def Worklist.meetsOnward (w : Worklist V) (fallThrough : Option ℕ) (state : Frame V) : List (V × V) :=
  match fallThrough with
  | some dest => if w.continuesTo dest then [] else w.meets dest state
  | none => []

variable (method : MethodNode) (options : AnalyzerOptions) (execute : Executor V)
  (keep : ℕ → Node → Bool) (ranges : List Range)

/-- What one step of a walk meets at the merge nodes. -/
def Walk.meets (walk : Walk V) : List (V × V) :=
  match walk.index with
  | none => []
  | some index =>
    match leave method execute index walk.scratch with
    | .error _ => []
    | .ok (scratch, fallThrough, targets) =>
      let edges := targets.map fun target => (target, scratch)
      walk.work.meetsAll I index edges ++
        match walk.work.installAll I index edges with
        | .error _ => []
        | .ok w => w.meetsOnward fallThrough scratch ++
          match goOn method I keep w index fallThrough scratch with
          | .error _ => []
          | .ok (w, _) => w.meetsAll I index (handlerEdges method options I ranges index walk.scratch)

/-- The walk `analyzeKept` sets out with, once the entry frame is installed. -/
def firstWalk (owner : String) : Option (List Range × Walk V) :=
  if method.nodes.length = 0 ∨ usesSubroutines method then none
  else do
    let ranges ← method.tryCatchBlocks.mapM (rangeOf method options)
    let entry ← (entryFrame method I owner).toOption
    let merge ← mergeNodes method
    let work ← ((newWorklist method.nodes.length options merge).install I 0 0 entry).toOption
    return (ranges, ⟨work, entry, none⟩)

/-- One walk goes on to another. -/
def Walk.Next (walk walk' : Walk V) : Prop :=
  step method options I execute keep ranges walk = .ok (some walk')

/-- Some step of the analysis meets `mine`, recorded before a merge node, with `theirs`. -/
def Meeting (owner : String) (mine theirs : V) : Prop :=
  ∃ ranges start walk, firstWalk I method options owner = some (ranges, start) ∧
    Relation.ReflTransGen (Walk.Next I method options execute keep ranges) start walk ∧
    (mine, theirs) ∈ walk.meets I method options execute keep ranges

end Meets

section First

variable {V : Type} [DecidableEq V] {I : Interpreter V} {execute : Executor V} {method : MethodNode}
  {options : AnalyzerOptions} {owner : String} {keep : ℕ → Node → Bool}

/-- An analysis is over before its walk begins, or is its first walk run. -/
theorem analyzeKept_first :
    (firstWalk I method options owner = none →
      ∃ result, ∀ fuel, analyzeKept I execute fuel method owner options keep = some result) ∧
    ∀ ranges walk, firstWalk I method options owner = some (ranges, walk) →
      ∀ fuel, analyzeKept I execute fuel method owner options keep =
        run method options I execute keep ranges fuel walk := by
  unfold analyzeKept firstWalk
  by_cases hempty : method.nodes.length = 0
  · simp [hempty]
  by_cases hsub : usesSubroutines method = true
  · simp [hempty, hsub]
  simp only [hempty, hsub, if_false, or_self, Bool.false_eq_true]
  cases method.tryCatchBlocks.mapM (rangeOf method options) with
  | none => simp
  | some ranges =>
    cases entryFrame method I owner with
    | error e => simp [Except.toOption]
    | ok entry =>
      cases mergeNodes method with
      | none => simp
      | some merge =>
        dsimp only
        cases hwork : (newWorklist method.nodes.length options merge).install I 0 0 entry with
        | error halt => simp [Except.toOption, hwork]
        | ok work =>
          simp only [Option.bind_eq_bind, Option.bind_some, Except.toOption, hwork]
          constructor
          · intro hnone
            cases hnone
          · intro ranges' walk hfirst fuel
            cases hfirst
            rfl

end First

section Ranks

variable {V ρ : Type} [AddCommMonoid ρ] [LinearOrder ρ] (rank : V → ρ) {I : Interpreter V}

/-- Meeting `theirs` leaves `mine` as it is, or a value of lower rank. -/
def Descends (I : Interpreter V) (mine theirs : V) : Prop :=
  (I.mergeLocal mine theirs = mine ∨ rank (I.mergeLocal mine theirs) < rank mine) ∧
    (I.mergeStack mine theirs = mine ∨ rank (I.mergeStack mine theirs) < rank mine)

def ranks (values : List V) : ρ := (values.map rank).sum

/-- What is known of a node: nothing recorded yet ranks above every frame. -/
def entryRank : Entry V → ℕ ×ₗ ρ
  | .recorded locals stack => toLex (0, ranks rank locals + ranks rank stack)
  | _ => toLex (1, 0)

/-- What is known of the merge nodes. -/
def Worklist.heldRank (w : Worklist V) : ℕ ×ₗ ρ :=
  ∑ n ∈ Finset.range w.count, if n ∈ w.mergeNodes then entryRank rank (w.frames n) else 0

/-- The nodes that can still follow the queued ones in line. -/
def Worklist.ahead (w : Worklist V) : ℕ := (w.queue.items.map fun n => 2 * (w.count - n) + 1).sum

/-- What each step of a walk lowers. -/
def Walk.measure (walk : Walk V) : (ℕ ×ₗ ρ) ×ₗ ℕ :=
  toLex (walk.work.heldRank rank, walk.work.ahead + walk.index.elim 0 fun n => 2 * (walk.work.count - n))

variable {rank}

theorem meetAll_rank [IsOrderedCancelAddMonoid ρ] {merge : V → V → V} {xs ys : List V}
    (h : ∀ p ∈ xs.zip ys, merge p.1 p.2 = p.1 ∨ rank (merge p.1 p.2) < rank p.1) :
    meetAll merge xs ys = xs ∨ ranks rank (meetAll merge xs ys) < ranks rank xs := by
  induction xs generalizing ys with
  | nil => exact .inl rfl
  | cons x xs ih =>
    cases ys with
    | nil => exact .inl rfl
    | cons y ys =>
      have hhead := h (x, y) (List.mem_cons_self ..)
      have htail := ih fun p hp => h p (List.mem_cons_of_mem _ hp)
      simp only [meetAll, ranks, List.map_cons, List.sum_cons] at hhead htail ⊢
      cases hhead with
      | inl hsame =>
        rw [hsame]
        exact htail.imp (congrArg _) fun hlt => add_lt_add_right hlt _
      | inr hlower =>
        right
        cases htail with
        | inl hsame =>
          rw [hsame]
          exact add_lt_add_left hlower _
        | inr hlt => exact add_lt_add hlower hlt

/-- From `w` on to `w'` the merge nodes' rank has fallen, or nothing was queued but perhaps `extra`. -/
structure Lowers (rank : V → ρ) (extra : Option ℕ) (w w' : Worklist V) : Prop where
  count : w'.count = w.count
  mergeNodes : w'.mergeNodes = w.mergeNodes
  fastMerge : w'.fastMerge = w.fastMerge
  held : w'.heldRank rank < w.heldRank rank ∨ w'.heldRank rank = w.heldRank rank ∧
    (w'.queue.items = w.queue.items ∧ w'.queued = w.queued ∨
      ∃ d, extra = some d ∧ w.queued d = false ∧ w'.queued d = true ∧ w'.queue.items = d :: w.queue.items)

theorem Lowers.refl (extra : Option ℕ) (w : Worklist V) : Lowers rank extra w w where
  count := rfl
  mergeNodes := rfl
  fastMerge := rfl
  held := .inr ⟨rfl, .inl ⟨rfl, rfl⟩⟩

theorem Lowers.weaken {w w' : Worklist V} (h : Lowers rank none w w') (extra : Option ℕ) :
    Lowers rank extra w w' where
  count := h.count
  mergeNodes := h.mergeNodes
  fastMerge := h.fastMerge
  held := by
    refine h.held.imp_right fun heven => ⟨heven.1, heven.2.imp_right ?_⟩
    intro hpushed
    obtain ⟨d, hd, -⟩ := hpushed
    cases hd

theorem Lowers.trans {extra : Option ℕ} {w w' w'' : Worklist V} (h : Lowers rank extra w w')
    (h' : Lowers rank extra w' w'') : Lowers rank extra w w'' where
  count := h'.count.trans h.count
  mergeNodes := h'.mergeNodes.trans h.mergeNodes
  fastMerge := h'.fastMerge.trans h.fastMerge
  held := by
    cases h.held with
    | inl hlt =>
      left
      cases h'.held with
      | inl hlt' => exact hlt'.trans hlt
      | inr heven' => rwa [heven'.1]
    | inr heven =>
      cases h'.held with
      | inl hlt' =>
        left
        rwa [← heven.1]
      | inr heven' =>
        refine .inr ⟨heven'.1.trans heven.1, ?_⟩
        cases heven.2 with
        | inl hsame =>
          rw [hsame.1, hsame.2] at heven'
          exact heven'.2
        | inr hpushed =>
          obtain ⟨d, hd, hbefore, hafter, hitems⟩ := hpushed
          cases heven'.2 with
          | inl hsame' => exact .inr ⟨d, hd, hbefore, by rw [hsame'.2, hafter], by rw [hsame'.1, hitems]⟩
          | inr hpushed' =>
            -- a node waits in the queue once
            obtain ⟨d', hd', hbefore', -⟩ := hpushed'
            rw [hd] at hd'
            cases hd'
            rw [hafter] at hbefore'
            cases hbefore'

omit [LinearOrder ρ] in
theorem heldRank_record {w : Worklist V} {dest : ℕ} (f : Frame V) (hno : dest ∉ w.mergeNodes) :
    (w.record dest f).heldRank rank = w.heldRank rank := by
  unfold Worklist.heldRank Worklist.record
  apply Finset.sum_congr rfl
  intro n _
  by_cases hd : n = dest
  · rw [hd, if_neg hno, if_neg hno]
  · simp only [Function.update_of_ne hd]

theorem heldRank_record_lt [IsOrderedCancelAddMonoid ρ] {w : Worklist V} {dest : ℕ} {f : Frame V}
    (hlt : dest < w.count) (hmem : dest ∈ w.mergeNodes)
    (hrank : entryRank rank (.recorded f.locals f.stack) < entryRank rank (w.frames dest)) :
    (w.record dest f).heldRank rank < w.heldRank rank := by
  unfold Worklist.heldRank Worklist.record
  have hdest : (if dest ∈ w.mergeNodes then entryRank rank
      (Function.update w.frames dest (.recorded f.locals f.stack) dest) else 0) <
      if dest ∈ w.mergeNodes then entryRank rank (w.frames dest) else 0 := by
    rw [if_pos hmem, if_pos hmem, Function.update_self]
    exact hrank
  apply Finset.sum_lt_sum
  · intro n _
    by_cases hd : n = dest
    · rw [hd]
      exact le_of_lt hdest
    · simp only [Function.update_of_ne hd, le_refl]
  · exact ⟨dest, Finset.mem_range.mpr hlt, hdest⟩

omit [LinearOrder ρ] in
theorem heldRank_markReached {w : Worklist V} {dest : ℕ} (hno : dest ∉ w.mergeNodes) :
    (w.markReached dest).heldRank rank = w.heldRank rank := by
  unfold Worklist.markReached
  cases w.frames dest with
  | unreached =>
    unfold Worklist.heldRank
    apply Finset.sum_congr rfl
    intro n _
    by_cases hd : n = dest
    · rw [hd, if_neg hno, if_neg hno]
    · simp only [Function.update_of_ne hd]
  | reached => rfl
  | recorded locals stack => rfl

end Ranks

section Steps

variable {V ρ : Type} [DecidableEq V] [AddCommMonoid ρ] [LinearOrder ρ] [IsOrderedCancelAddMonoid ρ]
  {rank : V → ρ} {I : Interpreter V} {w w' : Worklist V} {origin : ℕ} {extra : Option ℕ}

/-- One edge installed at a merge node or at `extra`. -/
theorem Lowers.install {dest : ℕ} {state : Frame V} (hfast : w.fastMerge = false)
    (hdest : dest ∈ w.mergeNodes ∨ extra = some dest)
    (hmeets : ∀ p ∈ w.meets dest state, Descends rank I p.1 p.2)
    (h : w.install I origin dest state = .ok w') : Lowers rank extra w w' := by
  obtain ⟨e, he, -⟩ | ⟨hlt, f, changed, hi, hok⟩ := install_cases w origin dest state hfast
  · rw [he] at h
    cases h
  rw [hok] at h
  cases h
  by_cases hmem : dest ∈ w.mergeNodes
  · cases changed with
    | false =>
      rw [Bool.false_and, if_neg Bool.false_ne_true, record_self (hi.same rfl) rfl rfl]
      exact .refl extra w
    | true =>
      have hrank : entryRank rank (.recorded f.locals f.stack) < entryRank rank (w.frames dest) := by
        obtain ⟨hnew, -⟩ | ⟨locals, stack, hd, -, hheight, rfl⟩ := hi.value
        · have hunrecorded : w.isRecorded dest = false := hnew.resolve_right (not_not.mpr hmem)
          unfold Worklist.isRecorded at hunrecorded
          have hone : entryRank rank (w.frames dest) = toLex (1, 0) := by
            cases hd : w.frames dest with
            | unreached => rfl
            | reached => rfl
            | recorded locals stack =>
              rw [hd] at hunrecorded
              cases hunrecorded
          rw [hone]
          exact Prod.Lex.toLex_lt_toLex.mpr (.inl Nat.zero_lt_one)
        · have hall : ∀ p ∈ locals.zip state.locals ++ stack.zip state.stack, Descends rank I p.1 p.2 := by
            intro p hp
            apply hmeets
            simp [Worklist.meets, hd, hfast, hmem, hheight, List.mem_append.mp hp]
          have hlocals : meetAll I.mergeLocal locals state.locals = locals ∨
              ranks rank (meetAll I.mergeLocal locals state.locals) < ranks rank locals :=
            meetAll_rank fun p hp => (hall p (List.mem_append_left _ hp)).1
          have hstack : meetAll I.mergeStack stack state.stack = stack ∨
              ranks rank (meetAll I.mergeStack stack state.stack) < ranks rank stack :=
            meetAll_rank fun p hp => (hall p (List.mem_append_right _ hp)).2
          have hdiff := hi.new rfl
          rw [hd]
          refine Prod.Lex.toLex_lt_toLex.mpr (.inr ⟨rfl, ?_⟩)
          cases hlocals with
          | inr hlt =>
            apply add_lt_add_of_lt_of_le hlt
            cases hstack with
            | inl hsame => rw [hsame]
            | inr hlt => exact le_of_lt hlt
          | inl hsame =>
            cases hstack with
            | inl hsame' =>
              exfalso
              apply hdiff
              simp [Worklist.known, hd, hsame, hsame']
            | inr hlt =>
              rw [hsame]
              exact add_lt_add_right hlt _
      have hheld := heldRank_record_lt hlt hmem hrank
      split_ifs
      · exact ⟨rfl, rfl, rfl, .inl hheld⟩
      · exact ⟨rfl, rfl, rfl, .inl hheld⟩
  · have hextra := hdest.resolve_left hmem
    have hheld : (w.record dest f).heldRank rank = w.heldRank rank := heldRank_record f hmem
    split_ifs with hq
    · rw [Bool.and_eq_true, Bool.not_eq_true'] at hq
      refine ⟨rfl, rfl, rfl, .inr ⟨hheld, .inr ⟨dest, hextra, hq.2, Function.update_self .., ?_⟩⟩⟩
      rw [Worklist.enqueue, Queue.items_push]
      rfl
    · exact ⟨rfl, rfl, rfl, .inr ⟨hheld, .inl ⟨rfl, rfl⟩⟩⟩

/-- Several edges installed in turn. -/
theorem Lowers.installAll {edges : List (ℕ × Frame V)} (hfast : w.fastMerge = false)
    (hdest : ∀ edge ∈ edges, edge.1 ∈ w.mergeNodes ∨ extra = some edge.1)
    (hmeets : ∀ p ∈ w.meetsAll I origin edges, Descends rank I p.1 p.2)
    (h : w.installAll I origin edges = .ok w') : Lowers rank extra w w' := by
  induction edges generalizing w with
  | nil =>
    cases h
    exact .refl extra _
  | cons edge edges ih =>
    simp only [Worklist.installAll, List.foldlM_cons] at h
    simp only [Worklist.meetsAll, List.mem_append] at hmeets
    cases hok : w.install I origin edge.1 edge.2 with
    | error halt =>
      rw [hok] at h
      cases h
    | ok w₁ =>
      rw [hok] at h hmeets
      have hfirst : Lowers rank extra w w₁ :=
        .install hfast (hdest edge (List.mem_cons_self ..)) (fun p hp => hmeets p (.inl hp)) hok
      apply hfirst.trans
      apply ih (hfirst.fastMerge.trans hfast) _ (fun p hp => hmeets p (.inr hp)) h
      intro edge' hedge'
      rw [hfirst.mergeNodes]
      exact hdest edge' (List.mem_cons_of_mem _ hedge')

variable {method : MethodNode} {options : AnalyzerOptions} {execute : Executor V}
  {keep : ℕ → Node → Bool} {ranges : List Range} {merge : List ℕ} {index dest : ℕ} {scratch : Frame V}

omit [IsOrderedCancelAddMonoid ρ] in
/-- Falling into `dest` in line queues nothing. -/
theorem Lowers.inLine {next : Option ℕ} (hcont : w.continuesTo dest = true)
    (h : fallInto method I keep w index dest scratch = .ok (w', next)) :
    Lowers rank none w w' ∧ (next = none ∨ next = some dest) := by
  have hno : dest ∉ w.mergeNodes := by
    simp only [Worklist.continuesTo, Bool.and_eq_true, decide_eq_true_eq] at hcont
    exact hcont.1.2
  have hrecord : Lowers rank none w (w.record dest scratch) :=
    ⟨rfl, rfl, rfl, .inr ⟨heldRank_record scratch hno, .inl ⟨rfl, rfl⟩⟩⟩
  by_cases hrec : (w.isRecorded dest || kept method keep dest) = true
  · simp only [fallInto, hcont, hrec, if_true] at h
    obtain ⟨-, hsame⟩ | ⟨-, hsame⟩ := installUnqueued_cases w dest scratch
    · rw [hsame] at h
      cases h
      exact ⟨.refl none w, .inl rfl⟩
    · rw [hsame] at h
      cases h
      exact ⟨hrecord, .inr rfl⟩
  · simp only [fallInto, hcont, hrec, if_true, if_false, Bool.false_eq_true] at h
    cases h
    obtain ⟨hcount, hnodes, hfast, hqueue, hqueued, -⟩ := markReached_spec w dest
    refine ⟨⟨hcount, hnodes, hfast, .inr ⟨heldRank_markReached hno, .inl ⟨?_, hqueued⟩⟩⟩, .inr rfl⟩
    rw [hqueue]

/-- What falling through leads to: the next node taken up in line, or perhaps queued. -/
theorem Lowers.goOn {next fallThrough : Option ℕ} (hfast : w.fastMerge = false)
    (hmeets : ∀ p ∈ w.meetsOnward fallThrough scratch, Descends rank I p.1 p.2)
    (h : goOn method I keep w index fallThrough scratch = .ok (w', next)) :
    (next = none ∧ Lowers rank fallThrough w w') ∨
      ∃ dest, fallThrough = some dest ∧ next = some dest ∧ dest ∉ w.mergeNodes ∧ Lowers rank none w w' := by
  cases fallThrough with
  | none =>
    cases h
    exact .inl ⟨rfl, .refl none w⟩
  | some dest =>
    by_cases hcont : w.continuesTo dest = true
    · have hline : Lowers rank none w w' ∧ (next = none ∨ next = some dest) := Lowers.inLine hcont h
      obtain ⟨hlower, rfl | rfl⟩ := hline
      · exact .inl ⟨rfl, hlower.weaken _⟩
      · simp only [Worklist.continuesTo, Bool.and_eq_true, decide_eq_true_eq] at hcont
        exact .inr ⟨dest, rfl, rfl, hcont.1.2, hlower⟩
    · simp only [BytecodePasses.goOn, fallInto, hcont, if_false, Bool.false_eq_true] at h
      obtain ⟨w₁, hok, heq⟩ := Results.bind_ok h
      cases heq
      simp only [Worklist.meetsOnward, hcont, if_false, Bool.false_eq_true] at hmeets
      exact .inl ⟨rfl, .install hfast (.inr rfl) hmeets hok⟩

omit [DecidableEq V] in
/-- Where control goes after a node, besides on in line. -/
theorem leave_targets (hmerge : mergeNodes method = some merge) {before : Frame V}
    {fallThrough : Option ℕ} {targets : List ℕ}
    (h : leave method execute index before = .ok (scratch, fallThrough, targets)) :
    index < method.nodes.length ∧ (fallThrough = some (index + 1) ∧ targets = [] ∨
      fallThrough = none ∧ ∀ t ∈ targets, t ∈ merge ∨ t = index + 1) := by
  have hlt : index < method.nodes.length := by
    by_contra hout
    simp only [leave, List.getElem?_eq_none (not_lt.mp hout)] at h
    cases h
  refine ⟨hlt, ?_⟩
  obtain ⟨e, he, -⟩ | ⟨after, fall, targets', hok, -, hnext⟩ := leave_spec execute hmerge hlt before
  · rw [he] at h
    cases h
  rw [hok] at h
  cases h
  have hnodes : ∀ t ∈ targets, t ∈ merge ∨ t = index + 1 := by
    intro t ht
    obtain hnext | hmem := mem_nextNodes hmerge ((hnext t).mpr (.inl ht))
    · exact .inr hnext
    · exact .inl hmem.1
  unfold leave at hok
  rw [List.getElem?_eq_getElem hlt] at hok
  cases hkind : method.nodes[index] with
  | insn insn =>
    rw [hkind] at hok
    dsimp only at hok
    by_cases hnop : opcode insn = nop
    · rw [if_pos hnop] at hok
      cases hok
      exact .inl ⟨rfl, rfl⟩
    by_cases hret : opcode insn = returnOp
    · rw [if_neg hnop, if_pos hret] at hok
      cases hok
      exact .inr ⟨rfl, hnodes⟩
    rw [if_neg hnop, if_neg hret] at hok
    cases hexecuted : execute index insn before with
    | error e =>
      rw [hexecuted] at hok
      cases hok
    | ok after =>
      rw [hexecuted] at hok
      dsimp only at hok
      split_ifs at hok
      · cases hok
        exact .inl ⟨rfl, rfl⟩
      · cases hsucc : successors method insn index with
        | none =>
          rw [hsucc] at hok
          cases hok
        | some reached =>
          rw [hsucc] at hok
          cases hok
          exact .inr ⟨rfl, hnodes⟩
  | label label =>
    rw [hkind] at hok
    cases hok
    exact .inl ⟨rfl, rfl⟩
  | line line start =>
    rw [hkind] at hok
    cases hok
    exact .inl ⟨rfl, rfl⟩

/-- A walk over the nodes of `method`. -/
structure Walk.Over (method : MethodNode) (merge : List ℕ) (walk : Walk V) : Prop where
  count : walk.work.count = method.nodes.length
  mergeNodes : walk.work.mergeNodes = merge
  fastMerge : walk.work.fastMerge = false

omit [DecidableEq V] [IsOrderedCancelAddMonoid ρ] in
/-- A node left for the next one at most brings the walk closer to its end. -/
theorem measure_lt {before : Frame V} {walk : Walk V} (hlt : index < w.count)
    (hcount : walk.work.count = w.count)
    (hheld : walk.work.heldRank rank < w.heldRank rank ∨ walk.work.heldRank rank = w.heldRank rank ∧
      (walk.work.queue.items = w.queue.items ∧ (walk.index = none ∨ walk.index = some (index + 1)) ∨
        walk.work.queue.items = (index + 1) :: w.queue.items ∧ walk.index = none)) :
    walk.measure rank < Walk.measure rank ⟨w, before, some index⟩ := by
  refine Prod.Lex.toLex_lt_toLex.mpr (hheld.imp_right fun heven => ⟨heven.1, ?_⟩)
  dsimp only
  unfold Worklist.ahead
  rw [hcount]
  obtain ⟨-, ⟨hitems, hnone | hnext⟩ | ⟨hitems, hnone⟩⟩ := heven
  · rw [hitems, hnone]
    simp only [Option.elim_none, Option.elim_some]
    omega
  · rw [hitems, hnext]
    simp only [Option.elim_some]
    omega
  · rw [hitems, hnone, List.map_cons, List.sum_cons]
    simp only [Option.elim_none, Option.elim_some]
    omega

variable (hmerge : mergeNodes method = some merge)
  (hranges : method.tryCatchBlocks.mapM (rangeOf method options) = some ranges)
  (hfast : options.fastHandlers = false)

include hmerge hranges hfast

/-- One node visited brings the walk closer to its end. -/
theorem visit_lowers {before : Frame V} {walk : Walk V} (hover : Walk.Over method merge ⟨w, before, some index⟩)
    (hmeets : ∀ p ∈ Walk.meets I method options execute keep ranges ⟨w, before, some index⟩,
      Descends rank I p.1 p.2)
    (h : visit method options I execute keep ranges w index before = .ok walk) :
    Walk.Over method merge walk ∧ walk.measure rank < Walk.measure rank ⟨w, before, some index⟩ := by
  unfold BytecodePasses.visit at h
  obtain ⟨⟨after, fallThrough, targets⟩, hleave, h⟩ := Results.bind_ok h
  obtain ⟨w₁, hok₁, h⟩ := Results.bind_ok h
  obtain ⟨⟨w₂, next⟩, hok₂, h⟩ := Results.bind_ok h
  obtain ⟨w₃, hok₃, h⟩ := Results.bind_ok h
  cases h
  obtain ⟨hlt, hgoes⟩ := leave_targets hmerge hleave
  have hcount : index < w.count := by rwa [hover.count]
  simp only [Walk.meets, hleave, hok₁, hok₂, List.mem_append] at hmeets
  have hhandlers : ∀ edge ∈ handlerEdges method options I ranges index before, edge.1 ∈ merge := by
    intro edge hedge
    obtain ⟨catchType, hm, -⟩ := mem_handlerEdges.mp hedge
    obtain ⟨range, hrange, heq, -⟩ := mem_handlersOf (fedHandlers_subset hfast index hm)
    rw [← heq]
    exact (handler_mem_merge hmerge hranges hrange).1
  have hedges : ∀ edge ∈ targets.map fun target => (target, after),
      edge.1 ∈ w.mergeNodes ∨ some (index + 1) = some edge.1 := by
    intro edge hedge
    obtain ⟨t, ht, rfl⟩ := List.mem_map.mp hedge
    obtain ⟨-, hnil⟩ | ⟨-, htargets⟩ := hgoes
    · rw [hnil] at ht
      cases ht
    · rw [hover.mergeNodes]
      exact (htargets t ht).imp_right fun heq => by rw [heq]
  have h₁ : Lowers rank (some (index + 1)) w w₁ :=
    .installAll hover.fastMerge hedges (fun p hp => hmeets p (.inl hp)) hok₁
  have hfast₁ := h₁.fastMerge.trans hover.fastMerge
  have hgo : (next = none ∧ Lowers rank fallThrough w₁ w₂) ∨ ∃ dest, fallThrough = some dest ∧
      next = some dest ∧ dest ∉ w₁.mergeNodes ∧ Lowers rank none w₁ w₂ :=
    Lowers.goOn hfast₁ (fun p hp => hmeets p (.inr (.inl hp))) hok₂
  have h₂ : Lowers rank fallThrough w₁ w₂ := by
    obtain ⟨-, hlower⟩ | ⟨dest, -, -, -, hlower⟩ := hgo
    · exact hlower
    · exact hlower.weaken _
  have h₃ : Lowers rank none w₂ w₃ := by
    apply Lowers.installAll (h₂.fastMerge.trans hfast₁) _ (fun p hp => hmeets p (.inr (.inr hp))) hok₃
    intro edge hedge
    rw [h₂.mergeNodes, h₁.mergeNodes, hover.mergeNodes]
    exact .inl (hhandlers edge hedge)
  have hover₃ : ∀ scratch n, Walk.Over method merge ⟨w₃, scratch, n⟩ := by
    intro scratch n
    exact ⟨h₃.count.trans (h₂.count.trans (h₁.count.trans hover.count)),
      h₃.mergeNodes.trans (h₂.mergeNodes.trans (h₁.mergeNodes.trans hover.mergeNodes)),
      h₃.fastMerge.trans (h₂.fastMerge.trans hfast₁)⟩
  obtain ⟨rfl, -⟩ | ⟨dest, hfall, rfl, hno, hlower⟩ := hgo
  · have htotal : Lowers rank (some (index + 1)) w w₃ := by
      apply (h₁.trans _).trans (h₃.weaken _)
      obtain ⟨hfall, -⟩ | ⟨hfall, -⟩ := hgoes
      · rwa [← hfall]
      · rw [hfall] at h₂
        exact h₂.weaken _
    refine ⟨hover₃ after none, measure_lt hcount htotal.count (htotal.held.imp_right fun heven => ?_)⟩
    refine ⟨heven.1, ?_⟩
    obtain ⟨-, ⟨hitems, -⟩ | ⟨d, hd, -, -, hitems⟩⟩ := heven
    · exact .inl ⟨hitems, .inl rfl⟩
    · cases hd
      exact .inr ⟨hitems, rfl⟩
  · -- the walk goes on in line, so nothing else left the node
    obtain ⟨hnext, rfl⟩ | ⟨hnone, -⟩ := hgoes
    · rw [hfall] at hnext
      cases hnext
      cases hok₁
      have htotal : Lowers rank none w w₃ := hlower.trans h₃
      have hno₃ : index + 1 ∉ w₃.mergeNodes := by rwa [htotal.mergeNodes]
      have hheld : w₃.heldRank rank < w.heldRank rank ∨
          w₃.heldRank rank = w.heldRank rank ∧ w₃.queue.items = w.queue.items := by
        refine htotal.held.imp_right fun heven => ⟨heven.1, ?_⟩
        obtain ⟨-, ⟨hitems, -⟩ | ⟨d, hd, -⟩⟩ := heven
        · exact hitems
        · cases hd
      have hqueued : ∀ w' : Worklist V, Walk.Over method merge ⟨w', after, none⟩ →
          Walk.Over method merge ⟨w'.enqueue (index + 1), after, none⟩ :=
        fun _ hover' => ⟨hover'.count, hover'.mergeNodes, hover'.fastMerge⟩
      unfold advance
      dsimp only
      by_cases hfirst : (w₃.queue.lowest.all fun lowest => decide (index + 1 < lowest)) = true
      · rw [if_pos hfirst]
        refine ⟨hover₃ after _, measure_lt hcount htotal.count (hheld.imp_right fun heven => ?_)⟩
        exact ⟨heven.1, .inl ⟨heven.2, .inr rfl⟩⟩
      · rw [if_neg hfirst]
        by_cases hrec : w₃.isRecorded (index + 1) = true
        · rw [if_pos hrec]
          refine ⟨hqueued w₃ (hover₃ after none), measure_lt hcount htotal.count (hheld.imp_right fun heven => ?_)⟩
          refine ⟨heven.1, .inr ⟨?_, rfl⟩⟩
          rw [← heven.2]
          exact Queue.items_push ..
        · rw [if_neg hrec]
          refine ⟨hqueued _ ⟨(hover₃ after none).count, (hover₃ after none).mergeNodes,
            (hover₃ after none).fastMerge⟩, measure_lt hcount htotal.count ?_⟩
          have hsame : (w₃.record (index + 1) after).heldRank rank = w₃.heldRank rank :=
            heldRank_record after hno₃
          rw [← hsame] at hheld
          refine hheld.imp_right fun heven => ⟨heven.1, .inr ⟨?_, rfl⟩⟩
          rw [← heven.2]
          exact Queue.items_push ..
    · rw [hnone] at hfall
      cases hfall

/-- Each step brings the walk closer to its end. -/
theorem step_lowers {walk walk' : Walk V} (hover : Walk.Over method merge walk)
    (hmeets : ∀ p ∈ walk.meets I method options execute keep ranges, Descends rank I p.1 p.2)
    (h : walk.Next I method options execute keep ranges walk') :
    Walk.Over method merge walk' ∧ walk'.measure rank < walk.measure rank := by
  obtain ⟨work, scratch, index⟩ := walk
  unfold Walk.Next step at h
  cases index with
  | some index =>
    dsimp only at h
    cases hvisit : BytecodePasses.visit method options I execute keep ranges work index scratch with
    | error halt =>
      rw [hvisit] at h
      cases h
    | ok walk =>
      rw [hvisit] at h
      cases h
      exact visit_lowers hmerge hranges hfast hover hmeets hvisit
  | none =>
    dsimp only at h
    cases hpop : work.queue.pop with
    | none =>
      rw [hpop] at h
      cases h
    | some taken =>
      obtain ⟨head, queue⟩ := taken
      rw [hpop] at h
      dsimp only at h
      cases hhead : work.frames head with
      | unreached =>
        rw [hhead] at h
        cases h
      | reached =>
        rw [hhead] at h
        cases h
      | recorded locals stack =>
        rw [hhead] at h
        cases h
        refine ⟨⟨hover.count, hover.mergeNodes, hover.fastMerge⟩, ?_⟩
        refine Prod.Lex.toLex_lt_toLex.mpr (.inr ⟨rfl, ?_⟩)
        have hperm := Queue.pop_some hpop
        have hsum : work.ahead = (2 * (work.count - head) + 1) +
            (queue.items.map fun n => 2 * (work.count - n) + 1).sum := by
          unfold Worklist.ahead
          rw [(hperm.map _).sum_eq, List.map_cons, List.sum_cons]
        dsimp only
        rw [hsum]
        simp only [Worklist.ahead, Option.elim_none, Option.elim_some]
        omega

/-- A walk whose meets all leave the value or one of lower rank ends. -/
theorem run_ends [WellFoundedLT ρ] {walk : Walk V} (hover : Walk.Over method merge walk)
    (hmeets : ∀ walk', Relation.ReflTransGen (Walk.Next I method options execute keep ranges) walk walk' →
      ∀ p ∈ walk'.meets I method options execute keep ranges, Descends rank I p.1 p.2) :
    ∃ fuel, (run method options I execute keep ranges fuel walk).isSome := by
  induction hm : walk.measure rank using WellFoundedLT.induction generalizing walk with
  | ind m ih =>
    cases hstep : step method options I execute keep ranges walk with
    | error halt =>
      refine ⟨1, ?_⟩
      rw [run, hstep]
      rfl
    | ok next =>
      cases next with
      | none =>
        refine ⟨1, ?_⟩
        rw [run, hstep]
        rfl
      | some walk' =>
        obtain ⟨hover', hlt⟩ := step_lowers hmerge hranges hfast hover (hmeets walk .refl) hstep
        have hmeets' : ∀ walk'', Relation.ReflTransGen (Walk.Next I method options execute keep ranges)
            walk' walk'' → ∀ p ∈ walk''.meets I method options execute keep ranges,
            Descends rank I p.1 p.2 := by
          intro walk'' hreach
          exact hmeets walk'' (hreach.head hstep)
        obtain ⟨fuel, hfuel⟩ := ih _ (hm ▸ hlt) hover' hmeets' rfl
        refine ⟨fuel + 1, ?_⟩
        rw [run, hstep]
        exact hfuel

end Steps

section Analyses

variable {V : Type} [DecidableEq V] {I : Interpreter V} {execute : Executor V} {method : MethodNode}
  {owner : String} {keep : ℕ → Node → Bool} {inIndexOrder : Bool}

/-- The store an analysis sets out with holds the entry frame alone. -/
theorem firstWalk_spec {options : AnalyzerOptions} {ranges : List Range} {start : Walk V}
    (h : firstWalk I method options owner = some (ranges, start)) :
    ∃ entry merge work, method.tryCatchBlocks.mapM (rangeOf method options) = some ranges ∧
      mergeNodes method = some merge ∧
      (newWorklist method.nodes.length options merge).install I 0 0 entry = .ok work ∧
      start = ⟨work, entry, none⟩ := by
  unfold firstWalk at h
  split_ifs at h
  obtain ⟨ranges', hranges, h⟩ := Option.bind_eq_some_iff.mp h
  obtain ⟨entry, -, h⟩ := Option.bind_eq_some_iff.mp h
  obtain ⟨merge, hmerge, h⟩ := Option.bind_eq_some_iff.mp h
  obtain ⟨work, hwork, h⟩ := Option.bind_eq_some_iff.mp h
  cases h
  refine ⟨entry, merge, work, hranges, hmerge, ?_, rfl⟩
  cases hok : (newWorklist method.nodes.length options merge).install I 0 0 entry with
  | error halt =>
    rw [hok] at hwork
    cases hwork
  | ok work' =>
    rw [hok] at hwork
    cases hwork
    rfl

/-- An analysis whose meets all leave the value or one of lower rank ends. -/
theorem analyzeKept_ends {ρ : Type} [AddCommMonoid ρ] [LinearOrder ρ] [IsOrderedCancelAddMonoid ρ]
    [WellFoundedLT ρ] (rank : V → ρ)
    (hmeets : ∀ mine theirs, Meeting I method (exactOptions inIndexOrder) execute keep owner mine theirs →
      Descends rank I mine theirs) :
    ∃ fuel, (analyzeKept I execute fuel method owner (exactOptions inIndexOrder) keep).isSome := by
  cases hfirst : firstWalk I method (exactOptions inIndexOrder) owner with
  | none =>
    obtain ⟨result, hover⟩ := analyzeKept_first.1 hfirst
    exact ⟨0, by rw [hover]; rfl⟩
  | some first =>
  obtain ⟨ranges, start⟩ := first
  obtain ⟨entry, merge, work, hranges, hmerge, hwork, rfl⟩ := firstWalk_spec hfirst
  have hbegun : Lowers rank (some 0) (newWorklist method.nodes.length (exactOptions inIndexOrder) merge) work := by
    apply Lowers.install rfl (.inr rfl) _ hwork
    intro p hp
    cases hp
  have hwalk : Walk.Over method merge ⟨work, entry, none⟩ :=
    ⟨hbegun.count, hbegun.mergeNodes, hbegun.fastMerge⟩
  have hdescends : ∀ walk, Relation.ReflTransGen
      (Walk.Next I method (exactOptions inIndexOrder) execute keep ranges) ⟨work, entry, none⟩ walk →
      ∀ p ∈ walk.meets I method (exactOptions inIndexOrder) execute keep ranges, Descends rank I p.1 p.2 := by
    intro walk hreach p hp
    exact hmeets p.1 p.2 ⟨ranges, _, walk, hfirst, hreach, hp⟩
  obtain ⟨fuel, hfuel⟩ := run_ends hmerge hranges rfl hwalk hdescends
  exact ⟨fuel, by rw [analyzeKept_first.2 ranges _ hfirst]; exact hfuel⟩

end Analyses

section Traces

variable {V : Type} [DecidableEq V] (method : MethodNode) (options : AnalyzerOptions) (I : Interpreter V)
  (execute : Executor V) (keep : ℕ → Node → Bool) (ranges : List Range)

/-- What the first steps of a walk meet. -/
def Walk.allMeets : ℕ → Walk V → List (V × V)
  | 0, _ => []
  | fuel + 1, walk => walk.meets I method options execute keep ranges ++
    match step method options I execute keep ranges walk with
    | .ok (some walk) => allMeets fuel walk
    | _ => []

variable {method options I execute keep ranges}

/-- A walk that ends has met all it ever meets. -/
theorem Walk.mem_allMeets {fuel : ℕ} {start walk : Walk V} {p : V × V}
    (hends : (run method options I execute keep ranges fuel start).isSome)
    (hreach : Relation.ReflTransGen (Walk.Next I method options execute keep ranges) start walk)
    (hp : p ∈ walk.meets I method options execute keep ranges) :
    p ∈ start.allMeets method options I execute keep ranges fuel := by
  induction hreach using Relation.ReflTransGen.head_induction_on generalizing fuel with
  | refl =>
    cases fuel with
    | zero => cases hends
    | succ fuel => exact List.mem_append_left _ hp
  | head hnext _ ih =>
    cases fuel with
    | zero => cases hends
    | succ fuel =>
      unfold Walk.Next at hnext
      rw [run, hnext] at hends
      rw [Walk.allMeets, hnext]
      exact List.mem_append_right _ (ih hends)

/-- An analysis that ends meets only what its walk is seen to. -/
theorem not_meeting {owner : String} {n : ℕ} {mine theirs : V} {start : Walk V}
    (hfirst : firstWalk I method options owner = some (ranges, start))
    (hends : (run method options I execute keep ranges n start).isSome)
    (hno : (mine, theirs) ∉ start.allMeets method options I execute keep ranges n) :
    ¬ Meeting I method options execute keep owner mine theirs := by
  rintro ⟨ranges', start', walk, hfirst', hreach, hp⟩
  rw [hfirst] at hfirst'
  cases hfirst'
  exact hno (Walk.mem_allMeets hends hreach hp)

end Traces

end Krusty.Jvm.BytecodePasses
