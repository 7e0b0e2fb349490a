import Krusty.Jvm.BytecodePasses.StackPeephole.Rewrites

/-! The peephole optimization as a whole: it ends, and every run of the body stays as it was. -/
namespace Krusty.Jvm.BytecodePasses.StackPeephole

open Simulation Retaining

section Rule

variable {insns insns' : List (Insn LabelId)}

theorem Rule.shorter (h : Rule insns insns') : insns'.length < insns.length := by
  cases h <;> simp

theorem Rule.ne_nop (h : Rule insns insns') : ∀ insn ∈ insns, insn ≠ .op nop := by
  have hpush : ∀ {insn : Insn LabelId}, eliminatedByPop insn → insn ≠ .op nop := by
    rintro insn h rfl
    exact absurd h (by decide)
  have hpush2 : ∀ {insn : Insn LabelId}, eliminatedByPop2 insn → insn ≠ .op nop := by
    rintro insn h rfl
    exact absurd h (by decide)
  have hpure : ∀ {insn : Insn LabelId}, purePushOfSize1 insn → insn ≠ .op nop := by
    rintro insn h rfl
    exact absurd h (by decide)
  have hcompare : ∀ {insn : Insn LabelId}, compareInt insn → insn ≠ .op nop := by
    rintro insn h rfl
    cases h
  cases h with
  | compareZero h _ => exact List.forall_mem_cons.mpr ⟨hcompare h, by simp⟩
  | compareConst h _ =>
    exact List.forall_mem_cons.mpr ⟨hcompare h, List.forall_mem_cons.mpr ⟨by decide, by simp⟩⟩
  | discard h => exact List.forall_mem_cons.mpr ⟨hpush h, by decide⟩
  | dupX1 => decide
  | exchange ha hb => exact List.forall_mem_cons.mpr ⟨hpure ha, List.forall_mem_cons.mpr ⟨hpure hb, by decide⟩⟩
  | widenZero => decide
  | widenOne => decide
  | discardWide h => exact List.forall_mem_cons.mpr ⟨hpush2 h, by decide⟩
  | discardBoth h h' _ =>
    exact List.forall_mem_cons.mpr ⟨hpush h, List.forall_mem_cons.mpr ⟨hpush h', by decide⟩⟩

/-- A rule leaves no jump to anywhere new. -/
theorem Rule.targets (h : Rule insns insns') {insn' : Insn LabelId} (hinsn' : insn' ∈ insns') {label : LabelId}
    (hlabel : label ∈ insn'.jumpTargets) : ∃ insn ∈ insns, label ∈ insn.jumpTargets := by
  cases h with
  | compareZero _ _ =>
    obtain rfl := List.mem_singleton.mp hinsn'
    exact ⟨_, List.mem_cons_of_mem _ List.mem_cons_self, hlabel⟩
  | compareConst _ _ =>
    obtain rfl := List.mem_singleton.mp hinsn'
    exact ⟨_, List.mem_cons_of_mem _ (List.mem_cons_of_mem _ List.mem_cons_self), hlabel⟩
  | exchange _ _ =>
    refine ⟨insn', ?_, hlabel⟩
    simp only [List.mem_cons, List.not_mem_nil, or_false] at hinsn' ⊢
    tauto
  | discard _ | discardWide _ | discardBoth _ _ _ => cases hinsn'
  | dupX1 | widenZero | widenOne =>
    obtain rfl := List.mem_singleton.mp hinsn'
    cases hlabel

end Rule

section Step

variable {method : MethodNode} {merges : List LabelId} {nodes nodes' : List Node} {first last : ℕ}

def withNodes (method : MethodNode) (nodes : List Node) : MethodNode := { method with nodes }

theorem mem_instructions_withNodes {insn : Insn LabelId} :
    insn ∈ (withNodes method nodes).instructions ↔ .insn insn ∈ nodes := by
  unfold MethodNode.instructions withNodes
  rw [List.mem_filterMap]
  constructor
  · rintro ⟨node, hnode, h⟩
    cases node with
    | insn other =>
      cases h
      exact hnode
    | label label => cases h
    | line line start => cases h
  · intro h
    exact ⟨_, h, rfl⟩

theorem Rewritten.joins (h : Rewritten merges nodes nodes' first last) {label : LabelId}
    (hjoins : (withNodes method nodes').Joins label) : (withNodes method nodes).Joins label := by
  obtain @⟨before, after, stretch, stretch', insns, insns', rfl, rfl, hfirst, hlast, rule, edited⟩ := h
  obtain ⟨insn, hinsn, hlabel⟩ | hblock := hjoins
  · rw [mem_instructions_withNodes, List.append_assoc, List.mem_append, List.mem_append] at hinsn
    have hkept : ∀ {insn : Insn LabelId}, .insn insn ∈ before ∨ .insn insn ∈ stretch ∨ .insn insn ∈ after →
        label ∈ insn.jumpTargets → (withNodes method (before ++ stretch ++ after)).Joins label := by
      intro insn hinsn hlabel
      refine .inl ⟨insn, ?_, hlabel⟩
      rwa [mem_instructions_withNodes, List.append_assoc, List.mem_append, List.mem_append]
    obtain hbefore | hstretch | hafter := hinsn
    · exact hkept (.inl hbefore) hlabel
    · obtain hnew | rfl := edited.mem_new hstretch
      · obtain ⟨old, hold, hlabel'⟩ := rule.targets hnew hlabel
        exact hkept (.inr (.inl (edited.mem_old hold))) hlabel'
      · cases hlabel
    · exact hkept (.inr (.inr hafter)) hlabel
  · exact .inr hblock

theorem Rewritten.length (h : Rewritten merges nodes nodes' first last) : nodes.length = nodes'.length := by
  obtain @⟨before, after, stretch, stretch', insns, insns', rfl, rfl, hfirst, hlast, rule, edited⟩ := h
  simp [edited.length]

/-- The instructions that count: all but the `nop`s. -/
def busy (nodes : List Node) : ℕ := nodes.countP fun node => !node.isIdle

/-- Each rule leaves fewer of them. -/
theorem Rewritten.busy_lt (h : Rewritten merges nodes nodes' first last) : busy nodes' < busy nodes := by
  obtain @⟨before, after, stretch, stretch', insns, insns', rfl, rfl, hfirst, hlast, rule, edited⟩ := h
  have hold := edited.countP_old rule.ne_nop
  have hnew := edited.countP_new
  have hlt := rule.shorter
  simp only [busy, List.countP_append]
  omega

theorem Rewritten.apart (h : Rewritten merges nodes nodes' first last) {i : ℕ} {label : LabelId} (hlt : first < i)
    (hle : i ≤ last) (hi : nodes[i]? = some (.label label)) : label ∉ merges := by
  obtain @⟨before, after, stretch, stretch', insns, insns', rfl, rfl, rfl, hlast, rule, edited⟩ := h
  refine edited.apart (k := i - before.length) ?_
  rwa [List.append_assoc, List.getElem?_append_right hlt.le, List.getElem?_append_left (by omega)] at hi

theorem Rewritten.label (h : Rewritten merges nodes nodes' first last) (i : ℕ) (label : LabelId) :
    nodes[i]? = some (.label label) ↔ nodes'[i]? = some (.label label) := by
  obtain @⟨before, after, stretch, stretch', insns, insns', rfl, rfl, rfl, hlast, rule, edited⟩ := h
  have hlen := edited.length
  rw [List.append_assoc, List.append_assoc]
  rcases Nat.lt_or_ge i before.length with hlt | hge
  · rw [List.getElem?_append_left hlt, List.getElem?_append_left hlt]
  · rw [List.getElem?_append_right hge, List.getElem?_append_right hge]
    rcases Nat.lt_or_ge (i - before.length) stretch.length with hin | hout
    · rw [List.getElem?_append_left hin, List.getElem?_append_left (hlen ▸ hin)]
      exact edited.labels _ label
    · rw [List.getElem?_append_right hout, List.getElem?_append_right (hlen ▸ hout), hlen]

/-- A rule replaces a stretch nobody jumps into by one that does the same. -/
theorem Rewritten.replacement {R W X O V : Type} (h : Rewritten merges nodes nodes' first last)
    (hmerges : ∀ label, (withNodes method nodes).Joins label → label ∈ merges) (env : Env R W X O V) :
    ∃ stretch stretch', (withNodes method nodes).Replacement (withNodes method nodes') env.machine first stretch stretch' ∧
      first + stretch.length = last + 1 := by
  obtain @⟨before, after, stretch, stretch', insns, insns', hold, hnew, hfirst, hlast, rule, edited⟩ := h
  refine ⟨stretch, stretch', ?_, hlast⟩
  refine ⟨⟨before, after, hold, hnew, hfirst⟩, edited.length, ?_, rfl, edited.labels, ?_, edited.stands rule.stands⟩
  · rintro rfl
    have hcount := edited.countP_old rule.ne_nop
    have hlt := rule.shorter
    rw [← hcount] at hlt
    exact absurd hlt (Nat.not_lt_zero _)
  · intro k label _ hk hjoins
    exact edited.apart hk (hmerges label hjoins)

end Step

/-- Rule after rule: the nodes left, and the places inside the stretches rewritten. -/
inductive Rewrites (merges : List LabelId) : List Node → List Node → Set ℕ → Prop
  | refl (nodes : List Node) : Rewrites merges nodes nodes ∅
  | tail {nodes nodes' nodes'' : List Node} {inside : Set ℕ} {first last : ℕ}
      (init : Rewrites merges nodes nodes' inside) (rewritten : Rewritten merges nodes' nodes'' first last) :
      Rewrites merges nodes nodes'' (inside ∪ Set.Ioc first last)

namespace Rewrites

variable {method : MethodNode} {merges : List LabelId} {nodes nodes' : List Node} {inside : Set ℕ}

theorem length (h : Rewrites merges nodes nodes' inside) : nodes.length = nodes'.length := by
  induction h with
  | refl => rfl
  | tail _ rewritten ih => exact ih.trans rewritten.length

theorem label (h : Rewrites merges nodes nodes' inside) (i : ℕ) (label : LabelId) :
    nodes[i]? = some (.label label) ↔ nodes'[i]? = some (.label label) := by
  induction h with
  | refl => rfl
  | tail _ rewritten ih => exact ih.trans (rewritten.label i label)

theorem joins (h : Rewrites merges nodes nodes' inside) {label : LabelId}
    (hjoins : (withNodes method nodes').Joins label) : (withNodes method nodes).Joins label := by
  induction h with
  | refl => exact hjoins
  | tail _ rewritten ih => exact ih (rewritten.joins hjoins)

/-- No merge point lies inside a rewritten stretch. -/
theorem apart (h : Rewrites merges nodes nodes' inside) {i : ℕ} {label : LabelId} (hi : i ∈ inside)
    (hlabel : nodes[i]? = some (.label label)) : label ∉ merges := by
  induction h with
  | refl => cases hi
  | tail init rewritten ih =>
    obtain hi | ⟨hlt, hle⟩ := hi
    · exact ih hi
    · exact rewritten.apart hlt hle ((init.label i label).mp hlabel)

theorem labels (h : Rewrites merges nodes nodes' inside) :
    (withNodes method nodes').labels = (withNodes method nodes).labels := by
  have hsame : MethodNode.SameLabels (withNodes method nodes') (withNodes method nodes) :=
    fun {i label} => (h.label i label).symm
  exact hsame.labels h.length.symm

theorem wellPlaced (h : Rewrites merges nodes nodes' inside) (hplaced : (withNodes method nodes).WellPlaced) :
    (withNodes method nodes').WellPlaced where
  targets insn hinsn label hlabel := by
    rw [h.labels]
    obtain ⟨old, hold, hlabel'⟩ | ⟨block, hblock, rfl⟩ := h.joins (.inl ⟨insn, hinsn, hlabel⟩)
    · exact hplaced.targets old hold label hlabel'
    · exact (hplaced.blocks block hblock).2.2
  blocks block hblock := by
    rw [h.labels]
    exact hplaced.blocks block hblock
  locals v hv := by
    rw [h.labels]
    exact hplaced.locals v hv
  unique := by
    rw [h.labels]
    exact hplaced.unique

variable (method) in
/-- A run that never gets stuck ends and shows what it did, and passes the same states but for those inside
the stretches rewritten. -/
theorem runs {R W X O V : Type} (h : Rewrites merges nodes nodes' inside)
    (hunique : (withNodes method nodes).labels.Nodup)
    (hmerges : ∀ label, (withNodes method nodes).Joins label → label ∈ merges) (env : Env R W X O V) (f : Jvm.Frame R W)
    (hsafe : ¬ ((withNodes method nodes).program env.machine).Ends (0, f) none) :
    Same ((withNodes method nodes).program env.machine) ((withNodes method nodes').program env.machine) (0, f) (0, f) ∧
      ∀ i g, i ∉ inside → (((withNodes method nodes).program env.machine).Reaches (0, f) (i, g) ↔
        ((withNodes method nodes').program env.machine).Reaches (0, f) (i, g)) := by
  induction h with
  | refl => exact ⟨.refl _ _, fun _ _ _ => Iff.rfl⟩
  | @tail nodes' nodes'' inside first last init rewritten ih =>
    obtain ⟨hsame, hreach⟩ := ih
    obtain ⟨stretch, stretch', hreplace, hlast⟩ :=
      rewritten.replacement (fun label hjoins => hmerges label (init.joins hjoins)) env
    have hbetween := hreplace.between (init.labels ▸ hunique)
    have hsafe' := fun hends => hsafe ((hsame.ends none).mpr hends)
    have hentry : ¬ MethodNode.Inside first stretch 0 := fun hinside => Nat.not_lt_zero _ hinside.1
    refine ⟨hsame.trans (hbetween.same hentry hsafe'), fun i g hi => ?_⟩
    rw [Set.mem_union, not_or] at hi
    refine (hreach i g hi.1).trans (hbetween.reaches_iff hentry hsafe' fun hinside => hi.2 ?_)
    have hlt := hinside.2
    rw [hlast] at hlt
    exact ⟨hinside.1, Nat.le_of_lt_succ hlt⟩

end Rewrites

section Rounds

variable {merges : List LabelId} {start : List Node}

theorem foldl_set_nodes (changes : List (ℕ × Insn LabelId)) (round : Round) :
    (changes.foldl Round.set round).nodes = applied round.nodes changes := by
  induction changes generalizing round with
  | nil => rfl
  | cons change changes ih => exact ih (round.set change)

theorem visit_spec (merges : List LabelId) (round : Round) (i : ℕ) :
    (rewrite round.nodes merges i = none ∧ visit merges round i = round) ∨
      ∃ first, Rewritten merges round.nodes (visit merges round i).nodes first i ∧ (visit merges round i).again = true := by
  unfold visit
  cases h : rewrite round.nodes merges i with
  | none => exact .inl ⟨rfl, rfl⟩
  | some changes =>
    obtain ⟨first, hrewritten⟩ := rewrite_spec h
    refine .inr ⟨first, ?_, rfl⟩
    rwa [← foldl_set_nodes] at hrewritten

/-- What a pass over some places does: it rewrites, and leaves fewer instructions unless it changes nothing. -/
theorem foldl_visit (places : List ℕ) (round : Round) {inside : Set ℕ}
    (h : Rewrites merges start round.nodes inside) :
    (∃ inside', Rewrites merges start (places.foldl (visit merges) round).nodes inside') ∧
      busy (places.foldl (visit merges) round).nodes ≤ busy round.nodes ∧
      ((places.foldl (visit merges) round).again = true →
        round.again = true ∨ busy (places.foldl (visit merges) round).nodes < busy round.nodes) ∧
      ((places.foldl (visit merges) round).again = false → places.foldl (visit merges) round = round ∧
        ∀ i ∈ places, rewrite round.nodes merges i = none) := by
  induction places generalizing round inside with
  | nil => exact ⟨⟨inside, h⟩, le_rfl, .inl, fun _ => ⟨rfl, fun i hi => nomatch hi⟩⟩
  | cons i places ih =>
    rw [List.foldl_cons]
    obtain ⟨hnone, hsame⟩ | ⟨first, hrewritten, hagain⟩ := visit_spec merges round i
    · rw [hsame]
      obtain ⟨hinside, hle, hlt, hquiet⟩ := ih round h
      refine ⟨hinside, hle, hlt, fun hfalse => ?_⟩
      obtain ⟨heq, hall⟩ := hquiet hfalse
      refine ⟨heq, fun j hj => ?_⟩
      obtain rfl | hj := List.mem_cons.mp hj
      · exact hnone
      · exact hall j hj
    · obtain ⟨hinside, hle, -, hquiet⟩ := ih (visit merges round i) (h.tail hrewritten)
      have hfewer := Nat.lt_of_le_of_lt hle hrewritten.busy_lt
      refine ⟨hinside, hfewer.le, fun _ => .inr hfewer, fun hfalse => ?_⟩
      rw [(hquiet hfalse).1, hagain] at hfalse
      cases hfalse

/-- With a round for each instruction that counts and one more, the loop comes to its end, where no rule applies
any more. -/
theorem settle_spec (rounds : ℕ) (changed : Bool) (nodes : List Node) (madeNops : List ℕ) {inside : Set ℕ}
    (h : Rewrites merges start nodes inside) (hrounds : busy nodes < rounds) :
    ∃ nodes' madeNops' changed', settle merges rounds changed nodes madeNops = some (nodes', madeNops', changed') ∧
      (∃ inside', Rewrites merges start nodes' inside') ∧ (∀ i, rewrite nodes' merges i = none) ∧
      (changed' = false → changed = false ∧ nodes' = nodes) := by
  induction rounds generalizing changed nodes madeNops inside with
  | zero => exact absurd hrounds (Nat.not_lt_zero _)
  | succ rounds ih =>
    have hsweep := foldl_visit (List.range nodes.length) ⟨nodes, madeNops, false⟩ h
    change (∃ inside', Rewrites merges start (sweep merges nodes madeNops).nodes inside') ∧ _ ∧
      ((sweep merges nodes madeNops).again = true → _) ∧ ((sweep merges nodes madeNops).again = false → _) at hsweep
    obtain ⟨⟨inside', hrewrites⟩, -, hfewer, hquiet⟩ := hsweep
    simp only [settle]
    cases hagain : (sweep merges nodes madeNops).again with
    | true =>
      obtain hfalse | hlt := hfewer hagain
      · cases hfalse
      · have hless := Nat.lt_of_lt_of_le hlt (Nat.le_of_lt_succ hrounds)
        obtain ⟨nodes', madeNops', changed', hsettle, hrest, hdone, hsame⟩ := ih true _ _ hrewrites hless
        exact ⟨nodes', madeNops', changed', hsettle, hrest, hdone, fun hfalse => nomatch (hsame hfalse).1⟩
    | false =>
      obtain ⟨heq, hall⟩ := hquiet hagain
      have hsame : sweep merges nodes madeNops = ⟨nodes, madeNops, false⟩ := heq
      rw [hsame]
      refine ⟨nodes, madeNops, changed, rfl, ⟨inside, h⟩, fun i => ?_, fun hfalse => ⟨hfalse, rfl⟩⟩
      rcases Nat.lt_or_ge i nodes.length with hlt | hge
      · exact hall i (List.mem_range.mpr hlt)
      · simp [rewrite, List.getElem?_eq_none hge]

end Rounds

/-- What the optimization leaves: the rules were applied until none applies any more, none across a merge point,
and only `nop`s went from the list. -/
structure Optimized (method after : MethodNode) (nodes : List Node) (inside : Set ℕ) (keep : ℕ → Bool) : Prop where
  rewrites : Rewrites (mergePoints method) method.nodes nodes inside
  settled : ∀ i, rewrite nodes (mergePoints method) i = none
  apart : ∀ i ∈ inside, ∀ label, method.nodes[i]? = some (.label label) → ¬ method.Joins label
  kept : after.nodes = retain keep nodes
  nops : ∀ k < nodes.length, keep k = false → nodes[k]? = some (.insn (.op nop))
  tables : after.tryCatchBlocks = method.tryCatchBlocks ∧ after.localVariables = method.localVariables
  /-- A run that never gets stuck stands before each node outside the rewritten stretches with the operand stack
  and the locals it had there. -/
  boundaries : ∀ {R W X O V : Type} (env : Env R W X O V) (f : Jvm.Frame R W),
    ¬ (method.program env.machine).Ends (0, f) none → ∀ i < nodes.length, i ∉ inside → keep i → ∀ g,
      (method.program env.machine).Reaches (0, f) (i, g) ↔
        (after.program env.machine).Reaches (0, f) (rank keep i, g)
  runs : ∀ {R W X O V : Type} (env : Env R W X O V) (f : Jvm.Frame R W),
    ¬ (method.program env.machine).Ends (0, f) none →
      Same (method.program env.machine) (after.program env.machine) (0, f) (0, f)

section Optimize

variable {method : MethodNode}

theorem mem_mergePoints {label : LabelId} : label ∈ mergePoints method ↔ method.Joins label := by
  unfold mergePoints MethodNode.Joins
  rw [List.mem_append, List.mem_map, List.mem_flatMap, or_comm]

theorem optimized_of_rewrites {after : MethodNode} {nodes : List Node} {inside : Set ℕ} {keep : ℕ → Bool}
    (h : method.WellPlaced) (hrewrites : Rewrites (mergePoints method) method.nodes nodes inside)
    (hsettled : ∀ i, rewrite nodes (mergePoints method) i = none)
    (hafter : after = { method with nodes := retain keep nodes })
    (hnops : ∀ k < nodes.length, keep k = false → nodes[k]? = some (.insn (.op nop))) :
    Optimized method after nodes inside keep := by
  subst hafter
  have hdeletion : (withNodes method nodes).Deletion { method with nodes := retain keep nodes } keep (fun _ => true)
      fun _ => True := .of_nops rfl rfl hnops
  have hruns := fun {R W X O V : Type} (env : Env R W X O V) (f : Jvm.Frame R W) =>
    hrewrites.runs method h.unique (fun label hjoins => mem_mergePoints.mpr hjoins) env f
  refine ⟨hrewrites, hsettled, fun i hi label hlabel hjoins => ?_, rfl, hnops, ⟨rfl, rfl⟩, ?_, ?_⟩
  · exact hrewrites.apart hi hlabel (mem_mergePoints.mpr hjoins)
  · intro R W X O V env f hsafe i hi hinside hkeep g
    exact ((hruns env f hsafe).2 i g hinside).trans (hdeletion.reaches_iff env.machine hkeep hi f g)
  · intro R W X O V env f hsafe
    exact (hruns env f hsafe).1.trans (hdeletion.same env.machine f)

/-- A method that pushes a local and `Unit.INSTANCE` over it, swaps them and discards both. -/
def discardedUnit : MethodNode where
  access := 0x0009
  name := "f"
  desc := "(I)V"
  nodes := [.insn (.var iload 0), .label ⟨0⟩, .insn (.field getstatic "kotlin/Unit" "INSTANCE" "Lkotlin/Unit;"),
    .insn (.op swap), .insn (.op pop), .insn (.op pop), .insn (.op returnOp)]
  tryCatchBlocks := []
  localVariables := []
  maxStack := 2
  maxLocals := 1
  labelCount := 1

example : (optimize discardedUnit).map (fun done => (done.1.instructions, done.2)) = some ([.op returnOp], true) := by
  decide +kernel

end Optimize

end Krusty.Jvm.BytecodePasses.StackPeephole
