import Krusty.Jvm.BytecodePasses.Analysis.Walk

/-! The analyzer computes the least solution of a body's flow, whatever it keeps and in whatever order
it walks. -/
namespace Krusty.Jvm.BytecodePasses

open Ascending Dataflow

section Measure

variable {V : Type} {I : Interpreter V}

/-- The frames recorded before the first `count` nodes. -/
def Worklist.knownList (w : Worklist V) (count : ℕ) : List (Option (Frame V)) :=
  (List.range count).map w.known

/-- The visits and moves left as long as no recorded frame rises. -/
def Walk.left (walk : Walk V) (count : ℕ) : ℕ :=
  walk.work.queue.items.length * (count + 2) +
    match walk.index with
    | some index => count - index + 1
    | none => 0

/-- A step goes down: a recorded frame rises, or fewer moves are left. -/
def Down (I : Interpreter V) (count : ℕ) : Walk V → Walk V → Prop :=
  InvImage (Prod.Lex (Above (List.Forall₂ (OptionLe (Frame.Le I)))) (· < ·)) fun walk =>
    (walk.work.knownList count, walk.left count)

theorem down_wf (hlat : I.Lattice) (count : ℕ) : WellFounded (Down I count) := by
  apply InvImage.wf
  exact WellFounded.prod_lex (finiteHeight_forall₂ (finiteHeight_option hlat.finiteHeight)) Nat.lt_wfRel.wf

theorem down_of_progress (count : ℕ) {walk walk' : Walk V}
    (hp : Progress I walk.work walk'.work) (hout : ∀ n, count ≤ n → walk'.work.known n = none)
    (hleft : walk'.work.queue = walk.work.queue → walk'.left count < walk.left count) :
    Down I count walk' walk := by
  have hraised : List.Forall₂ (OptionLe (Frame.Le I)) (walk.work.knownList count)
      (walk'.work.knownList count) := by
    rw [Worklist.knownList, Worklist.knownList, List.forall₂_map_left_iff, List.forall₂_map_right_iff]
    exact List.forall₂_same.mpr fun n _ => hp.raised n
  by_cases hsame : walk'.work.knownList count = walk.work.knownList count
  · have hall : ∀ n, walk'.work.known n = walk.work.known n := by
      intro n
      by_cases hn : n < count
      · have hmap := List.map_inj_left.mp hsame
        exact hmap n (List.mem_range.mpr hn)
      · have hnone := hout n (not_lt.mp hn)
        have hlow := hp.raised n
        rw [hnone] at hlow ⊢
        cases hk : walk.work.known n with
        | none => rfl
        | some x =>
          rw [hk] at hlow
          cases hlow
    change Prod.Lex _ _ (walk'.work.knownList count, walk'.left count)
      (walk.work.knownList count, walk.left count)
    rw [hsame]
    exact .right _ (hleft (hp.still hall))
  · exact .left _ _ ⟨hraised, hsame⟩

end Measure

theorem Holds.known_none {V : Type} {I : Interpreter V} {P : Problem (Frame V) (Frame.Le I)}
    {merge : List ℕ} {keep : ℕ → Bool} {w : Worklist V} {G : Assignment (Frame V)} {pending : ℕ → Prop}
    (h : Holds P merge keep w G pending) {n : ℕ} (hn : P.count ≤ n) : w.known n = none := by
  unfold Worklist.known
  split
  · rename_i locals stack hd
    have hlt := h.known.inRange n _ (h.stores.recorded n locals stack hd)
    omega
  · rfl

section Run

variable {V : Type} [DecidableEq V] {I : Interpreter V} {method : MethodNode} {options : AnalyzerOptions}
  {ranges : List Range} {merge : List ℕ} {execute : Executor V} {keepNode : ℕ → Node → Bool}
  {entry : Frame V} (hlat : I.Lattice) (hexec : execute.Monotone I)
  (hmerge : mergeNodes method = some merge)
  (hranges : method.tryCatchBlocks.mapM (rangeOf method options) = some ranges)
  (hfast : options.fastHandlers = false)

include hlat hexec hmerge hranges hfast

/-- One step of the walk goes down, or ends it. -/
theorem HoldsWalk.step {walk : Walk V} {G : Assignment (Frame V)}
    (h : HoldsWalk (walked method options ranges hlat hexec entry) merge (kept method keepNode) walk G) :
    (∃ e, step method options I execute keepNode ranges walk = .error (.error e) ∧
        ∀ s, ¬ Closed (walked method options ranges hlat hexec entry) s) ∨
      (step method options I execute keepNode ranges walk = .ok none ∧ walk.index = none ∧
        walk.work.queue.items = []) ∨
      ∃ walk' G', step method options I execute keepNode ranges walk = .ok (some walk') ∧
        HoldsWalk (walked method options ranges hlat hexec entry) merge (kept method keepNode) walk' G' ∧
        G.Le (Frame.Le I) G' ∧ Down I method.nodes.length walk' walk := by
  have := hlat.isPartialOrder
  obtain ⟨w, scratch, index⟩ := walk
  cases index with
  | some index =>
    have hlt : index < method.nodes.length := h.holds.known.inRange index scratch (h.state index rfl)
    obtain ⟨e, he, hnone⟩ | ⟨walk', G', hok, h', hp, hindex, hle⟩ :=
      h.visit hlat hexec hmerge hranges hfast
    · refine .inl ⟨e, ?_, hnone⟩
      simp only [BytecodePasses.step, he]
      rfl
    · refine .inr (.inr ⟨walk', G', ?_, h', hle, ?_⟩)
      · simp only [BytecodePasses.step, hok]
        rfl
      · apply down_of_progress method.nodes.length hp fun n hn => h'.holds.known_none hn
        intro hqueue
        unfold Walk.left
        rw [hqueue]
        cases hi : walk'.index with
        | none => simp only; omega
        | some i =>
          have := hindex i hi
          simp only
          omega
  | none =>
    cases hpop : w.queue.pop with
    | none =>
      refine .inr (.inl ⟨?_, rfl, Queue.pop_none hpop⟩)
      simp [BytecodePasses.step, hpop]
    | some popped =>
      obtain ⟨head, rest⟩ := popped
      have hperm := Queue.pop_some hpop
      have hin : head ∈ w.queue.items := hperm.mem_iff.mpr (List.mem_cons_self ..)
      obtain ⟨locals, stack, hrec⟩ : ∃ locals stack, w.frames head = .recorded locals stack :=
        isRecorded_iff.mp (h.holds.stores.queue_recorded head hin)
      refine .inr (.inr ⟨_, G, ?_, h.pop hpop hrec, fun n f hf => ⟨f, hf, refl_of (Frame.Le I) f⟩, ?_⟩)
      · simp [BytecodePasses.step, hpop, hrec]
      · -- nothing recorded changes, and the queue is shorter by one
        have hlen : w.queue.items.length = rest.items.length + 1 := by
          rw [hperm.length_eq, List.length_cons]
        refine .right _ ?_
        simp only [Walk.left, hlen]
        have hsplit : (rest.items.length + 1) * (method.nodes.length + 2) =
            rest.items.length * (method.nodes.length + 2) + (method.nodes.length + 2) := by ring
        omega

/-- The walk ends: with everything it learned propagated, or because the flow has no solution. -/
theorem HoldsWalk.run {walk : Walk V} {G : Assignment (Frame V)}
    (h : HoldsWalk (walked method options ranges hlat hexec entry) merge (kept method keepNode) walk G) :
    ∃ fuel₀, (∃ e, (∀ fuel, fuel₀ ≤ fuel →
          run method options I execute keepNode ranges fuel walk = some (.error (.error e))) ∧
        ∀ s, ¬ Closed (walked method options ranges hlat hexec entry) s) ∨
      ∃ w G', (∀ fuel, fuel₀ ≤ fuel →
          run method options I execute keepNode ranges fuel walk = some (.ok w)) ∧
        Holds (walked method options ranges hlat hexec entry) merge (kept method keepNode) w G'
          (fun _ => False) ∧ w.queue.items = [] ∧ G.Le (Frame.Le I) G' := by
  have := hlat.isPartialOrder
  induction walk using (down_wf hlat method.nodes.length).induction generalizing G with
  | _ walk ih =>
    have hfuel : ∀ {fuel k : ℕ}, k + 1 ≤ fuel → ∃ fuel', fuel = fuel' + 1 ∧ k ≤ fuel' := by
      intro fuel k hle
      exact ⟨fuel - 1, by omega, by omega⟩
    obtain ⟨e, he, hnone⟩ | ⟨hdone, hindex, hqueue⟩ | ⟨walk', G', hok, h', hle, hdown⟩ :=
      h.step hlat hexec hmerge hranges hfast
    · refine ⟨1, .inl ⟨e, ?_, hnone⟩⟩
      intro fuel hf
      obtain ⟨fuel', rfl, -⟩ := hfuel hf
      simp [BytecodePasses.run, he]
    · refine ⟨1, .inr ⟨walk.work, G, ?_, ?_, hqueue, fun n f hf => ⟨f, hf, refl_of (Frame.Le I) f⟩⟩⟩
      · intro fuel hf
        obtain ⟨fuel', rfl, -⟩ := hfuel hf
        simp [BytecodePasses.run, hdone]
      · apply h.holds.mono
        intro n f _ hn
        rw [hindex] at hn
        cases hn
    · obtain ⟨fuel₀, hrest⟩ := ih walk' hdown h'
      refine ⟨fuel₀ + 1, ?_⟩
      have hstep : ∀ result, (∀ fuel, fuel₀ ≤ fuel →
          BytecodePasses.run method options I execute keepNode ranges fuel walk' = some result) →
          ∀ fuel, fuel₀ + 1 ≤ fuel →
            BytecodePasses.run method options I execute keepNode ranges fuel walk = some result := by
        intro result hresult fuel hf
        obtain ⟨fuel', rfl, hf'⟩ := hfuel hf
        simp [BytecodePasses.run, hok, hresult fuel' hf']
      obtain ⟨e, he, hnone⟩ | ⟨w, G'', hw, hholds, hqueue, hle'⟩ := hrest
      · exact .inl ⟨e, hstep _ he, hnone⟩
      · exact .inr ⟨w, G'', hstep _ hw, hholds, hqueue, hle.trans hle'⟩

end Run

/-- The options of the exact analysis: every edge is followed, and every merge node meets its edges. -/
def exactOptions (inIndexOrder : Bool) : AnalyzerOptions := ⟨false, false, false, inIndexOrder⟩

/-- What the analyzer reads off a body before it walks: the labels all stand in it, its protected ranges
run forward, and its parameters fit its locals. -/
structure Prepared {V : Type} (I : Interpreter V) (method : MethodNode) (owner : String)
    (ranges : List Range) (merge : List ℕ) (entry : Frame V) : Prop where
  ranges : ∀ inIndexOrder,
    method.tryCatchBlocks.mapM (rangeOf method (exactOptions inIndexOrder)) = some ranges
  entry : entryFrame method I owner = .ok entry
  merge : mergeNodes method = some merge

/-- A result that holds the states of `S`: every node with one is reached, and a frame is given at each of
those `keep` asks for. -/
structure Records {V : Type} (keep : ℕ → Bool) (S : Assignment (Frame V)) (w : Worklist V) : Prop where
  reached : ∀ n, w.frames n ≠ .unreached ↔ (S n).isSome
  kept : ∀ n f, keep n = true → S n = some f → w.frames n = .recorded f.locals f.stack
  recorded : ∀ n locals stack, w.frames n = .recorded locals stack →
    ∃ f, S n = some f ∧ f.locals = locals ∧ f.stack = stack

section Analysis

variable {V : Type} {I : Interpreter V} {P : Problem (Frame V) (Frame.Le I)} {merge : List ℕ}
  {keep : ℕ → Bool} {w : Worklist V} {G : Assignment (Frame V)}

theorem Holds.records {pending : ℕ → Prop} (h : Holds P merge keep w G pending) : Records keep G w where
  reached := by
    intro n
    cases hd : w.frames n with
    | unreached => simp [h.stores.unreached n hd]
    | reached => simp [(h.stores.reached n hd).1]
    | recorded locals stack => simp [h.stores.recorded n locals stack hd]
  kept := by
    intro n f hk hf
    cases hd : w.frames n with
    | unreached =>
      rw [h.stores.unreached n hd] at hf
      cases hf
    | reached =>
      rw [(h.stores.reached n hd).2.1] at hk
      cases hk
    | recorded locals stack =>
      rw [h.stores.recorded n locals stack hd] at hf
      cases hf
      rfl
  recorded := by
    intro n locals stack hd
    exact ⟨_, h.stores.recorded n locals stack hd, rfl, rfl⟩

/-- Once nothing waits, what the walk learned is closed. -/
theorem Holds.closed (h : Holds P merge keep w G fun _ => False) (hqueue : w.queue.items = [])
    (hentry : ∃ f, G 0 = some f ∧ Frame.Le I P.entry f) : Closed P G := by
  have hdone : ∀ n f, G n = some f → Propagated P G n f := by
    intro n f hf
    obtain (hin | hno) | hdone := h.known.propagated n f hf
    · rw [hqueue] at hin
      cases hin
    · exact absurd hno id
    · exact hdone
  constructor
  · intro n f hf
    obtain ⟨es, hes, -⟩ := hdone n f hf
    exact ⟨h.known.inRange n f hf, by rw [hes]; rfl⟩
  · rintro m g (⟨rfl, rfl⟩ | ⟨n, f, es, hf, hes, hmem⟩)
    · exact hentry
    · obtain ⟨es', hes', hall⟩ := hdone n f hf
      rw [hes] at hes'
      cases hes'
      exact hall m g hmem

/-- Two results that hold the same states agree where both keep the frame. -/
theorem Records.agree {keep' : ℕ → Bool} {w' : Worklist V} (h : Records keep G w)
    (h' : Records keep' G w') {n : ℕ} (hk : keep n = true) (hk' : keep' n = true) :
    w.frames n = w'.frames n := by
  cases hf : G n with
  | some f => rw [h.kept n f hk hf, h'.kept n f hk' hf]
  | none =>
    have hnone : ¬ (G n).isSome := by simp [hf]
    have hw := not_not.mp (mt (h.reached n).mp hnone)
    have hw' := not_not.mp (mt (h'.reached n).mp hnone)
    rw [hw, hw']

end Analysis

section Fuel

variable {V : Type} [DecidableEq V] {I : Interpreter V} {execute : Executor V} {method : MethodNode}
  {options : AnalyzerOptions} {keepNode : ℕ → Node → Bool} {ranges : List Range} {fuel fuel' : ℕ}

theorem run_more {walk : Walk V} {result : Except Halt (Worklist V)} (hle : fuel ≤ fuel')
    (h : run method options I execute keepNode ranges fuel walk = some result) :
    run method options I execute keepNode ranges fuel' walk = some result := by
  induction fuel generalizing fuel' walk with
  | zero => cases h
  | succ fuel ih =>
    obtain ⟨fuel', rfl⟩ := Nat.exists_eq_add_of_lt hle
    rw [run] at h ⊢
    split at h
    · exact h
    · exact h
    · exact ih (Nat.le_add_right fuel fuel') h

/-- More fuel does not change an analysis that ends. -/
theorem analyzeKept_more {owner : String} {result : Except Halt (Worklist V)} (hle : fuel ≤ fuel')
    (h : analyzeKept I execute fuel method owner options keepNode = some result) :
    analyzeKept I execute fuel' method owner options keepNode = some result := by
  unfold analyzeKept at h ⊢
  dsimp only at h ⊢
  split_ifs at h ⊢
  · exact h
  · exact h
  · repeat' split at h
    all_goals first
      | exact h
      | exact run_more hle h

end Fuel

section Outcome

variable {V : Type} [DecidableEq V] (I : Interpreter V) (execute : Executor V) (method : MethodNode)
  (owner : String)

/-- Every analysis of the body ends with the states of `S`, and a frame kept is the one the analysis that
keeps everything gives, in whatever order either of them walks. -/
def Gives (S : Assignment (Frame V)) : Prop :=
  ∀ (inIndexOrder inIndexOrder' : Bool) (keepNode : ℕ → Node → Bool), ∃ fuel₀ w all,
    (∀ fuel, fuel₀ ≤ fuel →
      analyzeKept I execute fuel method owner (exactOptions inIndexOrder) keepNode = some (.ok w) ∧
      analyzeWith I execute fuel method owner (exactOptions inIndexOrder') = some (.ok all)) ∧
    Records (kept method keepNode) S w ∧ Records (· < method.nodes.length) S all ∧
    ∀ n, kept method keepNode n = true → w.frames n = all.frames n

/-- Every analysis of the body ends without frames. -/
def Fails : Prop :=
  ∀ (inIndexOrder : Bool) (keepNode : ℕ → Node → Bool), ∃ fuel₀ halt, ∀ fuel, fuel₀ ≤ fuel →
    analyzeKept I execute fuel method owner (exactOptions inIndexOrder) keepNode = some (.error halt)

/-- What `Gives` and `Fails` say of the exact options, said of others. -/
def GivesWith (options : Bool → AnalyzerOptions) (S : Assignment (Frame V)) : Prop :=
  ∀ (inIndexOrder inIndexOrder' : Bool) (keepNode : ℕ → Node → Bool), ∃ fuel₀ w all,
    (∀ fuel, fuel₀ ≤ fuel →
      analyzeKept I execute fuel method owner (options inIndexOrder) keepNode = some (.ok w) ∧
      analyzeWith I execute fuel method owner (options inIndexOrder') = some (.ok all)) ∧
    Records (kept method keepNode) S w ∧ Records (· < method.nodes.length) S all ∧
    ∀ n, kept method keepNode n = true → w.frames n = all.frames n

def FailsWith (options : Bool → AnalyzerOptions) : Prop :=
  ∀ (inIndexOrder : Bool) (keepNode : ℕ → Node → Bool), ∃ fuel₀ halt, ∀ fuel, fuel₀ ≤ fuel →
    analyzeKept I execute fuel method owner (options inIndexOrder) keepNode = some (.error halt)

end Outcome

section Analyze

variable {V : Type} {I : Interpreter V} {method : MethodNode} {owner : String}
  {ranges : List Range} {merge : List ℕ} {execute : Executor V} {entry : Frame V}

variable {options : AnalyzerOptions}

/-- Nothing is known of a new store. -/
theorem holds_newWorklist {P : Problem (Frame V) (Frame.Le I)}
    (hfast : options.fastMerge = false) (keep : ℕ → Bool) :
    Holds P merge keep (newWorklist P.count options merge) (fun _ => none) fun _ => False where
  count := rfl
  mergeNodes := rfl
  fastMerge := hfast
  stores := by
    constructor <;> simp [newWorklist, Queue.items_new]
  known := by
    constructor <;> simp [Assignment.Le]

/-- Options that meet every edge a walk follows, whether or not it follows them all. -/
structure AnalyzerOptions.Merges (options : Bool → AnalyzerOptions) : Prop where
  fastHandlers : ∀ inIndexOrder, (options inIndexOrder).fastHandlers = false
  fastMerge : ∀ inIndexOrder, (options inIndexOrder).fastMerge = false

/-- The protected ranges depend on `fastHandlers` alone. -/
theorem rangeOf_eq {options options' : AnalyzerOptions} (h : options.fastHandlers = false)
    (h' : options'.fastHandlers = false) : rangeOf method options = rangeOf method options' := by
  funext block
  rw [rangeOf, rangeOf, h, h']

theorem Prepared.rangesOf (hprep : Prepared I method owner ranges merge entry)
    (hfast : options.fastHandlers = false) :
    method.tryCatchBlocks.mapM (rangeOf method options) = some ranges := by
  have hexact : (exactOptions true).fastHandlers = false := rfl
  rw [rangeOf_eq hfast hexact]
  exact hprep.ranges true

variable (hlat : I.Lattice) (hexec : execute.Monotone I)

theorem arrival_entry (options : AnalyzerOptions) :
    Arrival (walked method options ranges hlat hexec entry) merge (fun _ => none) 0 entry where
  locals := rfl
  returnValue := rfl
  below := fun _ hs => hs.above 0 entry (.inl ⟨rfl, rfl⟩)
  source := fun _ => .inl ⟨rfl, rfl⟩

variable [DecidableEq V]

/-- One analysis: it ends with the least closed assignment, or because there is no closed one. -/
theorem analyzeKept_closed (hnodes : method.nodes ≠ []) (hsub : usesSubroutines method = false)
    (hprep : Prepared I method owner ranges merge entry)
    (hhandlers : options.fastHandlers = false) (hfast : options.fastMerge = false)
    (keepNode : ℕ → Node → Bool) :
    ∃ fuel₀, (∃ e, (∀ fuel, fuel₀ ≤ fuel →
          analyzeKept I execute fuel method owner options keepNode = some (.error (.error e))) ∧
        ∀ s, ¬ Closed (walked method options ranges hlat hexec entry) s) ∨
      ∃ w G, (∀ fuel, fuel₀ ≤ fuel →
          analyzeKept I execute fuel method owner options keepNode = some (.ok w)) ∧
        Records (kept method keepNode) G w ∧
        Closed (walked method options ranges hlat hexec entry) G ∧
        ∀ s, Closed (walked method options ranges hlat hexec entry) s → G.Le (Frame.Le I) s := by
  have hcount : method.nodes.length ≠ 0 := mt List.length_eq_zero_iff.mp hnodes
  have hranges := hprep.rangesOf hhandlers
  have hnew : Holds (walked method options ranges hlat hexec entry) merge (kept method keepNode)
      (newWorklist method.nodes.length options merge) (fun _ => none)
      fun _ => False := holds_newWorklist hfast _
  obtain ⟨e, he, hnone⟩ | ⟨work, G, hwork, hholds, hext⟩ :=
    hnew.install hlat 0 (arrival_entry hlat hexec options)
  · refine ⟨0, .inl ⟨e, ?_, hnone⟩⟩
    intro fuel _
    simp [analyzeKept, hcount, hsub, hranges, hprep.entry, hprep.merge, he]
  have hstart : ∀ fuel, analyzeKept I execute fuel method owner options keepNode =
      run method options I execute keepNode ranges fuel ⟨work, entry, none⟩ := by
    intro fuel
    simp [analyzeKept, hcount, hsub, hranges, hprep.entry, hprep.merge, hwork]
  have hwalk : HoldsWalk (walked method options ranges hlat hexec entry) merge (kept method keepNode)
      ⟨work, entry, none⟩ G := by
    refine ⟨hholds.mono ?_, rfl, by simp⟩
    intro n f _ hn
    exact absurd hn id
  obtain ⟨fuel₀, hrun⟩ := hwalk.run hlat hexec hprep.merge hranges hhandlers
  refine ⟨fuel₀, ?_⟩
  obtain ⟨e, he, hnone⟩ | ⟨w, G', hw, hend, hqueue, hle⟩ := hrun
  · refine .inl ⟨e, ?_, hnone⟩
    intro fuel hf
    rw [hstart]
    exact he fuel hf
  · refine .inr ⟨w, G', ?_, hend.records, ?_, hend.known.below⟩
    · intro fuel hf
      rw [hstart]
      exact hw fuel hf
    · apply hend.closed hqueue
      have := hlat.isPartialOrder
      obtain ⟨x, hx, hentry⟩ := hext.arrived
      obtain ⟨y, hy, hxy⟩ := hle 0 x hx
      exact ⟨y, hy, trans_of (Frame.Le I) hentry hxy⟩

theorem kept_all : kept method (fun _ _ => true) = fun n => decide (n < method.nodes.length) := by
  funext n
  unfold kept
  by_cases hn : n < method.nodes.length
  · simp [hn]
  · simp [hn]

theorem lt_of_kept {keepNode : ℕ → Node → Bool} {n : ℕ} (h : kept method keepNode n = true) :
    n < method.nodes.length := by
  by_contra hge
  simp [kept, List.getElem?_eq_none (not_lt.mp hge)] at h

/-- The analysis of a body that has nodes and is prepared: the least closed assignment of the flow it
walks, or none at all. -/
theorem gives_or_fails (hnodes : method.nodes ≠ []) (hsub : usesSubroutines method = false)
    (hprep : Prepared I method owner ranges merge entry) {options : Bool → AnalyzerOptions}
    (hoptions : AnalyzerOptions.Merges options) {P : Problem (Frame V) (Frame.Le I)}
    (hflow : ∀ inIndexOrder, walked method (options inIndexOrder) ranges hlat hexec entry = P) :
    (∃ S, Closed P S ∧ (∀ t, Closed P t → S.Le (Frame.Le I) t) ∧
      GivesWith I execute method owner options S) ∨
    (∀ s, ¬ Closed P s) ∧ FailsWith I execute method owner options := by
  have := hlat.isPartialOrder
  have hone := fun inIndexOrder keepNode => analyzeKept_closed hlat hexec hnodes hsub hprep
    (hoptions.fastHandlers inIndexOrder) (hoptions.fastMerge inIndexOrder) keepNode
  simp only [hflow] at hone
  by_cases hclosed : ∃ s, Closed P s
  · left
    obtain ⟨s, hs⟩ := hclosed
    have hrun : ∀ inIndexOrder keepNode, ∃ fuel₀ w S, (∀ fuel, fuel₀ ≤ fuel →
        analyzeKept I execute fuel method owner (options inIndexOrder) keepNode = some (.ok w)) ∧
        Records (kept method keepNode) S w ∧ Closed P S ∧
        ∀ t, Closed P t → S.Le (Frame.Le I) t := by
      intro inIndexOrder keepNode
      obtain ⟨fuel₀, ⟨e, -, hnone⟩ | ⟨w, S, hw, hrest⟩⟩ := hone inIndexOrder keepNode
      · exact absurd hs (hnone s)
      · exact ⟨fuel₀, w, S, hw, hrest⟩
    -- the least closed assignment is unique, so every run finds the one this run does
    obtain ⟨-, -, S, -, -, hS, hleast⟩ := hrun true fun _ _ => true
    refine ⟨S, hS, hleast, ?_⟩
    intro inIndexOrder inIndexOrder' keepNode
    obtain ⟨fuel₁, w, S₁, hw, hrecords₁, hS₁, hleast₁⟩ := hrun inIndexOrder keepNode
    obtain ⟨fuel₂, all, S₂, hall, hrecords₂, hS₂, hleast₂⟩ := hrun inIndexOrder' fun _ _ => true
    obtain rfl : S₁ = S := (hleast₁ S hS).antisymm (hleast S₁ hS₁)
    obtain rfl : S₂ = S₁ := (hleast₂ S₁ hS).antisymm (hleast S₂ hS₂)
    rw [kept_all] at hrecords₂
    refine ⟨max fuel₁ fuel₂, w, all, ?_, hrecords₁, hrecords₂, ?_⟩
    · intro fuel hf
      exact ⟨hw fuel (le_of_max_le_left hf), hall fuel (le_of_max_le_right hf)⟩
    · intro n hn
      exact hrecords₁.agree hrecords₂ hn (decide_eq_true (lt_of_kept hn))
  · right
    refine ⟨fun s hs => hclosed ⟨s, hs⟩, ?_⟩
    intro inIndexOrder keepNode
    obtain ⟨fuel₀, ⟨e, he, -⟩ | ⟨w, S, -, -, hS, -⟩⟩ := hone inIndexOrder keepNode
    · exact ⟨fuel₀, .error e, he⟩
    · exact absurd ⟨S, hS⟩ hclosed

omit hlat hexec [DecidableEq V] in
theorem exactOptions_merges : AnalyzerOptions.Merges exactOptions := ⟨fun _ => rfl, fun _ => rfl⟩

omit [DecidableEq V] in
theorem walked_exact (inIndexOrder : Bool) :
    walked method (exactOptions inIndexOrder) ranges hlat hexec entry =
      flow method ranges I execute hlat hexec entry := by
  rw [walked, fedHandlers_exact rfl rfl, flow_eq_flowVia]

omit hlat hexec in
theorem gives_of_empty (hnodes : method.nodes = []) (options : Bool → AnalyzerOptions) :
    GivesWith I execute method owner options fun _ => none := by
  intro inIndexOrder inIndexOrder' keepNode
  refine ⟨0, newWorklist 0 (options inIndexOrder) [], newWorklist 0 (options inIndexOrder') [],
    ?_, ?_, ?_, ?_⟩
  · intro fuel _
    simp [analyzeKept, analyzeWith, hnodes]
  · constructor <;> simp [newWorklist]
  · constructor <;> simp [newWorklist]
  · intro n _
    rfl

omit hlat hexec in
theorem fails_of_unprepared (hnodes : method.nodes ≠ [])
    (hprep : ∀ ranges merge entry, ¬ Prepared I method owner ranges merge entry)
    {options : Bool → AnalyzerOptions} (hoptions : AnalyzerOptions.Merges options) :
    FailsWith I execute method owner options := by
  intro inIndexOrder keepNode
  have hcount : method.nodes.length ≠ 0 := mt List.length_eq_zero_iff.mp hnodes
  have hhalt : ∃ halt, ∀ fuel, analyzeKept I execute fuel method owner (options inIndexOrder)
      keepNode = some (.error halt) := by
    unfold analyzeKept
    simp only [hcount, if_false]
    split_ifs
    · exact ⟨_, fun _ => rfl⟩
    cases hranges : method.tryCatchBlocks.mapM (rangeOf method (options inIndexOrder)) with
    | none => exact ⟨_, fun _ => rfl⟩
    | some ranges =>
      cases hentry : entryFrame method I owner with
      | error e => exact ⟨_, fun _ => rfl⟩
      | ok entry =>
        cases hmerge : mergeNodes method with
        | none => exact ⟨_, fun _ => rfl⟩
        | some merge =>
          -- the ranges do not depend on the order of the walk
          have hexact : ∀ inIndexOrder',
              method.tryCatchBlocks.mapM (rangeOf method (exactOptions inIndexOrder')) = some ranges := by
            intro inIndexOrder'
            rw [← rangeOf_eq (hoptions.fastHandlers inIndexOrder) rfl, hranges]
          exact absurd ⟨hexact, hentry, hmerge⟩ (hprep ranges merge entry)
  obtain ⟨halt, hhalt⟩ := hhalt
  exact ⟨0, halt, fun fuel _ => hhalt fuel⟩

/-- The exact analysis of a body without subroutines computes the least solution of the body's flow,
whatever it keeps and in whatever order it walks, and reaches the nodes the flow reaches. It fails only
when the flow has no solution or the body is malformed. -/
theorem analyzeKept_leastSolution (owner : String) (hsub : usesSubroutines method = false) :
    (method.nodes = [] → Gives I execute method owner fun _ => none) ∧
    (method.nodes ≠ [] → ∀ ranges merge entry, Prepared I method owner ranges merge entry →
      (∃ S, LeastSolution (flow method ranges I execute hlat hexec entry) S ∧
        (∀ n, (S n).isSome ↔ Reachable (flow method ranges I execute hlat hexec entry) n) ∧
        Gives I execute method owner S) ∨
      (∀ s, ¬ Solution (flow method ranges I execute hlat hexec entry) s) ∧
        Fails I execute method owner) ∧
    (method.nodes ≠ [] → (∀ ranges merge entry, ¬ Prepared I method owner ranges merge entry) →
      Fails I execute method owner) := by
  have := hlat.isPartialOrder
  refine ⟨fun hnodes => gives_of_empty hnodes exactOptions, ?_,
    fun hnodes hprep => fails_of_unprepared hnodes hprep exactOptions_merges⟩
  intro hnodes ranges merge entry hprep
  obtain ⟨S, hS, hleast, hgives⟩ | ⟨hnone, hfails⟩ :=
    gives_or_fails hlat hexec hnodes hsub hprep exactOptions_merges (walked_exact hlat hexec)
  · exact .inl ⟨S, leastSolution_of_closed hS hleast hlat.hasJoins,
      fun n => isSome_iff_reachable hS hleast, hgives⟩
  · exact .inr ⟨fun s hs => hnone s hs.closed, hfails⟩

end Analyze

section Sample

/-- Values told apart from the empty one only; where paths disagree the value is empty. -/
def sampleInterpreter : Interpreter Bool where
  newValue := fun _ => some false
  newEmptyValue := true
  newParameterValue := fun _ _ => false
  newExceptionValue := fun _ => false
  mergeLocal := fun a b => a || b
  mergeStack := fun a b => a || b

/-- `nop` and `goto` leave the frame as it is. -/
def sampleExecutor : Executor Bool := fun _ _ f => .ok f

theorem sampleInterpreter_lattice : sampleInterpreter.Lattice := by
  have hlaws : JoinLaws fun a b : Bool => a || b := ⟨by decide, by decide, by decide⟩
  have hheight : FiniteHeight (Below fun a b : Bool => a || b) := by
    have htrue : Acc (Above (Below fun a b : Bool => a || b)) true := by
      constructor
      rintro (_ | _) ⟨hbelow, hne⟩
      · cases hbelow
      · exact absurd rfl hne
    constructor
    rintro (_ | _)
    · constructor
      rintro (_ | _) ⟨-, hne⟩
      · exact absurd rfl hne
      · exact htrue
    · exact htrue
  exact ⟨hlaws, hlaws, hheight, hheight⟩

theorem sampleExecutor_monotone : sampleExecutor.Monotone sampleInterpreter := by
  constructor
  · intro index insn f g g' hle hg
    cases hg
    exact ⟨f, rfl, hle⟩
  · intro index insn f f' hf
    cases hf
    rfl
  · intro index insn f f' hf
    cases hf
    rfl

/-- A protected jump over an unreachable node, and a handler that loops. -/
def sampleLoop : MethodNode where
  access := 8
  name := "f"
  desc := "(I)V"
  nodes := [.label ⟨0⟩, .insn (.jump gotoOp ⟨1⟩), .insn (.op nop), .label ⟨1⟩, .insn (.op returnOp),
    .label ⟨2⟩, .insn (.jump gotoOp ⟨2⟩)]
  tryCatchBlocks := [⟨⟨0⟩, ⟨1⟩, ⟨2⟩, none⟩]
  localVariables := []
  maxStack := 1
  maxLocals := 2
  labelCount := 3

theorem analyzeKept_leastSolution_sample :
    ∃ S, LeastSolution (flow sampleLoop [⟨0, 3, 5, "java/lang/Throwable"⟩] sampleInterpreter
        sampleExecutor sampleInterpreter_lattice sampleExecutor_monotone
        ⟨[false, true], [], some false⟩) S ∧
      Gives sampleInterpreter sampleExecutor sampleLoop "A" S := by
  have hprep : Prepared sampleInterpreter sampleLoop "A" [⟨0, 3, 5, "java/lang/Throwable"⟩] [3, 5, 5]
      ⟨[false, true], [], some false⟩ := by
    refine ⟨fun _ => rfl, by decide, by decide⟩
  have hsub : usesSubroutines sampleLoop = false := by decide
  obtain ⟨-, hwalk, -⟩ :=
    analyzeKept_leastSolution sampleInterpreter_lattice sampleExecutor_monotone "A" hsub
  obtain ⟨S, hleast, -, hgives⟩ | ⟨-, hfails⟩ := hwalk (by decide) _ _ _ hprep
  · exact ⟨S, hleast, hgives⟩
  · -- the walk of this body ends well within the fuel
    obtain ⟨fuel₀, halt, hhalt⟩ := hfails true fun _ _ => true
    obtain ⟨w, hw⟩ : ∃ w, analyzeKept sampleInterpreter sampleExecutor 12 sampleLoop "A"
        (exactOptions true) (fun _ _ => true) = some (.ok w) := ⟨_, rfl⟩
    have hmore := analyzeKept_more (le_max_right fuel₀ 12) hw
    rw [hhalt _ (le_max_left fuel₀ 12)] at hmore
    cases hmore

end Sample

end Krusty.Jvm.BytecodePasses
