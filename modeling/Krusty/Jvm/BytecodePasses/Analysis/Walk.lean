import Krusty.Jvm.BytecodePasses.Analysis.ControlFlow

/-! What each node the walk visits adds to what it has learned of the flow. -/
namespace Krusty.Jvm.BytecodePasses

open Ascending Dataflow

variable {V : Type} {I : Interpreter V} {P : Problem (Frame V) (Frame.Le I)} {merge : List ℕ}
  {keep : ℕ → Bool} {w w' : Worklist V} {G G' : Assignment (Frame V)} {pending pending' : ℕ → Prop}

theorem Holds.mono (h : Holds P merge keep w G pending)
    (hp : ∀ n f, G n = some f → pending n → pending' n ∨ n ∈ w.queue.items ∨ Propagated P G n f) :
    Holds P merge keep w G pending' where
  count := h.count
  mergeNodes := h.mergeNodes
  fastMerge := h.fastMerge
  stores := h.stores
  known := {
    inRange := h.known.inRange
    locals := h.known.locals
    returnValue := h.known.returnValue
    tracked := h.known.tracked
    below := h.known.below
    propagated := by
      intro n f hf
      obtain (hq | hn) | hdone := h.known.propagated n f hf
      · exact .inl (.inl hq)
      · obtain hn | hq | hdone := hp n f hf hn
        · exact .inl (.inr hn)
        · exact .inl (.inl hq)
        · exact .inr hdone
      · exact .inr hdone }

section Edges

variable {c : ℕ} {x : Frame V} {es : List (ℕ × Frame V)}

/-- What leaves a node with the frame the walk knows there arrives. -/
theorem Holds.arrival (hlat : I.Lattice) (hchain : Chained P merge) (h : Holds P merge keep w G pending)
    (hc : G c = some x) (hes : P.out c x = some es) {m : ℕ} {g : Frame V} (hmem : (m, g) ∈ es) :
    Arrival P merge G m g where
  locals := (hchain.locals c x es m g hes hmem).trans (h.known.locals c x hc)
  returnValue := (hchain.returnValue c x es m g hes hmem).trans (h.known.returnValue c x hc)
  below := by
    have := hlat.isPartialOrder
    intro s hs
    obtain ⟨y, hy, hxy⟩ := h.known.below s hs c x hc
    obtain ⟨es', hes', habove⟩ := hs.edge hy hxy
    rw [hes] at hes'
    cases hes'
    exact habove m g hmem
  source := by
    intro hno
    obtain ⟨rfl, hone⟩ := hchain.single c x es m g hes hmem hno
    exact .inr ⟨c, x, es, rfl, hc, hes, hmem, hone⟩

section

variable [DecidableEq V]

/-- Several edges of one node installed in turn. -/
theorem Holds.installAll (hlat : I.Lattice) (hchain : Chained P merge) (edges : List (ℕ × Frame V))
    (hsub : ∀ e ∈ edges, e ∈ es) (hes : P.out c x = some es) (h : Holds P merge keep w G pending)
    (hc : G c = some x) :
    (∃ e, w.installAll I c edges = .error (.error e) ∧ ∀ s, ¬ Closed P s) ∨
      ∃ w' G', w.installAll I c edges = .ok w' ∧ Holds P merge keep w' G' pending ∧ Progress I w w' ∧
        G.Le (Frame.Le I) G' ∧ (∀ n, (∀ g, (n, g) ∉ edges) → G' n = G n) ∧
        (∀ n ∈ w'.queue.items, n ∈ w.queue.items ∨ ∃ g, (n, g) ∈ edges) ∧
        ∀ m g, (m, g) ∈ edges → ∃ y, G' m = some y ∧ Frame.Le I g y := by
  have := hlat.isPartialOrder
  induction edges generalizing w G with
  | nil =>
    refine .inr ⟨w, G, rfl, h, .refl w, ?_, fun _ _ => rfl, fun _ hn => .inl hn, by simp⟩
    intro n f hf
    exact ⟨f, hf, refl_of (Frame.Le I) f⟩
  | cons edge edges ih =>
    obtain ⟨m, g⟩ := edge
    have hmem : (m, g) ∈ es := hsub _ (List.mem_cons_self ..)
    obtain ⟨e, he, hnone⟩ | ⟨w₁, G₁, hok, h₁, hext⟩ :=
      h.install hlat c (h.arrival hlat hchain hc hes hmem)
    · refine .inl ⟨e, ?_, hnone⟩
      simp only [Worklist.installAll, List.foldlM_cons, he]
      rfl
    have hc₁ : G₁ c = some x := by
      rw [hext.frame c (hchain.apart c x es m g hes hmem).symm, hc]
    have hstep : w.installAll I c ((m, g) :: edges) = w₁.installAll I c edges := by
      simp only [Worklist.installAll, List.foldlM_cons, hok]
      rfl
    rw [hstep]
    obtain ⟨e, he, hnone⟩ | ⟨w₂, G₂, hok₂, h₂, hprogress, hle, hframe, hpushed, harrived⟩ :=
      ih (fun e he => hsub e (List.mem_cons_of_mem _ he)) h₁ hc₁
    · exact .inl ⟨e, he, hnone⟩
    refine .inr ⟨w₂, G₂, hok₂, h₂, hext.progress.trans hprogress, hext.le.trans hle, ?_, ?_, ?_⟩
    · intro n hn
      have hne : n ≠ m := by
        rintro rfl
        exact hn g (List.mem_cons_self ..)
      rw [hframe n fun g' hg' => hn g' (List.mem_cons_of_mem _ hg'), hext.frame n hne]
    · intro n hn
      obtain hn | ⟨g', hg'⟩ := hpushed n hn
      · obtain hn | rfl := hext.pushed n hn
        · exact .inl hn
        · exact .inr ⟨g, List.mem_cons_self ..⟩
      · exact .inr ⟨g', List.mem_cons_of_mem _ hg'⟩
    · intro m' g' hmem'
      obtain heq | hmem' := List.mem_cons.mp hmem'
      · cases heq
        obtain ⟨y, hy, hgy⟩ := hext.arrived
        obtain ⟨z, hz, hyz⟩ := hle _ y hy
        exact ⟨z, hz, trans_of (Frame.Le I) hgy hyz⟩
      · exact harrived m' g' hmem'

end

/-- What falling into `dest` leaves: `dest` installed, or taken up by the walk itself. -/
structure Entered (merge : List ℕ) (w w' : Worklist V) (G' : Assignment (Frame V)) (dest : ℕ) (g : Frame V)
    (next : Option ℕ) : Prop where
  only : ∀ d, next = some d → d = dest
  single : next.isSome → dest ∉ merge
  state : next.isSome → G' dest = some g
  unqueued : next.isSome → w'.queued dest = false
  new : next.isSome → w'.known dest ≠ w.known dest ∨ w.known dest = none

theorem entered_none {dest : ℕ} {g : Frame V} : Entered merge w w' G' dest g none :=
  ⟨by simp, by simp, by simp, by simp, by simp⟩

/-- Marking a node touches its entry alone, which records nothing. -/
theorem markReached_spec (w : Worklist V) (dest : ℕ) :
    (w.markReached dest).count = w.count ∧ (w.markReached dest).mergeNodes = w.mergeNodes ∧
      (w.markReached dest).fastMerge = w.fastMerge ∧ (w.markReached dest).queue = w.queue ∧
      (w.markReached dest).queued = w.queued ∧ ∀ n, (w.markReached dest).known n = w.known n := by
  unfold Worklist.markReached
  cases hd : w.frames dest with
  | unreached =>
    refine ⟨rfl, rfl, rfl, rfl, rfl, ?_⟩
    intro n
    by_cases hn : n = dest
    · simp [Worklist.known, hn, hd]
    · simp [Worklist.known, Function.update_of_ne hn]
  | reached => exact ⟨rfl, rfl, rfl, rfl, rfl, fun _ => rfl⟩
  | recorded locals stack => exact ⟨rfl, rfl, rfl, rfl, rfl, fun _ => rfl⟩

theorem Progress.markReached (hlat : I.Lattice) (w : Worklist V) (dest : ℕ) :
    Progress I w (w.markReached dest) := by
  have := hlat.isPartialOrder
  obtain ⟨hcount, hnodes, hfast, hqueue, -, hknown⟩ := markReached_spec w dest
  refine ⟨hcount, hnodes, hfast, ?_, ?_, fun _ => hqueue⟩
  · rw [hqueue]
    exact fun _ hn => hn
  · intro n
    rw [hknown]
    exact (Progress.refl w).raised n

variable [DecidableEq V]

theorem installUnqueued_cases (w : Worklist V) (dest : ℕ) (g : Frame V) :
    (w.frames dest = .recorded g.locals g.stack ∧ w.installUnqueued dest g = (w, false)) ∨
      (w.frames dest ≠ .recorded g.locals g.stack ∧ w.installUnqueued dest g = (w.record dest g, true)) := by
  unfold Worklist.installUnqueued Worklist.replace
  cases w.frames dest with
  | recorded locals stack =>
    by_cases heq : locals = g.locals ∧ stack = g.stack
    · exact .inl ⟨by rw [heq.1, heq.2], by simp [heq]⟩
    · refine .inr ⟨?_, by simp [heq]⟩
      intro h
      cases h
      exact heq ⟨rfl, rfl⟩
  | unreached => exact .inr ⟨by simp, rfl⟩
  | reached => exact .inr ⟨by simp, rfl⟩

/-- Control falls into `dest` with the frame `g`. -/
theorem Holds.entered {method : MethodNode} {keepNode : ℕ → Node → Bool} {dest : ℕ} {g : Frame V}
    (hlat : I.Lattice) (hchain : Chained P merge)
    (h : Holds P merge (kept method keepNode) w G pending) (hc : G c = some x) (hes : P.out c x = some es)
    (hmem : (dest, g) ∈ es) :
    (∃ e, fallInto method I keepNode w c dest g = .error (.error e) ∧ ∀ s, ¬ Closed P s) ∨
      ∃ w' next G', fallInto method I keepNode w c dest g = .ok (w', next) ∧
        Holds P merge (kept method keepNode) w' G' (fun n => pending n ∨ next = some n) ∧
        Extended I w w' G G' dest g ∧ Entered merge w w' G' dest g next := by
  have := hlat.isPartialOrder
  have ha := h.arrival hlat hchain hc hes hmem
  by_cases hcont : w.continuesTo dest
  · have hcond := hcont
    simp only [Worklist.continuesTo, Bool.and_eq_true, decide_eq_true_eq, Bool.not_eq_true'] at hcond
    obtain ⟨⟨⟨-, hlt⟩, hmerge⟩, hq⟩ := hcond
    rw [h.count] at hlt
    rw [h.mergeNodes] at hmerge
    have hrise : ∀ y, G dest = some y → Frame.Le I y g := fun y hy => h.known.rises ha hmerge hy
    -- the walk takes `dest` up itself, with `g` recorded there
    have hrecord : w.frames dest ≠ .recorded g.locals g.stack →
        Holds P merge (kept method keepNode) (w.record dest g) (Function.update G dest (some g))
          (fun n => pending n ∨ some dest = some n) ∧
        Extended I w (w.record dest g) G (Function.update G dest (some g)) dest g ∧
        Entered merge w (w.record dest g) (Function.update G dest (some g)) dest g (some dest) := by
      intro hdiff
      refine ⟨h.take hlat ha hlt hmerge rfl rfl rfl rfl (h.stores.record ha.returnValue), ?_, ?_⟩
      · exact ⟨.record w (h.knownLe hrise), le_update hrise, fun n hn => Function.update_of_ne hn ..,
          ⟨g, Function.update_self .., refl_of (Frame.Le I) g⟩, fun n hn => .inl hn⟩
      · refine ⟨fun d hd => (Option.some.inj hd).symm, fun _ => hmerge, fun _ => Function.update_self ..,
          fun _ => hq, fun _ => ?_⟩
        left
        rw [known_record, if_pos rfl]
        intro heq
        unfold Worklist.known at heq
        split at heq
        · rename_i locals stack hd
          cases heq
          exact hdiff hd
        · cases heq
    by_cases hrec : w.isRecorded dest || kept method keepNode dest
    · obtain ⟨hd, hsame⟩ | ⟨hdiff, hsame⟩ := installUnqueued_cases w dest g
      · have hg : G dest = some g := by
          rw [h.stores.recorded dest _ _ hd, ← ha.returnValue]
        refine .inr ⟨w, none, G, by simp [fallInto, hcont, hrec, hsame], ?_, ?_, entered_none⟩
        · exact h.mono fun n f _ hn => .inl (.inl hn)
        · refine ⟨.refl w, ?_, fun _ _ => rfl, ⟨g, hg, refl_of (Frame.Le I) g⟩, fun n hn => .inl hn⟩
          exact fun n f hf => ⟨f, hf, refl_of (Frame.Le I) f⟩
      · obtain ⟨h₁, h₂, h₃⟩ := hrecord hdiff
        exact .inr ⟨w.record dest g, some dest, _, by simp [fallInto, hcont, hrec, hsame], h₁, h₂, h₃⟩
    · have hnew : w.isRecorded dest = false ∧ kept method keepNode dest = false := by
        simpa [Bool.or_eq_true, not_or] using hrec
      have hprogress := Progress.markReached hlat w dest
      obtain ⟨-, -, -, hqueue, hqueued, -⟩ := markReached_spec w dest
      refine .inr ⟨w.markReached dest, some dest, Function.update G dest (some g), by
        simp [fallInto, hcont, hnew], ?_, ?_, ?_⟩
      · apply h.take hlat ha hlt hmerge hprogress.count hprogress.mergeNodes hprogress.fastMerge hqueue
        exact h.stores.markReached hnew.2 (h.mergeNodes ▸ hmerge) hnew.1
      · refine ⟨hprogress, le_update hrise, fun n hn => Function.update_of_ne hn ..,
          ⟨g, Function.update_self .., refl_of (Frame.Le I) g⟩, ?_⟩
        rw [hqueue]
        exact fun n hn => .inl hn
      · refine ⟨fun d hd => (Option.some.inj hd).symm, fun _ => hmerge, fun _ => Function.update_self ..,
          fun _ => ?_, fun _ => .inr ?_⟩
        · rw [hqueued, hq]
        · have hno := hnew.1
          unfold Worklist.isRecorded at hno
          unfold Worklist.known
          split
          · rename_i locals stack hd
            rw [hd] at hno
            cases hno
          · rfl
  · have hgo : fallInto method I keepNode w c dest g =
        (do let w ← w.install I c dest g; return (w, none)) := by
      simp [fallInto, hcont]
    rw [hgo]
    obtain ⟨e, he, hnone⟩ | ⟨w', G', hok, h', hext⟩ := h.install hlat c ha
    · refine .inl ⟨e, ?_, hnone⟩
      rw [he]
      rfl
    · refine .inr ⟨w', none, G', ?_, h'.mono fun n f _ hn => .inl (.inl hn), hext, ?_⟩
      · rw [hok]
        rfl
      · exact entered_none

end Edges

/-- Where falling through leaves the walk. -/
theorem Holds.goOn [DecidableEq V] {method : MethodNode} {keepNode : ℕ → Node → Bool} {c : ℕ}
    {x after : Frame V} {es : List (ℕ × Frame V)} {fall : Option ℕ} (hlat : I.Lattice)
    (hchain : Chained P merge) (h : Holds P merge (kept method keepNode) w G pending) (hc : G c = some x)
    (hes : P.out c x = some es) (hfall : ∀ m, fall = some m → (m, after) ∈ es) :
    (∃ e, goOn method I keepNode w c fall after = .error (.error e) ∧ ∀ s, ¬ Closed P s) ∨
      ∃ w' next G', goOn method I keepNode w c fall after = .ok (w', next) ∧
        Holds P merge (kept method keepNode) w' G' (fun n => pending n ∨ next = some n) ∧
        Progress I w w' ∧ G.Le (Frame.Le I) G' ∧ G' c = some x ∧
        (∀ m, fall = some m → ∃ y, G' m = some y ∧ Frame.Le I after y) ∧
        ∀ d, next = some d → fall = some d ∧ d ∉ merge ∧ G' d = some after ∧ w'.queued d = false ∧
          (w'.known d ≠ w.known d ∨ w.known d = none) := by
  have := hlat.isPartialOrder
  cases fall with
  | none =>
    refine .inr ⟨w, none, G, rfl, h.mono fun n f _ hn => .inl (.inl hn), .refl w, ?_, hc, by simp, by simp⟩
    exact fun n f hf => ⟨f, hf, refl_of (Frame.Le I) f⟩
  | some dest =>
    have hdest := hfall dest rfl
    obtain ⟨e, he, hnone⟩ | ⟨w', next, G', hok, h', hext, hentered⟩ := h.entered hlat hchain hc hes hdest
    · exact .inl ⟨e, he, hnone⟩
    refine .inr ⟨w', next, G', hok, h', hext.progress, hext.le, ?_, ?_, ?_⟩
    · rw [hext.frame c (hchain.apart c x es dest after hes hdest).symm, hc]
    · intro m hm
      cases hm
      exact hext.arrived
    · intro d hd
      have hsome : next.isSome := by
        rw [hd]
        rfl
      obtain rfl := hentered.only d hd
      exact ⟨rfl, hentered.single hsome, hentered.state hsome, hentered.unqueued hsome, hentered.new hsome⟩

/-- A frame new between two moments of the walk is new over any longer stretch of it. -/
theorem Progress.new [IsPartialOrder (Frame V) (Frame.Le I)] {w₀ w₁ w₂ w₃ : Worklist V} {d : ℕ}
    (h₁ : Progress I w₀ w₁) (h₂ : Progress I w₁ w₂) (h₃ : Progress I w₂ w₃)
    (hnew : w₂.known d ≠ w₁.known d ∨ w₁.known d = none) : w₃.known d ≠ w₀.known d ∨ w₀.known d = none := by
  obtain hne | hnone := hnew
  · left
    intro heq
    have hback : OptionLe (Frame.Le I) (w₂.known d) (w₁.known d) := by
      have hlow := h₃.raised d
      rw [heq] at hlow
      exact optionLe_trans hlow (h₁.raised d)
    exact hne (optionLe_antisymm hback (h₂.raised d))
  · right
    have hlow := h₁.raised d
    rw [hnone] at hlow
    cases hk : w₀.known d with
    | none => rfl
    | some x =>
      rw [hk] at hlow
      cases hlow

/-- The walk between two steps: the node it is at, if any, is yet to be left. -/
structure HoldsWalk (P : Problem (Frame V) (Frame.Le I)) (merge : List ℕ) (keep : ℕ → Bool)
    (walk : Walk V) (G : Assignment (Frame V)) : Prop where
  holds : Holds P merge keep walk.work G fun n => walk.index = some n
  returnValue : walk.scratch.returnValue = P.entry.returnValue
  state : ∀ n, walk.index = some n → G n = some walk.scratch

/-- A node the walk may go on to after the one it leaves, unless the queue has something below it. -/
structure Onward (w₀ w : Worklist V) (G : Assignment (Frame V)) (scratch : Frame V) (next : Option ℕ) :
    Prop where
  state : ∀ d, next = some d → G d = some scratch
  unqueued : ∀ d, next = some d → w.queued d = false
  new : ∀ d, next = some d → w.known d ≠ w₀.known d ∨ w₀.known d = none

/-- A node held back is queued instead. -/
theorem Holds.enqueue {d : ℕ} (h : Holds P merge keep w G pending) (hrec : w.isRecorded d = true)
    (hnot : w.queued d = false) (hp : ∀ n, pending n → n = d) :
    Holds P merge keep (w.enqueue d) G fun n => (none : Option ℕ) = some n where
  count := h.count
  mergeNodes := h.mergeNodes
  fastMerge := h.fastMerge
  stores := h.stores.enqueue hrec hnot
  known := {
    inRange := h.known.inRange
    locals := h.known.locals
    returnValue := h.known.returnValue
    tracked := h.known.tracked
    below := h.known.below
    propagated := by
      intro n f hf
      rw [Worklist.enqueue, Queue.items_push, List.mem_cons]
      obtain (hq | hn) | hdone := h.known.propagated n f hf
      · exact .inl (.inl (.inr hq))
      · exact .inl (.inl (.inl (hp n hn)))
      · exact .inr hdone }

/-- Recording the frame a node is known to have. -/
theorem Holds.recordKnown {d : ℕ} {f : Frame V} (h : Holds P merge keep w G pending) (hd : G d = some f) :
    Holds P merge keep (w.record d f) G pending where
  count := h.count
  mergeNodes := h.mergeNodes
  fastMerge := h.fastMerge
  stores := by
    have hstores : Stores P.entry.returnValue keep (w.record d f) (Function.update G d (some f)) :=
      h.stores.record (h.known.returnValue d f hd)
    rwa [← hd, Function.update_eq_self] at hstores
  known := h.known

theorem HoldsWalk.advance {w₀ : Worklist V} {scratch : Frame V} {next : Option ℕ} (hlat : I.Lattice)
    (h : Holds P merge keep w G fun n => next = some n) (hprogress : Progress I w₀ w)
    (hrv : scratch.returnValue = P.entry.returnValue) (honward : Onward w₀ w G scratch next) :
    HoldsWalk P merge keep (advance w scratch next) G ∧ Progress I w₀ (advance w scratch next).work ∧
      ∀ n, (advance w scratch next).index = some n → next = some n := by
  have := hlat.isPartialOrder
  unfold BytecodePasses.advance
  cases next with
  | none => exact ⟨⟨h, hrv, by simp⟩, hprogress, by simp⟩
  | some d =>
    have hG := honward.state d rfl
    simp only
    split
    · refine ⟨⟨h, hrv, ?_⟩, hprogress, fun n hn => hn⟩
      intro n hn
      exact honward.state n hn
    -- queued instead: its frame is recorded and new since `w₀`
    have hqueue : ∀ w₁ : Worklist V, Holds P merge keep w₁ G (fun n => some d = some n) →
        Progress I w₀ w₁ → w₁.queued d = false → w₁.isRecorded d = true →
        (w₁.known d ≠ w₀.known d) → HoldsWalk P merge keep ⟨w₁.enqueue d, scratch, none⟩ G ∧
          Progress I w₀ (w₁.enqueue d) := by
      intro w₁ h₁ hp₁ hq₁ hrec₁ hnew₁
      refine ⟨⟨h₁.enqueue hrec₁ hq₁ fun n hn => (Option.some.inj hn).symm, hrv, by simp⟩, ?_⟩
      exact hp₁.enqueue hnew₁
    by_cases hrec : w.isRecorded d = true
    · have hnew : w.known d ≠ w₀.known d := by
        obtain hne | hnone := honward.new d rfl
        · exact hne
        · obtain ⟨locals, stack, hd⟩ := isRecorded_iff.mp hrec
          rw [hnone, Worklist.known, hd]
          simp
      obtain ⟨hw, hp⟩ := hqueue w h hprogress (honward.unqueued d rfl) hrec hnew
      simp only [hrec, if_true]
      exact ⟨hw, hp, by simp⟩
    · have hknown : w.known d = none := by
        unfold Worklist.isRecorded at hrec
        unfold Worklist.known
        cases hd : w.frames d <;> simp_all
      have hrise : ∀ x, w.known d = some x → Frame.Le I x ⟨scratch.locals, scratch.stack, none⟩ := by
        simp [hknown]
      have hnone : w₀.known d = none := by
        have hraised := hprogress.raised d
        rw [hknown] at hraised
        cases hk : w₀.known d with
        | none => rfl
        | some x =>
          rw [hk] at hraised
          cases hraised
      obtain ⟨hw, hp⟩ := hqueue (w.record d scratch) (h.recordKnown hG)
        (hprogress.trans (.record w hrise)) (honward.unqueued d rfl)
        (isRecorded_iff.mpr ⟨_, _, Function.update_self ..⟩) (by
          rw [known_record, if_pos rfl, hnone]
          simp)
      simp only [hrec]
      exact ⟨hw, hp, by simp⟩

/-- A node taken off the queue. -/
theorem HoldsWalk.pop {scratch : Frame V} {head : ℕ} {rest : Queue} {locals stack : List V}
    (h : HoldsWalk P merge keep ⟨w, scratch, none⟩ G) (hpop : w.queue.pop = some (head, rest))
    (hrec : w.frames head = .recorded locals stack) :
    HoldsWalk P merge keep ⟨{ w with queue := rest, queued := Function.update w.queued head false },
      { scratch with locals, stack }, some head⟩ G := by
  have hperm := Queue.pop_some hpop
  have hnodup := hperm.nodup_iff.mp h.holds.stores.nodup
  have hmem : ∀ n, n ∈ w.queue.items ↔ n = head ∨ n ∈ rest.items := by
    intro n
    rw [hperm.mem_iff, List.mem_cons]
  have hG : G head = some ⟨locals, stack, P.entry.returnValue⟩ := h.holds.stores.recorded head _ _ hrec
  refine ⟨⟨h.holds.count, h.holds.mergeNodes, h.holds.fastMerge, ?_, ?_⟩, h.returnValue, ?_⟩
  · refine ⟨h.holds.stores.unreached, h.holds.stores.reached, h.holds.stores.recorded,
      (List.nodup_cons.mp hnodup).2, ?_, ?_⟩
    · intro n
      change Function.update w.queued head false n = true ↔ n ∈ rest.items
      by_cases hn : n = head
      · rw [hn, Function.update_self]
        simp [(List.nodup_cons.mp hnodup).1]
      · rw [Function.update_of_ne hn, h.holds.stores.queued, hmem]
        simp [hn]
    · intro n hn
      exact h.holds.stores.queue_recorded n ((hmem n).mpr (.inr hn))
  · refine ⟨h.holds.known.inRange, h.holds.known.locals, h.holds.known.returnValue, ?_,
      h.holds.known.tracked, h.holds.known.below⟩
    intro n f hf
    obtain (hq | hn) | hdone := h.holds.known.propagated n f hf
    · obtain rfl | hq := (hmem n).mp hq
      · exact .inl (.inr rfl)
      · exact .inl (.inl hq)
    · cases hn
    · exact .inr hdone
  · intro n hn
    cases hn
    rw [hG, ← h.returnValue]

/-- The flow a walk with `options` follows. -/
def walked (method : MethodNode) (options : AnalyzerOptions) (ranges : List Range) {execute : Executor V}
    (hlat : I.Lattice) (hexec : execute.Monotone I) (entry : Frame V) : Problem (Frame V) (Frame.Le I) :=
  flowVia method I execute (fedHandlers method options ranges) hlat hexec entry

section Walking

variable [DecidableEq V] {method : MethodNode} {options : AnalyzerOptions} {ranges : List Range}
  {execute : Executor V} {keepNode : ℕ → Node → Bool} {entry : Frame V} (hlat : I.Lattice)
  (hexec : execute.Monotone I) (hmerge : mergeNodes method = some merge)
  (hranges : method.tryCatchBlocks.mapM (rangeOf method options) = some ranges)
  (hfast : options.fastHandlers = false)

include hlat hexec hmerge hranges hfast

/-- One node visited: the walk goes on with more learned, or the flow has no solution. -/
theorem HoldsWalk.visit {index : ℕ} {before : Frame V}
    (h : HoldsWalk (walked method options ranges hlat hexec entry) merge (kept method keepNode)
      ⟨w, before, some index⟩ G) :
    (∃ e, visit method options I execute keepNode ranges w index before = .error (.error e) ∧
        ∀ s, ¬ Closed (walked method options ranges hlat hexec entry) s) ∨
      ∃ walk G', visit method options I execute keepNode ranges w index before = .ok walk ∧
        HoldsWalk (walked method options ranges hlat hexec entry) merge (kept method keepNode) walk G' ∧
        Progress I w walk.work ∧ (∀ n, walk.index = some n → n = index + 1) ∧ G.Le (Frame.Le I) G' := by
  have := hlat.isPartialOrder
  have hchain := chained_flowVia hlat hexec entry hmerge hranges (fedHandlers_subset hfast)
  have hG := h.state index rfl
  have hlt : index < method.nodes.length := h.holds.known.inRange index before hG
  unfold BytecodePasses.visit
  obtain ⟨e, hleave, hnone⟩ | ⟨after, fall, targets, hleave, htransfer, hnext⟩ :=
    leave_spec execute hmerge hlt before
  · left
    refine ⟨e, by rw [hleave]; rfl, ?_⟩
    intro s hs
    obtain ⟨y, hy, hle⟩ := h.holds.known.below s hs index before hG
    obtain ⟨es, hes, -⟩ := hs.edge hy hle
    have hout : (walked method options ranges hlat hexec entry).out index before = none := by
      simp [walked, flowVia, edgesVia, hnone]
    rw [hout] at hes
    cases hes
  obtain ⟨es, hes⟩ : ∃ es, (walked method options ranges hlat hexec entry).out index before = some es :=
    Option.isSome_iff_exists.mp (by simp [walked, flowVia, edgesVia, htransfer])
  have hmem : ∀ m g, (m, g) ∈ es ↔ (m ∈ nextNodes method index ∧ g = after) ∨
      (m, g) ∈ handlerEdges method options I ranges index before := by
    intro m g
    rw [mem_edgesVia method I execute hes, mem_handlerEdges, htransfer, Option.some.injEq, eq_comm]
  have hafter : ∀ m, m ∈ targets ∨ fall = some m → (m, after) ∈ es := by
    intro m hm
    exact (hmem m after).mpr (.inl ⟨(hnext m).mpr hm, rfl⟩)
  have hrv : after.returnValue = entry.returnValue :=
    (transfer_shape method I execute hexec htransfer).2.trans
      (h.holds.known.returnValue index before hG)
  -- the edges where control goes on without falling through in line
  obtain ⟨e, he, hnone⟩ | ⟨w₁, G₁, hok₁, h₁, hp₁, hle₁, hframe₁, -, harrived₁⟩ :=
    h.holds.installAll hlat hchain (targets.map fun target => (target, after)) (by
      intro edge hedge
      obtain ⟨m, hm, rfl⟩ := List.mem_map.mp hedge
      exact hafter m (.inl hm)) hes hG
  · exact .inl ⟨e, by rw [hleave]; simp only [bind, Except.bind, he], hnone⟩
  have hG₁ : G₁ index = some before := by
    rw [hframe₁ index, hG]
    intro g hg
    obtain ⟨m, hm, heq⟩ := List.mem_map.mp hg
    cases heq
    exact hchain.apart index before es index after hes (hafter index (.inl hm)) rfl
  obtain ⟨e, he, hnone⟩ | ⟨w₂, next, G₂, hok₂, h₂, hp₂, hle₂, hG₂, harrived₂, honward⟩ :=
    h₁.goOn hlat hchain hG₁ hes fun m hm => hafter m (.inr hm)
  · exact .inl ⟨e, by rw [hleave]; simp only [bind, Except.bind, hok₁, he], hnone⟩
  -- the handlers see the frame before the node
  obtain ⟨e, he, hnone⟩ | ⟨w₃, G₃, hok₃, h₃, hp₃, hle₃, hframe₃, hpushed₃, harrived₃⟩ :=
    h₂.installAll hlat hchain (handlerEdges method options I ranges index before) (by
      rintro ⟨m, g⟩ hedge
      exact (hmem m g).mpr (.inr hedge)) hes hG₂
  · exact .inl ⟨e, by rw [hleave]; simp only [bind, Except.bind, hok₁, hok₂, he], hnone⟩
  have hhandler : ∀ m g, (m, g) ∈ handlerEdges method options I ranges index before → m ∈ merge := by
    intro m g hm
    obtain ⟨catchType, hm, -⟩ := mem_handlerEdges.mp hm
    obtain ⟨range, hrange, rfl, -⟩ := mem_handlersOf (fedHandlers_subset hfast index hm)
    exact (handler_mem_merge hmerge hranges hrange).1
  have hdone : Propagated (walked method options ranges hlat hexec entry) G₃ index before := by
    refine ⟨es, hes, ?_⟩
    intro m g hedge
    obtain ⟨hm, rfl⟩ | hm := (hmem m g).mp hedge
    · obtain hm | hm := (hnext m).mp hm
      · obtain ⟨y, hy, hgy⟩ := harrived₁ m g (List.mem_map.mpr ⟨m, hm, rfl⟩)
        obtain ⟨z, hz, hyz⟩ := hle₂ m y hy
        obtain ⟨u, hu, hzu⟩ := hle₃ m z hz
        exact ⟨u, hu, trans_of (Frame.Le I) hgy (trans_of (Frame.Le I) hyz hzu)⟩
      · obtain ⟨y, hy, hgy⟩ := harrived₂ m hm
        obtain ⟨z, hz, hyz⟩ := hle₃ m y hy
        exact ⟨z, hz, trans_of (Frame.Le I) hgy hyz⟩
    · exact harrived₃ m g hm
  have hG₃ : G₃ index = some before := by
    rw [hframe₃ index, hG₂]
    intro g hg
    exact hchain.apart index before es index g hes ((hmem index g).mpr (.inr hg)) rfl
  have hleft : Holds (walked method options ranges hlat hexec entry) merge (kept method keepNode) w₃ G₃
      fun n => next = some n := by
    apply h₃.mono
    rintro n f hf (hn | hn)
    · cases hn
      rw [hG₃] at hf
      cases hf
      exact .inr (.inr hdone)
    · exact .inl hn
  have hwalk : Onward w w₃ G₃ after next := by
    constructor
    · intro d hd
      obtain ⟨-, hno, hstate, -⟩ := honward d hd
      rw [hframe₃ d fun g hg => hno (hhandler d g hg), hstate]
    · intro d hd
      obtain ⟨-, hno, -, hq, -⟩ := honward d hd
      rw [← Bool.not_eq_true, h₃.stores.queued]
      intro hin
      obtain hin | ⟨g, hg⟩ := hpushed₃ d hin
      · rw [(h₂.stores.queued d).mpr hin] at hq
        cases hq
      · exact hno (hhandler d g hg)
    · intro d hd
      obtain ⟨-, -, -, -, hnew⟩ := honward d hd
      exact hp₁.new hp₂ hp₃ hnew
  obtain ⟨hfinal, hprogress, hindex⟩ :=
    HoldsWalk.advance hlat hleft ((hp₁.trans hp₂).trans hp₃) hrv hwalk
  refine .inr ⟨_, G₃, ?_, hfinal, hprogress, ?_, (hle₁.trans hle₂).trans hle₃⟩
  · rw [hleave]
    simp only [bind, Except.bind, hok₁, hok₂, hok₃]
    rfl
  · intro n hn
    obtain ⟨hfall, hno, -⟩ := honward n (hindex n hn)
    exact (hchain.single index before es n after hes (hafter n (.inr hfall)) hno).1

end Walking

end Krusty.Jvm.BytecodePasses
