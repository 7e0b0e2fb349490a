import Krusty.Jvm.BytecodePasses.Analysis.FrameOrder

/-! What the walk's store and queue say about a flow while it runs. -/
namespace Krusty.Jvm.BytecodePasses

open Ascending Dataflow

section Queue

theorem Queue.items_push (index : ℕ) (queue : Queue) : (queue.push index).items = index :: queue.items := by
  cases queue <;> rfl

theorem Queue.items_new (inIndexOrder : Bool) : (Queue.new inIndexOrder).items = [] := by
  cases inIndexOrder <;> rfl

theorem Queue.pop_none {queue : Queue} (h : queue.pop = none) : queue.items = [] := by
  cases queue with
  | stack items =>
    cases items with
    | nil => rfl
    | cons index items => cases h
  | ordered items =>
    unfold Queue.pop at h
    rw [Option.map_eq_none_iff, List.min?_eq_none_iff] at h
    exact h

theorem Queue.pop_some {queue rest : Queue} {index : ℕ} (h : queue.pop = some (index, rest)) :
    List.Perm queue.items (index :: rest.items) := by
  cases queue with
  | stack items =>
    cases items with
    | nil => cases h
    | cons head items =>
      cases h
      rfl
  | ordered items =>
    unfold Queue.pop at h
    obtain ⟨head, hmin, heq⟩ := Option.map_eq_some_iff.mp h
    cases heq
    exact List.perm_cons_erase (List.min?_mem hmin)

end Queue

variable {V : Type} {I : Interpreter V}

/-- A state brought to `dest` by an edge of the flow as `G` knows it, or the entry state. A node outside
`merge` is reached by one edge only. -/
structure Arrival (P : Problem (Frame V) (Frame.Le I)) (merge : List ℕ) (G : Assignment (Frame V))
    (dest : ℕ) (g : Frame V) : Prop where
  locals : g.locals.length = P.entry.locals.length
  returnValue : g.returnValue = P.entry.returnValue
  below : ∀ s, Closed P s → ∃ h, s dest = some h ∧ Frame.Le I g h
  source : dest ∉ merge → (dest = 0 ∧ g = P.entry) ∨
    ∃ k x es, dest = k + 1 ∧ G k = some x ∧ P.out k x = some es ∧ (dest, g) ∈ es ∧
      ∀ g', (dest, g') ∈ es → g' = g

/-- Everything that leaves `n` in state `f` has arrived. -/
def Propagated (P : Problem (Frame V) (Frame.Le I)) (G : Assignment (Frame V)) (n : ℕ) (f : Frame V) :
    Prop :=
  ∃ es, P.out n f = some es ∧ ∀ m g, (m, g) ∈ es → ∃ h, G m = some h ∧ Frame.Le I g h

/-- The state of a node with one incoming edge came over it, from a state since raised. -/
def Tracked (P : Problem (Frame V) (Frame.Le I)) (G : Assignment (Frame V)) (n : ℕ) (f : Frame V) : Prop :=
  (n = 0 ∧ f = P.entry) ∨
    ∃ k x low es, n = k + 1 ∧ G k = some x ∧ Frame.Le I low x ∧ P.out k low = some es ∧ (n, f) ∈ es

/-- What the walk has learned: `G` is the last frame each reached node was walked with, and every node
but those `waiting` has been left with it. -/
structure Known (P : Problem (Frame V) (Frame.Le I)) (merge : List ℕ) (G : Assignment (Frame V))
    (waiting : ℕ → Prop) : Prop where
  inRange : ∀ n f, G n = some f → n < P.count
  locals : ∀ n f, G n = some f → f.locals.length = P.entry.locals.length
  returnValue : ∀ n f, G n = some f → f.returnValue = P.entry.returnValue
  propagated : ∀ n f, G n = some f → waiting n ∨ Propagated P G n f
  tracked : ∀ n f, n ∉ merge → G n = some f → Tracked P G n f
  below : ∀ s, Closed P s → G.Le (Frame.Le I) s

/-- The store and the queue hold what has been learned. -/
structure Stores (rv : Option V) (keep : ℕ → Bool) (w : Worklist V) (G : Assignment (Frame V)) :
    Prop where
  unreached : ∀ n, w.frames n = .unreached → G n = none
  reached : ∀ n, w.frames n = .reached → (G n).isSome ∧ keep n = false ∧ n ∉ w.mergeNodes
  recorded : ∀ n locals stack, w.frames n = .recorded locals stack → G n = some ⟨locals, stack, rv⟩
  nodup : w.queue.items.Nodup
  queued : ∀ n, w.queued n = true ↔ n ∈ w.queue.items
  queue_recorded : ∀ n ∈ w.queue.items, w.isRecorded n = true

/-- The frame recorded before a node; the store does not keep the return value. -/
def Worklist.known (w : Worklist V) (n : ℕ) : Option (Frame V) :=
  match w.frames n with
  | .recorded locals stack => some ⟨locals, stack, none⟩
  | _ => none

/-- From `w` on to `w'`, recorded frames only rise, and nothing is queued without one rising. -/
structure Progress (I : Interpreter V) (w w' : Worklist V) : Prop where
  count : w'.count = w.count
  mergeNodes : w'.mergeNodes = w.mergeNodes
  fastMerge : w'.fastMerge = w.fastMerge
  grown : ∀ n ∈ w.queue.items, n ∈ w'.queue.items
  raised : ∀ n, OptionLe (Frame.Le I) (w.known n) (w'.known n)
  still : (∀ n, w'.known n = w.known n) → w'.queue = w.queue

section Learning

variable {P : Problem (Frame V) (Frame.Le I)} {merge : List ℕ} {G G' : Assignment (Frame V)}
  {waiting waiting' : ℕ → Prop} {dest n : ℕ} {f g : Frame V} [IsPartialOrder (Frame V) (Frame.Le I)]

theorem Propagated.mono (hG : G.Le (Frame.Le I) G') (h : Propagated P G n f) : Propagated P G' n f := by
  obtain ⟨es, hes, hall⟩ := h
  refine ⟨es, hes, ?_⟩
  intro m x hmem
  obtain ⟨y, hy, hxy⟩ := hall m x hmem
  obtain ⟨z, hz, hyz⟩ := hG m y hy
  exact ⟨z, hz, trans_of (Frame.Le I) hxy hyz⟩

theorem Tracked.mono (hG : G.Le (Frame.Le I) G') (h : Tracked P G n f) : Tracked P G' n f := by
  obtain hentry | ⟨k, x, low, es, rfl, hk, hlow, hes, hmem⟩ := h
  · exact .inl hentry
  · obtain ⟨y, hy, hxy⟩ := hG k x hk
    exact .inr ⟨k, y, low, es, rfl, hy, trans_of (Frame.Le I) hlow hxy, hes, hmem⟩

theorem le_update (hrise : ∀ x, G dest = some x → Frame.Le I x f) :
    G.Le (Frame.Le I) (Function.update G dest (some f)) := by
  intro n x hn
  by_cases hd : n = dest
  · subst hd
    exact ⟨f, Function.update_self .., hrise x hn⟩
  · exact ⟨x, by rw [Function.update_of_ne hd, hn], refl_of (Frame.Le I) x⟩

/-- At a node with one incoming edge, what arrives is above what the walk last knew there. -/
theorem Known.rises (h : Known P merge G waiting) (ha : Arrival P merge G dest g) (hmerge : dest ∉ merge)
    {x : Frame V} (hx : G dest = some x) : Frame.Le I x g := by
  obtain ⟨rfl, rfl⟩ | ⟨k, y, es, rfl, hk, hes, -, hone⟩ := ha.source hmerge
  · obtain ⟨-, rfl⟩ | ⟨k, -, -, -, hzero, -⟩ := h.tracked 0 x hmerge hx
    · exact refl_of (Frame.Le I) _
    · cases hzero
  · obtain ⟨hzero, -⟩ | ⟨k', z, low, low_es, hk', hz, hlow, hlow_es, hmem⟩ := h.tracked _ x hmerge hx
    · cases hzero
    · cases hk'
      rw [hk] at hz
      cases hz
      obtain ⟨g', hg', hle⟩ := edge_mono hlow hlow_es hes hmem
      rwa [hone g' hg'] at hle

/-- `dest` takes the frame `f`, `g` itself or its join with what was known: the rest still stands. -/
theorem Known.update (h : Known P merge G waiting) (ha : Arrival P merge G dest g) (hlt : dest < P.count)
    (hlocals : f.locals.length = P.entry.locals.length) (hrv : f.returnValue = P.entry.returnValue)
    (hrise : ∀ x, G dest = some x → Frame.Le I x f) (hone : dest ∉ merge → f = g)
    (hbelow : ∀ s, Closed P s → ∃ x, s dest = some x ∧ Frame.Le I f x)
    (hsub : ∀ n, waiting n → waiting' n) (hwait : waiting' dest ∨ G dest = some f) :
    Known P merge (Function.update G dest (some f)) waiting' := by
  have hG := le_update hrise
  have hcases : ∀ n x, Function.update G dest (some f) n = some x → (n = dest ∧ x = f) ∨ G n = some x := by
    intro n x hx
    by_cases hd : n = dest
    · subst hd
      rw [Function.update_self] at hx
      cases hx
      exact .inl ⟨rfl, rfl⟩
    · rw [Function.update_of_ne hd] at hx
      exact .inr hx
  constructor
  case inRange =>
    intro n x hx
    obtain ⟨rfl, -⟩ | hx := hcases n x hx
    · exact hlt
    · exact h.inRange n x hx
  case locals =>
    intro n x hx
    obtain ⟨-, rfl⟩ | hx := hcases n x hx
    · exact hlocals
    · exact h.locals n x hx
  case returnValue =>
    intro n x hx
    obtain ⟨-, rfl⟩ | hx := hcases n x hx
    · exact hrv
    · exact h.returnValue n x hx
  case propagated =>
    have hold : ∀ n x, G n = some x →
        waiting' n ∨ Propagated P (Function.update G dest (some f)) n x := by
      intro n x hx
      exact (h.propagated n x hx).imp (hsub n) (Propagated.mono hG)
    intro n x hx
    obtain ⟨rfl, rfl⟩ | hx := hcases n x hx
    · obtain hw | hx := hwait
      · exact .inl hw
      · exact hold _ _ hx
    · exact hold n x hx
  case tracked =>
    intro n x hn hx
    obtain ⟨rfl, rfl⟩ | hx := hcases n x hx
    · obtain hentry | ⟨k, y, es, rfl, hk, hes, hmem, -⟩ := ha.source hn
      · rw [hone hn]
        exact .inl hentry
      · refine Tracked.mono hG (.inr ⟨k, y, y, es, rfl, hk, refl_of (Frame.Le I) y, hes, ?_⟩)
        rwa [hone hn]
    · exact (h.tracked n x hn hx).mono hG
  case below =>
    intro s hs n x hx
    obtain ⟨rfl, rfl⟩ | hx := hcases n x hx
    · exact hbelow s hs
    · exact h.below s hs n x hx

end Learning

section Storing

variable {rv : Option V} {keep : ℕ → Bool} {w w' w'' : Worklist V} {G : Assignment (Frame V)} {dest : ℕ}
  {f : Frame V}

theorem isRecorded_iff {n : ℕ} : w.isRecorded n = true ↔ ∃ locals stack, w.frames n = .recorded locals stack := by
  unfold Worklist.isRecorded
  cases w.frames n <;> simp

theorem Stores.record (h : Stores rv keep w G) (hrv : f.returnValue = rv) :
    Stores rv keep (w.record dest f) (Function.update G dest (some f)) := by
  have hframes : ∀ n, n ≠ dest → (w.record dest f).frames n = w.frames n ∧
      Function.update G dest (some f) n = G n := by
    intro n hn
    exact ⟨Function.update_of_ne hn .., Function.update_of_ne hn ..⟩
  have hdest : (w.record dest f).frames dest = .recorded f.locals f.stack := Function.update_self ..
  constructor
  case unreached =>
    intro n hn
    by_cases hd : n = dest
    · rw [hd, hdest] at hn
      cases hn
    · rw [(hframes n hd).2]
      exact h.unreached n ((hframes n hd).1 ▸ hn)
  case reached =>
    intro n hn
    by_cases hd : n = dest
    · rw [hd, hdest] at hn
      cases hn
    · rw [(hframes n hd).2]
      exact h.reached n ((hframes n hd).1 ▸ hn)
  case recorded =>
    intro n locals stack hn
    by_cases hd : n = dest
    · rw [hd, hdest] at hn
      cases hn
      rw [hd, Function.update_self, ← hrv]
    · rw [(hframes n hd).2]
      exact h.recorded n locals stack ((hframes n hd).1 ▸ hn)
  case nodup => exact h.nodup
  case queued => exact h.queued
  case queue_recorded =>
    intro n hn
    by_cases hd : n = dest
    · rw [hd]
      exact isRecorded_iff.mpr ⟨_, _, hdest⟩
    · obtain ⟨locals, stack, hrec⟩ := isRecorded_iff.mp (h.queue_recorded n hn)
      exact isRecorded_iff.mpr ⟨locals, stack, (hframes n hd).1.trans hrec⟩

theorem Stores.markReached (h : Stores rv keep w G) (hkeep : keep dest = false)
    (hmerge : dest ∉ w.mergeNodes) (hnew : w.isRecorded dest = false) :
    Stores rv keep (w.markReached dest) (Function.update G dest (some f)) := by
  have hdest : (w.markReached dest).frames dest = .reached := by
    unfold Worklist.markReached Worklist.isRecorded at *
    cases hd : w.frames dest <;> simp_all
  have hframes : ∀ n, n ≠ dest → (w.markReached dest).frames n = w.frames n := by
    intro n hn
    unfold Worklist.markReached
    cases w.frames dest <;> simp [Function.update_of_ne hn]
  have hrest : (w.markReached dest).queue = w.queue ∧ (w.markReached dest).queued = w.queued ∧
      (w.markReached dest).mergeNodes = w.mergeNodes := by
    unfold Worklist.markReached
    cases w.frames dest <;> exact ⟨rfl, rfl, rfl⟩
  constructor
  case unreached =>
    intro n hn
    by_cases hd : n = dest
    · rw [hd, hdest] at hn
      cases hn
    · rw [Function.update_of_ne hd]
      exact h.unreached n (hframes n hd ▸ hn)
  case reached =>
    intro n hn
    rw [hrest.2.2]
    by_cases hd : n = dest
    · rw [hd, Function.update_self]
      exact ⟨rfl, hkeep, hmerge⟩
    · rw [Function.update_of_ne hd]
      exact h.reached n (hframes n hd ▸ hn)
  case recorded =>
    intro n locals stack hn
    by_cases hd : n = dest
    · rw [hd, hdest] at hn
      cases hn
    · rw [Function.update_of_ne hd]
      exact h.recorded n locals stack (hframes n hd ▸ hn)
  case nodup =>
    rw [hrest.1]
    exact h.nodup
  case queued =>
    rw [hrest.1, hrest.2.1]
    exact h.queued
  case queue_recorded =>
    rw [hrest.1]
    intro n hn
    obtain ⟨locals, stack, hrec⟩ := isRecorded_iff.mp (h.queue_recorded n hn)
    have hd : n ≠ dest := by
      rintro rfl
      rw [isRecorded_iff.mpr ⟨locals, stack, hrec⟩] at hnew
      cases hnew
    exact isRecorded_iff.mpr ⟨locals, stack, (hframes n hd).trans hrec⟩

theorem Stores.enqueue (h : Stores rv keep w G) (hrec : w.isRecorded dest = true)
    (hnot : w.queued dest = false) : Stores rv keep (w.enqueue dest) G where
  unreached := h.unreached
  reached := h.reached
  recorded := h.recorded
  nodup := by
    rw [Worklist.enqueue, Queue.items_push, List.nodup_cons]
    refine ⟨?_, h.nodup⟩
    intro hmem
    rw [(h.queued dest).mpr hmem] at hnot
    cases hnot
  queued := by
    intro n
    rw [Worklist.enqueue, Queue.items_push, List.mem_cons]
    by_cases hd : n = dest
    · simp [hd]
    · simp [hd, h.queued]
  queue_recorded := by
    intro n hn
    rw [Worklist.enqueue, Queue.items_push, List.mem_cons] at hn
    obtain rfl | hn := hn
    · exact hrec
    · exact h.queue_recorded n hn

end Storing

section Progressing

variable {w w' w'' : Worklist V} {dest : ℕ} {f : Frame V}

theorem Progress.enqueue (h : Progress I w w') (hnew : w'.known dest ≠ w.known dest) :
    Progress I w (w'.enqueue dest) where
  count := h.count
  mergeNodes := h.mergeNodes
  fastMerge := h.fastMerge
  grown := by
    intro n hn
    rw [Worklist.enqueue, Queue.items_push]
    exact List.mem_cons_of_mem _ (h.grown n hn)
  raised := h.raised
  still := fun hsame => absurd (hsame dest) hnew

theorem known_record (w : Worklist V) (n : ℕ) : (w.record dest f).known n =
    if n = dest then some ⟨f.locals, f.stack, none⟩ else w.known n := by
  unfold Worklist.known Worklist.record
  by_cases hd : n = dest
  · simp [hd]
  · simp [hd]

variable [IsPartialOrder (Frame V) (Frame.Le I)]

theorem optionLe_antisymm {a b : Option (Frame V)}
    (hab : OptionLe (Frame.Le I) a b) (hba : OptionLe (Frame.Le I) b a) : a = b := by
  cases a with
  | none =>
    cases b with
    | none => rfl
    | some _ => cases hba
  | some x =>
    cases b with
    | none => cases hab
    | some y => rw [antisymm_of (Frame.Le I) hab hba]

theorem optionLe_trans {a b c : Option (Frame V)} (hab : OptionLe (Frame.Le I) a b)
    (hbc : OptionLe (Frame.Le I) b c) : OptionLe (Frame.Le I) a c := by
  cases a with
  | none => trivial
  | some x =>
    cases b with
    | none => cases hab
    | some y =>
      cases c with
      | none => cases hbc
      | some z => exact trans_of (Frame.Le I) hab hbc

theorem Progress.refl (w : Worklist V) : Progress I w w where
  count := rfl
  mergeNodes := rfl
  fastMerge := rfl
  grown := fun _ h => h
  raised := by
    intro n
    cases w.known n with
    | none => trivial
    | some x => exact refl_of (Frame.Le I) x
  still := fun _ => rfl

theorem Progress.trans (h : Progress I w w') (h' : Progress I w' w'') : Progress I w w'' where
  count := h'.count.trans h.count
  mergeNodes := h'.mergeNodes.trans h.mergeNodes
  fastMerge := h'.fastMerge.trans h.fastMerge
  grown := fun n hn => h'.grown n (h.grown n hn)
  raised := fun n => optionLe_trans (h.raised n) (h'.raised n)
  still := by
    intro hsame
    have hmid : ∀ n, w'.known n = w.known n := by
      intro n
      apply optionLe_antisymm _ (h.raised n)
      rw [← hsame n]
      exact h'.raised n
    rw [h'.still fun n => (hsame n).trans (hmid n).symm, h.still hmid]

theorem Progress.record (w : Worklist V)
    (hrise : ∀ x, w.known dest = some x → Frame.Le I x ⟨f.locals, f.stack, none⟩) :
    Progress I w (w.record dest f) where
  count := rfl
  mergeNodes := rfl
  fastMerge := rfl
  grown := fun _ h => h
  raised := by
    intro n
    rw [known_record]
    split_ifs with hd
    · subst hd
      cases hk : w.known n with
      | none => trivial
      | some x => exact hrise x hk
    · exact (Progress.refl w).raised n
  still := fun _ => rfl

end Progressing

section Install

variable {w w' : Worklist V} {origin dest : ℕ} {g : Frame V}

theorem record_self {locals stack : List V} (h : w.frames dest = .recorded locals stack)
    {f : Frame V} (hl : f.locals = locals) (hs : f.stack = stack) : w.record dest f = w := by
  unfold Worklist.record
  rw [hl, hs, ← h, Function.update_eq_self]

/-- The frame installing leaves at `dest`, and whether that changes what is known there. -/
structure Installed (I : Interpreter V) (w : Worklist V) (dest : ℕ) (g f : Frame V) (changed : Bool) :
    Prop where
  same : changed = false → w.frames dest = .recorded f.locals f.stack
  new : changed = true → w.known dest ≠ some ⟨f.locals, f.stack, none⟩
  value : ((w.isRecorded dest = false ∨ dest ∉ w.mergeNodes) ∧ f = g) ∨
    ∃ locals stack, w.frames dest = .recorded locals stack ∧ dest ∈ w.mergeNodes ∧
      stack.length = g.stack.length ∧
      f = ⟨meetAll I.mergeLocal locals g.locals, meetAll I.mergeStack stack g.stack, g.returnValue⟩

variable [DecidableEq V]

/-- Installing records a frame at `dest` and queues it when it is new there; or the frame falls off the
end, or meets one of another height. -/
theorem install_cases (w : Worklist V) (origin dest : ℕ) (g : Frame V) (hfast : w.fastMerge = false) :
    (∃ e, w.install I origin dest g = .error (.error e) ∧ (w.count ≤ dest ∨
      ∃ locals stack, w.frames dest = .recorded locals stack ∧ stack.length ≠ g.stack.length)) ∨
    dest < w.count ∧ ∃ f changed, Installed I w dest g f changed ∧
      w.install I origin dest g =
        .ok (if changed && !w.queued dest then (w.record dest f).enqueue dest else w.record dest f) := by
  by_cases hlt : w.count ≤ dest
  · left
    refine ⟨⟨origin, "execution falls off the end of the method"⟩, ?_, .inl hlt⟩
    simp only [Worklist.install, hlt, if_true]
    rfl
  have hknown : w.isRecorded dest = false → w.known dest = none := by
    unfold Worklist.isRecorded Worklist.known
    cases w.frames dest <;> simp
  cases hd : w.frames dest with
  | recorded locals stack =>
    have hk : w.known dest = some ⟨locals, stack, none⟩ := by simp [Worklist.known, hd]
    by_cases hm : dest ∈ w.mergeNodes
    · by_cases hs : stack.length = g.stack.length
      · right
        refine ⟨not_le.mp hlt, ⟨meetAll I.mergeLocal locals g.locals, meetAll I.mergeStack stack g.stack,
          g.returnValue⟩, decide (meetAll I.mergeLocal locals g.locals ≠ locals) ||
          decide (meetAll I.mergeStack stack g.stack ≠ stack), ⟨?_, ?_, ?_⟩, ?_⟩
        · intro hc
          simp only [Bool.or_eq_false_iff, decide_eq_false_iff_not, not_not] at hc
          rw [hd, hc.1, hc.2]
        · intro hc heq
          rw [hk] at heq
          simp only [Option.some.injEq, Frame.mk.injEq, and_true] at heq
          rw [← heq.1, ← heq.2] at hc
          simp at hc
        · exact .inr ⟨locals, stack, hd, hm, hs, rfl⟩
        · simp only [Worklist.install, hlt, if_false, hd, hfast, hm, not_true_eq_false, Worklist.merge,
            hs, ne_eq, Bool.false_eq_true]
          rfl
      · left
        refine ⟨⟨dest, "incompatible stack heights"⟩, ?_, .inr ⟨locals, stack, rfl, hs⟩⟩
        simp only [Worklist.install, hlt, if_false, hd, hfast, hm, not_true_eq_false, Worklist.merge, hs,
          ne_eq, not_false_eq_true, if_true, Bool.false_eq_true]
        rfl
    · right
      refine ⟨not_le.mp hlt, g, decide ¬(locals = g.locals ∧ stack = g.stack), ⟨?_, ?_, ?_⟩, ?_⟩
      · intro hc
        simp only [decide_eq_false_iff_not, not_not] at hc
        rw [hd, hc.1, hc.2]
      · intro hc heq
        rw [hk] at heq
        simp only [Option.some.injEq, Frame.mk.injEq, and_true] at heq
        simp [heq] at hc
      · exact .inl ⟨.inr hm, rfl⟩
      · simp only [Worklist.install, hlt, if_false, hd, hfast, hm, not_false_eq_true, if_true,
          Worklist.replace]
        by_cases heq : locals = g.locals ∧ stack = g.stack
        · simp only [heq, record_self hd heq.1.symm heq.2.symm]
          rfl
        · simp only [heq]
          rfl
  | unreached =>
    have hrec : w.isRecorded dest = false := by simp [Worklist.isRecorded, hd]
    refine .inr ⟨not_le.mp hlt, g, true, ⟨by simp, by simp [hknown hrec], .inl ⟨.inl hrec, rfl⟩⟩, ?_⟩
    simp only [Worklist.install, hlt, if_false, hd]
    rfl
  | reached =>
    have hrec : w.isRecorded dest = false := by simp [Worklist.isRecorded, hd]
    refine .inr ⟨not_le.mp hlt, g, true, ⟨by simp, by simp [hknown hrec], .inl ⟨.inl hrec, rfl⟩⟩, ?_⟩
    simp only [Worklist.install, hlt, if_false, hd]
    rfl

end Install

/-- The walk between two operations on its store, with `pending` nodes yet to be left. -/
structure Holds (P : Problem (Frame V) (Frame.Le I)) (merge : List ℕ) (keep : ℕ → Bool) (w : Worklist V)
    (G : Assignment (Frame V)) (pending : ℕ → Prop) : Prop where
  count : w.count = P.count
  mergeNodes : w.mergeNodes = merge
  fastMerge : w.fastMerge = false
  stores : Stores P.entry.returnValue keep w G
  known : Known P merge G fun n => n ∈ w.queue.items ∨ pending n

section Holding

variable {P : Problem (Frame V) (Frame.Le I)} {merge : List ℕ} {keep : ℕ → Bool}
  {w w' : Worklist V} {G G' : Assignment (Frame V)} {pending pending' : ℕ → Prop} {dest : ℕ}
  {f g : Frame V}

/-- What holding before and after an operation on the store says of the two. -/
structure Extended (I : Interpreter V) (w w' : Worklist V) (G G' : Assignment (Frame V)) (dest : ℕ)
    (g : Frame V) : Prop where
  progress : Progress I w w'
  le : G.Le (Frame.Le I) G'
  frame : ∀ n, n ≠ dest → G' n = G n
  arrived : ∃ x, G' dest = some x ∧ Frame.Le I g x
  pushed : ∀ n ∈ w'.queue.items, n ∈ w.queue.items ∨ n = dest

theorem Holds.knownLe (h : Holds P merge keep w G pending)
    (hrise : ∀ x, G dest = some x → Frame.Le I x f) :
    ∀ x, w.known dest = some x → Frame.Le I x ⟨f.locals, f.stack, none⟩ := by
  intro x hx
  unfold Worklist.known at hx
  split at hx
  · rename_i locals stack hd
    cases hx
    have hle := hrise _ (h.stores.recorded dest locals stack hd)
    exact ⟨hle.locals, hle.stack, rfl⟩
  · cases hx

/-- The frame an installed edge leaves is the arriving one or its join with the one recorded there. -/
theorem Holds.installed (hlat : I.Lattice) (h : Holds P merge keep w G pending)
    (ha : Arrival P merge G dest g) {changed : Bool} (hi : Installed I w dest g f changed) :
    Frame.Le I g f ∧ (∀ x, G dest = some x → Frame.Le I x f) ∧ (dest ∉ merge → f = g) ∧
      f.locals.length = P.entry.locals.length ∧ f.returnValue = P.entry.returnValue ∧
      ∀ s, Closed P s → ∃ x, s dest = some x ∧ Frame.Le I f x := by
  have := hlat.isPartialOrder
  obtain ⟨hplain, rfl⟩ | ⟨locals, stack, hd, hm, hs, rfl⟩ := hi.value
  · refine ⟨refl_of (Frame.Le I) _, ?_, fun _ => rfl, ha.locals, ha.returnValue, ha.below⟩
    intro x hx
    by_cases hm : dest ∈ merge
    · exfalso
      obtain hrec | hno := hplain
      · cases hd : w.frames dest with
        | unreached =>
          rw [h.stores.unreached dest hd] at hx
          cases hx
        | reached =>
          exact (h.stores.reached dest hd).2.2 (h.mergeNodes ▸ hm)
        | recorded locals stack => simp [Worklist.isRecorded, hd] at hrec
      · exact hno (h.mergeNodes ▸ hm)
    · exact h.known.rises ha hm hx
  · have hG := h.stores.recorded dest locals stack hd
    have hlen : locals.length = g.locals.length := (h.known.locals dest _ hG).trans ha.locals.symm
    have hjoin := hlat.meet (f := ⟨locals, stack, P.entry.returnValue⟩) hlen hs ha.returnValue.symm
    have hrv : (⟨meetAll I.mergeLocal locals g.locals, meetAll I.mergeStack stack g.stack,
        g.returnValue⟩ : Frame V) = ⟨meetAll I.mergeLocal locals g.locals,
        meetAll I.mergeStack stack g.stack, P.entry.returnValue⟩ := by rw [ha.returnValue]
    rw [hrv]
    refine ⟨hjoin.1 g (.inr rfl), ?_, fun hno => absurd (h.mergeNodes ▸ hm) hno, ?_, rfl, ?_⟩
    · intro x hx
      rw [hG] at hx
      cases hx
      exact hjoin.1 _ (.inl rfl)
    · have hle := hjoin.1 g (.inr rfl)
      exact hle.locals.length_eq.symm.trans ha.locals
    · intro s hs
      obtain ⟨x, hx, hgx⟩ := ha.below s hs
      obtain ⟨y, hy, hoy⟩ := h.known.below s hs dest _ hG
      rw [hx] at hy
      cases hy
      refine ⟨x, hx, hjoin.2 x ?_⟩
      rintro _ (rfl | rfl)
      · exact hoy
      · exact hgx

/-- A node with one incoming edge takes the arriving frame and is left to the caller to go on from. -/
theorem Holds.take (hlat : I.Lattice) (h : Holds P merge keep w G pending) (ha : Arrival P merge G dest g)
    (hlt : dest < P.count) (hmerge : dest ∉ merge) {w' : Worklist V} (hcount : w'.count = w.count)
    (hnodes : w'.mergeNodes = w.mergeNodes) (hfast : w'.fastMerge = w.fastMerge)
    (hqueue : w'.queue = w.queue)
    (hstores : Stores P.entry.returnValue keep w' (Function.update G dest (some g))) :
    Holds P merge keep w' (Function.update G dest (some g)) fun n => pending n ∨ some dest = some n where
  count := hcount.trans h.count
  mergeNodes := hnodes.trans h.mergeNodes
  fastMerge := hfast.trans h.fastMerge
  stores := hstores
  known := by
    have := hlat.isPartialOrder
    apply h.known.update ha hlt ha.locals ha.returnValue (fun x hx => h.known.rises ha hmerge hx)
      (fun _ => rfl) ha.below
    · intro n hn
      rw [hqueue]
      exact hn.imp_right .inl
    · exact .inl (.inr (.inr rfl))

variable [DecidableEq V]

/-- One edge installed: the walk still holds, or the flow has no solution. -/
theorem Holds.install (hlat : I.Lattice) (h : Holds P merge keep w G pending) (origin : ℕ)
    (ha : Arrival P merge G dest g) :
    (∃ e, w.install I origin dest g = .error (.error e) ∧ ∀ s, ¬ Closed P s) ∨
      ∃ w' G', w.install I origin dest g = .ok w' ∧ Holds P merge keep w' G' pending ∧
        Extended I w w' G G' dest g := by
  have := hlat.isPartialOrder
  obtain ⟨e, he, hwhy⟩ | ⟨hlt, f, changed, hi, hok⟩ := install_cases w origin dest g h.fastMerge
  · refine .inl ⟨e, he, ?_⟩
    intro s hs
    obtain ⟨x, hx, hgx⟩ := ha.below s hs
    obtain hend | ⟨locals, stack, hd, hne⟩ := hwhy
    · have hlt := (hs.steps dest x hx).1
      rw [h.count] at hend
      omega
    · obtain ⟨y, hy, hle⟩ := h.known.below s hs dest _ (h.stores.recorded dest locals stack hd)
      rw [hx] at hy
      cases hy
      exact hne (hle.stack.length_eq.trans hgx.stack.length_eq.symm)
  obtain ⟨hgf, hrise, hone, hlocals, hrv, hbelow⟩ := h.installed hlat ha hi
  have hstores : Stores P.entry.returnValue keep (w.record dest f) (Function.update G dest (some f)) :=
    h.stores.record hrv
  have hprogress := Progress.record w (h.knownLe hrise)
  have hrecorded : (w.record dest f).isRecorded dest = true :=
    isRecorded_iff.mpr ⟨_, _, Function.update_self ..⟩
  refine .inr ⟨_, Function.update G dest (some f), hok, ?_, ?_⟩
  · have hknown : ∀ queue : List ℕ, (∀ n ∈ w.queue.items, n ∈ queue) →
        (dest ∈ queue ∨ G dest = some f) →
        Known P merge (Function.update G dest (some f)) fun n => n ∈ queue ∨ pending n := by
      intro queue hsub hwait
      apply h.known.update ha (h.count ▸ hlt) hlocals hrv hrise hone hbelow
      · intro n hn
        exact hn.imp_left (hsub n)
      · exact hwait.imp_left .inl
    split_ifs with hq
    · rw [Bool.and_eq_true, Bool.not_eq_true'] at hq
      refine ⟨h.count, h.mergeNodes, h.fastMerge, hstores.enqueue hrecorded hq.2, ?_⟩
      apply hknown
      · intro n hn
        rw [Worklist.enqueue, Queue.items_push]
        exact List.mem_cons_of_mem _ hn
      · rw [Worklist.enqueue, Queue.items_push]
        exact .inl (List.mem_cons_self ..)
    · refine ⟨h.count, h.mergeNodes, h.fastMerge, hstores, hknown _ (fun _ hn => hn) ?_⟩
      rw [Bool.and_eq_true, not_and, Bool.not_eq_true'] at hq
      cases changed with
      | true =>
        left
        rw [Bool.not_eq_false] at hq
        exact (h.stores.queued dest).mp (hq rfl)
      | false =>
        right
        rw [h.stores.recorded dest _ _ (hi.same rfl), ← hrv]
  · refine ⟨?_, le_update hrise, fun n hn => Function.update_of_ne hn .., ⟨f, Function.update_self .., hgf⟩, ?_⟩
    · split_ifs with hq
      · rw [Bool.and_eq_true] at hq
        apply hprogress.enqueue
        rw [known_record, if_pos rfl]
        exact (hi.new hq.1).symm
      · exact hprogress
    · intro n hn
      split_ifs at hn with hq
      · rw [Worklist.enqueue, Queue.items_push, List.mem_cons] at hn
        exact hn.symm
      · exact .inl hn

end Holding

end Krusty.Jvm.BytecodePasses
