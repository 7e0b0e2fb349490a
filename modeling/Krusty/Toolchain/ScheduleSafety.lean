import Krusty.Lib.Refinement
import Krusty.Toolchain.Schedule
import Mathlib.Algebra.BigOperators.Fin
import Mathlib.Order.RelClasses
import Mathlib.Tactic.Ring

/-! Whatever the interleaving, a plan's steps run once, in order, within the job limit, and none begins
after a failure. -/
namespace Krusty.Toolchain

open Runs

namespace Phase

/-- A thread of the step has been spawned, and the loop has not taken its reply. -/
def occupied : Phase → Bool
  | .waiting | .collected _ => false
  | _ => true

/-- The step's work is under way. -/
def active : Phase → Bool
  | .begun | .failed | .unwinding | .panicked => true
  | _ => false

/-- The loop has taken the step's result. -/
def isDone : Phase → Bool
  | .collected (.done _) => true
  | _ => false

def succeeded : Phase → Bool
  | .reported (.done true) | .collected (.done true) => true
  | _ => false

/-- The step can only be here once the gate has stopped the plan. -/
def wrong : Phase → Bool
  | .refused | .failed | .panicked => true
  | .reported reply | .collected reply => reply != .done true
  | _ => false

end Phase

variable {plan : Plan} {jobs : ℕ} {s s' : State plan}

def occupiedSteps (phase : Fin plan.count → Phase) : Finset (Fin plan.count) :=
  Finset.univ.filter fun n => (phase n).occupied = true

section Occupied

variable {phase : Fin plan.count → Phase} {n : Fin plan.count} {p : Phase}

@[simp] theorem mem_occupiedSteps : n ∈ occupiedSteps phase ↔ (phase n).occupied = true := by
  simp [occupiedSteps]

theorem occupiedSteps_keep (h : (phase n).occupied = p.occupied) :
    occupiedSteps (Function.update phase n p) = occupiedSteps phase := by
  ext m
  rw [mem_occupiedSteps, mem_occupiedSteps]
  by_cases hm : m = n
  · rw [hm, Function.update_self, h]
  · rw [Function.update_of_ne hm]

theorem occupiedSteps_take (h : p.occupied = true) :
    occupiedSteps (Function.update phase n p) = insert n (occupiedSteps phase) := by
  ext m
  rw [mem_occupiedSteps, Finset.mem_insert, mem_occupiedSteps]
  by_cases hm : m = n
  · subst hm
    simp [h]
  · simp [hm]

theorem occupiedSteps_free (h : p.occupied = false) :
    occupiedSteps (Function.update phase n p) = (occupiedSteps phase).erase n := by
  ext m
  rw [mem_occupiedSteps, Finset.mem_erase, mem_occupiedSteps]
  by_cases hm : m = n
  · subst hm
    simp [h]
  · simp [hm]

end Occupied

section Release

/-- A step is released once for each time it waits for the one that is done. -/
theorem count_dependents (n step : Fin plan.count) :
    (plan.dependents step).count n = (plan.waits n).count step := by
  have hcopies : ∀ m : Fin plan.count, (((plan.waits m).filter (· = step)).map fun _ => m).count n =
      if m = n then (plan.waits m).count step else 0 := by
    intro m
    rw [List.map_const', List.count_replicate, ← List.countP_eq_length_filter]
    simp only [beq_iff_eq]
    rfl
  rw [Plan.dependents, List.count_flatMap]
  have hsum : (List.finRange plan.count).map (List.count n ∘ fun m =>
      ((plan.waits m).filter (· = step)).map fun _ => m) =
      (List.finRange plan.count).map fun m => if m = n then (plan.waits m).count step else 0 := by
    apply List.map_congr_left
    intro m _
    exact hcopies m
  rw [hsum, ← Fin.sum_univ_def, Finset.sum_ite_eq' Finset.univ n]
  simp

theorem releaseAll_spec (l : List (Fin plan.count)) (hle : ∀ n, l.count n ≤ s.remaining n) :
    (∀ n, (s.releaseAll l).remaining n = s.remaining n - l.count n) ∧
    (∀ n, n ∈ (s.releaseAll l).ready ↔ n ∈ s.ready ∨ (n ∈ l ∧ s.remaining n = l.count n)) ∧
    (s.releaseAll l).running = s.running ∧ (s.releaseAll l).stopped = s.stopped ∧
    (s.releaseAll l).phase = s.phase ∧ (s.releaseAll l).channel = s.channel := by
  induction l generalizing s with
  | nil => simp [State.releaseAll]
  | cons m l ih =>
    have hrem : ∀ n, (s.release m).remaining n = if n = m then s.remaining m - 1 else s.remaining n := by
      intro n
      by_cases hn : n = m
      · subst hn
        simp [State.release]
      · simp [State.release, hn]
    have hle' : ∀ n, l.count n ≤ (s.release m).remaining n := by
      intro n
      have hn := hle n
      rw [List.count_cons] at hn
      rw [hrem]
      split_ifs with heq
      · subst heq
        simp at hn
        omega
      · have hne : (m == n) = false := by simpa [beq_eq_false_iff_ne] using Ne.symm heq
        simpa [hne] using hn
    obtain ⟨h₁, h₂, h₃, h₄, h₅, h₆⟩ := ih hle'
    refine ⟨?_, ?_, h₃, h₄, h₅, h₆⟩
    · intro n
      change ((s.release m).releaseAll l).remaining n = _
      rw [h₁, hrem, List.count_cons]
      by_cases hn : n = m
      · subst hn
        simp
        omega
      · have hne : (m == n) = false := by simpa [beq_eq_false_iff_ne] using Ne.symm hn
        simp [hn, hne]
    · intro n
      change n ∈ ((s.release m).releaseAll l).ready ↔ _
      rw [h₂, hrem]
      have hn := hle n
      rw [List.count_cons] at hn ⊢
      by_cases heq : n = m
      · subst heq
        simp only [beq_self_eq_true, if_true] at hn ⊢
        have hready : n ∈ (s.release n).ready ↔ n ∈ s.ready ∨ s.remaining n - 1 = 0 := by
          unfold State.release
          by_cases h0 : s.remaining n - 1 = 0
          · simp [h0]
          · simp [h0]
        rw [hready]
        have hmem : n ∈ l ↔ 0 < l.count n := List.count_pos_iff.symm
        constructor
        · rintro ((h | h) | ⟨h, h'⟩)
          · exact .inl h
          · exact .inr ⟨by simp, by omega⟩
          · exact .inr ⟨by simp, by omega⟩
        · rintro (h | ⟨-, h⟩)
          · exact .inl (.inl h)
          · by_cases h0 : l.count n = 0
            · exact .inl (.inr (by omega))
            · exact .inr ⟨hmem.mpr (by omega), by omega⟩
      · have hne : (m == n) = false := by simpa [beq_eq_false_iff_ne] using Ne.symm heq
        have hready : n ∈ (s.release m).ready ↔ n ∈ s.ready := by
          unfold State.release
          by_cases h0 : s.remaining m - 1 = 0
          · simp [h0, heq]
          · simp [h0]
        rw [hready]
        simp [heq, hne]

theorem releaseAll_fields (l : List (Fin plan.count)) :
    (s.releaseAll l).phase = s.phase ∧ (s.releaseAll l).stopped = s.stopped := by
  induction l generalizing s with
  | nil => exact ⟨rfl, rfl⟩
  | cons m l ih => exact ih

theorem collect_fields (n : Fin plan.count) (reply : Reply) (rest : List (Fin plan.count × Reply)) :
    (s.collect n reply rest).phase = Function.update s.phase n (.collected reply) ∧
      (s.collect n reply rest).stopped = s.stopped := by
  cases reply with
  | done b => exact releaseAll_fields _
  | refused => exact ⟨rfl, rfl⟩
  | panicked => exact ⟨rfl, rfl⟩

/-- Waits still open, before and after one step is done. -/
theorem countP_open (phase : Fin plan.count → Phase) (step : Fin plan.count) (b : Bool)
    (hstep : (phase step).isDone = false) (l : List (Fin plan.count)) :
    l.countP (fun d => !(Function.update phase step (.collected (.done b)) d).isDone) + l.count step =
      l.countP fun d => !(phase d).isDone := by
  induction l with
  | nil => rfl
  | cons d l ih =>
    rw [List.countP_cons, List.countP_cons, List.count_cons]
    by_cases hd : d = step
    · subst hd
      have hdone : (Phase.collected (.done b)).isDone = true := rfl
      simp only [Function.update_self, hdone, hstep, Bool.not_true, Bool.not_false, Bool.false_eq_true,
        if_false, if_true, beq_self_eq_true]
      omega
    · have hne : (d == step) = false := by simpa using hd
      simp only [Function.update_of_ne hd, hne, Bool.false_eq_true, if_false]
      omega

end Release

/-- What holds of the loop's counters, the gate and the channel between any two events. -/
structure Sound (jobs : ℕ) (s : State plan) : Prop where
  remaining : ∀ n, s.remaining n = (plan.waits n).countP fun d => !(s.phase d).isDone
  ready : ∀ n, n ∈ s.ready ↔ s.phase n = .waiting ∧ s.remaining n = 0
  started : ∀ n, s.phase n ≠ .waiting → s.remaining n = 0
  channel : ∀ n reply, (n, reply) ∈ s.channel ↔ s.phase n = .reported reply
  nodup : (s.channel.map Prod.fst).Nodup
  running : s.running = (occupiedSteps s.phase).card
  limit : s.running ≤ jobs
  picking : s.loop = .picking → s.running < jobs
  receiving : s.loop = .receiving → 0 < s.running
  returned : s.loop = .returned → s.running = 0 ∧ (s.stopped = false → s.ready = ∅)
  unwound : s.loop = .unwound → s.stopped = true
  wrong : ∀ n, (s.phase n).wrong → s.stopped = true

variable {n : Fin plan.count}

section Kept

theorem sound_init : Sound jobs (State.init plan) where
  remaining := by
    intro n
    simp [State.init, Phase.isDone]
  ready := by
    intro n
    simp [State.init]
  started := fun n h => absurd rfl h
  channel := by simp [State.init]
  nodup := List.nodup_nil
  running := by simp [State.init, occupiedSteps, Phase.occupied]
  limit := Nat.zero_le jobs
  picking := by simp [State.init]
  receiving := by simp [State.init]
  returned := by simp [State.init]
  unwound := by simp [State.init]
  wrong := by simp [State.init, Phase.wrong]

theorem occupied_pos (h : Sound jobs s) (hn : (s.phase n).occupied = true) : 0 < s.running := by
  rw [h.running, Finset.card_pos]
  exact ⟨n, mem_occupiedSteps.mpr hn⟩

/-- A worker's event: it moves its own step on, and may stop the plan or send a reply. -/
theorem Sound.worker (h : Sound jobs s) {p : Phase} {stopped : Bool}
    {channel : List (Fin plan.count × Reply)} (hn : (s.phase n).occupied = true)
    (hunsent : ∀ reply, s.phase n ≠ .reported reply) (hp : p.occupied = true)
    (hstop : s.stopped = true → stopped = true) (hwrong : p.wrong = true → stopped = true)
    (hchannel : (∃ reply, p = .reported reply ∧ channel = s.channel ++ [(n, reply)]) ∨
      (∀ reply, p ≠ .reported reply) ∧ channel = s.channel) :
    Sound jobs { s with phase := Function.update s.phase n p, stopped := stopped, channel := channel } := by
  have hdone : ∀ d, (Function.update s.phase n p d).isDone = (s.phase d).isDone := by
    intro d
    by_cases hd : d = n
    · subst hd
      rw [Function.update_self]
      cases hq : s.phase d <;> cases p <;> simp_all [Phase.isDone, Phase.occupied]
    · rw [Function.update_of_ne hd]
  have hwaiting : ∀ d, Function.update s.phase n p d = .waiting ↔ s.phase d = .waiting := by
    intro d
    by_cases hd : d = n
    · subst hd
      rw [Function.update_self]
      cases hq : s.phase d <;> cases p <;> simp_all [Phase.occupied]
    · rw [Function.update_of_ne hd]
  have hnew : ∀ reply, (n, reply) ∉ s.channel := fun reply hmem =>
    hunsent reply ((h.channel n reply).mp hmem)
  constructor
  case remaining =>
    intro m
    simp only [hdone]
    exact h.remaining m
  case ready =>
    intro m
    rw [h.ready, hwaiting]
  case started =>
    intro m hm
    exact h.started m fun hw => hm ((hwaiting m).mpr hw)
  case channel =>
    intro m reply
    simp only
    by_cases hm : m = n
    · subst hm
      rw [Function.update_self]
      obtain ⟨r, rfl, rfl⟩ | ⟨hno, rfl⟩ := hchannel
      · simp [hnew, eq_comm]
      · exact iff_of_false (hnew reply) (hno reply)
    · rw [Function.update_of_ne hm, ← h.channel]
      obtain ⟨r, rfl, rfl⟩ | ⟨-, rfl⟩ := hchannel
      · simp [hm]
      · rfl
  case nodup =>
    obtain ⟨r, rfl, rfl⟩ | ⟨-, rfl⟩ := hchannel
    · rw [List.map_append, List.map_singleton, List.nodup_append]
      refine ⟨h.nodup, List.nodup_singleton _, ?_⟩
      intro a ha b hb
      obtain ⟨⟨a', r'⟩, hmem, rfl⟩ := List.mem_map.mp ha
      rw [List.mem_singleton.mp hb]
      rintro rfl
      exact hnew r' hmem
    · exact h.nodup
  case running =>
    change s.running = (occupiedSteps (Function.update s.phase n p)).card
    rw [occupiedSteps_keep (hn.trans hp.symm), h.running]
  case limit => exact h.limit
  case picking => exact h.picking
  case receiving => exact h.receiving
  case returned =>
    intro hl
    have := (h.returned hl).1
    have := occupied_pos h hn
    omega
  case unwound => exact fun hl => hstop (h.unwound hl)
  case wrong =>
    intro m hm
    change (Function.update s.phase n p m).wrong = true at hm
    by_cases hmn : m = n
    · rw [hmn, Function.update_self] at hm
      exact hwrong hm
    · rw [Function.update_of_ne hmn] at hm
      exact hstop (h.wrong m hm)

theorem Sound.leave (h : Sound jobs s) (hready : s.running = 0 → s.stopped = false → s.ready = ∅) :
    Sound jobs s.leave := by
  unfold State.leave
  refine ⟨h.remaining, h.ready, h.started, h.channel, h.nodup, h.running, h.limit, ?_, ?_, ?_, ?_,
    h.wrong⟩
  · intro hl
    split_ifs at hl
  · intro hl
    split_ifs at hl with h0
    exact Nat.pos_of_ne_zero h0
  · intro hl
    split_ifs at hl with h0
    exact ⟨h0, hready h0⟩
  · intro hl
    split_ifs at hl

theorem Sound.test (hjobs : 0 < jobs) (h : Sound jobs s) :
    Sound jobs (if s.running < jobs ∧ s.stopped = false then { s with loop := .picking } else s.leave) := by
  split_ifs with hgo
  · exact ⟨h.remaining, h.ready, h.started, h.channel, h.nodup, h.running, h.limit, fun _ => hgo.1,
      by simp, by simp, by simp, h.wrong⟩
  · apply h.leave
    intro h0 hs
    exact absurd ⟨by omega, hs⟩ hgo

/-- The loop spawns a ready step. -/
theorem Sound.spawn (h : Sound jobs s) (hlt : s.running < jobs) (hn : n ∈ s.ready) :
    Sound jobs { s.setPhase n .spawned with
      ready := s.ready.erase n, running := s.running + 1, loop := .filling } := by
  obtain ⟨hwait, hzero⟩ := (h.ready n).mp hn
  have hother : ∀ m, m ≠ n → Function.update s.phase n .spawned m = s.phase m :=
    fun m hm => Function.update_of_ne hm ..
  have hdone : ∀ d, (Function.update s.phase n .spawned d).isDone = (s.phase d).isDone := by
    intro d
    by_cases hd : d = n
    · rw [hd, Function.update_self, hwait]
      rfl
    · rw [hother d hd]
  constructor
  case remaining =>
    intro m
    simp only [State.setPhase, hdone]
    exact h.remaining m
  case ready =>
    intro m
    simp only [State.setPhase, Finset.mem_erase]
    by_cases hm : m = n
    · subst hm
      simp
    · rw [hother m hm, h.ready]
      simp [hm]
  case started =>
    intro m hm
    by_cases hmn : m = n
    · rw [hmn]
      exact hzero
    · apply h.started m
      simpa only [State.setPhase, hother m hmn] using hm
  case channel =>
    intro m reply
    simp only [State.setPhase]
    by_cases hm : m = n
    · subst hm
      rw [Function.update_self]
      apply iff_of_false
      · intro hmem
        rw [(h.channel m reply).mp hmem] at hwait
        cases hwait
      · simp
    · rw [hother m hm]
      exact h.channel m reply
  case nodup => exact h.nodup
  case running =>
    change s.running + 1 = (occupiedSteps (Function.update s.phase n .spawned)).card
    have hfree : n ∉ occupiedSteps s.phase := by simp [hwait, Phase.occupied]
    rw [occupiedSteps_take rfl, Finset.card_insert_of_notMem hfree, h.running]
  case limit => exact hlt
  case picking => simp
  case receiving => simp
  case returned => simp
  case unwound => simp
  case wrong =>
    intro m hm
    by_cases hmn : m = n
    · rw [hmn] at hm
      simp [State.setPhase, Phase.wrong] at hm
    · apply h.wrong m
      simpa only [State.setPhase, hother m hmn] using hm

/-- The loop takes a reply, and the counters follow. -/
theorem Sound.collected (h : Sound jobs s) {reply : Reply}
    {rest : List (Fin plan.count × Reply)} (hchannel : s.channel = (n, reply) :: rest)
    {remaining : Fin plan.count → ℕ} {ready : Finset (Fin plan.count)} {loop : Loop}
    (hloop : loop = .filling ∨ loop = .unwound ∧ reply = .panicked)
    (hremaining : ∀ m, remaining m =
      (plan.waits m).countP fun d => !(Function.update s.phase n (.collected reply) d).isDone)
    (hready : ∀ m, m ∈ ready ↔
      Function.update s.phase n (.collected reply) m = .waiting ∧ remaining m = 0)
    (hstarted : ∀ m, Function.update s.phase n (.collected reply) m ≠ .waiting → remaining m = 0) :
    Sound jobs ⟨remaining, ready, s.running - 1, s.stopped,
      Function.update s.phase n (.collected reply), rest, loop⟩ := by
  have hphase : s.phase n = .reported reply := (h.channel n reply).mp (by simp [hchannel])
  have hother : ∀ m, m ≠ n → Function.update s.phase n (.collected reply) m = s.phase m :=
    fun m hm => Function.update_of_ne hm ..
  have hnodup := h.nodup
  rw [hchannel, List.map_cons, List.nodup_cons] at hnodup
  have hnot : ∀ r, (n, r) ∉ rest := fun r hmem => hnodup.1 (List.mem_map.mpr ⟨(n, r), hmem, rfl⟩)
  refine ⟨hremaining, hready, hstarted, ?_, hnodup.2, ?_, ?_, ?_, ?_, ?_, ?_, ?_⟩
  · intro m r
    by_cases hm : m = n
    · subst hm
      simp [hnot]
    · simp only [hother m hm, ← h.channel, hchannel, List.mem_cons, Prod.mk.injEq, hm, false_and,
        false_or]
  · change s.running - 1 = (occupiedSteps (Function.update s.phase n (.collected reply))).card
    have htaken : n ∈ occupiedSteps s.phase := by simp [hphase, Phase.occupied]
    rw [occupiedSteps_free rfl, Finset.card_erase_of_mem htaken, h.running]
  · have := h.limit
    simp only
    omega
  · obtain rfl | ⟨rfl, -⟩ := hloop <;> simp
  · obtain rfl | ⟨rfl, -⟩ := hloop <;> simp
  · obtain rfl | ⟨rfl, -⟩ := hloop <;> simp
  · intro hl
    obtain rfl | ⟨-, rfl⟩ := hloop
    · cases hl
    · exact h.wrong n (by rw [hphase]; rfl)
  · intro m hm
    change (Function.update s.phase n (.collected reply) m).wrong = true at hm
    by_cases hmn : m = n
    · apply h.wrong n
      rw [hmn, Function.update_self] at hm
      rw [hphase]
      exact hm
    · rw [hother m hmn] at hm
      exact h.wrong m hm

theorem Sound.collect (h : Sound jobs s) {reply : Reply}
    {rest : List (Fin plan.count × Reply)} (hchannel : s.channel = (n, reply) :: rest) :
    Sound jobs (s.collect n reply rest) := by
  have hphase : s.phase n = .reported reply := (h.channel n reply).mp (by simp [hchannel])
  have hwaiting : ∀ m, Function.update s.phase n (.collected reply) m = .waiting ↔ s.phase m = .waiting := by
    intro m
    by_cases hm : m = n
    · subst hm
      simp [hphase]
    · rw [Function.update_of_ne hm]
  by_cases hreply : ∃ b, reply = .done b
  · obtain ⟨b, rfl⟩ := hreply
    have hopen : ∀ m, (plan.waits m).countP (fun d =>
        !(Function.update s.phase n (.collected (.done b)) d).isDone) + (plan.waits m).count n =
        s.remaining m := by
      intro m
      rw [h.remaining]
      exact countP_open s.phase n b (by rw [hphase]; rfl) _
    have hle : ∀ m, (plan.dependents n).count m ≤ s.remaining m := by
      intro m
      have := hopen m
      rw [count_dependents]
      omega
    let mid : State plan :=
      { s.setPhase n (.collected (.done b)) with channel := rest, running := s.running - 1 }
    obtain ⟨hrem, hready, hrun, hstop, hph, hch⟩ :=
      releaseAll_spec (s := mid) (plan.dependents n) hle
    have heq : s.collect n (.done b) rest = ⟨(mid.releaseAll (plan.dependents n)).remaining,
        (mid.releaseAll (plan.dependents n)).ready, s.running - 1, s.stopped,
        Function.update s.phase n (.collected (.done b)), rest, .filling⟩ := by
      change { mid.releaseAll (plan.dependents n) with loop := .filling } = _
      rw [State.mk.injEq]
      exact ⟨rfl, rfl, hrun, hstop, hph, hch, rfl⟩
    rw [heq]
    have hleft : ∀ m, s.remaining m - (plan.dependents n).count m = (plan.waits m).countP fun d =>
        !(Function.update s.phase n (.collected (.done b)) d).isDone := by
      intro m
      have := hopen m
      rw [count_dependents]
      omega
    apply h.collected hchannel (.inl rfl)
    · intro m
      rw [hrem]
      exact hleft m
    · intro m
      rw [hrem, hready, hwaiting]
      change m ∈ s.ready ∨ m ∈ plan.dependents n ∧ s.remaining m = _ ↔
        s.phase m = .waiting ∧ s.remaining m - _ = 0
      have hm := hle m
      have hcount : m ∈ plan.dependents n ↔ 0 < (plan.dependents n).count m := List.count_pos_iff.symm
      rw [h.ready, hcount]
      constructor
      · rintro (⟨hw, h0⟩ | ⟨hpos, heq⟩)
        · exact ⟨hw, by omega⟩
        · refine ⟨?_, by omega⟩
          by_contra hw
          have := h.started m hw
          omega
      · rintro ⟨hw, h0⟩
        by_cases hz : s.remaining m = 0
        · exact .inl ⟨hw, hz⟩
        · exact .inr (by omega)
    · intro m hm
      rw [hrem]
      have := h.started m fun hw => hm ((hwaiting m).mpr hw)
      change s.remaining m - _ = 0
      omega
  · have hnot : ∀ d, (Function.update s.phase n (.collected reply) d).isDone = (s.phase d).isDone := by
      intro d
      by_cases hd : d = n
      · subst hd
        rw [Function.update_self, hphase]
        cases reply with
        | done b => exact absurd ⟨b, rfl⟩ hreply
        | refused => rfl
        | panicked => rfl
      · rw [Function.update_of_ne hd]
    have hkept : ∀ loop, loop = .filling ∨ loop = .unwound ∧ reply = .panicked → Sound jobs ⟨s.remaining, s.ready,
        s.running - 1, s.stopped, Function.update s.phase n (.collected reply), rest, loop⟩ := by
      intro loop hloop
      apply h.collected hchannel hloop
      · intro m
        simp only [hnot]
        exact h.remaining m
      · intro m
        rw [hwaiting]
        exact h.ready m
      · intro m hm
        exact h.started m fun hw => hm ((hwaiting m).mpr hw)
    cases reply with
    | done b => exact absurd ⟨b, rfl⟩ hreply
    | refused => exact hkept .filling (.inl rfl)
    | panicked => exact hkept .unwound (.inr ⟨rfl, rfl⟩)

end Kept

/-- Every event keeps the counters, the gate and the channel right. -/
theorem Sound.next (hjobs : 0 < jobs) (h : Sound jobs s) {e : Event plan} (he : s.next jobs e = some s') :
    Sound jobs s' := by
  have hunsent : ∀ {n : Fin plan.count} {p : Phase}, s.phase n = p → (∀ reply, p ≠ .reported reply) →
      ∀ reply, s.phase n ≠ .reported reply := by
    intro n p hp hno reply
    rw [hp]
    exact hno reply
  cases e with
  | test =>
    simp only [State.next, Option.ite_none_right_eq_some, Option.some.injEq] at he
    rw [← he.2]
    exact h.test hjobs
  | pick =>
    simp only [State.next, Option.ite_none_right_eq_some] at he
    obtain ⟨hloop, he⟩ := he
    cases hmin : s.ready.min with
    | top =>
      rw [hmin] at he
      cases he
      exact h.leave fun _ _ => Finset.min_eq_top.mp hmin
    | coe n =>
      rw [hmin] at he
      cases he
      exact h.spawn (h.picking hloop) (Finset.mem_of_min hmin)
  | receive =>
    simp only [State.next, Option.ite_none_right_eq_some] at he
    obtain ⟨-, he⟩ := he
    cases hchannel : s.channel with
    | nil =>
      rw [hchannel] at he
      cases he
    | cons head rest =>
      obtain ⟨n, reply⟩ := head
      rw [hchannel] at he
      cases he
      exact h.collect hchannel
  | begin n =>
    simp only [State.next, Option.ite_none_right_eq_some, Option.some.injEq] at he
    obtain ⟨⟨hn, -⟩, rfl⟩ := he
    exact h.worker (by rw [hn]; rfl) (hunsent hn (by simp)) rfl id (by simp [Phase.wrong])
      (.inr ⟨by simp, rfl⟩)
  | refuse n =>
    simp only [State.next, Option.ite_none_right_eq_some, Option.some.injEq] at he
    obtain ⟨⟨hn, hstop⟩, rfl⟩ := he
    exact h.worker (by rw [hn]; rfl) (hunsent hn (by simp)) rfl id (fun _ => hstop) (.inr ⟨by simp, rfl⟩)
  | fail n =>
    simp only [State.next, Option.ite_none_right_eq_some, Option.some.injEq] at he
    obtain ⟨hn, rfl⟩ := he
    exact h.worker (by rw [hn]; rfl) (hunsent hn (by simp)) rfl (fun _ => rfl) (fun _ => rfl)
      (.inr ⟨by simp, rfl⟩)
  | panic n =>
    simp only [State.next, Option.ite_none_right_eq_some, Option.some.injEq] at he
    obtain ⟨hn, rfl⟩ := he
    have hno : ∀ reply, s.phase n ≠ .reported reply := by
      obtain hn | hn | hn := hn <;> exact hunsent hn (by simp)
    have hocc : (s.phase n).occupied = true := by
      obtain hn | hn | hn := hn <;> rw [hn] <;> rfl
    exact h.worker hocc hno rfl id (by simp [Phase.wrong]) (.inr ⟨by simp, rfl⟩)
  | recordPanic n =>
    simp only [State.next, Option.ite_none_right_eq_some, Option.some.injEq] at he
    obtain ⟨hn, rfl⟩ := he
    exact h.worker (by rw [hn]; rfl) (hunsent hn (by simp)) rfl (fun _ => rfl) (fun _ => rfl)
      (.inr ⟨by simp, rfl⟩)
  | finish n =>
    simp only [State.next, Option.ite_none_right_eq_some, Option.some.injEq] at he
    obtain ⟨hn, rfl⟩ := he
    exact h.worker (by rw [hn]; rfl) (hunsent hn (by simp)) rfl id (by simp [Phase.wrong])
      (.inl ⟨_, rfl, rfl⟩)
  | report n =>
    simp only [State.next] at he
    split at he
    all_goals first
      | cases he
        rename_i hn
        have hstop : s.stopped = true := h.wrong n (by rw [hn]; rfl)
        exact h.worker (by rw [hn]; rfl) (hunsent hn (by simp)) rfl id (fun _ => hstop)
          (.inl ⟨_, rfl, rfl⟩)
      | cases he

/-- What the events so far say of a state. -/
structure History (es : List (Event plan)) (s : State plan) : Prop where
  stopped : s.stopped = true ↔ ∃ e ∈ es, e.recordsFailure = true
  calm : (∀ e ∈ es, e.goesWrong = false) → s.stopped = false ∧ ∀ n, s.phase n ≠ .unwinding
  once : ∀ n, es.count (.begin n) ≤ 1
  fresh : ∀ n, s.phase n = .waiting ∨ s.phase n = .spawned → .begin n ∉ es
  began : ∀ n, s.phase n = .begun ∨ (s.phase n).succeeded = true → .begin n ∈ es
  finished : ∀ n, (s.phase n).succeeded = true → .finish n ∈ es
  order : ∀ before n after, es = before ++ .begin n :: after →
    (∀ d ∈ plan.waits n, .finish d ∈ before) ∧ ∀ e ∈ before, e.recordsFailure = false

section History

variable {es : List (Event plan)} {e : Event plan}

/-- What holds before each beginning so far, and before the one that comes next. -/
theorem order_snoc {Q : List (Event plan) → Fin plan.count → Prop}
    (h : ∀ before n after, es = before ++ .begin n :: after → Q before n) (hnew : ∀ n, e = .begin n → Q es n)
    (before : List (Event plan)) (n : Fin plan.count) (after : List (Event plan))
    (heq : es ++ [e] = before ++ .begin n :: after) : Q before n := by
  obtain rfl | ⟨after', x, rfl⟩ := List.eq_nil_or_concat after
  · obtain ⟨rfl, hlast⟩ := List.append_inj' heq rfl
    cases hlast
    exact hnew n rfl
  · rw [List.concat_eq_append, ← List.cons_append, ← List.append_assoc] at heq
    obtain ⟨hfront, -⟩ := List.append_inj' heq rfl
    exact h before n after' hfront

/-- An event that moves no step and leaves the gate as it is. -/
theorem History.idle (h : History es s) (hphase : s'.phase = s.phase) (hstopped : s'.stopped = s.stopped)
    (hbegin : ∀ n, e ≠ .begin n) (hcalm : e.recordsFailure = false) : History (es ++ [e]) s' := by
  constructor
  case stopped =>
    rw [hstopped, h.stopped]
    simp [or_and_right, exists_or, hcalm]
  case calm =>
    intro hall
    rw [hstopped, hphase]
    exact h.calm fun e' he' => hall e' (by simp [he'])
  case once =>
    intro m
    have hne : (e == .begin m) = false := by simpa using hbegin m
    simp [List.count_append, List.count_singleton, hne, h.once m]
  case fresh =>
    intro m hm hmem
    rw [hphase] at hm
    rw [List.mem_append, List.mem_singleton] at hmem
    obtain hmem | heq := hmem
    · exact h.fresh m hm hmem
    · exact hbegin m heq.symm
  case began =>
    intro m hm
    rw [hphase] at hm
    exact List.mem_append_left _ (h.began m hm)
  case finished =>
    intro m hm
    rw [hphase] at hm
    exact List.mem_append_left _ (h.finished m hm)
  case order => exact order_snoc h.order fun m hm => absurd hm (hbegin m)

/-- An event that moves one step. -/
theorem History.move (h : History es s) {p : Phase} (hphase : s'.phase = Function.update s.phase n p)
    (hstopped : s'.stopped = true ↔ s.stopped = true ∨ e.recordsFailure = true)
    (hbegin : ∀ m, e = .begin m → m = n ∧ s.phase n = .spawned ∧ s.stopped = false ∧
      ∀ d ∈ plan.waits n, .finish d ∈ es)
    (hfresh : p = .waiting ∨ p = .spawned → s.phase n = .waiting ∧ e ≠ .begin n)
    (hbegan : p = .begun ∨ p.succeeded = true → e = .begin n ∨ s.phase n = .begun ∨ (s.phase n).succeeded = true)
    (hfinished : p.succeeded = true → e = .finish n ∨ (s.phase n).succeeded = true)
    (hcalm : e.goesWrong = false → s.phase n ≠ .unwinding → e.recordsFailure = false ∧ p ≠ .unwinding) :
    History (es ++ [e]) s' := by
  have hother : ∀ m, m ≠ n → s'.phase m = s.phase m := by
    intro m hm
    rw [hphase, Function.update_of_ne hm]
  have hself : s'.phase n = p := by rw [hphase, Function.update_self]
  constructor
  case stopped =>
    rw [hstopped, h.stopped]
    simp [or_and_right, exists_or]
  case calm =>
    intro hall
    have hnone : ∀ e' ∈ es, e'.goesWrong = false := fun e' he' => hall e' (by simp [he'])
    obtain ⟨hstop, hunwind⟩ := h.calm hnone
    obtain ⟨hrec, hp⟩ := hcalm (hall e (by simp)) (hunwind n)
    constructor
    · rw [← Bool.not_eq_true, hstopped, hstop, hrec]
      simp
    · intro m
      by_cases hm : m = n
      · rw [hm, hself]
        exact hp
      · rw [hother m hm]
        exact hunwind m
  case once =>
    intro m
    rw [List.count_append, List.count_singleton]
    have hm := h.once m
    by_cases hem : e = .begin m
    · obtain ⟨rfl, hspawned, -⟩ := hbegin m hem
      have hzero := List.count_eq_zero.mpr (h.fresh m (.inr hspawned))
      split_ifs
      · omega
      · omega
    · have hne : (e == .begin m) = false := by simpa using hem
      simp [hne, hm]
  case fresh =>
    intro m hm hmem
    rw [List.mem_append, List.mem_singleton] at hmem
    by_cases hmn : m = n
    · rw [hmn, hself] at hm
      obtain ⟨hw, hne⟩ := hfresh hm
      rw [hmn] at hmem
      obtain hmem | rfl := hmem
      · exact h.fresh n (.inl hw) hmem
      · exact hne rfl
    · rw [hother m hmn] at hm
      obtain hmem | rfl := hmem
      · exact h.fresh m hm hmem
      · exact hmn (hbegin m rfl).1
  case began =>
    intro m hm
    rw [List.mem_append, List.mem_singleton]
    by_cases hmn : m = n
    · rw [hmn, hself] at hm
      rw [hmn]
      obtain rfl | hold := hbegan hm
      · exact .inr rfl
      · exact .inl (h.began n hold)
    · rw [hother m hmn] at hm
      exact .inl (h.began m hm)
  case finished =>
    intro m hm
    rw [List.mem_append, List.mem_singleton]
    by_cases hmn : m = n
    · rw [hmn, hself] at hm
      rw [hmn]
      obtain rfl | hold := hfinished hm
      · exact .inr rfl
      · exact .inl (h.finished n hold)
    · rw [hother m hmn] at hm
      exact .inl (h.finished m hm)
  case order =>
    apply order_snoc h.order
    intro m hm
    obtain ⟨rfl, -, hgo, hwaits⟩ := hbegin m hm
    refine ⟨hwaits, ?_⟩
    intro e' he'
    by_contra hfail
    rw [Bool.not_eq_false] at hfail
    rw [h.stopped.mpr ⟨e', he', hfail⟩] at hgo
    cases hgo

theorem history_init : History [] (State.init plan) where
  stopped := by simp [State.init]
  calm := by simp [State.init]
  once := by simp
  fresh := by simp
  began := by simp [State.init, Phase.succeeded]
  finished := by simp [State.init, Phase.succeeded]
  order := by simp

/-- A step that may begin waits for nothing that has not succeeded. -/
theorem Sound.waits_finished (h : Sound jobs s) (hh : History es s)
    (hn : s.phase n = .spawned) (hgo : s.stopped = false) : ∀ d ∈ plan.waits n, .finish d ∈ es := by
  intro d hd
  have hzero : s.remaining n = 0 := h.started n (by rw [hn]; simp)
  rw [h.remaining, List.countP_eq_zero] at hzero
  have hdone := hzero d hd
  have hright : (s.phase d).wrong = false := by
    by_contra hwrong
    rw [Bool.not_eq_false] at hwrong
    rw [h.wrong d hwrong] at hgo
    cases hgo
  apply hh.finished d
  cases hphase : s.phase d with
  | collected reply =>
    cases reply with
    | done b => cases b <;> simp_all [Phase.wrong, Phase.succeeded]
    | refused => simp [hphase, Phase.isDone] at hdone
    | panicked => simp [hphase, Phase.isDone] at hdone
  | _ => simp [hphase, Phase.isDone] at hdone

/-- Every event keeps what the events say of the state. -/
theorem History.next (hs : Sound jobs s) (h : History es s) (he : s.next jobs e = some s') :
    History (es ++ [e]) s' := by
  cases e with
  | test =>
    simp only [State.next, Option.ite_none_right_eq_some, Option.some.injEq] at he
    obtain ⟨-, rfl⟩ := he
    apply h.idle _ _ (by simp) rfl <;> split_ifs <;> rfl
  | pick =>
    simp only [State.next, Option.ite_none_right_eq_some] at he
    obtain ⟨hloop, he⟩ := he
    cases hmin : s.ready.min with
    | top =>
      rw [hmin] at he
      cases he
      exact h.idle rfl rfl (by simp) rfl
    | coe n =>
      rw [hmin] at he
      cases he
      have hwait := ((hs.ready n).mp (Finset.mem_of_min hmin)).1
      refine h.move rfl ?_ (by simp) ?_ ?_ ?_ ?_
      · simp [State.setPhase, Event.recordsFailure]
      · exact fun _ => ⟨hwait, by simp⟩
      · simp [Phase.succeeded]
      · simp [Phase.succeeded]
      · simp [Event.recordsFailure]
  | receive =>
    simp only [State.next, Option.ite_none_right_eq_some] at he
    obtain ⟨-, he⟩ := he
    cases hchannel : s.channel with
    | nil =>
      rw [hchannel] at he
      cases he
    | cons head rest =>
      obtain ⟨n, reply⟩ := head
      rw [hchannel] at he
      cases he
      have hphase : s.phase n = .reported reply := (hs.channel n reply).mp (by simp [hchannel])
      obtain ⟨hp, hstop⟩ := collect_fields (s := s) n reply rest
      have hsame : (Phase.collected reply).succeeded = (s.phase n).succeeded := by
        rw [hphase]
        cases reply with
        | done b => cases b <;> rfl
        | refused => rfl
        | panicked => rfl
      refine h.move hp ?_ (by simp) (by simp) ?_ ?_ ?_
      · simp [hstop, Event.recordsFailure]
      · rintro (hp' | hp')
        · cases hp'
        · exact .inr (.inr (hsame ▸ hp'))
      · exact fun hp' => .inr (hsame ▸ hp')
      · simp [Event.recordsFailure]
  | begin n =>
    simp only [State.next, Option.ite_none_right_eq_some, Option.some.injEq] at he
    obtain ⟨⟨hn, hgo⟩, rfl⟩ := he
    refine h.move rfl ?_ ?_ (by simp) ?_ ?_ ?_
    · simp [State.setPhase, Event.recordsFailure]
    · intro m hm
      cases hm
      exact ⟨rfl, hn, hgo, hs.waits_finished h hn hgo⟩
    · exact fun _ => .inl rfl
    · simp [Phase.succeeded]
    · simp [Event.recordsFailure]
  | refuse n =>
    simp only [State.next, Option.ite_none_right_eq_some, Option.some.injEq] at he
    obtain ⟨-, rfl⟩ := he
    refine h.move rfl ?_ (by simp) (by simp) ?_ ?_ ?_
    · simp [State.setPhase, Event.recordsFailure]
    · simp [Phase.succeeded]
    · simp [Phase.succeeded]
    · simp [Event.recordsFailure]
  | fail n =>
    simp only [State.next, Option.ite_none_right_eq_some, Option.some.injEq] at he
    obtain ⟨-, rfl⟩ := he
    refine h.move rfl ?_ (by simp) (by simp) ?_ ?_ ?_
    · simp [Event.recordsFailure]
    · simp [Phase.succeeded]
    · simp [Phase.succeeded]
    · simp [Event.goesWrong]
  | panic n =>
    simp only [State.next, Option.ite_none_right_eq_some, Option.some.injEq] at he
    obtain ⟨-, rfl⟩ := he
    refine h.move rfl ?_ (by simp) (by simp) ?_ ?_ ?_
    · simp [State.setPhase, Event.recordsFailure]
    · simp [Phase.succeeded]
    · simp [Phase.succeeded]
    · simp [Event.goesWrong]
  | recordPanic n =>
    simp only [State.next, Option.ite_none_right_eq_some, Option.some.injEq] at he
    obtain ⟨hn, rfl⟩ := he
    refine h.move rfl ?_ (by simp) (by simp) ?_ ?_ ?_
    · simp [Event.recordsFailure]
    · simp [Phase.succeeded]
    · simp [Phase.succeeded]
    · exact fun _ hno => absurd hn hno
  | finish n =>
    simp only [State.next, Option.ite_none_right_eq_some, Option.some.injEq] at he
    obtain ⟨hn, rfl⟩ := he
    refine h.move rfl ?_ (by simp) (by simp) ?_ ?_ ?_
    · simp [State.send, State.setPhase, Event.recordsFailure]
    · exact fun _ => .inr (.inl hn)
    · exact fun _ => .inl rfl
    · simp [Event.recordsFailure]
  | report n =>
    have hsent : ∃ reply, reply ≠ .done true ∧ s' = s.send n reply := by
      simp only [State.next] at he
      split at he
      all_goals first
        | cases he
          exact ⟨_, by simp, rfl⟩
        | cases he
    obtain ⟨reply, hreply, rfl⟩ := hsent
    have hno : (Phase.reported reply).succeeded = false := by
      cases reply with
      | done b => cases b <;> simp_all [Phase.succeeded]
      | refused => rfl
      | panicked => rfl
    refine h.move rfl ?_ (by simp) (by simp) ?_ ?_ ?_
    · simp [State.send, State.setPhase, Event.recordsFailure]
    · simp [hno]
    · simp [hno]
    · simp [Event.recordsFailure]

end History

section Ending

/-- The events a step can still take part in. -/
def Phase.weight : Phase → ℕ
  | .waiting => 10
  | .spawned => 8
  | .begun => 7
  | .failed => 6
  | .unwinding => 5
  | .panicked | .refused => 4
  | .reported _ => 3
  | .collected _ => 0

def Loop.weight : Loop → ℕ
  | .filling => 2
  | .picking => 1
  | _ => 0

theorem Loop.weight_le (loop : Loop) : loop.weight ≤ 2 := by
  cases loop <;> decide

/-- A bound on the events that can still happen. -/
def State.left (s : State plan) : ℕ := (∑ n, (s.phase n).weight) + s.loop.weight

theorem sum_weight_update (phase : Fin plan.count → Phase) (n : Fin plan.count) (p : Phase) :
    (∑ m, (Function.update phase n p m).weight) + (phase n).weight =
      (∑ m, (phase m).weight) + p.weight := by
  have hrest : ∀ f : Fin plan.count → Phase, (∑ m, (f m).weight) =
      (f n).weight + ∑ m ∈ Finset.univ.erase n, (f m).weight := by
    intro f
    rw [Finset.add_sum_erase _ (fun m => (f m).weight) (Finset.mem_univ n)]
  rw [hrest (Function.update phase n p), hrest phase, Function.update_self]
  have hsame : ∑ m ∈ Finset.univ.erase n, (Function.update phase n p m).weight =
      ∑ m ∈ Finset.univ.erase n, (phase m).weight := by
    apply Finset.sum_congr rfl
    intro m hm
    rw [Function.update_of_ne (Finset.ne_of_mem_erase hm)]
  rw [hsame]
  ring

/-- A step moving on leaves fewer events. -/
theorem left_lt {p : Phase} (hphase : s'.phase = Function.update s.phase n p)
    (hless : p.weight + s'.loop.weight < (s.phase n).weight + s.loop.weight) : s'.left < s.left := by
  have := sum_weight_update s.phase n p
  unfold State.left
  rw [hphase]
  omega

theorem left_leave (hloop : 0 < s.loop.weight) : s.leave.left < s.left := by
  have hzero : s.leave.loop.weight = 0 := by
    unfold State.leave
    dsimp only
    split_ifs <;> rfl
  have hphase : s.leave.phase = s.phase := rfl
  unfold State.left
  rw [hzero, hphase]
  omega

theorem Sound.left_lt (h : Sound jobs s) {e : Event plan} (he : s.next jobs e = some s') :
    s'.left < s.left := by
  cases e with
  | test =>
    simp only [State.next, Option.ite_none_right_eq_some, Option.some.injEq] at he
    obtain ⟨hloop, rfl⟩ := he
    split_ifs
    · simp [State.left, hloop, Loop.weight]
    · exact left_leave (by simp [hloop, Loop.weight])
  | pick =>
    simp only [State.next, Option.ite_none_right_eq_some] at he
    obtain ⟨hloop, he⟩ := he
    cases hmin : s.ready.min with
    | top =>
      rw [hmin] at he
      cases he
      exact left_leave (by simp [hloop, Loop.weight])
    | coe n =>
      rw [hmin] at he
      cases he
      have hwait := ((h.ready n).mp (Finset.mem_of_min hmin)).1
      apply Toolchain.left_lt rfl
      simp [hloop, hwait, Loop.weight, Phase.weight]
  | receive =>
    simp only [State.next, Option.ite_none_right_eq_some] at he
    obtain ⟨hloop, he⟩ := he
    cases hchannel : s.channel with
    | nil =>
      rw [hchannel] at he
      cases he
    | cons head rest =>
      obtain ⟨n, reply⟩ := head
      rw [hchannel] at he
      cases he
      have hphase : s.phase n = .reported reply := (h.channel n reply).mp (by simp [hchannel])
      apply Toolchain.left_lt (collect_fields n reply rest).1
      have hle := (s.collect n reply rest).loop.weight_le
      rw [hphase, hloop]
      change 0 + (s.collect n reply rest).loop.weight < 3 + 0
      omega
  | report n =>
    simp only [State.next] at he
    split at he
    all_goals first
      | cases he
        rename_i hn
        apply Toolchain.left_lt rfl
        simp [hn, State.send, State.setPhase, Phase.weight]
      | cases he
  | panic n =>
    simp only [State.next, Option.ite_none_right_eq_some, Option.some.injEq] at he
    obtain ⟨hn, rfl⟩ := he
    apply Toolchain.left_lt rfl
    obtain hn | hn | hn := hn <;> simp [hn, State.setPhase, Phase.weight]
  | begin n | refuse n =>
    simp only [State.next, Option.ite_none_right_eq_some, Option.some.injEq] at he
    obtain ⟨⟨hn, -⟩, rfl⟩ := he
    apply Toolchain.left_lt rfl
    simp [hn, State.setPhase, Phase.weight]
  | fail n | recordPanic n | finish n =>
    simp only [State.next, Option.ite_none_right_eq_some, Option.some.injEq] at he
    obtain ⟨hn, rfl⟩ := he
    apply Toolchain.left_lt rfl
    simp [hn, State.send, State.setPhase, Phase.weight]

/-- Until the loop has ended, something can happen. -/
theorem Sound.progress (h : Sound jobs s) (hloop : s.loop ≠ .returned ∧ s.loop ≠ .unwound) :
    ∃ e, (s.next jobs e).isSome = true := by
  cases hl : s.loop with
  | filling => exact ⟨.test, by simp [State.next, hl]⟩
  | picking =>
    cases hmin : s.ready.min with
    | top => exact ⟨.pick, by simp [State.next, hl, hmin]⟩
    | coe n => exact ⟨.pick, by simp [State.next, hl, hmin]⟩
  | receiving =>
    have hpos := h.receiving hl
    rw [h.running, Finset.card_pos] at hpos
    obtain ⟨n, hn⟩ := hpos
    rw [mem_occupiedSteps] at hn
    cases hphase : s.phase n with
    | waiting =>
      rw [hphase] at hn
      cases hn
    | collected reply =>
      rw [hphase] at hn
      cases hn
    | spawned =>
      cases hstop : s.stopped with
      | false => exact ⟨.begin n, by simp [State.next, hphase, hstop]⟩
      | true => exact ⟨.refuse n, by simp [State.next, hphase, hstop]⟩
    | begun => exact ⟨.finish n, by simp [State.next, hphase]⟩
    | refused => exact ⟨.report n, by simp [State.next, hphase]⟩
    | failed => exact ⟨.report n, by simp [State.next, hphase]⟩
    | unwinding => exact ⟨.recordPanic n, by simp [State.next, hphase]⟩
    | panicked => exact ⟨.report n, by simp [State.next, hphase]⟩
    | reported reply =>
      have hmem := (h.channel n reply).mpr hphase
      cases hchannel : s.channel with
      | nil =>
        rw [hchannel] at hmem
        cases hmem
      | cons head rest =>
        obtain ⟨m, r⟩ := head
        exact ⟨.receive, by simp [State.next, hl, hchannel]⟩
  | returned => exact absurd hl hloop.1
  | unwound => exact absurd hl hloop.2

/-- In a plan without cycles, a loop that returned with nothing gone wrong has run every step. -/
theorem Sound.all_succeeded (h : Sound jobs s) (hacyclic : plan.Acyclic) (hloop : s.loop = .returned)
    (hgo : s.stopped = false) (n : Fin plan.count) : (s.phase n).succeeded = true := by
  obtain ⟨hrunning, hready⟩ := h.returned hloop
  have hcases : ∀ m, s.phase m = .waiting ∨ s.phase m = .collected (.done true) := by
    intro m
    have hfree : (s.phase m).occupied = false := by
      rw [← Bool.not_eq_true, ← mem_occupiedSteps]
      rw [h.running, Finset.card_eq_zero] at hrunning
      rw [hrunning]
      exact Finset.notMem_empty m
    have hright : (s.phase m).wrong = false := by
      by_contra hwrong
      rw [Bool.not_eq_false] at hwrong
      rw [h.wrong m hwrong] at hgo
      cases hgo
    cases hphase : s.phase m with
    | waiting => exact .inl rfl
    | collected reply =>
      right
      rw [hphase] at hright
      simpa [Phase.wrong] using hright
    | _ =>
      rw [hphase] at hfree
      cases hfree
  -- a waiting step waits for another: with no cycle, the least of them would wait for none
  have htrans : IsTrans (Fin plan.count)
      (Relation.TransGen fun dependency step => dependency ∈ plan.waits step) :=
    ⟨fun _ _ _ => Relation.TransGen.trans⟩
  have hirrefl : Std.Irrefl
      (Relation.TransGen fun (dependency step : Fin plan.count) => dependency ∈ plan.waits step) :=
    ⟨hacyclic⟩
  have hwf := Finite.wellFounded_of_trans_of_irrefl
    (Relation.TransGen fun (dependency step : Fin plan.count) => dependency ∈ plan.waits step)
  induction n using hwf.induction with
  | _ n ih =>
    obtain hwait | hdone := hcases n
    · have hne : s.remaining n ≠ 0 := by
        intro hzero
        have hmem := (h.ready n).mpr ⟨hwait, hzero⟩
        rw [hready hgo] at hmem
        exact Finset.notMem_empty n hmem
      rw [h.remaining] at hne
      obtain ⟨d, hd, hopen⟩ := List.countP_pos_iff.mp (Nat.pos_of_ne_zero hne)
      have hdep := ih d (.single hd)
      obtain hwait' | hdone' := hcases d
      · rw [hwait'] at hdep
        cases hdep
      · rw [hdone'] at hopen
        cases hopen
    · rw [hdone]
      rfl

end Ending

/-- Scheduling is safe under every interleaving: a step begins at most once, after the steps it waits for
have finished without failing and before any failure is recorded, and at most `jobs` of them are at work
in any state. Every run ends, and without a failure the loop of an acyclic plan returns only when every
step has run. -/
theorem schedule_safe (plan : Plan) (hjobs : 0 < jobs) {es : List (Event plan)} {s : State plan}
    (hrun : run (State.next jobs) (State.init plan) es = some s) :
    (∀ n, es.count (.begin n) ≤ 1) ∧
    (∀ before n after, es = before ++ .begin n :: after →
      (∀ d ∈ plan.waits n, .finish d ∈ before) ∧ ∀ e ∈ before, e.recordsFailure = false) ∧
    (Finset.univ.filter fun n => (s.phase n).active = true).card ≤ jobs ∧
    es.length ≤ 10 * plan.count + 2 ∧
    (plan.Acyclic → (∀ e ∈ es, e.goesWrong = false) →
      ((∀ e, s.next jobs e = none) → s.loop = .returned) ∧
      (s.loop = .returned → ∀ n, .begin n ∈ es ∧ .finish n ∈ es)) := by
  have hinv : Sound jobs s ∧ History es s ∧ es.length + s.left ≤ (State.init plan).left := by
    refine run_induction (P := fun es s => Sound jobs s ∧ History es s ∧
      es.length + s.left ≤ (State.init plan).left) ?_ ?_ hrun
    · exact ⟨sound_init, history_init, by simp⟩
    · rintro es s e s' ⟨hs, hh, hle⟩ he
      have hlt := hs.left_lt he
      refine ⟨hs.next hjobs he, hh.next hs he, ?_⟩
      rw [List.length_append, List.length_singleton]
      omega
  obtain ⟨hs, hh, hlen⟩ := hinv
  refine ⟨hh.once, hh.order, ?_, ?_, ?_⟩
  · have hsub : (Finset.univ.filter fun n => (s.phase n).active = true) ⊆ occupiedSteps s.phase := by
      intro n hn
      rw [Finset.mem_filter] at hn
      rw [mem_occupiedSteps]
      cases hphase : s.phase n <;> simp_all [Phase.active, Phase.occupied]
    have hcard := Finset.card_le_card hsub
    have := hs.running
    have := hs.limit
    omega
  · have hinit : (State.init plan).left = 10 * plan.count + 2 := by
      simp [State.left, State.init, Phase.weight, Loop.weight]
      ring
    omega
  · intro hacyclic hcalm
    obtain ⟨hgo, -⟩ := hh.calm hcalm
    constructor
    · intro hstuck
      by_contra hreturned
      have hunwound : s.loop ≠ .unwound := by
        intro hl
        rw [hs.unwound hl] at hgo
        cases hgo
      obtain ⟨e, he⟩ := hs.progress ⟨hreturned, hunwound⟩
      rw [hstuck e] at he
      cases he
    · intro hloop n
      have hsucc := hs.all_succeeded hacyclic hloop hgo n
      exact ⟨hh.began n (.inr hsucc), hh.finished n hsucc⟩

/-- A plan whose steps wait for earlier ones only. -/
theorem Plan.acyclic_of_lt (h : ∀ step, ∀ d ∈ plan.waits step, d < step) : plan.Acyclic := by
  have hlt : ∀ d step, Relation.TransGen (fun d step => d ∈ plan.waits step) d step → d < step := by
    intro d step hchain
    induction hchain with
    | single hd => exact h _ _ hd
    | tail _ hd ih => exact ih.trans (h _ _ hd)
  intro step hcycle
  exact lt_irrefl step (hlt step step hcycle)

/-- Two steps, the second waiting for the first. -/
def samplePlan : Plan where
  count := 2
  waits := fun step => if step = 0 then [] else [0]

def sampleRun : List (Event samplePlan) :=
  let first : Fin samplePlan.count := ⟨0, by decide⟩
  let second : Fin samplePlan.count := ⟨1, by decide⟩
  [.test, .pick, .test, .begin first, .finish first, .receive, .test, .pick, .test, .begin second,
    .finish second, .receive, .test, .pick]

theorem schedule_safe_sample : ∃ s, run (State.next 1) (State.init samplePlan) sampleRun = some s ∧
    s.loop = .returned ∧ (Finset.univ.filter fun n => (s.phase n).active = true).card ≤ 1 ∧
    ∀ n, .begin n ∈ sampleRun ∧ .finish n ∈ sampleRun := by
  obtain ⟨s, hrun, hloop⟩ : ∃ s, run (State.next 1) (State.init samplePlan) sampleRun = some s ∧
      s.loop = .returned := ⟨_, rfl, rfl⟩
  have hacyclic : samplePlan.Acyclic := Plan.acyclic_of_lt (by decide)
  obtain ⟨-, -, hlimit, -, hend⟩ := schedule_safe samplePlan Nat.one_pos hrun
  exact ⟨s, hrun, hloop, hlimit, (hend hacyclic (by decide)).2 hloop⟩

end Krusty.Toolchain
