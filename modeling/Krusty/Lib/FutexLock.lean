import Mathlib.Data.Nat.Notation
import Mathlib.Logic.Function.Basic

/-! A lock over one futex word: 0 is free, 1 is held, 2 is held with waiters. -/
namespace Futex

/-- Where a thread is while it takes the lock: at the exchange of 0 for 1, at the exchange for 2, before a
wait for the word to leave 2, or asleep in one. -/
inductive Locking where
  | swap
  | exchange
  | wait
  | asleep
  deriving DecidableEq

/-- Where a thread is while it gives the lock back. -/
inductive Unlocking where
  | subtract
  | store
  | wake
  deriving DecidableEq

/-- One step of taking the lock: where it goes on, unless the lock is taken, and the word. A sleeper may wake
at any time. -/
def Locking.next : Locking → ℕ → Option Locking × ℕ
  | .swap, word => if word = 0 then (none, 1) else if word = 2 then (some .wait, word) else (some .exchange, word)
  | .exchange, word => if word = 0 then (none, 2) else (some .wait, 2)
  | .wait, word => if word = 2 then (some .asleep, word) else (some .exchange, word)
  | .asleep, word => (some .exchange, word)

/-- One step of giving the lock back: where it goes on, unless it is done, and the word. -/
def Unlocking.next : Unlocking → ℕ → Option Unlocking × ℕ
  | .subtract, word => if word = 1 then (none, 0) else (some .store, word - 1)
  | .store, _ => (some .wake, 0)
  | .wake, word => (none, word)

/-- What a thread has to do with the lock. -/
inductive Phase where
  | idle
  | locking (at_ : Locking)
  | holding
  | unlocking (at_ : Unlocking)
  deriving DecidableEq

/-- Between taking the lock and giving it back. -/
def Phase.inSection : Phase → Bool
  | .holding => true
  | .unlocking .subtract => true
  | .unlocking .store => true
  | _ => false

structure Lock (τ : Type) where
  word : ℕ
  phase : τ → Phase

variable {τ : Type}

inductive Step [DecidableEq τ] (t : τ) : Lock τ → Lock τ → Prop
  | begin {l : Lock τ} (h : l.phase t = .idle) :
    Step t l { l with phase := Function.update l.phase t (.locking .swap) }
  | lock {l : Lock τ} {at_ : Locking} (h : l.phase t = .locking at_) :
    Step t l
      { word := (at_.next l.word).2
        phase := Function.update l.phase t (((at_.next l.word).1.map .locking).getD .holding) }
  | leave {l : Lock τ} (h : l.phase t = .holding) :
    Step t l { l with phase := Function.update l.phase t (.unlocking .subtract) }
  | unlock {l : Lock τ} {at_ : Unlocking} (h : l.phase t = .unlocking at_) :
    Step t l
      { word := (at_.next l.word).2
        phase := Function.update l.phase t (((at_.next l.word).1.map .unlocking).getD .idle) }

/-- At most one thread is in the section, and the word is not free while one is. -/
structure Exclusive (l : Lock τ) : Prop where
  unique : ∀ t u, (l.phase t).inSection = true → (l.phase u).inSection = true → t = u
  taken : ∀ t, (l.phase t).inSection = true → l.word ≠ 0

namespace Exclusive

variable {l : Lock τ} {t : τ}

theorem others (h : Exclusive l) (ht : (l.phase t).inSection = true) : ∀ u ≠ t, (l.phase u).inSection = false := by
  intro u hut
  by_contra hu
  exact hut (h.unique u t (by simpa using hu) ht)

theorem free (h : Exclusive l) (hword : l.word = 0) (u : τ) : (l.phase u).inSection = false := by
  by_contra hu
  exact h.taken u (by simpa using hu) hword

variable [DecidableEq τ]

/-- A step of one thread outside the section keeps the word taken for the others. -/
theorem of_outside {word : ℕ} {phase : Phase} (h : Exclusive l) (hphase : phase.inSection = false)
    (hword : word = 0 → ∀ u ≠ t, (l.phase u).inSection = false) :
    Exclusive { word, phase := Function.update l.phase t phase } := by
  have hothers : ∀ u, (Function.update l.phase t phase u).inSection = true → u ≠ t ∧ (l.phase u).inSection = true := by
    intro u hu
    by_cases hut : u = t
    · rw [hut, Function.update_self, hphase] at hu
      cases hu
    · rw [Function.update_of_ne hut] at hu
      exact ⟨hut, hu⟩
  constructor
  · intro u v hu hv
    exact h.unique u v (hothers u hu).2 (hothers v hv).2
  · intro u hu hzero
    have hout := hword hzero u (hothers u hu).1
    rw [(hothers u hu).2] at hout
    cases hout

/-- A step of the thread in the section, or of one that finds nobody there. -/
theorem of_inside {word : ℕ} {phase : Phase} (hothers : ∀ u ≠ t, (l.phase u).inSection = false)
    (hword : word ≠ 0) : Exclusive { word, phase := Function.update l.phase t phase } := by
  have honly : ∀ u, (Function.update l.phase t phase u).inSection = true → u = t := by
    intro u hu
    by_contra hut
    rw [Function.update_of_ne hut, hothers u hut] at hu
    cases hu
  constructor
  · intro u v hu hv
    rw [honly u hu, honly v hv]
  · exact fun _ _ => hword

theorem step {l' : Lock τ} (h : Exclusive l) (hs : Step t l l') : Exclusive l' := by
  cases hs with
  | begin ht => exact h.of_outside rfl fun hzero u _ => h.free hzero u
  | lock ht =>
    rename_i at_
    cases at_ with
    | swap =>
      simp only [Locking.next]
      split
      · next hzero => exact of_inside (fun u _ => h.free hzero u) (Nat.succ_ne_zero 0)
      · next hne => split <;> exact h.of_outside rfl fun hzero => absurd hzero hne
    | exchange =>
      simp only [Locking.next]
      split
      · next hzero => exact of_inside (fun u _ => h.free hzero u) (Nat.succ_ne_zero 1)
      · exact h.of_outside rfl fun hzero => absurd hzero (Nat.succ_ne_zero 1)
    | wait =>
      simp only [Locking.next]
      split <;> exact h.of_outside rfl fun hzero u _ => h.free hzero u
    | asleep => exact h.of_outside rfl fun hzero u _ => h.free hzero u
  | leave ht =>
    have hin : (l.phase t).inSection = true := by rw [ht]; rfl
    exact of_inside (h.others hin) (h.taken t hin)
  | unlock ht =>
    rename_i at_
    cases at_ with
    | subtract =>
      have hin : (l.phase t).inSection = true := by rw [ht]; rfl
      have htaken := h.taken t hin
      simp only [Unlocking.next]
      split
      · exact h.of_outside rfl fun _ => h.others hin
      · exact of_inside (h.others hin) (by omega)
    | store =>
      have hin : (l.phase t).inSection = true := by rw [ht]; rfl
      exact h.of_outside rfl fun _ => h.others hin
    | wake => exact h.of_outside rfl fun hzero u _ => h.free hzero u

end Exclusive

end Futex
