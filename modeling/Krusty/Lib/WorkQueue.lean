import Krusty.Lib.Refinement
import Mathlib.Algebra.BigOperators.Fin
import Mathlib.Data.List.FinRange

/-! Tasks that workers take from one shared counter, each keeping what its own tasks gave. -/
namespace WorkQueue

variable {α β : Type} {n : ℕ}

inductive Worker (α : Type) where
  | idle
  | busy (task : α)
  | stopped

namespace Worker

/-- The steps that remain to a worker that takes no further task. -/
def weight : Worker α → ℕ
  | idle => 1
  | busy _ => 2
  | stopped => 0

/-- What the task at hand will give. -/
def held (f : α → β) : Worker α → List β
  | busy task => [f task]
  | idle => []
  | stopped => []

end Worker

structure Queue (α β : Type) (n : ℕ) where
  next : ℕ
  worker : Fin n → Worker α
  done : Fin n → List β

def start : Queue α β n := ⟨0, fun _ => .idle, fun _ => []⟩

variable (tasks : List α) (f : α → β)

/-- A worker without a task takes the next one, or stops where there is none. One with a task does it. -/
def step (q : Queue α β n) (w : Fin n) : Option (Queue α β n) :=
  match q.worker w with
  | .idle =>
    match tasks[q.next]? with
    | some task => some { q with next := q.next + 1, worker := Function.update q.worker w (.busy task) }
    | none => some { q with next := q.next + 1, worker := Function.update q.worker w .stopped }
  | .busy task =>
    some { q with worker := Function.update q.worker w .idle, done := Function.update q.done w (q.done w ++ [f task]) }
  | .stopped => none

/-- What all workers have, worker after worker. -/
def collected (q : Queue α β n) : List β := (List.finRange n).flatMap q.done

/-- What a worker will have when it has done the task at hand. -/
def share (q : Queue α β n) (w : Fin n) : List β := q.done w ++ (q.worker w).held f

def results (q : Queue α β n) : List β := (List.finRange n).flatMap (share f q)

/-- The steps that remain. -/
def left (q : Queue α β n) : ℕ := 2 * (tasks.length - q.next) + ∑ w, (q.worker w).weight

/-! ### What one step can do -/

variable {tasks f} {q q' : Queue α β n} {w : Fin n}

theorem step_cases (h : step tasks f q w = some q') :
    (∃ task, tasks[q.next]? = some task ∧ q.worker w = .idle ∧
      q' = { q with next := q.next + 1, worker := Function.update q.worker w (.busy task) }) ∨
    (tasks[q.next]? = none ∧ q.worker w = .idle ∧
      q' = { q with next := q.next + 1, worker := Function.update q.worker w .stopped }) ∨
    (∃ task, q.worker w = .busy task ∧
      q' = { q with worker := Function.update q.worker w .idle,
                    done := Function.update q.done w (q.done w ++ [f task]) }) := by
  unfold step at h
  split at h
  · next hidle =>
    split at h
    · next task htask => exact .inl ⟨task, htask, hidle, (Option.some_inj.mp h).symm⟩
    · next htask => exact .inr (.inl ⟨htask, hidle, (Option.some_inj.mp h).symm⟩)
  · next task hbusy => exact .inr (.inr ⟨task, hbusy, (Option.some_inj.mp h).symm⟩)
  · cases h

/-- Only a worker that has stopped takes no step. -/
theorem step_eq_none (h : step tasks f q w = none) : q.worker w = .stopped := by
  unfold step at h
  split at h
  · split at h <;> cases h
  · cases h
  · next hstopped => exact hstopped

theorem flatMap_update {g : Fin n → List β} {a : List β} (ws : List (Fin n)) (hw : w ∉ ws) :
    ws.flatMap (Function.update g w a) = ws.flatMap g := by
  apply List.flatMap_congr
  intro u hu
  have hne : u ≠ w := ne_of_mem_of_not_mem hu hw
  exact Function.update_of_ne hne ..

/-- One more result of one worker. -/
theorem perm_flatMap_update {g : Fin n → List β} (b : β) {ws : List (Fin n)} (hw : w ∈ ws) (hnodup : ws.Nodup) :
    (ws.flatMap (Function.update g w (g w ++ [b]))).Perm (ws.flatMap g ++ [b]) := by
  induction ws with
  | nil => cases hw
  | cons u ws ih =>
    have hcons := List.nodup_cons.mp hnodup
    rw [List.flatMap_cons, List.flatMap_cons]
    by_cases huw : u = w
    · subst huw
      rw [Function.update_self, flatMap_update ws hcons.1, List.append_assoc, List.append_assoc]
      exact (List.perm_append_comm).append_left _
    · have hrest := ih ((List.mem_cons.mp hw).resolve_left (Ne.symm huw)) hcons.2
      rw [Function.update_of_ne huw, List.append_assoc]
      exact hrest.append_left _

theorem share_update (next : ℕ) (worker : Worker α) :
    share f { q with next, worker := Function.update q.worker w worker } =
      Function.update (share f q) w (q.done w ++ worker.held f) := by
  funext u
  by_cases huw : u = w
  · rw [huw, Function.update_self, share]
    dsimp only
    rw [Function.update_self]
  · rw [Function.update_of_ne huw, share]
    dsimp only
    rw [Function.update_of_ne huw]
    rfl

theorem step_results (h : step tasks f q w = some q') (hq : (results f q).Perm ((tasks.take q.next).map f)) :
    (results f q').Perm ((tasks.take q'.next).map f) := by
  cases step_cases h with
  | inl h =>
    obtain ⟨task, htask, hidle, rfl⟩ := h
    have hshare : share f q w = q.done w := by rw [share, hidle, Worker.held, List.append_nil]
    have hnew := perm_flatMap_update (g := share f q) (f task) (List.mem_finRange w) (List.nodup_finRange n)
    rw [hshare] at hnew
    rw [results, share_update, List.take_add_one, htask, List.map_append]
    exact hnew.trans (hq.append_right _)
  | inr h =>
    cases h with
    | inl h =>
      obtain ⟨htask, hidle, rfl⟩ := h
      have hshare : q.done w ++ Worker.stopped.held f = share f q w := by
        rw [share, hidle]
        rfl
      rw [results, share_update, hshare, Function.update_eq_self, List.take_add_one, htask, Option.toList_none,
        List.append_nil]
      exact hq
    | inr h =>
      obtain ⟨task, hbusy, rfl⟩ := h
      have hshare : share f { q with
          worker := Function.update q.worker w .idle, done := Function.update q.done w (q.done w ++ [f task]) } =
          share f q := by
        funext u
        by_cases huw : u = w
        · rw [huw, share]
          dsimp only
          rw [Function.update_self, Function.update_self, share, hbusy]
          exact List.append_nil _
        · rw [share]
          dsimp only
          rw [Function.update_of_ne huw, Function.update_of_ne huw]
          rfl
      rw [results, hshare]
      exact hq

theorem sum_weight_update (worker : Worker α) :
    ∑ u, (Function.update q.worker w worker u).weight + (q.worker w).weight =
      ∑ u, (q.worker u).weight + worker.weight := by
  have hold := Finset.add_sum_erase Finset.univ (fun u => (q.worker u).weight) (Finset.mem_univ w)
  have hnew := Finset.add_sum_erase Finset.univ (fun u => (Function.update q.worker w worker u).weight)
    (Finset.mem_univ w)
  have hrest : ∑ u ∈ Finset.univ.erase w, (Function.update q.worker w worker u).weight =
      ∑ u ∈ Finset.univ.erase w, (q.worker u).weight := by
    apply Finset.sum_congr rfl
    intro u hu
    rw [Function.update_of_ne (Finset.ne_of_mem_erase hu)]
  simp only [Function.update_self] at hnew
  omega

theorem step_left (h : step tasks f q w = some q') : left tasks q' + 1 = left tasks q := by
  cases step_cases h with
  | inl h =>
    obtain ⟨task, htask, hidle, rfl⟩ := h
    have hlt := (List.getElem?_eq_some_iff.mp htask).1
    have hsum := sum_weight_update (q := q) (w := w) (.busy task)
    rw [hidle, Worker.weight, Worker.weight] at hsum
    unfold left
    dsimp only
    omega
  | inr h =>
    cases h with
    | inl h =>
      obtain ⟨htask, hidle, rfl⟩ := h
      have hle := List.getElem?_eq_none_iff.mp htask
      have hsum := sum_weight_update (q := q) (w := w) .stopped
      rw [hidle, Worker.weight, Worker.weight] at hsum
      unfold left
      dsimp only
      omega
    | inr h =>
      obtain ⟨task, hbusy, rfl⟩ := h
      have hsum := sum_weight_update (q := q) (w := w) .idle
      rw [hbusy, Worker.weight, Worker.weight] at hsum
      unfold left
      dsimp only
      omega

/-- A worker stops only once the tasks have run out. -/
theorem step_stopped (h : step tasks f q w = some q')
    (hq : ∀ u, q.worker u = .stopped → tasks.length ≤ q.next) (u : Fin n) (hu : q'.worker u = .stopped) :
    tasks.length ≤ q'.next := by
  have hother (worker : Worker α) (hne : worker ≠ .stopped) (hset : Function.update q.worker w worker u = .stopped) :
      tasks.length ≤ q.next := by
    by_cases huw : u = w
    · rw [huw, Function.update_self] at hset
      exact absurd hset hne
    · rw [Function.update_of_ne huw] at hset
      exact hq u hset
  cases step_cases h with
  | inl h =>
    obtain ⟨task, htask, hidle, rfl⟩ := h
    exact Nat.le_succ_of_le (hother _ (by simp) hu)
  | inr h =>
    cases h with
    | inl h =>
      obtain ⟨htask, hidle, rfl⟩ := h
      exact Nat.le_succ_of_le (List.getElem?_eq_none_iff.mp htask)
    | inr h =>
      obtain ⟨task, hbusy, rfl⟩ := h
      exact hother _ (by simp) hu

/-! ### Whole runs -/

variable {schedule : List (Fin n)}

theorem run_results (h : Runs.run (step tasks f) start schedule = some q) :
    (results f q).Perm ((tasks.take q.next).map f) := by
  refine Runs.run_induction (P := fun _ q => (results f q).Perm ((tasks.take q.next).map f)) ?_ ?_ h
  · have hnil : results f (start : Queue α β n) = [] := List.flatMap_eq_nil_iff.mpr fun _ _ => rfl
    rw [hnil]
    exact List.Perm.refl []
  · intro _ q w q' hq hstep
    exact step_results hstep hq

theorem run_stopped (h : Runs.run (step tasks f) start schedule = some q) (w : Fin n) (hw : q.worker w = .stopped) :
    tasks.length ≤ q.next := by
  refine Runs.run_induction (P := fun _ q => ∀ w, q.worker w = .stopped → tasks.length ≤ q.next) ?_ ?_ h w hw
  · intro w hw
    cases hw
  · intro _ q w q' hq hstep u hu
    exact step_stopped hstep hq u hu

/-- From every state the workers can go on until all have stopped. -/
theorem exists_finish (q : Queue α β n) :
    ∃ schedule q', Runs.run (step tasks f) q schedule = some q' ∧ ∀ w, q'.worker w = .stopped := by
  induction hleft : left tasks q generalizing q with
  | zero =>
    refine ⟨[], q, rfl, fun w => ?_⟩
    cases hstep : step tasks f q w with
    | none => exact step_eq_none hstep
    | some q' =>
      have hless := step_left hstep
      omega
  | succ remaining ih =>
    by_cases hfinished : ∀ w, q.worker w = .stopped
    · exact ⟨[], q, rfl, hfinished⟩
    · obtain ⟨w, hw⟩ := not_forall.mp hfinished
      obtain ⟨q', hstep⟩ := Option.ne_none_iff_exists'.mp fun hnone => hw (step_eq_none hnone)
      have hless : left tasks q' + 1 = left tasks q := step_left hstep
      obtain ⟨schedule, q'', hrun, hstopped⟩ := ih q' (by omega)
      refine ⟨w :: schedule, q'', ?_, hstopped⟩
      rw [Runs.run, List.foldlM_cons, hstep]
      exact hrun

/-- Whatever the order of the workers' steps, all tasks are done once. -/
theorem collected_perm (hn : 0 < n) (h : Runs.run (step tasks f) start schedule = some q)
    (hfinished : ∀ w, q.worker w = .stopped) : (collected q).Perm (tasks.map f) := by
  have hle := run_stopped h ⟨0, hn⟩ (hfinished _)
  have hperm := run_results h
  have hcollected : results f q = collected q := by
    apply List.flatMap_congr
    intro w _
    rw [share, hfinished, Worker.held, List.append_nil]
  rwa [hcollected, List.take_of_length_le hle] at hperm

end WorkQueue
