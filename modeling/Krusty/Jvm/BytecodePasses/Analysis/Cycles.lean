import Krusty.Jvm.BytecodePasses.Analysis.Descent

/-! Walks that come back to where they were, and so never end. -/
namespace Krusty.Jvm.BytecodePasses

section Cycles

variable {V : Type} [DecidableEq V] (method : MethodNode) (options : AnalyzerOptions) (I : Interpreter V)
  (execute : Executor V) (keep : ℕ → Node → Bool) (ranges : List Range)

/-- The walk some steps on, if it goes on that far. -/
def Walk.after : ℕ → Walk V → Option (Walk V)
  | 0, walk => some walk
  | steps + 1, walk =>
    match step method options I execute keep ranges walk with
    | .ok (some walk) => after steps walk
    | _ => none

/-- What a walk knows of the nodes below its count. -/
def Walk.view (walk : Walk V) : List (Entry V × Bool) × (List ℕ × Bool) × Frame V × Option ℕ :=
  ((List.range walk.work.count).map fun n => (walk.work.frames n, walk.work.queued n),
    (walk.work.queue.items, walk.work.queue.isOrdered), walk.scratch, walk.index)

/-- Nothing is known of a node past the last. -/
def Worklist.Confined (w : Worklist V) : Prop :=
  ∀ n, w.count ≤ n → w.frames n = .unreached ∧ w.queued n = false

variable {method options I execute keep ranges} {w w' : Worklist V} {dest : ℕ} {f : Frame V} {walk walk' : Walk V}

theorem Walk.after_add {m n : ℕ} (h : walk.after method options I execute keep ranges m = some walk') :
    walk.after method options I execute keep ranges (m + n) =
      walk'.after method options I execute keep ranges n := by
  induction m generalizing walk with
  | zero =>
    cases h
    rw [Nat.zero_add]
  | succ m ih =>
    rw [Nat.add_right_comm]
    simp only [Walk.after] at h ⊢
    split at h
    · exact ih h
    · cases h

theorem Walk.run_after {m fuel : ℕ} (h : walk.after method options I execute keep ranges m = some walk') :
    (fuel < m → run method options I execute keep ranges fuel walk = none) ∧
      run method options I execute keep ranges (m + fuel) walk =
        run method options I execute keep ranges fuel walk' := by
  induction m generalizing walk fuel with
  | zero =>
    cases h
    exact ⟨fun hlt => absurd hlt (Nat.not_lt_zero fuel), by rw [Nat.zero_add]⟩
  | succ m ih =>
    simp only [Walk.after] at h
    cases hstep : step method options I execute keep ranges walk with
    | error halt =>
      rw [hstep] at h
      cases h
    | ok next =>
      cases next with
      | none =>
        rw [hstep] at h
        cases h
      | some walk₁ =>
        rw [hstep] at h
        constructor
        · intro hlt
          cases fuel with
          | zero => rfl
          | succ fuel =>
            rw [run, hstep]
            exact (ih h).1 (Nat.lt_of_succ_lt_succ hlt)
        · rw [Nat.add_right_comm, run, hstep]
          exact (ih h).2

/-- A walk that comes back to where it was never ends. -/
theorem Walk.run_cycle {walk : Walk V} {n : ℕ} (hpos : 0 < n)
    (h : walk.after method options I execute keep ranges n = some walk) (fuel : ℕ) :
    run method options I execute keep ranges fuel walk = none := by
  induction fuel using Nat.strong_induction_on with
  | _ fuel ih =>
    by_cases hlt : fuel < n
    · exact (Walk.run_after h).1 hlt
    · have hsplit : fuel = n + (fuel - n) := by omega
      rw [hsplit, (Walk.run_after h).2]
      exact ih _ (by omega)

omit [DecidableEq V] in
theorem Worklist.Confined.record (h : w.Confined) (hlt : dest < w.count) : (w.record dest f).Confined := by
  intro n hn
  have hne : n ≠ dest := by
    rintro rfl
    exact absurd hlt (not_lt.mpr hn)
  exact ⟨(Function.update_of_ne hne ..).trans (h n hn).1, (h n hn).2⟩

omit [DecidableEq V] in
theorem Worklist.Confined.enqueue (h : w.Confined) (hlt : dest < w.count) : (w.enqueue dest).Confined := by
  intro n hn
  have hne : n ≠ dest := by
    rintro rfl
    exact absurd hlt (not_lt.mpr hn)
  exact ⟨(h n hn).1, (Function.update_of_ne hne ..).trans (h n hn).2⟩

omit [DecidableEq V] in
theorem Worklist.Confined.markReached (h : w.Confined) (hlt : dest < w.count) :
    (w.markReached dest).Confined := by
  unfold Worklist.markReached
  cases w.frames dest with
  | unreached =>
    intro n hn
    have hne : n ≠ dest := by
      rintro rfl
      exact absurd hlt (not_lt.mpr hn)
    exact ⟨(Function.update_of_ne hne ..).trans (h n hn).1, (h n hn).2⟩
  | reached => exact h
  | recorded locals stack => exact h

/-- What a step leaves of a store: nothing known past the last node, and the same nodes. -/
structure Stays (w w' : Worklist V) : Prop where
  confined : w'.Confined
  count : w'.count = w.count
  mergeNodes : w'.mergeNodes = w.mergeNodes
  fastMerge : w'.fastMerge = w.fastMerge

omit [DecidableEq V] in
theorem Stays.trans {w'' : Worklist V} (h : Stays w w') (h' : Stays w' w'') : Stays w w'' :=
  ⟨h'.confined, h'.count.trans h.count, h'.mergeNodes.trans h.mergeNodes, h'.fastMerge.trans h.fastMerge⟩

theorem Worklist.Confined.install {origin : ℕ} (h : w.Confined) (hfast : w.fastMerge = false)
    (hok : w.install I origin dest f = .ok w') : Stays w w' := by
  obtain ⟨e, he, -⟩ | ⟨hlt, met, changed, -, hinstall⟩ := install_cases w origin dest f hfast
  · rw [he] at hok
    cases hok
  rw [hinstall] at hok
  cases hok
  split_ifs
  · exact ⟨(h.record hlt).enqueue hlt, rfl, rfl, rfl⟩
  · exact ⟨h.record hlt, rfl, rfl, rfl⟩

theorem Worklist.Confined.installAll {origin : ℕ} {edges : List (ℕ × Frame V)} (h : w.Confined)
    (hfast : w.fastMerge = false) (hok : w.installAll I origin edges = .ok w') : Stays w w' := by
  induction edges generalizing w with
  | nil =>
    cases hok
    exact ⟨h, rfl, rfl, rfl⟩
  | cons edge edges ih =>
    simp only [Worklist.installAll, List.foldlM_cons] at hok
    obtain ⟨w₁, hok₁, hok⟩ := Results.bind_ok hok
    have h₁ := h.install hfast hok₁
    exact h₁.trans (ih h₁.confined (h₁.fastMerge.trans hfast) hok)

theorem Worklist.Confined.goOn {index : ℕ} {fallThrough next : Option ℕ} (h : w.Confined)
    (hfast : w.fastMerge = false) (hok : goOn method I keep w index fallThrough f = .ok (w', next)) :
    Stays w w' ∧ ∀ n, next = some n → n < w.count := by
  cases fallThrough with
  | none =>
    cases hok
    exact ⟨⟨h, rfl, rfl, rfl⟩, by simp⟩
  | some dest =>
    by_cases hcont : w.continuesTo dest = true
    · have hlt : dest < w.count := by
        simp only [Worklist.continuesTo, Bool.and_eq_true, decide_eq_true_eq] at hcont
        exact hcont.1.1.2
      by_cases hrec : (w.isRecorded dest || kept method keep dest) = true
      · simp only [BytecodePasses.goOn, fallInto, hcont, hrec, if_true] at hok
        obtain ⟨-, hsame⟩ | ⟨-, hsame⟩ := installUnqueued_cases w dest f
        · rw [hsame] at hok
          cases hok
          exact ⟨⟨h, rfl, rfl, rfl⟩, by simp⟩
        · rw [hsame] at hok
          cases hok
          refine ⟨⟨h.record hlt, rfl, rfl, rfl⟩, ?_⟩
          intro n hn
          cases hn
          exact hlt
      · simp only [BytecodePasses.goOn, fallInto, hcont, hrec, if_true, if_false, Bool.false_eq_true] at hok
        cases hok
        obtain ⟨hcount, hnodes, hfast', -⟩ := markReached_spec w dest
        refine ⟨⟨h.markReached hlt, hcount, hnodes, hfast'⟩, ?_⟩
        intro n hn
        cases hn
        exact hlt
    · simp only [BytecodePasses.goOn, fallInto, hcont, if_false, Bool.false_eq_true] at hok
      obtain ⟨w₁, hok₁, heq⟩ := Results.bind_ok hok
      cases heq
      exact ⟨h.install hfast hok₁, by simp⟩

/-- A step keeps a walk among its nodes. -/
theorem Walk.Next.stays (h : walk.work.Confined) (hfast : walk.work.fastMerge = false)
    (hnext : walk.Next I method options execute keep ranges walk') : Stays walk.work walk'.work := by
  obtain ⟨work, scratch, index⟩ := walk
  unfold Walk.Next step at hnext
  cases index with
  | some index =>
    dsimp only at hnext
    cases hvisit : BytecodePasses.visit method options I execute keep ranges work index scratch with
    | error halt =>
      rw [hvisit] at hnext
      cases hnext
    | ok walk =>
      rw [hvisit] at hnext
      cases hnext
      unfold BytecodePasses.visit at hvisit
      obtain ⟨⟨after, fallThrough, targets⟩, -, hvisit⟩ := Results.bind_ok hvisit
      obtain ⟨w₁, hok₁, hvisit⟩ := Results.bind_ok hvisit
      obtain ⟨⟨w₂, next⟩, hok₂, hvisit⟩ := Results.bind_ok hvisit
      obtain ⟨w₃, hok₃, hvisit⟩ := Results.bind_ok hvisit
      cases hvisit
      have h₁ := h.installAll hfast hok₁
      have hfast₁ := h₁.fastMerge.trans hfast
      obtain ⟨h₂, hlt⟩ := h₁.confined.goOn hfast₁ hok₂
      have h₃ := h₂.confined.installAll (h₂.fastMerge.trans hfast₁) hok₃
      have htotal := (h₁.trans h₂).trans h₃
      unfold advance
      cases next with
      | none => exact htotal
      | some dest =>
        have hdest : dest < w₃.count := by
          rw [h₃.count, h₂.count]
          exact hlt dest rfl
        dsimp only
        split_ifs
        · exact htotal
        · exact ⟨htotal.confined.enqueue hdest, htotal.count, htotal.mergeNodes, htotal.fastMerge⟩
        · exact ⟨(htotal.confined.record hdest).enqueue hdest, htotal.count, htotal.mergeNodes,
            htotal.fastMerge⟩
  | none =>
    dsimp only at hnext
    cases hpop : work.queue.pop with
    | none =>
      rw [hpop] at hnext
      cases hnext
    | some taken =>
      obtain ⟨head, queue⟩ := taken
      rw [hpop] at hnext
      dsimp only at hnext
      cases hhead : work.frames head with
      | unreached =>
        rw [hhead] at hnext
        cases hnext
      | reached =>
        rw [hhead] at hnext
        cases hnext
      | recorded locals stack =>
        rw [hhead] at hnext
        cases hnext
        refine ⟨?_, rfl, rfl, rfl⟩
        intro n hn
        have hne : n ≠ head := by
          rintro rfl
          rw [(h n hn).1] at hhead
          cases hhead
        exact ⟨(h n hn).1, (Function.update_of_ne hne ..).trans (h n hn).2⟩

theorem Walk.after_stays {n : ℕ} (h : walk.work.Confined) (hfast : walk.work.fastMerge = false)
    (hafter : walk.after method options I execute keep ranges n = some walk') :
    Stays walk.work walk'.work := by
  induction n generalizing walk with
  | zero =>
    cases hafter
    exact ⟨h, rfl, rfl, rfl⟩
  | succ n ih =>
    simp only [Walk.after] at hafter
    split at hafter
    · rename_i walk₁ hstep
      have h₁ := Walk.Next.stays h hfast hstep
      exact h₁.trans (ih h₁.confined (h₁.fastMerge.trans hfast) hafter)
    · cases hafter

omit [DecidableEq V] in
theorem Queue.ext {q q' : Queue} (hitems : q.items = q'.items) (hkind : q.isOrdered = q'.isOrdered) :
    q = q' := by
  cases q with
  | stack items =>
    cases q' with
    | stack items' => exact congrArg Queue.stack hitems
    | ordered items' => cases hkind
  | ordered items =>
    cases q' with
    | stack items' => cases hkind
    | ordered items' => exact congrArg Queue.ordered hitems

omit [DecidableEq V] in
/-- Two walks of the same nodes that know the same of each are the same. -/
theorem Walk.ext_view (h : walk.work.Confined) (hstays : Stays walk.work walk'.work)
    (hview : walk.view = walk'.view) : walk = walk' := by
  obtain ⟨⟨count, frames, queued, queue, nodes, fast⟩, scratch, index⟩ := walk
  obtain ⟨⟨count', frames', queued', queue', nodes', fast'⟩, scratch', index'⟩ := walk'
  obtain rfl : count' = count := hstays.count
  obtain rfl : nodes' = nodes := hstays.mergeNodes
  obtain rfl : fast' = fast := hstays.fastMerge
  simp only [Walk.view, Prod.mk.injEq, List.map_inj_left, List.mem_range] at hview
  obtain ⟨hbelow, ⟨hitems, hkind⟩, rfl, rfl⟩ := hview
  have hpast : ∀ n, count' ≤ n → frames n = frames' n ∧ queued n = queued' n := by
    intro n hn
    exact ⟨(h n hn).1.trans (hstays.confined n hn).1.symm, (h n hn).2.trans (hstays.confined n hn).2.symm⟩
  have hall : ∀ n, frames n = frames' n ∧ queued n = queued' n := by
    intro n
    by_cases hn : n < count'
    · exact hbelow n hn
    · exact hpast n (not_lt.mp hn)
  obtain rfl : frames = frames' := funext fun n => (hall n).1
  obtain rfl : queued = queued' := funext fun n => (hall n).2
  obtain rfl : queue = queue' := Queue.ext hitems hkind
  rfl

/-- An analysis whose walk knows the same after `n` steps as after `m` more never ends. -/
theorem analyzeKept_cycle {owner : String} {start : Walk V} {n m : ℕ} (hpos : 0 < m)
    (hoptions : options.fastMerge = false)
    (hfirst : firstWalk I method options owner = some (ranges, start))
    (hafter : (start.after method options I execute keep ranges (n + m)).isSome)
    (hview : (start.after method options I execute keep ranges n).map Walk.view =
      (start.after method options I execute keep ranges (n + m)).map Walk.view) (fuel : ℕ) :
    analyzeKept I execute fuel method owner options keep = none := by
  obtain ⟨later, hlater⟩ := Option.isSome_iff_exists.mp hafter
  rw [hlater, Option.map_some] at hview
  obtain ⟨walk, hwalk, hsame⟩ := Option.map_eq_some_iff.mp hview
  obtain ⟨entry, merge, work, -, -, hwork, rfl⟩ := firstWalk_spec hfirst
  have hempty : (newWorklist method.nodes.length options merge : Worklist V).Confined :=
    fun _ _ => ⟨rfl, rfl⟩
  have hstart := hempty.install hoptions hwork
  have hfast : work.fastMerge = false := hstart.fastMerge.trans hoptions
  have hreached := Walk.after_stays hstart.confined hfast hwalk
  have hcycle : walk.after method options I execute keep ranges m = some later := by
    rw [← Walk.after_add hwalk, hlater]
  have hback := Walk.after_stays hreached.confined (hreached.fastMerge.trans hfast) hcycle
  obtain rfl := Walk.ext_view hreached.confined hback hsame
  have hrun : run method options I execute keep ranges fuel ⟨work, entry, none⟩ = none := by
    by_cases hlt : fuel < n
    · exact (Walk.run_after hwalk).1 hlt
    · have hsplit : fuel = n + (fuel - n) := by omega
      rw [hsplit, (Walk.run_after hwalk).2]
      exact Walk.run_cycle hpos hcycle _
  rw [analyzeKept_first.2 ranges _ hfirst, hrun]

end Cycles

end Krusty.Jvm.BytecodePasses
