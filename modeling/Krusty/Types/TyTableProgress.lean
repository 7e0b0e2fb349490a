import Krusty.Lib.Refinement
import Krusty.Types.TyTable

/-! No call waits forever: who holds a shard goes on, and a call is at most thirteen actions. -/
namespace Krusty.Types.TyTable

open Runs

variable {Thread : Type} [DecidableEq Thread] (kindHash : TyKind → UInt64) {T : Table Thread} {s s' : State Thread}
  {t : Thread} {kind : TyKind} {l : Local} {lock : RwLock Thread} {alive : Bool}

/-- The shard that a thread holds by where it is, and whether to write. -/
def Local.held : Local → Option (ℕ × Bool)
  | .reading kind | .looked kind _ => some (shard kindHash kind, false)
  | .locked kind | .allocating kind | .checking kind _ | .opening kind _ | .publishing kind _ | .inserting kind _
  | .unlocking kind _ => some (shard kindHash kind, true)
  | _ => none

/-- How many actions a call has left at most. -/
def Local.left : Local → ℕ
  | .idle | .panicked _ => 0
  | .remembering .. | .indexing _ => 1
  | .unlocking .. | .asking _ => 2
  | .inserting .. => 3
  | .publishing .. => 4
  | .opening .. => 5
  | .checking .. => 6
  | .allocating _ => 7
  | .locked _ => 8
  | .absent _ => 9
  | .looked .. => 10
  | .reading _ => 11
  | .missed _ => 12
  | .interning _ => 13

/-- A lock has been given to a thread, to write or to read. -/
def RwLock.Names (lock : RwLock Thread) (t : Thread) (write : Bool) : Prop :=
  if write then lock.writer = some t else t ∈ lock.readers

variable (s) in
/-- A lock names only threads that are where it is held, each once. -/
structure Owned : Prop where
  held : ∀ {sh t} write, (s.table.locks sh).Names t write → (s.threads t).held kindHash = some (sh, write)
  nodup : ∀ sh, (s.table.locks sh).readers.Nodup

variable {kindHash}

namespace Owned

/-- An action that leaves the locks alone, from one place to another where as much is held. -/
theorem act (h : Owned kindHash s) (hlocks : s'.table.locks = s.table.locks)
    (hthreads : s'.threads = Function.update s.threads t l)
    (hheld : (s.threads t).held kindHash = l.held kindHash) : Owned kindHash s' := by
  refine ⟨fun {sh t'} write hnames => ?_, fun sh => hlocks ▸ h.nodup sh⟩
  rw [hlocks] at hnames
  rw [hthreads, Function.update_apply, ← h.held write hnames]
  split_ifs with hthread
  · rw [hthread, hheld]
  · rfl

/-- A lock changes hands: the other threads keep what they have of it. -/
theorem setLock (h : Owned kindHash s)
    (hown : ∀ x, (s.threads t).held kindHash = some x → x.1 = shard kindHash kind)
    (hlock : ∀ t' write, lock.Names t' write →
      if t' = t then l.held kindHash = some (shard kindHash kind, write)
      else (s.table.lock kindHash kind).Names t' write)
    (hnodup : lock.readers.Nodup) : Owned kindHash (s.act t (s.table.setLock kindHash kind lock) l) := by
  have hlocks (sh : ℕ) : (s.act t (s.table.setLock kindHash kind lock) l).table.locks sh =
      if sh = shard kindHash kind then lock else s.table.locks sh := Function.update_apply ..
  have hthreads (t' : Thread) : (s.act t (s.table.setLock kindHash kind lock) l).threads t' =
      if t' = t then l else s.threads t' := Function.update_apply ..
  refine ⟨fun {sh t'} write ht' => ?_, fun sh => ?_⟩
  · rw [hlocks] at ht'
    rw [hthreads]
    by_cases hsh : sh = shard kindHash kind
    · rw [if_pos hsh] at ht'
      have hother := hlock t' write ht'
      split_ifs at hother ⊢
      · rw [hsh, hother]
      · rw [hsh, h.held write hother]
    · rw [if_neg hsh] at ht'
      have hheld := h.held write ht'
      split_ifs with hthread
      · rw [hthread] at hheld
        exact absurd (hown _ hheld) hsh
      · exact hheld
  · rw [hlocks]
    split_ifs
    · exact hnodup
    · exact h.nodup sh

/-- Who holds a shard to write gives it back. -/
theorem release {poisoned : Bool} (h : Owned kindHash s)
    (hheld : (s.threads t).held kindHash = some (shard kindHash kind, true)) :
    Owned kindHash (s.act t (s.table.setLock kindHash kind
      { (s.table.lock kindHash kind) with writer := none, poisoned := poisoned }) l) := by
  refine h.setLock (fun x hx => ?_) (fun t' write hnames => ?_) (h.nodup _)
  · rw [hheld] at hx
    cases hx
    rfl
  · cases write with
    | true => cases hnames
    | false =>
      split_ifs with hthread
      · have hreader := h.held false hnames
        rw [hthread, hheld] at hreader
        cases hreader
      · exact hnames

/-- One case for each place of a call. -/
theorem advance (h : Owned kindHash s) (hstep : s.advance kindHash t alive l = some s') (hl : s.threads t = l) :
    Owned kindHash s' := by
  have hheld : (s.threads t).held kindHash = _ := congrArg (Local.held kindHash) hl
  cases l with
  | idle | panicked why => cases hstep
  | missed kind =>
    simp only [State.advance] at hstep
    split_ifs at hstep with hwriter
    · cases hstep
      exact h.act rfl rfl hheld
    · cases hstep
      refine h.setLock (fun x hx => ?_) (fun t' write hnames => ?_) (List.nodup_cons.mpr ⟨fun hreader => ?_, h.nodup _⟩)
      · cases hheld.symm.trans hx
      · cases write with
        | true => exact absurd (Option.isSome_iff_exists.mpr ⟨t', hnames⟩) hwriter
        | false =>
          split_ifs with hthread
          · rfl
          · exact (List.mem_cons.mp hnames).resolve_left hthread
      · cases hheld.symm.trans (h.held false hreader)
  | looked kind answer =>
    cases hstep
    refine h.setLock (fun x hx => ?_) (fun t' write hnames => ?_) ((h.nodup _).erase t)
    · cases hheld.symm.trans hx
      rfl
    · have hother : t' ≠ t ∧ (s.table.lock kindHash kind).Names t' write := by
        cases write with
        | true =>
          refine ⟨fun hthread => ?_, hnames⟩
          subst hthread
          cases hheld.symm.trans (h.held true hnames)
        | false => exact (h.nodup _).mem_erase_iff.mp hnames
      rw [if_neg hother.1]
      exact hother.2
  | absent kind =>
    simp only [State.advance] at hstep
    split_ifs at hstep with hfree
    · cases hstep
      exact h.act rfl rfl hheld
    · cases hstep
      refine h.setLock (fun x hx => ?_) (fun t' write hnames => ?_) (h.nodup _)
      · cases hheld.symm.trans hx
      · cases write with
        | true => rw [if_pos (Option.some.inj hnames).symm]; rfl
        | false => exact absurd (.inr (List.ne_nil_of_mem hnames)) hfree
  | remembering kind id =>
    cases hstep
    cases alive <;> exact h.act rfl rfl hheld
  | checking kind id | publishing kind id =>
    obtain rfl := Option.some.inj hstep
    split
    · exact h.release hheld
    · exact h.act rfl rfl hheld
  | unlocking kind id =>
    cases hstep
    exact h.release hheld
  | locked kind =>
    cases hstep
    exact h.act rfl rfl (by cases s.table.interned kindHash kind <;> exact hheld)
  | _ =>
    obtain rfl := Option.some.inj hstep
    repeat' split
    all_goals exact h.act rfl rfl hheld

theorem step {e : Thread × Event} (h : Owned kindHash s) (hstep : s.step kindHash e = some s') :
    Owned kindHash s' := by
  obtain ⟨t, e⟩ := e
  cases e with
  | intern kind | kind ty =>
    simp only [State.step, Option.ite_none_right_eq_some, Option.some.injEq] at hstep
    obtain ⟨hidle, rfl⟩ := hstep
    refine h.act rfl rfl ?_
    first | rw [hidle] | rw [hidle.1]
    rfl
  | step alive => exact h.advance hstep rfl

end Owned

/-- Who holds a shard never waits. -/
theorem advance_of_held {x : ℕ × Bool} (h : l.held kindHash = some x) :
    (s.advance kindHash t alive l).isSome = true := by
  cases l with
  | reading | looked | locked | allocating | checking | opening | publishing | inserting | unlocking => rfl
  | _ => cases h

/-- Some thread can go on while one is in a call. -/
theorem Owned.exists_step (h : Owned kindHash s) (ht : (s.threads t).left ≠ 0) (alive : Bool) :
    ∃ t, (s.advance kindHash t alive (s.threads t)).isSome = true := by
  by_contra hstuck
  have hfree (kind : TyKind) (t' : Thread) (write : Bool) : ¬ (s.table.lock kindHash kind).Names t' write :=
    fun hnames => hstuck ⟨t', advance_of_held (h.held write hnames)⟩
  refine hstuck ⟨t, ?_⟩
  cases hl : s.threads t with
  | idle | panicked =>
    rw [hl] at ht
    exact absurd rfl ht
  | missed kind =>
    have hwriter : (s.table.lock kindHash kind).writer = none :=
      Option.eq_none_iff_forall_ne_some.mpr fun t' => hfree kind t' true
    simp only [State.advance, hwriter]
    split_ifs <;> first | rfl | contradiction
  | absent kind =>
    have hwriter : (s.table.lock kindHash kind).writer = none :=
      Option.eq_none_iff_forall_ne_some.mpr fun t' => hfree kind t' true
    have hreaders : (s.table.lock kindHash kind).readers = [] :=
      List.eq_nil_iff_forall_not_mem.mpr fun t' => hfree kind t' false
    simp only [State.advance, hwriter, hreaders]
    split_ifs <;> first | rfl | simp_all
  | _ => rfl

/-- Every action of a call leaves fewer of them, and the other threads where they are. -/
theorem threads_of_advance (hstep : s.advance kindHash t alive l = some s') :
    ∃ l', s'.threads = Function.update s.threads t l' ∧ l'.left < l.left := by
  cases l with
  | idle | panicked why => cases hstep
  | missed kind | absent kind =>
    simp only [State.advance] at hstep
    split_ifs at hstep <;>
    · cases hstep
      exact ⟨_, rfl, by simp [Local.left]⟩
  | looked kind answer =>
    cases hstep
    exact ⟨_, rfl, by cases answer <;> simp [Local.left]⟩
  | locked kind =>
    cases hstep
    exact ⟨_, rfl, by cases s.table.interned kindHash kind <;> simp [Local.left]⟩
  | remembering kind id =>
    cases hstep
    cases alive <;> exact ⟨_, rfl, by simp [Local.left]⟩
  | _ =>
    simp only [State.advance, Option.some.injEq] at hstep
    repeat' split at hstep
    all_goals
      cases hstep
      exact ⟨_, rfl, by simp [Local.left]⟩

theorem left_of_step {e : Thread × Event} (hstep : s.step kindHash e = some s')
    (he : e.1 = t → ∃ alive, e.2 = .step alive) :
    (if e.1 = t then 1 else 0) + (s'.threads t).left ≤ (s.threads t).left := by
  obtain ⟨t', e⟩ := e
  have hgoes : ∃ l, s'.threads = Function.update s.threads t' l ∧ (t' = t → l.left < (s.threads t').left) := by
    cases e with
    | step alive =>
      obtain ⟨l, hthreads, hlt⟩ := threads_of_advance hstep
      exact ⟨l, hthreads, fun _ => hlt⟩
    | intern kind | kind ty =>
      simp only [State.step, Option.ite_none_right_eq_some, Option.some.injEq] at hstep
      obtain ⟨-, rfl⟩ := hstep
      refine ⟨_, rfl, fun ht => ?_⟩
      obtain ⟨alive, halive⟩ := he ht
      cases halive
  obtain ⟨l, hthreads, hlt⟩ := hgoes
  rw [hthreads, Function.update_apply]
  by_cases ht : t' = t
  · rw [if_pos ht, if_pos ht.symm, ← ht]
    exact (Nat.add_comm ..).trans_le (hlt ht)
  · rw [if_neg ht, if_neg fun h => ht h.symm, zero_add]

/-- In every run of any number of threads a call goes on: while one is open some thread can act, and whatever the
others do, a call has ended after thirteen actions of its own thread. -/
theorem calls_end {events : List (Thread × Event)}
    (hrun : run (State.step kindHash) (State.init kindHash) events = some s) :
    (∀ t alive, s.threads t ≠ .idle → (∀ why, s.threads t ≠ .panicked why) →
      ∃ t', (s.step kindHash (t', .step alive)).isSome = true) ∧
    ∀ t later s', (∀ e ∈ later, e.1 = t → ∃ alive, e.2 = .step alive) →
      run (State.step kindHash) s later = some s' → later.countP (·.1 = t) ≤ 13 := by
  refine ⟨fun t alive hidle hpanicked => ?_, fun t later s' hsteps hlater => ?_⟩
  · have howned : Owned kindHash s := run_induction (P := fun _ s => Owned kindHash s)
      ⟨fun {sh t} write hnames => (by cases write <;> cases hnames), fun _ => List.nodup_nil⟩
      (fun _ _ _ _ h hstep => h.step hstep) hrun
    refine howned.exists_step (t := t) (fun hleft => ?_) alive
    cases hl : s.threads t with
    | idle => exact hidle hl
    | panicked why => exact hpanicked why hl
    | _ =>
      rw [hl] at hleft
      cases hleft
  · have hcount : later.countP (·.1 = t) + (s'.threads t).left ≤ (s.threads t).left := by
      refine run_induction (P := fun es s' => (∀ e ∈ es, e.1 = t → ∃ alive, e.2 = .step alive) →
        es.countP (·.1 = t) + (s'.threads t).left ≤ (s.threads t).left) (fun _ => (Nat.zero_add _).le) ?_ hlater hsteps
      intro es s₁ e s₂ ih hstep hsteps
      have hle := ih fun e he => hsteps e (List.mem_append_left _ he)
      have hlast := left_of_step hstep (hsteps e (List.mem_append_right _ (List.mem_singleton_self e)))
      rw [List.countP_append, List.countP_singleton]
      simp only [decide_eq_true_eq]
      omega
    have hleft : (s.threads t).left ≤ 13 := by cases s.threads t <;> simp [Local.left]
    exact (Nat.le_add_right ..).trans (hcount.trans hleft)

/-- A thread waits for the shard that another one holds to write, which can go on. -/
theorem calls_end_waiting : ∃ s : State (Fin 2),
    run (State.step fun _ => 0) (State.init fun _ => 0) ([(0, .intern (.nullable 8)), (1, .intern (.nullable 8))] ++
      List.replicate 5 (0, .step true) ++ [(1, .step true)]) = some s ∧
      (s.step (fun _ => 0) (1, .step true)).isNone = true ∧
      ∃ t, (s.step (fun _ => 0) (t, .step true)).isSome = true := by
  have hlast : (run (State.step fun _ => 0) (State.init fun _ => 0)
      ([((0 : Fin 2), .intern (.nullable 8)), (1, .intern (.nullable 8))] ++
        List.replicate 5 (0, .step true) ++ [(1, .step true)])).map
      (fun s => (s.threads 1, (s.step (fun _ => 0) (1, .step true)).isNone)) =
        some (.missed (.nullable 8), true) := by decide
  obtain ⟨s, hrun, hs⟩ := Option.map_eq_some_iff.mp hlast
  obtain ⟨hmissed, hwaits⟩ := Prod.mk.inj hs
  refine ⟨s, hrun, hwaits, (calls_end hrun).1 1 true ?_ fun why => ?_⟩
  · rw [hmissed]
    decide
  · rw [hmissed]
    exact fun h => (by cases h)

end Krusty.Types.TyTable
