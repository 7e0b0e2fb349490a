import Krusty.Lib.Refinement
import Krusty.Lru.Cache

/-! How many records the heap holds: removals leave theirs behind, and only an eviction walk drops them. -/
namespace Krusty.Lru.LruCache

open Refinement

variable {K V : Type} [DecidableEq K] {self next : LruCache K V}

/-- Every live key has a record; `withCap` allows at least one key. -/
structure Recorded (cache : LruCache K V) : Prop where
  cap_pos : 0 < cache.cap
  backed : Backed (fun _ _ => True) cache.map cache.recency

/-- A new key that is inserted below capacity finds the heap below capacity too. -/
def Room (self : LruCache K V) : Op K V → Prop
  | .insert k _ => k ∉ self.map → self.len < self.cap → self.recency.length < self.cap
  | _ => True

/-- What an operation does to the number of records. -/
structure Step (op : Op K V) (before after : LruCache K V) : Prop where
  recorded : Recorded after
  cap_eq : after.cap = before.cap
  /-- Only a new key inserted below capacity adds a record. -/
  records : after.recency.length ≤ before.recency.length ∨
    ∃ k v, op = .insert k v ∧ k ∉ before.map ∧ before.len < before.cap ∧
      after.recency.length = before.recency.length + 1
  /-- A new key inserted below capacity does add one. -/
  grows : ∀ k v, op = .insert k v → k ∉ before.map → before.len < before.cap →
    after.recency.length = before.recency.length + 1

theorem recorded_withCap (cap : ℕ) : Recorded (withCap cap : LruCache K V) where
  cap_pos := lt_max_of_lt_right Nat.one_pos
  backed := backed_empty _

theorem step_getMut (h : Recorded self) (op : Op K V) (hop : ∀ k v, op ≠ .insert k v) (k : K) (write : V → V) :
    Step op self (self.getMut k write).2 := by
  have hnone : ∀ k v, op = .insert k v → k ∉ self.map → self.len < self.cap →
      (self.getMut k write).2.recency.length = self.recency.length + 1 := fun k v heq => absurd heq (hop k v)
  unfold LruCache.getMut at hnone ⊢
  split
  · exact ⟨⟨h.cap_pos, h.backed⟩, rfl, .inl le_rfl, by simpa using fun k v heq => absurd heq (hop k v)⟩
  · next v s hk =>
    exact ⟨⟨h.cap_pos, h.backed.use hk (fun _ _ => trivial) _⟩, rfl, .inl le_rfl,
      fun k v heq => absurd heq (hop k v)⟩

theorem step_insert (h : Recorded self) (k : K) (v : V) :
    ∃ next, self.insert k v = some next ∧ Step (.insert k v) self next := by
  by_cases hk : k ∈ self.map
  · obtain ⟨⟨w, s⟩, hlive⟩ := Option.isSome_iff_exists.mp (AList.lookup_isSome.mpr hk)
    refine ⟨_, insert_replacing hk v, ⟨h.cap_pos, h.backed.use hlive (fun _ _ => trivial) v⟩, rfl, .inl le_rfl, ?_⟩
    intro k' v' heq hk'
    cases heq
    exact absurd hk hk'
  · by_cases hfull : self.cap ≤ self.len
    · obtain ⟨victim, rest, hevicts, heq⟩ := insert_full (fun _ => trivial) h.backed h.cap_pos hk hfull v
      have hshorter := hevicts.shorter
      refine ⟨_, heq, ⟨h.cap_pos, hevicts.backed.insert trivial k v⟩, rfl, .inl hshorter, ?_⟩
      intro k' v' _ _ hroom
      omega
    · have hroom : self.len < self.cap := Nat.not_le.mp hfull
      refine ⟨_, insert_below hk hroom v, ⟨h.cap_pos, h.backed.insert trivial k v⟩, rfl, ?_, ?_⟩
      · exact .inr ⟨k, v, rfl, hk, hroom, rfl⟩
      · exact fun _ _ _ _ _ => rfl

theorem step_apply (h : Recorded self) (op : Op K V) :
    ∃ answer next, self.apply op = some (answer, next) ∧ Step op self next := by
  cases op with
  | get k => exact ⟨_, _, rfl, step_getMut h (.get k) (by simp) k id⟩
  | getMut k write => exact ⟨_, _, rfl, step_getMut h (.getMut k write) (by simp) k write⟩
  | insert k v =>
    obtain ⟨next, heq, hstep⟩ := step_insert h k v
    exact ⟨none, next, by rw [apply, heq]; rfl, hstep⟩
  | remove k => exact ⟨_, _, rfl, ⟨h.cap_pos, h.backed.remove k⟩, rfl, .inl le_rfl, by simp⟩
  | clear => exact ⟨_, _, rfl, ⟨h.cap_pos, backed_empty _⟩, rfl, .inl (Nat.zero_le _), by simp⟩

theorem Step.of_apply (h : Recorded self) {op : Op K V} {answer : Option V}
    (happly : self.apply op = some (answer, next)) : Step op self next := by
  obtain ⟨answer', next', heq, hstep⟩ := step_apply h op
  rw [happly] at heq
  cases heq
  exact hstep

/-- With room for every new key the records stay within the capacity. -/
theorem Step.bounded {op : Op K V} (h : Step op self next) (hroom : self.Room op)
    (hbounded : self.recency.length ≤ self.cap) : next.recency.length ≤ next.cap := by
  rw [h.cap_eq]
  rcases h.records with hle | ⟨k, v, rfl, hnew, hbelow, hlen⟩
  · exact hle.trans hbounded
  · have hless := hroom hnew hbelow
    omega

theorem Step.room {op : Op K V} (h : Step op self next) (hbounded : next.recency.length ≤ next.cap) :
    self.Room op := by
  cases op with
  | insert k v =>
    intro hnew hbelow
    have hlen := h.grows k v rfl hnew hbelow
    rw [h.cap_eq] at hbounded
    omega
  | _ => trivial

/-- Every sequence of operations goes through, each eviction walk ending. -/
theorem run_recorded (cap : ℕ) (ops : List (Op K V)) :
    ∃ answers cache, run apply (withCap cap) ops = some (answers, cache) ∧ Recorded cache := by
  induction ops using List.reverseRecOn with
  | nil => exact ⟨[], _, rfl, recorded_withCap cap⟩
  | append_singleton ops op ih =>
    obtain ⟨answers, cache, hrun, hrecorded⟩ := ih
    obtain ⟨answer, next, happly, hstep⟩ := step_apply hrecorded op
    exact ⟨answers ++ [answer], next, run_snoc.mpr ⟨_, _, _, hrun, happly, rfl⟩, hstep.recorded⟩

/-- The records stay within the capacity throughout a run exactly when every new key inserted below capacity
finds a heap below capacity. -/
theorem records_bounded_iff (cap : ℕ) (ops : List (Op K V)) :
    (∃ answers cache, run apply (withCap cap) ops = some (answers, cache)) ∧
    ((∀ before, before <+: ops → ∀ answers cache, run apply (withCap cap) before = some (answers, cache) →
        cache.recency.length ≤ cache.cap) ↔
      ∀ before op, before ++ [op] <+: ops → ∀ answers cache,
        run apply (withCap cap) before = some (answers, cache) → cache.Room op) := by
  have hreached : ∀ before answers cache, run apply (withCap cap) before = some (answers, cache) →
      Recorded (cache : LruCache K V) := by
    intro before answers cache hrun
    obtain ⟨answers', cache', hrun', hrecorded⟩ := run_recorded cap before
    rw [hrun] at hrun'
    cases hrun'
    exact hrecorded
  refine ⟨?_, ?_, ?_⟩
  · obtain ⟨answers, cache, hrun, -⟩ := run_recorded cap ops
    exact ⟨answers, cache, hrun⟩
  · intro hbounded before op hprefix answers cache hrun
    obtain ⟨answer, next, happly, hstep⟩ := step_apply (hreached _ _ _ hrun) op
    exact hstep.room (hbounded _ hprefix _ _ (run_snoc.mpr ⟨_, _, _, hrun, happly, rfl⟩))
  · intro hroom before
    -- the last operation of a prefix is one of the run's
    induction before using List.reverseRecOn with
    | nil =>
      intro _ answers cache hrun
      cases hrun
      exact Nat.zero_le _
    | append_singleton before op ih =>
      intro hprefix answers cache hrun
      obtain ⟨earlier, cache₁, answer, hrun₁, happly, -⟩ := run_snoc.mp hrun
      have hbounded := ih ((List.prefix_append ..).trans hprefix) _ _ hrun₁
      exact (Step.of_apply (hreached _ _ _ hrun₁) happly).bounded (hroom _ _ hprefix _ _ hrun₁) hbounded

/-- A key inserted, removed and inserted again has two records in a cache of one entry. -/
theorem records_exceed : ¬ ∀ (cap : ℕ) (ops : List (Op ℕ ℕ)) answers cache,
    run apply (withCap cap) ops = some (answers, cache) → cache.recency.length ≤ cache.cap := by
  intro h
  have htwo := h 1 [.insert 0 0, .remove 0, .insert 0 0] _ _ rfl
  exact absurd htwo (by decide)

end Krusty.Lru.LruCache
