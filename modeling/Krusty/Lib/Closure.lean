import Krusty.Lib.SortedSets
import Mathlib.Logic.Relation
import Mathlib.Algebra.Order.BigOperators.Group.List
import Mathlib.Algebra.Order.Ring.Nat

/-! What a fold over a list leaves true. -/
namespace Folds

variable {σ β : Type*} {p : σ → Prop} {q : β → Prop} {f : σ → β → σ}

/-- A property that each element may give, and none takes away. -/
theorem foldl_or (h : ∀ s x, p (f s x) ↔ p s ∨ q x) (xs : List β) (s : σ) : p (xs.foldl f s) ↔ p s ∨ ∃ x ∈ xs, q x := by
  induction xs generalizing s with
  | nil => simp
  | cons x xs ih => rw [List.foldl_cons, ih, h, or_assoc, List.exists_mem_cons_iff]

theorem foldl_preserves (h : ∀ s x, p s → p (f s x)) (xs : List β) {s : σ} (hs : p s) : p (xs.foldl f s) := by
  induction xs generalizing s with
  | nil => exact hs
  | cons x xs ih => exact ih (h s x hs)

end Folds

/-! Worklists that mark a node when they take it off or when they queue it, and trails through the nodes that are not
blocked. -/
namespace Closure

open Relation

variable {α : Type} (next : α → List α)

def Edge (a b : α) : Prop := b ∈ next a

section Worklist

variable [DecidableEq α]

/-- The nodes marked once the list is empty, its end taken first. -/
def close : ℕ → List α → List α → List α
  | 0, seen, _ => seen
  | _ + 1, seen, [] => seen
  | fuel + 1, seen, a :: pending =>
    if a ∈ seen then close fuel seen pending else close fuel (a :: seen) ((next a).reverse ++ pending)

/-- The edges of the nodes of `domain` yet to be marked. -/
def edgesLeft (domain seen : List α) : ℕ := (domain.map fun a => if a ∈ seen then 0 else (next a).length).sum

/-- What is marked or still to be reached. -/
def Reached (seen pending : List α) (b : α) : Prop := b ∈ seen ∨ ∃ a ∈ pending, ReflTransGen (Edge next) a b

/-- The edges of a marked node lead to nodes that are marked or listed. -/
def Closed (seen pending : List α) : Prop := ∀ a ∈ seen, ∀ b ∈ next a, b ∈ seen ∨ b ∈ pending

variable {next} {domain seen pending : List α} {a b : α}

theorem edgesLeft_anti {seen' : List α} (h : seen ⊆ seen') : edgesLeft next domain seen' ≤ edgesLeft next domain seen := by
  apply List.sum_le_sum
  intro c _
  split_ifs with hlater hseen hseen
  · exact le_refl 0
  · exact Nat.zero_le _
  · exact absurd (h hseen) hlater
  · exact le_refl _

theorem edgesLeft_cons_le : edgesLeft next domain (a :: seen) ≤ edgesLeft next domain seen :=
  edgesLeft_anti fun _ hb => List.mem_cons_of_mem a hb

theorem edgesLeft_cons_lt (ha : a ∈ domain) (hseen : a ∉ seen) :
    edgesLeft next domain (a :: seen) + (next a).length ≤ edgesLeft next domain seen := by
  induction domain with
  | nil => cases ha
  | cons c domain ih =>
    have hle : edgesLeft next domain (a :: seen) ≤ edgesLeft next domain seen := edgesLeft_cons_le
    unfold edgesLeft at hle ih ⊢
    rw [List.map_cons, List.map_cons, List.sum_cons, List.sum_cons]
    by_cases hca : c = a
    · rw [hca, if_pos List.mem_cons_self, if_neg hseen]
      omega
    · have hrest := ih ((List.mem_cons.mp ha).resolve_left (Ne.symm hca))
      have hcons : c ∈ a :: seen ↔ c ∈ seen := by simp [hca]
      simp only [hcons]
      omega

omit [DecidableEq α] in
theorem Closed.reached (h : Closed next seen pending) (ha : a ∈ seen) (hab : ReflTransGen (Edge next) a b) :
    Reached next seen pending b := by
  induction hab using ReflTransGen.head_induction_on with
  | refl => exact .inl ha
  | head hedge hrest ih =>
    cases h _ ha _ hedge with
    | inl hseen => exact ih hseen
    | inr hpending => exact .inr ⟨_, hpending, hrest⟩

theorem mem_close (hdomain : ∀ a, next a ≠ [] → a ∈ domain) {fuel : ℕ} (hclosed : Closed next seen pending)
    (hfuel : pending.length + edgesLeft next domain seen ≤ fuel) :
    b ∈ close next fuel seen pending ↔ Reached next seen pending b := by
  induction fuel generalizing seen pending with
  | zero =>
    have hnil : pending = [] := List.eq_nil_of_length_eq_zero (by omega)
    simp [close, Reached, hnil]
  | succ fuel ih =>
    cases pending with
    | nil => simp [close, Reached]
    | cons a pending =>
      rw [List.length_cons] at hfuel
      by_cases ha : a ∈ seen
      · have hclosed' : Closed next seen pending := by
          intro c hc d hd
          cases hclosed c hc d hd with
          | inl h => exact .inl h
          | inr h =>
            cases h with
            | head => exact .inl ha
            | tail _ h => exact .inr h
        rw [close, if_pos ha, ih hclosed' (by omega)]
        constructor
        · intro h
          cases h with
          | inl h => exact .inl h
          | inr h =>
            obtain ⟨c, hc, hcb⟩ := h
            exact .inr ⟨c, List.mem_cons_of_mem a hc, hcb⟩
        · intro h
          cases h with
          | inl h => exact .inl h
          | inr h =>
            obtain ⟨c, hc, hcb⟩ := h
            cases hc with
            | head => exact hclosed'.reached ha hcb
            | tail _ hc => exact .inr ⟨c, hc, hcb⟩
      · have hclosed' : Closed next (a :: seen) ((next a).reverse ++ pending) := by
          intro c hc d hd
          cases hc with
          | head => exact .inr (List.mem_append_left _ (List.mem_reverse.mpr hd))
          | tail _ hc =>
            cases hclosed c hc d hd with
            | inl h => exact .inl (List.mem_cons_of_mem a h)
            | inr h =>
              cases h with
              | head => exact .inl List.mem_cons_self
              | tail _ h => exact .inr (List.mem_append_right _ h)
        have hfuel' : ((next a).reverse ++ pending).length + edgesLeft next domain (a :: seen) ≤ fuel := by
          rw [List.length_append, List.length_reverse]
          by_cases hnext : next a = []
          · have hle : edgesLeft next domain (a :: seen) ≤ edgesLeft next domain seen := edgesLeft_cons_le
            rw [hnext, List.length_nil]
            omega
          · have hlt : edgesLeft next domain (a :: seen) + (next a).length ≤ edgesLeft next domain seen :=
              edgesLeft_cons_lt (hdomain a hnext) ha
            omega
        rw [close, if_neg ha, ih hclosed' hfuel']
        constructor
        · intro h
          cases h with
          | inl h =>
            cases h with
            | head => exact .inr ⟨b, List.mem_cons_self, .refl⟩
            | tail _ h => exact .inl h
          | inr h =>
            obtain ⟨c, hc, hcb⟩ := h
            cases List.mem_append.mp hc with
            | inl hc => exact .inr ⟨a, List.mem_cons_self, .head (List.mem_reverse.mp hc) hcb⟩
            | inr hc => exact .inr ⟨c, List.mem_cons_of_mem a hc, hcb⟩
        · intro h
          cases h with
          | inl h => exact .inl (List.mem_cons_of_mem a h)
          | inr h =>
            obtain ⟨c, hc, hcb⟩ := h
            cases hc with
            | head => exact hclosed'.reached List.mem_cons_self hcb
            | tail _ hc => exact .inr ⟨c, List.mem_append_right _ hc, hcb⟩

end Worklist

section Queue

variable [LinearOrder α]

/-- Mark a node, and queue it if it was not marked. -/
def enqueue (front : List α × List α) (a : α) : List α × List α :=
  if a ∈ front.1 then front else (SortedSets.insert a front.1, front.2 ++ [a])

/-- The nodes marked once the queue is empty. -/
def spread : ℕ → List α → List α → List α
  | 0, seen, _ => seen
  | _ + 1, seen, [] => seen
  | fuel + 1, seen, a :: queue =>
    let front := (next a).foldl enqueue (seen, queue)
    spread fuel front.1 front.2

/-- The marks and the queue entries to come. -/
def work (domain : List α) (front : List α × List α) : ℕ :=
  front.2.length + (domain.filter (· ∉ front.1)).length

/-- A marked node that has left the queue leads to marked nodes only. -/
def Settled (front : List α × List α) : Prop := ∀ a ∈ front.1, a ∉ front.2 → ∀ b ∈ next a, b ∈ front.1

variable {next} {domain targets seen queue : List α} {front : List α × List α} {a b : α}

theorem mem_foldl_enqueue : b ∈ (targets.foldl enqueue front).1 ↔ b ∈ front.1 ∨ b ∈ targets := by
  induction targets generalizing front with
  | nil => simp
  | cons a targets ih =>
    rw [List.foldl_cons, ih, enqueue, List.mem_cons]
    split_ifs with ha
    · constructor
      · exact Or.imp_right .inr
      · intro h
        cases h with
        | inl h => exact .inl h
        | inr h =>
          cases h with
          | inl h => exact .inl (h ▸ ha)
          | inr h => exact .inr h
    · rw [SortedSets.mem_insert]
      tauto

theorem mem_queue_foldl_enqueue :
    b ∈ (targets.foldl enqueue front).2 ↔ b ∈ front.2 ∨ b ∈ targets ∧ b ∉ front.1 := by
  induction targets generalizing front with
  | nil => simp
  | cons a targets ih =>
    rw [List.foldl_cons, ih, enqueue, List.mem_cons]
    by_cases ha : a ∈ front.1
    · by_cases hba : b = a
      · simp [ha, hba]
      · simp [ha, hba]
    · by_cases hba : b = a
      · simp [ha, hba]
      · simp [ha, hba]

theorem sorted_foldl_enqueue (h : front.1.Pairwise (· < ·)) : (targets.foldl enqueue front).1.Pairwise (· < ·) := by
  induction targets generalizing front with
  | nil => exact h
  | cons a targets ih =>
    apply ih
    rw [enqueue]
    split_ifs
    · exact h
    · exact SortedSets.pairwise_insert h

theorem work_foldl_enqueue_le (h : ∀ a ∈ targets, a ∈ domain) :
    work domain (targets.foldl enqueue front) ≤ work domain front := by
  induction targets generalizing front with
  | nil => exact le_refl _
  | cons a targets ih =>
    refine (ih fun b hb => h b (List.mem_cons_of_mem a hb)).trans ?_
    rw [enqueue]
    split_ifs with ha
    · exact le_refl _
    · have hlt : (domain.filter (· ∉ SortedSets.insert a front.1)).length < (domain.filter (· ∉ front.1)).length := by
        have hsub : domain.filter (· ∉ SortedSets.insert a front.1) =
            (domain.filter (· ∉ front.1)).filter (· ≠ a) := by
          rw [List.filter_filter]
          apply List.filter_congr
          intro b _
          rw [Bool.eq_iff_iff]
          simp
        rw [hsub]
        apply List.length_filter_lt_length_iff_exists.mpr
        exact ⟨a, List.mem_filter.mpr ⟨h a List.mem_cons_self, by simpa using ha⟩, by simp⟩
      rw [work, work, List.length_append, List.length_singleton]
      dsimp only
      omega

theorem Settled.reached (h : Settled next front) (ha : a ∈ front.1) (hab : TransGen (Edge next) a b) :
    b ∈ front.1 ∨ ∃ c ∈ front.2, TransGen (Edge next) c b := by
  induction hab using TransGen.head_induction_on with
  | @single a hedge =>
    by_cases hqueue : a ∈ front.2
    · exact .inr ⟨a, hqueue, .single hedge⟩
    · exact .inl (h a ha hqueue b hedge)
  | @head a c hedge hrest ih =>
    by_cases hqueue : a ∈ front.2
    · exact .inr ⟨a, hqueue, .head hedge hrest⟩
    · exact ih (h a ha hqueue c hedge)

theorem Settled.foldl_enqueue (h : Settled next (seen, a :: queue)) :
    Settled next ((next a).foldl enqueue (seen, queue)) := by
  intro b hb hqueue c hc
  rw [mem_queue_foldl_enqueue, not_or] at hqueue
  have hseen : b ∈ seen := by
    cases mem_foldl_enqueue.mp hb with
    | inl hseen => exact hseen
    | inr hnext =>
      by_contra hnot
      exact hqueue.2 ⟨hnext, hnot⟩
  rw [mem_foldl_enqueue]
  by_cases hba : b = a
  · exact .inr (hba ▸ hc)
  · have hout : b ∉ a :: queue := by
      intro hmem
      exact hqueue.1 ((List.mem_cons.mp hmem).resolve_left hba)
    exact .inl (h b hseen hout c hc)

/-- One round leaves what is marked or reached from the queue the same. -/
theorem reached_foldl_enqueue (h : Settled next (seen, a :: queue)) :
    (b ∈ ((next a).foldl enqueue (seen, queue)).1 ∨
      ∃ c ∈ ((next a).foldl enqueue (seen, queue)).2, TransGen (Edge next) c b) ↔
    b ∈ seen ∨ ∃ c ∈ a :: queue, TransGen (Edge next) c b := by
  constructor
  · intro hb
    cases hb with
    | inl hb =>
      cases mem_foldl_enqueue.mp hb with
      | inl hb => exact .inl hb
      | inr hb => exact .inr ⟨a, List.mem_cons_self, .single hb⟩
    | inr hb =>
      obtain ⟨c, hc, hcb⟩ := hb
      cases mem_queue_foldl_enqueue.mp hc with
      | inl hc => exact .inr ⟨c, List.mem_cons_of_mem a hc, hcb⟩
      | inr hc => exact .inr ⟨a, List.mem_cons_self, .head hc.1 hcb⟩
  · intro hb
    cases hb with
    | inl hb => exact .inl (mem_foldl_enqueue.mpr (.inl hb))
    | inr hb =>
      obtain ⟨c, hc, hcb⟩ := hb
      cases hc with
      | tail _ hc => exact .inr ⟨c, mem_queue_foldl_enqueue.mpr (.inl hc), hcb⟩
      | head =>
        obtain ⟨d, had, hdb⟩ := TransGen.head'_iff.mp hcb
        have hd : d ∈ ((next a).foldl enqueue (seen, queue)).1 := mem_foldl_enqueue.mpr (.inr had)
        cases Relation.reflTransGen_iff_eq_or_transGen.mp hdb with
        | inl heq => exact .inl (heq ▸ hd)
        | inr hdb => exact h.foldl_enqueue.reached hd hdb

theorem mem_spread (hdomain : ∀ a, ∀ b ∈ next a, b ∈ domain) {fuel : ℕ} (h : Settled next (seen, queue))
    (hfuel : work domain (seen, queue) ≤ fuel) :
    b ∈ spread next fuel seen queue ↔ b ∈ seen ∨ ∃ a ∈ queue, TransGen (Edge next) a b := by
  induction fuel generalizing seen queue with
  | zero =>
    have hnil : queue = [] := List.eq_nil_of_length_eq_zero (by rw [work] at hfuel; dsimp only at hfuel; omega)
    simp [spread, hnil]
  | succ fuel ih =>
    cases queue with
    | nil => simp [spread]
    | cons a queue =>
      have hle : work domain ((next a).foldl enqueue (seen, queue)) ≤ work domain (seen, queue) :=
        work_foldl_enqueue_le (hdomain a)
      have hwork : work domain ((next a).foldl enqueue (seen, queue)) ≤ fuel := by
        refine hle.trans ?_
        rw [work, List.length_cons] at hfuel
        rw [work]
        dsimp only at hfuel ⊢
        omega
      rw [spread, ih h.foldl_enqueue hwork]
      exact reached_foldl_enqueue h

theorem sorted_spread {fuel : ℕ} (h : seen.Pairwise (· < ·)) : (spread next fuel seen queue).Pairwise (· < ·) := by
  induction fuel generalizing seen queue with
  | zero => exact h
  | succ fuel ih =>
    cases queue with
    | nil => exact h
    | cons a queue => exact ih (sorted_foldl_enqueue h)

end Queue

/-- Steps from one node to another, neither of which nor any between is blocked. -/
inductive Trail (blocked : α → Prop) : ℕ → α → α → Prop
  | refl {a : α} (h : ¬blocked a) : Trail blocked 0 a a
  | head {n : ℕ} {a b c : α} (h : ¬blocked a) (edge : Edge next a b) (rest : Trail blocked n b c) :
    Trail blocked (n + 1) a c

variable {next} {blocked : α → Prop} {n m : ℕ} {a b : α}

theorem Trail.start (h : Trail next blocked n a b) : ¬blocked a := by
  cases h with
  | refl h => exact h
  | head h _ _ => exact h

theorem Trail.reaches (h : Trail next blocked n a b) : ReflTransGen (Edge next) a b := by
  induction h with
  | refl _ => exact .refl
  | head _ edge _ ih => exact .head edge ih

/-- A longer trail passes a node that has an edge. -/
theorem Trail.through (h : Trail next blocked n a b) (hm : m < n) :
    ∃ c, Trail next blocked m a c ∧ next c ≠ [] := by
  induction m generalizing n a with
  | zero =>
    cases h with
    | refl => exact absurd hm (Nat.lt_irrefl 0)
    | head ha edge _ => exact ⟨a, .refl ha, List.ne_nil_of_mem edge⟩
  | succ m ih =>
    cases h with
    | refl => exact absurd hm (Nat.not_lt_zero _)
    | head ha edge rest =>
      obtain ⟨c, hc, hne⟩ := ih rest (Nat.lt_of_succ_lt_succ hm)
      exact ⟨c, .head ha edge hc, hne⟩

theorem exists_trail (h : ReflTransGen (Edge next) a b)
    (hfree : ∀ c, ReflTransGen (Edge next) a c → ReflTransGen (Edge next) c b → ¬blocked c) :
    ∃ n, Trail next blocked n a b := by
  induction h using ReflTransGen.head_induction_on with
  | refl => exact ⟨0, .refl (hfree b .refl .refl)⟩
  | head edge rest ih =>
    obtain ⟨n, hn⟩ := ih fun c hc hcb => hfree c (.head edge hc) hcb
    exact ⟨n + 1, .head (hfree _ .refl (.head edge rest)) edge hn⟩

theorem Trail.congr {other : α → Prop} (h : Trail next blocked n a b)
    (hsame : ∀ c, ReflTransGen (Edge next) a c → (blocked c ↔ other c)) : Trail next other n a b := by
  induction h with
  | refl ha => exact .refl fun hother => ha ((hsame _ .refl).mpr hother)
  | head ha edge _ ih =>
    have hrest := ih fun c hc => hsame c (.head edge hc)
    exact .head (fun hother => ha ((hsame _ .refl).mpr hother)) edge hrest

end Closure
