import Krusty.Jvm.BytecodePasses.InstructionGraph
import Mathlib.Algebra.BigOperators.Group.Finset.Basic
import Mathlib.Algebra.Order.BigOperators.Group.Finset

/-! The instructions reachable from the first, in reverse post-order. -/
namespace Krusty.Jvm.BytecodePasses

inductive Seen where
  | unseen
  | onStack
  | done
  deriving DecidableEq

/-- A depth-first search: the path to the node it stands at, its top first, each node with the number of
successors already taken. -/
structure Search where
  state : ℕ → Seen
  stack : List (ℕ × ℕ)
  order : List ℕ

namespace Search

variable (successors : ℕ → List ℕ)

def start : Search := ⟨Function.update (fun _ => .unseen) 0 .onStack, [(0, 0)], []⟩

def step (s : Search) : Option Search :=
  match s.stack with
  | [] => none
  | (index, next) :: rest =>
    match (successors index)[next]? with
    | some target =>
      if s.state target = .unseen then
        some ⟨Function.update s.state target .onStack, (target, 0) :: (index, next + 1) :: rest, s.order⟩
      else some { s with stack := (index, next + 1) :: rest }
    | none => some ⟨Function.update s.state index .done, rest, s.order ++ [index]⟩

def run : ℕ → Search → Option (List ℕ)
  | 0, _ => none
  | fuel + 1, s =>
    match s.step successors with
    | none => some s.order.reverse
    | some s => run fuel s

end Search

/-- The visit order in which a forward dataflow converges in few sweeps; `none` when `fuel` steps do not
finish the search. -/
def InstructionGraph.reversePostOrder (fuel : ℕ) (g : InstructionGraph) : Option (List ℕ) :=
  if g.len = 0 then some [] else Search.run g.successors fuel .start

namespace Search

variable {successors : ℕ → List ℕ} {exit : ℕ}

/-- Every node seen is on the path or done, and the successors taken so far have been seen. -/
structure Covers (successors : ℕ → List ℕ) (exit : ℕ) (s : Search) : Prop where
  origin : s.state 0 ≠ .unseen
  kept : ∀ i, s.state i ≠ .unseen → i ∈ s.stack.map Prod.fst ∨ i ∈ s.order
  inRange : ∀ i, s.state i ≠ .unseen → i ≤ exit
  taken : ∀ i next, (i, next) ∈ s.stack → s.state i ≠ .unseen ∧
    ∀ k < next, ∀ j, (successors i)[k]? = some j → s.state j ≠ .unseen
  finished : ∀ i ∈ s.order, ∀ j ∈ successors i, s.state j ≠ .unseen

theorem start_covers : Covers successors exit start where
  origin := by simp [start]
  kept := by
    intro i hi
    by_cases h0 : i = 0
    · simp [start, h0]
    · simp [start, Function.update_of_ne h0] at hi
  inRange := by
    intro i hi
    by_cases h0 : i = 0
    · omega
    · simp [start, Function.update_of_ne h0] at hi
  taken := by
    intro i next hmem
    simp only [start, List.mem_singleton, Prod.mk.injEq] at hmem
    obtain ⟨rfl, rfl⟩ := hmem
    exact ⟨by simp [start], fun k hk => absurd hk (Nat.not_lt_zero k)⟩
  finished := by simp [start]

/-- A node seen stays seen when another changes to a mark that is not `unseen`. -/
theorem seen_update {state : ℕ → Seen} {i j : ℕ} {mark : Seen} (hmark : mark ≠ .unseen)
    (h : state j ≠ .unseen) : Function.update state i mark j ≠ .unseen := by
  by_cases hj : j = i
  · rwa [hj, Function.update_self]
  · rwa [Function.update_of_ne hj]

theorem Covers.step {s s' : Search} (hrange : ∀ i j, j ∈ successors i → j ≤ exit)
    (h : Covers successors exit s) (hstep : s.step successors = some s') : Covers successors exit s' := by
  unfold Search.step at hstep
  cases hstack : s.stack with
  | nil => simp [hstack] at hstep
  | cons top rest =>
    obtain ⟨index, next⟩ := top
    have htop := h.taken index next (by simp [hstack])
    have hrest : ∀ i k, (i, k) ∈ rest → s.state i ≠ .unseen ∧
        ∀ m < k, ∀ j, (successors i)[m]? = some j → s.state j ≠ .unseen := by
      intro i k hmem
      exact h.taken i k (by simp [hstack, hmem])
    rw [hstack] at hstep
    cases hnext : (successors index)[next]? with
    | some target =>
      have hto : target ≤ exit := hrange index target (List.mem_of_getElem? hnext)
      simp only [hnext] at hstep
      have hadvance : ∀ state : ℕ → Seen, state target ≠ .unseen →
          (∀ j, s.state j ≠ .unseen → state j ≠ .unseen) → ∀ m < next + 1, ∀ j,
          (successors index)[m]? = some j → state j ≠ .unseen := by
        intro state hseen hgrow m hm j hj
        rcases Nat.lt_succ_iff_lt_or_eq.mp hm with hlt | rfl
        · exact hgrow j (htop.2 m hlt j hj)
        · rw [hnext] at hj
          cases hj
          exact hseen
      split_ifs at hstep with hunseen
      · obtain rfl := Option.some.inj hstep
        have hgrow : ∀ j, s.state j ≠ .unseen → Function.update s.state target .onStack j ≠ .unseen :=
          fun j => seen_update (by simp)
        have hold : ∀ i, i ≠ target → Function.update s.state target .onStack i ≠ .unseen →
            s.state i ≠ .unseen := by
          intro i hi hseen
          rwa [Function.update_of_ne hi] at hseen
        refine ⟨hgrow 0 h.origin, ?_, ?_, ?_, fun i hi j hj => hgrow j (h.finished i hi j hj)⟩
        · intro i hi
          by_cases hit : i = target
          · simp [hit]
          · have := h.kept i (hold i hit hi)
            simp only [hstack, List.map_cons, List.mem_cons] at this ⊢
            tauto
        · intro i hi
          by_cases hit : i = target
          · rwa [hit]
          · exact h.inRange i (hold i hit hi)
        · intro i k hmem
          simp only [List.mem_cons, Prod.mk.injEq] at hmem
          rcases hmem with ⟨rfl, rfl⟩ | ⟨rfl, rfl⟩ | hmem
          · exact ⟨by simp, fun m hm => absurd hm (Nat.not_lt_zero m)⟩
          · exact ⟨hgrow i htop.1, hadvance _ (by simp) hgrow⟩
          · have := hrest i k hmem
            exact ⟨hgrow i this.1, fun m hm j hj => hgrow j (this.2 m hm j hj)⟩
      · obtain rfl := Option.some.inj hstep
        refine ⟨h.origin, ?_, h.inRange, ?_, h.finished⟩
        · intro i hi
          have := h.kept i hi
          simpa [hstack] using this
        · intro i k hmem
          simp only [List.mem_cons, Prod.mk.injEq] at hmem
          rcases hmem with ⟨rfl, rfl⟩ | hmem
          · exact ⟨htop.1, hadvance s.state hunseen fun j hj => hj⟩
          · exact hrest i k hmem
    | none =>
      simp only [hnext] at hstep
      obtain rfl := Option.some.inj hstep
      have hgrow : ∀ j, s.state j ≠ .unseen → Function.update s.state index .done j ≠ .unseen :=
        fun j => seen_update (by simp)
      have hold : ∀ i, Function.update s.state index .done i ≠ .unseen → s.state i ≠ .unseen := by
        intro i hi
        by_cases hii : i = index
        · rw [hii]
          exact htop.1
        · rwa [Function.update_of_ne hii] at hi
      refine ⟨hgrow 0 h.origin, ?_, fun i hi => h.inRange i (hold i hi), ?_, ?_⟩
      · intro i hi
        have := h.kept i (hold i hi)
        simp only [hstack, List.map_cons, List.mem_cons, List.mem_append] at this ⊢
        tauto
      · intro i k hmem
        have := hrest i k hmem
        exact ⟨hgrow i this.1, fun m hm j hj => hgrow j (this.2 m hm j hj)⟩
      · intro i hi j hj
        rcases List.mem_append.mp hi with hi | hi
        · exact hgrow j (h.finished i hi j hj)
        · rw [List.mem_singleton.mp hi] at hj
          obtain ⟨m, hm⟩ := List.getElem?_of_mem hj
          have hlt : m < next := by
            by_contra hle
            have hlen := (List.getElem?_eq_none_iff.mp hnext)
            have := (List.getElem?_eq_some_iff.mp hm).1
            omega
          exact hgrow j (htop.2 m hlt j hm)

/-- A node the edges lead to from the first. -/
def Reaches (successors : ℕ → List ℕ) : ℕ → Prop :=
  Relation.ReflTransGen (fun i j => j ∈ successors i) 0

theorem Covers.mem_order {s : Search} (h : Covers successors exit s) (hdone : s.step successors = none)
    {i : ℕ} (hi : Reaches successors i) : i ∈ s.order := by
  have hempty : s.stack = [] := by
    unfold Search.step at hdone
    cases hstack : s.stack with
    | nil => rfl
    | cons top rest =>
      simp only [hstack] at hdone
      split at hdone
      · split_ifs at hdone
      · cases hdone
  have hseen : ∀ j, s.state j ≠ .unseen → j ∈ s.order := by
    intro j hj
    simpa [hempty] using h.kept j hj
  induction hi with
  | refl => exact hseen 0 h.origin
  | tail _ hj ih => exact hseen _ (h.finished _ ih _ hj)

/-- How many steps the search has left at most. -/
def work (successors : ℕ → List ℕ) (exit : ℕ) (s : Search) : ℕ :=
  (s.stack.map fun entry => (successors entry.1).length - entry.2 + 1).sum +
    ∑ i ∈ Finset.range (exit + 1), if s.state i = .unseen then (successors i).length + 1 else 0

theorem sum_see {state : ℕ → Seen} {target : ℕ} (hto : target ≤ exit) (hunseen : state target = .unseen)
    (weight : ℕ → ℕ) :
    (∑ i ∈ Finset.range (exit + 1), if Function.update state target .onStack i = .unseen then weight i else 0) +
        weight target =
      ∑ i ∈ Finset.range (exit + 1), if state i = .unseen then weight i else 0 := by
  have hmem : target ∈ Finset.range (exit + 1) := Finset.mem_range.mpr (by omega)
  rw [← Finset.add_sum_erase _ _ hmem, ← Finset.add_sum_erase _ (fun i => if state i = _ then _ else _) hmem]
  rw [if_neg (by simp), if_pos hunseen, Nat.zero_add, Nat.add_comm]
  congr 1
  apply Finset.sum_congr rfl
  intro i hi
  rw [Function.update_of_ne (Finset.ne_of_mem_erase hi)]

theorem work_step {s s' : Search} (hrange : ∀ i j, j ∈ successors i → j ≤ exit)
    (h : Covers successors exit s) (hstep : s.step successors = some s') :
    work successors exit s' < work successors exit s := by
  unfold Search.step at hstep
  cases hstack : s.stack with
  | nil => simp [hstack] at hstep
  | cons top rest =>
    obtain ⟨index, next⟩ := top
    rw [hstack] at hstep
    cases hnext : (successors index)[next]? with
    | some target =>
      have hlt : next < (successors index).length := (List.getElem?_eq_some_iff.mp hnext).1
      simp only [hnext] at hstep
      split_ifs at hstep with hunseen
      · obtain rfl := Option.some.inj hstep
        have hto : target ≤ exit := hrange index target (List.mem_of_getElem? hnext)
        have hsum := sum_see hto hunseen fun i => (successors i).length + 1
        simp only [work, hstack, List.map_cons, List.sum_cons]
        omega
      · obtain rfl := Option.some.inj hstep
        simp only [work, hstack, List.map_cons, List.sum_cons]
        omega
    | none =>
      simp only [hnext] at hstep
      obtain rfl := Option.some.inj hstep
      have hseen := (h.taken index next (by simp [hstack])).1
      have hsame : ∀ i, (Function.update s.state index .done i = .unseen) = (s.state i = .unseen) := by
        intro i
        by_cases hi : i = index
        · simp [hi, hseen]
        · rw [Function.update_of_ne hi]
      simp only [work, hstack, List.map_cons, List.sum_cons, hsame]
      omega

theorem run_total (hrange : ∀ i j, j ∈ successors i → j ≤ exit) : ∀ (left : ℕ) {s : Search},
    work successors exit s = left → Covers successors exit s →
    ∃ order, (∀ fuel, left < fuel → run successors fuel s = some order) ∧
      ∀ i, Reaches successors i → i ∈ order := by
  intro left
  induction left using Nat.strongRecOn with
  | ind left ih =>
    intro s hleft h
    cases hstep : s.step successors with
    | none =>
      refine ⟨s.order.reverse, ?_, fun i hi => List.mem_reverse.mpr (h.mem_order hstep hi)⟩
      intro fuel hfuel
      obtain ⟨fuel, rfl⟩ := Nat.exists_eq_succ_of_ne_zero (by omega : fuel ≠ 0)
      simp [run, hstep]
    | some s' =>
      have hless : work successors exit s' < left := hleft ▸ work_step hrange h hstep
      obtain ⟨order, hrun, hall⟩ := ih _ hless rfl (h.step hrange hstep)
      refine ⟨order, ?_, hall⟩
      intro fuel hfuel
      obtain ⟨fuel, rfl⟩ := Nat.exists_eq_succ_of_ne_zero (by omega : fuel ≠ 0)
      simp only [run, hstep]
      exact hrun fuel (by omega)

end Search

/-- The search ends, and its order has every reachable instruction. -/
theorem InstructionGraph.reversePostOrder_total {method : MethodNode} {g : InstructionGraph}
    (h : g.Models method) : ∃ enough order, (∀ fuel, enough ≤ fuel → g.reversePostOrder fuel = some order) ∧
      (g.len ≠ 0 → ∀ i, Search.Reaches g.successors i → i ∈ order) := by
  unfold reversePostOrder
  by_cases hlen : g.len = 0
  · exact ⟨0, [], by simp [hlen], fun hne => absurd hlen hne⟩
  · obtain ⟨order, hrun, hall⟩ := Search.run_total (fun i j hj => h.successors_le hj) _ rfl
      (Search.start_covers : Search.Covers g.successors g.len .start)
    refine ⟨Search.work g.successors g.len .start + 1, order, ?_, fun _ => hall⟩
    intro fuel hfuel
    rw [if_neg hlen]
    exact hrun fuel (Nat.lt_of_succ_le hfuel)

end Krusty.Jvm.BytecodePasses
