import Mathlib.Logic.Relation
import Mathlib.Data.List.Nodup
import Mathlib.Data.Finset.Card

/-! Lists in which each node follows what it depends on, and what keeps a node out of every such list. -/
namespace Topological

open Relation

variable {α : Type} {deps : α → List α} {order nodes : List α} {a b : α}

/-- `a` depends directly on `b`. -/
def Dep (deps : α → List α) (a b : α) : Prop := b ∈ deps a

def Acyclic (deps : α → List α) : Prop := ∀ a, ¬TransGen (Dep deps) a a

/-- `a` is on a cycle or depends on one. -/
def ReachesCycle (deps : α → List α) (a : α) : Prop := ∃ c, ReflTransGen (Dep deps) a c ∧ TransGen (Dep deps) c c

/-- Each node stands after all it depends on. -/
def Sorted (deps : α → List α) (order : List α) : Prop :=
  ∀ before a after, order = before ++ a :: after → ∀ b ∈ deps a, b ∈ before

theorem sorted_nil : Sorted deps [] := by
  intro before a after h
  simp at h

theorem Sorted.concat (h : Sorted deps order) (ha : ∀ b ∈ deps a, b ∈ order) : Sorted deps (order ++ [a]) := by
  intro before c after heq
  cases after.eq_nil_or_concat' with
  | inl hnil =>
    subst hnil
    have hparts := List.append_inj' heq rfl
    have hca : a = c := by simpa using hparts.2
    rw [← hca, ← hparts.1]
    exact ha
  | inr hconcat =>
    obtain ⟨front, last, hafter⟩ := hconcat
    subst hafter
    rw [← List.cons_append, ← List.append_assoc] at heq
    exact h before c front (List.append_inj' heq rfl).1

theorem Sorted.mem_of_dep (h : Sorted deps order) (ha : a ∈ order) (hab : Dep deps a b) : b ∈ order := by
  obtain ⟨before, after, heq⟩ := List.append_of_mem ha
  rw [heq]
  exact List.mem_append_left _ (h before a after heq b hab)

theorem Sorted.mem_of_reaches (h : Sorted deps order) (ha : a ∈ order) (hab : ReflTransGen (Dep deps) a b) :
    b ∈ order := by
  induction hab with
  | refl => exact ha
  | tail _ hstep ih => exact h.mem_of_dep ih hstep

/-- What a node depends on stands before it. -/
theorem Sorted.before_of_transGen (h : Sorted deps order) {before after : List α} (heq : order = before ++ a :: after)
    (hab : TransGen (Dep deps) a b) : b ∈ before := by
  induction hab with
  | single hstep => exact h before a after heq _ hstep
  | @tail c d _ hstep ih =>
    obtain ⟨front, rest, hbefore⟩ := List.append_of_mem ih
    have hmem := h front c (rest ++ a :: after) (by rw [heq, hbefore]; simp) d hstep
    rw [hbefore]
    exact List.mem_append_left _ hmem

/-- No node of a sorted list without repetitions depends on a cycle. -/
theorem Sorted.not_reachesCycle (h : Sorted deps order) (hnodup : order.Nodup) (ha : a ∈ order) :
    ¬ReachesCycle deps a := by
  intro hcycle
  obtain ⟨c, hac, hcc⟩ := hcycle
  obtain ⟨before, after, heq⟩ := List.append_of_mem (h.mem_of_reaches ha hac)
  have hmem := h.before_of_transGen heq hcc
  rw [heq] at hnodup
  exact (List.nodup_append.mp hnodup).2.2 c hmem c List.mem_cons_self rfl

open Classical in
/-- In a finite set whose nodes each depend on one of the set, every node depends on a cycle. -/
theorem reachesCycle_of_closed (h : ∀ a ∈ nodes, ∃ b ∈ nodes, Dep deps a b) (ha : a ∈ nodes) : ReachesCycle deps a := by
  by_contra hnone
  -- what is below a node shrinks along a dependency
  have hbelow : ∀ n a, a ∈ nodes → ¬ReachesCycle deps a →
      (nodes.toFinset.filter fun b => TransGen (Dep deps) a b).card = n → False := by
    intro n
    induction n using Nat.strong_induction_on with
    | h n ih =>
      intro a ha hnone hcard
      obtain ⟨b, hb, hab⟩ := h a ha
      have hnone' : ¬ReachesCycle deps b := by
        intro hcycle
        obtain ⟨c, hbc, hcc⟩ := hcycle
        exact hnone ⟨c, .head hab hbc, hcc⟩
      have hlt : (nodes.toFinset.filter fun c => TransGen (Dep deps) b c).card <
          (nodes.toFinset.filter fun c => TransGen (Dep deps) a c).card := by
        apply Finset.card_lt_card
        rw [Finset.ssubset_iff_of_subset]
        · refine ⟨b, ?_, ?_⟩
          · simp [hb, TransGen.single hab]
          · intro hmem
            exact hnone' ⟨b, .refl, (Finset.mem_filter.mp hmem).2⟩
        · intro c hc
          have hmem := Finset.mem_filter.mp hc
          exact Finset.mem_filter.mpr ⟨hmem.1, .head hab hmem.2⟩
      exact ih _ (hcard ▸ hlt) b hb hnone' rfl
  exact hbelow _ a ha hnone rfl

end Topological
