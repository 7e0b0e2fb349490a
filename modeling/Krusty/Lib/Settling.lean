import Mathlib.Logic.Relation
import Mathlib.Data.Nat.Find
import Mathlib.Logic.Function.Iterate

/-! Following a partial function until it stops. -/
namespace Settling

open Relation

variable {α : Type*} (f : α → Option α)

def Step (a b : α) : Prop := f a = some b

/-- Following `f` from `a` passes `b`. -/
def Passes : α → α → Prop := ReflTransGen (Step f)

/-- Following `f` from `a` stops at `b`. -/
def Settles (a b : α) : Prop := Passes f a b ∧ f b = none

/-- Two places from which the same place is passed, so that they settle alike or cycle alike. -/
def Joins (a b : α) : Prop := ∃ c, Passes f a c ∧ Passes f b c

variable {f} {a b c : α}

theorem step_unique : Relator.RightUnique (Step f) := by
  intro a b c hb hc
  exact Option.some.inj (hb.symm.trans hc)

theorem Passes.of_step (hstep : f a = some b) (h : Passes f b c) : Passes f a c := .head hstep h

/-- What is passed from `a` lies at `a` or beyond its step. -/
theorem Passes.cases (hstep : f a = some b) (h : Passes f a c) : a = c ∨ Passes f b c := by
  rcases ReflTransGen.cases_head h with heq | ⟨d, hd, hrest⟩
  · exact .inl heq
  · obtain rfl := step_unique hstep hd
    exact .inr hrest

theorem Settles.of_none (h : f a = none) : Settles f a a := ⟨.refl, h⟩

theorem settles_iff_of_step (hstep : f a = some b) : Settles f a c ↔ Settles f b c := by
  constructor
  · rintro ⟨hpass, hc⟩
    rcases hpass.cases hstep with rfl | hrest
    · rw [hstep] at hc
      cases hc
    · exact ⟨hrest, hc⟩
  · rintro ⟨hpass, hc⟩
    exact ⟨hpass.of_step hstep, hc⟩

theorem settles_iff_of_passes (h : Passes f a b) : Settles f a c ↔ Settles f b c := by
  induction h using ReflTransGen.head_induction_on with
  | refl => rfl
  | head hstep _ ih => exact (settles_iff_of_step hstep).trans ih

theorem Settles.unique (hb : Settles f a b) (hc : Settles f a c) : b = c := by
  have hsettles : Settles f b c := (settles_iff_of_passes hb.1).mp hc
  rcases ReflTransGen.cases_head hsettles.1 with heq | ⟨d, hd, -⟩
  · exact heq
  · have hnone := hb.2
    rw [show f b = some d from hd] at hnone
    cases hnone

theorem Settles.eq_of_none (hb : Settles f a b) (ha : f a = none) : a = b := (Settles.of_none ha).unique hb

namespace Joins

theorem refl (a : α) : Joins f a a := ⟨a, .refl, .refl⟩

theorem symm (h : Joins f a b) : Joins f b a := by
  obtain ⟨c, ha, hb⟩ := h
  exact ⟨c, hb, ha⟩

theorem of_passes (h : Passes f a b) : Joins f a b := ⟨b, h, .refl⟩

theorem of_step (h : f a = some b) : Joins f a b := of_passes (.single h)

theorem trans (h : Joins f a b) (h' : Joins f b c) : Joins f a c := by
  obtain ⟨d, had, hbd⟩ := h
  obtain ⟨e, hbe, hce⟩ := h'
  rcases ReflTransGen.total_of_right_unique step_unique hbd hbe with hde | hed
  · exact ⟨e, had.trans hde, hce⟩
  · exact ⟨d, had, hce.trans hed⟩

theorem settles_iff (h : Joins f a b) : Settles f a c ↔ Settles f b c := by
  obtain ⟨d, ha, hb⟩ := h
  exact (settles_iff_of_passes ha).trans (settles_iff_of_passes hb).symm

end Joins

/-- Every place passed from a place on a cycle is on it too, so nothing stops. -/
theorem not_settles_of_cycle (h : TransGen (Step f) a a) : ¬ Settles f a b := by
  rintro ⟨hpass, hb⟩
  have hcycle : TransGen (Step f) b b := by
    clear hb
    induction hpass with
    | refl => exact h
    | tail _ hstep ih =>
      obtain ⟨d, hd, hback⟩ := TransGen.head'_iff.mp ih
      obtain rfl := step_unique hstep hd
      exact TransGen.tail' hback hstep
  obtain ⟨d, hd, -⟩ := TransGen.head'_iff.mp hcycle
  rw [show f b = some d from hd] at hb
  cases hb

theorem exists_iterate_eq_none (h : Settles f a b) : ∃ n, (fun o : Option α => o.bind f)^[n] (some a) = none := by
  obtain ⟨hpass, hb⟩ := h
  induction hpass using ReflTransGen.head_induction_on with
  | refl => exact ⟨1, hb⟩
  | head hstep _ ih =>
    obtain ⟨n, hn⟩ := ih
    refine ⟨n + 1, ?_⟩
    rw [Function.iterate_succ_apply, Option.bind_some, show f _ = some _ from hstep]
    exact hn

/-- The steps left until `f` stops: a measure that falls with each. -/
theorem exists_depth (f : α → Option α) :
    ∃ depth : α → ℕ, ∀ {a b c}, f a = some b → Settles f a c → depth b < depth a := by
  classical
  refine ⟨fun a => if h : ∃ n, (fun o : Option α => o.bind f)^[n] (some a) = none then Nat.find h else 0, ?_⟩
  intro a b c hstep hsettles
  have ha := exists_iterate_eq_none hsettles
  have hb := exists_iterate_eq_none ((settles_iff_of_step hstep).mp hsettles)
  have hnext : ∀ n, (fun o : Option α => o.bind f)^[n + 1] (some a) =
      (fun o : Option α => o.bind f)^[n] (some b) := by
    intro n
    rw [Function.iterate_succ_apply, Option.bind_some, hstep]
  have hshift : ∃ n, (fun o : Option α => o.bind f)^[n + 1] (some a) = none := by
    obtain ⟨n, hn⟩ := hb
    exact ⟨n, by rw [hnext, hn]⟩
  have hfind := Nat.find_comp_succ ha hshift (by simp)
  simp only [dif_pos ha, dif_pos hb, hfind]
  simp only [hnext]
  exact Nat.lt_succ_self _

end Settling
