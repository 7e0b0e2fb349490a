import Mathlib.Logic.Relation
import Mathlib.Algebra.Order.BigOperators.Group.List
import Mathlib.Algebra.Order.Ring.Nat
import Mathlib.Order.Monotone.Basic

/-! Liveness by paths: a variable is live at a node when some path from it reaches a read of the variable
before any write. -/
namespace PathLiveness

open Relation

variable {N V : Type} (steps : N → N → Prop) (reads writes : N → V → Prop)

/-- A step from a node that leaves the variable alone. -/
def Quiet (v : V) (n m : N) : Prop := ¬ writes n v ∧ steps n m

def LiveBefore (n : N) (v : V) : Prop := ∃ m, ReflTransGen (Quiet steps writes v) n m ∧ reads m v

variable {steps reads writes} {n m : N} {v : V}

theorem LiveBefore.of_reads (h : reads n v) : LiveBefore steps reads writes n v := ⟨n, .refl, h⟩

theorem LiveBefore.of_steps (hquiet : ¬ writes n v) (hstep : steps n m) (h : LiveBefore steps reads writes m v) :
    LiveBefore steps reads writes n v := by
  obtain ⟨last, hpath, hreads⟩ := h
  exact ⟨last, .head ⟨hquiet, hstep⟩ hpath, hreads⟩

/-- Whatever holds where `v` is read, and before a node that leaves `v` alone when it holds after, holds
wherever `v` is live. -/
theorem LiveBefore.backward (p : N → Prop) (h : LiveBefore steps reads writes n v)
    (hreads : ∀ n, reads n v → p n) (hsteps : ∀ n m, ¬ writes n v → steps n m → p m → p n) : p n := by
  obtain ⟨last, hpath, hlast⟩ := h
  induction hpath using ReflTransGen.head_induction_on with
  | refl => exact hreads last hlast
  | head hstep _ ih => exact hsteps _ _ hstep.1 hstep.2 ih

end PathLiveness

/-! Sweeps over a list of values, each recomputed in place from all of them, until one changes nothing. -/
namespace Sweeps

variable {L : Type} [DecidableEq L] (step : List L → ℕ → L)

/-- Recompute one value, and note a change. -/
def visit (a : List L × Bool) (n : ℕ) : List L × Bool :=
  if a.1[n]? = some (step a.1 n) then a else (a.1.set n (step a.1 n), true)

def sweep (order : List ℕ) (values : List L) : List L × Bool := order.foldl (visit step) (values, false)

/-- Sweep until nothing changes; `none` when `fuel` sweeps do not end. -/
def settle (order : List ℕ) : ℕ → List L → Option (List L)
  | 0, _ => none
  | fuel + 1, values =>
    let (values', changed) := sweep step order values
    if changed then settle order fuel values' else some values'

variable {step} {order : List ℕ} {s t : List L}

/-- A walk over `order` that notes no change leaves every value as it is recomputed. -/
theorem foldl_unchanged {changed : Bool} (h : (order.foldl (visit step) (s, changed)).2 = false) :
    order.foldl (visit step) (s, changed) = (s, false) ∧ ∀ n ∈ order, s[n]? = some (step s n) := by
  have hsticky : ∀ (order : List ℕ) (s : List L), (order.foldl (visit step) (s, true)).2 = true := by
    intro order
    induction order with
    | nil => exact fun s => rfl
    | cons n order ih =>
      intro s
      rw [List.foldl_cons, visit]
      split_ifs
      · exact ih s
      · exact ih _
  induction order with
  | nil => exact ⟨Prod.ext rfl h, by simp⟩
  | cons n order ih =>
    rw [List.foldl_cons, visit] at h ⊢
    dsimp only at h ⊢
    split_ifs at h ⊢ with hn
    · obtain ⟨hfold, hrest⟩ := ih h
      exact ⟨hfold, List.forall_mem_cons.mpr ⟨hn, hrest⟩⟩
    · rw [hsticky] at h
      cases h

/-- Fuel to spare changes nothing. -/
theorem settle_mono {fuel fuel' : ℕ} (h : settle step order fuel s = some t) (hle : fuel ≤ fuel') :
    settle step order fuel' s = some t := by
  induction fuel generalizing s fuel' with
  | zero => cases h
  | succ fuel ih =>
    obtain ⟨fuel', rfl⟩ := Nat.exists_eq_add_one_of_ne_zero (by omega : fuel' ≠ 0)
    unfold settle at h ⊢
    dsimp only at h ⊢
    split_ifs at h ⊢ with hchanged
    · exact ih h (by omega)
    · exact h

section Climbing

variable [PartialOrder L]

/-- Each value lies below what it is recomputed to. -/
def Rising (step : List L → ℕ → L) (s : List L) : Prop := ∀ n x, s[n]? = some x → x ≤ step s n

/-- Recomputing respects the order, and on the lists of `P` it stays among them and no higher than `bound`. -/
structure Climbs (step : List L → ℕ → L) (height : L → ℕ) (bound : ℕ) (P : List L → Prop) : Prop where
  mono : ∀ s t : List L, List.Forall₂ (· ≤ ·) s t → ∀ n, step s n ≤ step t n
  strict : StrictMono height
  kept : ∀ s n, P s → P (s.set n (step s n))
  bounded : ∀ s n, P s → height (step s n) ≤ bound

variable {height : L → ℕ} {bound count : ℕ} {P : List L → Prop}

omit [DecidableEq L] in
theorem forall₂_set {n : ℕ} {x y : L} (hx : s[n]? = some x) (hle : x ≤ y) :
    List.Forall₂ (· ≤ ·) s (s.set n y) := by
  rw [List.forall₂_iff_get]
  refine ⟨List.length_set.symm, ?_⟩
  intro i hi hi'
  simp only [List.get_eq_getElem, List.getElem_set]
  split_ifs with heq
  · subst heq
    rw [List.getElem?_eq_getElem hi] at hx
    exact (Option.some.inj hx).le.trans hle
  · exact le_rfl

omit [DecidableEq L] in
theorem Rising.set (h : Climbs step height bound P) (hs : Rising step s) {n : ℕ} {x : L}
    (hx : s[n]? = some x) : Rising step (s.set n (step s n)) := by
  have hle := forall₂_set hx (hs n x hx)
  intro i y hy
  rw [List.getElem?_set] at hy
  split_ifs at hy with heq
  · subst heq
    rw [← Option.some.inj hy]
    exact h.mono _ _ hle n
  · exact (hs i y hy).trans (h.mono _ _ hle i)

/-- How high all the values are together. -/
def climbed (height : L → ℕ) (s : List L) : ℕ := (s.map height).sum

omit [DecidableEq L] in
theorem climbed_set (h : StrictMono height) {n : ℕ} {x y : L} (hx : s[n]? = some x) (hlt : x < y) :
    climbed height s < climbed height (s.set n y) := by
  induction s generalizing n with
  | nil => cases hx
  | cons z s ih =>
    cases n with
    | zero =>
      cases hx
      have := h hlt
      simp only [climbed, List.set_cons_zero, List.map_cons, List.sum_cons]
      omega
    | succ n =>
      have := ih hx
      simp only [climbed, List.set_cons_succ, List.map_cons, List.sum_cons] at this ⊢
      omega

omit [DecidableEq L] [PartialOrder L] in
theorem climbed_le (h : ∀ x ∈ s, height x ≤ bound) : climbed height s ≤ s.length * bound := by
  have := List.sum_le_card_nsmul (s.map height) bound (by simpa using h)
  simpa [climbed] using this

/-- What a list keeps while its values are recomputed. -/
structure Kept (step : List L → ℕ → L) (height : L → ℕ) (bound count : ℕ) (P : List L → Prop) (s : List L) :
    Prop where
  length : s.length = count
  rising : Rising step s
  bounded : ∀ x ∈ s, height x ≤ bound
  kept : P s

omit [DecidableEq L] in
theorem Kept.set (h : Climbs step height bound P) (hs : Kept step height bound count P s) {n : ℕ} {x : L}
    (hx : s[n]? = some x) :
    Kept step height bound count P (s.set n (step s n)) where
  length := List.length_set.trans hs.length
  rising := hs.rising.set h hx
  bounded := by
    intro y hy
    obtain hy | rfl := List.mem_or_eq_of_mem_set hy
    · exact hs.bounded y hy
    · exact h.bounded s n hs.kept
  kept := h.kept s n hs.kept

/-- A walk leaves the list as it was, or higher with a change noted. -/
theorem Kept.foldl (h : Climbs step height bound P) (horder : ∀ n ∈ order, n < count) (changed : Bool)
    (hs : Kept step height bound count P s) :
    Kept step height bound count P (order.foldl (visit step) (s, changed)).1 ∧
      (order.foldl (visit step) (s, changed) = (s, changed) ∨
        climbed height s < climbed height (order.foldl (visit step) (s, changed)).1) := by
  induction order generalizing s changed with
  | nil => exact ⟨hs, .inl rfl⟩
  | cons n order ih =>
    obtain ⟨hn, horder⟩ := List.forall_mem_cons.mp horder
    rw [List.foldl_cons, visit]
    dsimp only
    split_ifs with hsame
    · exact ih horder changed hs
    · obtain ⟨x, hx⟩ : ∃ x, s[n]? = some x := ⟨_, List.getElem?_eq_getElem (hs.length ▸ hn)⟩
      have hlt : x < step s n := by
        refine lt_of_le_of_ne (hs.rising n x hx) ?_
        rintro rfl
        exact hsame hx
      have hclimbs := climbed_set h.strict hx hlt
      obtain ⟨hkept, heq | hmore⟩ := ih horder true (hs.set h hx)
      · refine ⟨hkept, .inr ?_⟩
        rw [heq]
        exact hclimbs
      · exact ⟨hkept, .inr (hclimbs.trans hmore)⟩

/-- Sweeping a rising list ends, with every value of `order` as it is recomputed. -/
theorem Kept.settle (h : Climbs step height bound P) (horder : ∀ n ∈ order, n < count) {fuel : ℕ}
    (hs : Kept step height bound count P s) (hfuel : count * bound < fuel + climbed height s) :
    ∃ t, settle step order fuel s = some t ∧ Kept step height bound count P t ∧
      ∀ n ∈ order, t[n]? = some (step t n) := by
  induction fuel generalizing s with
  | zero =>
    have hle := climbed_le hs.bounded
    rw [hs.length] at hle
    omega
  | succ fuel ih =>
    obtain ⟨hkept, hmoved⟩ := hs.foldl h horder false
    unfold Sweeps.settle sweep
    cases hchanged : (order.foldl (visit step) (s, false)).2 with
    | false =>
      obtain ⟨hsame, hfixed⟩ := foldl_unchanged hchanged
      exact ⟨s, by simp [hsame], hs, hfixed⟩
    | true =>
      obtain heq | hlt := hmoved
      · rw [heq] at hchanged
        cases hchanged
      · obtain ⟨t, ht, hrest⟩ := ih hkept (by omega)
        exact ⟨t, by simpa [hchanged] using ht, hrest⟩

end Climbing

end Sweeps
