import Krusty.Lib.Dataflow
import Mathlib.Algebra.BigOperators.Group.Finset.Basic
import Mathlib.Algebra.Order.BigOperators.Group.Finset

/-! The plain round robin over a flow: every node is stepped in every round, until one changes nothing. -/
namespace Dataflow

variable {L : Type} {r : L → L → Prop} (P : Problem L r)

/-- Every node at `top`. -/
def everywhere (top : L) : Assignment L := fun n => if n < P.count then some top else none

/-- A state no assignment has to rise above, and how high the states below it are. -/
structure Ceiling (top : L) (height : L → ℕ) : Prop where
  closed : Closed P (everywhere P top)
  rises : ∀ f g, r f g → r g top → f ≠ g → height f < height g

/-- How high an assignment has climbed. -/
def climbed (height : L → ℕ) (s : Assignment L) : ℕ :=
  ∑ n ∈ Finset.range P.count, (s n).elim 0 fun f => height f + 1

/-- Join what an edge brings into the state of its target. -/
def deliver (join : L → L → L) (s : Assignment L) (edge : ℕ × L) : Assignment L :=
  Function.update s edge.1 (some ((s edge.1).elim edge.2 fun f => join f edge.2))

/-- Step a node that has a state. -/
def stepNode (join : L → L → L) (s : Assignment L) (n : ℕ) : Assignment L :=
  (((s n).bind (P.out n)).getD []).foldl (deliver join) s

def round (join : L → L → L) (s : Assignment L) : Assignment L :=
  (List.range P.count).foldl (stepNode P join) s

/-- Rounds until one leaves every state the `same`; `none` when `fuel` rounds do not end. -/
def roundRobin (join : L → L → L) (same : Option L → Option L → Bool) :
    ℕ → Assignment L → Option (Assignment L)
  | 0, _ => none
  | fuel + 1, s =>
    if (List.range P.count).all fun n => same (s n) (round P join s n) then some s
    else roundRobin join same fuel (round P join s)

def atEntry : Assignment L := Function.update (fun _ => none) 0 (some P.entry)

variable {P} {s t : Assignment L}

section Climb

variable {top : L} {height : L → ℕ}

theorem Ceiling.height_le (h : Ceiling P top height) {f g : L} (hle : r f g) (htop : r g top) :
    height f ≤ height g := by
  by_cases heq : f = g
  · rw [heq]
  · exact (h.rises f g hle htop heq).le

/-- What lies below the ceiling lies below it at every node. -/
theorem le_everywhere (ht : t.Le r (everywhere P top)) {n : ℕ} {f : L} (hf : t n = some f) :
    n < P.count ∧ r f top := by
  obtain ⟨g, hg, hle⟩ := ht n f hf
  unfold everywhere at hg
  split_ifs at hg with hn
  obtain rfl := Option.some.inj hg
  exact ⟨hn, hle⟩

theorem elim_height_le (h : Ceiling P top height) (hst : s.Le r t) (ht : t.Le r (everywhere P top)) (n : ℕ) :
    ((s n).elim 0 fun f => height f + 1) ≤ (t n).elim 0 fun f => height f + 1 := by
  cases hs : s n with
  | none => exact Nat.zero_le _
  | some f =>
    obtain ⟨g, hg, hle⟩ := hst n f hs
    rw [hg]
    exact Nat.succ_le_succ (h.height_le hle (le_everywhere ht hg).2)

theorem climbed_le (h : Ceiling P top height) (hst : s.Le r t) (ht : t.Le r (everywhere P top)) :
    climbed P height s ≤ climbed P height t :=
  Finset.sum_le_sum fun n _ => elim_height_le h hst ht n

/-- An assignment that rises climbs. -/
theorem climbed_lt (h : Ceiling P top height) (hst : s.Le r t) (ht : t.Le r (everywhere P top)) (hne : s ≠ t) :
    climbed P height s < climbed P height t := by
  obtain ⟨n, hn⟩ := Function.ne_iff.mp hne
  have hsome : ∃ g, t n = some g := by
    cases htn : t n with
    | some g => exact ⟨g, rfl⟩
    | none =>
      cases hsn : s n with
      | none => exact absurd (hsn.trans htn.symm) hn
      | some f =>
        obtain ⟨g, hg, -⟩ := hst n f hsn
        rw [htn] at hg
        cases hg
  obtain ⟨g, hg⟩ := hsome
  obtain ⟨hlt, htop⟩ := le_everywhere ht hg
  apply Finset.sum_lt_sum fun n _ => elim_height_le h hst ht n
  refine ⟨n, Finset.mem_range.mpr hlt, ?_⟩
  rw [hg]
  cases hsn : s n with
  | none => exact Nat.succ_pos _
  | some f =>
    obtain ⟨g', hg', hle⟩ := hst n f hsn
    rw [hg] at hg'
    cases hg'
    have hfg : f ≠ g := by
      rintro rfl
      exact hn (hsn.trans hg.symm)
    exact Nat.succ_lt_succ (h.rises f g hle htop hfg)

end Climb

variable [IsPartialOrder L r]

theorem Assignment.Le.refl (s : Assignment L) : s.Le r s := fun _ f hf => ⟨f, hf, refl_of r f⟩

section Steps

variable {join : L → L → L} (hjoin : ∀ f g, IsJoin r (fun h => h = f ∨ h = g) (join f g))

include hjoin

theorem le_deliver (s : Assignment L) (edge : ℕ × L) : s.Le r (deliver join s edge) := by
  intro n f hf
  unfold deliver
  by_cases hn : n = edge.1
  · rw [hn] at hf ⊢
    rw [Function.update_self, hf]
    exact ⟨_, rfl, (hjoin f edge.2).1 f (.inl rfl)⟩
  · rw [Function.update_of_ne hn]
    exact ⟨f, hf, refl_of r f⟩

theorem deliver_delivers (s : Assignment L) (edge : ℕ × L) :
    ∃ h, deliver join s edge edge.1 = some h ∧ r edge.2 h := by
  unfold deliver
  rw [Function.update_self]
  refine ⟨_, rfl, ?_⟩
  cases s edge.1 with
  | none => exact refl_of r edge.2
  | some f => exact (hjoin f edge.2).1 edge.2 (.inr rfl)

omit [IsPartialOrder L r] in
theorem deliver_le (hst : s.Le r t) {edge : ℕ × L} (hedge : ∃ h, t edge.1 = some h ∧ r edge.2 h) :
    (deliver join s edge).Le r t := by
  intro n f hf
  unfold deliver at hf
  by_cases hn : n = edge.1
  · obtain ⟨h, hh, hle⟩ := hedge
    rw [hn, Function.update_self] at hf
    obtain rfl := Option.some.inj hf
    rw [hn]
    refine ⟨h, hh, ?_⟩
    cases hs : s edge.1 with
    | none => exact hle
    | some g =>
      obtain ⟨h', hh', hle'⟩ := hst edge.1 g hs
      rw [hh] at hh'
      cases hh'
      apply (hjoin g edge.2).2
      rintro k (rfl | rfl)
      · exact hle'
      · exact hle
  · rw [Function.update_of_ne hn] at hf
    exact hst n f hf

theorem foldl_deliver (es : List (ℕ × L)) : ∀ s : Assignment L, s.Le r (es.foldl (deliver join) s) ∧
    (∀ edge ∈ es, ∃ h, es.foldl (deliver join) s edge.1 = some h ∧ r edge.2 h) ∧
    ∀ t : Assignment L, s.Le r t → (∀ edge ∈ es, ∃ h, t edge.1 = some h ∧ r edge.2 h) →
      (es.foldl (deliver join) s).Le r t := by
  induction es with
  | nil => exact fun s => ⟨.refl s, by simp, fun t hst _ => hst⟩
  | cons edge es ih =>
    intro s
    obtain ⟨hrise, hdelivered, hlow⟩ := ih (deliver join s edge)
    refine ⟨(le_deliver hjoin s edge).trans hrise, ?_, ?_⟩
    · intro e hmem
      rcases List.mem_cons.mp hmem with rfl | hmem
      · obtain ⟨h, hh, hle⟩ := deliver_delivers hjoin s e
        obtain ⟨k, hk, hhk⟩ := hrise e.1 h hh
        exact ⟨k, hk, trans_of r hle hhk⟩
      · exact hdelivered e hmem
    · intro t hst hall
      apply hlow t
      · exact deliver_le hjoin hst (hall edge (List.mem_cons_self ..))
      · exact fun e hmem => hall e (List.mem_cons_of_mem _ hmem)

theorem le_stepNode (s : Assignment L) (n : ℕ) : s.Le r (stepNode P join s n) := (foldl_deliver hjoin _ s).1

theorem stepNode_le (hst : s.Le r t) (ht : Closed P t) (n : ℕ) : (stepNode P join s n).Le r t := by
  apply (foldl_deliver hjoin _ s).2.2 t hst
  intro edge hmem
  cases hs : s n with
  | none => simp [hs] at hmem
  | some f =>
    obtain ⟨x, hx, hle⟩ := hst n f hs
    obtain ⟨es, hes, hall⟩ := ht.edge hx hle
    have hmem : edge ∈ es := by simpa [hs, hes] using hmem
    exact hall edge.1 edge.2 hmem

theorem foldl_stepNode_le (nodes : List ℕ) : ∀ s : Assignment L, s.Le r (nodes.foldl (stepNode P join) s) ∧
    ∀ t : Assignment L, s.Le r t → Closed P t → (nodes.foldl (stepNode P join) s).Le r t := by
  induction nodes with
  | nil => exact fun s => ⟨.refl s, fun t hst _ => hst⟩
  | cons n nodes ih =>
    intro s
    obtain ⟨hrise, hlow⟩ := ih (stepNode P join s n)
    exact ⟨(le_stepNode hjoin s n).trans hrise, fun t hst ht => hlow t (stepNode_le hjoin hst ht n) ht⟩

/-- Steps that change nothing have nothing to deliver. -/
theorem delivered_of_foldl_eq : ∀ {nodes : List ℕ}, nodes.foldl (stepNode P join) s = s → ∀ n ∈ nodes,
    ∀ f es, s n = some f → P.out n f = some es → ∀ edge ∈ es, ∃ h, s edge.1 = some h ∧ r edge.2 h := by
  intro nodes
  induction nodes with
  | nil => simp
  | cons n nodes ih =>
    intro hfix
    rw [List.foldl_cons] at hfix
    have hback : (stepNode P join s n).Le r s := by
      have hrise := (foldl_stepNode_le (P := P) hjoin nodes (stepNode P join s n)).1
      rwa [hfix] at hrise
    have hone : stepNode P join s n = s := hback.antisymm (le_stepNode hjoin s n)
    rw [hone] at hfix
    intro m hm f es hf hes edge hedge
    rcases List.mem_cons.mp hm with rfl | hm
    · have hdelivered := (foldl_deliver hjoin (((s m).bind (P.out m)).getD []) s).2.1 edge
        (by simpa [hf, hes] using hedge)
      change ∃ h, stepNode P join s m edge.1 = some h ∧ r edge.2 h at hdelivered
      rwa [hone] at hdelivered
    · exact ih hfix m hm f es hf hes edge hedge

end Steps

/-- An assignment below every closed one that has the entry and delivers along every edge is closed. -/
theorem closed_of_delivered {top : L} {height : L → ℕ} (hceiling : Ceiling P top height)
    (htop : s.Le r (everywhere P top)) (hentry : ∃ h, s 0 = some h ∧ r P.entry h)
    (hall : ∀ n < P.count, ∀ f es, s n = some f → P.out n f = some es → ∀ edge ∈ es,
      ∃ h, s edge.1 = some h ∧ r edge.2 h) : Closed P s where
  steps := by
    intro n f hf
    obtain ⟨g, hg, hle⟩ := htop n f hf
    obtain ⟨es, hes, -⟩ := hceiling.closed.edge hg hle
    exact ⟨(le_everywhere htop hf).1, by rw [hes]; rfl⟩
  above := by
    rintro m g (⟨rfl, rfl⟩ | ⟨n, f, es, hf, hout, hmem⟩)
    · exact hentry
    · exact hall n (le_everywhere htop hf).1 f es hf hout (m, g) hmem

/-- The round robin ends, at the least closed assignment. -/
theorem roundRobin_total {top : L} {height : L → ℕ} {join : L → L → L} {same : Option L → Option L → Bool}
    (hceiling : Ceiling P top height) (hjoin : ∀ f g, IsJoin r (fun h => h = f ∨ h = g) (join f g))
    (hsame : ∀ s t : Assignment L, s.Le r t → t.Le r (everywhere P top) →
      (((List.range P.count).all fun n => same (s n) (t n)) = true ↔ s = t)) :
    ∃ enough a, (∀ fuel, enough ≤ fuel → roundRobin P join same fuel (atEntry P) = some a) ∧
      Closed P a ∧ ∀ t, Closed P t → a.Le r t := by
  have hstart : ∀ t, Closed P t → (atEntry P).Le r t := by
    intro t ht n f hf
    unfold atEntry at hf
    by_cases hn : n = 0
    · rw [hn, Function.update_self] at hf
      obtain rfl := Option.some.inj hf
      rw [hn]
      exact ht.above 0 P.entry (.inl ⟨rfl, rfl⟩)
    · rw [Function.update_of_ne hn] at hf
      cases hf
  have hentry : ∃ h, atEntry P 0 = some h ∧ r P.entry h :=
    ⟨P.entry, by simp [atEntry], refl_of r _⟩
  have hmain : ∀ (left : ℕ) (s : Assignment L), climbed P height (everywhere P top) - climbed P height s = left →
      (∀ t, Closed P t → s.Le r t) → (∃ h, s 0 = some h ∧ r P.entry h) →
      ∃ enough a, (∀ fuel, enough ≤ fuel → roundRobin P join same fuel s = some a) ∧
        Closed P a ∧ ∀ t, Closed P t → a.Le r t := by
    intro left
    induction left using Nat.strongRecOn with
    | ind left ih =>
      intro s hleft hleast hzero
      have hrounds := foldl_stepNode_le (P := P) hjoin (List.range P.count) s
      have hrise : s.Le r (round P join s) := hrounds.1
      have hnext : ∀ t, Closed P t → (round P join s).Le r t := fun t ht => hrounds.2 t (hleast t ht) ht
      have htop := hnext _ hceiling.closed
      by_cases hfix : s = round P join s
      · refine ⟨1, s, ?_, ?_, hleast⟩
        · intro fuel hfuel
          obtain ⟨fuel, rfl⟩ := Nat.exists_eq_succ_of_ne_zero (by omega : fuel ≠ 0)
          rw [roundRobin, if_pos ((hsame s _ hrise htop).mpr hfix)]
        · apply closed_of_delivered hceiling (hleast _ hceiling.closed) hzero
          intro n hn
          exact delivered_of_foldl_eq hjoin hfix.symm n (List.mem_range.mpr hn)
      · have hclimb := climbed_lt hceiling hrise htop hfix
        have hbound := climbed_le hceiling htop (.refl _)
        have hzero' : ∃ h, round P join s 0 = some h ∧ r P.entry h := by
          obtain ⟨h, hh, hle⟩ := hzero
          obtain ⟨k, hk, hhk⟩ := hrise 0 h hh
          exact ⟨k, hk, trans_of r hle hhk⟩
        have hless : climbed P height (everywhere P top) - climbed P height (round P join s) < left := by
          omega
        obtain ⟨enough, a, hrun, ha⟩ := ih _ hless (round P join s) rfl hnext hzero'
        refine ⟨enough + 1, a, ?_, ha⟩
        intro fuel hfuel
        obtain ⟨fuel, rfl⟩ := Nat.exists_eq_succ_of_ne_zero (by omega : fuel ≠ 0)
        rw [roundRobin, if_neg fun h => hfix ((hsame s _ hrise htop).mp h)]
        exact hrun fuel (by omega)
  exact hmain _ _ rfl hstart hentry

end Dataflow
