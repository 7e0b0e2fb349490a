import Mathlib.Data.List.Sort
import Mathlib.Order.Compare

/-! Three-way comparisons: when the results over three values agree with an order, what a list of
values that agree in threes has of sorted orders and of maxima, and comparisons put together from
comparisons of parts. -/
namespace Comparisons

/-- The comparisons of `a` with `b`, of `b` with `c` and of `a` with `c` agree with a linear order. -/
def Consistent (ab bc ac : Ordering) : Prop :=
  (ab = .eq → bc = ac) ∧ (bc = .eq → ab = ac) ∧ (ab = bc → ab = ac)

instance (ab bc ac : Ordering) : Decidable (Consistent ab bc ac) :=
  inferInstanceAs (Decidable (_ ∧ _))

theorem Consistent.ne_gt {ab bc ac : Ordering} (h : Consistent ab bc ac) (hab : ab ≠ .gt)
    (hbc : bc ≠ .gt) : ac ≠ .gt := by
  revert ab bc ac
  decide

/-- Later comparisons only count where all three earlier ones are equal. -/
theorem Consistent.then {ab bc ac ab' bc' ac' : Ordering} (h : Consistent ab bc ac)
    (h' : ab = .eq → bc = .eq → ac = .eq → Consistent ab' bc' ac') :
    Consistent (ab.then ab') (bc.then bc') (ac.then ac') := by
  cases ab <;> cases bc <;> cases ac <;> simp_all [Consistent]
  all_goals
    rintro rfl
    rfl

theorem consistent_cmp {α : Type} [LinearOrder α] (a b c : α) :
    Consistent (cmp a b) (cmp b c) (cmp a c) := by
  refine ⟨fun h => ?_, fun h => ?_, fun h => ?_⟩
  · rw [(cmp_eq_eq_iff a b).mp h]
  · rw [(cmp_eq_eq_iff b c).mp h]
  · cases hab : cmp a b with
    | lt =>
      have hbc : b < c := (cmp_eq_lt_iff b c).mp (h ▸ hab)
      have hac : a < c := ((cmp_eq_lt_iff a b).mp hab).trans hbc
      exact ((cmp_eq_lt_iff a c).mpr hac).symm
    | eq => rw [(cmp_eq_eq_iff a b).mp hab, ← h, hab]
    | gt =>
      have hbc : c < b := (cmp_eq_gt_iff b c).mp (h ▸ hab)
      have hac : c < a := hbc.trans ((cmp_eq_gt_iff a b).mp hab)
      exact ((cmp_eq_gt_iff a c).mpr hac).symm

section Sorting

variable {α : Type} {compare : α → α → Ordering} {l : List α}

/-- No value comes before one that compares less. -/
def Sorted (compare : α → α → Ordering) (l : List α) : Prop := l.Pairwise fun a b => compare a b ≠ .gt

/-- A greatest value of a list. -/
def IsMaximum (compare : α → α → Ordering) (l : List α) (m : α) : Prop :=
  m ∈ l ∧ ∀ a ∈ l, compare a m ≠ .gt

variable (hswap : ∀ a b, compare a b = (compare b a).swap)
  (heq : ∀ a b, compare a b = .eq → a = b)
  (hl : ∀ a ∈ l, ∀ b ∈ l, ∀ c ∈ l, Consistent (compare a b) (compare b c) (compare a c))
include hswap heq

theorem eq_of_ne_gt {a b : α} (hab : compare a b ≠ .gt) (hba : compare b a ≠ .gt) : a = b := by
  apply heq
  rw [hswap] at hba
  revert hab hba
  cases compare a b <;> simp

include hl

theorem existsUnique_sorted : ∃! sorted : List α, sorted.Perm l ∧ Sorted compare sorted := by
  -- the list's own members, on which the comparison is a total preorder
  let le : {a // a ∈ l} → {a // a ∈ l} → Bool := fun a b => compare a.1 b.1 != .gt
  have htrans : ∀ a b c : {a // a ∈ l}, le a b → le b c → le a c := by
    intro a b c hab hbc
    simp only [le, bne_iff_ne] at hab hbc ⊢
    exact (hl a.1 a.2 b.1 b.2 c.1 c.2).ne_gt hab hbc
  have htotal : ∀ a b : {a // a ∈ l}, le a b || le b a := by
    intro a b
    simp only [le, hswap b.1 a.1]
    cases compare a.1 b.1 <;> rfl
  refine ⟨(l.attach.mergeSort le).map Subtype.val, ⟨?_, ?_⟩, ?_⟩
  · have hperm := (List.mergeSort_perm l.attach le).map Subtype.val
    rwa [List.attach_map_subtype_val] at hperm
  · have hsorted := List.pairwise_mergeSort htrans htotal l.attach
    unfold Sorted
    rw [List.pairwise_map]
    exact hsorted.imp fun h => by simpa [le] using h
  · rintro sorted ⟨hperm, hsorted⟩
    have hperm' := (List.mergeSort_perm l.attach le).map Subtype.val
    rw [List.attach_map_subtype_val] at hperm'
    have hsorted' := List.pairwise_mergeSort htrans htotal l.attach
    refine List.Perm.eq_of_pairwise (fun a b _ _ hab hba => eq_of_ne_gt hswap heq hab hba) hsorted
      ?_ (hperm.trans hperm'.symm)
    rw [List.pairwise_map]
    exact hsorted'.imp fun h => by simpa [le] using h

theorem existsUnique_maximum (hne : l ≠ []) : ∃! m, IsMaximum compare l m := by
  obtain ⟨sorted, ⟨hperm, hsorted⟩, -⟩ := existsUnique_sorted hswap heq hl
  have hne' : sorted ≠ [] := fun h => hne (List.Perm.nil_eq (h ▸ hperm)).symm
  have hlast : IsMaximum compare l (sorted.getLast hne') := by
    refine ⟨hperm.subset (List.getLast_mem hne'), fun a ha => ?_⟩
    have hmem := hperm.symm.subset ha
    unfold Sorted at hsorted
    rw [← List.dropLast_append_getLast hne', List.pairwise_append] at hsorted
    rw [← List.dropLast_append_getLast hne', List.mem_append, List.mem_singleton] at hmem
    rcases hmem with hmem | rfl
    · exact hsorted.2.2 a hmem _ (List.mem_singleton.mpr rfl)
    · have hself := hswap (sorted.getLast hne') (sorted.getLast hne')
      revert hself
      cases compare (sorted.getLast hne') (sorted.getLast hne') <;> simp
  refine ⟨_, hlast, ?_⟩
  rintro m ⟨hm, hmax⟩
  exact eq_of_ne_gt hswap heq (hlast.2 m hm) (hmax _ hlast.1)

end Sorting

section Lists

variable {α : Type} {compare : α → α → Ordering}

theorem then_swap {a b a' b' : Ordering} (h : a = b.swap) (h' : a' = b'.swap) :
    a.then a' = (b.then b').swap := by
  rw [h, h', Ordering.swap_then]

/-- A later comparison counts where the earlier one is equal. -/
theorem then_congr {a b c : Ordering} (h : a = .eq → b = c) : a.then b = a.then c := by
  cases a with
  | eq => exact h rfl
  | lt => rfl
  | gt => rfl

theorem compareLex_swap {as : List α} (h : ∀ a ∈ as, ∀ b, compare a b = (compare b a).swap) :
    ∀ bs, List.compareLex compare as bs = (List.compareLex compare bs as).swap := by
  induction as with
  | nil =>
    intro bs
    cases bs <;> rfl
  | cons a as ih =>
    intro bs
    cases bs with
    | nil => rfl
    | cons b bs =>
      have hhead : compare a b = (compare b a).swap := h a (List.mem_cons_self) b
      have htail := ih (fun a' ha' => h a' (List.mem_cons_of_mem a ha')) bs
      rw [List.compareLex_cons_cons, List.compareLex_cons_cons]
      exact then_swap hhead htail

theorem compareLex_consistent {as : List α}
    (h : ∀ a ∈ as, ∀ b c, Consistent (compare a b) (compare b c) (compare a c)) :
    ∀ bs cs, Consistent (List.compareLex compare as bs) (List.compareLex compare bs cs)
      (List.compareLex compare as cs) := by
  induction as with
  | nil =>
    intro bs cs
    cases bs <;> cases cs <;> simp [List.compareLex, Consistent]
  | cons a as ih =>
    intro bs cs
    have htail := ih fun a' ha' => h a' (List.mem_cons_of_mem a ha')
    cases bs with
    | nil => cases cs <;> simp [List.compareLex, Consistent]
    | cons b bs =>
      cases cs with
      | nil =>
        have hself : List.compareLex compare (b :: bs) [] = .gt := rfl
        have hother : List.compareLex compare (a :: as) [] = .gt := rfl
        rw [hself, hother]
        cases List.compareLex compare (a :: as) (b :: bs) <;> simp [Consistent]
      | cons c cs =>
        have hhead := h a List.mem_cons_self b c
        simp only [List.compareLex_cons_cons]
        exact hhead.then fun _ _ _ => htail bs cs

theorem eq_of_compareLex {as : List α} (h : ∀ a ∈ as, ∀ b, compare a b = .eq → a = b) :
    ∀ {bs}, List.compareLex compare as bs = .eq → as = bs := by
  induction as with
  | nil =>
    intro bs hbs
    cases bs with
    | nil => rfl
    | cons b bs => cases hbs
  | cons a as ih =>
    intro bs hbs
    cases bs with
    | nil => cases hbs
    | cons b bs =>
      rw [List.compareLex_cons_cons] at hbs
      obtain ⟨hhead, htail⟩ := Ordering.then_eq_eq.mp hbs
      rw [h a List.mem_cons_self b hhead,
        ih (fun a' ha' => h a' (List.mem_cons_of_mem a ha')) htail]

theorem compareLex_snoc {as bs : List α} {a b : α} (h : as.length = bs.length) :
    List.compareLex compare (as ++ [a]) (bs ++ [b]) = (List.compareLex compare as bs).then (compare a b) := by
  induction as generalizing bs with
  | nil =>
    rw [List.eq_nil_of_length_eq_zero h.symm]
    simp [List.compareLex_cons_cons, List.compareLex_nil_nil]
  | cons x as ih =>
    cases bs with
    | nil => cases h
    | cons y bs =>
      simp only [List.cons_append, List.compareLex_cons_cons, ih (Nat.succ.inj h), Ordering.then_assoc]

theorem eq_of_compareLex_cmp {β : Type} [LinearOrder β] {as bs : List β}
    (h : List.compareLex cmp as bs = .eq) : as = bs :=
  eq_of_compareLex (fun a _ b hab => (cmp_eq_eq_iff a b).mp hab) h

end Lists

/-! ### Orders from parts -/

/-- A comparison that turns round with its arguments and agrees with a linear order. -/
structure Lawful {α : Type} (compare : α → α → Ordering) : Prop where
  swap : ∀ a b, compare a b = (compare b a).swap
  consistent : ∀ a b c, Consistent (compare a b) (compare b c) (compare a c)

section Parts

variable {α β : Type} {compare compare' : α → α → Ordering}

theorem Lawful.refl (h : Lawful compare) (a : α) : compare a a = .eq := by
  have hself := h.swap a a
  revert hself
  cases compare a a <;> simp

theorem lawful_cmp [LinearOrder α] : Lawful (cmp : α → α → Ordering) where
  swap a b := (cmp_swap b a).symm
  consistent := consistent_cmp

theorem Lawful.comap (h : Lawful compare) (f : β → α) : Lawful fun a b => compare (f a) (f b) where
  swap a b := h.swap (f a) (f b)
  consistent a b c := h.consistent (f a) (f b) (f c)

theorem Lawful.then (h : Lawful compare) (h' : Lawful compare') :
    Lawful fun a b => (compare a b).then (compare' a b) where
  swap a b := then_swap (h.swap a b) (h'.swap a b)
  consistent a b c := (h.consistent a b c).then fun _ _ _ => h'.consistent a b c

theorem Lawful.compareLex (h : Lawful compare) : Lawful (List.compareLex compare) where
  swap _ := compareLex_swap fun a _ => h.swap a
  consistent _ := compareLex_consistent fun a _ => h.consistent a

end Parts

/-! ### Trees -/

/-- Values with a label and children of the same kind, compared by their labels first and then by their
children in order. -/
structure Layered {α β : Type} (compare : α → α → Ordering) (labels : β → β → Ordering) (label : α → β)
    (children : α → List α) (size : α → ℕ) : Prop where
  size_lt : ∀ {a c}, c ∈ children a → size c < size a
  lawful : Lawful labels
  compare_eq : ∀ a b, compare a b =
    (labels (label a) (label b)).then (List.compareLex compare (children a) (children b))

section Trees

variable {α β : Type} {compare : α → α → Ordering} {labels : β → β → Ordering} {label : α → β}
  {children : α → List α} {size : α → ℕ}

theorem Layered.swap (layers : Layered compare labels label children size) (a b : α) :
    compare a b = (compare b a).swap := by
  have hlabel := layers.lawful.swap (label a) (label b)
  have hchildren := compareLex_swap (fun c (hc : c ∈ children a) d =>
    have := layers.size_lt hc
    layers.swap c d) (children b)
  rw [layers.compare_eq a b, layers.compare_eq b a]
  exact then_swap hlabel hchildren
termination_by size a

theorem Layered.consistent (layers : Layered compare labels label children size) (a b c : α) :
    Consistent (compare a b) (compare b c) (compare a c) := by
  have hlabel := layers.lawful.consistent (label a) (label b) (label c)
  have hchildren := compareLex_consistent (fun d (hd : d ∈ children a) e f =>
    have := layers.size_lt hd
    layers.consistent d e f) (children b) (children c)
  rw [layers.compare_eq a b, layers.compare_eq b c, layers.compare_eq a c]
  exact hlabel.then fun _ _ _ => hchildren
termination_by size a

/-- Where a value is its label and its children, values that compare equal are equal. -/
theorem Layered.eq_of_eq (layers : Layered compare labels label children size) {good : α → Prop}
    (hchildren : ∀ {a}, good a → ∀ c ∈ children a, good c)
    (hlabel : ∀ {a b}, good a → labels (label a) (label b) = .eq →
      children a = children b → a = b) {a b : α} (ha : good a) (h : compare a b = .eq) :
    a = b := by
  rw [layers.compare_eq, Ordering.then_eq_eq] at h
  refine hlabel ha h.1 (eq_of_compareLex (fun c hc d hd => ?_) h.2)
  have := layers.size_lt hc
  exact layers.eq_of_eq hchildren hlabel (hchildren ha c hc) hd
termination_by size a

theorem Layered.toLawful (layers : Layered compare labels label children size) : Lawful compare where
  swap := layers.swap
  consistent := layers.consistent

end Trees

end Comparisons
