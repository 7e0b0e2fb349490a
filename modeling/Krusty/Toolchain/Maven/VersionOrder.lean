import Krusty.Lib.Comparisons
import Krusty.Toolchain.Maven.ComparableVersion
import Mathlib

/-! Which part of a linear order Maven's comparison is: reversed by swapping its operands and equal only on
equal versions, but transitive only where no missing item stands between two of different kinds. -/
namespace Krusty.Toolchain.Maven
open Comparisons

/-! ## Reversal -/

theorem compareInts_swap (a b : String) : compareInts a b = (compareInts b a).swap := by
  unfold compareInts
  rw [Ordering.swap_then, cmp_swap, cmp_swap]

theorem compareLists_nil_left (b : List Item) : compareLists [] b = (compareAllToNone b).swap := by
  unfold compareLists
  induction b with
  | nil => rfl
  | cons right b ih =>
    unfold compareAllToNone
    rw [List.foldr_cons, ih, Ordering.swap_then]

theorem compareLists_nil_right (a : List Item) : compareLists a [] = compareAllToNone a := by
  induction a with
  | nil => rfl
  | cons left a ih =>
    unfold compareLists compareAllToNone
    rw [ih]

mutual

theorem compare_swap : ∀ a b : Item, compare a b = (compare b a).swap
  | .int a, .int b => by
    unfold compare
    exact compareInts_swap a b
  | .int _, .string _ => by simp [compare]
  | .int _, .list _ => by simp [compare]
  | .string _, .int _ => by simp [compare]
  | .string a, .string b => by
    unfold compare
    rw [cmp_swap]
  | .string _, .list _ => by simp [compare]
  | .list _, .int _ => by simp [compare]
  | .list _, .string _ => by simp [compare]
  | .list a, .list b => by
    unfold compare
    exact compareLists_swap a b

theorem compareLists_swap : ∀ a b : List Item, compareLists a b = (compareLists b a).swap
  | [], b => by rw [compareLists_nil_left, compareLists_nil_right]
  | left :: a, [] => by rw [compareLists_nil_left, compareLists_nil_right, Ordering.swap_swap]
  | left :: a, right :: b => by
    unfold compareLists
    rw [Ordering.swap_then, compare_swap left right, compareLists_swap a b]

end

/-! ## Equality -/

theorem toString_index_ne : ∀ i : Fin qualifiers.length, (toString i.val).toList.head? ≠ some '7' := by
  decide

theorem toString_index_injective :
    ∀ i j : Fin qualifiers.length, toString i.val = toString j.val → i = j := by
  decide

theorem qualifier_cases (value : String) :
    (∃ i : Fin qualifiers.length, qualifiers[i] = value ∧ qualifier value = toString i.val) ∨
      qualifier value = "7-" ++ value := by
  unfold qualifier
  cases h : qualifiers.idxOf? value with
  | none => exact .inr rfl
  | some index =>
    obtain ⟨hlt, hget, -⟩ := List.idxOf?_eq_some_iff.mp h
    exact .inl ⟨⟨index, hlt⟩, by simpa using hget, rfl⟩

theorem qualifier_injective : Function.Injective qualifier := by
  have hother (i : Fin qualifiers.length) (value : String) : toString i.val ≠ "7-" ++ value := by
    intro h
    apply toString_index_ne i
    rw [h]
    simp
  intro a b h
  rcases qualifier_cases a with ⟨i, ha, hi⟩ | ha <;> rcases qualifier_cases b with ⟨j, hb, hj⟩ | hb
  · have hij := toString_index_injective i j (by rw [← hi, ← hj, h])
    rw [← ha, ← hb, hij]
  · exact absurd (hi.symm.trans (h.trans hb)) (hother i b)
  · exact absurd (hj.symm.trans (h.symm.trans ha)) (hother j a)
  · rw [ha, hb] at h
    exact (String.append_right_inj _).mp h

variable {items : List Item}

theorem compareAllToNone_eq_iff : compareAllToNone items = .eq ↔ ∀ item ∈ items, compareToNone item = .eq := by
  induction items with
  | nil => simp [compareAllToNone]
  | cons item items ih =>
    unfold compareAllToNone
    rw [Ordering.then_eq_eq, ih, List.forall_mem_cons]

theorem Item.Canonical.isNull_of_compareToNone {item : Item} (h : item.Canonical)
    (heq : compareToNone item = .eq) : isNull item := by
  induction h with
  | int hdigits =>
    unfold compareToNone at heq
    simpa [isNull] using heq
  | string value =>
    unfold compareToNone at heq
    have hempty : qualifier value = qualifier "" := (cmp_eq_eq_iff _ _).mp heq
    simp [isNull, qualifier_injective hempty]
  | list hall hlast ih =>
    unfold compareToNone at heq
    rw [compareAllToNone_eq_iff] at heq
    rename_i items
    cases hl : items.getLast? with
    | none => simpa [isNull] using hl
    | some last =>
      have hmem := List.mem_of_getLast? hl
      have hnull := ih last hmem (heq last hmem)
      rw [hlast last hl] at hnull
      exact absurd hnull (by simp)

/-- The last item, if there is one, does not compare equal to a missing one. -/
def Ends (items : List Item) : Prop := ∀ last ∈ items.getLast?, compareToNone last ≠ .eq

theorem Ends.tail {item : Item} (h : Ends (item :: items)) : Ends items := by
  intro last hlast
  apply h last
  rw [List.getLast?_cons, Option.mem_def.mp hlast]
  rfl

theorem Ends.compareAllToNone (h : Ends items) (heq : compareAllToNone items = .eq) : items = [] := by
  rw [compareAllToNone_eq_iff] at heq
  cases hl : items.getLast? with
  | none => exact List.getLast?_eq_none_iff.mp hl
  | some last => exact absurd (heq last (List.mem_of_getLast? hl)) (h last hl)

theorem eq_of_compareLists {a b : List Item} (ha : Ends a) (hb : Ends b)
    (hitem : ∀ x ∈ a, ∀ y ∈ b, compare x y = .eq → x = y) (h : compareLists a b = .eq) : a = b := by
  induction a generalizing b with
  | nil =>
    rw [compareLists_nil_left, Ordering.swap_eq_eq] at h
    exact (hb.compareAllToNone h).symm
  | cons x a ih =>
    cases b with
    | nil =>
      rw [compareLists_nil_right] at h
      exact ha.compareAllToNone h
    | cons y b =>
      unfold compareLists at h
      obtain ⟨hxy, hab⟩ := Ordering.then_eq_eq.mp h
      have hhead := hitem x List.mem_cons_self y List.mem_cons_self hxy
      have htail := ih ha.tail hb.tail
        (fun x hx y hy => hitem x (List.mem_cons_of_mem _ hx) y (List.mem_cons_of_mem _ hy)) hab
      rw [hhead, htail]

theorem Item.Canonical.ends (h : (Item.list items).Canonical) : Ends items := by
  cases h with
  | list hall hlast =>
    intro last hmem heq
    have hnull := (hall last (List.mem_of_getLast? hmem)).isNull_of_compareToNone heq
    rw [hlast last hmem] at hnull
    exact absurd hnull (by simp)

theorem Item.Canonical.eq_of_compare {a b : Item} (ha : a.Canonical) (hb : b.Canonical)
    (h : compare a b = .eq) : a = b := by
  induction ha generalizing b with
  | int hdigits =>
    cases hb <;> simp only [compare, reduceCtorEq] at h
    unfold compareInts at h
    obtain ⟨-, htext⟩ := Ordering.then_eq_eq.mp h
    rw [(cmp_eq_eq_iff _ _).mp htext]
  | string value =>
    cases hb <;> simp only [compare, reduceCtorEq] at h
    rw [qualifier_injective ((cmp_eq_eq_iff _ _).mp h)]
  | list hall hlast ih =>
    cases hb <;> simp only [compare, reduceCtorEq] at h
    rename_i hallb hlastb
    have ha := Item.Canonical.list hall hlast
    have hb := Item.Canonical.list hallb hlastb
    rw [eq_of_compareLists ha.ends hb.ends (fun x hx y hy => ih x hx (hallb y hy)) h]

/-! ## Transitivity -/

/-- The items of two lists at one position, either of which may have ended. -/
def comparePosition : Option Item → Option Item → Ordering
  | none, none => .eq
  | none, some right => (compareToNone right).swap
  | some left, none => compareToNone left
  | some left, some right => compare left right

theorem compareLists_eq_then (a b : List Item) :
    compareLists a b = (comparePosition a.head? b.head?).then (compareLists a.tail b.tail) := by
  cases a with
  | nil =>
    cases b with
    | nil => rfl
    | cons right b => simp [compareLists, comparePosition]
  | cons left a =>
    cases b <;> simp [compareLists, comparePosition]

/-- Qualifiers are below lists, and lists below numbers. -/
def Item.rank : Item → ℕ
  | .string _ => 0
  | .list _ => 1
  | .int _ => 2

/-- Two items of different kinds that a missing one does not stand in order with: the item of the lower
kind is not below it, and the one of the higher kind not above it. -/
def Clash (x y : Item) : Prop :=
  x.rank < y.rank ∧ compareToNone x ≠ .lt ∧ compareToNone y ≠ .gt ∨
    y.rank < x.rank ∧ compareToNone y ≠ .lt ∧ compareToNone x ≠ .gt

/-- The nested list that stands at a position, a missing one being empty. -/
def nested : Option Item → Option (List Item)
  | none => some []
  | some (.list items) => some items
  | some _ => none

/-- The items at one position of three lists: where one is missing, the other two do not clash. -/
structure Fits (x y z : Option Item) : Prop where
  first : x = none → ∀ v ∈ y, ∀ w ∈ z, ¬ Clash v w
  second : y = none → ∀ v ∈ x, ∀ w ∈ z, ¬ Clash v w
  third : z = none → ∀ v ∈ x, ∀ w ∈ y, ¬ Clash v w

/-- No clash at any position of three lists, or of three lists nested in them, up to the first position
that tells them apart. -/
inductive Compatible : List Item → List Item → List Item → Prop
  | ended : Compatible [] [] []
  | position {a b c : List Item} (hfits : Fits a.head? b.head? c.head?)
    (hnested : ∀ a' ∈ nested a.head?, ∀ b' ∈ nested b.head?, ∀ c' ∈ nested c.head?, Compatible a' b' c')
    (hrest : comparePosition a.head? b.head? = .eq → comparePosition b.head? c.head? = .eq →
      comparePosition a.head? c.head? = .eq → Compatible a.tail b.tail c.tail) : Compatible a b c

theorem compareInts_consistent (a b c : String) :
    Consistent (compareInts a b) (compareInts b c) (compareInts a c) :=
  (consistent_cmp _ _ _).then fun _ _ _ => consistent_cmp a b c

theorem compareInts_zero {digits : String} (h : WithoutLeadingZeros digits) :
    compareInts digits "0" = compareToNone (.int digits) := by
  unfold compareToNone
  rcases h with rfl | ⟨first, rest, rfl, hfirst⟩
  · simp [compareInts]
  · have htext : "0" < String.ofList (first :: rest) := by
      rw [String.lt_iff_toList_lt, String.toList_ofList (l := first :: rest)]
      exact List.Lex.rel hfirst
    have hsize : "0".utf8ByteSize ≤ (String.ofList (first :: rest)).utf8ByteSize := by
      have hpos := first.utf8Size_pos
      have hzero : "0".utf8ByteSize = 1 := by decide
      rw [String.ofList_cons, String.utf8ByteSize_append, String.utf8ByteSize_singleton]
      omega
    rw [if_neg htext.ne']
    unfold compareInts
    rw [(cmp_eq_gt_iff _ _).mpr htext]
    rcases Nat.eq_or_lt_of_le hsize with heq | hlt
    · rw [(cmp_eq_eq_iff _ _).mpr heq.symm]
      rfl
    · rw [(cmp_eq_gt_iff _ _).mpr hlt]
      rfl

/-- The item of a kind that a missing one counts as. -/
def missing : ℕ → Item
  | 0 => .string ""
  | 1 => .list []
  | _ => .int "0"

theorem Item.Canonical.compareToNone_eq {v : Item} (h : v.Canonical) :
    compareToNone v = compare v (missing v.rank) := by
  cases h with
  | int h =>
    unfold compare
    exact (compareInts_zero h).symm
  | string value =>
    unfold compare compareToNone
    rfl
  | list =>
    unfold compare compareToNone
    exact (compareLists_nil_right _).symm

theorem compare_self (v : Item) : compare v v = .eq := by
  have h := compare_swap v v
  revert h
  cases compare v v <;> decide

/-- Where only one kind stands, a missing item may be filled in. -/
theorem comparePosition_eq {k : ℕ} {x y : Option Item}
    (hx : ∀ v ∈ x, v.Canonical ∧ v.rank = k) (hy : ∀ v ∈ y, v.Canonical ∧ v.rank = k) :
    comparePosition x y = compare (x.getD (missing k)) (y.getD (missing k)) := by
  cases x with
  | none =>
    cases y with
    | none => exact (compare_self (missing k)).symm
    | some w =>
      obtain ⟨hw, rfl⟩ := hy w rfl
      simp only [comparePosition, Option.getD_none, Option.getD_some]
      rw [hw.compareToNone_eq, ← compare_swap]
  | some v =>
    cases y with
    | none =>
      obtain ⟨hv, rfl⟩ := hx v rfl
      exact hv.compareToNone_eq
    | some w => rfl

theorem mem_nested {k : ℕ} {x : Option Item} (h : x.getD (missing k) = .list items) : items ∈ nested x := by
  cases x with
  | none =>
    unfold missing at h
    split at h <;> cases h
    rfl
  | some v =>
    cases h
    rfl

theorem compare_eq_then (v w : Item) : compare v w = (cmp v.rank w.rank).then (compare v w) := by
  cases v <;> cases w <;> simp [compare, Item.rank, cmp, cmpUsing]

theorem Item.eq_int {v : Item} (h : v.rank = 2) : ∃ digits, v = .int digits := by
  cases v with
  | int digits => exact ⟨digits, rfl⟩
  | string | list => simp [rank] at h

theorem Item.eq_string {v : Item} (h : v.rank = 0) : ∃ value, v = .string value := by
  cases v with
  | string value => exact ⟨value, rfl⟩
  | int | list => simp [rank] at h

theorem Item.eq_list {v : Item} (h : v.rank = 1) : ∃ items, v = .list items := by
  cases v with
  | list items => exact ⟨items, rfl⟩
  | int | string => simp [rank] at h

/-- Items in general: the kinds decide, and then lists compare as lists do. -/
theorem compare_consistent {u v w : Item}
    (hlists : ∀ a b c, u = .list a → v = .list b → w = .list c →
      Consistent (compareLists a b) (compareLists b c) (compareLists a c)) :
    Consistent (compare u v) (compare v w) (compare u w) := by
  rw [compare_eq_then u v, compare_eq_then v w, compare_eq_then u w]
  refine (consistent_cmp _ _ _).then fun huv hvw _ => ?_
  have huv : u.rank = v.rank := (cmp_eq_eq_iff _ _).mp huv
  have hvw : v.rank = w.rank := (cmp_eq_eq_iff _ _).mp hvw
  cases u with
  | int a =>
    obtain ⟨b, rfl⟩ := Item.eq_int huv.symm
    obtain ⟨c, rfl⟩ := Item.eq_int hvw.symm
    simp only [compare]
    exact compareInts_consistent a b c
  | string a =>
    obtain ⟨b, rfl⟩ := Item.eq_string huv.symm
    obtain ⟨c, rfl⟩ := Item.eq_string hvw.symm
    simp only [compare]
    exact consistent_cmp _ _ _
  | list a =>
    obtain ⟨b, rfl⟩ := Item.eq_list huv.symm
    obtain ⟨c, rfl⟩ := Item.eq_list hvw.symm
    simp only [compare]
    exact hlists a b c rfl rfl rfl

theorem compare_of_rank_lt {v w : Item} (h : v.rank < w.rank) : compare v w = .lt := by
  rw [compare_eq_then, (cmp_eq_lt_iff _ _).mpr h]
  rfl

/-- A missing item between two of different kinds that do not clash. -/
theorem missing_consistent {v w : Item} (h : v.rank ≠ w.rank) (hclash : ¬ Clash v w) :
    Consistent (compareToNone v).swap (compare v w) (compareToNone w).swap ∧
    Consistent (compareToNone v) (compareToNone w).swap (compare v w) ∧
    Consistent (compare v w) (compareToNone w) (compareToNone v) := by
  unfold Clash at hclash
  rcases Nat.lt_or_gt_of_ne h with h | h
  · rw [compare_of_rank_lt h]
    revert hclash
    simp only [h, h.not_gt, true_and, false_and, or_false]
    cases compareToNone v <;> cases compareToNone w <;> decide
  · rw [compare_swap, compare_of_rank_lt h]
    revert hclash
    simp only [h, h.not_gt, true_and, false_and, false_or]
    cases compareToNone v <;> cases compareToNone w <;> decide

section Position

variable {x y z : Option Item} (hx : ∀ v ∈ x, v.Canonical) (hy : ∀ v ∈ y, v.Canonical)
  (hz : ∀ v ∈ z, v.Canonical)
  (hnested : ∀ a ∈ nested x, ∀ b ∈ nested y, ∀ c ∈ nested z,
    Consistent (compareLists a b) (compareLists b c) (compareLists a c))
include hx hy hz hnested

theorem comparePosition_consistent_of_rank (k : ℕ) (hx' : ∀ v ∈ x, v.rank = k)
    (hy' : ∀ v ∈ y, v.rank = k) (hz' : ∀ v ∈ z, v.rank = k) :
    Consistent (comparePosition x y) (comparePosition y z) (comparePosition x z) := by
  rw [comparePosition_eq (fun v h => ⟨hx v h, hx' v h⟩) (fun v h => ⟨hy v h, hy' v h⟩),
    comparePosition_eq (fun v h => ⟨hy v h, hy' v h⟩) (fun v h => ⟨hz v h, hz' v h⟩),
    comparePosition_eq (fun v h => ⟨hx v h, hx' v h⟩) (fun v h => ⟨hz v h, hz' v h⟩)]
  exact compare_consistent fun a b c ha hb hc =>
    hnested a (mem_nested ha) b (mem_nested hb) c (mem_nested hc)

theorem comparePosition_consistent (hfits : Fits x y z) :
    Consistent (comparePosition x y) (comparePosition y z) (comparePosition x z) := by
  have hsame := comparePosition_consistent_of_rank hx hy hz hnested
  rcases x with _ | u <;> rcases y with _ | v <;> rcases z with _ | w
  · decide
  · exact hsame w.rank (by simp) (by simp) (by simp)
  · exact hsame v.rank (by simp) (by simp) (by simp)
  · by_cases h : v.rank = w.rank
    · exact hsame w.rank (by simp) (by simp [h]) (by simp)
    · exact (missing_consistent h (hfits.first rfl v rfl w rfl)).1
  · exact hsame u.rank (by simp) (by simp) (by simp)
  · by_cases h : u.rank = w.rank
    · exact hsame w.rank (by simp [h]) (by simp) (by simp)
    · exact (missing_consistent h (hfits.second rfl u rfl w rfl)).2.1
  · by_cases h : u.rank = v.rank
    · exact hsame v.rank (by simp [h]) (by simp) (by simp)
    · exact (missing_consistent h (hfits.third rfl u rfl v rfl)).2.2
  · exact compare_consistent fun a b c ha hb hc =>
      hnested a (by rw [ha]; rfl) b (by rw [hb]; rfl) c (by rw [hc]; rfl)

end Position

theorem Item.Canonical.head (h : (Item.list items).Canonical) : ∀ v ∈ items.head?, v.Canonical := by
  cases h with
  | list hall => exact fun v hv => hall v (List.mem_of_head? hv)

theorem Item.Canonical.tail (h : (Item.list items).Canonical) : (Item.list items.tail).Canonical := by
  cases h with
  | list hall hlast =>
    refine .list (fun item hitem => hall item (List.mem_of_mem_tail hitem)) fun last hmem => ?_
    cases items with
    | nil => simp at hmem
    | cons first rest =>
      have hrest : rest.getLast? = some last := hmem
      apply hlast
      rw [List.getLast?_cons, hrest]
      rfl

theorem Item.Canonical.nested {x : Option Item} (h : ∀ v ∈ x, v.Canonical)
    (hitems : items ∈ Maven.nested x) : (Item.list items).Canonical := by
  cases x with
  | none =>
    cases hitems
    exact .list (by simp) (by simp)
  | some v =>
    cases v with
    | list =>
      cases hitems
      exact h _ rfl
    | int | string => cases hitems

theorem Compatible.consistent {a b c : List Item} (h : Compatible a b c)
    (ha : (Item.list a).Canonical) (hb : (Item.list b).Canonical) (hc : (Item.list c).Canonical) :
    Consistent (compareLists a b) (compareLists b c) (compareLists a c) := by
  induction h with
  | ended => decide
  | @position a b c hfits hnested hrest ihnested ihrest =>
    rw [compareLists_eq_then a b, compareLists_eq_then b c, compareLists_eq_then a c]
    refine (comparePosition_consistent ha.head hb.head hc.head ?_ hfits).then ?_
    · intro a' ha' b' hb' c' hc'
      exact ihnested a' ha' b' hb' c' hc' (.nested ha.head ha') (.nested hb.head hb') (.nested hc.head hc')
    · intro hab hbc hac
      exact ihrest hab hbc hac ha.tail hb.tail hc.tail

theorem Compatible.numbers {a b c : List Item} (ha : ∀ v ∈ a, v.rank = 2) (hb : ∀ v ∈ b, v.rank = 2)
    (hc : ∀ v ∈ c, v.rank = 2) : Compatible a b c := by
  have hclash {v w : Item} (hv : v.rank = 2) (hw : w.rank = 2) : ¬ Clash v w := by
    unfold Clash
    omega
  have hnil {l l' : List Item} (hl : ∀ v ∈ l, v.rank = 2) (h : l' ∈ nested l.head?) : l' = [] := by
    cases l with
    | nil =>
      cases h
      rfl
    | cons first rest =>
      obtain ⟨digits, rfl⟩ := Item.eq_int (hl first List.mem_cons_self)
      cases h
  induction hn : a.length + b.length + c.length using Nat.strong_induction_on generalizing a b c with
  | h n ih =>
    by_cases hempty : a = [] ∧ b = [] ∧ c = []
    · obtain ⟨rfl, rfl, rfl⟩ := hempty
      exact .ended
    · refine .position ⟨?_, ?_, ?_⟩ ?_ ?_
      · exact fun _ v hv w hw => hclash (hb v (List.mem_of_head? hv)) (hc w (List.mem_of_head? hw))
      · exact fun _ v hv w hw => hclash (ha v (List.mem_of_head? hv)) (hc w (List.mem_of_head? hw))
      · exact fun _ v hv w hw => hclash (ha v (List.mem_of_head? hv)) (hb w (List.mem_of_head? hw))
      · intro a' ha' b' hb' c' hc'
        rw [hnil ha ha', hnil hb hb', hnil hc hc']
        exact .ended
      · intro _ _ _
        have hlt : a.tail.length + b.tail.length + c.tail.length < n := by
          have hpos : 0 < a.length + b.length + c.length := by
            by_contra hzero
            apply hempty
            refine ⟨List.eq_nil_of_length_eq_zero ?_, List.eq_nil_of_length_eq_zero ?_,
              List.eq_nil_of_length_eq_zero ?_⟩ <;> omega
          simp only [List.length_tail]
          omega
        exact ih _ hlt (fun v hv => ha v (List.mem_of_mem_tail hv)) (fun v hv => hb v (List.mem_of_mem_tail hv))
          (fun v hv => hc v (List.mem_of_mem_tail hv)) rfl

namespace ComparableVersion

theorem compare_swap (a b : ComparableVersion) : a.compare b = (b.compare a).swap :=
  compareLists_swap a.items b.items

theorem compare_eq_iff {a b : ComparableVersion} : a.compare b = .eq ↔ a = b := by
  constructor
  · intro h
    have hlist : Maven.compare (.list a.items) (.list b.items) = .eq := by
      unfold Maven.compare
      exact h
    have hitems : a.items = b.items := Item.list.inj (a.canonical.eq_of_compare b.canonical hlist)
    cases a
    cases b
    simpa using hitems
  · rintro rfl
    have hlist := compare_self (.list a.items)
    unfold Maven.compare at hlist
    exact hlist

/-- Two version strings compare equal exactly when they parse to the same items, nested lists included: what
the derived equality compares. -/
theorem new_compare_eq_iff (lowercase : String → String) (a b : String) :
    (new lowercase a).compare (new lowercase b) = .eq ↔ parse lowercase a = parse lowercase b := by
  rw [compare_eq_iff]
  constructor
  · intro h
    exact congrArg items h
  · intro h
    unfold new
    simp only [h]

/-- Three versions with no clash between them. -/
def Compatible (a b c : ComparableVersion) : Prop := Maven.Compatible a.items b.items c.items

theorem Compatible.consistent {a b c : ComparableVersion} (h : Compatible a b c) :
    Consistent (a.compare b) (b.compare c) (a.compare c) :=
  Maven.Compatible.consistent h a.canonical b.canonical c.canonical

end ComparableVersion

end Krusty.Toolchain.Maven
