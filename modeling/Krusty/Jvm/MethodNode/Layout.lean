import Krusty.Lib.Results
import Krusty.Jvm.MethodNode.Assemble

/-! The layout loop: it ends, and it ends at a consistent layout. -/
namespace Krusty.Jvm
open Bytes Results

/-- The item with its jump, if it is one, narrow again. -/
def Item.narrowed : Item → Item
  | .code (.jump op target _) => .code (.jump op target false)
  | item => item

def narrowCount : List Item → ℕ
  | [] => 0
  | .code (.jump _ _ false) :: items => narrowCount items + 1
  | _ :: items => narrowCount items

/-- Every narrow jump of a laid-out list reaches its label. -/
def Reaches (table : List (Option ℕ)) (placed : List (Item × ℕ)) : Prop :=
  ∀ op target here dest, (Item.code (.jump op target false), here) ∈ placed →
    offsetOf table target = .ok dest → fitsI16 ((dest : ℤ) - here) = true

theorem offsetsFrom_length (items : List Item) (pos : ℕ) :
    (offsetsFrom items pos).length = items.length + 1 := by
  induction items generalizing pos with
  | nil => rfl
  | cons item items ih => simp [offsetsFrom, ih]

variable {table : List (Option ℕ)}

/-- One round of widening over a jump, unfolded. -/
theorem widen_jump {op : UInt8} {target : LabelId} {wide : Bool}
    {here : ℕ} {placed : List (Item × ℕ)} {out : List Item × Bool}
    (h : widen table ((.code (.jump op target wide), here) :: placed) = .ok out) :
    ∃ dest items' widened, offsetOf table target = .ok dest ∧
      widen table placed = .ok (items', widened) ∧
      out = (.code (.jump op target (wide || (!wide && !fitsI16 ((dest : ℤ) - here)))) :: items',
        (!wide && !fitsI16 ((dest : ℤ) - here)) || widened) := by
  obtain ⟨dest, hd, h⟩ := bind_ok h
  obtain ⟨⟨items', widened⟩, hw, h⟩ := bind_ok h
  exact ⟨dest, items', widened, hd, hw, (Except.ok.inj h).symm⟩

/-- What one pass of widening does: it only widens jumps, a pass that reports a change leaves
fewer narrow jumps, and one that reports none changes nothing and finds every jump in reach. -/
theorem widen_spec {placed : List (Item × ℕ)} {items' : List Item}
    {widened : Bool} (h : widen table placed = .ok (items', widened)) :
    items'.map Item.narrowed = (placed.map Prod.fst).map Item.narrowed ∧
      (widened = true → narrowCount items' < narrowCount (placed.map Prod.fst)) ∧
      narrowCount items' ≤ narrowCount (placed.map Prod.fst) ∧
      (widened = false → items' = placed.map Prod.fst ∧ Reaches table placed) := by
  induction placed generalizing items' widened with
  | nil =>
    obtain ⟨rfl, rfl⟩ := Prod.mk.inj (Except.ok.inj h)
    simp [Reaches, narrowCount]
  | cons head placed ih =>
    obtain ⟨item, here⟩ := head
    by_cases hj : ∃ op target wide, item = .code (.jump op target wide)
    · obtain ⟨op, target, wide, rfl⟩ := hj
      obtain ⟨dest, rest, w, hd, hw, hout⟩ := widen_jump h
      obtain ⟨rfl, rfl⟩ := Prod.mk.inj hout
      obtain ⟨hn, hlt, hle, heq⟩ := ih hw
      cases wide with
      | true =>
        refine ⟨by simp [Item.narrowed, hn], by simpa [narrowCount] using hlt,
          by simpa [narrowCount] using hle, ?_⟩
        intro hf
        obtain ⟨rfl, hr⟩ := heq (by simpa using hf)
        refine ⟨by simp, ?_⟩
        intro op' target' here' dest' hm
        simp only [List.mem_cons, Prod.mk.injEq, Item.code.injEq, Encoded.jump.injEq] at hm
        exact hr op' target' here' dest' (by simpa using hm)
      | false =>
        cases hf : fitsI16 ((dest : ℤ) - here) with
        | false =>
          refine ⟨by simp [Item.narrowed, hn], ?_, ?_, by simp⟩
          · intro _
            simpa [narrowCount] using Nat.lt_succ_of_le hle
          · simpa [narrowCount] using Nat.le_succ_of_le hle
        | true =>
          refine ⟨by simp [Item.narrowed, hn], by simpa [narrowCount] using hlt,
            by simpa [narrowCount] using hle, ?_⟩
          intro hw'
          obtain ⟨rfl, hr⟩ := heq (by simpa using hw')
          refine ⟨by simp, ?_⟩
          intro op' target' here' dest' hm hd'
          rcases List.mem_cons.mp hm with hm | hm
          · obtain ⟨he, rfl⟩ := Prod.mk.inj hm
            obtain ⟨rfl, rfl, -⟩ := Encoded.jump.inj (Item.code.inj he)
            rw [hd] at hd'
            obtain rfl := Except.ok.inj hd'
            exact hf
          · exact hr op' target' here' dest' hm hd'
    · have hwid : ∃ rest, widen table placed = .ok (rest, widened) ∧ items' = item :: rest := by
        have hstep : widen table ((item, here) :: placed) =
            widen table placed >>= fun rest => .ok (item :: rest.1, rest.2) := by
          cases item with
          | label l => rfl
          | code encoded =>
            cases encoded with
            | jump op target wide => exact absurd ⟨op, target, wide, rfl⟩ hj
            | _ => rfl
        rw [hstep] at h
        obtain ⟨⟨rest, w⟩, hw, h⟩ := bind_ok h
        obtain ⟨rfl, rfl⟩ := Prod.mk.inj (Except.ok.inj h)
        exact ⟨rest, hw, rfl⟩
      obtain ⟨rest, hw, rfl⟩ := hwid
      have hc : ∀ items, narrowCount (item :: items) = narrowCount items := by
        intro items
        cases item with
        | label l => rfl
        | code encoded =>
          cases encoded with
          | jump op target wide => exact absurd ⟨op, target, wide, rfl⟩ hj
          | _ => rfl
      obtain ⟨hn, hlt, hle, heq⟩ := ih hw
      refine ⟨by simp [hn], by simpa [hc] using hlt, by simpa [hc] using hle, ?_⟩
      intro hf
      obtain ⟨rfl, hr⟩ := heq hf
      refine ⟨by simp, ?_⟩
      intro op' target' here' dest' hm
      rcases List.mem_cons.mp hm with hm | hm
      · exact absurd ⟨op', target', false, (Prod.mk.inj hm).1.symm⟩ hj
      · exact hr op' target' here' dest' hm

theorem zip_offsetsFrom_fst (items : List Item) (pos : ℕ) :
    (items.zip (offsetsFrom items pos)).map Prod.fst = items := by
  apply List.map_fst_zip
  rw [offsetsFrom_length]
  omega

/-- A layout the loop can stop at. -/
structure Settled (labelCount : ℕ) (items : List Item) (offsets : List ℕ) : Prop where
  offsets_eq : offsets = offsetsFrom items 0
  length_le : offsets.getLastD 0 ≤ 65535
  reaches : Reaches (placeLabels labelCount items offsets) (items.zip offsets)

/-- The rounds the loop may still take: two for each narrow jump (widen it, then settle the
offsets it moved), and one or two more at the end. -/
def roundsLeft (items : List Item) (offsets : List ℕ) : ℕ :=
  2 * narrowCount items + if offsets = offsetsFrom items 0 then 1 else 2

/-- A round that goes on has fewer rounds left. -/
theorem roundsLeft_lt {items items' : List Item} {offsets : List ℕ} {widened : Bool}
    (h : widen table (items.zip (offsetsFrom items 0)) = .ok (items', widened))
    (hgo : ¬ (offsetsFrom items 0 = offsets ∧ (!widened) = true)) :
    roundsLeft items' (offsetsFrom items 0) < roundsLeft items offsets := by
  obtain ⟨-, hlt, -, heq⟩ := widen_spec h
  rw [zip_offsetsFrom_fst] at hlt heq
  unfold roundsLeft
  cases widened with
  | true =>
    have hlt := hlt rfl
    split <;> split <;> omega
  | false =>
    obtain ⟨rfl, -⟩ := heq rfl
    have hne : offsets ≠ offsetsFrom items' 0 := by
      intro h
      exact hgo ⟨h.symm, rfl⟩
    rw [if_pos rfl, if_neg hne]
    omega

theorem layoutLoop_isSome (labelCount : ℕ) {fuel : ℕ} {items : List Item} {offsets : List ℕ}
    (h : roundsLeft items offsets ≤ fuel) :
    ∃ r, ∀ more, layoutLoop labelCount (fuel + more) items offsets = some r := by
  induction fuel generalizing items offsets with
  | zero =>
    unfold roundsLeft at h
    split at h <;> omega
  | succ fuel ih =>
    simp only [Nat.add_right_comm fuel 1, layoutLoop]
    by_cases hlong : (offsetsFrom items 0).getLastD 0 > 65535
    · exact ⟨_, fun _ => if_pos hlong⟩
    simp only [if_neg hlong]
    cases hw : widen (placeLabels labelCount items (offsetsFrom items 0))
        (items.zip (offsetsFrom items 0)) with
    | error e => exact ⟨_, fun _ => rfl⟩
    | ok out =>
      obtain ⟨items', widened⟩ := out
      by_cases hstop : offsetsFrom items 0 = offsets ∧ (!widened) = true
      · exact ⟨_, fun _ => if_pos hstop⟩
      · simp only [if_neg hstop]
        have hlt := roundsLeft_lt hw hstop
        exact ih (by omega)

/-- Where the loop stops, the items are the given ones with some jumps widened, and their layout
is settled. -/
theorem layoutLoop_settled {labelCount fuel : ℕ} {items items' : List Item}
    {offsets offsets' : List ℕ}
    (h : layoutLoop labelCount fuel items offsets = some (.ok (items', offsets'))) :
    items'.map Item.narrowed = items.map Item.narrowed ∧
      Settled labelCount items' offsets' := by
  induction fuel generalizing items offsets with
  | zero => cases h
  | succ fuel ih =>
    simp only [layoutLoop] at h
    split_ifs at h with hlong
    · cases h
    split at h
    next e hw => cases h
    next next widened hw =>
      obtain ⟨hn, -, -, heq⟩ := widen_spec hw
      rw [zip_offsetsFrom_fst] at hn heq
      split_ifs at h with hstop
      · obtain ⟨rfl, rfl⟩ := Prod.mk.inj (Except.ok.inj (Option.some.inj h))
        obtain ⟨rfl, hr⟩ := heq (by simpa using hstop.2)
        exact ⟨rfl, rfl, by omega, hr⟩
      · obtain ⟨hn', hs⟩ := ih h
        exact ⟨hn'.trans hn, hs⟩

end Krusty.Jvm
