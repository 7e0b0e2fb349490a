import Mathlib.Data.List.Forall2
import Mathlib.Order.RelClasses
import Mathlib.Data.List.Basic
import Mathlib.Order.Lattice

/-! Orders without infinite ascending chains, and the lists, options and pairs built over them. -/
namespace Ascending

variable {α β : Type} {r : α → α → Prop} {s : β → β → Prop}

/-- `a` is strictly above `b`. -/
def Above (r : α → α → Prop) (a b : α) : Prop := r b a ∧ a ≠ b

/-- No value can be raised forever. -/
def FiniteHeight (r : α → α → Prop) : Prop := WellFounded (Above r)

/-- `none` below everything. -/
def OptionLe (r : α → α → Prop) : Option α → Option α → Prop
  | none, _ => True
  | some a, some b => r a b
  | some _, none => False

def PairLe (r : α → α → Prop) (s : β → β → Prop) (p q : α × β) : Prop := r p.1 q.1 ∧ s p.2 q.2

theorem acc_pair {a : α} {b : β} (ha : Acc (Above r) a) (hb : Acc (Above s) b) :
    Acc (Above (PairLe r s)) (a, b) := by
  induction ha generalizing b with
  | intro a _ iha =>
    induction hb with
    | intro b hb ihb =>
      constructor
      rintro ⟨a', b'⟩ ⟨⟨hra, hsb⟩, hne⟩
      by_cases haa : a' = a
      · subst haa
        exact ihb b' ⟨hsb, fun h => hne (by rw [h])⟩
      · apply iha a' ⟨hra, haa⟩
        by_cases hbb : b' = b
        · rw [hbb]
          exact ⟨b, hb⟩
        · exact hb b' ⟨hsb, hbb⟩

theorem finiteHeight_pair (hr : FiniteHeight r) (hs : FiniteHeight s) : FiniteHeight (PairLe r s) :=
  ⟨fun p => acc_pair (hr.apply p.1) (hs.apply p.2)⟩

theorem finiteHeight_option (hr : FiniteHeight r) : FiniteHeight (OptionLe r) := by
  have hsome : ∀ a, Acc (Above (OptionLe r)) (some a) := by
    intro a
    induction hr.apply a with
    | intro a _ ih =>
      constructor
      rintro (_ | b) ⟨hle, hne⟩
      · cases hle
      · exact ih b ⟨hle, fun h => hne (by rw [h])⟩
  constructor
  rintro (_ | a)
  · constructor
    rintro (_ | b) ⟨-, hne⟩
    · exact absurd rfl hne
    · exact hsome b
  · exact hsome a

/-- Lists of one length, compared entry by entry. -/
theorem finiteHeight_forall₂ (hr : FiniteHeight r) : FiniteHeight (List.Forall₂ r) := by
  constructor
  intro xs
  induction xs with
  | nil =>
    constructor
    rintro ys ⟨hle, hne⟩
    cases hle
    exact absurd rfl hne
  | cons x xs ih =>
    have hpair := acc_pair (hr.apply x) ih
    -- a list above `x :: xs` is again a head and a tail, and one of them is above
    have hcons : ∀ p : α × List α, Acc (Above (PairLe r (List.Forall₂ r))) p →
        Acc (Above (List.Forall₂ r)) (p.1 :: p.2) := by
      intro p hp
      induction hp with
      | intro p _ ihp =>
        constructor
        rintro ys ⟨hle, hne⟩
        cases hle with
        | @cons _ y _ ys hxy hxys =>
          apply ihp (y, ys) ⟨⟨hxy, hxys⟩, ?_⟩
          rintro rfl
          exact hne rfl
    exact hcons (x, xs) hpair

theorem finiteHeight_of_map {f : β → α} (hf : ∀ b b', f b = f b' → b = b') (hs : ∀ b b', s b b' → r (f b) (f b'))
    (hr : FiniteHeight r) : FiniteHeight s := by
  have hsub : ∀ b b', Above s b b' → InvImage (Above r) f b b' :=
    fun b b' h => ⟨hs _ _ h.1, fun heq => h.2 (hf _ _ heq)⟩
  exact Subrelation.wf (fun {b b'} h => hsub b b' h) (InvImage.wf f hr)

end Ascending

/-! Merges that are joins: names that keep only their depth where they differ, blocks of values under one
top, and folds that forget the order of what they merge. -/
namespace Joins

open Ascending

variable {α κ : Type}

/-- `b` absorbs `a`. -/
def Absorbs (m : α → α → α) (a b : α) : Prop := m b a = b

section Folds

variable (m : α → α → α) [Std.Associative m] [Std.Commutative m] [Std.IdempotentOp m]

theorem absorbs_merge_iff {a b u : α} : Absorbs m (m a b) u ↔ Absorbs m a u ∧ Absorbs m b u := by
  unfold Absorbs
  constructor
  · intro h
    have ha : m u a = m (m u (m a b)) a := by rw [h]
    have hb : m u b = m (m u (m a b)) b := by rw [h]
    constructor
    · rw [ha, @Std.Associative.assoc _ m _ u, @Std.Commutative.comm _ m _ (m a b) a,
        ← @Std.Associative.assoc _ m _ a a b, @Std.IdempotentOp.idempotent _ m _ a, h]
    · rw [hb, @Std.Associative.assoc _ m _ u, @Std.Associative.assoc _ m _ a b b,
        @Std.IdempotentOp.idempotent _ m _ b, h]
  · rintro ⟨ha, hb⟩
    rw [← @Std.Associative.assoc _ m _ u a b, ha, hb]

omit [Std.Associative m] [Std.IdempotentOp m] in
theorem absorbs_antisymm {a b : α} (hab : Absorbs m a b) (hba : Absorbs m b a) : a = b := by
  unfold Absorbs at *
  rw [← hba, @Std.Commutative.comm _ m _ a b, hab]

/-- What absorbs a fold is what absorbs everything it merged. -/
theorem absorbs_foldl_iff (first u : α) (rest : List α) :
    Absorbs m (rest.foldl m first) u ↔ ∀ x ∈ first :: rest, Absorbs m x u := by
  induction rest generalizing first with
  | nil => simp
  | cons x rest ih =>
    rw [List.foldl_cons, ih]
    simp only [List.forall_mem_cons, absorbs_merge_iff m, and_assoc]

/-- Two folds over the same values are equal, whatever the order and however often each is merged. -/
theorem foldl_eq_of_mem_iff {first first' : α} {rest rest' : List α}
    (h : ∀ x, x ∈ first :: rest ↔ x ∈ first' :: rest') : rest.foldl m first = rest'.foldl m first' := by
  have hiff : ∀ u, Absorbs m (rest.foldl m first) u ↔ Absorbs m (rest'.foldl m first') u := by
    intro u
    rw [absorbs_foldl_iff, absorbs_foldl_iff]
    exact forall_congr' fun x => imp_congr_left (h x)
  have hself : ∀ u, Absorbs m u u := fun u => Std.IdempotentOp.idempotent u
  apply absorbs_antisymm m
  · exact (hiff _).mpr (hself _)
  · exact (hiff _).mp (hself _)

end Folds

/-- Where every merge keeps its first value or lowers its rank, nothing is raised forever. -/
theorem finiteHeight_of_falls {ρ : Type} [LT ρ] [WellFoundedLT ρ] {m : α → α → α} [Std.Commutative m]
    (rank : α → ρ) (falls : ∀ a b, m a b = a ∨ rank (m a b) < rank a) : FiniteHeight (Absorbs m) := by
  have hsub : ∀ a b, Above (Absorbs m) a b → rank a < rank b := by
    rintro a b ⟨habsorbs, hne⟩
    have hmerge : m b a = a := (Std.Commutative.comm b a).trans habsorbs
    obtain hkept | hfell := falls b a
    · exact absurd (hmerge.symm.trans hkept) hne
    · rwa [hmerge] at hfell
  exact Subrelation.wf (fun {a b} h => hsub a b h) (InvImage.wf rank wellFounded_lt)

section Lists

variable (m : α → α → α)

/-- Lists of one length merged entry by entry; lists of different lengths do not merge. -/
def zipJoin : Option (List α) → Option (List α) → Option (List α)
  | some a, some b => if a.length = b.length then some (List.zipWith m a b) else none
  | _, _ => none

@[simp] theorem none_zipJoin (b : Option (List α)) : zipJoin m none b = none := rfl

@[simp] theorem zipJoin_none (a : Option (List α)) : zipJoin m a none = none := by cases a <;> rfl

theorem zipJoin_of_length {a b : List α} (h : a.length = b.length) :
    zipJoin m (some a) (some b) = some (List.zipWith m a b) := if_pos h

theorem zipJoin_of_length_ne {a b : List α} (h : a.length ≠ b.length) :
    zipJoin m (some a) (some b) = none := if_neg h

theorem zipWith_assoc [Std.Associative m] (a b c : List α) :
    List.zipWith m (List.zipWith m a b) c = List.zipWith m a (List.zipWith m b c) := by
  induction a generalizing b c with
  | nil => rfl
  | cons x a ih =>
    cases b with
    | nil => rfl
    | cons y b =>
      cases c with
      | nil => rfl
      | cons z c => simp only [List.zipWith_cons_cons, @Std.Associative.assoc _ m _ x y z, ih]

theorem zipJoin_assoc [Std.Associative m] (a b c : Option (List α)) :
    zipJoin m (zipJoin m a b) c = zipJoin m a (zipJoin m b c) := by
  cases a with
  | none => rfl
  | some a =>
    cases b with
    | none => rfl
    | some b =>
      cases c with
      | none => rw [zipJoin_none, zipJoin_none, zipJoin_none]
      | some c =>
        have hab : (List.zipWith m a b).length = min a.length b.length := List.length_zipWith
        have hbc : (List.zipWith m b c).length = min b.length c.length := List.length_zipWith
        by_cases h : a.length = b.length
        · rw [zipJoin_of_length m h]
          by_cases h' : b.length = c.length
          · rw [zipJoin_of_length m h', zipJoin_of_length m (by omega), zipJoin_of_length m (by omega),
              zipWith_assoc]
          · rw [zipJoin_of_length_ne m h', zipJoin_of_length_ne m (by omega), zipJoin_none]
        · rw [zipJoin_of_length_ne m h, none_zipJoin]
          by_cases h' : b.length = c.length
          · rw [zipJoin_of_length m h', zipJoin_of_length_ne m (by omega)]
          · rw [zipJoin_of_length_ne m h', zipJoin_none]

instance zipJoinAssociative [Std.Associative m] : Std.Associative (zipJoin m) := ⟨zipJoin_assoc m⟩

instance zipJoinCommutative [Std.Commutative m] : Std.Commutative (zipJoin m) where
  comm a b := by
    cases a with
    | none => rw [none_zipJoin, zipJoin_none]
    | some a =>
      cases b with
      | none => rfl
      | some b =>
        by_cases h : a.length = b.length
        · have hzip : List.zipWith m a b = List.zipWith m b a := List.zipWith_comm_of_comm Std.Commutative.comm
          rw [zipJoin_of_length m h, zipJoin_of_length m h.symm, hzip]
        · rw [zipJoin_of_length_ne m h, zipJoin_of_length_ne m (Ne.symm h)]

instance zipJoinIdempotent [Std.IdempotentOp m] : Std.IdempotentOp (zipJoin m) where
  idempotent a := by
    cases a with
    | none => rfl
    | some a =>
      have hself : List.zipWith m a a = a := by
        rw [List.zipWith_self]
        simp [@Std.IdempotentOp.idempotent _ m _]
      rw [zipJoin_of_length m rfl, hself]

end Lists

section Pairs

variable {β : Type} (m : α → α → α) (m' : β → β → β)

def pairJoin (p q : α × β) : α × β := (m p.1 q.1, m' p.2 q.2)

instance pairJoinAssociative [Std.Associative m] [Std.Associative m'] : Std.Associative (pairJoin m m') where
  assoc p q r := by
    simp only [pairJoin, @Std.Associative.assoc _ m _ p.1 q.1 r.1, @Std.Associative.assoc _ m' _ p.2 q.2 r.2]

instance pairJoinCommutative [Std.Commutative m] [Std.Commutative m'] : Std.Commutative (pairJoin m m') where
  comm p q := by
    simp only [pairJoin, @Std.Commutative.comm _ m _ p.1 q.1, @Std.Commutative.comm _ m' _ p.2 q.2]

instance pairJoinIdempotent [Std.IdempotentOp m] [Std.IdempotentOp m'] : Std.IdempotentOp (pairJoin m m') where
  idempotent p := by
    simp only [pairJoin, @Std.IdempotentOp.idempotent _ m _ p.1, @Std.IdempotentOp.idempotent _ m' _ p.2]

end Pairs

/-- Names with a depth, and one canonical name of each depth. -/
structure Depths (α : Type) where
  depth : α → ℕ
  canonical : ℕ → α
  depth_canonical : ∀ n, depth (canonical n) = n

namespace Depths

variable [DecidableEq α] (d : Depths α)

/-- A name meets itself at itself, and another at the canonical name of the lower depth. -/
def meet (a b : α) : α := if a = b then a else d.canonical (min (d.depth a) (d.depth b))

/-- A canonical name is below every other name of its depth. -/
def rank (a : α) : ℕ := if a = d.canonical (d.depth a) then 2 * d.depth a else 2 * d.depth a + 1

@[simp] theorem meet_self (a : α) : d.meet a a = a := if_pos rfl

theorem meet_of_ne {a b : α} (h : a ≠ b) : d.meet a b = d.canonical (min (d.depth a) (d.depth b)) := if_neg h

@[simp] theorem depth_meet (a b : α) : d.depth (d.meet a b) = min (d.depth a) (d.depth b) := by
  by_cases h : a = b
  · rw [h, meet_self, Nat.min_self]
  · rw [d.meet_of_ne h, d.depth_canonical]

theorem meet_comm (a b : α) : d.meet a b = d.meet b a := by
  by_cases h : a = b
  · rw [h]
  · rw [d.meet_of_ne h, d.meet_of_ne (Ne.symm h), Nat.min_comm]

/-- A name that meets a canonical one of no more depth falls to it. -/
theorem meet_canonical {a : α} {n : ℕ} (h : n ≤ d.depth a) : d.meet a (d.canonical n) = d.canonical n := by
  by_cases ha : a = d.canonical n
  · rw [ha, meet_self]
  · rw [d.meet_of_ne ha, d.depth_canonical, Nat.min_eq_right h]

theorem meet_meet_self (a b : α) : d.meet a (d.meet a b) = d.meet a b := by
  by_cases h : a = b
  · rw [h, meet_self, meet_self]
  · rw [d.meet_of_ne h]
    exact d.meet_canonical (Nat.min_le_left _ _)

/-- Where the first two differ, three names meet at the canonical name of the lowest depth. -/
theorem meet_meet_of_ne {a b : α} (c : α) (h : a ≠ b) :
    d.meet (d.meet a b) c = d.canonical (min (min (d.depth a) (d.depth b)) (d.depth c)) := by
  rw [d.meet_of_ne h]
  by_cases hc : d.canonical (min (d.depth a) (d.depth b)) = c
  · rw [← hc, meet_self, d.depth_canonical, Nat.min_self]
  · rw [d.meet_of_ne hc, d.depth_canonical]

theorem meet_assoc (a b c : α) : d.meet (d.meet a b) c = d.meet a (d.meet b c) := by
  by_cases hab : a = b
  · rw [hab, meet_self, meet_meet_self]
  by_cases hbc : b = c
  · rw [hbc, meet_self, meet_comm, d.meet_comm a c, meet_meet_self]
  · have hleft := d.meet_meet_of_ne c hab
    have hright := d.meet_meet_of_ne a (Ne.symm hbc)
    rw [hleft, d.meet_comm a, d.meet_comm b c, hright]
    congr 1
    omega

theorem meet_falls (a b : α) : d.meet a b = a ∨ d.rank (d.meet a b) < d.rank a := by
  by_cases h : a = b
  · left
    rw [h, meet_self]
  by_cases ha : a = d.canonical (min (d.depth a) (d.depth b))
  · left
    rw [d.meet_of_ne h, ← ha]
  · right
    have hdepth := d.depth_canonical (min (d.depth a) (d.depth b))
    have hlow : d.rank (d.meet a b) = 2 * min (d.depth a) (d.depth b) := by
      rw [d.meet_of_ne h, rank, hdepth, if_pos rfl]
    rw [hlow, rank]
    split_ifs with hcanonical
    · have hne : min (d.depth a) (d.depth b) ≠ d.depth a := fun heq => ha (by rw [heq, ← hcanonical])
      omega
    · omega

instance meetAssociative : Std.Associative d.meet := ⟨d.meet_assoc⟩
instance meetCommutative : Std.Commutative d.meet := ⟨d.meet_comm⟩
instance meetIdempotent : Std.IdempotentOp d.meet := ⟨d.meet_self⟩

end Depths

/-- Values in blocks: two of one block merge inside it, two of different blocks merge to the top. -/
structure Blocks (m : α → α → α) (block : α → κ) (top : α) : Prop where
  apart : ∀ a b, block a ≠ block b → m a b = top
  within : ∀ a b, block a = block b → block (m a b) = block a
  alone : ∀ a, block a = block top → a = top
  idem : ∀ a, m a a = a
  comm : ∀ a b, block a = block b → m a b = m b a
  assoc : ∀ a b c, block a = block b → block b = block c → m (m a b) c = m a (m b c)

namespace Blocks

variable {m : α → α → α} {block : α → κ} {top : α} (h : Blocks m block top)

include h

theorem top_merge (a : α) : m top a = top := by
  by_cases ha : block top = block a
  · rw [h.alone a ha.symm, h.idem]
  · exact h.apart _ _ ha

theorem merge_top (a : α) : m a top = top := by
  by_cases ha : block a = block top
  · rw [h.alone a ha, h.idem]
  · exact h.apart _ _ ha

theorem merge_comm (a b : α) : m a b = m b a := by
  by_cases hab : block a = block b
  · exact h.comm a b hab
  · rw [h.apart a b hab, h.apart b a (Ne.symm hab)]

theorem merge_assoc (a b c : α) : m (m a b) c = m a (m b c) := by
  by_cases hab : block a = block b
  · by_cases hbc : block b = block c
    · exact h.assoc a b c hab hbc
    · have hne : block (m a b) ≠ block c := by rwa [h.within a b hab, hab]
      rw [h.apart _ c hne, h.apart b c hbc, h.merge_top]
  · rw [h.apart a b hab, h.top_merge]
    by_cases hbc : block b = block c
    · have hne : block a ≠ block (m b c) := by rwa [h.within b c hbc]
      rw [h.apart a _ hne]
    · rw [h.apart b c hbc, h.merge_top]

end Blocks

end Joins
