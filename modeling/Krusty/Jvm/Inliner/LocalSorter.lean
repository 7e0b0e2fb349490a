import Krusty.Jvm.MethodNode.Nodes
import Mathlib

/-! The inliner's `LocalVariablesSorter`: every local above the parameters gets a fresh slot. -/
namespace Krusty.Jvm.Inliner

/-- The first slot that is renumbered, the next slot to hand out, and by `2 * slot + size - 1` the new slot
plus one, zero while there is none. The arithmetic is that of 16-bit words. -/
structure Sorter where
  firstLocal : UInt16
  nextLocal : UInt16
  remapped : List UInt16

namespace Sorter

def new (firstLocal : UInt16) : Sorter := { firstLocal, nextLocal := firstLocal, remapped := [] }

def remap (s : Sorter) (slot size : UInt16) : UInt16 × Sorter :=
  if slot + size ≤ s.firstLocal then (slot, s)
  else
    let key := (2 * slot + size - 1).toNat
    let remapped := s.remapped ++ List.replicate (key + 1 - s.remapped.length) 0
    if remapped.getD key 0 = 0 then
      (s.nextLocal,
        { s with nextLocal := s.nextLocal + size, remapped := remapped.set key (s.nextLocal + 1) })
    else (remapped.getD key 0 - 1, { s with remapped })

/-- `lload`, `dload`, `lstore` and `dstore` name two words. -/
def isWideVar (op : UInt8) : Bool := op == 0x16 || op == 0x18 || op == 0x37 || op == 0x39

def visit (s : Sorter) : Insn LabelId → Insn LabelId × Sorter
  | .var op slot =>
    let r := s.remap slot (if isWideVar op then 2 else 1)
    (.var op r.1, r.2)
  | .iinc slot delta =>
    let r := s.remap slot 1
    (.iinc r.1 delta, r.2)
  | insn => (insn, s)

def visitLocal (s : Sorter) (v : LocalVariable) : LocalVariable × Sorter :=
  let r := s.remap v.slot (if v.desc == "J" || v.desc == "D" then 2 else 1)
  ({ v with slot := r.1 }, r.2)

def maxLocals (s : Sorter) : UInt16 := s.nextLocal

end Sorter

/-- What the sorter is shown, in the order of the inliner's visitor. -/
inductive Visited where
  | instruction (insn : Insn LabelId)
  | entry (v : LocalVariable)
  deriving DecidableEq

def Sorter.see (s : Sorter) : Visited → Visited × Sorter
  | .instruction insn =>
    let r := s.visit insn
    (.instruction r.1, r.2)
  | .entry v =>
    let r := s.visitLocal v
    (.entry r.1, r.2)

def Sorter.seeAll (s : Sorter) : List Visited → List Visited × Sorter
  | [] => ([], s)
  | v :: vs =>
    let r := s.see v
    let rest := r.2.seeAll vs
    (r.1 :: rest.1, rest.2)

/-! ### Accesses -/

/-- The slot that is named and the words that are meant. -/
abbrev Local := UInt16 × UInt16

namespace Visited

def access : Visited → Option Local
  | .instruction (.var op slot) => some (slot, if Sorter.isWideVar op then 2 else 1)
  | .instruction (.iinc slot _) => some (slot, 1)
  | .instruction _ => none
  | .entry v => some (v.slot, if v.desc == "J" || v.desc == "D" then 2 else 1)

def withSlot (slot : UInt16) : Visited → Visited
  | .instruction (.var op _) => .instruction (.var op slot)
  | .instruction (.iinc _ delta) => .instruction (.iinc slot delta)
  | .entry v => .entry { v with slot }
  | v => v

/-- Every slot replaced by what its access is renamed to. -/
def rename (f : Local → UInt16) (v : Visited) : Visited :=
  match v.access with
  | none => v
  | some a => v.withSlot (f a)

end Visited

def accesses (vs : List Visited) : List Local := vs.filterMap Visited.access

/-- The access lies among the parameters. -/
def Local.Below (first : UInt16) (a : Local) : Prop := a.1.toNat + a.2.toNat ≤ first.toNat

instance (first : UInt16) (a : Local) : Decidable (a.Below first) := inferInstanceAs (Decidable (_ ≤ _))

/-- The index of an access above the parameters, and every sum on the way to it, fits 16 bits. -/
def Local.KeyFits (a : Local) : Prop := 2 * a.1.toNat + a.2.toNat < 65536

instance (a : Local) : Decidable a.KeyFits := inferInstanceAs (Decidable (_ < _))

/-- A sum or product of the code's own leaves 16 bits. -/
def Local.Overflows (first : UInt16) (a : Local) : Prop :=
  65536 ≤ a.1.toNat + a.2.toNat ∨ ¬a.Below first ∧ ¬a.KeyFits

/-- The locals that need a fresh slot. -/
def freshLocals (first : UInt16) (vs : List Visited) : Finset Local :=
  (accesses vs).toFinset.filter fun a => ¬a.Below first

def FreshFit (first : UInt16) (vs : List Visited) : Prop :=
  first.toNat + ∑ a ∈ freshLocals first vs, a.2.toNat < 65536

instance (first : UInt16) (vs : List Visited) : Decidable (FreshFit first vs) := inferInstanceAs (Decidable (_ < _))

/-- A renaming that keeps the parameters and gives each other local words of its own. -/
structure Renaming (first : UInt16) (used : List Local) (f : Local → UInt16) : Prop where
  below : ∀ a ∈ used, a.Below first → f a = a.1
  above : ∀ a ∈ used, ¬a.Below first → first ≤ f a
  apart : ∀ a ∈ used, ∀ b ∈ used, ¬a.Below first → ¬b.Below first → a ≠ b →
    (f a).toNat + a.2.toNat ≤ (f b).toNat ∨ (f b).toNat + b.2.toNat ≤ (f a).toNat
  same : ∀ a ∈ used, ∀ b ∈ used, ¬a.Below first → ¬b.Below first → (f a = f b ↔ a = b)

/-- No arithmetic overflows, and what is shown is renamed. -/
def SortsWell (first : UInt16) (vs : List Visited) : Prop :=
  (∀ a ∈ accesses vs, ¬a.Overflows first) ∧
    ∃ f, Renaming first (accesses vs) f ∧ ((Sorter.new first).seeAll vs).1 = vs.map (Visited.rename f)

/-! ### One access -/

def Local.key (a : Local) : ℕ := 2 * a.1.toNat + a.2.toNat - 1

/-- One or two words. -/
def Local.Sized (a : Local) : Prop := a.2 = 1 ∨ a.2 = 2

theorem Local.key_inj {a b : Local} (ha : a.Sized) (hb : b.Sized) (h : a.key = b.key) : a = b := by
  obtain ⟨slot, size⟩ := a
  obtain ⟨slot', size'⟩ := b
  have hslot : slot.toNat = slot'.toNat ∧ size.toNat = size'.toNat := by
    rcases ha with ha | ha <;> rcases hb with hb | hb <;> simp only at ha hb <;> subst ha <;> subst hb <;>
      simp [Local.key] at h ⊢ <;> omega
  rw [UInt16.toNat_inj.mp hslot.1, UInt16.toNat_inj.mp hslot.2]

variable {v : Visited}

theorem sized_of_access {a : Local} (h : v.access = some a) : a.Sized := by
  have hite : ∀ wide : Bool, (if wide then 2 else 1 : UInt16) = 1 ∨ (if wide then 2 else 1 : UInt16) = 2 := by
    decide
  unfold Visited.access at h
  split at h
  · obtain rfl := Option.some.inj h
    exact hite _
  · obtain rfl := Option.some.inj h
    exact .inl rfl
  · cases h
  · obtain rfl := Option.some.inj h
    exact hite _

/-- A visitor renumbers the access of what it sees. -/
theorem see_eq (s : Sorter) (v : Visited) :
    s.see v = match v.access with
      | none => (v, s)
      | some a => (v.withSlot (s.remap a.1 a.2).1, (s.remap a.1 a.2).2) := by
  cases v with
  | entry v => rfl
  | instruction insn => cases insn <;> rfl

/-- What is stored for an access, one more than its new slot. -/
def Sorter.stored (s : Sorter) (a : Local) : ℕ := (s.remapped.getD a.key 0).toNat

/-- Where the sorter stands: each local seen has words of its own below the next slot. -/
structure Sorts (first : UInt16) (seen : Finset Local) (s : Sorter) : Prop where
  first_eq : s.firstLocal = first
  next : s.nextLocal.toNat = first.toNat + ∑ a ∈ seen, a.2.toNat
  stored : ∀ a : Local, a.Sized → (s.stored a ≠ 0 ↔ a ∈ seen)
  sized : ∀ a ∈ seen, a.Sized
  range : ∀ a ∈ seen, first.toNat < s.stored a ∧ s.stored a + a.2.toNat ≤ s.nextLocal.toNat + 1
  apart : ∀ a ∈ seen, ∀ b ∈ seen, a ≠ b → s.stored a + a.2.toNat ≤ s.stored b ∨ s.stored b + b.2.toNat ≤ s.stored a

theorem Sorts.new (first : UInt16) : Sorts first ∅ (Sorter.new first) where
  first_eq := rfl
  next := by simp [Sorter.new]
  stored a _ := by simp [Sorter.stored, Sorter.new]
  sized a h := by simp at h
  range a h := by simp at h
  apart a h := by simp at h

variable {first : UInt16} {seen : Finset Local} {s : Sorter} {a : Local}

theorem Local.Sized.toNat (h : a.Sized) : a.2.toNat = 1 ∨ a.2.toNat = 2 := by
  rcases h with h | h
  · exact .inl (by rw [h]; rfl)
  · exact .inr (by rw [h]; rfl)

theorem below_iff (hs : s.firstLocal = first) (ho : ¬a.Overflows first) :
    a.1 + a.2 ≤ s.firstLocal ↔ a.Below first := by
  have hsum : a.1.toNat + a.2.toNat < 65536 := by
    rw [Local.Overflows] at ho
    omega
  rw [hs, UInt16.le_iff_toNat_le, UInt16.toNat_add, Nat.mod_eq_of_lt (by simpa using hsum)]
  rfl

theorem key_eq (hsize : a.Sized) (hfit : a.KeyFits) : (2 * a.1 + a.2 - 1).toNat = a.key := by
  have hsize' := hsize.toNat
  have hfit' : 2 * a.1.toNat + a.2.toNat < 65536 := hfit
  have htwo : (2 * a.1).toNat = 2 * a.1.toNat := by
    rw [UInt16.toNat_mul, Nat.mod_eq_of_lt]
    · rfl
    · change 2 * a.1.toNat < 65536
      omega
  have hsum : (2 * a.1 + a.2).toNat = 2 * a.1.toNat + a.2.toNat := by
    rw [UInt16.toNat_add, htwo, Nat.mod_eq_of_lt]
    exact hfit'
  have hone : (1 : UInt16).toNat = 1 := rfl
  rw [UInt16.toNat_sub_of_le _ _ (by rw [UInt16.le_iff_toNat_le, hsum, hone]; omega), hsum, hone, Local.key]

/-- What is stored after a list was made long enough is what was stored before. -/
theorem getD_padded (l : List UInt16) (n i : ℕ) : (l ++ List.replicate n 0).getD i 0 = l.getD i 0 := by
  by_cases h : i < l.length
  · rw [List.getD_append _ _ _ _ h]
  · rw [List.getD_append_right _ _ _ _ (by omega), List.getD_eq_default l 0 (by omega)]
    rw [List.getD_eq_getElem?_getD, List.getElem?_replicate]
    split <;> rfl

/-- An access among the parameters is left alone. -/
theorem remap_below (hs : s.firstLocal = first) (ho : ¬a.Overflows first) (hb : a.Below first) :
    s.remap a.1 a.2 = (a.1, s) := by
  rw [Sorter.remap, if_pos ((below_iff hs ho).mpr hb)]

/-- A local that was seen before keeps the slot it was given, and nothing else changes. -/
theorem remap_seen (h : Sorts first seen s) (ho : ¬a.Overflows first) (hb : ¬a.Below first) (ha : a ∈ seen) :
    (s.remap a.1 a.2).1.toNat + 1 = s.stored a ∧ Sorts first seen (s.remap a.1 a.2).2 ∧
      ∀ b, (s.remap a.1 a.2).2.stored b = s.stored b := by
  have hsize := h.sized a ha
  have hfit : a.KeyFits := by
    rw [Local.Overflows] at ho
    tauto
  have hne : s.stored a ≠ 0 := (h.stored a hsize).mpr ha
  have hstored : ∀ n b, (s.remapped ++ List.replicate n 0).getD (Local.key b) 0 = s.remapped.getD b.key 0 :=
    fun n b => getD_padded _ _ _
  have hnz : s.remapped.getD a.key 0 ≠ 0 := fun h0 => hne (by rw [Sorter.stored, h0]; rfl)
  have hr : s.remap a.1 a.2 = (s.remapped.getD a.key 0 - 1,
      { s with remapped := s.remapped ++ List.replicate (a.key + 1 - s.remapped.length) 0 }) := by
    rw [Sorter.remap, if_neg (fun hle => hb ((below_iff h.first_eq ho).mp hle))]
    simp only [key_eq hsize hfit, hstored, hnz, if_false]
  have hkeep : ∀ b, (s.remap a.1 a.2).2.stored b = s.stored b := by
    intro b
    rw [hr]
    exact congrArg UInt16.toNat (hstored _ b)
  refine ⟨?_, ?_, hkeep⟩
  · rw [hr]
    have hpos : 1 ≤ s.stored a := Nat.pos_of_ne_zero hne
    have hone : (1 : UInt16).toNat = 1 := rfl
    change (s.remapped.getD a.key 0 - 1).toNat + 1 = (s.remapped.getD a.key 0).toNat
    rw [UInt16.toNat_sub_of_le _ _ (by rw [UInt16.le_iff_toNat_le, hone]; exact hpos), hone]
    exact Nat.sub_add_cancel hpos
  · have hnext : (s.remap a.1 a.2).2.nextLocal = s.nextLocal := by rw [hr]
    exact {
      first_eq := by rw [hr]; exact h.first_eq
      next := by rw [hnext]; exact h.next
      stored := fun b hb => by rw [hkeep]; exact h.stored b hb
      sized := h.sized
      range := fun b hb => by rw [hkeep, hnext]; exact h.range b hb
      apart := fun b hb c hc hne => by rw [hkeep, hkeep]; exact h.apart b hb c hc hne }

/-- A local that is new gets the next slot. -/
theorem remap_new (h : Sorts first seen s) (hsize : a.Sized) (ho : ¬a.Overflows first) (hb : ¬a.Below first)
    (ha : a ∉ seen) (hroom : s.nextLocal.toNat + a.2.toNat < 65536) :
    (s.remap a.1 a.2).1 = s.nextLocal ∧ (s.remap a.1 a.2).2.stored a = s.nextLocal.toNat + 1 ∧
      Sorts first (insert a seen) (s.remap a.1 a.2).2 ∧
      ∀ b ∈ seen, (s.remap a.1 a.2).2.stored b = s.stored b := by
  have hfit : a.KeyFits := by
    rw [Local.Overflows] at ho
    tauto
  have hsize' := hsize.toNat
  have hzero : s.remapped.getD a.key 0 = 0 := by
    have h0 : s.stored a = 0 := by
      by_contra hne
      exact ha ((h.stored a hsize).mp hne)
    exact UInt16.toNat_inj.mp h0
  have hr : s.remap a.1 a.2 = (s.nextLocal, { s with
      nextLocal := s.nextLocal + a.2
      remapped := (s.remapped ++ List.replicate (a.key + 1 - s.remapped.length) 0).set a.key (s.nextLocal + 1) }) := by
    rw [Sorter.remap, if_neg (fun hle => hb ((below_iff h.first_eq ho).mp hle))]
    simp only [key_eq hsize hfit, getD_padded, hzero, if_true]
  have hnext : (s.remap a.1 a.2).2.nextLocal.toNat = s.nextLocal.toNat + a.2.toNat := by
    rw [hr]
    change (s.nextLocal + a.2).toNat = _
    rw [UInt16.toNat_add, Nat.mod_eq_of_lt hroom]
  have hplus : (s.nextLocal + 1).toNat = s.nextLocal.toNat + 1 := by
    rw [UInt16.toNat_add, Nat.mod_eq_of_lt]
    · rfl
    · change s.nextLocal.toNat + 1 < 65536
      omega
  have hself : (s.remap a.1 a.2).2.stored a = s.nextLocal.toNat + 1 := by
    rw [hr, ← hplus]
    refine congrArg UInt16.toNat ?_
    have hlen : a.key < s.remapped.length + (a.key + 1 - s.remapped.length) := by omega
    simp [List.getD_eq_getElem?_getD, hlen]
  have hother : ∀ b : Local, b.Sized → b ≠ a → (s.remap a.1 a.2).2.stored b = s.stored b := by
    intro b hbs hne
    have hkey : a.key ≠ b.key := fun hk => hne (Local.key_inj hsize hbs hk).symm
    rw [hr]
    refine congrArg UInt16.toNat ?_
    have hset : ((s.remapped ++ List.replicate (a.key + 1 - s.remapped.length) 0).set a.key
        (s.nextLocal + 1)).getD b.key 0 =
        (s.remapped ++ List.replicate (a.key + 1 - s.remapped.length) 0).getD b.key 0 := by
      simp [List.getD_eq_getElem?_getD, List.getElem?_set_ne hkey]
    rw [hset, getD_padded]
  have hold : ∀ b ∈ seen, (s.remap a.1 a.2).2.stored b = s.stored b :=
    fun b hb => hother b (h.sized b hb) (fun hba => ha (hba ▸ hb))
  have hfirst : first.toNat ≤ s.nextLocal.toNat := by
    rw [h.next]
    exact Nat.le_add_right _ _
  refine ⟨by rw [hr], hself, ?_, hold⟩
  exact {
    first_eq := by rw [hr]; exact h.first_eq
    next := by
      rw [hnext, h.next, Finset.sum_insert ha]
      omega
    stored := fun b hbs => by
      by_cases hba : b = a
      · subst hba
        simp [hself]
      · rw [hother b hbs hba, h.stored b hbs]
        simp [hba]
    sized := fun b hb => by
      rcases Finset.mem_insert.mp hb with rfl | hb
      · exact hsize
      · exact h.sized b hb
    range := fun b hb => by
      rcases Finset.mem_insert.mp hb with rfl | hb
      · rw [hself, hnext]
        omega
      · have hrange := h.range b hb
        rw [hold b hb, hnext]
        omega
    apart := fun b hb c hc hne => by
      rcases Finset.mem_insert.mp hb with hba | hbs <;> rcases Finset.mem_insert.mp hc with hca | hcs
      · exact absurd (hba.trans hca.symm) hne
      · have hrange := h.range c hcs
        rw [hba, hself, hold c hcs]
        omega
      · have hrange := h.range b hbs
        rw [hca, hself, hold b hbs]
        omega
      · rw [hold b hbs, hold c hcs]
        exact h.apart b hbs c hcs hne }

/-! ### Everything that is shown -/

/-- What the sorter has for an access in the end. -/
def Sorter.slotOf (first : UInt16) (s : Sorter) (a : Local) : UInt16 :=
  if a.Below first then a.1 else UInt16.ofNat (s.stored a - 1)

variable {vs : List Visited}

theorem freshLocals_none (h : v.access = none) : freshLocals first (v :: vs) = freshLocals first vs := by
  rw [freshLocals, accesses, List.filterMap_cons_none h]
  rfl

theorem freshLocals_below (h : v.access = some a) (hb : a.Below first) :
    freshLocals first (v :: vs) = freshLocals first vs := by
  rw [freshLocals, accesses, List.filterMap_cons_some h, List.toFinset_cons, Finset.filter_insert,
    if_neg (not_not_intro hb)]
  rfl

theorem freshLocals_above (h : v.access = some a) (hb : ¬a.Below first) :
    freshLocals first (v :: vs) = insert a (freshLocals first vs) := by
  rw [freshLocals, accesses, List.filterMap_cons_some h, List.toFinset_cons, Finset.filter_insert, if_pos hb]
  rfl

theorem rename_none {f : Local → UInt16} (h : v.access = none) : v.rename f = v := by
  rw [Visited.rename, h]

theorem rename_some {f : Local → UInt16} (h : v.access = some a) : v.rename f = v.withSlot (f a) := by
  rw [Visited.rename, h]

theorem stored_lt (a : Local) (s : Sorter) : s.stored a < 65536 := (s.remapped.getD a.key 0).toNat_lt

/-- The slot handed out now is the one that is there in the end. -/
theorem slotOf_eq {slot : UInt16} {n : ℕ} (hb : ¬a.Below first) (hs : s.stored a = n) (hslot : slot.toNat + 1 = n) :
    slot = s.slotOf first a := by
  rw [Sorter.slotOf, if_neg hb, hs, ← hslot, Nat.add_sub_cancel, UInt16.ofNat_toNat]

/-- All that is shown is renamed to what the sorter has in the end, and no local loses its slot. -/
theorem seeAll_spec (h : Sorts first seen s) (ho : ∀ a ∈ accesses vs, ¬a.Overflows first)
    (hroom : first.toNat + ∑ a ∈ seen ∪ freshLocals first vs, a.2.toNat < 65536) :
    Sorts first (seen ∪ freshLocals first vs) (s.seeAll vs).2 ∧
      (∀ b ∈ seen, (s.seeAll vs).2.stored b = s.stored b) ∧
      (s.seeAll vs).1 = vs.map (Visited.rename ((s.seeAll vs).2.slotOf first)) := by
  induction vs generalizing s seen with
  | nil =>
    have hnone : freshLocals first [] = ∅ := rfl
    rw [hnone, Finset.union_empty]
    exact ⟨h, fun _ _ => rfl, rfl⟩
  | cons v vs ih =>
    have htail : ∀ b ∈ accesses vs, ¬b.Overflows first := by
      intro b hb
      refine ho b ?_
      rw [accesses, List.mem_filterMap] at hb ⊢
      obtain ⟨w, hw, hwb⟩ := hb
      exact ⟨w, List.mem_cons_of_mem _ hw, hwb⟩
    cases hv : v.access with
    | none =>
      have hsee : s.see v = (v, s) := by rw [see_eq, hv]
      rw [freshLocals_none hv] at hroom ⊢
      obtain ⟨hsorts, hkeep, hall⟩ := ih h htail hroom
      rw [Sorter.seeAll, hsee]
      refine ⟨hsorts, hkeep, ?_⟩
      rw [List.map_cons, rename_none hv, ← hall]
    | some a =>
      have hsee : s.see v = (v.withSlot (s.remap a.1 a.2).1, (s.remap a.1 a.2).2) := by rw [see_eq, hv]
      have hoa : ¬a.Overflows first := ho a (by
        rw [accesses, List.filterMap_cons_some hv]
        exact List.mem_cons_self ..)
      rw [Sorter.seeAll, hsee]
      dsimp only
      by_cases hb : a.Below first
      · rw [remap_below h.first_eq hoa hb]
        rw [freshLocals_below hv hb] at hroom ⊢
        obtain ⟨hsorts, hkeep, hall⟩ := ih h htail hroom
        refine ⟨hsorts, hkeep, ?_⟩
        rw [List.map_cons, rename_some hv, Sorter.slotOf, if_pos hb, ← hall]
      · rw [freshLocals_above hv hb] at hroom ⊢
        by_cases ha : a ∈ seen
        · obtain ⟨hslot, hsorts₁, hkeep₁⟩ := remap_seen h hoa hb ha
          rw [Finset.union_insert, Finset.insert_eq_self.mpr (Finset.mem_union_left _ ha)] at hroom ⊢
          obtain ⟨hsorts, hkeep, hall⟩ := ih hsorts₁ htail hroom
          refine ⟨hsorts, fun b hbs => (hkeep b hbs).trans (hkeep₁ b), ?_⟩
          rw [List.map_cons, rename_some hv, ← hall,
            ← slotOf_eq hb ((hkeep a ha).trans (hkeep₁ a)) hslot]
        · have hle : ∑ b ∈ insert a seen, b.2.toNat ≤ ∑ b ∈ seen ∪ insert a (freshLocals first vs), b.2.toNat := by
            refine Finset.sum_le_sum_of_subset fun b hbs => ?_
            rcases Finset.mem_insert.mp hbs with rfl | hbs
            · exact Finset.mem_union_right _ (Finset.mem_insert_self ..)
            · exact Finset.mem_union_left _ hbs
          have hfits : s.nextLocal.toNat + a.2.toNat < 65536 := by
            rw [Finset.sum_insert ha] at hle
            rw [h.next]
            omega
          obtain ⟨hslot, hstored, hsorts₁, hkeep₁⟩ := remap_new h (sized_of_access hv) hoa hb ha hfits
          have hunion : seen ∪ insert a (freshLocals first vs) = insert a seen ∪ freshLocals first vs := by
            rw [Finset.union_insert, Finset.insert_union]
          rw [hunion] at hroom ⊢
          obtain ⟨hsorts, hkeep, hall⟩ := ih hsorts₁ htail hroom
          refine ⟨hsorts, fun b hbs => (hkeep b (Finset.mem_insert_of_mem hbs)).trans (hkeep₁ b hbs), ?_⟩
          rw [List.map_cons, rename_some hv, ← hall,
            ← slotOf_eq hb ((hkeep a (Finset.mem_insert_self ..)).trans hstored)
              (congrArg (fun u : UInt16 => u.toNat + 1) hslot)]

theorem slotOf_toNat (hb : ¬a.Below first) (hpos : 0 < s.stored a) : (s.slotOf first a).toNat + 1 = s.stored a := by
  have hlt := stored_lt a s
  rw [Sorter.slotOf, if_neg hb, UInt16.toNat_ofNat', Nat.mod_eq_of_lt (by omega)]
  omega

/-- The slots that a sorter has for all that it saw are a renaming. -/
theorem Sorts.renaming (h : Sorts first (freshLocals first vs) s) :
    Renaming first (accesses vs) (s.slotOf first) := by
  have hmem : ∀ a ∈ accesses vs, ¬a.Below first → a ∈ freshLocals first vs :=
    fun a ha hb => Finset.mem_filter.mpr ⟨List.mem_toFinset.mpr ha, hb⟩
  have hslot : ∀ a ∈ accesses vs, ¬a.Below first → (s.slotOf first a).toNat + 1 = s.stored a :=
    fun a ha hb => slotOf_toNat hb (Nat.zero_lt_of_lt (h.range a (hmem a ha hb)).1)
  have hapart : ∀ a ∈ accesses vs, ∀ b ∈ accesses vs, ¬a.Below first → ¬b.Below first → a ≠ b →
      (s.slotOf first a).toNat + a.2.toNat ≤ (s.slotOf first b).toNat ∨
        (s.slotOf first b).toNat + b.2.toNat ≤ (s.slotOf first a).toNat := by
    intro a ha b hb hna hnb hne
    have hwords := h.apart a (hmem a ha hna) b (hmem b hb hnb) hne
    have hsa := hslot a ha hna
    have hsb := hslot b hb hnb
    omega
  exact {
    below := fun a _ hb => by rw [Sorter.slotOf, if_pos hb]
    above := fun a ha hb => by
      have hrange := (h.range a (hmem a ha hb)).1
      have hsa := hslot a ha hb
      rw [UInt16.le_iff_toNat_le]
      omega
    apart := hapart
    same := fun a ha b hb hna hnb => by
      refine ⟨fun heq => ?_, fun heq => by rw [heq]⟩
      by_contra hne
      have hsa := (h.sized a (hmem a ha hna)).toNat
      have hsb := (h.sized b (hmem b hb hnb)).toNat
      have hwords := hapart a ha b hb hna hnb hne
      rw [heq] at hwords
      omega }

/-- The sorter renames injectively, exactly when each access lies among the parameters or has an index of 16
bits. -/
theorem sortsWell_iff (first : UInt16) (vs : List Visited) (hfit : FreshFit first vs) :
    SortsWell first vs ↔ ∀ a ∈ accesses vs, a.Below first ∨ a.KeyFits := by
  constructor
  · intro h a ha
    have ho := h.1 a ha
    rw [Local.Overflows] at ho
    tauto
  · intro h
    have ho : ∀ a ∈ accesses vs, ¬a.Overflows first := by
      intro a ha hover
      have hfirst := first.toNat_lt
      rcases h a ha with hb | hk
      · have hb' : a.1.toNat + a.2.toNat ≤ first.toNat := hb
        rcases hover with hover | hover
        · omega
        · exact hover.1 hb
      · have hk' : 2 * a.1.toNat + a.2.toNat < 65536 := hk
        rcases hover with hover | hover
        · omega
        · exact hover.2 hk
    have hroom : first.toNat + ∑ a ∈ ∅ ∪ freshLocals first vs, a.2.toNat < 65536 := by
      rw [Finset.empty_union]
      exact hfit
    obtain ⟨hsorts, -, hall⟩ := seeAll_spec (Sorts.new first) ho hroom
    rw [Finset.empty_union] at hsorts
    exact ⟨ho, _, hsorts.renaming, hall⟩

/-- An `int` above the one parameter and a `long` that straddles it. -/
theorem sortsWell_straddling :
    SortsWell 1 [.instruction (.var 0x16 0), .instruction (.iinc 1 1), .instruction (.var 0x16 0)] := by
  have hfit : FreshFit 1 [.instruction (.var 0x16 0), .instruction (.iinc 1 1), .instruction (.var 0x16 0)] := by
    decide +kernel
  refine (sortsWell_iff 1 _ hfit).mpr fun a ha => .inr ?_
  fin_cases ha <;> decide

/-- The index of slot 32768 wraps to that of slot 0. -/
theorem sorter_merges_locals :
    FreshFit 0 [.instruction (.var 0x15 0), .instruction (.var 0x15 32768)] ∧
      ((Sorter.new 0).seeAll [.instruction (.var 0x15 0), .instruction (.var 0x15 32768)]).1 =
        [.instruction (.var 0x15 0), .instruction (.var 0x15 0)] ∧
      ¬SortsWell 0 [.instruction (.var 0x15 0), .instruction (.var 0x15 32768)] := by
  have hfit : FreshFit 0 [.instruction (.var 0x15 0), .instruction (.var 0x15 32768)] := by
    decide +kernel
  refine ⟨hfit, by decide +kernel, fun h => ?_⟩
  have hover := h.1 (32768, 1) (by decide)
  exact hover (.inr (by decide))

end Krusty.Jvm.Inliner
