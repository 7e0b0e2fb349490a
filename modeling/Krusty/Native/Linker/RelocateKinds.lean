import Mathlib.Tactic.IntervalCases
import Krusty.Native.Linker.Fields

/-! Each relocation kind patches its field with its value, or is refused because the field cannot spell it. -/
namespace Krusty.Native.Linker

open BitFields LittleEndian

/-- The image with a value in the field at a site, and everything else as it was. -/
structure Patched (f : Field) (site : ℕ) (v : ℤ) (image image' : List UInt8) : Prop where
  length : image'.length = image.length
  frame : ∀ i, ¬f.Covers site i → bit image' i = bit image i
  reads : f.Reads (word f.bits image' site) v

/-- The field lies within the section of its site and within the image. -/
def Reloc.Inside (r : Reloc) (f : Field) (length : ℕ) : Prop :=
  f.bits = 0 ∨ r.site + f.bits / 8 ≤ r.sectionEnd ∧ r.site + f.bits / 8 ≤ length

/-- A result is the image with the value in the field of the relocation, or an error exactly when the
field is not in place or cannot spell the value. -/
def Applies (f : Field) (r : Reloc) (v : ℤ) (image : List UInt8) (result : Except ProgramLinkError (List UInt8)) :
    Prop :=
  (r.Inside f image.length ∧ f.Represents v → ∃ image', result = .ok image' ∧ Patched f r.site v image image') ∧
    (¬(r.Inside f image.length ∧ f.Represents v) → ∃ e, result = .error e)

variable {spells : ℕ → ℤ → Prop} {patch : BitVec 32 → BitVec 32}

section Update

variable {f : Field} {r : Reloc} {image : List UInt8} {v : ℤ}

theorem Reloc.field_ok {n offset : ℕ} (h : r.site + offset + n ≤ r.sectionEnd)
    (hl : r.site + offset + n ≤ image.length) :
    r.field n image offset = .ok ((image.drop (r.site + offset)).take n) := by
  simp only [Reloc.field, Bytes.slice?, if_pos h, if_pos hl]

theorem Reloc.field_error {n offset : ℕ}
    (h : ¬(r.site + offset + n ≤ r.sectionEnd ∧ r.site + offset + n ≤ image.length)) :
    ∃ e, r.field n image offset = .error e := by
  have hn : (if r.site + offset + n ≤ r.sectionEnd then Bytes.slice? image (r.site + offset) n else none) = none := by
    unfold Bytes.slice?
    split_ifs with h1 h2
    · exact absurd ⟨h1, h2⟩ h
    · rfl
    · rfl
  simp only [Reloc.field, hn]
  exact ⟨_, rfl⟩

/-- Writing a patched word at a site. -/
theorem patched_write {n : ℕ} {l : Layout (8 * n)} {site : ℕ} {x : BitVec (8 * n)}
    (hl : site + n ≤ image.length) (hs : spells (l.taken x.toNat) v) :
    Patched ⟨8 * n, l, spells⟩ site v image
      (write image site (leBytes n (l.patch (word (8 * n) image site) x).toNat)) := by
  have hw : ∀ i, bit (write image site (leBytes n (l.patch (word (8 * n) image site) x).toNat)) i =
      if 8 * site ≤ i ∧ i < 8 * (site + n) then (l.patch (word (8 * n) image site) x).getLsbD (i - 8 * site)
      else bit image i := by
    intro i
    rw [bit_write (by simpa using hl), leBytes_length]
    split
    · next h =>
      have hi : i - 8 * site < 8 * n := by omega
      rw [bit_leBytes, decide_eq_true hi, Bool.true_and]
      rfl
    · rfl
  refine ⟨write_length (by simpa using hl), fun i hi => ?_, ?_⟩
  · rw [hw]
    split
    · next h =>
      have hm : l.mask.getLsbD (i - 8 * site) = false := by
        by_contra hne
        exact hi ⟨h.1, by simpa using hne⟩
      have hlt : i - 8 * site < 8 * n := by omega
      rw [l.getLsbD_patch_of_not_mask _ _ hm, getLsbD_word, decide_eq_true hlt, Bool.true_and]
      congr 1
      omega
    · rfl
  · have hword : word (8 * n) (write image site (leBytes n (l.patch (word (8 * n) image site) x).toNat)) site =
        l.patch (word (8 * n) image site) x := by
      apply BitVec.eq_of_getLsbD_eq
      intro i hi
      rw [getLsbD_word, hw, if_pos (by omega), decide_eq_true hi, Bool.true_and]
      congr 1
      omega
    unfold Field.Reads
    rw [hword, l.gather_patch]
    exact hs

theorem update32_exact {l : Layout 32} {a : ℕ} (r : Reloc) (image : List UInt8)
    (offset : ℕ) (v : ℤ) (x : BitVec 32) (he : r.site + offset + 4 ≤ r.sectionEnd) (hl : r.site + offset + 4 ≤ image.length)
    (hp : ∀ w, patch w = l.patch w x) (ht : l.taken x.toNat = a) :
    ∃ image', r.update32 image offset patch = .ok image' ∧
      Patched ⟨32, l, fun g _ => g = a⟩ (r.site + offset) v image image' := by
  refine ⟨_, ?_, patched_write (n := 4) hl ht⟩
  rw [Reloc.update32, Reloc.field_ok he hl]
  change Except.ok _ = _
  rw [hp, ← ofNat_leNat_take]

/-- A kind that checks its value, then rewrites the word at its site. -/
theorem applies_update (n : ℕ) {l : Layout (8 * n)} (x : BitVec (8 * n))
    (patch : BitVec (8 * n) → BitVec (8 * n)) (check : Prop) {result : Except ProgramLinkError (List UInt8)}
    (hn : 0 < n) (hp : ∀ w, patch w = l.patch w x) (hx : check → spells (l.taken x.toNat) v)
    (hc : ∀ w, spells (l.gather w) v → check)
    (hok : check → result = do
      let field ← r.field n image 0
      return write image r.site (leBytes n (patch (BitVec.ofNat (8 * n) (leNat field))).toNat))
    (herr : ¬check → ∃ e, result = .error e) :
    Applies ⟨8 * n, l, spells⟩ r v image result := by
  have hin : r.Inside ⟨8 * n, l, spells⟩ image.length ↔ r.site + n ≤ r.sectionEnd ∧ r.site + n ≤ image.length := by
    simp only [Reloc.Inside, Nat.mul_div_cancel_left n (by decide : 0 < 8)]
    omega
  constructor
  · rintro ⟨hi, w, hw⟩
    have hi := hin.mp hi
    refine ⟨_, ?_, patched_write hi.2 (hx (hc w hw))⟩
    rw [hok (hc w hw), Reloc.field_ok (by simpa using hi.1) (by simpa using hi.2)]
    change Except.ok _ = _
    rw [hp, Nat.add_zero, ofNat_leNat_take]
  · intro hnot
    by_cases hcheck : check
    · have hrep : Field.Represents ⟨8 * n, l, spells⟩ v := by
        refine ⟨l.patch 0 x, ?_⟩
        unfold Field.Reads
        rw [l.gather_patch]
        exact hx hcheck
      have hfield : ∃ e, r.field n image 0 = .error e :=
        Reloc.field_error fun h => hnot ⟨hin.mpr (by simpa using h), hrep⟩
      obtain ⟨e, he⟩ := hfield
      refine ⟨e, ?_⟩
      rw [hok hcheck, he]
      rfl
    · exact herr hcheck

end Update

section Kinds

variable (r : Reloc) (image : List UInt8) (v : ℤ)

theorem fitsSigned_iff {v : ℤ} {n : ℕ} : fitsSigned v n = true ↔ -2 ^ (n - 1) ≤ v ∧ v ≤ 2 ^ (n - 1) - 1 :=
  decide_eq_true_iff

theorem setWord64_applies (what : String) : Applies .word64 r v image (setWord64 image r v what) := by
  apply applies_update 8 (BitVec.ofInt 64 v) (fun _ => BitVec.ofInt 64 v) (-2 ^ 63 ≤ v ∧ v ≤ 2 ^ 64 - 1) (by decide)
  · intro w
    rw [Layout.whole_patch]
  · intro h
    simp only [Layout.whole_taken, BitVec.toNat_ofInt, Field.signed, Int.bmod_def]
    omega
  · intro w
    simp only [Layout.whole_gather, Field.signed, Int.bmod_def]
    omega
  · intro h
    rw [setWord64, if_neg (not_not_intro h)]
    rfl
  · intro h
    rw [setWord64, if_pos h]
    exact ⟨_, rfl⟩

variable {e : ProgramLinkError}

/-- An instruction or a data word of 32 bits, refused under a condition. -/
theorem update32_applies {l : Layout 32} {bad : Prop}
    [Decidable bad] (x : BitVec 32) (hp : ∀ w, patch w = l.patch w x)
    (hx : ¬bad → spells (l.taken x.toNat) v) (hc : ∀ w, spells (l.gather w) v → ¬bad) :
    Applies ⟨32, l, spells⟩ r v image (if bad then .error e else r.update32 image 0 patch) := by
  apply applies_update 4 x patch (¬bad) (by decide) hp hx hc
  · intro h
    rw [if_neg h]
    rfl
  · intro h
    rw [if_pos (not_not.mp h)]
    exact ⟨_, rfl⟩

/-- An instruction whose field takes any value. -/
theorem update32_applies_any {l : Layout 32}
    (x : BitVec 32) (hp : ∀ w, patch w = l.patch w x) (hx : spells (l.taken x.toNat) v) :
    Applies ⟨32, l, spells⟩ r v image (r.update32 image 0 patch) :=
  applies_update 4 x patch True (by decide) hp (fun _ => hx) (fun _ _ => trivial) (fun _ => rfl)
    fun h => absurd trivial h

/-- A compressed instruction, refused under a condition. -/
theorem update16_applies {l : Layout 16} {patch : BitVec 16 → BitVec 16} {bad : Prop}
    [Decidable bad] (x : BitVec 16) (hp : ∀ w, patch w = l.patch w x)
    (hx : ¬bad → spells (l.taken x.toNat) v) (hc : ∀ w, spells (l.gather w) v → ¬bad) :
    Applies ⟨16, l, spells⟩ r v image (if bad then .error e else r.update16 image patch) := by
  apply applies_update 2 x patch (¬bad) (by decide) hp hx hc
  · intro h
    rw [if_neg h]
    rfl
  · intro h
    rw [if_pos (not_not.mp h)]
    exact ⟨_, rfl⟩

/-- A 32-bit word of data. -/
theorem word32_applies {bad : Prop} [Decidable bad]
    (hx : ¬bad → spells (v % 2 ^ 32).toNat v) (hc : ∀ g < 2 ^ 32, spells g v → ¬bad) :
    Applies (.word32 spells) r v image
      (if bad then .error e else r.update32 image 0 fun _ => BitVec.ofInt 32 v) := by
  apply update32_applies _ _ _ (BitVec.ofInt 32 v)
  · intro w
    rw [Layout.whole_patch]
  · intro h
    have hm : (BitVec.ofInt 32 v).toNat % 2 ^ 32 = (v % 2 ^ 32).toNat := by
      rw [BitVec.toNat_ofInt]
      omega
    rw [Layout.whole_taken, hm]
    exact hx h
  · intro w hw
    rw [Layout.whole_gather] at hw
    exact hc _ w.isLt hw

theorem signed32_applies (e : ProgramLinkError) :
    Applies .signed32 r v image
      (if !fitsSigned v 32 then .error e else r.update32 image 0 fun _ => BitVec.ofInt 32 v) := by
  apply word32_applies
  · intro h
    simp only [Bool.not_eq_true', Bool.not_eq_false, fitsSigned_iff] at h
    simp only [Field.signed, Int.bmod_def]
    omega
  · intro g hg h
    simp only [Field.signed, Int.bmod_def] at h
    simp only [Bool.not_eq_true', Bool.not_eq_false, fitsSigned_iff]
    omega

theorem unsigned32_applies (e : ProgramLinkError) :
    Applies .unsigned32 r v image
      (if ¬(0 ≤ v ∧ v < 2 ^ 32) then .error e else r.update32 image 0 fun _ => BitVec.ofInt 32 v) := by
  apply word32_applies
  · intro h
    omega
  · intro g hg h
    omega

theorem either32_applies (e : ProgramLinkError) :
    Applies .either32 r v image
      (if ¬(0 ≤ v ∧ v < 2 ^ 32) ∧ !fitsSigned v 32 then .error e
        else r.update32 image 0 fun _ => BitVec.ofInt 32 v) := by
  apply word32_applies
  · intro h
    simp only [Bool.not_eq_true', not_and, Bool.not_eq_false, fitsSigned_iff] at h
    simp only [Field.signed, Int.bmod_def]
    omega
  · intro g hg h
    simp only [Field.signed, Int.bmod_def] at h
    simp only [Bool.not_eq_true', not_and, Bool.not_eq_false, fitsSigned_iff]
    omega

/-- Two's complement spells the values in range, each by the numbers congruent to it. -/
theorem signed_eq_iff {n g : ℕ} (hn : 0 < n) :
    Field.signed n g = v ↔ fitsSigned v n = true ∧ (2 : ℤ) ^ n ∣ v - g := by
  obtain ⟨m, rfl⟩ := Nat.exists_eq_add_of_lt hn
  rw [Field.signed, Int.bmod_eq_iff (Nat.two_pow_pos _), fitsSigned_iff, and_assoc]
  push_cast
  simp only [Nat.zero_add, pow_succ]
  omega

theorem even_of_spells {n g : ℕ} (hn : 0 < n) (h : Field.signed n g = v) (hg : g % 2 = 0) :
    ¬(v % 2 ≠ 0 ∨ !fitsSigned v n) := by
  obtain ⟨hfits, hdvd⟩ := (signed_eq_iff v hn).mp h
  have htwo : (2 : ℤ) ∣ v - g := (dvd_pow_self 2 hn.ne').trans hdvd
  rw [hfits]
  simp
  omega

theorem branch_applies (e : ProgramLinkError) :
    Applies .branch r v image
      (if v % 2 ≠ 0 ∨ !fitsSigned v 13 then .error e
        else r.update32 image 0 fun instruction => (instruction &&& 0x01fff07f#32) ||| bType (BitVec.ofInt 32 v)) := by
  apply update32_applies _ _ _ (BitVec.ofInt 32 v)
  · intro w
    simp [Layout.patch, Layout.mask, scatter, Slice.put, bType, BitVec.or_assoc]
  · intro h
    simp only [not_or, not_not, Bool.not_eq_true', Bool.not_eq_false] at h
    have htaken : ∀ x, Field.branch.layout.taken x = 2 * (x / 2 % 4096) := by
      intro x
      simp [Field.branch, Layout.taken]
      omega
    change Field.signed 13 (Field.branch.layout.taken _) = v
    rw [htaken, BitVec.toNat_ofInt, signed_eq_iff v (by decide)]
    exact ⟨h.2, by omega⟩
  · intro w h
    refine even_of_spells v (by decide) h ?_
    simp [Layout.gather]
    omega

theorem jump_applies (e : ProgramLinkError) :
    Applies .jump r v image
      (if v % 2 ≠ 0 ∨ !fitsSigned v 21 then .error e
        else r.update32 image 0 fun instruction => (instruction &&& 0x00000fff#32) ||| jType (BitVec.ofInt 32 v)) := by
  apply update32_applies _ _ _ (BitVec.ofInt 32 v)
  · intro w
    simp [Layout.patch, Layout.mask, scatter, Slice.put, jType, BitVec.or_assoc]
  · intro h
    simp only [not_or, not_not, Bool.not_eq_true', Bool.not_eq_false] at h
    have htaken : ∀ x, Field.jump.layout.taken x = 2 * (x / 2 % 1048576) := by
      intro x
      simp [Field.jump, Layout.taken]
      omega
    change Field.signed 21 (Field.jump.layout.taken _) = v
    rw [htaken, BitVec.toNat_ofInt, signed_eq_iff v (by decide)]
    exact ⟨h.2, by omega⟩
  · intro w h
    refine even_of_spells v (by decide) h ?_
    simp [Layout.gather]
    omega

theorem cBranch_applies (e : ProgramLinkError) :
    Applies .cBranch r v image
      (if v % 2 ≠ 0 ∨ !fitsSigned v 9 then .error e
        else r.update16 image fun instruction => (instruction &&& 0xe383#16) ||| cbType (BitVec.ofInt 32 v)) := by
  apply update16_applies _ _ _ ((BitVec.ofInt 32 v).setWidth 16)
  · intro w
    have hs : cbType (BitVec.ofInt 32 v) = scatter Field.cBranch.layout.slices ((BitVec.ofInt 32 v).setWidth 16) := by
      rw [← scatter_setWidth (by decide) (by decide)]
      simp [Field.cBranch, scatter, Slice.put, cbType, BitVec.or_assoc]
    rw [hs]
    rfl
  · intro h
    simp only [not_or, not_not, Bool.not_eq_true', Bool.not_eq_false] at h
    have htaken : ∀ x, Field.cBranch.layout.taken x = 2 * (x / 2 % 256) := by
      intro x
      simp [Field.cBranch, Layout.taken]
      omega
    change Field.signed 9 (Field.cBranch.layout.taken _) = v
    rw [htaken, BitVec.toNat_setWidth, BitVec.toNat_ofInt, signed_eq_iff v (by decide)]
    exact ⟨h.2, by omega⟩
  · intro w h
    refine even_of_spells v (by decide) h ?_
    simp [Layout.gather]
    omega

theorem cJump_applies (e : ProgramLinkError) :
    Applies .cJump r v image
      (if v % 2 ≠ 0 ∨ !fitsSigned v 12 then .error e
        else r.update16 image fun instruction => (instruction &&& 0xe003#16) ||| cjType (BitVec.ofInt 32 v)) := by
  apply update16_applies _ _ _ ((BitVec.ofInt 32 v).setWidth 16)
  · intro w
    have hs : cjType (BitVec.ofInt 32 v) = scatter Field.cJump.layout.slices ((BitVec.ofInt 32 v).setWidth 16) := by
      rw [← scatter_setWidth (by decide) (by decide)]
      simp [Field.cJump, scatter, Slice.put, cjType, BitVec.or_assoc]
    rw [hs]
    rfl
  · intro h
    simp only [not_or, not_not, Bool.not_eq_true', Bool.not_eq_false] at h
    have htaken : ∀ x, Field.cJump.layout.taken x = 2 * (x / 2 % 2048) := by
      intro x
      simp [Field.cJump, Layout.taken]
      omega
    change Field.signed 12 (Field.cJump.layout.taken _) = v
    rw [htaken, BitVec.toNat_setWidth, BitVec.toNat_ofInt, signed_eq_iff v (by decide)]
    exact ⟨h.2, by omega⟩
  · intro w h
    refine even_of_spells v (by decide) h ?_
    simp [Layout.gather]
    omega

theorem splitHiLo_hi : (splitHiLo v).1.toNat = ((v + 0x800) / 0x1000 % 2 ^ 20).toNat := by
  have h := toNat_and_ones (BitVec.ofInt 32 ((v + 0x800) >>> (12 : ℕ))) (by decide : 20 ≤ 32)
  have hs : (v + 0x800) >>> (12 : ℕ) = (v + 0x800) / 0x1000 := by simp [Int.shiftRight_eq_div_pow]
  rw [BitVec.toNat_ofInt, hs] at h
  simp only [splitHiLo]
  rw [hs]
  refine h.trans ?_
  omega

theorem splitHiLo_lo : (splitHiLo v).2.toNat = (v % 0x1000).toNat := by
  have hhi := splitHiLo_hi v
  have h := toNat_and_ones (BitVec.ofInt 32 v - (splitHiLo v).1 <<< 12) (by decide : 12 ≤ 32)
  rw [BitVec.toNat_sub, BitVec.toNat_shiftLeft, BitVec.toNat_ofInt, Nat.shiftLeft_eq, hhi] at h
  refine h.trans ?_
  omega

theorem lowerI_patch (w : BitVec 32) :
    (w &&& 0x000fffff#32) ||| ((splitHiLo v).2 <<< 20) = @Layout.patch 32 Field.lowerI.layout w (splitHiLo v).2 := by
  have hlo := splitHiLo_lo v
  have h : (splitHiLo v).2 &&& 0xfff#32 = (splitHiLo v).2 := and_ones_of_lt (by decide : 12 ≤ 32) (by omega)
  simp [Field.lowerI, Layout.patch, Layout.mask, scatter, Slice.put, h]

theorem lowerI_taken : Field.lowerI.layout.taken (splitHiLo v).2.toNat = (v % 0x1000).toNat := by
  have hlo := splitHiLo_lo v
  simp [Field.lowerI, Layout.taken, hlo]
  omega

theorem lowerI_applies :
    Applies .lowerI r v image
      (r.update32 image 0 fun instruction => (instruction &&& 0x000fffff#32) ||| ((splitHiLo v).2 <<< 20)) := by
  apply update32_applies_any _ _ _ (splitHiLo v).2
  · exact lowerI_patch v
  · change Field.signed 12 (Field.lowerI.layout.taken _) = Field.lo12 v
    rw [lowerI_taken]
    simp only [Field.signed, Field.lo12, Int.bmod_def]
    omega

theorem lowerS_applies :
    Applies .lowerS r v image
      (r.update32 image 0 fun instruction => (instruction &&& 0x01fff07f#32) ||| sType (splitHiLo v).2) := by
  have hlo := splitHiLo_lo v
  apply update32_applies_any _ _ _ (splitHiLo v).2
  · intro w
    simp [Layout.patch, Layout.mask, scatter, Slice.put, sType]
  · simp [Layout.taken, Field.signed, Field.lo12, Int.bmod_def, hlo]
    omega

theorem upper_patch (w : BitVec 32) :
    (w &&& 0xfff#32) ||| ((splitHiLo v).1 <<< 12) = @Layout.patch 32 Field.upper.layout w ((splitHiLo v).1 <<< 12) := by
  have hhi := splitHiLo_hi v
  have hs : ((splitHiLo v).1 <<< 12) >>> 12 &&& 0xfffff#32 = (splitHiLo v).1 := by
    have hback : ((splitHiLo v).1 <<< 12) >>> 12 = (splitHiLo v).1 := by
      apply BitVec.eq_of_toNat_eq
      rw [BitVec.toNat_ushiftRight, BitVec.toNat_shiftLeft, Nat.shiftRight_eq_div_pow, Nat.shiftLeft_eq]
      omega
    rw [hback]
    exact and_ones_of_lt (by decide : 20 ≤ 32) (by omega)
  simp [Field.upper, Layout.patch, Layout.mask, scatter, Slice.put, hs]

theorem upper_taken : Field.upper.layout.taken ((splitHiLo v).1 <<< 12).toNat =
    ((v + 0x800) / 0x1000 % 2 ^ 20).toNat * 0x1000 := by
  have hhi := splitHiLo_hi v
  simp [Field.upper, Layout.taken, hhi, Nat.shiftLeft_eq]
  omega

theorem fitsHiLo_iff : fitsHiLo v = true ↔ -2 ^ 31 - 0x800 ≤ v ∧ v < 2 ^ 31 - 0x800 := by
  rw [fitsHiLo, fitsSigned_iff]
  omega

theorem upper_applies (e : ProgramLinkError) :
    Applies .upper r v image
      (if !fitsHiLo v then .error e
        else r.update32 image 0 fun word => (word &&& 0xfff#32) ||| ((splitHiLo v).1 <<< 12)) := by
  apply update32_applies _ _ _ ((splitHiLo v).1 <<< 12)
  · exact upper_patch v
  · intro h
    simp only [Bool.not_eq_true', Bool.not_eq_false, fitsHiLo_iff] at h
    change Field.signed 32 (Field.upper.layout.taken _) + Field.lo12 v = v
    rw [upper_taken]
    simp only [Field.signed, Field.lo12, Int.bmod_def]
    omega
  · intro w h
    simp [Layout.gather, Field.signed, Field.lo12, Int.bmod_def] at h
    simp only [Bool.not_eq_true', Bool.not_eq_false, fitsHiLo_iff]
    omega

theorem imm26_applies (e : ProgramLinkError) :
    Applies .imm26 r v image
      (if v % 4 ≠ 0 ∨ !fitsSigned v 28 then .error e
        else r.update32 image 0 fun instruction =>
          (instruction &&& ~~~0x03ffffff#32) ||| (BitVec.ofInt 32 (v >>> (2 : ℕ)) &&& 0x03ffffff)) := by
  have hv : v >>> (2 : ℕ) = v / 4 := by simp [Int.shiftRight_eq_div_pow]
  apply update32_applies _ _ _ (BitVec.ofInt 32 (v >>> (2 : ℕ)))
  · intro w
    simp [Layout.patch, Layout.mask, scatter, Slice.put]
  · intro h
    simp only [not_or, not_not, Bool.not_eq_true', Bool.not_eq_false, fitsSigned_iff] at h
    simp [Layout.taken, Field.signed, Int.bmod_def, BitVec.toNat_ofInt, hv]
    omega
  · intro w h
    simp [Layout.gather, Field.signed, Int.bmod_def] at h
    simp only [not_or, not_not, Bool.not_eq_true', Bool.not_eq_false, fitsSigned_iff]
    omega

theorem misaligned_iff {shift : ℕ} (hshift : shift ≤ 4) :
    BitVec.ofInt 64 v &&& ((1#64 <<< shift) - 1) = 0 ↔ v % 2 ^ shift = 0 := by
  have hones : (1#64 <<< shift) - 1 = BitVec.ofNat 64 (2 ^ shift - 1) := by
    interval_cases shift <;> rfl
  have h := toNat_and_ones (BitVec.ofInt 64 v) (by omega : shift ≤ 64)
  rw [hones, ← BitVec.toNat_inj, h, BitVec.toNat_ofInt]
  change _ = 0 ↔ _
  interval_cases shift <;> omega

theorem lo12_field (shift : ℕ) :
    (((BitVec.ofInt 64 v &&& 0xfff) >>> shift).setWidth 32).toNat = (v % 0x1000).toNat / 2 ^ shift := by
  have h : (BitVec.ofInt 64 v &&& 0xfff).toNat = (v % 0x1000).toNat := by
    refine (toNat_and_ones (BitVec.ofInt 64 v) (by decide : 12 ≤ 64)).trans ?_
    rw [BitVec.toNat_ofInt]
    omega
  rw [BitVec.toNat_setWidth, BitVec.toNat_ushiftRight, h, Nat.shiftRight_eq_div_pow]
  apply Nat.mod_eq_of_lt
  have := Nat.div_le_self (v % 0x1000).toNat (2 ^ shift)
  omega

theorem imm12_applies {shift : ℕ} (hshift : shift ≤ 4) (what : String) :
    Applies (.imm12 shift) r v image (aarch64Lo12 image r v shift what) := by
  have hfield := lo12_field v shift
  have hlt : (v % 0x1000).toNat / 2 ^ shift < 2 ^ 12 := by
    have := Nat.div_le_self (v % 0x1000).toNat (2 ^ shift)
    omega
  apply update32_applies _ _ _ (((BitVec.ofInt 64 v &&& 0xfff) >>> shift).setWidth 32)
  · intro w
    have h : ((BitVec.ofInt 64 v &&& 0xfff) >>> shift).setWidth 32 &&& 0xfff#32 =
        ((BitVec.ofInt 64 v &&& 0xfff) >>> shift).setWidth 32 :=
      and_ones_of_lt (by decide : 12 ≤ 32) (by omega)
    rw [Layout.patch, scatter, List.foldr_cons, List.foldr_nil, Slice.put, BitVec.ushiftRight_zero]
    change _ = _ ||| ((_ &&& 0xfff#32) <<< 10 ||| 0#32)
    rw [h, BitVec.or_zero]
    rfl
  · intro h
    rw [not_not, misaligned_iff v hshift] at h
    change ((Field.imm12 shift).layout.taken _ : ℤ) * 2 ^ shift = v % 0x1000
    rw [hfield]
    simp only [Field.imm12, Layout.taken, List.map_cons, List.map_nil, List.sum_cons, List.sum_nil]
    interval_cases shift <;> omega
  · intro w h
    rw [not_not, misaligned_iff v hshift]
    simp only [Layout.gather, List.map_cons, List.map_nil, List.sum_cons, List.sum_nil] at h
    interval_cases shift <;> omega

theorem adrp_patch (pages : BitVec 64) (w : BitVec 32) :
    (w &&& ~~~((0x3#32 <<< 29) ||| (0x7ffff#32 <<< 5))) ||| (pages &&& 0x3).setWidth 32 <<< 29 |||
      ((pages >>> 2) &&& 0x7ffff).setWidth 32 <<< 5 = @Layout.patch 32 Field.adrp.layout w (pages.setWidth 32) := by
  have hhi : ((pages >>> 2) &&& 0x7ffff#64).setWidth 32 = (pages.setWidth 32 >>> 2) &&& 0x7ffff#32 := by
    have h64 : ((pages >>> 2) &&& 0x7ffff#64).toNat = _ := toNat_and_ones (pages >>> 2) (by decide : 19 ≤ 64)
    have h32 : ((pages.setWidth 32 >>> 2) &&& 0x7ffff#32).toNat = _ :=
      toNat_and_ones (pages.setWidth 32 >>> 2) (by decide : 19 ≤ 32)
    apply BitVec.eq_of_toNat_eq
    rw [BitVec.toNat_setWidth, h64, h32, BitVec.toNat_ushiftRight, BitVec.toNat_ushiftRight, BitVec.toNat_setWidth,
      Nat.shiftRight_eq_div_pow, Nat.shiftRight_eq_div_pow]
    omega
  have hlo : (pages &&& 0x3#64).setWidth 32 = pages.setWidth 32 &&& 0x3#32 := by
    rw [BitVec.setWidth_and]
    rfl
  change (_ ||| (pages &&& 0x3#64).setWidth 32 <<< 29) ||| ((pages >>> 2) &&& 0x7ffff#64).setWidth 32 <<< 5 = _
  rw [hhi, hlo]
  simp [Field.adrp, Layout.patch, Layout.mask, scatter, Slice.put, BitVec.or_assoc]

theorem adrp_applies (hv : v % 0x1000 = 0) (e : ProgramLinkError) :
    Applies .adrp r v image
      (if !fitsSigned v 33 then .error e
        else r.update32 image 0 fun instruction =>
          (instruction &&& ~~~((0x3#32 <<< 29) ||| (0x7ffff#32 <<< 5))) |||
            (BitVec.ofInt 64 (v >>> (12 : ℕ)) &&& 0x3).setWidth 32 <<< 29 |||
            ((BitVec.ofInt 64 (v >>> (12 : ℕ)) >>> 2) &&& 0x7ffff).setWidth 32 <<< 5) := by
  have hs : v >>> (12 : ℕ) = v / 0x1000 := by simp [Int.shiftRight_eq_div_pow]
  apply update32_applies _ _ _ ((BitVec.ofInt 64 (v >>> (12 : ℕ))).setWidth 32)
  · exact adrp_patch _
  · intro h
    simp only [Bool.not_eq_true', Bool.not_eq_false, fitsSigned_iff] at h
    simp [Layout.taken, Field.signed, Int.bmod_def, BitVec.toNat_ofInt, hs]
    omega
  · intro w h
    simp [Layout.gather, Field.signed, Int.bmod_def] at h
    simp only [Bool.not_eq_true', Bool.not_eq_false, fitsSigned_iff]
    omega

/-- The immediates of a double word are those of its halves. -/
theorem call_gather (hi lo : ℕ) (hlo : lo < 2 ^ 32) :
    (2 ^ 32 * hi + lo) / 2 ^ 12 % 2 ^ 20 * 2 ^ 12 + ((2 ^ 32 * hi + lo) / 2 ^ 52 % 2 ^ 12 * 2 ^ 0 + 0) =
      (lo / 2 ^ 12 % 2 ^ 20 * 2 ^ 12 + 0) + (hi / 2 ^ 20 % 2 ^ 12 * 2 ^ 0 + 0) := by
  omega

/-- Patching the immediates of two words in a row patches the pair. -/
theorem call_patched {site a b : ℕ} {image₁ image₂ : List UInt8}
    (h₁ : Patched ⟨32, Field.upper.layout, fun g _ => g = a⟩ site v image image₁)
    (h₂ : Patched ⟨32, Field.lowerI.layout, fun g _ => g = b⟩ (site + 4) v image₁ image₂)
    (hs : Field.call.Spells (a + b) v) : Patched .call site v image image₂ := by
  have hmask : ∀ i, Field.call.Covers site i ↔
      Field.Covers ⟨32, Field.upper.layout, fun g _ => g = a⟩ site i ∨
        Field.Covers ⟨32, Field.lowerI.layout, fun g _ => g = b⟩ (site + 4) i := by
    intro i
    unfold Field.Covers
    rw [Layout.getLsbD_mask, Layout.getLsbD_mask, Layout.getLsbD_mask]
    simp only [Field.call, Field.upper, Field.lowerI, List.mem_cons, List.not_mem_nil, or_false, exists_eq_or_imp,
      exists_eq_left, Slice.Holds]
    omega
  have hlow : word 32 image₂ site = word 32 image₁ site := by
    apply word_congr
    intro i hi
    apply h₂.frame
    intro hc
    have := hc.1
    omega
  refine ⟨h₂.length.trans h₁.length, fun i hi => ?_, ?_⟩
  · rw [hmask, not_or] at hi
    rw [h₂.frame i hi.2, h₁.frame i hi.1]
  · have hg₁ : Field.upper.layout.gather (word 32 image₁ site) = a := h₁.reads
    have hg₂ : Field.lowerI.layout.gather (word 32 image₂ (site + 4)) = b := h₂.reads
    have hdouble : (word 64 image₂ site).toNat =
        2 ^ 32 * (word 32 image₂ (site + 4)).toNat + (word 32 image₂ site).toNat := toNat_word_double 4 image₂ site
    have hg : Field.call.layout.gather (word 64 image₂ site) = a + b := by
      rw [← hlow] at hg₁
      simp only [Field.call, Field.upper, Field.lowerI, Layout.gather, List.map_cons, List.map_nil, List.sum_cons,
        List.sum_nil] at hg₁ hg₂ ⊢
      rw [hdouble, call_gather _ _ (word 32 image₂ site).isLt, hg₁, hg₂]
    unfold Field.Reads
    exact hg ▸ hs

/-- The parts of a value that fits add up to it. -/
theorem call_spells (h : fitsHiLo v = true) :
    Field.call.Spells (((v + 0x800) / 0x1000 % 2 ^ 20).toNat * 0x1000 + (v % 0x1000).toNat) v := by
  rw [fitsHiLo_iff] at h
  generalize hg : ((v + 0x800) / 0x1000 % 2 ^ 20).toNat * 0x1000 + (v % 0x1000).toNat = g
  have hhi : Field.signed 32 (g / 0x1000 * 0x1000) = (v + 0x800) / 0x1000 * 0x1000 := by
    rw [signed_eq_iff _ (by decide), fitsSigned_iff]
    omega
  have hlo : Field.signed 12 (g % 0x1000) = v - (v + 0x800) / 0x1000 * 0x1000 := by
    rw [signed_eq_iff _ (by decide), fitsSigned_iff]
    omega
  change Field.signed 32 _ + Field.signed 12 _ = v
  rw [hhi, hlo]
  omega

theorem call_represents : Field.call.Represents v ↔ fitsHiLo v = true := by
  constructor
  · rintro ⟨w, hw⟩
    have hhi := (signed_eq_iff (g := Field.call.layout.gather w / 0x1000 * 0x1000) _ (by decide : 0 < 32)).mp rfl
    have hlo := (signed_eq_iff (g := Field.call.layout.gather w % 0x1000) _ (by decide : 0 < 12)).mp rfl
    rw [fitsSigned_iff] at hhi hlo
    change Field.signed 32 _ + Field.signed 12 _ = v at hw
    rw [fitsHiLo_iff]
    omega
  · intro h
    let x : BitVec Field.call.bits :=
      BitVec.ofNat 64 (((v + 0x800) / 0x1000 % 2 ^ 20).toNat * 0x1000 + (v % 0x1000).toNat)
    have htaken : Field.call.layout.taken x.toNat =
        ((v + 0x800) / 0x1000 % 2 ^ 20).toNat * 0x1000 + (v % 0x1000).toNat := by
      simp [x, Field.call, Layout.taken]
      omega
    refine ⟨Field.call.layout.patch 0 x, ?_⟩
    unfold Field.Reads
    rw [Layout.gather_patch, htaken]
    exact call_spells v h

theorem call_applies (e : ProgramLinkError) :
    Applies .call r v image
      (if !fitsHiLo v then .error e
        else do
          let (hi, lo) := splitHiLo v
          let _ ← r.field 8 image 0
          let image ← r.update32 image 0 fun auipc => (auipc &&& 0xfff#32) ||| (hi <<< 12)
          r.update32 image 4 fun jalr => (jalr &&& 0x000fffff#32) ||| (lo <<< 20)) := by
  have hin : r.Inside .call image.length ↔ r.site + 8 ≤ r.sectionEnd ∧ r.site + 8 ≤ image.length := by
    simp only [Reloc.Inside, Field.call]
    omega
  rw [Applies, hin, call_represents]
  constructor
  · rintro ⟨⟨he, hl⟩, hfit⟩
    obtain ⟨image₁, hu₁, h₁⟩ := update32_exact r image 0 v ((splitHiLo v).1 <<< 12) (by omega) (by omega)
      (upper_patch v) (upper_taken v)
    have hl₁ := h₁.length
    obtain ⟨image₂, hu₂, h₂⟩ := update32_exact r image₁ 4 v (splitHiLo v).2 (by omega) (by omega)
      (lowerI_patch v) (lowerI_taken v)
    refine ⟨image₂, ?_, call_patched _ _ h₁ h₂ ?_⟩
    · rw [if_neg (by simpa using hfit), Reloc.field_ok (by simpa using he) (by simpa using hl)]
      change (r.update32 image 0 (fun auipc => (auipc &&& 0xfff#32) ||| ((splitHiLo v).1 <<< 12)) >>= fun image =>
        r.update32 image 4 fun jalr => (jalr &&& 0x000fffff#32) ||| ((splitHiLo v).2 <<< 20)) = _
      rw [hu₁]
      exact hu₂
    · exact call_spells v hfit
  · intro hnot
    by_cases hfit : fitsHiLo v = true
    · have hfield : ∃ e, r.field 8 image 0 = .error e :=
        Reloc.field_error fun h => hnot ⟨by simpa using h, hfit⟩
      obtain ⟨e', he'⟩ := hfield
      refine ⟨e', ?_⟩
      rw [if_neg (by simpa using hfit), he']
      rfl
    · exact ⟨e, by rw [if_pos (by simpa using hfit)]⟩

theorem hint_applies : Applies .hint r v image (.ok image) := by
  constructor
  · intro _
    exact ⟨image, rfl, rfl, fun _ _ => rfl, trivial⟩
  · intro h
    exact absurd ⟨.inl rfl, 0, trivial⟩ h

end Kinds

end Krusty.Native.Linker
