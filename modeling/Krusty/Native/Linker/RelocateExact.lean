import Krusty.Lib.Results
import Krusty.Native.Linker.RelocateKinds

/-! Applying all relocations of an object: which lists are refused, and what the image holds afterwards. -/
namespace Krusty.Native.Linker

open BitFields LittleEndian

/-- The linker implements the kind, the field lies where it may, and it can spell its value. -/
def Accepted (arch : Arch) (relocations : List Reloc) (length : ℕ) (r : Reloc) : Prop :=
  ∃ f o v, kind arch r.rType = some (f, o) ∧ o.value relocations r = some v ∧ r.Inside f length ∧ f.Represents v

/-- Bit `i` of the image is in the field of the relocation. -/
def Covered (arch : Arch) (r : Reloc) (i : ℕ) : Prop := ∃ f o, kind arch r.rType = some (f, o) ∧ f.Covers r.site i

/-- One relocation applied, or refused exactly when it is not acceptable. -/
structure Step (arch : Arch) (relocations : List Reloc) (r : Reloc) (image : List UInt8)
    (result : Except ProgramLinkError (List UInt8)) : Prop where
  ok : Accepted arch relocations image.length r → ∃ image', result = .ok image' ∧
    ∀ f o v, kind arch r.rType = some (f, o) → o.value relocations r = some v → Patched f r.site v image image'
  error : ¬Accepted arch relocations image.length r → ∃ e, result = .error e

variable {f : Field} {o : Operand}

section Steps

variable {arch : Arch} {relocations : List Reloc} {r : Reloc} {image : List UInt8}
  {result : Except ProgramLinkError (List UInt8)}

theorem Step.of_applies {v : ℤ} (hk : kind arch r.rType = some (f, o))
    (hv : o.value relocations r = some v) (h : Applies f r v image result) : Step arch relocations r image result := by
  constructor
  · rintro ⟨f', o', v', hk', hv', hin, hrep⟩
    rw [hk] at hk'
    cases hk'
    rw [hv] at hv'
    cases hv'
    obtain ⟨image', hok, hp⟩ := h.1 ⟨hin, hrep⟩
    refine ⟨image', hok, fun f' o' v' hk' hv' => ?_⟩
    rw [hk] at hk'
    cases hk'
    rw [hv] at hv'
    cases hv'
    exact hp
  · intro hnot
    exact h.2 fun ⟨hin, hrep⟩ => hnot ⟨f, o, v, hk, hv, hin, hrep⟩

theorem Step.of_unsupported {e : ProgramLinkError} (hk : kind arch r.rType = none) :
    Step arch relocations r image (.error e) := by
  constructor
  · rintro ⟨f, o, v, hk', -⟩
    rw [hk] at hk'
    cases hk'
  · intro _
    exact ⟨e, rfl⟩

theorem Step.of_table {v : ℤ} {t : UInt32} (o : Operand) (ht : r.rType = t)
    (hk : kind arch t = some (f, o)) (hv : o.value relocations r = some v) (h : Applies f r v image result) :
    Step arch relocations r image result :=
  .of_applies (ht ▸ hk) hv h

theorem relocateX86_64_step : Step .x86_64 relocations r image (relocateX86_64 image r) := by
  unfold relocateX86_64
  dsimp only
  split
  · next h => exact .of_table .absolute h rfl rfl (setWord64_applies ..)
  · next h => exact .of_table .relative h rfl rfl (signed32_applies ..)
  · next h => exact .of_table .relative h rfl rfl (signed32_applies ..)
  · next h => exact .of_table .absolute h rfl rfl (unsigned32_applies ..)
  · next h => exact .of_table .absolute h rfl rfl (signed32_applies ..)
  · apply Step.of_unsupported
    unfold kind
    split <;> simp_all

theorem toNat_and_page (p : UInt64) : (p &&& ~~~0xfff).toNat = p.toNat / 0x1000 * 0x1000 := by
  have hp := p.toNat_lt
  rw [UInt64.toNat_and]
  change p.toNat &&& (2 ^ 52 - 1) * 2 ^ 12 = p.toNat / 2 ^ 12 * 2 ^ 12
  apply Nat.eq_of_testBit_eq
  intro i
  rw [Nat.testBit_and, Nat.testBit_mul_two_pow, Nat.testBit_mul_two_pow, Nat.testBit_two_pow_sub_one,
    Nat.testBit_div_two_pow]
  by_cases hi : 12 ≤ i
  · rw [Nat.sub_add_cancel hi, decide_eq_true hi, Bool.true_and, Bool.true_and]
    by_cases hlt : i < 64
    · rw [decide_eq_true (by omega : i - 12 < 52), Bool.and_true]
    · have hle : 2 ^ 64 ≤ 2 ^ i := Nat.pow_le_pow_right (by decide) (by omega)
      rw [Nat.testBit_lt_two_pow (by omega), Bool.false_and]
  · rw [decide_eq_false hi, Bool.false_and, Bool.false_and, Bool.and_false]

theorem pageDelta_eq : (r.absolute - r.absolute % 0x1000) - ((r.p &&& ~~~0xfff).toNat : ℤ) = r.pageDelta := by
  rw [toNat_and_page, Reloc.pageDelta]
  omega

theorem patchRiscv64_step (hr : r.rType ≠ 24 ∧ r.rType ≠ 25) :
    Step .riscv64 relocations r image (patchRiscv64 image r) := by
  unfold patchRiscv64
  dsimp only
  split
  · next h => exact .of_table .absolute h rfl rfl (setWord64_applies ..)
  · next h => exact .of_table .absolute h rfl rfl (either32_applies ..)
  · next h => exact .of_table .relative h rfl rfl (branch_applies ..)
  · next h => exact .of_table .relative h rfl rfl (jump_applies ..)
  · next h => exact .of_table .relative h rfl rfl (call_applies ..)
  · next h => exact .of_table .relative h rfl rfl (call_applies ..)
  · next h => exact .of_table .relative h rfl rfl (upper_applies ..)
  · next h => exact .of_table .absolute h rfl rfl (upper_applies ..)
  · next h => exact .of_table .absolute h rfl rfl (lowerI_applies ..)
  · next h => exact .of_table .absolute h rfl rfl (lowerS_applies ..)
  · next h => exact .of_table .relative h rfl rfl (cBranch_applies ..)
  · next h => exact .of_table .relative h rfl rfl (cJump_applies ..)
  · next h => exact .of_table .absolute h rfl rfl (hint_applies ..)
  · next h => exact .of_table .absolute h rfl rfl (hint_applies ..)
  · apply Step.of_unsupported
    unfold kind
    split <;> simp_all

theorem patchDeferred_step {hi20At : UInt64 → Option ℤ} (hr : r.rType = 24 ∨ r.rType = 25)
    (ht : hi20At r.s = (hi20 relocations r.s).map Reloc.relative) :
    Step .riscv64 relocations r image (patchDeferred hi20At image r) := by
  have hk : ∃ f, kind .riscv64 r.rType = some (f, .paired) := by
    rcases hr with hr | hr
    · exact ⟨.lowerI, by rw [hr]; rfl⟩
    · exact ⟨.lowerS, by rw [hr]; rfl⟩
  cases hv : hi20At r.s with
  | none =>
    constructor
    · rintro ⟨f, o, v, hk', hv', -⟩
      obtain ⟨f', hk⟩ := hk
      rw [hk] at hk'
      cases hk'
      rw [Operand.value, ← ht, hv] at hv'
      cases hv'
    · intro _
      simp only [patchDeferred, hv]
      exact ⟨_, rfl⟩
  | some v =>
    have hval : Operand.paired.value relocations r = some v := by rw [Operand.value, ← ht, hv]
    simp only [patchDeferred, hv]
    rcases hr with hr | hr
    · rw [if_pos hr]
      exact .of_table .paired hr rfl hval (lowerI_applies ..)
    · rw [if_neg (by rw [hr]; decide)]
      exact .of_table .paired hr rfl hval (lowerS_applies ..)

theorem relocateAarch64_step : Step .aarch64 relocations r image (relocateAarch64 image r) := by
  unfold relocateAarch64
  dsimp only
  split
  · next h => exact .of_table .absolute h rfl rfl (setWord64_applies ..)
  · next h => exact .of_table .relative h rfl rfl (signed32_applies ..)
  · next h =>
    have hp : (expressions r).1 - (expressions r).1 % 0x1000 - ((r.p &&& ~~~0xfff).toNat : ℤ) = r.pageDelta := pageDelta_eq
    rw [hp]
    exact .of_table .pageDelta h rfl rfl (adrp_applies _ _ _ (by unfold Reloc.pageDelta; omega) _)
  · next h => exact .of_table .absolute h rfl rfl (imm12_applies _ _ _ (by decide) _)
  · next h => exact .of_table .absolute h rfl rfl (imm12_applies _ _ _ (by decide) _)
  · next h => exact .of_table .absolute h rfl rfl (imm12_applies _ _ _ (by decide) _)
  · next h => exact .of_table .absolute h rfl rfl (imm12_applies _ _ _ (by decide) _)
  · next h => exact .of_table .absolute h rfl rfl (imm12_applies _ _ _ (by decide) _)
  · next h => exact .of_table .absolute h rfl rfl (imm12_applies _ _ _ (by decide) _)
  · next h => exact .of_table .relative h rfl rfl (imm26_applies ..)
  · next h => exact .of_table .relative h rfl rfl (imm26_applies ..)
  · apply Step.of_unsupported
    unfold kind
    split <;> simp_all

end Steps

/-- The kinds that wait for the second pass. -/
def Deferred (r : Reloc) : Prop := r.rType = 24 ∨ r.rType = 25

instance (r : Reloc) : Decidable (Deferred r) := inferInstanceAs (Decidable (_ ∨ _))

/-- The relocations in the order in which they are written. -/
def applied : Arch → List Reloc → List Reloc
  | .riscv64, relocations =>
    (relocations.filter fun r => ¬Deferred r) ++ relocations.filter fun r => Deferred r
  | _, relocations => relocations

theorem mem_applied {arch : Arch} {relocations : List Reloc} {r : Reloc} :
    r ∈ applied arch relocations ↔ r ∈ relocations := by
  cases arch with
  | x86_64 => rfl
  | aarch64 => rfl
  | riscv64 =>
    by_cases h : Deferred r <;> simp [applied, h]

section Passes

/-- The table after the `PCREL_HI20` relocations of a list have been recorded in it. -/
def record (hi20At : UInt64 → Option ℤ) (relocations : List Reloc) : UInt64 → Option ℤ :=
  fun p => ((hi20 relocations p).map Reloc.relative).or (hi20At p)

theorem record_cons (hi20At : UInt64 → Option ℤ) (r : Reloc) (relocations : List Reloc) :
    record hi20At (r :: relocations) = record
      (if r.rType = 23 then fun p => if p = r.p then some r.relative else hi20At p else hi20At) relocations := by
  funext p
  unfold record hi20
  by_cases h23 : r.rType = 23
  · by_cases hp : r.p = p
    · rw [List.filter_cons_of_pos (by simp [h23, hp]), List.getLast?_cons, if_pos h23, if_pos hp.symm]
      cases (List.filter (fun h => decide (h.rType = 23 ∧ h.p = p)) relocations).getLast? <;> rfl
    · rw [List.filter_cons_of_neg (by simp [hp]), if_pos h23, if_neg (Ne.symm hp)]
  · rw [List.filter_cons_of_neg (by simp [h23]), if_neg h23]

@[simp] theorem record_nil (hi20At : UInt64 → Option ℤ) : record hi20At [] = hi20At := rfl

theorem Pass.step_deferred {r : Reloc} (hd : Deferred r) (st : Pass) :
    st.step r = .ok { st with deferred := st.deferred ++ [r] } := by
  unfold Deferred at hd
  unfold Pass.step
  split <;> simp_all

theorem Pass.step_patch {r : Reloc} (hd : ¬Deferred r) (st : Pass) :
    st.step r = do
      let image ← patchRiscv64 st.image r
      return ⟨image, if r.rType = 23 then fun p => if p = r.p then some r.relative else st.hi20At p else st.hi20At,
        st.deferred⟩ := by
  unfold Deferred at hd
  unfold Pass.step
  split
  · next h => exact absurd (.inl h) hd
  · next h => exact absurd (.inr h) hd
  · next h =>
    rw [if_pos h]
    rfl
  · next h =>
    rw [if_neg h]

theorem foldlM_pass (relocations : List Reloc) (st : Pass) :
    relocations.foldlM Pass.step st = do
      let image ← (relocations.filter fun r => ¬Deferred r).foldlM patchRiscv64 st.image
      return ⟨image, record st.hi20At relocations, st.deferred ++ relocations.filter fun r => Deferred r⟩ := by
  induction relocations generalizing st with
  | nil => simp
  | cons r relocations ih =>
    rw [List.foldlM_cons, record_cons]
    by_cases hd : Deferred r
    · have h23 : r.rType ≠ 23 := by
        rcases hd with hd | hd <;> rw [hd] <;> decide
      rw [Pass.step_deferred hd, List.filter_cons_of_neg (by simpa using hd),
        List.filter_cons_of_pos (by simpa using hd), if_neg h23]
      refine (ih _).trans ?_
      simp
    · rw [Pass.step_patch hd, List.filter_cons_of_pos (by simpa using hd), List.filter_cons_of_neg (by simpa using hd),
        List.foldlM_cons]
      cases patchRiscv64 st.image r with
      | error e => rfl
      | ok image => exact ih _

/-- How one relocation is written, once every `PCREL_HI20` is known. -/
def writeRiscv64 (relocations : List Reloc) (image : List UInt8) (r : Reloc) :
    Except ProgramLinkError (List UInt8) :=
  if Deferred r then patchDeferred (record (fun _ => none) relocations) image r else patchRiscv64 image r

def writeReloc (relocations : List Reloc) : Arch → List UInt8 → Reloc → Except ProgramLinkError (List UInt8)
  | .x86_64 => relocateX86_64
  | .aarch64 => relocateAarch64
  | .riscv64 => writeRiscv64 relocations

/-- The passes over an object's relocations are one run, in the order in which they are written. -/
theorem relocate_eq_foldlM (arch : Arch) (image : List UInt8) (relocations : List Reloc) :
    relocate arch image relocations = (applied arch relocations).foldlM (writeReloc relocations arch) image := by
  cases arch with
  | x86_64 => rfl
  | aarch64 => rfl
  | riscv64 =>
    have hfirst : ∀ image, ∀ r ∈ relocations.filter fun r => ¬Deferred r,
        patchRiscv64 image r = writeRiscv64 relocations image r := by
      intro image r hr
      rw [writeRiscv64, if_neg (by simpa using (List.mem_filter.mp hr).2)]
    have hsecond : ∀ image, ∀ r ∈ relocations.filter fun r => Deferred r,
        patchDeferred (record (fun _ => none) relocations) image r = writeRiscv64 relocations image r := by
      intro image r hr
      rw [writeRiscv64, if_pos (by simpa using (List.mem_filter.mp hr).2)]
    rw [relocate, relocateRiscv64, foldlM_pass, applied, List.foldlM_append, Results.foldlM_congr hfirst, bind_assoc]
    congr 1
    funext image'
    exact Results.foldlM_congr hsecond image'

theorem writeReloc_step (arch : Arch) (relocations : List Reloc) (r : Reloc) (image : List UInt8) :
    Step arch relocations r image (writeReloc relocations arch image r) := by
  cases arch with
  | x86_64 => exact relocateX86_64_step
  | aarch64 => exact relocateAarch64_step
  | riscv64 =>
    change Step .riscv64 relocations r image (writeRiscv64 relocations image r)
    unfold writeRiscv64
    split
    · next hd => exact patchDeferred_step hd (Option.or_none ..)
    · next hd => exact patchRiscv64_step (not_or.mp hd)

end Passes

section Runs

variable {arch : Arch} {relocations : List Reloc} {r : Reloc} {image image' : List UInt8}

theorem Step.patched (h : Step arch relocations r image (.ok image')) :
    Accepted arch relocations image.length r ∧
      ∀ f o v, kind arch r.rType = some (f, o) → o.value relocations r = some v → Patched f r.site v image image' := by
  by_cases ha : Accepted arch relocations image.length r
  · obtain ⟨image'', heq, hp⟩ := h.ok ha
    cases heq
    exact ⟨ha, hp⟩
  · obtain ⟨e, he⟩ := h.error ha
    cases he

theorem Step.frame (h : Step arch relocations r image (.ok image')) :
    image'.length = image.length ∧ ∀ i, ¬Covered arch r i → bit image' i = bit image i := by
  obtain ⟨⟨f, o, v, hk, hv, -⟩, hp⟩ := h.patched
  have hp := hp f o v hk hv
  exact ⟨hp.length, fun i hi => hp.frame i fun hc => hi ⟨f, o, hk, hc⟩⟩

theorem foldlM_frame {rs : List Reloc} (h : rs.foldlM (writeReloc relocations arch) image = .ok image') :
    image'.length = image.length ∧ ∀ i, (∀ r ∈ rs, ¬Covered arch r i) → bit image' i = bit image i := by
  refine Results.foldlM_rel (R := fun image image' => image'.length = image.length ∧
    ∀ i, (∀ r ∈ rs, ¬Covered arch r i) → bit image' i = bit image i) ?_ ?_ ?_ h
  · exact fun _ => ⟨rfl, fun _ _ => rfl⟩
  · exact fun s t u h₁ h₂ => ⟨h₂.1.trans h₁.1, fun i hi => (h₂.2 i hi).trans (h₁.2 i hi)⟩
  · intro r hr s t hstep
    have hf := Step.frame (hstep ▸ writeReloc_step arch relocations r s)
    exact ⟨hf.1, fun i hi => hf.2 i (hi r hr)⟩

/-- No relocation written later has a bit of the field. -/
def Stands (arch : Arch) (after : List Reloc) (r : Reloc) : Prop :=
  ∀ i, Covered arch r i → ∀ q ∈ after, ¬Covered arch q i

/-- A field that no later relocation touches reads the same in the final image. -/
theorem reads_of_stands {v : ℤ} {after : List Reloc}
    (h : after.foldlM (writeReloc relocations arch) image = .ok image') (hk : kind arch r.rType = some (f, o))
    (hs : Stands arch after r) (hr : f.Reads (word f.bits image r.site) v) :
    f.Reads (word f.bits image' r.site) v := by
  have hg : f.layout.gather (word f.bits image' r.site) = f.layout.gather (word f.bits image r.site) := by
    apply Layout.gather_congr
    intro i hi
    have hc : Covered arch r (8 * r.site + i) := ⟨f, o, hk, by omega, by rwa [Nat.add_sub_cancel_left]⟩
    rw [getLsbD_word, getLsbD_word, (foldlM_frame h).2 _ (hs _ hc)]
  unfold Field.Reads
  rwa [hg]

theorem covers_inside {length i : ℕ} (hb : f.bits % 8 = 0) (h : r.Inside f length) (hc : f.Covers r.site i) :
    8 * r.site ≤ i ∧ i < 8 * r.sectionEnd := by
  obtain ⟨hle, hm⟩ := hc
  have hlt : i - 8 * r.site < f.bits := by
    by_contra hge
    rw [BitVec.getLsbD_of_ge _ _ (by omega)] at hm
    cases hm
  unfold Reloc.Inside at h
  omega

theorem kind_bits {t : UInt32} (h : kind arch t = some (f, o)) : f.bits % 8 = 0 := by
  unfold kind at h
  split at h <;> cases h <;> rfl

end Runs

theorem relocate_ok_iff (arch : Arch) (image : List UInt8) (relocations : List Reloc) :
    (∃ image', relocate arch image relocations = .ok image') ↔
      ∀ r ∈ relocations, Accepted arch relocations image.length r := by
  rw [relocate_eq_foldlM, Results.exists_foldlM_ok (I := fun image' => image'.length = image.length)
    (P := Accepted arch relocations image.length)]
  · exact forall_congr' fun r => by rw [mem_applied]
  · intro r _ image₁ hl ha
    obtain ⟨image₂, hok, -⟩ := (writeReloc_step arch relocations r image₁).ok (hl ▸ ha)
    have hf := Step.frame (hok ▸ writeReloc_step arch relocations r image₁)
    exact ⟨image₂, hok, hf.1.trans hl⟩
  · intro r _ image₁ hl ha
    exact (writeReloc_step arch relocations r image₁).error (hl ▸ ha)
  · rfl

/-- The image right after a relocation has been written. -/
theorem exists_mid {arch : Arch} {image image' : List UInt8} {relocations before after : List Reloc}
    {r : Reloc} {v : ℤ} (h : relocate arch image relocations = .ok image')
    (happ : applied arch relocations = before ++ r :: after) (hk : kind arch r.rType = some (f, o))
    (hv : o.value relocations r = some v) :
    ∃ mid, (before ++ [r]).foldlM (writeReloc relocations arch) image = .ok mid ∧
      f.Reads (word f.bits mid r.site) v ∧ after.foldlM (writeReloc relocations arch) mid = .ok image' := by
  rw [relocate_eq_foldlM, happ] at h
  obtain ⟨image₁, mid, hb, hr, ha⟩ := Results.foldlM_split h
  have hp := (Step.patched (hr ▸ writeReloc_step arch relocations r image₁)).2 f o v hk hv
  refine ⟨mid, ?_, hp.reads, ha⟩
  rw [List.foldlM_append, hb]
  change [r].foldlM (writeReloc relocations arch) image₁ = _
  rw [List.foldlM_cons, hr]
  rfl

/-- Some place of the relocation in the order of writing has no later relocation over it. -/
def Final (arch : Arch) (relocations : List Reloc) (r : Reloc) : Prop :=
  ∃ before after, applied arch relocations = before ++ r :: after ∧ Stands arch after r

/-- The high part that an `auipc` or `lui` at a site adds. -/
def upperAt (image : List UInt8) (site : ℕ) : ℤ := Field.signed 32 (Field.upper.layout.gather (word 32 image site))

def lowerIAt (image : List UInt8) (site : ℕ) : ℤ := Field.signed 12 (Field.lowerI.layout.gather (word 32 image site))

def lowerSAt (image : List UInt8) (site : ℕ) : ℤ := Field.signed 12 (Field.lowerS.layout.gather (word 32 image site))

/-- Relocations are patched exactly or refused. -/
theorem relocate_exact (arch : Arch) (image : List UInt8) (relocations : List Reloc) :
    ((∃ image', relocate arch image relocations = .ok image') ↔
      ∀ r ∈ relocations, Accepted arch relocations image.length r) ∧
    ∀ image', relocate arch image relocations = .ok image' →
      image'.length = image.length ∧
      (∀ i, (∀ r ∈ relocations, ¬Covered arch r i) → bit image' i = bit image i) ∧
      (∀ r ∈ relocations, ∀ i, Covered arch r i → 8 * r.site ≤ i ∧ i < 8 * r.sectionEnd) ∧
      (∀ before r after f o v, applied arch relocations = before ++ r :: after →
        kind arch r.rType = some (f, o) → o.value relocations r = some v →
        ∃ mid, (before ++ [r]).foldlM (writeReloc relocations arch) image = .ok mid ∧
          f.Reads (word f.bits mid r.site) v) ∧
      (∀ r f o v, Final arch relocations r → kind arch r.rType = some (f, o) → o.value relocations r = some v →
        f.Reads (word f.bits image' r.site) v) ∧
      ∀ h q o o' v, Final arch relocations h → Final arch relocations q →
        kind arch h.rType = some (.upper, o) → o.value relocations h = some v → o'.value relocations q = some v →
        (kind arch q.rType = some (.lowerI, o') → upperAt image' h.site + lowerIAt image' q.site = v) ∧
        (kind arch q.rType = some (.lowerS, o') → upperAt image' h.site + lowerSAt image' q.site = v) := by
  have hiff := relocate_ok_iff arch image relocations
  refine ⟨hiff, fun image' h => ?_⟩
  have hfinal : ∀ r f o v, Final arch relocations r → kind arch r.rType = some (f, o) →
      o.value relocations r = some v → f.Reads (word f.bits image' r.site) v := by
    rintro r f o v ⟨before, after, happ, hs⟩ hk hv
    obtain ⟨mid, -, hreads, ha⟩ := exists_mid h happ hk hv
    exact reads_of_stands ha hk hs hreads
  have hframe := foldlM_frame (relocate_eq_foldlM arch image relocations ▸ h)
  refine ⟨hframe.1, fun i hi => hframe.2 i fun r hr => hi r (mem_applied.mp hr), ?_, ?_, hfinal, ?_⟩
  · rintro r hr i ⟨f, o, hk, hc⟩
    obtain ⟨f', o', v, hk', -, hin, -⟩ := hiff.mp ⟨image', h⟩ r hr
    rw [hk] at hk'
    cases hk'
    exact covers_inside (kind_bits hk) hin hc
  · intro before r after f o v happ hk hv
    obtain ⟨mid, hm, hreads, -⟩ := exists_mid h happ hk hv
    exact ⟨mid, hm, hreads⟩
  · intro h q o o' v hh hq hk hv hv'
    have hu : upperAt image' h.site + Field.lo12 v = v := hfinal h _ o v hh hk hv
    constructor
    · intro hk'
      have hl : lowerIAt image' q.site = Field.lo12 v := hfinal q _ o' v hq hk' hv'
      rw [hl, hu]
    · intro hk'
      have hl : lowerSAt image' q.site = Field.lo12 v := hfinal q _ o' v hq hk' hv'
      rw [hl, hu]

end Krusty.Native.Linker
