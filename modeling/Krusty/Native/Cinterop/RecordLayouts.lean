import Krusty.Lib.Results
import Krusty.Lib.Spans
import Krusty.Native.Cinterop.Layout

/-! The layout of a C record is well formed, whatever its fields and attributes. -/
namespace Krusty.Native.Cinterop

open Linker (Arch)
open Spans

/-- A power of two of 64 bits, as every alignment is. -/
def Pow (n : ℕ) : Prop := ∃ k < 64, n = 2 ^ k

section Arithmetic

variable {value rhs result n : ℕ}

theorem word_ok : word n = .ok result ↔ n < 2 ^ 64 ∧ n = result := by
  unfold word
  split_ifs with hfits
  · rw [Except.ok.injEq]
    exact (and_iff_right hfits).symm
  · constructor
    · nofun
    · intro h
      exact absurd h.1 hfits

theorem nextMultipleOf_ok (h : nextMultipleOf value rhs = .ok result) : 0 < rhs ∧ result = roundUp value rhs := by
  unfold nextMultipleOf at h
  split_ifs at h with hzero hdvd
  · cases h
    have hpos := Nat.pos_of_ne_zero hzero
    exact ⟨hpos, (roundUp_of_dvd (Nat.dvd_of_mod_eq_zero hdvd) hpos).symm⟩
  · obtain ⟨-, rfl⟩ := word_ok.mp h
    have hpos := Nat.pos_of_ne_zero hzero
    have hmod := Nat.mod_lt value hpos
    have hdiv := Nat.div_add_mod value rhs
    have hmultiple : rhs ∣ value + (rhs - value % rhs) := by
      refine ⟨value / rhs + 1, ?_⟩
      rw [Nat.mul_succ]
      omega
    exact ⟨hpos, (roundUp_eq hmultiple (by omega) (by omega)).symm⟩

theorem Pow.pos (h : Pow n) : 0 < n := by
  obtain ⟨k, -, rfl⟩ := h
  exact Nat.two_pow_pos k

theorem Pow.max {a b : ℕ} (ha : Pow a) (hb : Pow b) : Pow (max a b) := by
  rcases max_choice a b with h | h
  · rwa [h]
  · rwa [h]

theorem Pow.min {a b : ℕ} (ha : Pow a) (hb : Pow b) : Pow (min a b) := by
  rcases min_choice a b with h | h
  · rwa [h]
  · rwa [h]

theorem Pow.lt (h : Pow n) : n < 2 ^ 64 := by
  obtain ⟨k, hk, rfl⟩ := h
  exact Nat.pow_lt_pow_right (by decide) hk

theorem pow_one : Pow 1 := ⟨0, by decide, rfl⟩

theorem explicitOf_pow (aligned : Option Alignment) : Pow (explicitOf aligned) := by
  cases aligned with
  | none => exact pow_one
  | some alignment => exact alignment.property

/-- A cap leaves a power of two, being one or no cap at all. -/
theorem min_packOf_pow {pack : Option Alignment} (h : Pow n) : Pow (min n (packOf pack)) := by
  cases pack with
  | none =>
    have hlt := h.lt
    have hcap : min n (packOf none) = n := Nat.min_eq_left (by change n ≤ 2 ^ 64 - 1; omega)
    rwa [hcap]
  | some alignment => exact h.min alignment.property

end Arithmetic

def Shape.bits : Shape → ℕ
  | .field size _ => size * 8
  | .bitfield input => input.width

/-- The alignment of a bitfield in bits, before any cap. -/
def BitfieldInput.raised (input : BitfieldInput) : ℕ :=
  let natural := if input.packed ∧ input.width ≠ 0 then 1 else input.storage.align * 8
  match input.explicitAlign with
  | some explicit => max natural (explicit.val * 8)
  | none => natural

def BitfieldInput.alignment (input : BitfieldInput) : ℕ :=
  if input.width ≠ 0 then min input.raised (min (input.pack * 8) (2 ^ 64 - 1)) else input.raised

/-- The alignment in bytes that a field asks of its record. -/
def Shape.counted : Shape → ℕ
  | .field _ align => align
  | .bitfield input => if input.countsTowardAlignment then input.alignment / 8 else 0

/-- A bitfield of natural layout: not packed, under no cap, its type aligned to a multiple of its size, and aligned
itself, if at all, to a multiple of that size. -/
structure BitfieldInput.Natural (input : BitfieldInput) : Prop where
  unpacked : input.packed = false
  uncapped : input.pack = packOf none
  sized : input.storage.size ∣ input.storage.align
  explicit : ∀ explicit ∈ input.explicitAlign, input.storage.size ∣ explicit.val

/-- Some bits, if any, are within one of the units that divide a record. -/
def Whole (offset width unit : ℕ) : Prop := width = 0 ∨ offset / unit = (offset + width - 1) / unit

/-- A field is where its kind may be. -/
def Settled (offset : ℕ) : Shape → Prop
  | .field _ align => align * 8 ∣ offset
  | .bitfield input => input.Natural → Whole offset input.width (input.storage.size * 8)

section Bitfields

variable {input : BitfieldInput} {alignBits offset start : ℕ}

theorem alignBits_ok (h : RecordBuilder.alignBits input = .ok alignBits) :
    alignBits = input.alignment ∧ input.raised < 2 ^ 64 := by
  obtain ⟨natural, hnatural, h⟩ := Results.bind_ok h
  obtain ⟨raised, hraised, h⟩ := Results.bind_ok h
  have hsame : natural = (if input.packed ∧ input.width ≠ 0 then 1 else input.storage.align * 8) ∧
      natural < 2 ^ 64 := by
    split_ifs at hnatural ⊢
    · cases hnatural
      exact ⟨rfl, by decide⟩
    · obtain ⟨hlt, rfl⟩ := word_ok.mp hnatural
      exact ⟨rfl, hlt⟩
  have hsame' : raised = input.raised ∧ raised < 2 ^ 64 := by
    unfold BitfieldInput.raised
    dsimp only
    rw [← hsame.1]
    cases hexplicit : input.explicitAlign with
    | none =>
      rw [hexplicit] at hraised
      cases hraised
      exact ⟨rfl, hsame.2⟩
    | some explicit =>
      rw [hexplicit] at hraised
      obtain ⟨bits, hbits, hmax⟩ := Results.map_ok hraised
      obtain ⟨hlt, rfl⟩ := word_ok.mp hbits
      exact ⟨hmax.symm, hmax ▸ max_lt hsame.2 hlt⟩
  rw [← hsame'.1]
  unfold BitfieldInput.alignment
  rw [← hsame'.1]
  cases h
  exact ⟨rfl, hsame'.2⟩

/-- Where a bitfield starts: never before the bit it was offered. -/
theorem bitOffset_ok (h : RecordBuilder.bitOffset input alignBits start = .ok offset) :
    start ≤ offset ∧ (start = 0 → offset = 0) ∧
      (offset = roundUp start alignBits ∧ 0 < alignBits ∨
        (start &&& (alignBits - 1)) + input.width ≤ input.storage.size * 8 ∧
          (input.explicitAlign = none ∧ offset = start ∨
            ∃ explicit ∈ input.explicitAlign, offset = roundUp start (explicit.val * 8) ∧ 0 < explicit.val)) := by
  have hzero : ∀ align, 0 < align → start = 0 → roundUp start align = 0 := by
    intro align hpos hstart
    rw [hstart]
    exact roundUp_of_dvd (Nat.dvd_zero align) hpos
  obtain ⟨storageBits, hstorage, h⟩ := Results.bind_ok h
  obtain ⟨stop, hstop, h⟩ := Results.bind_ok h
  obtain ⟨-, rfl⟩ := word_ok.mp hstorage
  obtain ⟨-, rfl⟩ := word_ok.mp hstop
  by_cases hmove : input.width = 0 ∨ input.storage.size * 8 < (start &&& (alignBits - 1)) + input.width
  · rw [if_pos hmove] at h
    obtain ⟨hpos, rfl⟩ := nextMultipleOf_ok h
    exact ⟨le_roundUp hpos, hzero _ hpos, .inl ⟨rfl, hpos⟩⟩
  · rw [if_neg hmove] at h
    have hfits : (start &&& (alignBits - 1)) + input.width ≤ input.storage.size * 8 := by omega
    cases hexplicit : input.explicitAlign with
    | none =>
      rw [hexplicit] at h
      cases h
      exact ⟨Nat.le_refl _, id, .inr ⟨hfits, .inl ⟨rfl, rfl⟩⟩⟩
    | some explicit =>
      rw [hexplicit] at h
      obtain ⟨bits, hbits, h⟩ := Results.bind_ok h
      obtain ⟨-, rfl⟩ := word_ok.mp hbits
      obtain ⟨hpos, rfl⟩ := nextMultipleOf_ok h
      exact ⟨le_roundUp hpos, hzero _ hpos, .inr ⟨hfits, .inr ⟨explicit, rfl, rfl, by omega⟩⟩⟩

theorem whole_of_dvd {width unit : ℕ} (hdvd : unit ∣ offset) (hle : width ≤ unit) : Whole offset width unit := by
  rcases Nat.eq_zero_or_pos width with hzero | hpos
  · exact .inl hzero
  · right
    obtain ⟨k, rfl⟩ := hdvd
    have hlast : unit * k + width - 1 = (width - 1) + unit * k := by omega
    rw [Nat.mul_div_cancel_left k (by omega), hlast, Nat.add_mul_div_left _ _ (by omega),
      Nat.div_eq_of_lt (by omega), Nat.zero_add]

/-- A bitfield of natural layout is aligned to a power of two, of which its type's unit is a divisor. -/
theorem natural_alignment (hnatural : input.Natural) (hpow : Pow input.storage.align) (hwidth : 0 < input.width)
    (hraised : input.raised < 2 ^ 64) :
    (∃ k, input.alignment = 2 ^ k) ∧ input.storage.size * 8 ∣ input.alignment := by
  have hcap : input.alignment = input.raised := by
    unfold BitfieldInput.alignment
    rw [if_pos (by omega), hnatural.uncapped]
    change min input.raised (min ((2 ^ 64 - 1) * 8) (2 ^ 64 - 1)) = input.raised
    omega
  obtain ⟨a, -, ha⟩ := hpow
  have hstorage : input.storage.align * 8 = 2 ^ (a + 3) := by
    rw [ha, pow_add]
    rfl
  have hunit : input.storage.size * 8 ∣ input.storage.align * 8 := Nat.mul_dvd_mul_right hnatural.sized 8
  rw [hcap]
  unfold BitfieldInput.raised
  rw [hnatural.unpacked]
  dsimp only
  rw [if_neg (by simp)]
  cases hexplicit : input.explicitAlign with
  | none => exact ⟨⟨_, hstorage⟩, hunit⟩
  | some explicit =>
    obtain ⟨b, -, hb⟩ := explicit.property
    have hbits : explicit.val * 8 = 2 ^ (b + 3) := by
      rw [hb, pow_add]
      rfl
    have hunit' : input.storage.size * 8 ∣ explicit.val * 8 :=
      Nat.mul_dvd_mul_right (hnatural.explicit explicit hexplicit) 8
    dsimp only
    rcases max_choice (input.storage.align * 8) (explicit.val * 8) with h | h
    · rw [h]
      exact ⟨⟨_, hstorage⟩, hunit⟩
    · rw [h]
      exact ⟨⟨_, hbits⟩, hunit'⟩

/-- A bitfield's alignment is one bit, or a power of two of bytes. -/
def Bits (n : ℕ) : Prop := n = 1 ∨ ∃ bytes, Pow bytes ∧ n = bytes * 8

theorem Bits.max {a b : ℕ} (ha : Bits a) (hb : Bits b) : Bits (max a b) := by
  rcases max_choice a b with h | h
  · rwa [h]
  · rwa [h]

theorem Bits.min {a b : ℕ} (ha : Bits a) (hb : Bits b) : Bits (min a b) := by
  rcases min_choice a b with h | h
  · rwa [h]
  · rwa [h]

theorem raised_bits (hpow : Pow input.storage.align) : Bits input.raised := by
  have hnatural : Bits (if input.packed ∧ input.width ≠ 0 then 1 else input.storage.align * 8) := by
    split_ifs
    · exact .inl rfl
    · exact .inr ⟨_, hpow, rfl⟩
  unfold BitfieldInput.raised
  cases input.explicitAlign with
  | none => exact hnatural
  | some explicit => exact hnatural.max (.inr ⟨_, explicit.property, rfl⟩)

theorem alignment_bits (hpow : Pow input.storage.align) (hpack : ∃ pack, input.pack = packOf pack)
    (hraised : input.raised < 2 ^ 64) : Bits input.alignment := by
  have hbits := raised_bits hpow
  obtain ⟨pack, hpack⟩ := hpack
  unfold BitfieldInput.alignment
  split_ifs
  · have hword : min input.raised (min (input.pack * 8) (2 ^ 64 - 1)) = min input.raised (input.pack * 8) := by
      omega
    rw [hword, hpack]
    cases pack with
    | none =>
      have hcap : min input.raised (packOf none * 8) = input.raised := by
        have hnone : packOf none = 2 ^ 64 - 1 := rfl
        omega
      rwa [hcap]
    | some alignment => exact hbits.min (.inr ⟨_, alignment.property, rfl⟩)
  · exact hbits

/-- What a bitfield asks of its record leaves a power of two. -/
theorem max_alignment_pow {align : ℕ} (halign : Pow align) (h : Bits input.alignment) :
    Pow (max align (input.alignment / 8)) := by
  rcases h with hbit | ⟨bytes, hbytes, hbits⟩
  · have hzero : max align (input.alignment / 8) = align := by omega
    rwa [hzero]
  · have hdiv : input.alignment / 8 = bytes := by omega
    rw [hdiv]
    exact halign.max hbytes

/-- A bitfield of natural layout does not straddle its type's units. -/
theorem natural_whole (hnatural : input.Natural) (hpow : Pow input.storage.align) (hraised : input.raised < 2 ^ 64)
    (hwidth : input.width ≤ input.storage.size * 8)
    (h : RecordBuilder.bitOffset input input.alignment start = .ok offset) :
    Whole offset input.width (input.storage.size * 8) := by
  rcases Nat.eq_zero_or_pos input.width with hzero | hpos
  · exact .inl hzero
  obtain ⟨⟨k, hk⟩, hunit⟩ := natural_alignment hnatural hpow hpos hraised
  obtain ⟨-, -, hmoved | ⟨hfits, hkept⟩⟩ := bitOffset_ok h
  · rw [hmoved.1]
    exact whole_of_dvd (hunit.trans (dvd_roundUp _ _)) hwidth
  · rcases hkept with ⟨-, rfl⟩ | ⟨explicit, hexplicit, rfl, -⟩
    · -- the bits are within the first unit of an aligned stretch
      rw [hk, Nat.and_two_pow_sub_one_eq_mod, ← hk] at hfits
      obtain ⟨m, hm⟩ := hunit
      have hdiv := Nat.div_add_mod offset input.alignment
      generalize input.storage.size * 8 = unit at *
      generalize hq : offset / input.alignment = q at hdiv
      generalize hr : offset % input.alignment = r at hdiv hfits
      rw [hm, Nat.mul_assoc] at hdiv
      right
      have hlast : unit * (m * q) + r + input.width - 1 = (r + input.width - 1) + unit * (m * q) := by omega
      rw [← hdiv, hlast, Nat.add_comm (unit * (m * q)), Nat.add_mul_div_left _ _ (by omega),
        Nat.add_mul_div_left _ _ (by omega), Nat.div_eq_of_lt (by omega), Nat.div_eq_of_lt (by omega)]
    · have hunit' : input.storage.size * 8 ∣ explicit.val * 8 :=
        Nat.mul_dvd_mul_right (hnatural.explicit explicit hexplicit) 8
      exact whole_of_dvd (hunit'.trans (dvd_roundUp _ _)) hwidth

end Bitfields

/-! ## The builder -/

/-- What the loop over the fields makes sure of before it hands one to the builder. -/
def Shape.Sane : Shape → Prop
  | .field _ align => Pow align
  | .bitfield input =>
    input.width ≤ input.storage.size * 8 ∧ Pow input.storage.align ∧ ∃ pack, input.pack = packOf pack

def spans (offsets : List ℕ) (shapes : List Shape) : List Span :=
  List.zipWith (fun offset shape => ⟨offset, shape.bits⟩) offsets shapes

/-- What holds of a builder that has been given some fields. -/
structure Inv (union : Bool) (least : ℕ) (builder : RecordBuilder) (done : List Shape) : Prop where
  kind : builder.union = union
  length : builder.fieldOffsets.length = done.length
  bytes : 8 ∣ builder.dataBits
  unfilled : builder.unfilledBits ≤ builder.dataBits
  ordered : union = false → InOrder 0 (spans builder.fieldOffsets done) (builder.dataBits - builder.unfilledBits)
  zero : union = true → ∀ offset ∈ builder.fieldOffsets, offset = 0
  inside : union = true → ∀ shape ∈ done, shape.bits ≤ builder.dataBits
  settled : List.Forall₂ Settled builder.fieldOffsets done
  least_le : least ≤ builder.align
  counted : ∀ shape ∈ done, shape.counted ≤ builder.align
  pow : Pow builder.align

section Builder

variable {union : Bool} {least : ℕ} {builder later : RecordBuilder} {done : List Shape} {shape : Shape}

/-- One more field: what the step must show of it. -/
theorem Inv.concat (hinv : Inv union least builder done) (offset : ℕ)
    (hunion : later.union = builder.union) (hoffsets : later.fieldOffsets = builder.fieldOffsets ++ [offset])
    (hbytes : 8 ∣ later.dataBits) (hunfilled : later.unfilledBits ≤ later.dataBits)
    (hstruct : union = false → builder.dataBits - builder.unfilledBits ≤ offset ∧
      offset + shape.bits ≤ later.dataBits - later.unfilledBits)
    (hwhole : union = true → offset = 0 ∧ builder.dataBits ≤ later.dataBits ∧ shape.bits ≤ later.dataBits)
    (hsettled : Settled offset shape) (halign : later.align = max builder.align shape.counted)
    (hpow : Pow later.align) : Inv union least later (done ++ [shape]) := by
  have hspans : spans later.fieldOffsets (done ++ [shape]) =
      spans builder.fieldOffsets done ++ [⟨offset, shape.bits⟩] := by
    unfold spans
    rw [hoffsets, List.zipWith_append hinv.length]
    rfl
  exact {
    kind := hunion.trans hinv.kind
    length := by rw [hoffsets, List.length_append, List.length_append, hinv.length]; rfl
    bytes := hbytes
    unfilled := hunfilled
    ordered := by
      intro hkind
      obtain ⟨hstart, hstop⟩ := hstruct hkind
      have hnext : InOrder (builder.dataBits - builder.unfilledBits) [⟨offset, shape.bits⟩]
          (later.dataBits - later.unfilledBits) := ⟨hstart, hstop⟩
      rw [hspans]
      exact (hinv.ordered hkind).append hnext
    zero := by
      intro hkind
      rw [hoffsets]
      exact List.forall_mem_append.mpr ⟨hinv.zero hkind, by simpa using (hwhole hkind).1⟩
    inside := by
      intro hkind
      obtain ⟨-, hle, hbits⟩ := hwhole hkind
      exact List.forall_mem_append.mpr
        ⟨fun shape hshape => (hinv.inside hkind shape hshape).trans hle, by simpa using hbits⟩
    settled := by
      rw [hoffsets]
      exact List.rel_append hinv.settled (.cons hsettled .nil)
    least_le := by
      rw [halign]
      exact hinv.least_le.trans (Nat.le_max_left _ _)
    counted := by
      rw [halign]
      exact List.forall_mem_append.mpr ⟨fun shape hshape => (hinv.counted shape hshape).trans (Nat.le_max_left _ _),
        by simp⟩
    pow := hpow }

theorem field_inv {size align : ℕ} (hinv : Inv union least builder done) (hsane : Pow align)
    (h : builder.field size align = .ok later) : Inv union least later (done ++ [.field size align]) := by
  obtain ⟨offset, hoffset, hrest⟩ := Results.bind_ok h
  obtain ⟨bits, hbits, hrest'⟩ := Results.bind_ok hrest
  obtain ⟨-, rfl⟩ := word_ok.mp hbits
  obtain ⟨dataBits, hdata, hlater⟩ := Results.bind_ok hrest'
  cases hlater
  have hkind := hinv.kind
  have hbytes := hinv.bytes
  cases union with
  | true =>
    rw [hkind, if_pos rfl] at hoffset hdata
    cases hoffset
    cases hdata
    refine hinv.concat 0 rfl rfl ?_ (Nat.zero_le _) nofun ?_ (Nat.dvd_zero _) rfl
      (hinv.pow.max hsane)
    · change 8 ∣ max builder.dataBits (size * 8)
      omega
    · intro _
      exact ⟨rfl, Nat.le_max_left _ _, Nat.le_max_right _ _⟩
  | false =>
    rw [hkind, if_neg (by decide)] at hoffset hdata
    obtain ⟨alignBits, halignBits, hoffset⟩ := Results.bind_ok hoffset
    obtain ⟨-, rfl⟩ := word_ok.mp halignBits
    obtain ⟨hpos, rfl⟩ := nextMultipleOf_ok hoffset
    obtain ⟨-, rfl⟩ := word_ok.mp hdata
    have hdvd : align * 8 ∣ roundUp builder.dataBits (align * 8) := dvd_roundUp _ _
    have hle : builder.dataBits ≤ roundUp builder.dataBits (align * 8) := le_roundUp hpos
    have hbyte : 8 ∣ roundUp builder.dataBits (align * 8) := (Nat.dvd_mul_left 8 align).trans hdvd
    refine hinv.concat (roundUp builder.dataBits (align * 8)) rfl rfl ?_ (Nat.zero_le _) ?_ nofun hdvd rfl
      (hinv.pow.max hsane)
    · change 8 ∣ roundUp builder.dataBits (align * 8) + size * 8
      omega
    · intro _
      change builder.dataBits - builder.unfilledBits ≤ _ ∧ roundUp builder.dataBits (align * 8) + size * 8 ≤
        roundUp builder.dataBits (align * 8) + size * 8 - 0
      omega

theorem bitfield_inv {input : BitfieldInput} (hinv : Inv union least builder done)
    (hsane : (Shape.bitfield input).Sane) (h : builder.bitfield input = .ok later) :
    Inv union least later (done ++ [.bitfield input]) := by
  obtain ⟨hwidth, hstorage, hpack⟩ := hsane
  obtain ⟨alignBits, halignBits, hrest⟩ := Results.bind_ok h
  obtain ⟨rfl, hraised⟩ := alignBits_ok halignBits
  obtain ⟨offset, hoffset, hlater⟩ := Results.bind_ok hrest
  have hkind := hinv.kind
  have hbytes := hinv.bytes
  have hsettled : Settled offset (.bitfield input) := fun hnatural =>
    natural_whole hnatural hstorage hraised hwidth hoffset
  obtain ⟨hstart, hzero, -⟩ := bitOffset_ok hoffset
  have halign : (if input.countsTowardAlignment then max builder.align (input.alignment / 8) else builder.align) =
      max builder.align (Shape.bitfield input).counted := by
    dsimp only [Shape.counted]
    split_ifs
    · rfl
    · exact (Nat.max_eq_left (Nat.zero_le _)).symm
  have hpow : Pow (max builder.align (Shape.bitfield input).counted) := by
    dsimp only [Shape.counted]
    split_ifs
    · exact max_alignment_pow hinv.pow (alignment_bits hstorage hpack hraised)
    · rw [Nat.max_eq_left (Nat.zero_le _)]
      exact hinv.pow
  cases union with
  | true =>
    rw [hkind, if_pos rfl] at hzero
    dsimp only at hlater
    rw [if_pos hkind] at hlater
    obtain ⟨bits, hbits, hlater'⟩ := Results.bind_ok hlater
    obtain ⟨-, rfl⟩ := nextMultipleOf_ok hbits
    cases hlater'
    have hround : 8 ∣ roundUp input.width 8 := dvd_roundUp _ _
    have hfits : input.width ≤ roundUp input.width 8 := le_roundUp (by decide)
    refine hinv.concat offset rfl rfl ?_ ?_ nofun ?_ hsettled halign (halign ▸ hpow)
    · change 8 ∣ max builder.dataBits (roundUp input.width 8)
      omega
    · exact hinv.unfilled.trans (Nat.le_max_left _ _)
    · intro _
      exact ⟨hzero rfl, Nat.le_max_left _ _, hfits.trans (Nat.le_max_right _ _)⟩
  | false =>
    rw [hkind, if_neg (by decide)] at hstart
    dsimp only at hlater
    rw [if_neg (by rw [hkind]; decide)] at hlater
    obtain ⟨stop, hstop, hlater'⟩ := Results.bind_ok hlater
    obtain ⟨-, rfl⟩ := word_ok.mp hstop
    obtain ⟨dataBits, hdata, hlater''⟩ := Results.bind_ok hlater'
    obtain ⟨-, rfl⟩ := nextMultipleOf_ok hdata
    cases hlater''
    have hround : 8 ∣ roundUp (offset + input.width) 8 := dvd_roundUp _ _
    have hle : offset + input.width ≤ roundUp (offset + input.width) 8 := le_roundUp (by decide)
    refine hinv.concat offset rfl rfl hround ?_ ?_ nofun hsettled halign (halign ▸ hpow)
    · exact Nat.sub_le _ _
    · intro _
      refine ⟨hstart, ?_⟩
      change offset + input.width ≤ roundUp (offset + input.width) 8 -
        (roundUp (offset + input.width) 8 - (offset + input.width))
      omega

theorem add_inv (hinv : Inv union least builder done) (hsane : shape.Sane) (h : builder.add shape = .ok later) :
    Inv union least later (done ++ [shape]) := by
  cases shape with
  | field size align => exact field_inv hinv hsane h
  | bitfield input => exact bitfield_inv hinv hsane h

theorem inv_empty (union : Bool) (aligned : Option Alignment) :
    Inv union (explicitOf aligned) ⟨union, 0, 0, explicitOf aligned, []⟩ [] where
  kind := rfl
  length := rfl
  bytes := Nat.dvd_zero 8
  unfilled := Nat.le_refl 0
  ordered _ := Nat.le_refl 0
  zero _ _ hoffset := nomatch hoffset
  inside _ _ hshape := nomatch hshape
  settled := .nil
  least_le := Nat.le_refl _
  counted _ hshape := nomatch hshape
  pow := explicitOf_pow aligned

end Builder

/-! ## The loop over the fields -/

section Layouts

variable (arch : Arch) (spell : CType → String)

/-- What the fields of a record ask of its layout. -/
def shapesOf (packed : Bool) (pack : ℕ) : List Field → Except Stop (List Shape)
  | [] => .ok []
  | field :: fields => do
    let shape ← shape arch spell packed pack fields.isEmpty field
    let shapes ← shapesOf packed pack fields
    pure (shape :: shapes)

theorem rank_pow (rank : IntRank) : Pow rank.size := by
  cases rank with
  | bool | char => exact pow_one
  | short => exact ⟨1, by decide, rfl⟩
  | int => exact ⟨2, by decide, rfl⟩
  | long | longLong => exact ⟨3, by decide, rfl⟩
  | int128 => exact ⟨4, by decide, rfl⟩

theorem floatSize_pow (kind : FloatKind) : Pow (floatSize kind) := by
  cases kind with
  | float => exact ⟨2, by decide, rfl⟩
  | double => exact ⟨3, by decide, rfl⟩
  | longDouble => exact ⟨4, by decide, rfl⟩

theorem nextPowerOfTwo_pow {n power : ℕ} (h : nextPowerOfTwo n = .ok power) : Pow power := by
  obtain ⟨hlt, rfl⟩ := word_ok.mp h
  exact ⟨_, (Nat.pow_lt_pow_iff_right (by decide)).mp hlt, rfl⟩

mutual

/-- Every alignment is a power of two. -/
theorem layout_pow : ∀ (ty : CType) {result : Layout}, layout arch spell ty = .ok result → Pow result.align
  | .void, _, h | .function, _, h => by
    rw [layout] at h
    cases h
    exact pow_one
  | .int rank, _, h => by
    rw [layout] at h
    cases h
    exact rank_pow rank
  | .float kind, _, h | .complex kind, _, h => by
    rw [layout] at h
    cases h
    exact floatSize_pow kind
  | .pointer, _, h => by
    rw [layout] at h
    cases h
    exact ⟨3, by decide, rfl⟩
  | .array _ none, _, h => by
    rw [layout] at h
    cases h
  | .array element (some _), _, h => by
    rw [layout] at h
    obtain ⟨_, helement, hrest⟩ := Results.bind_ok h
    obtain ⟨_, -, hresult⟩ := Results.bind_ok hrest
    cases hresult
    have hpow := layout_pow element helement
    exact hpow
  | .record record, _, h => by
    rw [layout] at h
    obtain ⟨_, hrecord, hresult⟩ := Results.bind_ok h
    cases hresult
    exact layOutRecord_pow record hrecord
  | .enumeration enumeration, _, h => by
    rw [layout] at h
    cases hrank : enumUnderlying enumeration with
    | none =>
      rw [hrank] at h
      cases h
    | some rank =>
      rw [hrank] at h
      cases h
      exact (rank_pow rank).max (explicitOf_pow _)
  | .typedef ty aligned, _, h => by
    rw [layout] at h
    obtain ⟨_, hbase, hresult⟩ := Results.bind_ok h
    cases hresult
    cases aligned with
    | none => exact layout_pow ty hbase
    | some alignment => exact alignment.property
  | .qualified ty, _, h => by
    rw [layout] at h
    exact layout_pow ty h
  | .atomic ty, _, h => by
    rw [layout] at h
    obtain ⟨value, hvalue, hrest⟩ := Results.bind_ok h
    split_ifs at hrest
    · cases hrest
      have hpow := layout_pow ty hvalue
      exact hpow
    · obtain ⟨size, hsize, hresult⟩ := Results.map_ok hrest
      rw [← hresult]
      exact nextPowerOfTwo_pow hsize
    · cases hrest
      exact layout_pow ty hvalue
  | .vector size, _, h => by
    rw [layout] at h
    obtain ⟨align, halign, hrest⟩ := Results.bind_ok h
    obtain ⟨_, -, hresult⟩ := Results.bind_ok hrest
    cases hresult
    have hpow := nextPowerOfTwo_pow halign
    cases arch with
    | aarch64 => exact hpow.min ⟨4, by decide, rfl⟩
    | x86_64 | riscv64 => exact hpow.min hpow

theorem layOutRecord_pow : ∀ (record : Record) {result : RecordLayout},
    layOutRecord arch spell record = .ok result → Pow result.align
  | .mk _ _ none _ _ _, _, h => by
    rw [layOutRecord] at h
    cases h
  | .mk kind _ (some fields) pack packed aligned, _, h => by
    rw [layOutRecord] at h
    obtain ⟨builder, hfields, hfinish⟩ := Results.bind_ok h
    obtain ⟨_, -, hinv⟩ := layOutFields_inv packed pack fields (inv_empty (kind == .union) aligned) hfields
    obtain ⟨_, -, hresult⟩ := Results.bind_ok hfinish
    cases hresult
    exact hinv.pow

/-- The loop over the fields gives each its place. -/
theorem layOutFields_inv {union : Bool} {least : ℕ} (packed : Bool) (pack : Option Alignment) :
    ∀ (fields : List Field) {builder later : RecordBuilder} {done : List Shape}, Inv union least builder done →
      layOutFields arch spell packed (packOf pack) fields builder = .ok later →
        ∃ shapes, shapesOf arch spell packed (packOf pack) fields = .ok shapes ∧
          Inv union least later (done ++ shapes)
  | [], _, _, _, hinv, h => by
    rw [layOutFields] at h
    cases h
    exact ⟨[], rfl, by rwa [List.append_nil]⟩
  | field :: fields, _, _, _, hinv, h => by
    rw [layOutFields] at h
    obtain ⟨shape, hshape, hrest⟩ := Results.bind_ok h
    obtain ⟨builder, hadd, hlater⟩ := Results.bind_ok hrest
    have hnext := add_inv hinv (shape_sane packed pack fields.isEmpty field hshape) hadd
    obtain ⟨shapes, hshapes, hdone⟩ := layOutFields_inv packed pack fields hnext hlater
    refine ⟨shape :: shapes, ?_, ?_⟩
    · exact Results.ok_bind hshape (Results.ok_bind hshapes rfl)
    · rwa [List.append_assoc, List.singleton_append] at hdone

theorem shape_sane (packed : Bool) (pack : Option Alignment) (last : Bool) : ∀ (field : Field) {found : Shape},
    shape arch spell packed (packOf pack) last field = .ok found → found.Sane
  | .mk _ ty (some width) aligned fieldPacked, _, h => by
    rw [shape] at h
    obtain ⟨storage, hstorage, hrest⟩ := Results.bind_ok h
    obtain ⟨bits, hbits, hrest'⟩ := Results.bind_ok hrest
    obtain ⟨-, rfl⟩ := word_ok.mp hbits
    split_ifs at hrest' with hwide
    cases hrest'
    exact ⟨Nat.le_of_not_lt hwide, layout_pow ty hstorage, pack, rfl⟩
  | .mk _ ty none aligned fieldPacked, _, h => by
    rw [shape] at h
    obtain ⟨flexible, hflexible, hrest⟩ := Results.bind_ok h
    obtain ⟨storage, hstorage, hfound⟩ := Results.bind_ok hrest
    cases hfound
    have hpow : Pow storage.align := by
      cases flexible with
      | none => exact layout_pow ty hstorage
      | some element =>
        cases hstorage
        split_ifs at hflexible
        · have hpow := flexibleElement_pow ty hflexible
          exact hpow
        · cases hflexible
    have hnatural : Pow (if packed || fieldPacked then 1 else storage.align) := by
      split_ifs
      · exact pow_one
      · exact hpow
    exact min_packOf_pow (hnatural.max (explicitOf_pow aligned))

theorem flexibleElement_pow : ∀ (ty : CType) {element : Layout},
    flexibleElement arch spell ty = .ok (some element) → Pow element.align
  | .array element none, _, h => by
    rw [flexibleElement] at h
    obtain ⟨found, hfound, hsome⟩ := Results.map_ok h
    cases hsome
    exact layout_pow element hfound
  | .typedef ty _, _, h => by
    rw [flexibleElement] at h
    exact flexibleElement_pow ty h
  | .qualified ty, _, h => by
    rw [flexibleElement] at h
    exact flexibleElement_pow ty h
  | .void, _, h | .function, _, h | .int _, _, h | .float _, _, h | .complex _, _, h | .pointer, _, h
  | .array _ (some _), _, h | .record _, _, h | .enumeration _, _, h | .atomic _, _, h | .vector _, _, h => by
    rw [flexibleElement] at h
    · cases h
    all_goals nofun

end

/-! ## The record -/

/-- What a C program relies on in the layout of a record whose fields have these shapes. -/
structure WellFormed (union : Bool) (aligned : Option Alignment) (shapes : List Shape) (layout : RecordLayout) :
    Prop where
  placed : layout.fieldOffsets.length = shapes.length
  ordered : union = false → (spans layout.fieldOffsets shapes).Pairwise fun a b => a.stop ≤ b.start
  zero : union = true → ∀ offset ∈ layout.fieldOffsets, offset = 0
  settled : List.Forall₂ Settled layout.fieldOffsets shapes
  inside : ∀ span ∈ spans layout.fieldOffsets shapes, span.stop ≤ layout.size * 8
  whole : layout.align ∣ layout.size
  explicit : explicitOf aligned ≤ layout.align
  counted : ∀ shape ∈ shapes, shape.counted ≤ layout.align

theorem mem_spans {offsets : List ℕ} {shapes : List Shape} {span : Span} (h : span ∈ spans offsets shapes) :
    span.start ∈ offsets ∧ ∃ shape ∈ shapes, span.size = shape.bits := by
  obtain ⟨i, hi, hspan⟩ := List.mem_iff_getElem.mp h
  unfold spans at hi hspan
  rw [List.getElem_zipWith] at hspan
  rw [List.length_zipWith] at hi
  rw [← hspan]
  exact ⟨List.getElem_mem (by omega), _, List.getElem_mem (by omega), rfl⟩

theorem finish_wellFormed {union : Bool} {aligned : Option Alignment} {builder : RecordBuilder} {shapes : List Shape}
    {result : RecordLayout} (hinv : Inv union (explicitOf aligned) builder shapes)
    (h : builder.finish = .ok result) : WellFormed union aligned shapes result := by
  obtain ⟨size, hsize, hresult⟩ := Results.bind_ok h
  obtain ⟨hpos, rfl⟩ := nextMultipleOf_ok hsize
  cases hresult
  have hbytes := hinv.bytes
  have hsize : builder.dataBits / 8 ≤ roundUp (builder.dataBits / 8) builder.align := le_roundUp hpos
  have hdata : builder.dataBits ≤ roundUp (builder.dataBits / 8) builder.align * 8 := by omega
  exact {
    placed := hinv.length
    ordered := fun hkind => (hinv.ordered hkind).pairwise
    zero := hinv.zero
    settled := hinv.settled
    inside := by
      intro span hspan
      cases union with
      | true =>
        obtain ⟨hoffset, shape, hshape, hbits⟩ := mem_spans hspan
        have hstart := hinv.zero rfl _ hoffset
        have hstop := hinv.inside rfl shape hshape
        unfold Span.stop
        dsimp only
        omega
      | false =>
        have hstop := ((hinv.ordered rfl).bounds hspan).2
        dsimp only
        omega
    whole := dvd_roundUp _ _
    explicit := hinv.least_le
    counted := hinv.counted }

/-- The layout of a record is well formed. -/
theorem layOutRecord_wellFormed (kind : RecordKind) (tag : Option String) (fields : List Field)
    (pack : Option Alignment) (packed : Bool) (aligned : Option Alignment) {result : RecordLayout}
    (h : layOutRecord arch spell (.mk kind tag (some fields) pack packed aligned) = .ok result) :
    ∃ shapes, shapesOf arch spell packed (packOf pack) fields = .ok shapes ∧
      WellFormed (kind == .union) aligned shapes result := by
  rw [layOutRecord] at h
  obtain ⟨builder, hfields, hfinish⟩ := Results.bind_ok h
  obtain ⟨shapes, hshapes, hinv⟩ :=
    layOutFields_inv arch spell packed pack fields (inv_empty (kind == .union) aligned) hfields
  exact ⟨shapes, hshapes, finish_wellFormed hinv hfinish⟩

end Layouts

/-- `typedef long long4 __attribute__((aligned(4)));` -/
def long4 : CType := .typedef (.int .long) (some ⟨4, 2, by decide, rfl⟩)

/-- `struct { int x; long4 b : 40; }` -/
def lowered : List Field := [.mk (some "x") (.int .int) none none false, .mk (some "b") long4 (some 40) none false]

/-- `b` is of the shape the record gives it, and in its place. -/
theorem lowered_wellFormed : ∃ shapes, shapesOf .x86_64 (fun _ => "") false (packOf none) lowered = .ok shapes ∧
    WellFormed false none shapes ⟨12, 4, [0, 32]⟩ :=
  layOutRecord_wellFormed .x86_64 (fun _ => "") .struct none lowered none false none rfl

/-- A type of lowered alignment lets a bitfield straddle two of its units. -/
theorem lowered_straddles :
    layOutRecord .x86_64 (fun _ => "") (.mk .struct none (some lowered) none false none) = .ok ⟨12, 4, [0, 32]⟩ ∧
      shapesOf .x86_64 (fun _ => "") false (packOf none) lowered = .ok [.field 4 4, .bitfield {
        width := 40
        storage := ⟨8, 4⟩
        packed := false
        pack := packOf none
        explicitAlign := none
        countsTowardAlignment := true }] ∧ ¬ Whole 32 40 (8 * 8) :=
  ⟨rfl, rfl, by unfold Whole; decide⟩

end Krusty.Native.Cinterop
