import Krusty.Lib.Varint
import Mathlib

/-! Strings as UTF-16 code units. -/
namespace Utf16

open Transcode

def units (c : Char) : List UInt16 :=
  if c.toNat < 0x10000 then [UInt16.ofNat c.toNat]
  else
    let code := c.toNat - 0x10000
    [UInt16.ofNat (0xd800 + code / 0x400), UInt16.ofNat (0xdc00 + code % 0x400)]

def encode (s : String) : List UInt16 := s.toList.flatMap units

theorem units_ne_nil (c : Char) : units c ≠ [] := by
  unfold units
  split_ifs <;> simp

theorem units_toNat (c : Char) : (units c).map UInt16.toNat =
    if c.toNat < 0x10000 then [c.toNat]
    else [0xd800 + (c.toNat - 0x10000) / 0x400, 0xdc00 + (c.toNat - 0x10000) % 0x400] := by
  have hvalid : c.toNat < 0xd800 ∨ 0xdfff < c.toNat ∧ c.toNat < 0x110000 := c.valid
  unfold units
  split_ifs with h
  · rw [List.map_singleton, UInt16.toNat_ofNat', Nat.mod_eq_of_lt h]
  · simp only [List.map_cons, List.map_nil, UInt16.toNat_ofNat']
    rw [Nat.mod_eq_of_lt (by omega), Nat.mod_eq_of_lt (by omega)]

/-- No char is a surrogate, so the first unit tells whether there are two. -/
theorem units_prefixes : Prefixes units := by
  intro c c' rest rest' h
  have hmap := congrArg (List.map UInt16.toNat) h
  have hvalid : c.toNat < 0xd800 ∨ 0xdfff < c.toNat ∧ c.toNat < 0x110000 := c.valid
  have hvalid' : c'.toNat < 0xd800 ∨ 0xdfff < c'.toNat ∧ c'.toNat < 0x110000 := c'.valid
  rw [List.map_append, List.map_append, units_toNat, units_toNat] at hmap
  apply Char.toNat_inj.mp
  split_ifs at hmap <;> simp only [List.cons_append, List.nil_append, List.cons.injEq] at hmap <;> omega

theorem encode_injective : Function.Injective encode := by
  intro s s' h
  have hlist := flatMap_injective units_prefixes units_ne_nil h
  exact String.toList_inj.mp hlist

/-- The char that one unit alone is, unless it is a surrogate. -/
def ofUnit (u : UInt16) : Option Char :=
  if h : u.toNat.isValidChar then some (Char.ofNatAux u.toNat h) else none

def IsHigh (u : UInt16) : Prop := 0xd800 ≤ u.toNat ∧ u.toNat < 0xdc00

def IsLow (u : UInt16) : Prop := 0xdc00 ≤ u.toNat ∧ u.toNat < 0xe000

instance (u : UInt16) : Decidable (IsHigh u) := inferInstanceAs (Decidable (_ ∧ _))

instance (u : UInt16) : Decidable (IsLow u) := inferInstanceAs (Decidable (_ ∧ _))

def ofPair (high low : UInt16) : Char :=
  Char.ofNat (0x10000 + (high.toNat - 0xd800) * 0x400 + (low.toNat - 0xdc00))

/-- The chars that the units encode; `none` when a surrogate is unpaired. -/
def decode : List UInt16 → Option (List Char)
  | [] => some []
  | u :: rest =>
    match ofUnit u with
    | some c => (decode rest).map (c :: ·)
    | none =>
      match rest with
      | [] => none
      | low :: rest => if IsHigh u ∧ IsLow low then (decode rest).map (ofPair u low :: ·) else none

/-- Every surrogate is a high one followed by a low one. -/
inductive WellFormed : List UInt16 → Prop
  | nil : WellFormed []
  | unit {u : UInt16} {rest : List UInt16} (scalar : ¬ (IsHigh u ∨ IsLow u)) (tail : WellFormed rest) :
    WellFormed (u :: rest)
  | pair {high low : UInt16} {rest : List UInt16} (isHigh : IsHigh high) (isLow : IsLow low)
    (tail : WellFormed rest) : WellFormed (high :: low :: rest)

theorem toNat_scalar {n : ℕ} (h : n.isValidChar) : (Char.ofNatAux n h).toNat = n := by
  simp [Char.ofNatAux, Char.toNat]

theorem ofUnit_eq_some {u : UInt16} {c : Char} (h : ofUnit u = some c) :
    units c = [u] ∧ ¬ (IsHigh u ∨ IsLow u) := by
  unfold ofUnit at h
  split_ifs at h with hvalid
  cases Option.some.inj h
  have htoNat : (Char.ofNatAux u.toNat hvalid).toNat = u.toNat := toNat_scalar hvalid
  have hlt : u.toNat < 0x10000 := u.toNat_lt
  constructor
  · unfold units
    rw [htoNat, if_pos hlt, UInt16.ofNat_toNat]
  · unfold Nat.isValidChar at hvalid
    unfold IsHigh IsLow
    omega

theorem ofUnit_eq_none {u : UInt16} (h : ofUnit u = none) : IsHigh u ∨ IsLow u := by
  unfold ofUnit at h
  split_ifs at h with hvalid
  have hlt : u.toNat < 0x10000 := u.toNat_lt
  unfold Nat.isValidChar at hvalid
  unfold IsHigh IsLow
  omega

theorem toNat_ofPair {high low : UInt16} (hhigh : IsHigh high) (hlow : IsLow low) :
    (ofPair high low).toNat = 0x10000 + (high.toNat - 0xd800) * 0x400 + (low.toNat - 0xdc00) := by
  unfold IsHigh at hhigh
  unfold IsLow at hlow
  have hvalid : (0x10000 + (high.toNat - 0xd800) * 0x400 + (low.toNat - 0xdc00)).isValidChar := by
    unfold Nat.isValidChar
    omega
  rw [ofPair, Char.ofNat, dif_pos hvalid]
  exact toNat_scalar hvalid

theorem units_ofPair {high low : UInt16} (hhigh : IsHigh high) (hlow : IsLow low) :
    units (ofPair high low) = [high, low] := by
  have htoNat := toNat_ofPair hhigh hlow
  unfold IsHigh at hhigh
  unfold IsLow at hlow
  have hfirst : 0xd800 + ((ofPair high low).toNat - 0x10000) / 0x400 = high.toNat := by omega
  have hsecond : 0xdc00 + ((ofPair high low).toNat - 0x10000) % 0x400 = low.toNat := by omega
  unfold units
  rw [if_neg (by omega)]
  dsimp only
  rw [hfirst, hsecond, UInt16.ofNat_toNat, UInt16.ofNat_toNat]

theorem decode_units (c : Char) (rest : List UInt16) : decode (units c ++ rest) = (decode rest).map (c :: ·) := by
  have hvalid : c.toNat < 0xd800 ∨ 0xdfff < c.toNat ∧ c.toNat < 0x110000 := c.valid
  by_cases hc : c.toNat < 0x10000
  · have hunits : units c = [UInt16.ofNat c.toNat] := if_pos hc
    have htoNat : (UInt16.ofNat c.toNat).toNat = c.toNat := UInt16.toNat_ofNat_of_lt hc
    have hunit : ofUnit (UInt16.ofNat c.toNat) = some c := by
      have hscalar : (UInt16.ofNat c.toNat).toNat.isValidChar := by
        rw [htoNat]
        exact hvalid
      unfold ofUnit
      rw [dif_pos hscalar, Option.some.injEq]
      apply Char.toNat_inj.mp
      rw [toNat_scalar, htoNat]
    rw [hunits, List.singleton_append, decode.eq_def]
    simp only [hunit]
  · have hnat := units_toNat c
    rw [if_neg hc] at hnat
    obtain ⟨high, low, hunits⟩ : ∃ high low, units c = [high, low] := ⟨_, _, if_neg hc⟩
    rw [hunits] at hnat ⊢
    have htwo : high.toNat = 0xd800 + (c.toNat - 0x10000) / 0x400 ∧
        low.toNat = 0xdc00 + (c.toNat - 0x10000) % 0x400 := by simpa using hnat
    have hhigh : IsHigh high := by unfold IsHigh; omega
    have hlow : IsLow low := by unfold IsLow; omega
    have hnone : ofUnit high = none := by
      cases h : ofUnit high with
      | none => rfl
      | some c' => exact absurd (.inl hhigh) (ofUnit_eq_some h).2
    have hpair : ofPair high low = c := by
      apply Char.toNat_inj.mp
      rw [toNat_ofPair hhigh hlow]
      omega
    have hboth : IsHigh high ∧ IsLow low := ⟨hhigh, hlow⟩
    rw [List.cons_append, List.cons_append, List.nil_append, decode, hnone]
    simp only [if_pos hboth, hpair]

variable {us : List UInt16}

/-- Decoding inverts the encoding. -/
theorem decode_eq_some_iff {cs : List Char} : decode us = some cs ↔ cs.flatMap units = us := by
  constructor
  · intro h
    induction us using decode.induct generalizing cs with
    | case1 =>
      cases Option.some.inj h
      rfl
    | case2 u rest c hunit ih =>
      rw [decode.eq_def] at h
      simp only [hunit] at h
      obtain ⟨cs', hrest, rfl⟩ := Option.map_eq_some_iff.mp h
      rw [List.flatMap_cons, ih hrest, (ofUnit_eq_some hunit).1, List.singleton_append]
    | case3 u hunit => simp [decode, hunit] at h
    | case4 u hunit low rest hboth ih =>
      simp only [decode, hunit, if_pos hboth] at h
      obtain ⟨cs', hrest, rfl⟩ := Option.map_eq_some_iff.mp h
      rw [List.flatMap_cons, ih hrest, units_ofPair hboth.1 hboth.2]
      rfl
    | case5 u hunit low rest hnot => simp [decode, hunit, hnot] at h
  · rintro rfl
    induction cs with
    | nil => rfl
    | cons c cs ih => rw [List.flatMap_cons, decode_units, ih, Option.map_some]

theorem wellFormed_iff : WellFormed us ↔ (decode us).isSome := by
  induction us using decode.induct with
  | case1 => simp [decode, WellFormed.nil]
  | case2 u rest c hunit ih =>
    rw [decode.eq_def]
    simp only [hunit, Option.isSome_map, ← ih]
    have hscalar := (ofUnit_eq_some hunit).2
    constructor
    · intro h
      cases h with
      | unit _ htail => exact htail
      | pair hhigh _ _ => exact absurd (.inl hhigh) hscalar
    · exact .unit hscalar
  | case3 u hunit =>
    have hsurrogate := ofUnit_eq_none hunit
    simp only [decode, hunit, Option.isSome_none, Bool.false_eq_true, iff_false]
    intro h
    cases h with
    | unit hscalar _ => exact hscalar hsurrogate
  | case4 u hunit low rest hboth ih =>
    have hsurrogate := ofUnit_eq_none hunit
    simp only [decode, hunit, if_pos hboth, Option.isSome_map, ← ih]
    constructor
    · intro h
      cases h with
      | unit hscalar _ => exact absurd hsurrogate hscalar
      | pair _ _ htail => exact htail
    · exact .pair hboth.1 hboth.2
  | case5 u hunit low rest hnot =>
    have hsurrogate := ofUnit_eq_none hunit
    simp only [decode, hunit, if_neg hnot, Option.isSome_none, Bool.false_eq_true, iff_false]
    intro h
    cases h with
    | unit hscalar _ => exact hscalar hsurrogate
    | pair hhigh hlow _ => exact hnot ⟨hhigh, hlow⟩

/-- `String::from_utf16`: the string that the units encode. -/
def toString? (us : List UInt16) : Option String := (decode us).map String.ofList

theorem toString?_eq_some_iff {s : String} : toString? us = some s ↔ encode s = us := by
  unfold toString? encode
  rw [Option.map_eq_some_iff]
  constructor
  · rintro ⟨cs, hcs, rfl⟩
    rw [String.toList_ofList]
    exact decode_eq_some_iff.mp hcs
  · intro h
    exact ⟨s.toList, decode_eq_some_iff.mpr h, String.ofList_toList⟩

theorem isSome_toString? : (toString? us).isSome ↔ WellFormed us := by
  rw [wellFormed_iff, toString?, Option.isSome_map]

end Utf16
