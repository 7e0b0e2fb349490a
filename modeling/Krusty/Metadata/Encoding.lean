import Krusty.Lib.Utf16

/-! `@Metadata.d1` encoding and the class file's modified UTF-8. -/
namespace Krusty.Metadata

open Transcode

/-- The modified-UTF-8 size at which a part is closed. -/
def d1PartCloseSize : ℕ := 65534

/-- The loop of `bytesToStrings`: the closed parts, the open one and its modified-UTF-8 size. -/
structure Parts where
  out : List String
  cur : String
  len : ℕ

def Parts.append (p : Parts) (b : UInt8) : Parts :=
  let cur := p.cur.push (Char.ofUInt8 b)
  -- U+0000 is `C0 80`
  let len := p.len + if 1 ≤ b ∧ b ≤ 0x7f then 1 else 2
  if d1PartCloseSize ≤ len then { out := p.out ++ [cur], cur := "", len := 0 }
  else { out := p.out, cur, len }

/-- Protobuf bytes as the strings of `d1`, each byte the char of the same value. -/
def bytesToStrings (bytes : List UInt8) : List String :=
  let p := bytes.foldl Parts.append { out := [], cur := "", len := 0 }
  if p.cur = "" then p.out else p.out ++ [p.cur]

/-- Each char's low byte. -/
def stringsToBytes (strings : List String) : List UInt8 :=
  strings.flatMap fun s => s.toList.map Char.toUInt8

def modifiedUtf8Unit (unit : UInt16) : List UInt8 :=
  let u := unit.toUInt32
  if 0x0001 ≤ u ∧ u ≤ 0x007f then [u.toUInt8]
  else if u = 0 ∨ 0x0080 ≤ u ∧ u ≤ 0x07ff then
    [(0xc0 : UInt8) ||| (u >>> 6).toUInt8, (0x80 : UInt8) ||| (u &&& 0x3f).toUInt8]
  else
    [(0xe0 : UInt8) ||| (u >>> 12).toUInt8, (0x80 : UInt8) ||| ((u >>> 6) &&& 0x3f).toUInt8,
      (0x80 : UInt8) ||| (u &&& 0x3f).toUInt8]

/-- Modified UTF-8 for a sequence of UTF-16 code units, an unpaired surrogate among them. -/
def modifiedUtf8Units (units : List UInt16) : List UInt8 := units.flatMap modifiedUtf8Unit

def modifiedUtf8 (s : String) : List UInt8 := modifiedUtf8Units (Utf16.encode s)

/-! ## Modified UTF-8 -/

section Units

variable (unit : UInt16)

theorem toNat_sixBits (u : UInt32) : ((0x80 : UInt8) ||| (u &&& 0x3f).toUInt8).toNat = 0x80 + u.toNat % 64 := by
  have hlow : (u &&& 0x3f).toNat = u.toNat % 64 := by
    rw [UInt32.toNat_and]
    exact Nat.and_two_pow_sub_one_eq_mod u.toNat 6
  have hlt : u.toNat % 64 < 2 ^ 6 := Nat.mod_lt _ (by decide)
  have hbyte : (u &&& 0x3f).toUInt8.toNat = u.toNat % 64 := by
    rw [UInt32.toNat_toUInt8, hlow]
    omega
  rw [UInt8.toNat_or, hbyte]
  exact (Nat.two_pow_add_eq_or_of_lt hlt 2).symm

theorem toNat_shiftRight (u : UInt32) (k : ℕ) (hk : k < 32) :
    (u >>> UInt32.ofNat k).toNat = u.toNat / 2 ^ k := by
  rw [UInt32.toNat_shiftRight, UInt32.toNat_ofNat', Nat.shiftRight_eq_div_pow]
  congr 2
  omega

/-- The bytes of a unit as numbers: one, two or three of them by the unit's size. -/
theorem modifiedUtf8Unit_toNat : (modifiedUtf8Unit unit).map UInt8.toNat =
    if 1 ≤ unit.toNat ∧ unit.toNat ≤ 0x7f then [unit.toNat]
    else if unit.toNat = 0 ∨ 0x80 ≤ unit.toNat ∧ unit.toNat ≤ 0x7ff then
      [0xc0 + unit.toNat / 64, 0x80 + unit.toNat % 64]
    else [0xe0 + unit.toNat / 4096, 0x80 + unit.toNat / 64 % 64, 0x80 + unit.toNat % 64] := by
  have hlt := unit.toNat_lt
  have hu : unit.toUInt32.toNat = unit.toNat := by simp
  have h6 : (unit.toUInt32 >>> 6).toNat = unit.toNat / 64 := by
    rw [← hu]
    exact toNat_shiftRight _ 6 (by decide)
  have h12 : (unit.toUInt32 >>> 12).toNat = unit.toNat / 4096 := by
    rw [← hu]
    exact toNat_shiftRight _ 12 (by decide)
  unfold modifiedUtf8Unit
  simp only [UInt32.le_iff_toNat_le, ← UInt32.toNat_inj, hu, UInt32.reduceToNat]
  split_ifs with hone htwo
  · rw [List.map_singleton, UInt32.toNat_toUInt8, hu, Nat.mod_eq_of_lt (by omega)]
  · have hlead : ((0xc0 : UInt8) ||| (unit.toUInt32 >>> 6).toUInt8).toNat = 0xc0 + unit.toNat / 64 := by
      have hsmall : unit.toNat / 64 < 2 ^ 5 := by omega
      rw [UInt8.toNat_or, UInt32.toNat_toUInt8, h6, Nat.mod_eq_of_lt (by omega)]
      exact (Nat.two_pow_add_eq_or_of_lt hsmall 6).symm
    simp only [List.map_cons, List.map_nil, hlead, toNat_sixBits, hu]
  · have hlead : ((0xe0 : UInt8) ||| (unit.toUInt32 >>> 12).toUInt8).toNat = 0xe0 + unit.toNat / 4096 := by
      have hsmall : unit.toNat / 4096 < 2 ^ 4 := by omega
      rw [UInt8.toNat_or, UInt32.toNat_toUInt8, h12, Nat.mod_eq_of_lt (by omega)]
      exact (Nat.two_pow_add_eq_or_of_lt hsmall 14).symm
    simp only [List.map_cons, List.map_nil, hlead, toNat_sixBits, hu, h6]

theorem modifiedUtf8Unit_ne_nil : modifiedUtf8Unit unit ≠ [] := by
  unfold modifiedUtf8Unit
  dsimp only
  split_ifs <;> simp

theorem zero_notMem_modifiedUtf8Unit : 0 ∉ modifiedUtf8Unit unit := by
  intro hmem
  have hzero : 0 ∈ (modifiedUtf8Unit unit).map UInt8.toNat := List.mem_map_of_mem hmem
  rw [modifiedUtf8Unit_toNat] at hzero
  split_ifs at hzero <;> simp at hzero <;> omega

/-- The first byte tells how many there are, and the bytes tell the unit. -/
theorem modifiedUtf8Unit_prefixes : Prefixes modifiedUtf8Unit := by
  intro unit unit' rest rest' h
  have hmap := congrArg (List.map UInt8.toNat) h
  have hlt := unit.toNat_lt
  have hlt' := unit'.toNat_lt
  rw [List.map_append, List.map_append, modifiedUtf8Unit_toNat, modifiedUtf8Unit_toNat] at hmap
  apply UInt16.toNat_inj.mp
  split_ifs at hmap <;> simp only [List.cons_append, List.nil_append, List.cons.injEq] at hmap <;> omega

end Units

theorem modifiedUtf8Units_injective : Function.Injective modifiedUtf8Units :=
  flatMap_injective modifiedUtf8Unit_prefixes modifiedUtf8Unit_ne_nil

theorem modifiedUtf8_injective : Function.Injective modifiedUtf8 :=
  modifiedUtf8Units_injective.comp Utf16.encode_injective

theorem zero_notMem_modifiedUtf8Units (units : List UInt16) : 0 ∉ modifiedUtf8Units units := by
  unfold modifiedUtf8Units
  rw [List.mem_flatMap]
  rintro ⟨unit, -, hmem⟩
  exact zero_notMem_modifiedUtf8Unit unit hmem

/-! ## The parts of `d1` -/

theorem modifiedUtf8_push (s : String) (b : UInt8) :
    (modifiedUtf8 (s.push (Char.ofUInt8 b))).length =
      (modifiedUtf8 s).length + if 1 ≤ b ∧ b ≤ 0x7f then 1 else 2 := by
  have hb := b.toNat_lt
  have hunits : Utf16.units (Char.ofUInt8 b) = [UInt16.ofNat b.toNat] := by
    have hchar : (Char.ofUInt8 b).toNat = b.toNat := by simp [Char.toNat, Char.ofUInt8]
    unfold Utf16.units
    rw [hchar, if_pos (by omega)]
  have hbytes : (modifiedUtf8Unit (UInt16.ofNat b.toNat)).length = if 1 ≤ b ∧ b ≤ 0x7f then 1 else 2 := by
    have hunit : (UInt16.ofNat b.toNat).toNat = b.toNat := by
      rw [UInt16.toNat_ofNat', Nat.mod_eq_of_lt (by omega)]
    rw [← List.length_map UInt8.toNat, modifiedUtf8Unit_toNat, hunit]
    simp only [UInt8.le_iff_toNat_le, UInt8.reduceToNat]
    split_ifs <;> first | rfl | omega
  unfold modifiedUtf8 modifiedUtf8Units Utf16.encode
  rw [String.toList_push, List.flatMap_append, List.flatMap_append, List.length_append,
    List.flatMap_singleton, hunits, List.flatMap_singleton, hbytes]

/-- The loop's invariant, after some bytes: they are what the parts hold, no part is over the limit and no
closed part is empty. -/
structure Parts.Holds (p : Parts) (bytes : List UInt8) : Prop where
  bytes_eq : stringsToBytes (p.out ++ [p.cur]) = bytes
  len_eq : p.len = (modifiedUtf8 p.cur).length
  len_lt : p.len < d1PartCloseSize
  out : ∀ part ∈ p.out, part ≠ "" ∧ (modifiedUtf8 part).length ≤ 65535

theorem Parts.Holds.append {p : Parts} {bytes : List UInt8} (h : p.Holds bytes) (b : UInt8) :
    (p.append b).Holds (bytes ++ [b]) := by
  have hpush := modifiedUtf8_push p.cur b
  have hbytes : stringsToBytes (p.out ++ [p.cur.push (Char.ofUInt8 b)]) = bytes ++ [b] := by
    have hchar : (Char.ofUInt8 b).toUInt8 = b := by simp [Char.toUInt8, Char.ofUInt8]
    rw [← h.bytes_eq]
    unfold stringsToBytes
    simp [String.toList_push, hchar]
  have hlen := h.len_lt
  unfold d1PartCloseSize at hlen
  unfold Parts.append
  rw [h.len_eq, ← hpush]
  rw [h.len_eq] at hlen
  have hle : (modifiedUtf8 (p.cur.push (Char.ofUInt8 b))).length ≤ 65535 := by
    rw [hpush]
    split_ifs <;> omega
  dsimp only
  split_ifs with hclose
  · refine ⟨?_, rfl, Nat.zero_lt_succ _, ?_⟩
    · rw [← hbytes]
      unfold stringsToBytes
      simp
    · intro part hpart
      rcases List.mem_append.mp hpart with hold | hnew
      · exact h.out part hold
      · rw [List.mem_singleton.mp hnew]
        refine ⟨?_, hle⟩
        intro hempty
        simpa using congrArg String.toList hempty
  · exact ⟨hbytes, rfl, by simpa using hclose, h.out⟩

theorem Parts.Holds.run {p : Parts} {front : List UInt8} (h : p.Holds front) (bytes : List UInt8) :
    (bytes.foldl Parts.append p).Holds (front ++ bytes) := by
  induction bytes generalizing p front with
  | nil => simpa using h
  | cons b bytes ih =>
    have hstep := ih (h.append b)
    rwa [List.append_assoc] at hstep

theorem parts_holds (bytes : List UInt8) :
    (bytes.foldl Parts.append { out := [], cur := "", len := 0 }).Holds bytes := by
  have hstart : Parts.Holds { out := [], cur := "", len := 0 } [] := ⟨rfl, rfl, by decide, by simp⟩
  exact hstart.run bytes

theorem stringsToBytes_bytesToStrings (bytes : List UInt8) :
    stringsToBytes (bytesToStrings bytes) = bytes := by
  have h := parts_holds bytes
  unfold bytesToStrings
  dsimp only
  split_ifs with hempty
  · have hbytes := h.bytes_eq
    rw [hempty] at hbytes
    unfold stringsToBytes at hbytes ⊢
    simpa using hbytes
  · exact h.bytes_eq

theorem bytesToStrings_parts {bytes : List UInt8} {part : String} (hpart : part ∈ bytesToStrings bytes) :
    part ≠ "" ∧ (modifiedUtf8 part).length ≤ 65535 := by
  have h := parts_holds bytes
  have hlt := h.len_lt
  rw [h.len_eq] at hlt
  unfold d1PartCloseSize at hlt
  unfold bytesToStrings at hpart
  dsimp only at hpart
  split_ifs at hpart with hempty
  · exact h.out part hpart
  · rcases List.mem_append.mp hpart with hold | hnew
    · exact h.out part hold
    · rw [List.mem_singleton.mp hnew]
      exact ⟨hempty, by omega⟩

/-- The strings of `d1` give their bytes back, each fits a class file's `Utf8` and none is empty; and no
sequence of units, so no string, has a zero byte or shares its modified UTF-8 with another. -/
theorem metadata_strings :
    (∀ bytes, stringsToBytes (bytesToStrings bytes) = bytes) ∧
    (∀ bytes, ∀ part ∈ bytesToStrings bytes, (modifiedUtf8 part).length ≤ 65535) ∧
    (∀ bytes, bytes ≠ [] → bytesToStrings bytes ≠ [] ∧ ∀ part ∈ bytesToStrings bytes, part ≠ "") ∧
    (∀ units, 0 ∉ modifiedUtf8Units units) ∧ Function.Injective modifiedUtf8Units ∧
    (∀ s, 0 ∉ modifiedUtf8 s) ∧ Function.Injective modifiedUtf8 := by
  refine ⟨stringsToBytes_bytesToStrings, fun bytes part h => (bytesToStrings_parts h).2, ?_,
    zero_notMem_modifiedUtf8Units, modifiedUtf8Units_injective,
    fun s => zero_notMem_modifiedUtf8Units _, modifiedUtf8_injective⟩
  intro bytes hne
  refine ⟨fun hnone => hne ?_, fun part h => (bytesToStrings_parts h).1⟩
  rw [← stringsToBytes_bytesToStrings bytes, hnone]
  rfl

end Krusty.Metadata
