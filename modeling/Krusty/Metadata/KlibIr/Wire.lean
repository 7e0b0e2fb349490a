import Krusty.Metadata.Decode.Wire

/-! The varints of serialized KLIB IR, and where their reader parts from the metadata decoders'. -/
namespace Krusty.Metadata.KlibIr

inductive KlibIrDecodeError where
  | malformed (entry : String) (offset : ℕ) (detail : String)

/-- The loop of `varint` over the shifts `0, 7, ..., 63`, over the bytes from the cursor on. -/
def varintFrom (entry : String) (offset : ℕ) (context : String) :
    List UInt8 → UInt64 → ℕ → ℕ → Except KlibIrDecodeError (UInt64 × ℕ)
  | [], _, _, _ => .error (.malformed entry offset ("truncated " ++ context))
  | byte :: rest, value, shift, cursor =>
    if shift = 63 ∧ 1 < byte then .error (.malformed entry offset ("overflowing " ++ context))
    else
      let value := value ||| (byte &&& 0x7f).toUInt64 <<< UInt64.ofNat shift
      if byte &&& 0x80 = 0 then .ok (value, cursor + 1)
      else if 63 < shift + 7 then .error (.malformed entry offset ("overflowing " ++ context))
      else varintFrom entry offset context rest value (shift + 7) (cursor + 1)

def varint (bytes : List UInt8) (cursor : ℕ) (entry : String) (base : ℕ) (context : String) :
    Except KlibIrDecodeError (UInt64 × ℕ) :=
  varintFrom entry (base + cursor) context (bytes.drop cursor) 0 0 cursor

section Varint

variable {entry context : String} {offset : ℕ} {l : List UInt8} {k i : ℕ}

/-- A number is read whenever at most ten bytes spell it and it fits 64 bits. -/
theorem varintFrom_eq (hk : k ≤ 9) {v : UInt64} (hv : v.toNat < 2 ^ (7 * k)) :
    (varintFrom entry offset context l v (7 * k) i).toOption =
      ((Varint.code? l).filter fun code =>
        code.length + k ≤ 10 ∧ v.toNat + 2 ^ (7 * k) * Varint.value code < 2 ^ 64).map fun code =>
      (UInt64.ofNat (v.toNat + 2 ^ (7 * k) * Varint.value code), i + code.length) := by
  induction l generalizing k v i with
  | nil => rfl
  | cons b rest ih =>
    have hgroup : v ||| (b &&& 0x7f).toUInt64 <<< UInt64.ofNat (7 * k) = Varint.pushGroup v k b := rfl
    unfold varintFrom Varint.code?
    simp only [hgroup, Varint.highBit_eq_zero_iff]
    by_cases htenth : k = 9
    · -- the tenth byte has one bit left for it
      subst htenth
      split
      next hover =>
        have hb : 2 ≤ b.toNat := UInt8.lt_iff_toNat_lt.mp hover.2
        have hnone : ∀ code ∈ if b.toNat < 128 then some [b] else (Varint.code? rest).map (b :: ·),
            ¬ (code.length + 9 ≤ 10 ∧ v.toNat + 2 ^ (7 * 9) * Varint.value code < 2 ^ 64) := by
          intro code hcode
          split at hcode
          next hlast =>
            cases hcode
            simp only [Varint.value, List.length_singleton]
            omega
          next hmore =>
            obtain ⟨tail, htail, rfl⟩ := Option.map_eq_some_iff.mp hcode
            have hpos := List.length_pos_iff.mpr (Varint.code?_ne_nil htail)
            rw [List.length_cons]
            omega
        rw [Option.filter_eq_none_iff.mpr fun code hcode => by simpa using hnone code hcode]
        rfl
      next hunder =>
        have hb : b.toNat ≤ 1 := by
          by_contra hlarge
          exact hunder ⟨rfl, UInt8.lt_iff_toNat_lt.mpr (by simpa using hlarge)⟩
        have hlast : b.toNat < 128 := by omega
        have hfits : v.toNat + 2 ^ (7 * 9) * Varint.value [b] < 2 ^ 64 := by
          simp only [Varint.value]
          omega
        have hsame : v.toNat + 2 ^ (7 * 9) * (b.toNat % 128) = v.toNat + 2 ^ (7 * 9) * Varint.value [b] := by
          simp [Varint.value]
        rw [if_pos hlast, if_pos hlast, Varint.pushGroup_eq b (by decide) hv, hsame]
        simp only [Option.filter_some, List.length_singleton, hfits, and_true, Nat.reduceAdd, le_refl,
          decide_true, if_true, Option.map_some]
        rfl
    · obtain ⟨hvalue, hlt⟩ := Varint.pushGroup_toNat b (show k ≤ 8 by omega) hv
      have hfits : 2 ^ (7 * (k + 1)) ≤ 2 ^ 64 := Nat.pow_le_pow_right (by decide) (by omega)
      have hshift : 7 * k + 7 = 7 * (k + 1) := by ring
      rw [if_neg (by omega)]
      split
      next hlast =>
        have hsame : v.toNat + 2 ^ (7 * k) * (b.toNat % 128) = v.toNat + 2 ^ (7 * k) * Varint.value [b] := by
          simp [Varint.value]
        have hle : [b].length + k ≤ 10 := by
          rw [List.length_singleton]
          omega
        have hsmall : v.toNat + 2 ^ (7 * k) * Varint.value [b] < 2 ^ 64 := by omega
        rw [Varint.pushGroup_eq b hk hv, hsame]
        simp only [Option.filter_some, hle, hsmall, and_true, decide_true, if_true, Option.map_some]
        rfl
      next hmore =>
        rw [if_neg (by omega), hshift, ih (by omega) hlt, hvalue]
        cases hcode : Varint.code? rest with
        | none => rfl
        | some code =>
          have hlength : code.length + (k + 1) ≤ 10 ↔ (b :: code).length + k ≤ 10 := by
            rw [List.length_cons]
            omega
          have hend : i + 1 + code.length = i + (b :: code).length := by
            rw [List.length_cons]
            omega
          simp only [Option.map_some, Option.filter_some, hlength, Varint.add_value_cons, hend,
            apply_ite (Option.map _), Option.map_none]

end Varint

/-! ## The two readers -/

section Agreement

open Decode

/-- Nine bytes that ask for another, and a tenth that ends the number with more than its one bit. -/
def Overlong (bytes : List UInt8) (start : ℕ) : Prop :=
  (∀ k < 9, ∃ b, bytes[start + k]? = some b ∧ 0x80 ≤ b.toNat) ∧
    ∃ b, bytes[start + 9]? = some b ∧ 2 ≤ b.toNat ∧ b.toNat ≤ 0x7f

/-- The two readers at one position: both reject, or both accept the same value and end. -/
def Agree (bytes : List UInt8) (start : ℕ) (entry : String) (base : ℕ) (context : String) : Prop :=
  Pb.varint { b := bytes, i := start } = none ∧ (∃ e, varint bytes start entry base context = .error e) ∨
    ∃ v stop, Pb.varint { b := bytes, i := start } = some (v, { b := bytes, i := stop }) ∧
      varint bytes start entry base context = .ok (v, stop)

/-- The number that a stretch of bytes spells fits 64 bits. -/
def Fits (bytes : List UInt8) (start stop : ℕ) : Prop :=
  Varint.value ((bytes.drop start).take (stop - start)) < 2 ^ 64

variable {bytes : List UInt8} {start : ℕ}

theorem overlong_iff : Overlong bytes start ↔
    ∃ code, Varint.code? (bytes.drop start) = some code ∧ code.length ≤ 10 ∧ 2 ^ 64 ≤ Varint.value code := by
  unfold Overlong
  simp only [← List.getElem?_drop]
  generalize bytes.drop start = l
  constructor
  · rintro ⟨hnine, last, hlast, hlo, hhi⟩
    have hten : 9 < l.length := (List.getElem?_eq_some_iff.mp hlast).1
    have hsplit : l = l.take 9 ++ last :: l.drop 10 := by
      have hget : l[9] = last := (List.getElem?_eq_some_iff.mp hlast).2
      rw [← hget, ← List.drop_eq_getElem_cons hten, List.take_append_drop]
    have hinit : ∀ b ∈ l.take 9, 128 ≤ b.toNat := by
      intro b hb
      obtain ⟨k, hk⟩ := List.mem_iff_getElem?.mp hb
      rw [List.getElem?_take] at hk
      split at hk
      next hlt =>
        obtain ⟨b', hb', hge⟩ := hnine k hlt
        rw [hk] at hb'
        cases hb'
        exact hge
      next => cases hk
    have htake : (l.take 9).length = 9 := by
      rw [List.length_take]
      omega
    refine ⟨l.take 9 ++ [last], ?_, ?_, ?_⟩
    · have hcode : Varint.code? (l.take 9 ++ last :: l.drop 10) = some (l.take 9 ++ [last]) :=
        Varint.code?_append_cons hinit (by omega)
      rwa [← hsplit] at hcode
    · rw [List.length_append, htake, List.length_singleton]
    · rw [Varint.value_concat, htake]
      omega
  · rintro ⟨code, hcode, hlen, hvalue⟩
    obtain ⟨rest, rfl⟩ := Varint.code?_eq_append hcode
    obtain ⟨init, last, rfl, hinit, hlast⟩ := Varint.exists_init_of_code? hcode
    rw [List.length_append, List.length_singleton] at hlen
    have hbound := Varint.value_lt init
    rw [Varint.value_concat] at hvalue
    -- nine groups fit below `2 ^ 63`, so fewer than ten cannot reach `2 ^ 64`
    have hlength : init.length = 9 := by
      by_contra hne
      have hpow : 128 ^ init.length ≤ 128 ^ 8 := Nat.pow_le_pow_right (by decide) (by omega)
      have hmul : 128 ^ init.length * (last.toNat % 128) ≤ 128 ^ 8 * 127 :=
        Nat.mul_le_mul hpow (by omega)
      omega
    rw [hlength] at hbound hvalue
    refine ⟨fun k hk => ?_, last, ?_, by omega, by omega⟩
    · refine ⟨init.get ⟨k, by omega⟩, ?_, hinit _ (List.get_mem _ _)⟩
      simp [List.getElem?_append, hlength, hk]
    · simp [hlength]

theorem varint_eq (entry : String) (base : ℕ) (context : String) :
    (varint bytes start entry base context).toOption =
      ((Varint.code? (bytes.drop start)).filter fun code =>
        code.length ≤ 10 ∧ Varint.value code < 2 ^ 64).map fun code =>
      (UInt64.ofNat (Varint.value code), start + code.length) := by
  have hfrom : (varintFrom entry (base + start) context (bytes.drop start) 0 (7 * 0) start).toOption = _ :=
    varintFrom_eq (by decide) (by decide)
  unfold varint
  simpa using hfrom

theorem fits_iff {code : List UInt8} (h : Varint.code? (bytes.drop start) = some code) :
    Fits bytes start (start + code.length) ↔ Varint.value code < 2 ^ 64 := by
  obtain ⟨rest, hrest⟩ := Varint.code?_eq_append h
  unfold Fits
  rw [hrest, Nat.add_sub_cancel_left, List.take_left]

theorem toOption_eq_none_iff {α ε : Type} {x : Except ε α} : x.toOption = none ↔ ∃ e, x = .error e := by
  cases x <;> simp [Except.toOption]

theorem toOption_eq_some_iff {α ε : Type} {x : Except ε α} {a : α} : x.toOption = some a ↔ x = .ok a := by
  cases x <;> simp [Except.toOption]

/-- The readers agree, and accept only numbers of 64 bits, exactly where the bytes are not overlong: the
metadata reader drops the bits of a tenth byte that do not fit. -/
theorem varint_agree_iff (bytes : List UInt8) (start : ℕ) (entry : String) (base : ℕ) (context : String) :
    (Agree bytes start entry base context ∧
      (∀ v p, Pb.varint { b := bytes, i := start } = some (v, p) → Fits bytes start p.i) ∧
      (∀ v stop, varint bytes start entry base context = .ok (v, stop) → Fits bytes start stop)) ↔
    ¬ Overlong bytes start := by
  have hmeta := Pb.varint_eq { b := bytes, i := start }
  have hklib := @varint_eq bytes start entry base context
  rw [overlong_iff]
  unfold Agree
  simp only [← toOption_eq_none_iff, ← toOption_eq_some_iff, hmeta, hklib]
  cases hcode : Varint.code? (bytes.drop start) with
  | none => simp
  | some code =>
    have hfits := fits_iff hcode
    by_cases hlen : code.length ≤ 10
    · by_cases hvalue : Varint.value code < 2 ^ 64
      · simp [hlen, hfits]
        omega
      · simp [hlen]
        omega
    · simp [hlen]
      omega

/-- Nine groups of zeros and a tenth of two: the metadata reader reads zero. -/
theorem varint_disagree :
    Pb.varint { b := List.replicate 9 0x80 ++ [0x02], i := 0 } =
      some (0, { b := List.replicate 9 0x80 ++ [0x02], i := 10 }) ∧
    varint (List.replicate 9 0x80 ++ [0x02]) 0 "default/ir/types.knt" 0 "field tag" =
      .error (.malformed "default/ir/types.knt" 0 "overflowing field tag") ∧
    ¬ Fits (List.replicate 9 0x80 ++ [0x02]) 0 10 := by
  refine ⟨rfl, rfl, ?_⟩
  unfold Fits
  decide

end Agreement

end Krusty.Metadata.KlibIr
