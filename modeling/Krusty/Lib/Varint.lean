import Krusty.Lib.Bytes
import Mathlib.Logic.Function.Basic
import Mathlib.Algebra.Order.Ring.Nat
import Mathlib.Data.Nat.Bits

/-! Reading items off the front of a byte list, and sequences of codes none of which starts another. -/
namespace Transcode

section Codes

variable {α β : Type} {code : α → List β}

/-- What is read off the front is determined by what stands there. -/
def Prefixes (code : α → List β) : Prop :=
  ∀ a b rest rest', code a ++ rest = code b ++ rest' → a = b

theorem flatMap_injective (hcode : Prefixes code) (hne : ∀ a, code a ≠ []) :
    Function.Injective fun items : List α => items.flatMap code := by
  intro items items' h
  induction items generalizing items' with
  | nil =>
    cases items' with
    | nil => rfl
    | cons b items' => exact absurd (List.append_eq_nil_iff.mp h.symm).1 (hne b)
  | cons a items ih =>
    cases items' with
    | nil => exact absurd (List.append_eq_nil_iff.mp h).1 (hne a)
    | cons b items' =>
      simp only [List.flatMap_cons] at h
      obtain rfl := hcode a b _ _ h
      rw [ih (List.append_cancel_left h)]

end Codes

section Take

def takeU1 : List UInt8 → Option (UInt8 × List UInt8)
  | [] => none
  | b :: rest => some (b, rest)

def takeU2 : List UInt8 → Option (UInt16 × List UInt8)
  | hi :: lo :: rest => some (UInt16.ofNat (Bytes.beNat [hi, lo]), rest)
  | _ => none

/-- `n` items in a row, each read by `take`. -/
def takeMany {α : Type} (take : List UInt8 → Option (α × List UInt8)) :
    ℕ → List UInt8 → Option (List α × List UInt8)
  | 0, bytes => some ([], bytes)
  | n + 1, bytes => do
    let (item, rest) ← take bytes
    let (items, rest) ← takeMany take n rest
    return (item :: items, rest)

variable {rest : List UInt8}

@[simp] theorem takeU1_cons (b : UInt8) : takeU1 (b :: rest) = some (b, rest) := rfl

@[simp] theorem takeU2_u2Bytes (x : UInt16) :
    takeU2 (Bytes.u2Bytes x ++ rest) = some (x, rest) := by
  have hx : Bytes.beNat (Bytes.beBytes 2 x.toNat) = x.toNat := by
    have hlt : x.toNat < 256 ^ 2 := x.toNat_lt
    rw [Bytes.beNat_beBytes, Nat.mod_eq_of_lt hlt]
  have ht : takeU2 (Bytes.u2Bytes x ++ rest) =
      some (UInt16.ofNat (Bytes.beNat (Bytes.beBytes 2 x.toNat)), rest) := rfl
  rw [ht, hx, UInt16.ofNat_toNat]

theorem takeMany_cons {α : Type} {take : List UInt8 → Option (α × List UInt8)} {n : ℕ}
    {bytes rest rest' : List UInt8} {item : α} {items : List α}
    (hitem : take bytes = some (item, rest)) (hitems : takeMany take n rest = some (items, rest')) :
    takeMany take (n + 1) bytes = some (item :: items, rest') := by
  simp only [takeMany, hitem, Option.bind_eq_bind, Option.bind_some, hitems]
  rfl

theorem takeMany_one {α : Type} {take : List UInt8 → Option (α × List UInt8)} {bytes : List UInt8}
    {items : List α} (h : ∀ rest, takeMany take 1 (bytes ++ rest) = some (items, rest)) :
    ∃ item, items = [item] ∧ ∀ rest, take (bytes ++ rest) = some (item, rest) := by
  have hone : ∀ input, takeMany take 1 input = (take input).map fun r => ([r.1], r.2) := by
    intro input
    cases htake : take input <;> simp [takeMany, htake]
  simp only [hone, Option.map_eq_some_iff, Prod.mk.injEq] at h
  obtain ⟨first, _, hitems, _⟩ := h []
  refine ⟨first.1, hitems.symm, ?_⟩
  intro rest
  obtain ⟨⟨item, rest'⟩, htake, hitem, hrest⟩ := h rest
  have heq : item = first.1 := by simpa using hitem.trans hitems.symm
  rw [htake, heq, ← hrest]

end Take

end Transcode

/-! Base-128 numbers, lowest group first, every byte but the last with its high bit set. -/
namespace Varint

open Transcode

/-- The number that groups of seven bits stand for. -/
def value : List UInt8 → ℕ
  | [] => 0
  | b :: rest => b.toNat % 128 + 128 * value rest

/-- The shortest bytes of a number. -/
def encode (n : ℕ) : List UInt8 :=
  if n < 128 then [UInt8.ofNat n] else UInt8.ofNat (n % 128 + 128) :: encode (n / 128)
termination_by n
decreasing_by omega

/-- The bytes of the number at the front, up to the first without its high bit. -/
def code? : List UInt8 → Option (List UInt8)
  | [] => none
  | b :: rest => if b.toNat < 128 then some [b] else (code? rest).map (b :: ·)

section Code

variable {bytes code rest : List UInt8}

theorem code?_ne_nil (h : code? bytes = some code) : code ≠ [] := by
  cases bytes with
  | nil => cases h
  | cons b bytes =>
    unfold code? at h
    split at h
    · cases h
      simp
    · obtain ⟨tail, -, rfl⟩ := Option.map_eq_some_iff.mp h
      simp

theorem code?_eq_append (h : code? bytes = some code) : ∃ rest, bytes = code ++ rest := by
  induction bytes generalizing code with
  | nil => cases h
  | cons b bytes ih =>
    unfold code? at h
    split at h
    · cases h
      exact ⟨bytes, rfl⟩
    · obtain ⟨tail, htail, rfl⟩ := Option.map_eq_some_iff.mp h
      obtain ⟨rest, rfl⟩ := ih htail
      exact ⟨rest, rfl⟩

/-- Bytes that ask for another, and one that does not. -/
theorem code?_append_cons {init : List UInt8} {last : UInt8} (hinit : ∀ b ∈ init, 128 ≤ b.toNat)
    (hlast : last.toNat < 128) : code? (init ++ last :: rest) = some (init ++ [last]) := by
  induction init with
  | nil => simp [code?, hlast]
  | cons b init ih =>
    have hb := hinit b List.mem_cons_self
    have htail := ih fun other hother => hinit other (List.mem_cons_of_mem _ hother)
    rw [List.cons_append, code?, if_neg (by omega), htail]
    rfl

theorem exists_init_of_code? (h : code? bytes = some code) :
    ∃ init last, code = init ++ [last] ∧ (∀ b ∈ init, 128 ≤ b.toNat) ∧ last.toNat < 128 := by
  induction bytes generalizing code with
  | nil => cases h
  | cons b bytes ih =>
    unfold code? at h
    split at h
    next hlast =>
      cases h
      exact ⟨[], b, rfl, by simp, hlast⟩
    next hmore =>
      obtain ⟨tail, htail, rfl⟩ := Option.map_eq_some_iff.mp h
      obtain ⟨init, last, rfl, hinit, hlast⟩ := ih htail
      refine ⟨b :: init, last, rfl, ?_, hlast⟩
      rw [List.forall_mem_cons]
      exact ⟨by omega, hinit⟩

theorem value_concat (init : List UInt8) (last : UInt8) :
    value (init ++ [last]) = value init + 128 ^ init.length * (last.toNat % 128) := by
  induction init with
  | nil => simp [value]
  | cons b init ih =>
    rw [List.cons_append, value, ih, value, List.length_cons, pow_succ]
    ring

theorem value_lt (bytes : List UInt8) : value bytes < 128 ^ bytes.length := by
  induction bytes with
  | nil => decide
  | cons b bytes ih =>
    unfold value
    rw [List.length_cons, pow_succ]
    omega

theorem code?_encode (n : ℕ) (rest : List UInt8) : code? (encode n ++ rest) = some (encode n) := by
  induction n using Nat.strong_induction_on with
  | h n ih =>
    unfold encode
    split
    next hsmall =>
      have hbyte : (UInt8.ofNat n).toNat = n := by
        rw [UInt8.toNat_ofNat', Nat.mod_eq_of_lt (by omega)]
      simp [code?, hbyte, hsmall]
    next hlarge =>
      have hbyte : (UInt8.ofNat (n % 128 + 128)).toNat = n % 128 + 128 := by
        rw [UInt8.toNat_ofNat', Nat.mod_eq_of_lt (by omega)]
      have hnot : ¬ n % 128 + 128 < 128 := by omega
      rw [List.cons_append, code?, hbyte, if_neg hnot, ih (n / 128) (by omega)]
      rfl

theorem encode_ne_nil (n : ℕ) : encode n ≠ [] := by
  unfold encode
  split <;> simp

theorem value_encode (n : ℕ) : value (encode n) = n := by
  induction n using Nat.strong_induction_on with
  | h n ih =>
    unfold encode
    split
    next hsmall =>
      simp only [value, UInt8.toNat_ofNat']
      omega
    next hlarge =>
      simp only [value, UInt8.toNat_ofNat', ih (n / 128) (by omega)]
      omega

theorem encode_length_le (k n : ℕ) (h : n < 128 ^ (k + 1)) : (encode n).length ≤ k + 1 := by
  induction k generalizing n with
  | zero =>
    unfold encode
    rw [if_pos (by omega)]
    simp
  | succ k ih =>
    unfold encode
    split
    · simp
    · have hdiv : n / 128 < 128 ^ (k + 1) := by
        rw [Nat.div_lt_iff_lt_mul (by decide), ← pow_succ]
        exact h
      have hlen := ih (n / 128) hdiv
      rw [List.length_cons]
      omega

theorem encode_length_u64 (v : UInt64) : (encode v.toNat).length ≤ 10 := by
  apply encode_length_le 9
  have hlt := v.toNat_lt
  omega

end Code

/-- The next group of a 64-bit accumulator, bits shifted out at the top lost. -/
theorem or_shiftLeft_toNat {v x : UInt64} {s : ℕ} (hs : s < 64) (hv : v.toNat < 2 ^ s) :
    (v ||| x <<< UInt64.ofNat s).toNat = (v.toNat + 2 ^ s * x.toNat) % 2 ^ 64 := by
  have hshift : (UInt64.ofNat s).toNat % 64 = s := by
    rw [UInt64.toNat_ofNat']
    omega
  have hsplit : 2 ^ 64 = 2 ^ s * 2 ^ (64 - s) := by
    rw [← pow_add]
    congr 1
    omega
  rw [UInt64.toNat_or, UInt64.toNat_shiftLeft, hshift, Nat.shiftLeft_eq, Nat.mul_comm x.toNat, hsplit,
    Nat.mul_mod_mul_left, Nat.or_comm, ← Nat.two_pow_add_eq_or_of_lt hv, Nat.add_mod,
    Nat.mul_mod_mul_left]
  have hrest := Nat.mod_lt x.toNat (Nat.two_pow_pos (64 - s))
  have hle : 2 ^ s ≤ 2 ^ s * 2 ^ (64 - s) := Nat.le_mul_of_pos_right _ (Nat.two_pow_pos _)
  have hvsmall : v.toNat % (2 ^ s * 2 ^ (64 - s)) = v.toNat := Nat.mod_eq_of_lt (by omega)
  have hfits : v.toNat + 2 ^ s * (x.toNat % 2 ^ (64 - s)) < 2 ^ s * 2 ^ (64 - s) := by
    calc v.toNat + 2 ^ s * (x.toNat % 2 ^ (64 - s))
        < 2 ^ s + 2 ^ s * (x.toNat % 2 ^ (64 - s)) := by omega
      _ = 2 ^ s * (x.toNat % 2 ^ (64 - s) + 1) := by ring
      _ ≤ 2 ^ s * 2 ^ (64 - s) := Nat.mul_le_mul_left _ hrest
  rw [hvsmall, Nat.mod_eq_of_lt hfits]
  omega

/-- A byte's seven low bits. -/
theorem lowBits_toNat (b : UInt8) : (b &&& 0x7f).toUInt64.toNat = b.toNat % 128 := by
  rw [UInt8.toNat_toUInt64, UInt8.toNat_and]
  exact Nat.and_two_pow_sub_one_eq_mod b.toNat 7

theorem highBit_eq_zero_iff (b : UInt8) : b &&& 0x80 = 0 ↔ b.toNat < 128 := by
  have h : ∀ n : Fin 256, (n.val &&& 0x80 = 0 ↔ n.val < 128) := by decide +kernel
  rw [← UInt8.toNat_inj, UInt8.toNat_and]
  exact h ⟨b.toNat, b.toNat_lt⟩

section Groups

variable {v : UInt64} {k : ℕ} (b : UInt8)

/-- The `k`-th group of an accumulator that holds the groups before it. -/
def pushGroup (v : UInt64) (k : ℕ) (b : UInt8) : UInt64 :=
  v ||| (b &&& 0x7f).toUInt64 <<< UInt64.ofNat (7 * k)

theorem pushGroup_eq (hk : k ≤ 9) (hv : v.toNat < 2 ^ (7 * k)) :
    pushGroup v k b = UInt64.ofNat (v.toNat + 2 ^ (7 * k) * (b.toNat % 128)) := by
  apply UInt64.toNat_inj.mp
  unfold pushGroup
  rw [or_shiftLeft_toNat (by omega) hv, lowBits_toNat, UInt64.toNat_ofNat']

/-- Nine groups fit. -/
theorem pushGroup_toNat (hk : k ≤ 8) (hv : v.toNat < 2 ^ (7 * k)) :
    (pushGroup v k b).toNat = v.toNat + 2 ^ (7 * k) * (b.toNat % 128) ∧
      (pushGroup v k b).toNat < 2 ^ (7 * (k + 1)) := by
  have hlow := Nat.mod_lt b.toNat (show 0 < 128 by decide)
  have hlt : v.toNat + 2 ^ (7 * k) * (b.toNat % 128) < 2 ^ (7 * (k + 1)) := by
    calc v.toNat + 2 ^ (7 * k) * (b.toNat % 128)
        < 2 ^ (7 * k) + 2 ^ (7 * k) * (b.toNat % 128) := by omega
      _ = 2 ^ (7 * k) * (b.toNat % 128 + 1) := by ring
      _ ≤ 2 ^ (7 * k) * 128 := Nat.mul_le_mul_left _ hlow
      _ = 2 ^ (7 * (k + 1)) := (pow_add 2 (7 * k) 7).symm
  have hfits : 2 ^ (7 * (k + 1)) ≤ 2 ^ 64 := Nat.pow_le_pow_right (by decide) (by omega)
  have heq : (pushGroup v k b).toNat = v.toNat + 2 ^ (7 * k) * (b.toNat % 128) := by
    rw [pushGroup_eq b (by omega) hv, UInt64.toNat_ofNat', Nat.mod_eq_of_lt (by omega)]
  exact ⟨heq, heq ▸ hlt⟩

/-- Groups read before and after a byte. -/
theorem add_value_cons (n k : ℕ) (code : List UInt8) :
    n + 2 ^ (7 * k) * (b.toNat % 128) + 2 ^ (7 * (k + 1)) * value code =
      n + 2 ^ (7 * k) * value (b :: code) := by
  have hpow : 2 ^ (7 * (k + 1)) = 2 ^ (7 * k) * 128 := pow_add 2 (7 * k) 7
  rw [hpow, value]
  ring

end Groups

end Varint
