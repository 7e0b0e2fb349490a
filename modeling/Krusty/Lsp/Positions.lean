import Krusty.Lsp.LineIndex

/-! The index answers as the scans do, and positions lead back to the offsets they come from. -/
namespace Krusty.Lsp

open Strings

/-! ### Lengths -/

@[simp] theorem byteLen_nil : byteLen [] = 0 := rfl

@[simp] theorem byteLen_cons (c : Char) (rest : Text) : byteLen (c :: rest) = c.utf8Size + byteLen rest := rfl

@[simp] theorem byteLen_append (front rest : Text) : byteLen (front ++ rest) = byteLen front + byteLen rest := by
  induction front with
  | nil => simp
  | cons c front ih => simp [ih, Nat.add_assoc]

theorem u32?_of_le {n : ℕ} (h : n ≤ U32_MAX) : u32? n = some n := if_pos h

theorem lenUtf16_le (c : Char) : lenUtf16 c ≤ c.utf8Size := by
  have hpos := c.utf8Size_pos
  unfold lenUtf16
  split_ifs with hsmall
  · exact hpos
  · have hlarge : ¬c.val ≤ 0xffff := by
      rw [UInt32.le_iff_toNat_le]
      change ¬c.toNat ≤ 65535
      omega
    have hone : ¬c.val ≤ 0x7f := fun h => hlarge (UInt32.le_trans h (by decide))
    have htwo : ¬c.val ≤ 0x7ff := fun h => hlarge (UInt32.le_trans h (by decide))
    have hsize : c.utf8Size = 4 := by
      unfold Char.utf8Size
      exact (if_neg hone).trans ((if_neg htwo).trans (if_neg hlarge))
    omega

theorem utf8Size_cr : Char.utf8Size '\r' = 1 := rfl

theorem utf8Size_lf : Char.utf8Size '\n' = 1 := rfl

/-! ### Scans whose counters have room -/

variable {c : Char}

namespace Scan

/-- One character, the counters without a bound. -/
def next (s : Scan) (c : Char) : Scan :=
  if c = '\r' then ⟨⟨s.line + 1, 0⟩, true⟩
  else if c = '\n' then ⟨⟨if s.previousWasCr then s.line else s.line + 1, 0⟩, false⟩
  else ⟨⟨s.line, s.character + lenUtf16 c⟩, false⟩

@[simp] theorem next_cr (s : Scan) : s.next '\r' = ⟨⟨s.line + 1, 0⟩, true⟩ := if_pos rfl

theorem next_lf (s : Scan) : s.next '\n' = ⟨⟨if s.previousWasCr then s.line else s.line + 1, 0⟩, false⟩ := rfl

theorem next_char (s : Scan) (hcr : c ≠ '\r') (hlf : c ≠ '\n') :
    s.next c = ⟨⟨s.line, s.character + lenUtf16 c⟩, false⟩ := by
  rw [next, if_neg hcr, if_neg hlf]

/-- Neither counter can run over in what is left of the text. -/
def Fits (s : Scan) (rest : Text) : Prop :=
  s.line + byteLen rest ≤ U32_MAX ∧ s.character + byteLen rest ≤ U32_MAX

variable {s : Scan} {c : Char} {rest : Text}

theorem Fits.checked (h : s.Fits (c :: rest)) : s.checked c = some (s.next c) := by
  obtain ⟨hline, hcharacter⟩ := h
  have hpos := c.utf8Size_pos
  have hlen := lenUtf16_le c
  rw [byteLen_cons] at hline hcharacter
  have hone : checkedAdd s.line 1 = some (s.line + 1) := u32?_of_le (by omega)
  have hmore : checkedAdd s.character (lenUtf16 c) = some (s.character + lenUtf16 c) := u32?_of_le (by omega)
  unfold Scan.checked next
  rw [hone, hmore]
  split_ifs <;> rfl

theorem Fits.saturating (h : s.Fits (c :: rest)) : s.saturating c = s.next c := by
  obtain ⟨hline, hcharacter⟩ := h
  have hpos := c.utf8Size_pos
  have hlen := lenUtf16_le c
  rw [byteLen_cons] at hline hcharacter
  have hone : saturatingAdd s.line 1 = s.line + 1 := Nat.min_eq_left (by omega)
  have hmore : saturatingAdd s.character (lenUtf16 c) = s.character + lenUtf16 c := Nat.min_eq_left (by omega)
  unfold Scan.saturating next
  rw [hone, hmore]
  split_ifs <;> rfl

theorem Fits.next (h : s.Fits (c :: rest)) : (s.next c).Fits rest := by
  obtain ⟨hline, hcharacter⟩ := h
  have hpos := c.utf8Size_pos
  have hlen := lenUtf16_le c
  rw [byteLen_cons] at hline hcharacter
  unfold Scan.next
  split_ifs <;> constructor <;> dsimp only <;> omega

end Scan

/-- The scan from the start reads on as the scan of one line does while its budget lasts. -/
theorem positionScan_eq {len : ℕ} {target : Position} {rest : Text} {byte budget : ℕ} {s : Scan}
    (hbudget : byteLen rest ≤ budget) :
    (positionScan len target rest byte s budget).1 = characterScan len target.line target.character rest byte s := by
  induction rest generalizing byte s budget with
  | nil => rfl
  | cons c rest ih =>
    rw [byteLen_cons] at hbudget
    rw [positionScan, characterScan, if_neg (by omega : ¬budget < c.utf8Size)]
    split_ifs with hat
    · rfl
    · cases s.checked c with
      | none => rfl
      | some next =>
        dsimp only
        split_ifs
        · rfl
        · exact ih (by omega)

theorem characterScan_cons {len line character byte : ℕ} {s : Scan} {rest : Text} (h : s.Fits (c :: rest)) :
    characterScan len line character (c :: rest) byte s =
      if s.At ⟨line, character⟩ c then u32? byte
      else if (s.next c).Past ⟨line, character⟩ then none
      else characterScan len line character rest (byte + c.utf8Size) (s.next c) := by
  rw [characterScan, h.checked]

theorem offsetScan_cons {limit byte : ℕ} {s : Scan} {rest : Text} (h : s.Fits (c :: rest)) :
    offsetScan limit (c :: rest) byte s =
      if limit ≤ byte ∨ limit < byte + c.utf8Size then s
      else offsetScan limit rest (byte + c.utf8Size) (s.next c) := by
  rw [offsetScan, h.saturating]

/-! ### The breaks of a text -/

/-- The places after each line break: the offset there and what is left of the text. -/
def breaks : Text → ℕ → List (ℕ × Text)
  | [], _ => []
  | c :: rest, byte =>
    if c = '\r' then
      if rest.head? = some '\n' then (byte + 2, rest.tail) :: breaks rest.tail (byte + 2)
      else (byte + 1, rest) :: breaks rest (byte + 1)
    else if c = '\n' then (byte + 1, rest) :: breaks rest (byte + 1)
    else breaks rest (byte + c.utf8Size)
termination_by text => text.length
decreasing_by all_goals simp

theorem breaks_nil (byte : ℕ) : breaks [] byte = [] := by rw [breaks]

theorem breaks_crlf (rest : Text) (byte : ℕ) :
    breaks ('\r' :: '\n' :: rest) byte = (byte + 2, rest) :: breaks rest (byte + 2) := by
  rw [breaks, if_pos rfl, List.head?_cons, if_pos rfl, List.tail_cons]

theorem breaks_cr {rest : Text} (h : rest.head? ≠ some '\n') (byte : ℕ) :
    breaks ('\r' :: rest) byte = (byte + 1, rest) :: breaks rest (byte + 1) := by
  rw [breaks, if_pos rfl, if_neg h]

theorem breaks_lf (rest : Text) (byte : ℕ) :
    breaks ('\n' :: rest) byte = (byte + 1, rest) :: breaks rest (byte + 1) := by
  rw [breaks, if_neg (by decide), if_pos rfl]

theorem breaks_char (hcr : c ≠ '\r') (hlf : c ≠ '\n') (rest : Text) (byte : ℕ) :
    breaks (c :: rest) byte = breaks rest (byte + c.utf8Size) := by
  rw [breaks, if_neg hcr, if_neg hlf]

/-- A text is read break by break and character by character. -/
@[elab_as_elim]
theorem text_induction {motive : Text → Prop} (nil : motive [])
    (crlf : ∀ rest, motive rest → motive ('\r' :: '\n' :: rest))
    (cr : ∀ rest, rest.head? ≠ some '\n' → motive rest → motive ('\r' :: rest))
    (lf : ∀ rest, motive rest → motive ('\n' :: rest))
    (char : ∀ c rest, c ≠ '\r' → c ≠ '\n' → motive rest → motive (c :: rest)) (text : Text) : motive text := by
  induction hn : text.length using Nat.strong_induction_on generalizing text with
  | _ n ih =>
    cases text with
    | nil => exact nil
    | cons c rest =>
      have hrest : motive rest := ih rest.length (by rw [← hn]; exact Nat.lt_succ_self _) rest rfl
      by_cases hcr : c = '\r'
      · subst hcr
        by_cases hhead : rest.head? = some '\n'
        · cases rest with
          | nil => cases hhead
          | cons d rest =>
            have hd : d = '\n' := Option.some.inj hhead
            subst hd
            exact crlf rest (ih rest.length (by rw [← hn]; simp) rest rfl)
        · exact cr rest hhead hrest
      · by_cases hlf : c = '\n'
        · subst hlf
          exact lf rest hrest
        · exact char c rest hcr hlf hrest

theorem front_cons {rest suffix : Text} {byte n : ℕ}
    (h : ∃ front, rest = front ++ suffix ∧ n = byte + c.utf8Size + byteLen front ∧ front ≠ []) :
    ∃ front, c :: rest = front ++ suffix ∧ n = byte + byteLen front ∧ front ≠ [] := by
  obtain ⟨front, htext, hbyte, -⟩ := h
  refine ⟨c :: front, by rw [htext]; rfl, ?_, List.cons_ne_nil _ _⟩
  rw [hbyte, byteLen_cons, Nat.add_assoc]

variable {entry : ℕ × Text}

theorem exists_front_of_mem_breaks {text : Text} {byte : ℕ} (h : entry ∈ breaks text byte) :
    ∃ front, text = front ++ entry.2 ∧ entry.1 = byte + byteLen front ∧ front ≠ [] := by
  induction text using text_induction generalizing byte with
  | nil =>
    rw [breaks_nil] at h
    cases h
  | crlf rest ih =>
    rw [breaks_crlf] at h
    cases List.mem_cons.mp h with
    | inl heq =>
      subst heq
      exact ⟨['\r', '\n'], rfl, rfl, List.cons_ne_nil _ _⟩
    | inr hmem => exact front_cons (front_cons (ih hmem))
  | cr rest hrest ih =>
    rw [breaks_cr hrest] at h
    cases List.mem_cons.mp h with
    | inl heq =>
      subst heq
      exact ⟨['\r'], rfl, rfl, List.cons_ne_nil _ _⟩
    | inr hmem => exact front_cons (ih hmem)
  | lf rest ih =>
    rw [breaks_lf] at h
    cases List.mem_cons.mp h with
    | inl heq =>
      subst heq
      exact ⟨['\n'], rfl, rfl, List.cons_ne_nil _ _⟩
    | inr hmem => exact front_cons (ih hmem)
  | char c rest hcr hlf ih =>
    rw [breaks_char hcr hlf] at h
    exact front_cons (ih h)

/-! ### The bytes of a text -/

theorem utf8CharLen_ofNat {n : ℕ} (h : n < 256) : utf8CharLen (UInt8.ofNat n) =
    if n ≤ 127 then 1 else if 192 ≤ n ∧ n ≤ 223 then 2 else if 224 ≤ n ∧ n ≤ 239 then 3
    else if 240 ≤ n ∧ n ≤ 247 then 4 else 1 := by
  have hnat : (UInt8.ofNat n).toNat = n := by
    rw [UInt8.toNat_ofNat']
    exact Nat.mod_eq_of_lt h
  simp only [utf8CharLen, UInt8.le_iff_toNat_le, hnat]
  rfl

/-- The first byte tells the length of a character, and whether it is one of the two breaks. -/
theorem exists_first_byte (c : Char) : ∃ byte tail, String.utf8EncodeChar c = byte :: tail ∧
    tail.length = c.utf8Size - 1 ∧ utf8CharLen byte = c.utf8Size ∧ (byte = 0x0d → c = '\r') ∧
      (byte = 0x0a → c = '\n') := by
  have hlen := String.length_utf8EncodeChar c
  have hval : c.val.toNat < 0x110000 := c.valid.elim (fun h => by omega) (fun h => h.2)
  have hbyte (n : ℕ) (h : n < 256) : (UInt8.ofNat n).toNat = n := by
    rw [UInt8.toNat_ofNat']
    exact Nat.mod_eq_of_lt h
  have hchar (d : Char) (h : c.val.toNat = d.toNat) : c = d := Char.ext (UInt32.toNat_inj.mp h)
  unfold String.utf8EncodeChar at hlen ⊢
  dsimp only at hlen ⊢
  split_ifs at hlen ⊢ with hone htwo hthree
  all_goals
    refine ⟨_, _, rfl, by rw [← hlen]; rfl, ?_, ?_, ?_⟩
    · rw [utf8CharLen_ofNat (by omega), ← hlen]
      split_ifs <;> first | rfl | omega
    · intro h
      have hnat := congrArg UInt8.toNat h
      rw [hbyte _ (by omega)] at hnat
      change _ = 13 at hnat
      exact hchar '\r' (by change _ = 13; omega)
    · intro h
      have hnat := congrArg UInt8.toNat h
      rw [hbyte _ (by omega)] at hnat
      change _ = 10 at hnat
      exact hchar '\n' (by change _ = 10; omega)

theorem head?_toUtf8 (rest : Text) : (toUtf8 rest).head? = some 0x0a ↔ rest.head? = some '\n' := by
  cases rest with
  | nil => simp [toUtf8]
  | cons c rest =>
    obtain ⟨byte, tail, hencode, -, -, -, hlf⟩ := exists_first_byte c
    have hhead : (toUtf8 (c :: rest)).head? = some byte := by
      rw [toUtf8, List.flatMap_cons, hencode]
      rfl
    rw [hhead, List.head?_cons, Option.some_inj, Option.some_inj]
    constructor
    · exact hlf
    · intro h
      subst h
      exact (List.cons.inj hencode).1.symm

/-- The line starts are the places after the breaks. -/
theorem lineStarts_toUtf8 {text : Text} {byte : ℕ} (h : byte + byteLen text ≤ U32_MAX) :
    lineStarts (toUtf8 text) byte = (breaks text byte).map Prod.fst := by
  have hstart (n : ℕ) (hn : n ≤ U32_MAX) : (u32? n).getD U32_MAX = n := by rw [u32?_of_le hn, Option.getD_some]
  induction text using text_induction generalizing byte with
  | nil =>
    rw [breaks_nil, toUtf8, List.flatMap_nil, lineStarts]
    rfl
  | crlf rest ih =>
    rw [byteLen_cons, byteLen_cons, utf8Size_cr, utf8Size_lf] at h
    have hbytes : toUtf8 ('\r' :: '\n' :: rest) = 0x0d :: 0x0a :: toUtf8 rest := rfl
    rw [hbytes, lineStarts, if_pos rfl, List.head?_cons, if_pos rfl, List.tail_cons, hstart _ (by omega),
      breaks_crlf, List.map_cons, ih (by omega)]
  | cr rest hrest ih =>
    rw [byteLen_cons, utf8Size_cr] at h
    have hbytes : toUtf8 ('\r' :: rest) = 0x0d :: toUtf8 rest := rfl
    rw [hbytes, lineStarts, if_pos rfl, if_neg (mt (head?_toUtf8 rest).mp hrest), hstart _ (by omega),
      breaks_cr hrest, List.map_cons, ih (by omega)]
  | lf rest ih =>
    rw [byteLen_cons, utf8Size_lf] at h
    have hbytes : toUtf8 ('\n' :: rest) = 0x0a :: toUtf8 rest := rfl
    rw [hbytes, lineStarts, if_neg (by decide), if_pos rfl, hstart _ (by omega), breaks_lf, List.map_cons,
      ih (by omega)]
  | char c rest hcr hlf ih =>
    obtain ⟨first, tail, hencode, hlength, hsize, hfirstCr, hfirstLf⟩ := exists_first_byte c
    rw [byteLen_cons] at h
    have hbytes : toUtf8 (c :: rest) = first :: (tail ++ toUtf8 rest) := by
      rw [toUtf8, List.flatMap_cons, hencode]
      rfl
    rw [hbytes, lineStarts, if_neg (mt hfirstCr hcr), if_neg (mt hfirstLf hlf), hsize, ← hlength,
      List.drop_left, breaks_char hcr hlf, ih (by omega)]

theorem sliceFrom_append (front rest : Text) : sliceFrom (front ++ rest) (byteLen front) = .ok rest := by
  induction front with
  | nil => cases rest <;> rfl
  | cons c front ih =>
    have hpos := c.utf8Size_pos
    obtain ⟨n, hn⟩ : ∃ n, byteLen (c :: front) = n + 1 := ⟨_, (Nat.succ_pred_eq_of_pos (by simp; omega)).symm⟩
    have hle : ¬n + 1 < c.utf8Size := by
      rw [← hn, byteLen_cons]
      omega
    have hrest : n + 1 - c.utf8Size = byteLen front := by
      rw [← hn, byteLen_cons]
      omega
    rw [hn, List.cons_append, sliceFrom, if_neg hle, hrest, ih]

/-! ### From a position to an offset -/

/-- What is left of the text does not start with the second half of a break. -/
def Scan.Clean (s : Scan) (rest : Text) : Prop := ¬(s.previousWasCr = true ∧ rest.head? = some '\n')

theorem Scan.Clean.next_lf {s : Scan} {rest : Text} (h : s.Clean ('\n' :: rest)) :
    s.next '\n' = ⟨⟨s.line + 1, 0⟩, false⟩ := by
  have hprevious : s.previousWasCr = false := Bool.eq_false_iff.mpr fun hcr => h ⟨hcr, rfl⟩
  rw [Scan.next_lf, hprevious]
  rfl

theorem line_succ (line k : ℕ) : line + (k + 1) + 1 = line + 1 + k + 1 := by omega

/-- Before anything but a line feed a carriage return is forgotten. -/
theorem characterScan_forget {len line character byte l n : ℕ} {rest : Text} (h : rest.head? ≠ some '\n') (b : Bool) :
    characterScan len line character rest byte ⟨⟨l, n⟩, b⟩ =
      characterScan len line character rest byte ⟨⟨l, n⟩, false⟩ := by
  cases rest with
  | nil => rfl
  | cons c rest =>
    have hlf : c ≠ '\n' := fun heq => h (congrArg some heq)
    rw [characterScan, characterScan]
    simp only [Scan.At, Scan.checked, hlf, and_false, if_false]

/-- The scan of a text comes to each of its line starts as if it had begun there. -/
theorem characterScan_breaks {len character : ℕ} {rest : Text} {byte : ℕ} {s : Scan} (hfit : s.Fits rest)
    (hclean : s.Clean rest) (k : ℕ) :
    characterScan len (s.line + k + 1) character rest byte s =
      ((breaks rest byte)[k]?).bind fun entry =>
        characterScan len (s.line + k + 1) character entry.2 entry.1 ⟨⟨s.line + k + 1, 0⟩, false⟩ := by
  have hnot (s : Scan) (c : Char) (k : ℕ) : ¬s.At ⟨s.line + k + 1, character⟩ c := fun h => by
    have hline := h.2.1
    dsimp only at hline
    omega
  induction rest using text_induction generalizing byte s k with
  | nil =>
    rw [breaks_nil, characterScan, if_neg (by omega)]
    rfl
  | crlf rest ih =>
    have hfit' := hfit.next
    have hpast : ¬(s.next '\r').Past ⟨s.line + k + 1, character⟩ := by
      rw [Scan.next_cr, Scan.Past]
      dsimp only
      omega
    have hnext : (s.next '\r').next '\n' = ⟨⟨s.line + 1, 0⟩, false⟩ := rfl
    have hpast' : ¬((s.next '\r').next '\n').Past ⟨s.line + k + 1, character⟩ := hpast
    have hat : ¬(s.next '\r').At ⟨s.line + k + 1, character⟩ '\n' := fun h => h.1 ⟨rfl, rfl⟩
    rw [characterScan_cons hfit, if_neg (hnot s _ k), if_neg hpast, characterScan_cons hfit', if_neg hat,
      if_neg hpast', hnext, utf8Size_cr, utf8Size_lf, breaks_crlf]
    cases k with
    | zero => rfl
    | succ k =>
      have hrest := @ih (byte + 2) ⟨⟨s.line + 1, 0⟩, false⟩ hfit'.next (fun h => by cases h.1) k
      rw [line_succ, List.getElem?_cons_succ]
      exact hrest
  | cr rest hrest ih =>
    have hfit' := hfit.next
    have hpast : ¬(s.next '\r').Past ⟨s.line + k + 1, character⟩ := by
      rw [Scan.next_cr, Scan.Past]
      dsimp only
      omega
    rw [characterScan_cons hfit, if_neg (hnot s _ k), if_neg hpast, Scan.next_cr, characterScan_forget hrest,
      utf8Size_cr, breaks_cr hrest]
    cases k with
    | zero => rfl
    | succ k =>
      have hstep := @ih (byte + 1) ⟨⟨s.line + 1, 0⟩, false⟩ hfit' (fun h => by cases h.1) k
      rw [line_succ, List.getElem?_cons_succ]
      exact hstep
  | lf rest ih =>
    have hfit' := hfit.next
    have hnext := hclean.next_lf
    have hpast : ¬(s.next '\n').Past ⟨s.line + k + 1, character⟩ := by
      rw [hnext, Scan.Past]
      dsimp only
      omega
    rw [characterScan_cons hfit, if_neg (hnot s _ k), if_neg hpast, hnext, utf8Size_lf, breaks_lf]
    rw [hnext] at hfit'
    cases k with
    | zero => rfl
    | succ k =>
      have hstep := @ih (byte + 1) ⟨⟨s.line + 1, 0⟩, false⟩ hfit' (fun h => by cases h.1) k
      rw [line_succ, List.getElem?_cons_succ]
      exact hstep
  | char c rest hcr hlf ih =>
    have hfit' := hfit.next
    have hnext := s.next_char hcr hlf
    have hpast : ¬(s.next c).Past ⟨s.line + k + 1, character⟩ := by
      rw [hnext, Scan.Past]
      dsimp only
      omega
    rw [characterScan_cons hfit, if_neg (hnot s _ k), if_neg hpast, hnext, breaks_char hcr hlf]
    rw [hnext] at hfit'
    exact @ih (byte + c.utf8Size) ⟨⟨s.line, s.character + lenUtf16 c⟩, false⟩ hfit' (fun h => by cases h.1) k

/-! ### From an offset to a position -/

theorem lt_of_mem_breaks {text : Text} {byte : ℕ} (h : entry ∈ breaks text byte) : byte < entry.1 := by
  obtain ⟨front, -, hbyte, hne⟩ := exists_front_of_mem_breaks h
  cases front with
  | nil => exact absurd rfl hne
  | cons c front =>
    have hpos := c.utf8Size_pos
    rw [byteLen_cons] at hbyte
    omega

theorem offsetScan_forget {limit byte l n : ℕ} {rest : Text} (h : rest.head? ≠ some '\n') (b : Bool) :
    (offsetScan limit rest byte ⟨⟨l, n⟩, b⟩).toPosition = (offsetScan limit rest byte ⟨⟨l, n⟩, false⟩).toPosition := by
  cases rest with
  | nil => rfl
  | cons c rest =>
    have hlf : c ≠ '\n' := fun heq => h (congrArg some heq)
    have hsame : Scan.saturating ⟨⟨l, n⟩, b⟩ c = Scan.saturating ⟨⟨l, n⟩, false⟩ c := by
      simp only [Scan.saturating, hlf, if_false]
    rw [offsetScan, offsetScan, hsame]
    split_ifs <;> rfl

/-- The scan up to a limit passes each line start that is not beyond it. -/
theorem offsetScan_breaks {limit : ℕ} {rest : Text} {byte : ℕ} {s : Scan} (hfit : s.Fits rest) (hclean : s.Clean rest)
    {k : ℕ} (h : (breaks rest byte)[k]? = some entry) (hle : entry.1 ≤ limit) :
    (offsetScan limit rest byte s).toPosition =
      (offsetScan limit entry.2 entry.1 ⟨⟨s.line + k + 1, 0⟩, false⟩).toPosition := by
  induction rest using text_induction generalizing byte s k with
  | nil =>
    rw [breaks_nil] at h
    cases h
  | crlf rest ih =>
    have hfit' := hfit.next
    have hnext : (s.next '\r').next '\n' = ⟨⟨s.line + 1, 0⟩, false⟩ := rfl
    have hreach : byte + 2 ≤ limit := by
      rw [breaks_crlf] at h
      cases List.mem_cons.mp (List.mem_of_getElem? h) with
      | inl heq =>
        rw [heq] at hle
        exact hle
      | inr hmem => exact le_trans (lt_of_mem_breaks hmem).le hle
    rw [offsetScan_cons hfit, utf8Size_cr, if_neg (by omega), offsetScan_cons hfit', utf8Size_lf, if_neg (by omega),
      hnext]
    rw [breaks_crlf] at h
    cases k with
    | zero =>
      obtain rfl := Option.some.inj h
      rfl
    | succ k =>
      have hrest := @ih (byte + 2) ⟨⟨s.line + 1, 0⟩, false⟩ hfit'.next (fun h => by cases h.1) k h
      rw [line_succ s.line]
      exact hrest
  | cr rest hrest ih =>
    have hfit' := hfit.next
    have hreach : byte < limit := lt_of_lt_of_le (lt_of_mem_breaks (List.mem_of_getElem? h)) hle
    rw [offsetScan_cons hfit, utf8Size_cr, if_neg (by omega), Scan.next_cr, offsetScan_forget hrest]
    rw [breaks_cr hrest] at h
    cases k with
    | zero =>
      obtain rfl := Option.some.inj h
      rfl
    | succ k =>
      have hstep := @ih (byte + 1) ⟨⟨s.line + 1, 0⟩, false⟩ hfit' (fun h => by cases h.1) k h
      rw [line_succ]
      exact hstep
  | lf rest ih =>
    have hfit' := hfit.next
    have hnext := hclean.next_lf
    have hreach : byte < limit := lt_of_lt_of_le (lt_of_mem_breaks (List.mem_of_getElem? h)) hle
    rw [offsetScan_cons hfit, utf8Size_lf, if_neg (by omega), hnext]
    rw [breaks_lf] at h
    rw [hnext] at hfit'
    cases k with
    | zero =>
      obtain rfl := Option.some.inj h
      rfl
    | succ k =>
      have hstep := @ih (byte + 1) ⟨⟨s.line + 1, 0⟩, false⟩ hfit' (fun h => by cases h.1) k h
      rw [line_succ]
      exact hstep
  | char c rest hcr hlf ih =>
    have hfit' := hfit.next
    have hnext := s.next_char hcr hlf
    rw [breaks_char hcr hlf] at h
    have hreach : byte + c.utf8Size < limit := lt_of_lt_of_le (lt_of_mem_breaks (List.mem_of_getElem? h)) hle
    rw [offsetScan_cons hfit, if_neg (by omega), hnext]
    rw [hnext] at hfit'
    exact @ih (byte + c.utf8Size) ⟨⟨s.line, s.character + lenUtf16 c⟩, false⟩ hfit' (fun h => by cases h.1) k h

/-! ### The index -/

theorem length_breaks_le (text : Text) (byte : ℕ) : (breaks text byte).length ≤ byteLen text := by
  induction text using text_induction generalizing byte with
  | nil => rw [breaks_nil]; exact le_rfl
  | crlf rest ih =>
    have hrest := ih (byte + 2)
    rw [breaks_crlf, List.length_cons, byteLen_cons, byteLen_cons, utf8Size_cr, utf8Size_lf]
    omega
  | cr rest hrest ih =>
    have hrest' := ih (byte + 1)
    rw [breaks_cr hrest, List.length_cons, byteLen_cons, utf8Size_cr]
    omega
  | lf rest ih =>
    have hrest := ih (byte + 1)
    rw [breaks_lf, List.length_cons, byteLen_cons, utf8Size_lf]
    omega
  | char c rest hcr hlf ih =>
    have hrest := ih (byte + c.utf8Size)
    rw [breaks_char hcr hlf, byteLen_cons]
    omega

namespace LineIndex

variable {text : Text}

theorem new_starts (h : byteLen text ≤ U32_MAX) : (new text).starts = 0 :: (breaks text 0).map Prod.fst := by
  rw [new, lineStarts_toUtf8 (by omega)]

theorem lineAt_spec {self : LineIndex} {offset : ℕ} (hzero : self.starts[0]? = some 0) (h : offset ≤ U32_MAX) :
    ∃ start, self.starts[self.lineAt offset]? = some start ∧ start ≤ offset := by
  rw [lineAt, u32?_of_le h, Option.getD_some, binarySearch]
  cases hindex : self.starts.idxOf? offset with
  | some index =>
    obtain ⟨hlt, heq, -⟩ := List.findIdx?_eq_some_iff_getElem.mp hindex
    have hstart : self.starts[index] = offset := by simpa using heq
    exact ⟨offset, by rw [← hstart]; exact List.getElem?_eq_getElem hlt, le_rfl⟩
  | none =>
    dsimp only
    cases hcount : (self.starts.takeWhile (· < offset)).length with
    | zero => exact ⟨0, hzero, Nat.zero_le _⟩
    | succ k =>
      have hk : k < (self.starts.takeWhile (· < offset)).length := by omega
      have hmem := List.mem_takeWhile_imp (List.getElem_mem hk)
      have hprefix := (List.takeWhile_prefix (· < offset) (l := self.starts)).getElem hk
      refine ⟨_, List.getElem?_eq_getElem (lt_of_lt_of_le hk (List.takeWhile_prefix _).length_le), ?_⟩
      rw [← hprefix]
      exact (of_decide_eq_true hmem).le

theorem positionToOffset_eq (h : byteLen text ≤ U32_MAX) (line character : ℕ) :
    (new text).positionToOffset text line character = .ok (positionToByteOffset text ⟨line, character⟩) := by
  have hfit : Scan.start.Fits text := by
    constructor <;> change 0 + _ ≤ _ <;> omega
  have hscan : positionToByteOffset text ⟨line, character⟩ =
      characterScan (byteLen text) line character text 0 .start :=
    positionScan_eq (le_trans h (by decide))
  rw [hscan, positionToOffset, new_starts h]
  cases line with
  | zero =>
    cases text <;> rfl
  | succ k =>
    have hbreaks := @characterScan_breaks (byteLen text) character text 0 .start hfit (fun h => by cases h.1) k
    have hline : Scan.start.line + k + 1 = k + 1 := by
      change 0 + k + 1 = _
      omega
    rw [hline] at hbreaks
    rw [hbreaks, List.getElem?_cons_succ, List.getElem?_map]
    cases hentry : (breaks text 0)[k]? with
    | none => rfl
    | some entry =>
      obtain ⟨front, htext, hbyte, -⟩ := exists_front_of_mem_breaks (List.mem_of_getElem? hentry)
      rw [Nat.zero_add] at hbyte
      have hslice : sliceFrom text entry.1 = .ok entry.2 := by
        rw [hbyte, htext]
        exact sliceFrom_append front entry.2
      have hle : ¬byteLen text < entry.1 := by
        rw [hbyte, htext, byteLen_append]
        omega
      dsimp only [Option.map_some]
      rw [if_neg hle, hslice]
      rfl

theorem offsetToPosition_eq (h : byteLen text ≤ U32_MAX) (offset : ℕ) :
    (new text).offsetToPosition text offset = .ok (byteOffsetToPosition text offset) := by
  have hfit : Scan.start.Fits text := by
    constructor <;> change 0 + _ ≤ _ <;> omega
  have hlimit : min offset (byteLen text) ≤ U32_MAX := le_trans (min_le_right _ _) h
  have hzero : (new text).starts[0]? = some 0 := rfl
  obtain ⟨start, hstart, hle⟩ := lineAt_spec hzero hlimit
  rw [offsetToPosition, byteOffsetToPosition, hstart]
  cases hline : (new text).lineAt (min offset (byteLen text)) with
  | zero =>
    rw [hline, hzero] at hstart
    obtain rfl := Option.some.inj hstart
    cases text <;> rfl
  | succ k =>
    rw [hline, new_starts h, List.getElem?_cons_succ, List.getElem?_map] at hstart
    obtain ⟨entry, hentry, rfl⟩ := Option.map_eq_some_iff.mp hstart
    obtain ⟨front, htext, hbyte, -⟩ := exists_front_of_mem_breaks (List.mem_of_getElem? hentry)
    rw [Nat.zero_add] at hbyte
    have hslice : sliceFrom text entry.1 = .ok entry.2 := by
      rw [hbyte, htext]
      exact sliceFrom_append front entry.2
    have hk : k < (breaks text 0).length := (List.getElem?_eq_some_iff.mp hentry).1
    have hcount := length_breaks_le text 0
    have hbreaks := offsetScan_breaks hfit (fun h => by cases h.1) hentry hle
    have hcast : (u32? (k + 1)).getD U32_MAX = Scan.start.line + k + 1 := by
      rw [u32?_of_le (by omega), Option.getD_some]
      change _ = 0 + k + 1
      omega
    dsimp only
    rw [hslice, hcast, hbreaks]
    rfl

end LineIndex

/-! ### There and back -/

namespace Scan

def Le (p q : Position) : Prop := p.line < q.line ∨ p.line = q.line ∧ p.character ≤ q.character

/-- After a carriage return a line has no characters. -/
def Reset (s : Scan) : Prop := s.previousWasCr = true → s.character = 0

variable {s : Scan}

theorem Reset.next (s : Scan) (c : Char) : (s.next c).Reset := by
  intro h
  unfold Scan.next at h ⊢
  split_ifs at h ⊢
  rfl

theorem le_next (h : s.Reset) (c : Char) : Le s.toPosition (s.next c).toPosition := by
  by_cases hcr : c = '\r'
  · subst hcr
    exact .inl (Nat.lt_succ_self _)
  · by_cases hlf : c = '\n'
    · subst hlf
      rw [next_lf]
      cases hprevious : s.previousWasCr with
      | true => exact .inr ⟨rfl, le_of_eq (h hprevious)⟩
      | false => exact .inl (Nat.lt_succ_self _)
    · rw [s.next_char hcr hlf]
      exact .inr ⟨rfl, Nat.le_add_right _ _⟩

theorem le_walk (h : s.Reset) (front : Text) : Le s.toPosition (front.foldl next s).toPosition := by
  induction front generalizing s with
  | nil => exact .inr ⟨rfl, le_rfl⟩
  | cons c front ih =>
    have hstep := le_next h c
    have hrest := ih (Reset.next s c)
    unfold Le at hstep hrest ⊢
    rw [List.foldl_cons]
    omega

/-- Only the line feed of a break leaves the position as it is. -/
theorem not_at_walk (c : Char) (front : Text) : ¬s.At (front.foldl next (s.next c)).toPosition c := by
  intro h
  obtain ⟨hjoint, hline, hcharacter⟩ := h
  have hrest := le_walk (Reset.next s c) front
  unfold Le at hrest
  by_cases hcr : c = '\r'
  · subst hcr
    rw [next_cr] at hrest hline
    dsimp only at hrest hline
    omega
  · by_cases hlf : c = '\n'
    · subst hlf
      have hprevious : s.previousWasCr = false := Bool.eq_false_iff.mpr fun h => hjoint ⟨h, rfl⟩
      have hnext : s.next '\n' = ⟨⟨s.line + 1, 0⟩, false⟩ := by
        rw [next_lf, hprevious]
        rfl
      rw [hnext] at hrest hline
      dsimp only at hrest hline
      omega
    · have hpos : 0 < lenUtf16 c := by
        unfold lenUtf16
        split_ifs <;> omega
      rw [s.next_char hcr hlf] at hrest hline hcharacter
      dsimp only at hrest hline hcharacter
      omega

theorem not_past_walk (h : s.Reset) (front : Text) : ¬s.Past (front.foldl next s).toPosition := by
  have hrest := le_walk h front
  unfold Le at hrest
  unfold Past
  omega

theorem previousWasCr_walk (front : Text) :
    (front.foldl next start).previousWasCr = true ↔ front.getLast? = some '\r' := by
  cases front using List.reverseRecOn with
  | nil => simp [start]
  | append_singleton front c =>
    rw [List.foldl_append, List.foldl_cons, List.foldl_nil, List.getLast?_append, List.getLast?_singleton,
      Option.some_or, Option.some_inj]
    unfold next
    split_ifs with hcr hlf
    · exact iff_of_true rfl hcr
    · exact iff_of_false (by simp) hcr
    · exact iff_of_false (by simp) hcr

end Scan

theorem offsetScan_front {front rest : Text} {byte : ℕ} {s : Scan} (hfit : s.Fits (front ++ rest)) :
    offsetScan (byte + byteLen front) (front ++ rest) byte s = front.foldl Scan.next s := by
  induction front generalizing byte s with
  | nil =>
    cases rest with
    | nil => rfl
    | cons c rest => exact if_pos (.inl le_rfl)
  | cons c front ih =>
    have hpos := c.utf8Size_pos
    rw [List.cons_append] at hfit
    have hrest := @ih (byte + c.utf8Size) _ hfit.next
    rw [List.cons_append, offsetScan_cons hfit, byteLen_cons, if_neg (by omega), ← Nat.add_assoc, hrest, List.foldl_cons]

theorem characterScan_front {front rest : Text} {byte len : ℕ} {s : Scan} (hfit : s.Fits (front ++ rest))
    (hreset : s.Reset) (hclean : (front.foldl Scan.next s).Clean rest) (hlen : len = byte + byteLen (front ++ rest))
    (hmax : len ≤ U32_MAX) :
    characterScan len (front.foldl Scan.next s).line (front.foldl Scan.next s).character (front ++ rest) byte s =
      some (byte + byteLen front) := by
  induction front generalizing byte s with
  | nil =>
    cases rest with
    | nil =>
      rw [List.foldl_nil, List.append_nil, characterScan, if_pos ⟨rfl, rfl⟩, u32?_of_le hmax, hlen]
      rfl
    | cons c rest =>
      have hat : s.At s.toPosition c := ⟨fun h => hclean ⟨h.1, congrArg some h.2⟩, rfl, rfl⟩
      rw [List.foldl_nil, List.nil_append, characterScan_cons hfit, if_pos hat, u32?_of_le (by omega)]
      rfl
  | cons c front ih =>
    rw [List.cons_append] at hfit
    rw [List.cons_append, byteLen_cons] at hlen
    have hrest := @ih (byte + c.utf8Size) _ hfit.next (Scan.Reset.next s c) hclean (by omega)
    rw [List.cons_append, List.foldl_cons, characterScan_cons hfit, if_neg (Scan.not_at_walk c front),
      if_neg (Scan.not_past_walk (Scan.Reset.next s c) front), hrest, byteLen_cons, Nat.add_assoc]

/-- On a text shorter than 2³² bytes the index answers as the scans do, and an offset on the boundary of a character
that is not inside a break comes back from its position. -/
theorem lineIndex_agrees (text : Text) (h : byteLen text < 2 ^ 32) :
    (∀ line character, (LineIndex.new text).positionToOffset text line character =
      .ok (positionToByteOffset text ⟨line, character⟩)) ∧
    (∀ offset, (LineIndex.new text).offsetToPosition text offset = .ok (byteOffsetToPosition text offset)) ∧
    ∀ front rest, text = front ++ rest → ¬(front.getLast? = some '\r' ∧ rest.head? = some '\n') →
      positionToByteOffset text (byteOffsetToPosition text (byteLen front)) = some (byteLen front) := by
  have hmax : byteLen text ≤ U32_MAX := Nat.le_pred_of_lt h
  refine ⟨LineIndex.positionToOffset_eq hmax, LineIndex.offsetToPosition_eq hmax, ?_⟩
  intro front rest htext hjoint
  subst htext
  have hfit : Scan.start.Fits (front ++ rest) := by
    constructor <;> change 0 + _ ≤ _ <;> omega
  have hmin : min (byteLen front) (byteLen (front ++ rest)) = 0 + byteLen front := by
    rw [byteLen_append]
    omega
  have hclean : (front.foldl Scan.next .start).Clean rest :=
    fun h => hjoint ⟨(Scan.previousWasCr_walk front).mp h.1, h.2⟩
  have hback := characterScan_front hfit (fun h => by cases h) hclean (Nat.zero_add _).symm hmax
  rw [byteOffsetToPosition, hmin, offsetScan_front hfit]
  rw [Nat.zero_add] at hback
  rw [← hback]
  exact positionScan_eq (le_trans hmax (by decide))

/-- A line break of two bytes, a character of two units and a break at the end. -/
theorem lineIndex_agrees_sample :
    (∀ line character, (LineIndex.new ['a', '😀', '\r', '\n', 'β', '\n']).positionToOffset
      ['a', '😀', '\r', '\n', 'β', '\n'] line character =
        .ok (positionToByteOffset ['a', '😀', '\r', '\n', 'β', '\n'] ⟨line, character⟩)) ∧
    (∀ offset, (LineIndex.new ['a', '😀', '\r', '\n', 'β', '\n']).offsetToPosition
      ['a', '😀', '\r', '\n', 'β', '\n'] offset =
        .ok (byteOffsetToPosition ['a', '😀', '\r', '\n', 'β', '\n'] offset)) ∧
    ∀ front rest, ['a', '😀', '\r', '\n', 'β', '\n'] = front ++ rest →
      ¬(front.getLast? = some '\r' ∧ rest.head? = some '\n') →
      positionToByteOffset ['a', '😀', '\r', '\n', 'β', '\n']
        (byteOffsetToPosition ['a', '😀', '\r', '\n', 'β', '\n'] (byteLen front)) = some (byteLen front) :=
  lineIndex_agrees _ (by decide)

example : byteOffsetToPosition ['a', '😀', '\r', '\n', 'β'] 7 = ⟨1, 0⟩ := by decide

end Krusty.Lsp
