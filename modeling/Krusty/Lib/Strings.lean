import Mathlib.Data.List.Basic

/-! Text as a list of characters: UTF-8, lines, prefixes and numbers. -/
namespace Strings

abbrev Text := List Char

instance instLawfulBEqText : LawfulBEq Text := inferInstance

/-! ### UTF-8 -/

def toUtf8 (text : Text) : List UInt8 := text.flatMap String.utf8EncodeChar

def fromUtf8 (bytes : List UInt8) : Option Text := bytes.toByteArray.utf8Decode?.map (·.toList)

theorem utf8Encode_eq (text : Text) : text.utf8Encode = (toUtf8 text).toByteArray := rfl

theorem fromUtf8_toUtf8 (text : Text) : fromUtf8 (toUtf8 text) = some text := by
  rw [fromUtf8, ← utf8Encode_eq, List.utf8Decode?_utf8Encode]
  rfl

/-! ### Numbers -/

def decimal (n : ℕ) : Text := Nat.toDigits 10 n

/-- An unsigned number below a limit: digits, with a plus sign or without. -/
def parseUnsigned (limit : ℕ) (text : Text) : Option ℕ :=
  let digits := if text.head? = some '+' then text.tail else text
  if digits = [] ∨ digits.all Char.isDigit = false then none
  else if Nat.ofDigitChars 10 digits 0 < limit then some (Nat.ofDigitChars 10 digits 0)
  else none

theorem isDigit_of_mem_decimal {n : ℕ} {c : Char} (h : c ∈ decimal n) : c.isDigit :=
  Nat.isDigit_of_mem_toDigits (by decide) (by decide) h

theorem parseUnsigned_decimal {limit n : ℕ} (h : n < limit) : parseUnsigned limit (decimal n) = some n := by
  have hne : decimal n ≠ [] := Nat.toDigits_ne_nil
  have hplus : (decimal n).head? ≠ some '+' := fun hp => by
    have hd := isDigit_of_mem_decimal (List.mem_of_mem_head? hp)
    exact absurd hd (by decide)
  have hall : (decimal n).all Char.isDigit = true := List.all_eq_true.mpr fun c hc => isDigit_of_mem_decimal hc
  have hv : Nat.ofDigitChars 10 (decimal n) 0 = n := Nat.ofDigitChars_toDigits (by decide) (by decide)
  simp [parseUnsigned, hplus, hne, hall, hv, h]

/-! ### Parts of a text -/

def isControl (c : Char) : Bool := c.toNat < 0x20 || (0x7f ≤ c.toNat && c.toNat < 0xa0)

def isWhitespace (c : Char) : Bool :=
  (0x9 ≤ c.toNat && c.toNat ≤ 0xd) || c.toNat = 0x20 || c.toNat = 0x85 || c.toNat = 0xa0 || c.toNat = 0x1680 ||
    (0x2000 ≤ c.toNat && c.toNat ≤ 0x200a) || c.toNat = 0x2028 || c.toNat = 0x2029 || c.toNat = 0x202f ||
    c.toNat = 0x205f || c.toNat = 0x3000

/-- The text without the white space at its two ends. -/
def trim (text : Text) : Text := ((text.dropWhile isWhitespace).reverse.dropWhile isWhitespace).reverse

def stripPrefix (start text : Text) : Option Text :=
  if start.isPrefixOf text then some (text.drop start.length) else none

/-- The text before and after the first place of a character. -/
def splitOnce (c : Char) (text : Text) : Option (Text × Text) :=
  if c ∈ text then some (text.takeWhile (· ≠ c), (text.dropWhile (· ≠ c)).tail) else none

/-- A line without its carriage return. -/
def stripReturn (line : Text) : Text := if line.getLast? = some '\r' then line.dropLast else line

/-- The lines, each ended by a line feed or a carriage return with one; what follows the last line feed is
a line unless it is empty. -/
def lines (text : Text) : List Text :=
  let pieces := text.splitOn '\n'
  pieces.dropLast.map stripReturn ++ (if pieces.getLastD [] = [] then [] else [pieces.getLastD []])

theorem trim_eq_self {text : Text} (h : ∀ c ∈ text, isWhitespace c = false) : trim text = text := by
  have hd : ∀ t : Text, (∀ c ∈ t, isWhitespace c = false) → t.dropWhile isWhitespace = t := by
    intro t ht
    cases t with
    | nil => rfl
    | cons c t => simp [ht c (List.mem_cons_self ..)]
  rw [trim, hd text h, hd text.reverse (fun c hc => h c (List.mem_reverse.mp hc)), List.reverse_reverse]

theorem stripPrefix_append (start text : Text) : stripPrefix start (start ++ text) = some text := by
  rw [stripPrefix, if_pos (by simp), List.drop_left]

theorem splitOnce_append {c : Char} {before : Text} (h : c ∉ before) (after : Text) :
    splitOnce c (before ++ c :: after) = some (before, after) := by
  have hb : ∀ d ∈ before, decide (d ≠ c) = true := fun d hd => by
    rw [decide_eq_true_eq]
    exact fun he => h (he ▸ hd)
  rw [splitOnce, if_pos (by simp), List.takeWhile_append_of_pos hb, List.dropWhile_append_of_pos hb]
  simp

/-- Lines written one after the other are read back. -/
theorem lines_unlines {ls : List Text} (hn : ∀ l ∈ ls, '\n' ∉ l) (hr : ∀ l ∈ ls, l.getLast? ≠ some '\r') :
    lines (ls.flatMap (· ++ ['\n'])) = ls := by
  have hi : ls.flatMap (· ++ ['\n']) = ['\n'].intercalate (ls ++ [[]]) := by
    induction ls with
    | nil => rfl
    | cons l ls ih =>
      have ih := ih (fun l h => hn l (List.mem_cons_of_mem _ h)) (fun l h => hr l (List.mem_cons_of_mem _ h))
      rw [List.flatMap_cons, ih]
      cases ls with
      | nil => simp [List.intercalate]
      | cons k ls => simp [List.intercalate]
  have hs : (ls.flatMap (· ++ ['\n'])).splitOn '\n' = ls ++ [[]] := by
    rw [hi]
    apply List.splitOn_intercalate
    · intro l hl
      rcases List.mem_append.mp hl with hl | hl
      · exact hn l hl
      · rw [List.mem_singleton.mp hl]
        exact List.not_mem_nil
    · simp
  have hm : ls.map stripReturn = ls := by
    refine (List.map_congr_left fun l hl => ?_).trans (List.map_id ls)
    rw [stripReturn, if_neg, id]
    exact hr l hl
  simp [lines, hs, hm]

end Strings
