import Krusty.Lib.Strings
import Mathlib

/-! JSON values and their compact serialisation. -/
namespace Json

open Strings

/-- A number: an integer of 64 bits, or else the text that a double is printed as. -/
inductive Number where
  | posInt (n : UInt64)
  | negInt (n : Int64)
  | float (text : Text)

inductive Value where
  | null
  | bool (b : Bool)
  | number (n : Number)
  | string (s : Text)
  | array (elements : List Value)
  /-- The fields in the order of the map. -/
  | object (fields : List (Text × Value))

namespace Value

def u32 (n : UInt32) : Value := .number (.posInt n.toUInt64)

def numbers (data : List UInt32) : Value := .array (data.map u32)

end Value

/-! ### Serialisation -/

def Number.text : Number → Text
  | .posInt n => decimal n.toNat
  | .negInt n => (toString n.toInt).toList
  | .float text => text

/-- A character of a string: quotes, the backslash and the controls are escaped. -/
def escape (c : Char) : Text :=
  if c = '"' then ['\\', '"']
  else if c = '\\' then ['\\', '\\']
  else if c.toNat = 0x08 then ['\\', 'b']
  else if c.toNat = 0x0c then ['\\', 'f']
  else if c = '\n' then ['\\', 'n']
  else if c = '\r' then ['\\', 'r']
  else if c = '\t' then ['\\', 't']
  else if c.toNat < 0x20 then ['\\', 'u', '0', '0', Nat.digitChar (c.toNat / 16), Nat.digitChar (c.toNat % 16)]
  else [c]

def quoted (s : Text) : Text := '"' :: s.flatMap escape ++ ['"']

mutual

def Value.text : Value → Text
  | .null => ['n', 'u', 'l', 'l']
  | .bool true => ['t', 'r', 'u', 'e']
  | .bool false => ['f', 'a', 'l', 's', 'e']
  | .number n => n.text
  | .string s => quoted s
  | .array elements => '[' :: [','].intercalate (elementTexts elements) ++ [']']
  | .object fields => '\x7b' :: [','].intercalate (fieldTexts fields) ++ ['\x7d']

def elementTexts : List Value → List Text
  | [] => []
  | value :: rest => value.text :: elementTexts rest

def fieldTexts : List (Text × Value) → List Text
  | [] => []
  | (key, value) :: rest => (quoted key ++ ':' :: value.text) :: fieldTexts rest

end

/-- `serde_json::to_vec`. -/
def toVec (value : Value) : List UInt8 := toUtf8 value.text

/-! ### Lengths -/

theorem toUtf8_append (front rest : Text) : toUtf8 (front ++ rest) = toUtf8 front ++ toUtf8 rest :=
  List.flatMap_append

theorem toUtf8_cons (c : Char) (rest : Text) : toUtf8 (c :: rest) = String.utf8EncodeChar c ++ toUtf8 rest := rfl

theorem length_toUtf8 {text : Text} (h : ∀ c ∈ text, c.utf8Size = 1) : (toUtf8 text).length = text.length := by
  induction text with
  | nil => rfl
  | cons c text ih =>
    rw [toUtf8_cons, List.length_append, String.length_utf8EncodeChar, h c List.mem_cons_self,
      ih fun c hc => h c (List.mem_cons_of_mem _ hc), List.length_cons, Nat.add_comm]

theorem utf8Size_isDigit {c : Char} (h : c.isDigit = true) : c.utf8Size = 1 := by
  have hle : c.val ≤ 57 := by
    rw [Char.isDigit, Bool.and_eq_true, decide_eq_true_eq, decide_eq_true_eq] at h
    exact h.2
  rw [Char.utf8Size_eq_one_iff]
  exact UInt32.le_trans hle (by decide)

theorem length_decimal (n : ℕ) : (decimal n).length = Nat.log 10 n + 1 := by
  have hlength (k : ℕ) (hk : 0 < k) : (decimal n).length ≤ k ↔ n < 10 ^ k := Nat.length_toDigits_le_iff (by decide) hk
  have hpos : 0 < (decimal n).length := Nat.length_toDigits_pos
  have hle : (decimal n).length ≤ Nat.log 10 n + 1 := (hlength _ (Nat.succ_pos _)).mpr (Nat.lt_pow_succ_log_self (by decide) n)
  have hlt : Nat.log 10 n < (decimal n).length := by
    have hpow : n < 10 ^ (decimal n).length := (hlength _ hpos).mp le_rfl
    exact Nat.log_lt_of_lt_pow' hpos.ne' hpow
  omega

theorem length_u32 (n : UInt32) : (toUtf8 (Value.u32 n).text).length = Nat.log 10 n.toNat + 1 := by
  rw [Value.u32, Value.text, Number.text, length_toUtf8 fun c hc => utf8Size_isDigit (isDigit_of_mem_decimal hc),
    length_decimal, UInt32.toNat_toUInt64]

/-- The bytes of an array's elements, a comma between two of them. -/
def elementsLength (data : List UInt32) : ℕ :=
  (data.map fun n => Nat.log 10 n.toNat + 1).sum + (data.length - 1)

theorem length_elements (data : List UInt32) :
    (toUtf8 ([','].intercalate (elementTexts (data.map Value.u32)))).length = elementsLength data := by
  induction data with
  | nil => rfl
  | cons n data ih =>
    cases data with
    | nil =>
      rw [List.map_singleton, elementTexts, elementTexts, List.intercalate_singleton, length_u32]
      rfl
    | cons m data =>
      rw [List.map_cons, elementTexts, List.map_cons, elementTexts, List.intercalate_cons_cons, ← elementTexts,
        ← List.map_cons, toUtf8_append, toUtf8_append, List.length_append, List.length_append, ih, length_u32]
      have hcomma : (toUtf8 [',']).length = 1 := rfl
      simp only [hcomma, elementsLength, List.map_cons, List.sum_cons, List.length_cons]
      omega

theorem elementsLength_append {front data : List UInt32} (hdata : data ≠ []) :
    elementsLength (front ++ data) = elementsLength front + elementsLength data + if front = [] then 0 else 1 := by
  have hpos := List.length_pos_iff.mpr hdata
  simp only [elementsLength, List.map_append, List.sum_append, List.length_append]
  split_ifs with hfront
  · subst hfront
    simp only [List.map_nil, List.sum_nil, List.length_nil]
    omega
  · have hpos' := List.length_pos_iff.mpr hfront
    omega

theorem length_numbers (data : List UInt32) : (toVec (.numbers data)).length = elementsLength data + 2 := by
  rw [toVec, Value.numbers, Value.text, List.cons_append, toUtf8_cons, toUtf8_append, List.length_append,
    List.length_append, length_elements]
  have hopen : (String.utf8EncodeChar '[').length = 1 := rfl
  have hclose : (toUtf8 [']']).length = 1 := rfl
  omega

end Json
