import Krusty.Lib.Strings
import Mathlib

/-! Positions and byte offsets: the two scans of a text and the index of its line starts. -/
namespace Krusty.Lsp

open Strings

def U32_MAX : ℕ := 2 ^ 32 - 1

/-- `usize::MAX` where a pointer has 64 bits. -/
def USIZE_MAX : ℕ := 2 ^ 64 - 1

/-- `u32::try_from`. -/
def u32? (n : ℕ) : Option ℕ := if n ≤ U32_MAX then some n else none

def checkedAdd (a b : ℕ) : Option ℕ := u32? (a + b)

def saturatingAdd (a b : ℕ) : ℕ := min (a + b) U32_MAX

def byteLen (text : Text) : ℕ := (text.map Char.utf8Size).sum

/-- `char::len_utf16`. -/
def lenUtf16 (c : Char) : ℕ := if c.toNat < 0x10000 then 1 else 2

/-- An index or a slice that the text does not have. -/
inductive Fault where
  | panic
deriving DecidableEq

/-- An LSP position, its character counted in UTF-16 code units. -/
structure Position where
  line : ℕ
  character : ℕ
deriving DecidableEq

/-- The three variables of every scan. -/
structure Scan extends Position where
  previousWasCr : Bool
deriving DecidableEq

namespace Scan

def start : Scan := ⟨⟨0, 0⟩, false⟩

/-- One character with checked additions. -/
def checked (s : Scan) (c : Char) : Option Scan :=
  if c = '\r' then (checkedAdd s.line 1).map fun line => ⟨⟨line, 0⟩, true⟩
  else if c = '\n' then
    if s.previousWasCr then some ⟨⟨s.line, 0⟩, false⟩
    else (checkedAdd s.line 1).map fun line => ⟨⟨line, 0⟩, false⟩
  else (checkedAdd s.character (lenUtf16 c)).map fun character => ⟨⟨s.line, character⟩, false⟩

/-- One character with saturating additions. -/
def saturating (s : Scan) (c : Char) : Scan :=
  if c = '\r' then ⟨⟨saturatingAdd s.line 1, 0⟩, true⟩
  else if c = '\n' then
    if s.previousWasCr then ⟨⟨s.line, 0⟩, false⟩ else ⟨⟨saturatingAdd s.line 1, 0⟩, false⟩
  else ⟨⟨s.line, saturatingAdd s.character (lenUtf16 c)⟩, false⟩

/-- The scan stands at the target, not between a carriage return and its line feed. -/
def At (s : Scan) (target : Position) (c : Char) : Prop :=
  ¬(s.previousWasCr = true ∧ c = '\n') ∧ s.line = target.line ∧ s.character = target.character

instance (s : Scan) (target : Position) (c : Char) : Decidable (s.At target c) :=
  inferInstanceAs (Decidable (_ ∧ _))

def Past (s : Scan) (target : Position) : Prop :=
  target.line < s.line ∨ s.line = target.line ∧ target.character < s.character

instance (s : Scan) (target : Position) : Decidable (s.Past target) := inferInstanceAs (Decidable (_ ∨ _))

end Scan

/-! ### The scans from the start of the text -/

/-- What is left of the text from `byte` on; the answer comes with the budget that is left. -/
def positionScan (len : ℕ) (target : Position) : Text → ℕ → Scan → ℕ → Option ℕ × ℕ
  | [], _, s, budget =>
    (if s.line = target.line ∧ s.character = target.character then u32? len else none, budget)
  | c :: rest, byte, s, budget =>
    if s.At target c then (u32? byte, budget)
    else if budget < c.utf8Size then (none, budget)
    else
      match s.checked c with
      | none => (none, budget - c.utf8Size)
      | some next =>
        if next.Past target then (none, budget - c.utf8Size)
        else positionScan len target rest (byte + c.utf8Size) next (budget - c.utf8Size)

def positionToByteOffsetWithBudget (text : Text) (target : Position) (scanBudget : ℕ) : Option ℕ × ℕ :=
  positionScan (byteLen text) target text 0 .start scanBudget

def positionToByteOffset (text : Text) (target : Position) : Option ℕ :=
  (positionToByteOffsetWithBudget text target USIZE_MAX).1

/-- The scan up to a limit in bytes. -/
def offsetScan (limit : ℕ) : Text → ℕ → Scan → Scan
  | [], _, s => s
  | c :: rest, byte, s =>
    if limit ≤ byte ∨ limit < byte + c.utf8Size then s
    else offsetScan limit rest (byte + c.utf8Size) (s.saturating c)

def byteOffsetToPosition (text : Text) (offset : ℕ) : Position :=
  (offsetScan (min offset (byteLen text)) text 0 .start).toPosition

/-! ### The index -/

/-- The number of bytes that a first byte announces. -/
def utf8CharLen (byte : UInt8) : ℕ :=
  if byte ≤ 0x7f then 1
  else if 0xc0 ≤ byte ∧ byte ≤ 0xdf then 2
  else if 0xe0 ≤ byte ∧ byte ≤ 0xef then 3
  else if 0xf0 ≤ byte ∧ byte ≤ 0xf7 then 4
  else 1

/-- The line starts after `index`, of the bytes that are left there. -/
def lineStarts : List UInt8 → ℕ → List ℕ
  | [], _ => []
  | byte :: rest, index =>
    if byte = 0x0d then
      if rest.head? = some 0x0a then (u32? (index + 2)).getD U32_MAX :: lineStarts rest.tail (index + 2)
      else (u32? (index + 1)).getD U32_MAX :: lineStarts rest (index + 1)
    else if byte = 0x0a then (u32? (index + 1)).getD U32_MAX :: lineStarts rest (index + 1)
    else lineStarts (rest.drop (utf8CharLen byte - 1)) (index + utf8CharLen byte)
termination_by bytes => bytes.length
decreasing_by all_goals simp

structure LineIndex where
  starts : List ℕ

/-- `slice::binary_search` of a sorted slice: where the value is, or else where it would be put. -/
def binarySearch (xs : List ℕ) (x : ℕ) : Except ℕ ℕ :=
  match xs.idxOf? x with
  | some index => .ok index
  | none => .error (xs.takeWhile (· < x)).length

/-- `&text[start..]`. -/
def sliceFrom : Text → ℕ → Except Fault Text
  | text, 0 => .ok text
  | [], _ + 1 => .error .panic
  | c :: rest, start + 1 => if start + 1 < c.utf8Size then .error .panic else sliceFrom rest (start + 1 - c.utf8Size)

/-- The scan of one line for its character. -/
def characterScan (len line character : ℕ) : Text → ℕ → Scan → Option ℕ
  | [], _, s => if s.line = line ∧ s.character = character then u32? len else none
  | c :: rest, byte, s =>
    if s.At ⟨line, character⟩ c then u32? byte
    else
      match s.checked c with
      | none => none
      | some next =>
        if next.Past ⟨line, character⟩ then none
        else characterScan len line character rest (byte + c.utf8Size) next

namespace LineIndex

def new (text : Text) : LineIndex := ⟨0 :: lineStarts (toUtf8 text) 0⟩

def positionToOffset (self : LineIndex) (text : Text) (line character : ℕ) : Except Fault (Option ℕ) :=
  match self.starts[line]? with
  | none => .ok none
  | some start =>
    if byteLen text < start then .ok none
    else do
      let rest ← sliceFrom text start
      return characterScan (byteLen text) line character rest start ⟨⟨line, 0⟩, false⟩

def lineAt (self : LineIndex) (offset : ℕ) : ℕ :=
  match binarySearch self.starts ((u32? offset).getD U32_MAX) with
  | .ok index => index
  | .error index => index - 1

def offsetToPosition (self : LineIndex) (text : Text) (offset : ℕ) : Except Fault Position :=
  let limit := min offset (byteLen text)
  let line := self.lineAt limit
  match self.starts[line]? with
  | none => .error .panic
  | some start => do
    let rest ← sliceFrom text start
    return (offsetScan limit rest start ⟨⟨(u32? line).getD U32_MAX, 0⟩, false⟩).toPosition

end LineIndex

end Krusty.Lsp
