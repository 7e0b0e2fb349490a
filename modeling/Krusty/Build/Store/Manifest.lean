import Krusty.Build.CacheKey

/-! The manifest of a store entry: its text, the parser, and the round trip between them. -/
namespace Krusty.Build.Store

open Strings

def storeFormatVersion : ℕ := 3

/-- `isize::MAX`, the most bytes that one allocation has. -/
def isizeMax : ℕ := 2 ^ 63 - 1

structure FileRecord where
  path : Text
  length : UInt64
  content : Digest
  deriving DecidableEq

/-- The bytes that a record takes up in a vector. -/
def fileRecordSize : ℕ := 64

/-- The capacities for which `Vec::with_capacity` of records panics. -/
def capacityOverflows (count : ℕ) : Prop := isizeMax < count * fileRecordSize

instance (count : ℕ) : Decidable (capacityOverflows count) := inferInstanceAs (Decidable (_ < _))

structure Manifest where
  abi : AbiFingerprint
  files : List FileRecord
  deriving DecidableEq

namespace Manifest

def integrity (sha : List UInt8 → Digest) (m : Manifest) : Digest :=
  let head := (Hasher.new.nested "abi".toList m.abi.digest).count "files".toList m.files.length
  (m.files.foldl (fun hasher record =>
    ((hasher.text "path".toList record.path).field "length".toList
      (LittleEndian.leBytes 8 record.length.toNat)).nested "content".toList record.content) head).finish sha

def recordLine (record : FileRecord) : Text :=
  "file ".toList ++ decimal record.length.toNat ++ ' ' :: record.content.toText ++ ' ' :: record.path

def renderLines (sha : List UInt8 → Digest) (m : Manifest) : List Text :=
  ["version ".toList ++ decimal storeFormatVersion, "abi ".toList ++ m.abi.digest.toText,
    "count ".toList ++ decimal m.files.length] ++ m.files.map recordLine ++
    ["integrity ".toList ++ (m.integrity sha).toText, "end".toList]

def render (sha : List UInt8 → Digest) (m : Manifest) : Text := (m.renderLines sha).flatMap (· ++ ['\n'])

/-- Why `parse` gives no manifest: the text is not one, or it asks for more records than memory has. -/
inductive ParseFault where
  | malformed
  | panic
  deriving DecidableEq

/-- `?` on an option. -/
def orMalformed {α : Type} : Option α → Except ParseFault α
  | none => .error .malformed
  | some a => .ok a

/-- One record: `length content path`, where the path may itself contain spaces. -/
def parseRecord (line : Text) : Option FileRecord := do
  let rest ← stripPrefix "file ".toList line
  let (length, rest) ← splitOnce ' ' rest
  let (content, path) ← splitOnce ' ' rest
  let length ← parseUnsigned (2 ^ 64) length
  return { path, length := UInt64.ofNat length, content := ← Digest.parseHex content }

/-- The records of the given number of lines, and the lines after them. -/
def parseRecords : ℕ → List Text → Option (List FileRecord × List Text)
  | 0, lines => some ([], lines)
  | _ + 1, [] => none
  | count + 1, line :: lines => do
    let record ← parseRecord line
    let (records, lines) ← parseRecords count lines
    return (record :: records, lines)

/-- The first three lines: the version is checked, the ABI and the count are read. -/
def parseHead : List Text → Option (Digest × ℕ × List Text)
  | version :: abi :: count :: lines => do
    let version ← stripPrefix "version ".toList version
    if trim version ≠ decimal storeFormatVersion then none
    else
      let abi ← Digest.parseHex (trim (← stripPrefix "abi ".toList abi))
      let count ← parseUnsigned (2 ^ 64) (trim (← stripPrefix "count ".toList count))
      return (abi, count, lines)
  | _ => none

def parseTail : List Text → Option Digest
  | [integrity, last] => do
    let integrity ← Digest.parseHex (trim (← stripPrefix "integrity ".toList integrity))
    if last ≠ "end".toList then none else return integrity
  | _ => none

def parse (sha : List UInt8 → Digest) (text : Text) : Except ParseFault Manifest := do
  let (abi, count, lines) ← orMalformed (parseHead (lines text))
  if capacityOverflows count then throw .panic
  let (files, lines) ← orMalformed (parseRecords count lines)
  let integrity ← orMalformed (parseTail lines)
  let manifest : Manifest := { abi := ⟨abi⟩, files }
  if manifest.integrity sha = integrity then return manifest else throw .malformed

/-! ### What is rendered is parsed -/

/-- A path that keeps to its line. -/
def OneLine (path : Text) : Prop := '\n' ∉ path ∧ '\r' ∉ path

instance (path : Text) : Decidable (OneLine path) := inferInstanceAs (Decidable (_ ∧ _))

theorem digit_plain {n : ℕ} {c : Char} (h : c ∈ decimal n) :
    c ≠ ' ' ∧ c ≠ '\n' ∧ c ≠ '\r' ∧ isWhitespace c = false := by
  have hd := isDigit_of_mem_decimal h
  have hn : 48 ≤ c.toNat ∧ c.toNat ≤ 57 := by simpa [Char.isDigit, UInt32.le_iff_toNat_le] using hd
  refine ⟨?_, ?_, ?_, ?_⟩
  · rintro rfl; exact absurd hn (by decide)
  · rintro rfl; exact absurd hn (by decide)
  · rintro rfl; exact absurd hn (by decide)
  · simp only [isWhitespace, Bool.or_eq_false_iff, Bool.and_eq_false_iff, decide_eq_false_iff_not]
    omega

theorem hex_plain {d : Digest} {c : Char} (h : c ∈ d.toText) : c ≠ ' ' ∧ c ≠ '\n' ∧ c ≠ '\r' := by
  obtain ⟨n, hn, rfl⟩ := Digest.mem_toText h
  have hall : ∀ n < 16, Digest.hexDigit n ≠ ' ' ∧ Digest.hexDigit n ≠ '\n' ∧ Digest.hexDigit n ≠ '\r' := by
    decide +kernel
  exact hall n hn

theorem trim_decimal (n : ℕ) : trim (decimal n) = decimal n :=
  trim_eq_self fun _ hc => (digit_plain hc).2.2.2

theorem decimal_oneLine (n : ℕ) : OneLine (decimal n) :=
  ⟨fun h => (digit_plain h).2.1 rfl, fun h => (digit_plain h).2.2.1 rfl⟩

theorem hex_oneLine (d : Digest) : OneLine d.toText :=
  ⟨fun h => (hex_plain h).2.1 rfl, fun h => (hex_plain h).2.2 rfl⟩

theorem OneLine.append {a b : Text} (ha : OneLine a) (hb : OneLine b) : OneLine (a ++ b) :=
  ⟨by simp [ha.1, hb.1], by simp [ha.2, hb.2]⟩

theorem OneLine.space {a : Text} (ha : OneLine a) : OneLine (' ' :: a) := ⟨by simp [ha.1], by simp [ha.2]⟩

theorem recordLine_oneLine {record : FileRecord} (h : OneLine record.path) : OneLine (recordLine record) := by
  have hf : OneLine "file ".toList := by decide
  exact ((hf.append (decimal_oneLine _)).append (hex_oneLine _).space).append h.space

theorem renderLines_oneLine {sha : List UInt8 → Digest} {m : Manifest} (h : ∀ f ∈ m.files, OneLine f.path) :
    ∀ l ∈ m.renderLines sha, OneLine l := by
  have hv : OneLine "version ".toList := by decide
  have ha : OneLine "abi ".toList := by decide
  have hc : OneLine "count ".toList := by decide
  have hi : OneLine "integrity ".toList := by decide
  have he : OneLine "end".toList := by decide
  intro l hl
  simp only [renderLines, List.mem_append, List.mem_cons, List.not_mem_nil, or_false, List.mem_map] at hl
  rcases hl with ((rfl | rfl | rfl) | ⟨f, hf, rfl⟩) | rfl | rfl
  · exact hv.append (decimal_oneLine _)
  · exact ha.append (hex_oneLine _)
  · exact hc.append (decimal_oneLine _)
  · exact recordLine_oneLine (h f hf)
  · exact hi.append (hex_oneLine _)
  · exact he

theorem lines_render {sha : List UInt8 → Digest} {m : Manifest} (h : ∀ f ∈ m.files, OneLine f.path) :
    lines (m.render sha) = m.renderLines sha :=
  lines_unlines (fun l hl => (renderLines_oneLine h l hl).1)
    fun l hl hlast => (renderLines_oneLine h l hl).2 (List.mem_of_getLast? hlast)

theorem parseRecord_recordLine (record : FileRecord) : parseRecord (recordLine record) = some record := by
  have hl : ' ' ∉ decimal record.length.toNat := fun h => (digit_plain h).1 rfl
  have hc : ' ' ∉ record.content.toText := fun h => (hex_plain h).1 rfl
  have hr : recordLine record = "file ".toList ++
      (decimal record.length.toNat ++ ' ' :: (record.content.toText ++ ' ' :: record.path)) := by
    simp [recordLine]
  have hn : parseUnsigned (2 ^ 64) (decimal record.length.toNat) = some record.length.toNat :=
    parseUnsigned_decimal record.length.toNat_lt
  rw [parseRecord, hr, stripPrefix_append, Option.bind_eq_bind, Option.bind_some, splitOnce_append hl]
  simp only [Option.bind_eq_bind, Option.bind_some, splitOnce_append hc, hn, Digest.parseHex_toText,
    UInt64.ofNat_toNat, pure]

theorem parseRecords_map (records : List FileRecord) (rest : List Text) :
    parseRecords records.length (records.map recordLine ++ rest) = some (records, rest) := by
  induction records with
  | nil => rfl
  | cons record records ih =>
    rw [List.map_cons, List.cons_append, List.length_cons, parseRecords, parseRecord_recordLine, ih]
    rfl

/-- The manifest of an entry is read back from its text. -/
theorem parse_render (sha : List UInt8 → Digest) {m : Manifest} (h : ∀ f ∈ m.files, OneLine f.path)
    (hc : ¬ capacityOverflows m.files.length) : parse sha (m.render sha) = .ok m := by
  have hn : m.files.length < 2 ^ 64 := by
    simp only [capacityOverflows, isizeMax, fileRecordSize] at hc
    omega
  have hhead : parseHead (m.renderLines sha) = some (m.abi.digest, m.files.length,
      m.files.map recordLine ++ ["integrity ".toList ++ (m.integrity sha).toText, "end".toList]) := by
    simp only [renderLines, List.cons_append, List.nil_append, parseHead, stripPrefix_append,
      Option.bind_eq_bind, Option.bind_some, trim_decimal, Digest.trim_toText, Digest.parseHex_toText,
      parseUnsigned_decimal hn]
    rfl
  have htail : parseTail ["integrity ".toList ++ (m.integrity sha).toText, "end".toList] =
      some (m.integrity sha) := by
    simp only [parseTail, stripPrefix_append, Option.bind_eq_bind, Option.bind_some, Digest.trim_toText,
      Digest.parseHex_toText]
    rfl
  rw [parse, lines_render h, hhead]
  simp only [orMalformed, bind, Except.bind, if_neg hc, parseRecords_map, htail, pure, Except.pure, if_true]

end Manifest

end Krusty.Build.Store
