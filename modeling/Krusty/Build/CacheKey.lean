import Krusty.Lib.LittleEndian
import Krusty.Lib.Strings

/-! Content digests, their hexadecimal form, and the bytes that a sequence of fields absorbs. -/
namespace Krusty.Build

open Strings

structure Digest where
  bytes : List UInt8
  length_eq : bytes.length = 32
  deriving DecidableEq

namespace Digest

def hexDigit (n : ℕ) : Char := if n < 10 then Char.ofNat (48 + n) else Char.ofNat (87 + n)

/-- `char::to_digit` in base 16. -/
def hexValue (c : Char) : Option ℕ :=
  if '0' ≤ c ∧ c ≤ '9' then some (c.toNat - 48)
  else if 'a' ≤ c ∧ c ≤ 'f' then some (c.toNat - 87)
  else if 'A' ≤ c ∧ c ≤ 'F' then some (c.toNat - 55)
  else none

def toText (d : Digest) : Text := d.bytes.flatMap fun b => [hexDigit (b.toNat / 16), hexDigit (b.toNat % 16)]

/-- `u8::from_str_radix` of two characters: the first may be a plus sign. -/
def parseByte (c d : Char) : Option UInt8 :=
  if c = '+' then (hexValue d).map UInt8.ofNat
  else do return UInt8.ofNat (16 * (← hexValue c) + (← hexValue d))

def parsePairs : Text → Option (List UInt8)
  | [] => some []
  | [_] => none
  | c :: d :: rest => do return (← parseByte c d) :: (← parsePairs rest)

/-- The digest of 64 bytes of text. A character of several bytes is no hexadecimal digit. -/
def parseHex (text : Text) : Option Digest :=
  if (toUtf8 text).length ≠ 64 then none
  else (parsePairs text).bind fun bytes => if h : bytes.length = 32 then some ⟨bytes, h⟩ else none

theorem parseByte_hexDigit (b : UInt8) : parseByte (hexDigit (b.toNat / 16)) (hexDigit (b.toNat % 16)) = some b := by
  have h : ∀ n < 256, parseByte (hexDigit (n / 16)) (hexDigit (n % 16)) = some (UInt8.ofNat n) := by decide +kernel
  rw [h b.toNat b.toNat_lt, UInt8.ofNat_toNat]

theorem hexDigit_plain (n : ℕ) (h : n < 16) :
    (hexDigit n).utf8Size = 1 ∧ isControl (hexDigit n) = false ∧ isWhitespace (hexDigit n) = false := by
  have hall : ∀ n < 16, (hexDigit n).utf8Size = 1 ∧ isControl (hexDigit n) = false ∧
      isWhitespace (hexDigit n) = false := by decide +kernel
  exact hall n h

theorem parsePairs_flatMap (bytes : List UInt8) :
    parsePairs (bytes.flatMap fun b => [hexDigit (b.toNat / 16), hexDigit (b.toNat % 16)]) = some bytes := by
  induction bytes with
  | nil => rfl
  | cons b bytes ih =>
    rw [List.flatMap_cons, List.cons_append, List.cons_append, List.nil_append, parsePairs,
      parseByte_hexDigit, ih]
    rfl

/-- The characters of a digest's text are hexadecimal digits. -/
theorem mem_toText {d : Digest} {c : Char} (h : c ∈ d.toText) : ∃ n < 16, c = hexDigit n := by
  obtain ⟨b, -, hc⟩ := List.mem_flatMap.mp h
  have hb := b.toNat_lt
  rcases List.mem_cons.mp hc with rfl | hc
  · exact ⟨b.toNat / 16, by omega, rfl⟩
  · exact ⟨b.toNat % 16, by omega, List.mem_singleton.mp hc⟩

theorem toUtf8_length_toText (d : Digest) : (toUtf8 d.toText).length = 64 := by
  have hl : ∀ text : Text, (∀ c ∈ text, c.utf8Size = 1) → (toUtf8 text).length = text.length := by
    intro text ht
    induction text with
    | nil => rfl
    | cons c text ih =>
      have hc := ht c (List.mem_cons_self ..)
      have hi := ih fun d hd => ht d (List.mem_cons_of_mem _ hd)
      rw [toUtf8] at hi ⊢
      rw [List.flatMap_cons, List.length_append, String.length_utf8EncodeChar, hc, hi, List.length_cons]
      omega
  have hs : ∀ c ∈ d.toText, c.utf8Size = 1 := by
    intro c hc
    obtain ⟨n, hn, rfl⟩ := mem_toText hc
    exact (hexDigit_plain n hn).1
  rw [hl _ hs, toText, List.length_flatMap]
  simp [d.length_eq]

theorem parseHex_toText (d : Digest) : parseHex d.toText = some d := by
  rw [parseHex, if_neg (by simp [toUtf8_length_toText]), toText, parsePairs_flatMap, Option.bind_some,
    dif_pos d.length_eq]

theorem trim_toText (d : Digest) : trim d.toText = d.toText := by
  apply trim_eq_self
  intro c hc
  obtain ⟨n, hn, rfl⟩ := mem_toText hc
  exact (hexDigit_plain n hn).2.2

end Digest

structure CacheKey where
  digest : Digest
  deriving DecidableEq

/-- A module's ABI condensed to one value. -/
structure AbiFingerprint where
  digest : Digest
  deriving DecidableEq

/-- The bytes that a hasher was fed. -/
structure Hasher where
  absorbed : List UInt8

namespace Hasher

def new : Hasher := ⟨[]⟩

/-- One tagged field: the tag's length and bytes, then the value's. -/
def field (h : Hasher) (tag : Text) (value : List UInt8) : Hasher :=
  ⟨h.absorbed ++ LittleEndian.leBytes 8 (toUtf8 tag).length ++ toUtf8 tag ++
    LittleEndian.leBytes 8 value.length ++ value⟩

def text (h : Hasher) (tag value : Text) : Hasher := h.field tag (toUtf8 value)

def count (h : Hasher) (tag : Text) (value : ℕ) : Hasher := h.field tag (LittleEndian.leBytes 8 value)

def nested (h : Hasher) (tag : Text) (value : Digest) : Hasher := h.field tag value.bytes

/-- The digest of what was absorbed, by the hash function in use. -/
def finish (sha : List UInt8 → Digest) (h : Hasher) : Digest := sha h.absorbed

end Hasher

end Krusty.Build

/-! The cache key: everything that decides a module's output. -/
namespace Krusty.Build

open Strings

/-- Stable identity of a module, as its build system names it. -/
abbrev ModuleId := Text

/-- A file identified by both its path, in the bytes of the system, and its content. -/
structure FileDigest where
  path : List UInt8
  content : Digest
  deriving DecidableEq

def FileDigest.absorb (f : FileDigest) (tag : Text) (hasher : Hasher) : Hasher :=
  (hasher.field tag f.path).nested "content".toList f.content

/-- Everything that decides a module's output. -/
structure CacheKeyInputs where
  compiler : Text
  compilerFlags : List Text
  environment : List (Text × List UInt8)
  jdkIdentity : Text
  sources : List FileDigest
  classpath : List FileDigest
  friendPaths : List FileDigest
  dependencyAbis : List (ModuleId × AbiFingerprint)
  plugins : List FileDigest
  pluginOptions : List Text
  target : Text
  deriving DecidableEq

namespace CacheKeyInputs

/-- A counted list, each item absorbed in its own way. -/
def absorbAll {α : Type} (tag : Text) (items : List α) (absorb : α → Hasher → Hasher) (hasher : Hasher) : Hasher :=
  items.foldl (fun hasher item => absorb item hasher) (hasher.count tag items.length)

def absorb (i : CacheKeyInputs) (hasher : Hasher) : Hasher :=
  let hasher := hasher.text "compiler".toList i.compiler
  let hasher := absorbAll "flags".toList i.compilerFlags (fun flag h => h.text "flag".toList flag) hasher
  let hasher := absorbAll "environment".toList i.environment
    (fun e h => (h.text "env-name".toList e.1).field "env-value".toList e.2) hasher
  let hasher := hasher.text "jdk".toList i.jdkIdentity
  let hasher := absorbAll "sources".toList i.sources (·.absorb "source".toList) hasher
  let hasher := absorbAll "classpath".toList i.classpath (·.absorb "classpath".toList) hasher
  let hasher := absorbAll "friends".toList i.friendPaths (·.absorb "friend".toList) hasher
  let hasher := absorbAll "dependencies".toList i.dependencyAbis
    (fun d h => (h.text "dependency".toList d.1).nested "abi".toList d.2.digest) hasher
  let hasher := absorbAll "plugins".toList i.plugins (·.absorb "plugin".toList) hasher
  let hasher := absorbAll "plugin-options".toList i.pluginOptions (fun o h => h.text "plugin-option".toList o) hasher
  hasher.text "target".toList i.target

def key (sha : List UInt8 → Digest) (i : CacheKeyInputs) : CacheKey := ⟨(i.absorb Hasher.new).finish sha⟩

end CacheKeyInputs

end Krusty.Build
