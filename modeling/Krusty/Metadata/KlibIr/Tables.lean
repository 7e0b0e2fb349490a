import Krusty.Lib.LittleEndian
import Krusty.Lib.Stretches
import Krusty.Metadata.KlibIr.Wire

/-! The container of serialized KLIB IR: the tables of a per-file blob and the fields of a message. -/
namespace Krusty.Metadata.KlibIr

/-- A reader stops short with an error of its own, or at an unchecked operation that leaves the host's words. -/
inductive Halt where
  | error (error : KlibIrDecodeError)
  | overflow

abbrev Reading (α : Type) := Except Halt α

/-- A host by the width of its `usize`, which holds every `u32`. -/
structure Host where
  bits : ℕ
  wide : 32 ≤ bits

namespace Host

variable (host : Host)

/-- No slice is longer than `isize::MAX` bytes. -/
def Slice := {bytes : List UInt8 // bytes.length < 2 ^ (host.bits - 1)}

def checkedAdd (a b : ℕ) : Option ℕ := if a + b < 2 ^ host.bits then some (a + b) else none

def checkedMul (a b : ℕ) : Option ℕ := if a * b < 2 ^ host.bits then some (a * b) else none

def saturatingAdd (a b : ℕ) : ℕ := min (a + b) (2 ^ host.bits - 1)

def add (a b : ℕ) : Reading ℕ := if a + b < 2 ^ host.bits then .ok (a + b) else .error .overflow

def mul (a b : ℕ) : Reading ℕ := if a * b < 2 ^ host.bits then .ok (a * b) else .error .overflow

def sub (a b : ℕ) : Reading ℕ := if b ≤ a then .ok (a - b) else .error .overflow

/-- `usize::try_from` on a `u64`. -/
def tryFrom (value : UInt64) : Option ℕ := if value.toNat < 2 ^ host.bits then some value.toNat else none

end Host

def malformed {α : Type} (entry : String) (offset : ℕ) (detail : String) : Reading α :=
  .error (.error (.malformed entry offset detail))

def okOrMalformed {α : Type} (result : Option α) (entry : String) (offset : ℕ) (detail : String) : Reading α :=
  match result with
  | some value => .ok value
  | none => malformed entry offset detail

def readVarint (bytes : List UInt8) (cursor : ℕ) (entry : String) (base : ℕ) (context : String) :
    Reading (UInt64 × ℕ) :=
  (varint bytes cursor entry base context).mapError .error

/-- The bytes from a cursor on, so many of them, and the cursor after them: every table reads its parts so. -/
def takeAt (host : Host) (bytes : List UInt8) (start length : ℕ) (entry : String) (offset : ℕ)
    (oversized truncated : String) : Reading (List UInt8 × ℕ) := do
  let stop ← okOrMalformed (host.checkedAdd start length) entry offset oversized
  let value ← okOrMalformed (Bytes.slice? bytes start (stop - start)) entry offset truncated
  pure (value, stop)

/-! ## Messages -/

inductive WireValue where
  | varint (value : UInt64)
  | fixed32 (value : UInt32)
  | fixed64 (value : UInt64)
  | bytes (value : List UInt8)

structure WireField where
  number : UInt64
  offset : ℕ
  valueOffset : ℕ
  value : WireValue

section Message

variable (host : Host) (bytes : List UInt8) (entry : String) (base : ℕ)

def take (cursor length : ℕ) (context : String) : Reading (List UInt8 × ℕ) :=
  takeAt host bytes cursor length entry (base + cursor) ("oversized " ++ context) ("truncated " ++ context)

/-- A field's value, with the position that the field says it is at and the cursor after it. -/
def wireValue (wire : UInt64) (offset cursor : ℕ) : Reading (WireValue × ℕ × ℕ) := do
  let valueOffset := cursor
  if wire = 0 then
    let (value, cursor) ← readVarint bytes cursor entry base "varint field"
    pure (.varint value, valueOffset, cursor)
  else if wire = 1 then
    let (value, cursor) ← take host bytes entry base cursor 8 "fixed64 field"
    pure (.fixed64 (UInt64.ofNat (LittleEndian.leNat value)), valueOffset, cursor)
  else if wire = 2 then
    let (length, cursor) ← readVarint bytes cursor entry base "field length"
    let length ← okOrMalformed (host.tryFrom length) entry (base + valueOffset)
      "length-delimited field exceeds the host range"
    let payloadOffset := cursor
    let (value, cursor) ← take host bytes entry base cursor length "field payload"
    pure (.bytes value, payloadOffset, cursor)
  else if wire = 5 then
    let (value, cursor) ← take host bytes entry base cursor 4 "fixed32 field"
    pure (.fixed32 (UInt32.ofNat (LittleEndian.leNat value)), valueOffset, cursor)
  else malformed entry (base + offset) ("unsupported protobuf wire type " ++ toString wire)

/-- One turn of the loop of `message`. -/
def wireField (cursor : ℕ) : Reading (WireField × ℕ) := do
  let offset := cursor
  let (tag, cursor) ← readVarint bytes cursor entry base "field tag"
  let number := tag >>> 3
  let wire := tag &&& 7
  if number = 0 then malformed entry (base + offset) "protobuf field number is zero"
  else
    let (value, valueOffset, cursor) ← wireValue host bytes entry base wire offset cursor
    pure ({ number, offset := base + offset, valueOffset := base + valueOffset, value }, cursor)

end Message

section Advances

variable {host : Host} {bytes : List UInt8} {entry : String} {base : ℕ}

theorem readVarint_lt {context : String} {cursor stop : ℕ} {v : UInt64}
    (h : readVarint bytes cursor entry base context = .ok (v, stop)) : cursor < stop := by
  have heq : (varint bytes cursor entry base context).toOption = _ := varint_eq entry base context
  unfold readVarint at h
  cases hread : varint bytes cursor entry base context with
  | error e =>
    rw [hread] at h
    cases h
  | ok step =>
    rw [hread] at h heq
    cases h
    obtain ⟨code, hcode, hstep⟩ := Option.map_eq_some_iff.mp heq.symm
    obtain ⟨hcode, -⟩ := Option.filter_eq_some_iff.mp hcode
    have hpos := List.length_pos_iff.mpr (Varint.code?_ne_nil hcode)
    have hstop : cursor + code.length = stop := congrArg Prod.snd hstep
    omega

theorem takeAt_le {start length offset stop : ℕ} {oversized truncated : String} {value : List UInt8}
    (h : takeAt host bytes start length entry offset oversized truncated = .ok (value, stop)) : start ≤ stop := by
  obtain ⟨next, hnext, h⟩ := Results.bind_ok h
  obtain ⟨slice, -, h⟩ := Results.bind_ok h
  cases h
  unfold Host.checkedAdd okOrMalformed at hnext
  split_ifs at hnext
  · cases hnext
    exact Nat.le_add_right start length
  · cases hnext

theorem wireValue_le {wire : UInt64} {offset cursor valueOffset stop : ℕ} {value : WireValue}
    (h : wireValue host bytes entry base wire offset cursor = .ok (value, valueOffset, stop)) : cursor ≤ stop := by
  unfold wireValue at h
  split_ifs at h
  · obtain ⟨⟨v, next⟩, hv, h⟩ := Results.bind_ok h
    cases h
    exact (readVarint_lt hv).le
  · obtain ⟨⟨slice, next⟩, hslice, h⟩ := Results.bind_ok h
    cases h
    exact takeAt_le hslice
  · obtain ⟨⟨length, next⟩, hlength, h⟩ := Results.bind_ok h
    obtain ⟨size, -, h⟩ := Results.bind_ok h
    obtain ⟨⟨slice, last⟩, hslice, h⟩ := Results.bind_ok h
    cases h
    exact (readVarint_lt hlength).le.trans (takeAt_le hslice)
  · obtain ⟨⟨slice, next⟩, hslice, h⟩ := Results.bind_ok h
    cases h
    exact takeAt_le hslice
  · cases h

theorem wireField_lt {cursor stop : ℕ} {field : WireField}
    (h : wireField host bytes entry base cursor = .ok (field, stop)) : cursor < stop := by
  obtain ⟨⟨tag, next⟩, htag, h⟩ := Results.bind_ok h
  dsimp only at h
  split_ifs at h
  · cases h
  · obtain ⟨⟨value, valueOffset, last⟩, hvalue, h⟩ := Results.bind_ok h
    cases h
    exact (readVarint_lt htag).trans_le (wireValue_le hvalue)

end Advances

def message (host : Host) (bytes : List UInt8) (entry : String) (base : ℕ) : Reading (List WireField) :=
  Stretches.readAll bytes.length (wireField host bytes entry base) (fun _ _ _ => wireField_lt) 0

/-! ## Tables -/

section Tables

variable (host : Host) (bytes : List UInt8) (entry : String)

def u32At (offset : ℕ) (context : String) : Reading UInt32 := do
  let (value, _) ← takeAt host bytes offset 4 entry offset (context ++ " offset overflows") ("truncated " ++ context)
  pure (UInt32.ofNat (Bytes.beNat value))

def requireEnd (offset : ℕ) : Reading Unit :=
  if offset = bytes.length then pure ()
  else do
    let left ← Host.sub bytes.length offset
    malformed entry offset (toString left ++ " trailing bytes")

/-- One turn of the loop of `per_file`. -/
def file (index offset : ℕ) : Reading (List UInt8 × ℕ) := do
  let position ← host.add 4 (← host.mul index 4)
  let size ← u32At host bytes entry position "file size"
  takeAt host bytes offset size.toNat entry offset ("file " ++ toString index ++ " size overflows")
    ("truncated file " ++ toString index)

def perFile : Reading (List (List UInt8)) := do
  let count ← u32At host bytes entry 0 "per-file count"
  let count := count.toNat
  let table ← okOrMalformed (host.checkedMul count 4) entry 0 "per-file size table overflows"
  let header ← okOrMalformed (host.checkedAdd 4 table) entry 0 "per-file header overflows"
  if bytes.length < header then malformed entry bytes.length "truncated per-file size table"
  else
    let (output, offset) ← Stretches.readEach (file host bytes entry) (List.range count) header
    requireEnd bytes entry offset
    pure output

/-- One turn of the loop of `entries` over a table of varints. -/
def varintSize (index cursor : ℕ) : Reading (ℕ × ℕ) := do
  let (size, cursor) ← readVarint bytes cursor entry 0 "entry size"
  let size ← okOrMalformed (host.tryFrom size) entry cursor
    ("entry " ++ toString index ++ " size exceeds the host range")
  pure (size, cursor)

/-- One turn of the loop of `entries` over a table of words. -/
def wordSize (cursor index : ℕ) : Reading ℕ := do
  let position ← host.add cursor (← host.mul index 4)
  let size ← u32At host bytes entry position "entry size"
  pure size.toNat

/-- The sizes that the table after the count declares, and the cursor after the table: a negative count says
that they are varints. -/
def entrySizes (raw : Int32) : Reading (List ℕ × ℕ) := do
  let count := raw.toInt.natAbs
  let cursor := 4
  if raw < 0 then
    if bytes.length - cursor < count then
      malformed entry cursor "entry count exceeds the possible varint size table"
    else Stretches.readEach (varintSize host bytes entry) (List.range count) cursor
  else
    let tableSize ← okOrMalformed (host.checkedMul count 4) entry cursor "entry size table overflows"
    if bytes.length < host.saturatingAdd cursor tableSize then
      malformed entry cursor "truncated entry size table"
    else
      let sizes ← (List.range count).mapM (wordSize host bytes entry cursor)
      let cursor ← host.add cursor tableSize
      pure (sizes, cursor)

/-- One turn of the last loop of `entries`. -/
def entrySlice (size : ℕ × ℕ) (cursor : ℕ) : Reading (List UInt8 × ℕ) :=
  takeAt host bytes cursor size.1 entry cursor ("entry " ++ toString size.2 ++ " size overflows")
    ("truncated entry " ++ toString size.2)

def entries : Reading (List (List UInt8)) :=
  if bytes.isEmpty then pure []
  else do
    let raw ← u32At host bytes entry 0 "entry count"
    let (sizes, cursor) ← entrySizes host bytes entry raw.toInt32
    let (output, cursor) ← Stretches.readEach (entrySlice host bytes entry) sizes.zipIdx cursor
    requireEnd bytes entry cursor
    pure output

/-- One turn of the loop of `declaration_index`, over the map so far. -/
def declaration (output : List (UInt64 × List UInt8)) (index : ℕ) : Reading (List (UInt64 × List UInt8)) := do
  let row ← host.add 4 (← host.mul index 12)
  let id ← u32At host bytes "irDeclarations.knd" row "declaration id"
  let id := id.toUInt64
  let offset ← u32At host bytes "irDeclarations.knd" (← host.add row 4) "declaration offset"
  let size ← u32At host bytes "irDeclarations.knd" (← host.add row 8) "declaration size"
  let stop ← okOrMalformed (host.checkedAdd offset.toNat size.toNat) "irDeclarations.knd" (← host.add row 4)
    ("declaration " ++ toString id ++ " range overflows")
  let value ← okOrMalformed (Bytes.slice? bytes offset.toNat (stop - offset.toNat)) "irDeclarations.knd"
    offset.toNat ("truncated declaration " ++ toString id)
  if id ∈ output.map Prod.fst then
    malformed "irDeclarations.knd" row ("duplicate declaration id " ++ toString id)
  else pure (output ++ [(id, value)])

def declarationIndex : Reading (List (UInt64 × List UInt8)) :=
  if bytes.isEmpty then pure []
  else do
    let count ← u32At host bytes "irDeclarations.knd" 0 "declaration count"
    let count := count.toNat
    let table ← okOrMalformed (host.checkedMul count 12) "irDeclarations.knd" 0 "declaration index overflows"
    let header ← okOrMalformed (host.checkedAdd 4 table) "irDeclarations.knd" 0 "declaration header overflows"
    if bytes.length < header then
      malformed "irDeclarations.knd" bytes.length "truncated declaration index"
    else (List.range count).foldlM (declaration host bytes) []

end Tables

end Krusty.Metadata.KlibIr
