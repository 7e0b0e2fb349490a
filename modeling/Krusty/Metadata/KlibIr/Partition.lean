import Krusty.Metadata.KlibIr.Tables

/-! What the readers of KLIB IR tables accept: bytes that their declared counts and sizes divide up exactly. -/
namespace Krusty.Metadata.KlibIr

open Stretches

/-- The bytes spell a number of 64 bits. -/
def Number (code : List UInt8) (n : ℕ) : Prop :=
  Varint.code? code = some code ∧ code.length ≤ 10 ∧ Varint.value code = n ∧ n < 2 ^ 64

/-- A value by its wire type, the bytes that give its length, and its own bytes. -/
inductive WireValue.Spelled : WireValue → ℕ → List UInt8 → List UInt8 → Prop
  | varint {v : UInt64} {code : List UInt8} (hcode : Number code v.toNat) : Spelled (.varint v) 0 [] code
  | fixed64 {word : List UInt8} (hword : word.length = 8) :
      Spelled (.fixed64 (UInt64.ofNat (LittleEndian.leNat word))) 1 [] word
  | bytes {length value : List UInt8} (hlength : Number length value.length) : Spelled (.bytes value) 2 length value
  | fixed32 {word : List UInt8} (hword : word.length = 4) :
      Spelled (.fixed32 (UInt32.ofNat (LittleEndian.leNat word))) 5 [] word

/-- A field by its bytes, the first of which is at a position: its tag and its value. -/
inductive FieldAt (base start : ℕ) (field : WireField) : List UInt8 → Prop
  | mk {wire : ℕ} {tag length body : List UInt8} (hnumber : field.number ≠ 0)
      (htag : Number tag (8 * field.number.toNat + wire)) (hvalue : field.value.Spelled wire length body)
      (hoffset : field.offset = base + start)
      (hvalueOffset : field.valueOffset = base + (start + tag.length + length.length)) :
      FieldAt base start field (tag ++ (length ++ body))

/-- A per-file table: the count, the sizes, the files. -/
def FileTable (bytes : List UInt8) (files : List (List UInt8)) : Prop :=
  files.length < 2 ^ 32 ∧ (∀ file ∈ files, file.length < 2 ^ 32) ∧
    bytes = Bytes.beBytes 4 files.length ++ files.flatMap (fun file => Bytes.beBytes 4 file.length) ++ files.flatten

/-- An entry table: none at all, or the count, the sizes in words, the entries, or the count negated, the sizes
in varints, the entries. -/
def EntryTable (bytes : List UInt8) (slices : List (List UInt8)) : Prop :=
  bytes = [] ∧ slices = [] ∨
  slices.length < 2 ^ 31 ∧ (∀ slice ∈ slices, slice.length < 2 ^ 32) ∧
    bytes = Bytes.beBytes 4 slices.length ++ slices.flatMap (fun slice => Bytes.beBytes 4 slice.length) ++
      slices.flatten ∨
  0 < slices.length ∧ slices.length ≤ 2 ^ 31 ∧ ∃ codes, List.Forall₂ Number codes (slices.map List.length) ∧
    bytes = Bytes.beBytes 4 (2 ^ 32 - slices.length) ++ codes.flatten ++ slices.flatten

section Parts

variable {host : Host} {bytes : List UInt8} {entry : String} {base start stop length offset : ℕ}

theorem Number.code?_append {code rest : List UInt8} {n : ℕ} (h : Number code n) :
    Varint.code? (code ++ rest) = some code := by
  obtain ⟨init, last, heq, hinit, hlast⟩ := Varint.exists_init_of_code? h.1
  rw [heq, List.append_assoc]
  exact Varint.code?_append_cons hinit hlast

theorem Number.pos {code : List UInt8} {n : ℕ} (h : Number code n) : 0 < code.length :=
  List.length_pos_iff.mpr (Varint.code?_ne_nil h.1)

theorem readVarint_iff {context : String} {v : UInt64} :
    readVarint bytes start entry base context = .ok (v, stop) ↔
      ∃ code rest, bytes.drop start = code ++ rest ∧ stop = start + code.length ∧ Number code v.toNat := by
  have hread : readVarint bytes start entry base context = .ok (v, stop) ↔
      (varint bytes start entry base context).toOption = some (v, stop) := by
    rw [toOption_eq_some_iff]
    unfold readVarint
    cases varint bytes start entry base context with
    | error e => simp [Except.mapError]
    | ok step => simp [Except.mapError]
  rw [hread, varint_eq, Option.map_eq_some_iff]
  constructor
  · intro h
    obtain ⟨code, hcode, hstep⟩ := h
    obtain ⟨hcode, hfits⟩ := Option.filter_eq_some_iff.mp hcode
    rw [decide_eq_true_iff] at hfits
    obtain ⟨rest, hrest⟩ := Varint.code?_eq_append hcode
    obtain ⟨init, last, heq, hinit, hlast⟩ := Varint.exists_init_of_code? hcode
    have hself : Varint.code? code = some code := by
      rw [heq]
      exact Varint.code?_append_cons hinit hlast
    have hv : UInt64.ofNat (Varint.value code) = v := congrArg Prod.fst hstep
    have hvalue : v.toNat = Varint.value code := by
      rw [← hv, UInt64.toNat_ofNat', Nat.mod_eq_of_lt hfits.2]
    exact ⟨code, rest, hrest, (congrArg Prod.snd hstep).symm, hself, hfits.1, hvalue.symm, v.toNat_lt⟩
  · intro h
    obtain ⟨code, rest, hdrop, rfl, hnumber⟩ := h
    refine ⟨code, Option.filter_eq_some_iff.mpr ⟨?_, ?_⟩, ?_⟩
    · rw [hdrop]
      exact hnumber.code?_append
    · rw [decide_eq_true_iff, hnumber.2.2.1]
      exact ⟨hnumber.2.1, hnumber.2.2.2⟩
    · rw [hnumber.2.2.1, UInt64.ofNat_toNat]

variable {value : List UInt8}

theorem slice?_iff (hstart : start ≤ bytes.length) :
    Bytes.slice? bytes start length = some value ↔ value.length = length ∧ ∃ rest, bytes.drop start = value ++ rest := by
  unfold Bytes.slice?
  constructor
  · intro h
    split_ifs at h with hle
    cases h
    refine ⟨?_, (bytes.drop start).drop length, (List.take_append_drop length _).symm⟩
    rw [List.length_take, List.length_drop]
    omega
  · intro h
    obtain ⟨rfl, rest, hdrop⟩ := h
    have hle := length_le_of_drop hstart hdrop
    rw [if_pos hle, hdrop, List.take_left]

variable {oversized truncated : String}

theorem takeAt_iff (hbytes : bytes.length < 2 ^ host.bits) (hstart : start ≤ bytes.length) :
    takeAt host bytes start length entry offset oversized truncated = .ok (value, stop) ↔
      ∃ rest, bytes.drop start = value ++ rest ∧ stop = start + value.length ∧ value.length = length := by
  unfold takeAt Host.checkedAdd
  split
  next hfits =>
    change (okOrMalformed (Bytes.slice? bytes start (start + length - start)) entry offset truncated >>= _) = _ ↔ _
    rw [Nat.add_sub_cancel_left]
    cases hslice : Bytes.slice? bytes start length with
    | none =>
      constructor
      · intro h
        cases h
      · intro h
        obtain ⟨rest, hdrop, -, hlength⟩ := h
        rw [(slice?_iff hstart).mpr ⟨hlength, rest, hdrop⟩] at hslice
        cases hslice
    | some slice =>
      obtain ⟨hlength, hrest⟩ := (slice?_iff hstart).mp hslice
      constructor
      · intro h
        cases h
        obtain ⟨rest, hdrop⟩ := hrest
        exact ⟨rest, hdrop, by rw [hlength], hlength⟩
      · intro h
        obtain ⟨rest, hdrop, rfl, hvalue⟩ := h
        rw [(slice?_iff hstart).mpr ⟨hvalue, rest, hdrop⟩] at hslice
        cases hslice
        rw [hvalue]
        rfl
  next hlarge =>
    constructor
    · intro h
      cases h
    · intro h
      obtain ⟨rest, hdrop, -, hlength⟩ := h
      have hle := length_le_of_drop hstart hdrop
      omega

theorem okOrMalformed_iff {α : Type} {result : Option α} {detail : String} {a : α} :
    (okOrMalformed result entry offset detail : Reading α) = .ok a ↔ result = some a := by
  cases result with
  | none =>
    constructor
    · intro h
      cases h
    · intro h
      cases h
  | some value =>
    constructor
    · intro h
      cases h
      rfl
    · intro h
      cases h
      rfl

theorem takeAt_start (h : takeAt host bytes start length entry offset oversized truncated = .ok (value, stop)) :
    start ≤ bytes.length := by
  obtain ⟨next, -, h⟩ := Results.bind_ok h
  obtain ⟨slice, hslice, h⟩ := Results.bind_ok h
  have hslice := okOrMalformed_iff.mp hslice
  unfold Bytes.slice? at hslice
  split_ifs at hslice with hle
  omega

theorem tag_number (tag : UInt64) : (tag >>> 3).toNat = tag.toNat / 8 := by
  rw [UInt64.toNat_shiftRight]
  exact Nat.shiftRight_eq_div_pow _ 3

theorem tag_wire (tag : UInt64) : (tag &&& 7).toNat = tag.toNat % 8 := by
  rw [UInt64.toNat_and]
  exact Nat.and_two_pow_sub_one_eq_mod _ 3

variable {value : WireValue}

theorem WireValue.Spelled.wire_lt {wire : ℕ} {length body : List UInt8}
    (h : value.Spelled wire length body) : wire < 8 := by
  cases h <;> decide

theorem tryFrom_iff {value : UInt64} {size : ℕ} :
    host.tryFrom value = some size ↔ value.toNat < 2 ^ host.bits ∧ value.toNat = size := by
  unfold Host.tryFrom
  split_ifs with hfits <;> simp [hfits]

theorem wireValue_ok (hbytes : bytes.length < 2 ^ host.bits) (hstart : start ≤ bytes.length) {wire : UInt64}
    {valueOffset : ℕ}
    (h : wireValue host bytes entry base wire offset start = .ok (value, valueOffset, stop)) :
    ∃ length body rest, bytes.drop start = length ++ body ++ rest ∧ stop = start + (length ++ body).length ∧
      valueOffset = start + length.length ∧ value.Spelled wire.toNat length body := by
  unfold wireValue at h
  split_ifs at h with h0 h1 h2 h5
  · obtain ⟨⟨v, next⟩, hv, h⟩ := Results.bind_ok h
    cases h
    obtain ⟨code, rest, hdrop, rfl, hcode⟩ := readVarint_iff.mp hv
    exact ⟨[], code, rest, hdrop, rfl, rfl, h0 ▸ .varint hcode⟩
  · obtain ⟨⟨word, next⟩, hword, h⟩ := Results.bind_ok h
    cases h
    obtain ⟨rest, hdrop, rfl, hlength⟩ := (takeAt_iff hbytes hstart).mp hword
    exact ⟨[], word, rest, hdrop, rfl, rfl, h1 ▸ .fixed64 hlength⟩
  · obtain ⟨⟨v, next⟩, hv, h⟩ := Results.bind_ok h
    obtain ⟨size, hsize, h⟩ := Results.bind_ok h
    obtain ⟨⟨slice, last⟩, hslice, h⟩ := Results.bind_ok h
    cases h
    obtain ⟨length, rest, hdrop, rfl, hcode⟩ := readVarint_iff.mp hv
    have hnext := length_le_of_drop hstart hdrop
    obtain ⟨rest', hdrop', rfl, hlength⟩ := (takeAt_iff hbytes hnext).mp hslice
    obtain ⟨-, hv⟩ := tryFrom_iff.mp (okOrMalformed_iff.mp hsize)
    rw [drop_of_drop hdrop] at hdrop'
    rw [hv, ← hlength] at hcode
    refine ⟨length, slice, rest', ?_, ?_, rfl, h2 ▸ .bytes hcode⟩
    · rw [hdrop, hdrop', List.append_assoc]
    · rw [List.length_append, Nat.add_assoc]
  · obtain ⟨⟨word, next⟩, hword, h⟩ := Results.bind_ok h
    cases h
    obtain ⟨rest, hdrop, rfl, hlength⟩ := (takeAt_iff hbytes hstart).mp hword
    exact ⟨[], word, rest, hdrop, rfl, rfl, h5 ▸ .fixed32 hlength⟩
  · cases h

theorem wireValue_of_spelled (hbytes : bytes.length < 2 ^ host.bits) (hstart : start ≤ bytes.length)
    {wire : UInt64} {length body rest : List UInt8}
    (hdrop : bytes.drop start = length ++ body ++ rest) (h : value.Spelled wire.toNat length body) :
    wireValue host bytes entry base wire offset start =
      .ok (value, start + length.length, start + (length ++ body).length) := by
  generalize hwire : wire.toNat = n at h
  unfold wireValue
  cases h with
  | @varint v _ hcode =>
    obtain rfl : wire = 0 := UInt64.toNat_inj.mp hwire
    have hread : readVarint bytes start entry base "varint field" = .ok (v, start + body.length) :=
      readVarint_iff.mpr ⟨body, rest, hdrop, rfl, hcode⟩
    rw [if_pos rfl, hread]
    rfl
  | fixed64 hword =>
    obtain rfl : wire = 1 := UInt64.toNat_inj.mp hwire
    have htake : take host bytes entry base start 8 "fixed64 field" = .ok (body, start + body.length) :=
      (takeAt_iff hbytes hstart).mpr ⟨rest, hdrop, rfl, hword⟩
    rw [if_neg (by decide), if_pos rfl, htake]
    rfl
  | bytes hlength =>
    obtain rfl : wire = 2 := UInt64.toNat_inj.mp hwire
    rw [List.append_assoc] at hdrop
    have hvalue : (UInt64.ofNat body.length).toNat = body.length := by
      rw [UInt64.toNat_ofNat', Nat.mod_eq_of_lt hlength.2.2.2]
    have hread : readVarint bytes start entry base "field length" =
        .ok (UInt64.ofNat body.length, start + length.length) :=
      readVarint_iff.mpr ⟨length, body ++ rest, hdrop, rfl, hvalue.symm ▸ hlength⟩
    have hnext := length_le_of_drop hstart hdrop
    have hrest := drop_of_drop hdrop
    have hlast := length_le_of_drop hnext hrest
    have hsize : host.tryFrom (UInt64.ofNat body.length) = some body.length :=
      tryFrom_iff.mpr ⟨by omega, hvalue⟩
    have htake : take host bytes entry base (start + length.length) body.length "field payload" =
        .ok (body, start + (length ++ body).length) := by
      rw [List.length_append, ← Nat.add_assoc]
      exact (takeAt_iff hbytes hnext).mpr ⟨rest, hrest, rfl, rfl⟩
    rw [if_neg (by decide), if_neg (by decide), if_pos rfl, hread]
    change (okOrMalformed (host.tryFrom (UInt64.ofNat body.length)) entry (base + start)
      "length-delimited field exceeds the host range" >>= _) = _
    rw [hsize]
    change (take host bytes entry base (start + length.length) body.length "field payload" >>= _) = _
    rw [htake]
    rfl
  | fixed32 hword =>
    obtain rfl : wire = 5 := UInt64.toNat_inj.mp hwire
    have htake : take host bytes entry base start 4 "fixed32 field" = .ok (body, start + body.length) :=
      (takeAt_iff hbytes hstart).mpr ⟨rest, hdrop, rfl, hword⟩
    rw [if_neg (by decide), if_neg (by decide), if_neg (by decide), if_pos rfl, htake]
    rfl

/-- A turn of the loop of `message` reads one field and stops after its bytes. -/
theorem wireField_reads (hbytes : bytes.length < 2 ^ host.bits) :
    Reads bytes (wireField host bytes entry base) (FieldAt base) := by
  intro start hstart field stop
  constructor
  · intro h
    obtain ⟨⟨tag, next⟩, htag, h⟩ := Results.bind_ok h
    dsimp only at h
    split_ifs at h with hzero
    · cases h
    · obtain ⟨⟨value, valueOffset, last⟩, hvalue, h⟩ := Results.bind_ok h
      cases h
      obtain ⟨code, rest, hdrop, rfl, hcode⟩ := readVarint_iff.mp htag
      have hnext := length_le_of_drop hstart hdrop
      obtain ⟨length, body, rest', hdrop', rfl, rfl, hspelled⟩ := wireValue_ok hbytes hnext hvalue
      rw [drop_of_drop hdrop] at hdrop'
      have htagged : 8 * (tag >>> 3).toNat + (tag &&& 7).toNat = tag.toNat := by
        rw [tag_number, tag_wire]
        omega
      refine ⟨code ++ (length ++ body), rest', ?_, ?_, .mk hzero (htagged ▸ hcode) hspelled rfl rfl⟩
      · simp only [hdrop, hdrop', List.append_assoc]
      · simp only [List.length_append, Nat.add_assoc]
  · intro h
    obtain ⟨front, rest, hdrop, rfl, hfield⟩ := h
    obtain @⟨wire, code, length, body, hnumber, hcode, hspelled, hoffset, hvalueOffset⟩ := hfield
    obtain ⟨number, offset, valueOffset, value⟩ := field
    dsimp only at hnumber hcode hspelled hoffset hvalueOffset
    have hwire := hspelled.wire_lt
    have hfits := hcode.2.2.2
    -- the tag that the number and the wire type make
    let tag := UInt64.ofNat (8 * number.toNat + wire)
    have htag : tag.toNat = 8 * number.toNat + wire := by
      rw [UInt64.toNat_ofNat', Nat.mod_eq_of_lt hfits]
    have hnumber' : tag >>> 3 = number := by
      rw [← UInt64.toNat_inj, tag_number, htag]
      omega
    have hwire' : (tag &&& 7).toNat = wire := by
      rw [tag_wire, htag]
      omega
    rw [List.append_assoc] at hdrop
    have hread : readVarint bytes start entry base "field tag" = .ok (tag, start + code.length) :=
      readVarint_iff.mpr ⟨code, _, hdrop, rfl, htag.symm ▸ hcode⟩
    have hnext := length_le_of_drop hstart hdrop
    have hvalue : wireValue host bytes entry base (tag &&& 7) start (start + code.length) =
        .ok (value, start + code.length + length.length, start + code.length + (length ++ body).length) :=
      wireValue_of_spelled hbytes hnext (by rw [drop_of_drop hdrop]) (hwire'.symm ▸ hspelled)
    unfold wireField
    rw [hread]
    change (if tag >>> 3 = 0 then _ else _) = _
    rw [hnumber', if_neg hnumber]
    change (wireValue host bytes entry base (tag &&& 7) start (start + code.length) >>= _) = _
    have hstop : start + (code ++ (length ++ body)).length = start + code.length + (length ++ body).length := by
      rw [List.length_append, Nat.add_assoc]
    rw [hvalue, hoffset, hvalueOffset, hstop]
    rfl

/-! ### Nothing unchecked leaves the host's words -/

theorem malformed_ne_overflow {α : Type} {detail : String} :
    (malformed entry offset detail : Reading α) ≠ .error .overflow := by
  intro h
  cases h

theorem okOrMalformed_ne_overflow {α : Type} {result : Option α} {detail : String} :
    okOrMalformed result entry offset detail ≠ .error .overflow := by
  cases result with
  | none => exact malformed_ne_overflow
  | some value =>
    intro h
    cases h

theorem readVarint_ne_overflow {context : String} :
    readVarint bytes start entry base context ≠ .error .overflow := by
  unfold readVarint
  cases varint bytes start entry base context with
  | error e =>
    intro h
    cases h
  | ok step =>
    intro h
    cases h

theorem takeAt_ne_overflow :
    takeAt host bytes start length entry offset oversized truncated ≠ .error .overflow := by
  apply Results.bind_ne_error okOrMalformed_ne_overflow
  intro stop _
  apply Results.bind_ne_error okOrMalformed_ne_overflow
  intro value _ h
  cases h

theorem wireField_ne_overflow : wireField host bytes entry base start ≠ .error .overflow := by
  apply Results.bind_ne_error readVarint_ne_overflow
  intro tag _
  dsimp only
  split_ifs
  · exact malformed_ne_overflow
  · apply Results.bind_ne_error
    · unfold wireValue
      split_ifs
      · apply Results.bind_ne_error readVarint_ne_overflow
        intro value _ h
        cases h
      · apply Results.bind_ne_error takeAt_ne_overflow
        intro value _ h
        cases h
      · apply Results.bind_ne_error readVarint_ne_overflow
        intro length _
        apply Results.bind_ne_error okOrMalformed_ne_overflow
        intro size _
        apply Results.bind_ne_error takeAt_ne_overflow
        intro value _ h
        cases h
      · apply Results.bind_ne_error takeAt_ne_overflow
        intro value _ h
        cases h
      · exact malformed_ne_overflow
    · intro value _ h
      cases h

end Parts

section Message

variable {host : Host} {bytes : List UInt8} {entry : String} {base : ℕ}

/-- A message is read exactly when its bytes are fields one after another, and the fields read are those. -/
theorem message_iff (hbytes : bytes.length < 2 ^ host.bits) {fields : List WireField} :
    message host bytes entry base = .ok fields ↔ Covers (FieldAt base) 0 fields bytes :=
  readAll_iff (wireField_reads hbytes) (Nat.zero_le _)

theorem message_ne_overflow (hbytes : bytes.length < 2 ^ host.bits) :
    message host bytes entry base ≠ .error .overflow :=
  readAll_ne_error (fun _ _ => wireField_ne_overflow) (wireField_reads hbytes) (Nat.zero_le _)

end Message

section Words

variable {host : Host} {bytes : List UInt8} {entry context : String} {start stop : ℕ}

/-- A word of 32 bits stands at a position. -/
def WordAt (bytes : List UInt8) (position word : ℕ) : Prop :=
  word < 2 ^ 32 ∧ ∃ rest, bytes.drop position = Bytes.beBytes 4 word ++ rest

theorem WordAt.le_length {position word : ℕ} (h : WordAt bytes position word) : position + 4 ≤ bytes.length := by
  obtain ⟨-, rest, hdrop⟩ := h
  have hlength := congrArg List.length hdrop
  rw [List.length_drop, List.length_append, Bytes.beBytes_length] at hlength
  omega

theorem u32At_iff (hbytes : bytes.length < 2 ^ host.bits) {word : UInt32} :
    u32At host bytes entry start context = .ok word ↔ WordAt bytes start word.toNat := by
  constructor
  · intro h
    obtain ⟨⟨front, next⟩, hfront, h⟩ := Results.bind_ok h
    cases h
    have hstart := takeAt_start hfront
    obtain ⟨rest, hdrop, -, hlength⟩ := (takeAt_iff hbytes hstart).mp hfront
    have hlt := Bytes.beNat_lt front
    rw [hlength] at hlt
    have hvalue : (UInt32.ofNat (Bytes.beNat front)).toNat = Bytes.beNat front := by
      rw [UInt32.toNat_ofNat', Nat.mod_eq_of_lt (by omega)]
    refine ⟨UInt32.toNat_lt _, rest, ?_⟩
    rw [hvalue, ← hlength, Bytes.beBytes_beNat, hdrop]
  · intro h
    have hle := h.le_length
    obtain ⟨hlt, rest, hdrop⟩ := h
    refine Results.ok_bind ((takeAt_iff hbytes (by omega)).mpr ⟨rest, hdrop, rfl, by simp⟩) ?_
    change Except.ok (UInt32.ofNat (Bytes.beNat (Bytes.beBytes 4 word.toNat))) = _
    rw [Bytes.beNat_beBytes, Nat.mod_eq_of_lt (by omega), UInt32.ofNat_toNat]

theorem u32At_ne_overflow : u32At host bytes entry start context ≠ .error .overflow := by
  apply Results.bind_ne_error takeAt_ne_overflow
  intro value _ h
  cases h

/-- The positions of a table hold the words that the table joins. -/
theorem words_iff {words : List ℕ} {first count : ℕ} :
    List.Forall₂ (fun index word => WordAt bytes (start + 4 * index) word) (List.range' first count) words ↔
      words.length = count ∧ (∀ word ∈ words, word < 2 ^ 32) ∧
        ∃ rest, bytes.drop (start + 4 * first) = words.flatMap (Bytes.beBytes 4) ++ rest := by
  induction count generalizing first words with
  | zero =>
    constructor
    · intro h
      cases h
      exact ⟨rfl, by simp, _, rfl⟩
    · intro h
      obtain rfl := List.eq_nil_of_length_eq_zero h.1
      exact .nil
  | succ count ih =>
    have hnext : ∀ {word : ℕ} {rest : List UInt8},
        bytes.drop (start + 4 * first) = Bytes.beBytes 4 word ++ rest → bytes.drop (start + 4 * (first + 1)) = rest := by
      intro word rest hdrop
      have hrest := drop_of_drop hdrop
      rwa [Bytes.beBytes_length, Nat.add_assoc, ← Nat.mul_succ] at hrest
    rw [List.range'_succ]
    constructor
    · intro h
      cases h with
      | @cons _ word _ words head tail =>
        obtain ⟨hlt, rest, hdrop⟩ := head
        obtain ⟨hlength, hfit, rest', hdrop'⟩ := ih.mp tail
        refine ⟨congrArg (· + 1) hlength, List.forall_mem_cons.mpr ⟨hlt, hfit⟩, rest', ?_⟩
        rw [hdrop, ← hnext hdrop, hdrop', List.flatMap_cons, List.append_assoc]
    · intro h
      obtain ⟨hlength, hfit, rest, hdrop⟩ := h
      cases words with
      | nil => cases hlength
      | cons word words =>
        obtain ⟨hlt, hfit⟩ := List.forall_mem_cons.mp hfit
        rw [List.flatMap_cons, List.append_assoc] at hdrop
        exact .cons ⟨hlt, _, hdrop⟩ (ih.mpr ⟨Nat.succ.inj hlength, hfit, rest, hnext hdrop⟩)

theorem words_length (words : List ℕ) : (words.flatMap (Bytes.beBytes 4)).length = 4 * words.length := by
  rw [List.length_flatMap]
  simp [Nat.mul_comm]

theorem lengths_iff {count : ℕ} {contents : List (List UInt8)} :
    List.Forall₂ (fun index (content : List UInt8) => WordAt bytes (start + 4 * index) content.length)
        (List.range count) contents ↔
      contents.length = count ∧ (∀ word ∈ contents.map List.length, word < 2 ^ 32) ∧
        ∃ rest, bytes.drop start = (contents.map List.length).flatMap (Bytes.beBytes 4) ++ rest := by
  have hmap : List.Forall₂ (fun index word => WordAt bytes (start + 4 * index) word) (List.range count)
      (contents.map List.length) ↔ _ := List.forall₂_map_right_iff
  rw [← hmap, List.range_eq_range', words_iff, List.length_map, Nat.mul_zero, Nat.add_zero]

/-- A count and a table of words, and what comes after them. -/
theorem table_iff {count : ℕ} {words : List ℕ} {payload : List UInt8} :
    bytes = Bytes.beBytes 4 count ++ words.flatMap (Bytes.beBytes 4) ++ payload ↔
      (∃ rest, bytes.drop 0 = Bytes.beBytes 4 count ++ rest) ∧
        (∃ rest, bytes.drop 4 = words.flatMap (Bytes.beBytes 4) ++ rest) ∧
        bytes.drop (4 + 4 * words.length) = payload := by
  have hcount : (Bytes.beBytes 4 count).length = 4 := Bytes.beBytes_length 4 count
  have hwords := words_length words
  constructor
  · intro h
    have hfirst : bytes.drop 0 = Bytes.beBytes 4 count ++ (words.flatMap (Bytes.beBytes 4) ++ payload) := by
      rw [List.drop_zero, h, List.append_assoc]
    have htable := drop_of_drop hfirst
    rw [hcount, Nat.zero_add] at htable
    have hpayload := drop_of_drop htable
    rw [hwords] at hpayload
    exact ⟨⟨_, hfirst⟩, ⟨_, htable⟩, hpayload⟩
  · intro h
    obtain ⟨⟨rest, hfirst⟩, ⟨rest', htable⟩, hpayload⟩ := h
    have hrest := drop_of_drop hfirst
    have hrest' := drop_of_drop htable
    rw [hcount, Nat.zero_add] at hrest
    rw [hwords] at hrest'
    rw [← hpayload, hrest', List.append_assoc, ← htable, hrest]
    exact hfirst

theorem add_ok {a b sum : ℕ} : host.add a b = .ok sum ↔ a + b < 2 ^ host.bits ∧ a + b = sum := by
  unfold Host.add
  split_ifs with hfits <;> simp [hfits]

theorem mul_ok {a b product : ℕ} : host.mul a b = .ok product ↔ a * b < 2 ^ host.bits ∧ a * b = product := by
  unfold Host.mul
  split_ifs with hfits <;> simp [hfits]

theorem checkedAdd_iff {a b sum : ℕ} : host.checkedAdd a b = some sum ↔ a + b < 2 ^ host.bits ∧ a + b = sum := by
  unfold Host.checkedAdd
  split_ifs with hfits <;> simp [hfits]

theorem checkedMul_iff {a b product : ℕ} :
    host.checkedMul a b = some product ↔ a * b < 2 ^ host.bits ∧ a * b = product := by
  unfold Host.checkedMul
  split_ifs with hfits <;> simp [hfits]

theorem requireEnd_iff {offset : ℕ} {u : Unit} : requireEnd bytes entry offset = .ok u ↔ offset = bytes.length := by
  unfold requireEnd
  split_ifs with hend
  · exact ⟨fun _ => hend, fun _ => rfl⟩
  · constructor
    · intro h
      obtain ⟨left, -, h⟩ := Results.bind_ok h
      cases h
    · intro h
      exact absurd h hend

theorem requireEnd_ne_overflow {offset : ℕ} (hle : offset ≤ bytes.length) :
    requireEnd bytes entry offset ≠ .error .overflow := by
  unfold requireEnd Host.sub
  rw [if_pos hle]
  split_ifs
  · intro h
    cases h
  · exact malformed_ne_overflow

/-- What a reader has left when it has read to the end. -/
theorem drop_eq_of_end {front rest : List UInt8} (hstart : start ≤ bytes.length)
    (hdrop : bytes.drop start = front ++ rest) : start + front.length = bytes.length ↔ bytes.drop start = front := by
  have hlength := congrArg List.length hdrop
  rw [List.length_drop, List.length_append] at hlength
  constructor
  · intro h
    obtain rfl : rest = [] := List.eq_nil_of_length_eq_zero (by omega)
    rw [hdrop, List.append_nil]
  · intro h
    rw [h] at hdrop
    have hrest := congrArg List.length hdrop
    rw [List.length_append] at hrest
    omega

end Words

section PerFile

variable {host : Host} {bytes : List UInt8} {entry : String} {index : ℕ}

/-- Where the size of a file is read, when the table of sizes is within the bytes. -/
theorem file_position (hbytes : bytes.length < 2 ^ host.bits) (hindex : 4 + 4 * index ≤ bytes.length) :
    host.mul index 4 = .ok (4 * index) ∧ host.add 4 (4 * index) = .ok (4 + 4 * index) :=
  ⟨mul_ok.mpr ⟨by omega, by omega⟩, add_ok.mpr ⟨by omega, rfl⟩⟩

/-- A turn of the loop of `per_file` takes the bytes that the table's word for it counts. -/
theorem file_reads (hbytes : bytes.length < 2 ^ host.bits) (hindex : 4 + 4 * index ≤ bytes.length) :
    Reads bytes (file host bytes entry index) fun _ content front =>
      content = front ∧ WordAt bytes (4 + 4 * index) content.length := by
  intro start hstart content stop
  obtain ⟨hmul, hadd⟩ := file_position hbytes hindex
  unfold file
  rw [hmul]
  change (host.add 4 (4 * index) >>= _) = _ ↔ _
  rw [hadd]
  change (u32At host bytes entry (4 + 4 * index) "file size" >>= _) = _ ↔ _
  constructor
  · intro h
    obtain ⟨size, hsize, h⟩ := Results.bind_ok h
    have hword := (u32At_iff hbytes).mp hsize
    obtain ⟨rest, hdrop, hstop, hlength⟩ := (takeAt_iff hbytes hstart).mp h
    exact ⟨content, rest, hdrop, hstop, rfl, hlength.symm ▸ hword⟩
  · intro h
    obtain ⟨front, rest, hdrop, hstop, rfl, hword⟩ := h
    have hsize : (UInt32.ofNat content.length).toNat = content.length := by
      rw [UInt32.toNat_ofNat', Nat.mod_eq_of_lt hword.1]
    refine Results.ok_bind ((u32At_iff hbytes).mpr (hsize.symm ▸ hword)) ?_
    exact (takeAt_iff hbytes hstart).mpr ⟨rest, hdrop, hstop, hsize.symm⟩

theorem file_ne_overflow {start : ℕ} (hbytes : bytes.length < 2 ^ host.bits) (hindex : 4 + 4 * index ≤ bytes.length) :
    file host bytes entry index start ≠ .error .overflow := by
  obtain ⟨hmul, hadd⟩ := file_position hbytes hindex
  unfold file
  rw [hmul]
  change (host.add 4 (4 * index) >>= _) ≠ _
  rw [hadd]
  change (u32At host bytes entry (4 + 4 * index) "file size" >>= _) ≠ _
  apply Results.bind_ne_error u32At_ne_overflow
  intro size _
  exact takeAt_ne_overflow

/-- The loop of `per_file` reads to the end exactly when the table's words count the files that follow it. -/
theorem files_iff {count : ℕ} {files : List (List UInt8)} (hbytes : bytes.length < 2 ^ host.bits)
    (hheader : 4 + 4 * count ≤ bytes.length) :
    readEach (file host bytes entry) (List.range count) (4 + 4 * count) = .ok (files, bytes.length) ↔
      files.length = count ∧ (∀ word ∈ files.map List.length, word < 2 ^ 32) ∧
        (∃ rest, bytes.drop 4 = (files.map List.length).flatMap (Bytes.beBytes 4) ++ rest) ∧
        bytes.drop (4 + 4 * count) = files.flatten := by
  have hreads : ∀ index ∈ List.range count, Reads bytes (file host bytes entry index)
      fun _ content front => content = front ∧ WordAt bytes (4 + 4 * index) content.length := by
    intro index hindex
    rw [List.mem_range] at hindex
    exact file_reads hbytes (by omega)
  rw [readEach_iff (P := fun _ (step : ℕ × List UInt8) front =>
    step.2 = front ∧ WordAt bytes (4 + 4 * step.1) step.2.length) hreads hheader, List.length_range]
  constructor
  · intro h
    obtain ⟨hlength, front, rest, hdrop, hstop, hcovers⟩ := h
    rw [covers_slices (R := fun index content => WordAt bytes (4 + 4 * index) content.length)
      (by rw [hlength, List.length_range]), lengths_iff] at hcovers
    obtain ⟨rfl, -, hfit, htable⟩ := hcovers
    exact ⟨hlength, hfit, htable, (drop_eq_of_end hheader hdrop).mp hstop.symm⟩
  · intro h
    obtain ⟨hlength, hfit, htable, hpayload⟩ := h
    refine ⟨hlength, files.flatten, [], by rw [hpayload, List.append_nil], ?_, ?_⟩
    · have hleft := congrArg List.length hpayload
      rw [List.length_drop] at hleft
      omega
    · rw [covers_slices (R := fun index content => WordAt bytes (4 + 4 * index) content.length)
        (by rw [hlength, List.length_range]), lengths_iff]
      exact ⟨rfl, hlength, hfit, htable⟩

theorem perFile_iff (hbytes : bytes.length < 2 ^ host.bits) {files : List (List UInt8)} :
    perFile host bytes entry = .ok files ↔ FileTable bytes files := by
  have hflat : files.flatMap (fun content => Bytes.beBytes 4 content.length) =
      (files.map List.length).flatMap (Bytes.beBytes 4) := (List.flatMap_map ..).symm
  unfold FileTable
  rw [hflat, table_iff, List.length_map]
  constructor
  · intro h
    obtain ⟨count, hcount, h⟩ := Results.bind_ok h
    obtain ⟨table, htable, h⟩ := Results.bind_ok h
    obtain ⟨header, hheader, h⟩ := Results.bind_ok h
    have hword := (u32At_iff hbytes).mp hcount
    obtain ⟨-, rfl⟩ := checkedMul_iff.mp (okOrMalformed_iff.mp htable)
    obtain ⟨-, rfl⟩ := checkedAdd_iff.mp (okOrMalformed_iff.mp hheader)
    split_ifs at h with hshort
    · cases h
    · obtain ⟨⟨output, offset⟩, hloop, h⟩ := Results.bind_ok h
      obtain ⟨u, hend, h⟩ := Results.bind_ok h
      cases h
      obtain rfl := requireEnd_iff.mp hend
      rw [Nat.mul_comm count.toNat 4] at hloop hshort
      obtain ⟨hlength, hfit, hsizes, hpayload⟩ := (files_iff hbytes (by omega)).mp hloop
      rw [← hlength] at hword hpayload
      exact ⟨hword.1, fun content hcontent => hfit _ (List.mem_map_of_mem hcontent), hword.2, hsizes, hpayload⟩
  · intro h
    obtain ⟨hcount, hfit, ⟨rest, hfirst⟩, hsizes, hpayload⟩ := h
    have hword : (UInt32.ofNat files.length).toNat = files.length := by
      rw [UInt32.toNat_ofNat', Nat.mod_eq_of_lt hcount]
    have hheader : 4 + 4 * files.length ≤ bytes.length := by
      obtain ⟨rest', hdrop⟩ := hsizes
      have hfour := length_le_of_drop (Nat.zero_le _) hfirst
      rw [Bytes.beBytes_length] at hfour
      have htable := length_le_of_drop (by omega) hdrop
      rwa [words_length, List.length_map] at htable
    have hread : u32At host bytes entry 0 "per-file count" = .ok (UInt32.ofNat files.length) :=
      (u32At_iff hbytes).mpr (hword.symm ▸ ⟨hcount, rest, hfirst⟩)
    have hloop : readEach (file host bytes entry) (List.range files.length) (4 + 4 * files.length) =
        .ok (files, bytes.length) := by
      refine (files_iff hbytes hheader).mpr ⟨rfl, ?_, hsizes, hpayload⟩
      intro word hmem
      obtain ⟨content, hcontent, rfl⟩ := List.mem_map.mp hmem
      exact hfit content hcontent
    refine Results.ok_bind hread ?_
    dsimp only
    rw [hword]
    refine Results.ok_bind (okOrMalformed_iff.mpr (checkedMul_iff.mpr ⟨by omega, rfl⟩)) ?_
    refine Results.ok_bind (okOrMalformed_iff.mpr (checkedAdd_iff.mpr ⟨by omega, rfl⟩)) ?_
    rw [if_neg (by omega), Nat.mul_comm files.length 4]
    refine Results.ok_bind hloop ?_
    exact Results.ok_bind ((requireEnd_iff (u := ())).mpr rfl) rfl

theorem perFile_ne_overflow (hbytes : bytes.length < 2 ^ host.bits) :
    perFile host bytes entry ≠ .error .overflow := by
  apply Results.bind_ne_error u32At_ne_overflow
  intro count _
  apply Results.bind_ne_error okOrMalformed_ne_overflow
  intro table htable
  apply Results.bind_ne_error okOrMalformed_ne_overflow
  intro header hheader
  obtain ⟨-, rfl⟩ := checkedMul_iff.mp (okOrMalformed_iff.mp htable)
  obtain ⟨-, rfl⟩ := checkedAdd_iff.mp (okOrMalformed_iff.mp hheader)
  split_ifs with hshort
  · exact malformed_ne_overflow
  · have hinside : ∀ index ∈ List.range count.toNat, 4 + 4 * index ≤ bytes.length := by
      intro index hindex
      rw [List.mem_range] at hindex
      omega
    have hreads : ∀ index ∈ List.range count.toNat, Reads bytes (file host bytes entry index)
        fun _ content front => content = front ∧ WordAt bytes (4 + 4 * index) content.length :=
      fun index hindex => file_reads hbytes (hinside index hindex)
    apply Results.bind_ne_error
    · exact readEach_ne_error (P := fun _ (step : ℕ × List UInt8) front =>
        step.2 = front ∧ WordAt bytes (4 + 4 * step.1) step.2.length) hreads
        (fun index hindex start _ => file_ne_overflow hbytes (hinside index hindex)) (by omega)
    · intro step hstep
      obtain ⟨-, front, rest, hdrop, hstop, -⟩ := (readEach_iff (P := fun _ (step : ℕ × List UInt8) front =>
        step.2 = front ∧ WordAt bytes (4 + 4 * step.1) step.2.length) hreads (by omega)).mp hstep
      have hle := length_le_of_drop (by omega) hdrop
      apply Results.bind_ne_error (requireEnd_ne_overflow (by omega))
      intro u _ h
      cases h

end PerFile

section Entries

variable {host : Host} {bytes : List UInt8} {entry : String} {index count start : ℕ}

theorem entrySlice_reads (hbytes : bytes.length < 2 ^ host.bits) (size : ℕ × ℕ) :
    Reads bytes (entrySlice host bytes entry size) fun _ slice front => slice = front ∧ slice.length = size.1 := by
  intro start hstart slice stop
  unfold entrySlice
  rw [takeAt_iff hbytes hstart]
  constructor
  · intro h
    obtain ⟨rest, hdrop, hstop, hlength⟩ := h
    exact ⟨slice, rest, hdrop, hstop, rfl, hlength⟩
  · intro h
    obtain ⟨front, rest, hdrop, hstop, rfl, hlength⟩ := h
    exact ⟨rest, hdrop, hstop, hlength⟩

variable {sizes : List ℕ} {slices : List (List UInt8)}

theorem forall₂_sizes :
    List.Forall₂ (fun (size : ℕ × ℕ) (slice : List UInt8) => slice.length = size.1) sizes.zipIdx slices ↔
      slices.map List.length = sizes := by
  have hleft : List.Forall₂ (fun (size : ℕ) (slice : List UInt8) => slice.length = size)
      (sizes.zipIdx.map Prod.fst) slices ↔ _ := List.forall₂_map_left_iff
  have hright : List.Forall₂ (fun size length : ℕ => length = size) sizes (slices.map List.length) ↔ _ :=
    List.forall₂_map_right_iff
  have hsame : (fun size length : ℕ => length = size) = Eq := by
    funext size length
    exact propext eq_comm
  rw [← hleft, List.zipIdx_map_fst, ← hright, hsame, List.forall₂_eq_eq_eq]
  exact eq_comm

/-- The last loop of `entries` reads to the end exactly when the sizes divide up what is left. -/
theorem slices_iff (hbytes : bytes.length < 2 ^ host.bits) (hstart : start ≤ bytes.length) :
    readEach (entrySlice host bytes entry) sizes.zipIdx start = .ok (slices, bytes.length) ↔
      slices.map List.length = sizes ∧ bytes.drop start = slices.flatten := by
  have hreads : ∀ size ∈ sizes.zipIdx, Reads bytes (entrySlice host bytes entry size)
      fun _ slice front => slice = front ∧ slice.length = size.1 :=
    fun size _ => entrySlice_reads hbytes size
  rw [readEach_iff (P := fun _ (step : (ℕ × ℕ) × List UInt8) front =>
    step.2 = front ∧ step.2.length = step.1.1) hreads hstart]
  constructor
  · intro h
    obtain ⟨hlength, front, rest, hdrop, hstop, hcovers⟩ := h
    rw [covers_slices (R := fun (size : ℕ × ℕ) slice => slice.length = size.1) hlength, forall₂_sizes] at hcovers
    obtain ⟨rfl, hsizes⟩ := hcovers
    exact ⟨hsizes, (drop_eq_of_end hstart hdrop).mp hstop.symm⟩
  · intro h
    obtain ⟨rfl, hpayload⟩ := h
    have hlength : slices.length = (slices.map List.length).zipIdx.length := by
      rw [List.length_zipIdx, List.length_map]
    refine ⟨hlength, slices.flatten, [], by rw [hpayload, List.append_nil], ?_, ?_⟩
    · have hleft := congrArg List.length hpayload
      rw [List.length_drop] at hleft
      omega
    · rw [covers_slices (R := fun (size : ℕ × ℕ) slice => slice.length = size.1) hlength, forall₂_sizes]
      exact ⟨rfl, rfl⟩

theorem varintSize_reads : Reads bytes (varintSize host bytes entry index)
    fun _ size code => Number code size ∧ size < 2 ^ host.bits := by
  intro start hstart size stop
  constructor
  · intro h
    obtain ⟨⟨v, next⟩, hv, h⟩ := Results.bind_ok h
    obtain ⟨fitted, hfitted, h⟩ := Results.bind_ok h
    cases h
    obtain ⟨code, rest, hdrop, hstop, hcode⟩ := readVarint_iff.mp hv
    obtain ⟨hfits, rfl⟩ := tryFrom_iff.mp (okOrMalformed_iff.mp hfitted)
    exact ⟨code, rest, hdrop, hstop, hcode, hfits⟩
  · intro h
    obtain ⟨code, rest, hdrop, hstop, hcode, hfits⟩ := h
    have hvalue : (UInt64.ofNat size).toNat = size := by
      rw [UInt64.toNat_ofNat', Nat.mod_eq_of_lt hcode.2.2.2]
    refine Results.ok_bind (readVarint_iff.mpr ⟨code, rest, hdrop, hstop, hvalue.symm ▸ hcode⟩) ?_
    exact Results.ok_bind (okOrMalformed_iff.mpr (tryFrom_iff.mpr ⟨hvalue.symm ▸ hfits, hvalue⟩)) rfl

theorem varintSizes_iff {stop : ℕ} (hstart : start ≤ bytes.length) :
    readEach (varintSize host bytes entry) (List.range count) start = .ok (sizes, stop) ↔
      sizes.length = count ∧ ∃ codes rest, bytes.drop start = codes.flatten ++ rest ∧
        stop = start + codes.flatten.length ∧
        List.Forall₂ (fun code size => Number code size ∧ size < 2 ^ host.bits) codes sizes := by
  rw [readEach_iff (P := fun _ (step : ℕ × ℕ) code => Number code step.2 ∧ step.2 < 2 ^ host.bits)
    (fun _ _ => varintSize_reads) hstart, List.length_range]
  apply and_congr_right
  intro hlength
  have hsnd : ((List.range count).zip sizes).map Prod.snd = sizes :=
    List.map_snd_zip (by rw [List.length_range, hlength])
  have hcovers : ∀ front, Covers (fun _ (step : ℕ × ℕ) code => Number code step.2 ∧ step.2 < 2 ^ host.bits) start
      ((List.range count).zip sizes) front ↔ ∃ codes, front = codes.flatten ∧
        List.Forall₂ (fun code size => Number code size ∧ size < 2 ^ host.bits) codes sizes := by
    intro front
    rw [covers_pieces (R := fun code (step : ℕ × ℕ) => Number code step.2 ∧ step.2 < 2 ^ host.bits)]
    have hmap : ∀ codes, List.Forall₂ (fun code size => Number code size ∧ size < 2 ^ host.bits) codes
        (((List.range count).zip sizes).map Prod.snd) ↔ _ := fun codes => List.forall₂_map_right_iff
    simp only [← hmap, hsnd]
  simp only [hcovers]
  constructor
  · intro h
    obtain ⟨front, rest, hdrop, hstop, codes, rfl, hcodes⟩ := h
    exact ⟨codes, rest, hdrop, hstop, hcodes⟩
  · intro h
    obtain ⟨codes, rest, hdrop, hstop, hcodes⟩ := h
    exact ⟨codes.flatten, rest, hdrop, hstop, codes, rfl, hcodes⟩

theorem wordSize_iff (hbytes : bytes.length < 2 ^ host.bits) {size : ℕ} :
    wordSize host bytes entry 4 index = .ok size ↔ WordAt bytes (4 + 4 * index) size := by
  constructor
  · intro h
    obtain ⟨product, hproduct, h⟩ := Results.bind_ok h
    obtain ⟨position, hposition, h⟩ := Results.bind_ok h
    obtain ⟨word, hword, h⟩ := Results.bind_ok h
    cases h
    obtain ⟨-, rfl⟩ := mul_ok.mp hproduct
    obtain ⟨-, rfl⟩ := add_ok.mp hposition
    rw [Nat.mul_comm] at hword
    exact (u32At_iff hbytes).mp hword
  · intro h
    have hle := h.le_length
    have hsize : (UInt32.ofNat size).toNat = size := by
      rw [UInt32.toNat_ofNat', Nat.mod_eq_of_lt h.1]
    refine Results.ok_bind (mul_ok.mpr ⟨by omega, Nat.mul_comm index 4⟩) ?_
    refine Results.ok_bind (add_ok.mpr ⟨by omega, rfl⟩) ?_
    refine Results.ok_bind ((u32At_iff hbytes).mpr (hsize.symm ▸ h)) ?_
    exact congrArg Except.ok hsize

/-- A table of sizes in words. -/
theorem wordSizes_iff (hbytes : bytes.length < 2 ^ host.bits) :
    (List.range count).mapM (wordSize host bytes entry 4) = .ok sizes ↔
      sizes.length = count ∧ (∀ word ∈ sizes, word < 2 ^ 32) ∧
        ∃ rest, bytes.drop 4 = sizes.flatMap (Bytes.beBytes 4) ++ rest := by
  have hword : (fun index size => wordSize host bytes entry 4 index = .ok size) =
      fun index size => WordAt bytes (4 + 4 * index) size := by
    funext index size
    exact propext (wordSize_iff hbytes)
  rw [Results.mapM_ok, hword, List.range_eq_range', words_iff, Nat.mul_zero, Nat.add_zero]

/-- The entry count as a signed word: the words from `2 ^ 31` on are negative. -/
theorem toInt32_toInt (word : UInt32) :
    word.toInt32.toInt = if word.toNat < 2 ^ 31 then (word.toNat : ℤ) else word.toNat - 2 ^ 32 := by
  have hvalue : word.toInt32.toInt = (word.toNat : ℤ).bmod (2 ^ 32) := BitVec.toInt_eq_toNat_bmod word.toBitVec
  have hlt := word.toNat_lt
  rw [hvalue, Int.bmod_def]
  split <;> split <;> omega

theorem length_le_flatten {codes : List (List UInt8)}
    (h : List.Forall₂ (fun code size => Number code size ∧ size < 2 ^ host.bits) codes sizes) :
    sizes.length ≤ codes.flatten.length := by
  induction h with
  | nil => exact Nat.le_refl 0
  | cons head tail ih =>
    have hpos := head.1.pos
    rw [List.flatten_cons, List.length_append, List.length_cons]
    omega

/-- The sizes that `entries` reads, and where its table of them ends. -/
theorem entrySizes_iff (hbytes : bytes.length + 1 < 2 ^ host.bits) (hfour : 4 ≤ bytes.length) {word : UInt32}
    {stop : ℕ} :
    entrySizes host bytes entry word.toInt32 = .ok (sizes, stop) ↔
      word.toNat = sizes.length ∧ sizes.length < 2 ^ 31 ∧ stop = 4 + 4 * sizes.length ∧
          (∀ size ∈ sizes, size < 2 ^ 32) ∧ (∃ rest, bytes.drop 4 = sizes.flatMap (Bytes.beBytes 4) ++ rest) ∨
        word.toNat = 2 ^ 32 - sizes.length ∧ 0 < sizes.length ∧ sizes.length ≤ 2 ^ 31 ∧
          ∃ codes rest, bytes.drop 4 = codes.flatten ++ rest ∧ stop = 4 + codes.flatten.length ∧
            List.Forall₂ (fun code size => Number code size ∧ size < 2 ^ host.bits) codes sizes := by
  have hsigned := toInt32_toInt word
  have hlt := word.toNat_lt
  unfold entrySizes
  dsimp only
  by_cases hnegative : 2 ^ 31 ≤ word.toNat
  · rw [if_neg (by omega)] at hsigned
    have hneg : word.toInt32 < 0 := Int32.lt_iff_toInt_lt.mpr (by rw [hsigned, Int32.toInt_zero]; omega)
    have hcount : word.toInt32.toInt.natAbs = 2 ^ 32 - word.toNat := by
      rw [hsigned]
      omega
    rw [if_pos hneg, hcount]
    split_ifs with hmany
    · constructor
      · intro h
        cases h
      · intro h
        rcases h with h | h
        · omega
        · obtain ⟨hword, hpos, hle, codes, rest, hdrop, hstop, hcodes⟩ := h
          have hflatten := length_le_flatten hcodes
          have hend := length_le_of_drop hfour hdrop
          omega
    · rw [varintSizes_iff hfour]
      constructor
      · intro h
        obtain ⟨hlength, hcodes⟩ := h
        exact .inr ⟨by omega, by omega, by omega, hcodes⟩
      · intro h
        rcases h with h | h
        · omega
        · obtain ⟨hword, hpos, hle, hcodes⟩ := h
          exact ⟨by omega, hcodes⟩
  · rw [if_pos (by omega)] at hsigned
    have hpositive : ¬ word.toInt32 < 0 := by
      rw [Int32.lt_iff_toInt_lt, hsigned, Int32.toInt_zero]
      omega
    have hcount : word.toInt32.toInt.natAbs = word.toNat := by
      rw [hsigned]
      omega
    rw [if_neg hpositive, hcount]
    constructor
    · intro h
      obtain ⟨table, htable, h⟩ := Results.bind_ok h
      obtain ⟨-, rfl⟩ := checkedMul_iff.mp (okOrMalformed_iff.mp htable)
      split_ifs at h
      · cases h
      · obtain ⟨words, hwords, h⟩ := Results.bind_ok h
        obtain ⟨cursor, hcursor, h⟩ := Results.bind_ok h
        cases h
        obtain ⟨hlength, hfit, htable⟩ := (wordSizes_iff (by omega)).mp hwords
        obtain ⟨-, hstop⟩ := add_ok.mp hcursor
        exact .inl ⟨hlength.symm, by omega, by omega, hfit, htable⟩
    · intro h
      rcases h with h | h
      · obtain ⟨hword, hlt', hstop, hfit, rest, htable⟩ := h
        have hend := length_le_of_drop hfour htable
        rw [words_length] at hend
        refine Results.ok_bind (okOrMalformed_iff.mpr (checkedMul_iff.mpr ⟨by omega, rfl⟩)) ?_
        have hsaturated : ¬ bytes.length < host.saturatingAdd 4 (word.toNat * 4) := by
          unfold Host.saturatingAdd
          omega
        rw [if_neg hsaturated]
        refine Results.ok_bind ((wordSizes_iff (by omega)).mpr ⟨hword.symm, hfit, rest, htable⟩) ?_
        refine Results.ok_bind (add_ok.mpr ⟨by omega, rfl⟩) ?_
        rw [hstop, ← hword, Nat.mul_comm 4]
        rfl
      · omega

theorem entrySizes_le (hbytes : bytes.length + 1 < 2 ^ host.bits) (hfour : 4 ≤ bytes.length) {word : UInt32}
    {stop : ℕ} (h : entrySizes host bytes entry word.toInt32 = .ok (sizes, stop)) :
    stop ≤ bytes.length := by
  rcases (entrySizes_iff hbytes hfour).mp h with hwords | hcodes
  · obtain ⟨-, -, rfl, -, rest, hdrop⟩ := hwords
    have hle := length_le_of_drop hfour hdrop
    rwa [words_length] at hle
  · obtain ⟨-, -, -, codes, rest, hdrop, rfl, -⟩ := hcodes
    exact length_le_of_drop hfour hdrop

/-- Bytes that are not empty: a count, the sizes of the entries, and the entries. -/
theorem entries_ok (hbytes : bytes.length + 1 < 2 ^ host.bits) (hne : bytes ≠ []) :
    entries host bytes entry = .ok slices ↔
      ∃ word stop, WordAt bytes 0 word ∧
        entrySizes host bytes entry (UInt32.ofNat word).toInt32 = .ok (slices.map List.length, stop) ∧
        stop ≤ bytes.length ∧ bytes.drop stop = slices.flatten := by
  have hempty : bytes.isEmpty = false := by simpa using hne
  unfold entries
  rw [hempty]
  change (u32At host bytes entry 0 "entry count" >>= _) = _ ↔ _
  constructor
  · intro h
    obtain ⟨word, hword, h⟩ := Results.bind_ok h
    obtain ⟨⟨sizes, stop⟩, hsizes, h⟩ := Results.bind_ok h
    obtain ⟨⟨output, cursor⟩, hloop, h⟩ := Results.bind_ok h
    obtain ⟨u, hend, h⟩ := Results.bind_ok h
    cases h
    obtain rfl := requireEnd_iff.mp hend
    have hword := (u32At_iff (by omega)).mp hword
    have hstop := entrySizes_le hbytes hword.le_length hsizes
    obtain ⟨rfl, hpayload⟩ := (slices_iff (by omega) hstop).mp hloop
    refine ⟨word.toNat, stop, hword, ?_, hstop, hpayload⟩
    rw [UInt32.ofNat_toNat]
    exact hsizes
  · intro h
    obtain ⟨word, stop, hword, hsizes, hstop, hpayload⟩ := h
    have hvalue : (UInt32.ofNat word).toNat = word := by
      rw [UInt32.toNat_ofNat', Nat.mod_eq_of_lt hword.1]
    refine Results.ok_bind ((u32At_iff (by omega)).mpr (hvalue.symm ▸ hword)) ?_
    refine Results.ok_bind hsizes ?_
    refine Results.ok_bind ((slices_iff (by omega) hstop).mpr ⟨rfl, hpayload⟩) ?_
    exact Results.ok_bind ((requireEnd_iff (u := ())).mpr rfl) rfl

theorem forall₂_and_right {R : List UInt8 → ℕ → Prop} {Q : ℕ → Prop} {codes : List (List UInt8)}
    (h : List.Forall₂ R codes sizes) (hQ : ∀ size ∈ sizes, Q size) :
    List.Forall₂ (fun code size => R code size ∧ Q size) codes sizes := by
  induction h with
  | nil => exact .nil
  | cons head tail ih =>
    obtain ⟨hfirst, hrest⟩ := List.forall_mem_cons.mp hQ
    exact .cons ⟨head, hfirst⟩ (ih hrest)

/-- An entry table is read exactly when it is one, and the slices read are its entries. -/
theorem entries_iff (hbytes : bytes.length + 1 < 2 ^ host.bits) :
    entries host bytes entry = .ok slices ↔ EntryTable bytes slices := by
  have hflat : slices.flatMap (fun slice => Bytes.beBytes 4 slice.length) =
      (slices.map List.length).flatMap (Bytes.beBytes 4) := (List.flatMap_map ..).symm
  unfold EntryTable
  rw [hflat]
  by_cases hne : bytes = []
  · subst hne
    have hnothing : ∀ (count : ℕ) (rest : List UInt8), [] ≠ Bytes.beBytes 4 count ++ rest := by
      intro count rest h
      have hlength := congrArg List.length h
      rw [List.length_append, Bytes.beBytes_length] at hlength
      cases hlength.trans (Nat.add_comm 4 rest.length)
    constructor
    · intro h
      cases h
      exact .inl ⟨rfl, rfl⟩
    · intro h
      rcases h with h | h | h
      · rw [h.2]
        rfl
      · obtain ⟨-, -, h⟩ := h
        rw [List.append_assoc] at h
        exact absurd h (hnothing _ _)
      · obtain ⟨-, -, codes, -, h⟩ := h
        rw [List.append_assoc] at h
        exact absurd h (hnothing _ _)
  · rw [entries_ok hbytes hne]
    constructor
    · intro h
      obtain ⟨word, stop, hword, hsizes, hstop, hpayload⟩ := h
      have hvalue : (UInt32.ofNat word).toNat = word := by
        rw [UInt32.toNat_ofNat', Nat.mod_eq_of_lt hword.1]
      rcases (entrySizes_iff hbytes hword.le_length).mp hsizes with hwords | hvarints
      · obtain ⟨hcount, hlt, rfl, hfit, htable⟩ := hwords
        rw [List.length_map] at hcount hlt
        refine .inr (.inl ⟨hlt, fun slice hslice => hfit _ (List.mem_map_of_mem hslice), ?_⟩)
        rw [← hcount, hvalue]
        exact table_iff.mpr ⟨hword.2, htable, hpayload⟩
      · obtain ⟨hcount, hpos, hle, codes, rest, hdrop, rfl, hcodes⟩ := hvarints
        rw [List.length_map] at hcount hpos hle
        refine .inr (.inr ⟨hpos, hle, codes, hcodes.imp fun _ _ h => h.1, ?_⟩)
        obtain ⟨-, rest', hfirst⟩ := hword
        have hrest := drop_of_drop hfirst
        rw [Bytes.beBytes_length, Nat.zero_add] at hrest
        have hlast := drop_of_drop hdrop
        rw [hpayload] at hlast
        rw [← hcount, hvalue, hlast, List.append_assoc, ← hdrop, hrest]
        exact hfirst
    · intro h
      rcases h with h | h | h
      · exact absurd h.1 hne
      · obtain ⟨hlt, hfit, htable⟩ := h
        obtain ⟨hfirst, hsizes, hpayload⟩ := table_iff.mp htable
        have hword : WordAt bytes 0 slices.length := ⟨by omega, hfirst⟩
        have hvalue : (UInt32.ofNat slices.length).toNat = slices.length := by
          rw [UInt32.toNat_ofNat', Nat.mod_eq_of_lt hword.1]
        have hread : entrySizes host bytes entry (UInt32.ofNat slices.length).toInt32 =
            .ok (slices.map List.length, 4 + 4 * (slices.map List.length).length) := by
          refine (entrySizes_iff hbytes hword.le_length).mpr (.inl ⟨?_, ?_, rfl, ?_, hsizes⟩)
          · rw [hvalue, List.length_map]
          · rwa [List.length_map]
          · intro size hsize
            obtain ⟨slice, hslice, rfl⟩ := List.mem_map.mp hsize
            exact hfit slice hslice
        exact ⟨slices.length, _, hword, hread, entrySizes_le hbytes hword.le_length hread, hpayload⟩
      · obtain ⟨hpos, hle, codes, hcodes, hparts⟩ := h
        have hfirst : bytes.drop 0 = Bytes.beBytes 4 (2 ^ 32 - slices.length) ++ (codes.flatten ++ slices.flatten) := by
          rw [List.drop_zero, ← List.append_assoc]
          exact hparts
        have hword : WordAt bytes 0 (2 ^ 32 - slices.length) := ⟨by omega, _, hfirst⟩
        have hvalue : (UInt32.ofNat (2 ^ 32 - slices.length)).toNat = 2 ^ 32 - slices.length := by
          rw [UInt32.toNat_ofNat', Nat.mod_eq_of_lt hword.1]
        have hrest := drop_of_drop hfirst
        rw [Bytes.beBytes_length, Nat.zero_add] at hrest
        have hpayload := drop_of_drop hrest
        have hsmall : ∀ size ∈ slices.map List.length, size < 2 ^ host.bits := by
          intro size hsize
          obtain ⟨slice, hslice, rfl⟩ := List.mem_map.mp hsize
          have hsub := (List.sublist_flatten_of_mem hslice).length_le
          have htail := congrArg List.length hpayload
          rw [List.length_drop] at htail
          omega
        have hread : entrySizes host bytes entry (UInt32.ofNat (2 ^ 32 - slices.length)).toInt32 =
            .ok (slices.map List.length, 4 + codes.flatten.length) := by
          refine (entrySizes_iff hbytes hword.le_length).mpr
            (.inr ⟨?_, ?_, ?_, codes, slices.flatten, hrest, rfl, ?_⟩)
          · rw [hvalue, List.length_map]
          · rwa [List.length_map]
          · rwa [List.length_map]
          · exact forall₂_and_right hcodes hsmall
        exact ⟨_, _, hword, hread, entrySizes_le hbytes hword.le_length hread, hpayload⟩

theorem wordSize_ne_overflow (hindex : 4 + 4 * index < 2 ^ host.bits) :
    wordSize host bytes entry 4 index ≠ .error .overflow := by
  have hmul : host.mul index 4 = .ok (index * 4) := mul_ok.mpr ⟨by omega, rfl⟩
  have hadd : host.add 4 (index * 4) = .ok (4 + index * 4) := add_ok.mpr ⟨by omega, rfl⟩
  unfold wordSize
  rw [hmul]
  change (host.add 4 (index * 4) >>= _) ≠ _
  rw [hadd]
  apply Results.bind_ne_error u32At_ne_overflow
  intro size _ h
  cases h

theorem varintSize_ne_overflow : varintSize host bytes entry index start ≠ .error .overflow := by
  apply Results.bind_ne_error readVarint_ne_overflow
  intro v _
  apply Results.bind_ne_error okOrMalformed_ne_overflow
  intro size _ h
  cases h

theorem entrySizes_ne_overflow (hbytes : bytes.length + 1 < 2 ^ host.bits) (hfour : 4 ≤ bytes.length)
    {raw : Int32} : entrySizes host bytes entry raw ≠ .error .overflow := by
  unfold entrySizes
  dsimp only
  split_ifs with hneg hmany
  · exact malformed_ne_overflow
  · exact readEach_ne_error (P := fun _ (step : ℕ × ℕ) code => Number code step.2 ∧ step.2 < 2 ^ host.bits)
      (fun _ _ => varintSize_reads) (fun _ _ _ _ => varintSize_ne_overflow) hfour
  · apply Results.bind_ne_error okOrMalformed_ne_overflow
    intro table htable
    obtain ⟨-, rfl⟩ := checkedMul_iff.mp (okOrMalformed_iff.mp htable)
    split_ifs with hshort
    · exact malformed_ne_overflow
    · have hheader : 4 + raw.toInt.natAbs * 4 ≤ bytes.length := by
        unfold Host.saturatingAdd at hshort
        omega
      apply Results.bind_ne_error
      · apply Results.mapM_ne_error
        intro index hindex
        rw [List.mem_range] at hindex
        exact wordSize_ne_overflow (by omega)
      · intro sizes _
        have hadd : host.add 4 (raw.toInt.natAbs * 4) = .ok (4 + raw.toInt.natAbs * 4) :=
          add_ok.mpr ⟨by omega, rfl⟩
        rw [hadd]
        intro h
        cases h

theorem entries_ne_overflow (hbytes : bytes.length + 1 < 2 ^ host.bits) :
    entries host bytes entry ≠ .error .overflow := by
  unfold entries
  split_ifs
  · intro h
    cases h
  · apply Results.bind_ne_error u32At_ne_overflow
    intro word hword
    have hword := (u32At_iff (by omega)).mp hword
    apply Results.bind_ne_error (entrySizes_ne_overflow hbytes hword.le_length)
    intro sizes hsizes
    have hstop := entrySizes_le hbytes hword.le_length hsizes
    have hreads : ∀ size ∈ sizes.1.zipIdx, Reads bytes (entrySlice host bytes entry size)
        fun _ slice front => slice = front ∧ slice.length = size.1 :=
      fun size _ => entrySlice_reads (by omega) size
    apply Results.bind_ne_error
    · exact readEach_ne_error (P := fun _ (step : (ℕ × ℕ) × List UInt8) front =>
        step.2 = front ∧ step.2.length = step.1.1) hreads (fun _ _ _ _ => takeAt_ne_overflow) hstop
    · intro step hstep
      obtain ⟨-, front, rest, hdrop, hlast, -⟩ := (readEach_iff (P := fun _ (step : (ℕ × ℕ) × List UInt8) front =>
        step.2 = front ∧ step.2.length = step.1.1) hreads hstop).mp hstep
      have hle := length_le_of_drop hstop hdrop
      apply Results.bind_ne_error (requireEnd_ne_overflow (by omega))
      intro u _ h
      cases h

end Entries

section DeclarationIndex

variable {host : Host} {bytes : List UInt8} {index : ℕ}

theorem declaration_ne_overflow (hindex : 4 + index * 12 + 8 < 2 ^ host.bits)
    {output : List (UInt64 × List UInt8)} : declaration host bytes output index ≠ .error .overflow := by
  have hmul : host.mul index 12 = .ok (index * 12) := mul_ok.mpr ⟨by omega, rfl⟩
  have hrow : host.add 4 (index * 12) = .ok (4 + index * 12) := add_ok.mpr ⟨by omega, rfl⟩
  have hoffset : host.add (4 + index * 12) 4 = .ok (4 + index * 12 + 4) := add_ok.mpr ⟨by omega, rfl⟩
  have hsize : host.add (4 + index * 12) 8 = .ok (4 + index * 12 + 8) := add_ok.mpr ⟨by omega, rfl⟩
  unfold declaration
  rw [Results.bind_of_ok hmul, Results.bind_of_ok hrow]
  apply Results.bind_ne_error u32At_ne_overflow
  intro id _
  dsimp only
  rw [Results.bind_of_ok hoffset]
  apply Results.bind_ne_error u32At_ne_overflow
  intro offset _
  rw [Results.bind_of_ok hsize]
  apply Results.bind_ne_error u32At_ne_overflow
  intro size _
  rw [Results.bind_of_ok hoffset]
  apply Results.bind_ne_error okOrMalformed_ne_overflow
  intro stop _
  apply Results.bind_ne_error okOrMalformed_ne_overflow
  intro value _
  split_ifs
  · exact malformed_ne_overflow
  · intro h
    cases h

theorem declarationIndex_ne_overflow (hbytes : bytes.length < 2 ^ host.bits) :
    declarationIndex host bytes ≠ .error .overflow := by
  unfold declarationIndex
  split_ifs
  · intro h
    cases h
  · apply Results.bind_ne_error u32At_ne_overflow
    intro count _
    apply Results.bind_ne_error okOrMalformed_ne_overflow
    intro table htable
    apply Results.bind_ne_error okOrMalformed_ne_overflow
    intro header hheader
    obtain ⟨-, rfl⟩ := checkedMul_iff.mp (okOrMalformed_iff.mp htable)
    obtain ⟨-, rfl⟩ := checkedAdd_iff.mp (okOrMalformed_iff.mp hheader)
    split_ifs with hshort
    · exact malformed_ne_overflow
    · apply Results.foldlM_ne_error
      intro index hindex output
      rw [List.mem_range] at hindex
      exact declaration_ne_overflow (by omega)

end DeclarationIndex

/-- The readers of KLIB IR tables divide their input up: a message is read exactly when its bytes are fields one
after another, and a per-file or an entry table exactly when its counts and sizes use up the bytes, and what is
read is those parts, in order. No unchecked operation leaves the host's words, whatever the header. -/
theorem tables_partition (host : Host) (bytes : host.Slice) (entry : String) :
    (∀ base fields, message host bytes.val entry base = .ok fields ↔ Covers (FieldAt base) 0 fields bytes.val) ∧
    (∀ slices, entries host bytes.val entry = .ok slices ↔ EntryTable bytes.val slices) ∧
    (∀ files, perFile host bytes.val entry = .ok files ↔ FileTable bytes.val files) ∧
    (∀ base, message host bytes.val entry base ≠ .error .overflow) ∧
    entries host bytes.val entry ≠ .error .overflow ∧ perFile host bytes.val entry ≠ .error .overflow ∧
    declarationIndex host bytes.val ≠ .error .overflow := by
  have hfits : bytes.val.length + 1 < 2 ^ host.bits := by
    have hslice := bytes.property
    have hwide := host.wide
    have hhalf : 2 ^ host.bits = 2 * 2 ^ (host.bits - 1) := by
      rw [← pow_succ']
      congr 1
      omega
    have hpos : 2 ^ 1 ≤ 2 ^ (host.bits - 1) := Nat.pow_le_pow_right (by decide) (by omega)
    omega
  have hbytes : bytes.val.length < 2 ^ host.bits := by omega
  exact ⟨fun _ _ => message_iff hbytes, fun _ => entries_iff hfits, fun _ => perFile_iff hbytes,
    fun _ => message_ne_overflow hbytes, entries_ne_overflow hfits, perFile_ne_overflow hbytes,
    declarationIndex_ne_overflow hbytes⟩

end Krusty.Metadata.KlibIr
