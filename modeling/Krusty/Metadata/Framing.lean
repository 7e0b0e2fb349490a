import Krusty.Metadata.Decode.Wire

/-! The protobuf writer of Kotlin metadata messages. -/
namespace Krusty.Metadata.Protobuf

/-- A message as written so far. -/
structure Pb where
  buf : List UInt8

namespace Pb

def new : Pb := { buf := [] }

/-- The bytes that `varint` appends. -/
def varintBytes (v : UInt64) : List UInt8 :=
  let byte := (v &&& 0x7f).toUInt8
  if v >>> 7 ≠ 0 then (byte ||| 0x80) :: varintBytes (v >>> 7) else [byte]
termination_by v.toNat
decreasing_by
  rename_i h
  have hne : (v >>> 7).toNat ≠ 0 := fun hzero => h (UInt64.toNat_inj.mp hzero)
  have hshift : (v >>> 7).toNat = v.toNat / 128 := by
    rw [UInt64.toNat_shiftRight]
    exact Nat.shiftRight_eq_div_pow v.toNat 7
  omega

def varint (p : Pb) (v : UInt64) : Pb := { buf := p.buf ++ varintBytes v }

def extend (p : Pb) (bytes : List UInt8) : Pb := { buf := p.buf ++ bytes }

def tag (p : Pb) (field : UInt32) (wireType : UInt8) : Pb :=
  p.varint (field.toUInt64 <<< 3 ||| wireType.toUInt64)

def fieldVarint (p : Pb) (field : UInt32) (v : UInt64) : Pb := (p.tag field 0).varint v

def fieldFixed32 (p : Pb) (field : UInt32) (v : UInt32) : Pb :=
  (p.tag field 5).extend (Bytes.beBytes 4 v.toNat).reverse

def fieldFixed64 (p : Pb) (field : UInt32) (v : UInt64) : Pb :=
  (p.tag field 1).extend (Bytes.beBytes 8 v.toNat).reverse

def fieldBytes (p : Pb) (field : UInt32) (b : List UInt8) : Pb :=
  ((p.tag field 2).varint (UInt64.ofNat b.length)).extend b

/-- Nothing is written for an empty list. -/
def fieldPackedVarints (p : Pb) (field : UInt32) (values : List UInt64) : Pb :=
  if values = [] then p
  else
    let payload := values.foldl varint new
    p.fieldBytes field payload.buf

def append (p other : Pb) : Pb := { buf := p.buf ++ other.buf }

/-- The number at the front of a buffer and the bytes after it. `none` is a panic: the buffer ends, or the
shift overflows. -/
def readVarint : List UInt8 → UInt64 → ℕ → Option (UInt64 × List UInt8)
  | [], _, _ => none
  | byte :: rest, value, shift =>
    if 64 ≤ shift then none
    else
      let value := value ||| (byte &&& 0x7f).toUInt64 <<< UInt64.ofNat shift
      if byte &&& 0x80 = 0 then some (value, rest) else readVarint rest value (shift + 7)

/-- The bytes left after a number of them, which panics when there are not as many. -/
def advance (bytes : List UInt8) (length : ℕ) : Option (List UInt8) :=
  if length ≤ bytes.length then some (bytes.drop length) else none

/-- The bytes after a field's value, by its wire type; the writer never emits another one. -/
def skipValue (wire : UInt64) (bytes : List UInt8) : Option (List UInt8) :=
  if wire = 0 then do
    let (_, rest) ← readVarint bytes 0 0
    return rest
  else if wire = 1 then advance bytes 8
  else if wire = 2 then do
    let (length, rest) ← readVarint bytes 0 0
    advance rest length.toNat
  else if wire = 5 then advance bytes 4
  else none

/-- One turn of the loop of `canonical`: the tag of the field at the front, and the bytes after it. -/
def nextField (bytes : List UInt8) : Option (UInt64 × List UInt8) := do
  let (tag, rest) ← readVarint bytes 0 0
  let rest ← skipValue (tag &&& 0x7) rest
  return (tag, rest)

/-- The fields of a buffer, each with its number and bytes; the fuel bounds the number of fields. -/
def fields : ℕ → List UInt8 → Option (List (UInt64 × List UInt8))
  | _, [] => some []
  | 0, _ :: _ => none
  | fuel + 1, bytes => do
    let (tag, rest) ← nextField bytes
    let others ← fields fuel rest
    return (tag >>> 3, bytes.take (bytes.length - rest.length)) :: others

/-- The message with its fields in field-number order, repeated fields keeping theirs. -/
def canonical (p : Pb) : Option Pb := do
  let fields ← fields p.buf.length p.buf
  let sorted := fields.mergeSort fun a b => a.1 ≤ b.1
  return { buf := sorted.flatMap (·.2) }

/-- The message is embedded in canonical order. -/
def fieldMessage (p : Pb) (field : UInt32) (msg : Pb) : Option Pb := do
  let msg ← msg.canonical
  return p.fieldBytes field msg.buf

end Pb

/-- A field write, a nested message written by writes of its own. -/
inductive Write where
  | varint (field : UInt32) (v : UInt64)
  | fixed32 (field : UInt32) (v : UInt32)
  | fixed64 (field : UInt32) (v : UInt64)
  | bytes (field : UInt32) (b : List UInt8)
  | packedVarints (field : UInt32) (values : List UInt64)
  | message (field : UInt32) (writes : List Write)

mutual

def Write.run (p : Pb) : Write → Option Pb
  | .varint field v => some (p.fieldVarint field v)
  | .fixed32 field v => some (p.fieldFixed32 field v)
  | .fixed64 field v => some (p.fieldFixed64 field v)
  | .bytes field b => some (p.fieldBytes field b)
  | .packedVarints field values => some (p.fieldPackedVarints field values)
  | .message field writes => do
    let msg ← runAll .new writes
    p.fieldMessage field msg

/-- A message written by a sequence of field writes. -/
def runAll (p : Pb) : List Write → Option Pb
  | [] => some p
  | write :: writes => do
    let p ← write.run p
    runAll p writes

end

end Krusty.Metadata.Protobuf

/-! What the metadata decoders and `canonical` make of the bytes of one field, and of a row of fields. -/
namespace Krusty.Metadata

open Decode

/-! ## Numbers -/

theorem Protobuf.Pb.varintBytes_eq (v : UInt64) : varintBytes v = Varint.encode v.toNat := by
  induction hn : v.toNat using Nat.strong_induction_on generalizing v with
  | h n ih =>
    subst hn
    have hshift : (v >>> 7).toNat = v.toNat / 128 := by
      rw [UInt64.toNat_shiftRight]
      exact Nat.shiftRight_eq_div_pow v.toNat 7
    have hlow : (v &&& 0x7f).toUInt8.toNat = v.toNat % 128 := by
      rw [UInt64.toNat_toUInt8, UInt64.toNat_and, show (0x7f : UInt64).toNat = 2 ^ 7 - 1 from rfl,
        Nat.and_two_pow_sub_one_eq_mod]
      omega
    have hhigh : ((v &&& 0x7f).toUInt8 ||| 0x80).toNat = v.toNat % 128 + 128 := by
      have hor := Nat.two_pow_add_eq_or_of_lt (show v.toNat % 128 < 2 ^ 7 by omega) 1
      rw [UInt8.toNat_or, hlow, Nat.or_comm]
      exact hor.symm.trans (Nat.add_comm _ _)
    have hzero : v >>> 7 = 0 ↔ v.toNat < 128 := by
      rw [← UInt64.toNat_inj, hshift, UInt64.toNat_zero]
      omega
    unfold varintBytes Varint.encode
    by_cases hsmall : v.toNat < 128
    · have hnot : ¬ v >>> 7 ≠ 0 := by simpa using hzero.mpr hsmall
      simp only [hnot, if_false, hsmall, if_true, List.cons.injEq, and_true]
      apply UInt8.toNat_inj.mp
      rw [hlow, UInt8.toNat_ofNat']
      omega
    · have hne : v >>> 7 ≠ 0 := fun h => hsmall (hzero.mp h)
      have htail : varintBytes (v >>> 7) = Varint.encode (v.toNat / 128) := by
        rw [ih (v >>> 7).toNat (by omega) (v >>> 7) rfl, hshift]
      rw [if_pos hne, if_neg hsmall, htail]
      congr 1
      apply UInt8.toNat_inj.mp
      rw [hhigh, UInt8.toNat_ofNat']
      omega

theorem Decode.Pb.lt_of_varintFrom {l : List UInt8} {v : UInt64} {s i : ℕ} {r : UInt64 × ℕ}
    (h : varintFrom l v s i = some r) : i < r.2 := by
  induction l generalizing v s i with
  | nil => cases h
  | cons b rest ih =>
    unfold varintFrom at h
    dsimp only at h
    split_ifs at h
    · cases h
      exact Nat.lt_succ_self i
    · have hlt := ih h
      omega

/-- Up to its panics, `readVarint` reads as the metadata decoders do. -/
theorem Protobuf.Pb.readVarint_eq {l : List UInt8} {v : UInt64} {s i : ℕ} (hs : s < 64) :
    readVarint l v s = (Decode.Pb.varintFrom l v s i).map fun r => (r.1, l.drop (r.2 - i)) := by
  induction l generalizing v s i with
  | nil => rfl
  | cons b rest ih =>
    unfold readVarint Decode.Pb.varintFrom
    rw [if_neg (by omega)]
    dsimp only
    split_ifs with hlast hshift
    · simp
    · -- the byte after the tenth is not read by either
      cases rest with
      | nil => rfl
      | cons c rest => simp [readVarint, hshift]
    · rw [ih (i := i + 1) (by omega)]
      cases hrest : Decode.Pb.varintFrom rest
          (v ||| (b &&& 0x7f).toUInt64 <<< UInt64.ofNat s) (s + 7) (i + 1) with
      | none => rfl
      | some r =>
        have hlt := Decode.Pb.lt_of_varintFrom hrest
        have hdrop : r.2 - i = r.2 - (i + 1) + 1 := by omega
        rw [Option.map_some, Option.map_some, hdrop, List.drop_succ_cons]

theorem Protobuf.Pb.readVarint_encode (v : UInt64) (rest : List UInt8) :
    readVarint (Varint.encode v.toNat ++ rest) 0 0 = some (v, rest) := by
  have hlen := Varint.encode_length_u64 v
  have hfrom : Decode.Pb.varintFrom (Varint.encode v.toNat ++ rest) 0 (7 * 0) 0 = _ :=
    Decode.varintFrom_eq (by decide) (by decide)
  rw [Varint.code?_encode] at hfrom
  rw [readVarint_eq (i := 0) (by decide), hfrom]
  simp [hlen, Varint.value_encode]

/-! ## The cursor -/

/-- What the cursor has before it, in a message that an allocation can hold. -/
structure At (p : Decode.Pb) (l : List UInt8) : Prop where
  drop : p.b.drop p.i = l
  le : p.i ≤ p.b.length
  fits : p.b.length < 2 ^ 64

/-- The cursor moved over some bytes. -/
def Decode.Pb.forward (p : Decode.Pb) (n : ℕ) : Decode.Pb := { p with i := p.i + n }

theorem Decode.Pb.forward_forward (p : Decode.Pb) (m n : ℕ) :
    (p.forward m).forward n = p.forward (m + n) := by
  simp [forward, Nat.add_assoc]

namespace At

variable {p : Decode.Pb} {code rest : List UInt8}

theorem forward (h : At p (code ++ rest)) : At (p.forward code.length) rest := by
  have hlen := congrArg List.length h.drop
  rw [List.length_drop, List.length_append] at hlen
  have hle := h.le
  exact ⟨Bytes.drop_add h.drop, by unfold Decode.Pb.forward; dsimp only; omega, h.fits⟩

theorem varint {v : UInt64} (h : At p (Varint.encode v.toNat ++ rest)) :
    p.varint = some (v, p.forward (Varint.encode v.toNat).length) := by
  have hlen := Varint.encode_length_u64 v
  rw [Decode.Pb.varint_eq, h.drop, Varint.code?_encode]
  simp [hlen, Varint.value_encode, Decode.Pb.forward]

theorem bytes (h : At p (code ++ rest)) : p.bytes code.length = some (code, p.forward code.length) := by
  have hforward := h.forward.le
  have hfits := h.fits
  unfold Decode.Pb.forward at hforward
  dsimp only at hforward
  have hslice : Bytes.slice? p.b p.i code.length = some code := by
    unfold Bytes.slice?
    rw [if_pos hforward, h.drop, List.take_left]
  have hguard : p.i + code.length < 2 ^ 64 := by omega
  unfold Decode.Pb.bytes
  simp only [guard, hguard, if_true, hslice]
  rfl

end At

/-! ## Fields -/

/-- A skipped value is a read one. -/
theorem Decode.Pb.skip_eq (p : Decode.Pb) (wire : UInt64) : p.skip wire = (p.value wire).map (·.2) := by
  unfold skip value
  split_ifs
  · cases p.varint <;> rfl
  · cases p.bytes 8 <;> rfl
  · cases hlength : p.varint with
    | none => rfl
    | some r =>
      obtain ⟨length, p'⟩ := r
      cases hbytes : p'.bytes length.toNat <;> simp [hbytes]
  · cases p.bytes 4 <;> rfl
  · rfl

/-- The bytes of one field: wherever they stand, both readers take them for this field and nothing more. -/
structure Framed (code : List UInt8) (field : UInt64 × Decode.Pb.Value) : Prop where
  ne_nil : code ≠ []
  read : ∀ p rest, At p (code ++ rest) → p.field = some (field, p.forward code.length)
  skip : ∀ p rest, At p (code ++ rest) →
    ∃ tag p', p.varint = some (tag, p') ∧ p'.skip (tag &&& 7) = some (p.forward code.length)
  split : ∀ rest, ∃ tag : UInt64,
    tag >>> 3 = field.1 ∧ Protobuf.Pb.nextField (code ++ rest) = some (tag, rest)

section Tags

variable (field : UInt32) (wire : UInt8)

def tagOf : UInt64 := field.toUInt64 <<< 3 ||| wire.toUInt64

theorem tagOf_toNat (hwire : wire.toNat < 8) : (tagOf field wire).toNat = 8 * field.toNat + wire.toNat := by
  have hfield := field.toNat_lt
  have hor := Nat.two_pow_add_eq_or_of_lt (show wire.toNat < 2 ^ 3 from hwire) field.toNat
  have hshift : (field.toUInt64 <<< 3).toNat = 2 ^ 3 * field.toNat := by
    rw [UInt64.toNat_shiftLeft, UInt32.toNat_toUInt64, Nat.shiftLeft_eq,
      show (3 : UInt64).toNat % 64 = 3 from rfl]
    omega
  unfold tagOf
  rw [UInt64.toNat_or, hshift, UInt8.toNat_toUInt64]
  exact hor.symm

theorem tagOf_number (hwire : wire.toNat < 8) : tagOf field wire >>> 3 = field.toUInt64 := by
  apply UInt64.toNat_inj.mp
  have hdiv := Nat.shiftRight_eq_div_pow (tagOf field wire).toNat 3
  rw [UInt64.toNat_shiftRight, show (3 : UInt64).toNat % 64 = 3 from rfl, hdiv, tagOf_toNat field wire hwire,
    UInt32.toNat_toUInt64]
  omega

theorem tagOf_wire (hwire : wire.toNat < 8) : tagOf field wire &&& 7 = wire.toUInt64 := by
  apply UInt64.toNat_inj.mp
  have hmod := Nat.and_two_pow_sub_one_eq_mod (tagOf field wire).toNat 3
  rw [UInt64.toNat_and, show (7 : UInt64).toNat = 2 ^ 3 - 1 from rfl, hmod, tagOf_toNat field wire hwire,
    UInt8.toNat_toUInt64]
  omega

variable {field wire}

theorem framed_of_value {code : List UInt8} {value : Decode.Pb.Value} (hwire : wire.toNat < 8)
    (hread : ∀ p rest, At p (code ++ rest) →
      p.value wire.toUInt64 = some (value, p.forward code.length))
    (hsplit : ∀ rest, Protobuf.Pb.skipValue wire.toUInt64 (code ++ rest) = some rest) :
    Framed (Varint.encode (tagOf field wire).toNat ++ code) (field.toUInt64, value) := by
  have hstep {p : Decode.Pb} {rest : List UInt8}
      (h : At p (Varint.encode (tagOf field wire).toNat ++ code ++ rest)) :
      p.varint = some (tagOf field wire, p.forward (Varint.encode (tagOf field wire).toNat).length) ∧
      (p.forward (Varint.encode (tagOf field wire).toNat).length).value (tagOf field wire &&& 7) =
        some (value, p.forward (Varint.encode (tagOf field wire).toNat ++ code).length) := by
    rw [List.append_assoc] at h
    have hvalue := hread _ rest h.forward
    rw [Decode.Pb.forward_forward, ← List.length_append] at hvalue
    rw [tagOf_wire field wire hwire]
    exact ⟨h.varint, hvalue⟩
  refine ⟨?_, fun p rest h => ?_, fun p rest h => ?_, fun rest => ⟨tagOf field wire, ?_, ?_⟩⟩
  · exact List.append_ne_nil_of_left_ne_nil (Varint.encode_ne_nil _) _
  · unfold Decode.Pb.field
    simp only [(hstep h).1, Option.bind_eq_bind, Option.bind_some, (hstep h).2, tagOf_number field wire hwire]
    rfl
  · refine ⟨_, _, (hstep h).1, ?_⟩
    rw [Decode.Pb.skip_eq, (hstep h).2]
    rfl
  · exact tagOf_number field wire hwire
  · unfold Protobuf.Pb.nextField
    rw [List.append_assoc, Protobuf.Pb.readVarint_encode]
    simp only [Option.bind_eq_bind, Option.bind_some, tagOf_wire field wire hwire, hsplit rest]
    rfl

theorem framed_varint (v : UInt64) :
    Framed (Varint.encode (tagOf field 0).toNat ++ Varint.encode v.toNat) (field.toUInt64, .varint v) := by
  refine framed_of_value (by decide) (fun p rest h => ?_) fun rest => ?_
  · unfold Decode.Pb.value
    rw [if_pos (by decide), h.varint]
    rfl
  · unfold Protobuf.Pb.skipValue
    rw [if_pos (by decide), Protobuf.Pb.readVarint_encode]
    rfl

theorem framed_fixed64 {b : List UInt8} (hb : b.length = 8) :
    Framed (Varint.encode (tagOf field 1).toNat ++ b) (field.toUInt64, .fixed64 b) := by
  refine framed_of_value (by decide) (fun p rest h => ?_) fun rest => ?_
  · have hbytes := h.bytes
    rw [hb] at hbytes
    unfold Decode.Pb.value
    rw [if_neg (by decide), if_pos (by decide), hbytes, hb]
    rfl
  · unfold Protobuf.Pb.skipValue Protobuf.Pb.advance
    rw [if_neg (by decide), if_pos (by decide), if_pos (by rw [List.length_append]; omega), ← hb,
      List.drop_left]

theorem framed_fixed32 {b : List UInt8} (hb : b.length = 4) :
    Framed (Varint.encode (tagOf field 5).toNat ++ b) (field.toUInt64, .fixed32 b) := by
  refine framed_of_value (by decide) (fun p rest h => ?_) fun rest => ?_
  · have hbytes := h.bytes
    rw [hb] at hbytes
    unfold Decode.Pb.value
    rw [if_neg (by decide), if_neg (by decide), if_neg (by decide), if_pos (by decide), hbytes, hb]
    rfl
  · unfold Protobuf.Pb.skipValue Protobuf.Pb.advance
    rw [if_neg (by decide), if_neg (by decide), if_neg (by decide), if_pos (by decide),
      if_pos (by rw [List.length_append]; omega), ← hb, List.drop_left]

theorem framed_bytes {b : List UInt8} (hb : b.length < 2 ^ 64) :
    Framed (Varint.encode (tagOf field 2).toNat ++ (Varint.encode (UInt64.ofNat b.length).toNat ++ b))
      (field.toUInt64, .bytes b) := by
  have hlength : (UInt64.ofNat b.length).toNat = b.length := by
    rw [UInt64.toNat_ofNat', Nat.mod_eq_of_lt hb]
  refine framed_of_value (by decide) (fun p rest h => ?_) fun rest => ?_
  · rw [List.append_assoc] at h
    have hbytes := h.forward.bytes
    rw [Decode.Pb.forward_forward, ← List.length_append] at hbytes
    unfold Decode.Pb.value
    rw [if_neg (by decide), if_neg (by decide), if_pos (by decide), h.varint]
    simp only [Option.bind_eq_bind, Option.bind_some]
    rw [hlength] at hbytes ⊢
    rw [hbytes]
    rfl
  · unfold Protobuf.Pb.skipValue Protobuf.Pb.advance
    rw [if_neg (by decide), if_neg (by decide), if_pos (by decide), List.append_assoc,
      Protobuf.Pb.readVarint_encode]
    simp only [Option.bind_eq_bind, Option.bind_some, hlength]
    rw [if_pos (by rw [List.length_append]; omega), List.drop_left]

end Tags

end Krusty.Metadata
