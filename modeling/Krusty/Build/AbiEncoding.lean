import Krusty.Build.Abi
import Krusty.Build.KeyEncoding

/-! What a fingerprint's computation absorbs determines of the module's ABI. -/
namespace Krusty.Build

open Strings Hasher

namespace Hasher

variable {γ α β : Type} {P : γ → Prop} {f : γ → Hasher → Hasher} {part : γ → α} {c c' : γ}
  {rest rest' : List UInt8}

theorem Determines.appends (h : Determines P f part) (c : γ) (hasher : Hasher) :
    (f c hasher).absorbed = hasher.absorbed ++ (f c new).absorbed := by
  obtain ⟨code, happ, -⟩ := h
  rw [happ, happ]
  rfl

/-- What the bytes of two values tell, whatever comes after them. -/
theorem Determines.told (h : Determines P f part) (hc : P c) (hc' : P c')
    (heq : (f c new).absorbed ++ rest = (f c' new).absorbed ++ rest') : part c = part c' ∧ rest = rest' := by
  obtain ⟨code, happ, hinj⟩ := h
  rw [happ, happ] at heq
  exact hinj c c' rest rest' hc hc' heq

theorem Determines.of_told
    (happ : ∀ c hasher, (f c hasher).absorbed = hasher.absorbed ++ (f c new).absorbed)
    (htold : ∀ c c' rest rest', P c → P c' →
      (f c new).absorbed ++ rest = (f c' new).absorbed ++ rest' → part c = part c' ∧ rest = rest') :
    Determines P f part :=
  ⟨fun c => (f c new).absorbed, happ, htold⟩

/-- A part behind a byte that says whether it is there. -/
theorem determines_absorbOption {P : α → Prop} {absorb : α → Hasher → Hasher} (tag : Text)
    (h : Determines P absorb id) :
    Determines (fun part => ∀ a ∈ part, P a) (fun part hasher => absorbOption tag absorb part hasher) id := by
  have hfield := determines_field tag
  apply Determines.of_told
  · intro part hasher
    cases part with
    | none => exact hfield.appends [0] hasher
    | some a =>
      simp only [absorbOption]
      rw [h.appends a (hasher.field tag [1]), hfield.appends [1] hasher, h.appends a (new.field tag [1]),
        List.append_assoc]
  · intro part part' rest rest' hp hp' heq
    have hone : Fits [(1 : UInt8)] := by simp [Fits]
    have hzero : Fits [(0 : UInt8)] := by simp [Fits]
    cases part with
    | none =>
      cases part' with
      | none => exact ⟨rfl, (hfield.told hzero hzero heq).2⟩
      | some a =>
        simp only [absorbOption, h.appends a (new.field tag [1]), List.append_assoc] at heq
        have hbyte := (hfield.told hzero hone heq).1
        cases hbyte
    | some a =>
      cases part' with
      | none =>
        simp only [absorbOption, h.appends a (new.field tag [1]), List.append_assoc] at heq
        have hbyte := (hfield.told hone hzero heq).1
        cases hbyte
      | some a' =>
        simp only [absorbOption, h.appends a (new.field tag [1]), h.appends a' (new.field tag [1]),
          List.append_assoc] at heq
        obtain ⟨hsame, hrest⟩ := h.told (hp a rfl) (hp' a' rfl) (hfield.told hone hone heq).2
        exact ⟨congrArg some hsame, hrest⟩

/-- A field of a number of fixed width. -/
theorem determines_number (tag : Text) (width : ℕ) (value : γ → ℕ) (hbound : ∀ c, value c < 256 ^ width)
    (hwidth : width < 2 ^ 64) :
    Determines (fun _ => True) (fun c h => h.field tag (LittleEndian.leBytes width (value c))) value := by
  have hfield := ((determines_field tag).of_comp fun c => LittleEndian.leBytes width (value c)).mono
    (Q := fun _ : γ => True) fun c _ => by simpa [Fits] using hwidth
  exact hfield.map fun c c' h => leBytes_injective (hbound c) (hbound c') h

end Hasher

section Numbers

variable {tag : Text}

theorem determines_le16 (tag : Text) : Determines (fun _ => True) (fun v h => h.field tag (le16 v)) id :=
  (determines_number tag 2 UInt16.toNat (fun v => v.toNat_lt) (by decide)).map fun _ _ h => UInt16.toNat_inj.mp h

theorem determines_le32 (tag : Text) : Determines (fun _ => True) (fun v h => h.field tag (le32 v)) id :=
  (determines_number tag 4 UInt32.toNat (fun v => v.toNat_lt) (by decide)).map fun _ _ h => UInt32.toNat_inj.mp h

theorem determines_le64 (tag : Text) : Determines (fun _ => True) (fun v h => h.field tag (le64 v)) id :=
  (determines_number tag 8 UInt64.toNat (fun v => v.toNat_lt) (by decide)).map fun _ _ h => UInt64.toNat_inj.mp h

theorem determines_byte (tag : Text) : Determines (fun _ => True) (fun v h => h.field tag [v]) id :=
  (((determines_field tag).of_comp fun v : UInt8 => [v]).mono fun v _ => by simp [Fits]).map
    fun _ _ h => by simpa using h

theorem determines_units (countTag unitTag : Text) : Determines Fits (absorbUnits countTag unitTag) id :=
  (determines_absorbAll countTag (determines_le16 unitTag)).mono fun _ h => ⟨h, fun _ _ => trivial⟩

end Numbers

/-- Two parts absorbed one after the other, of which the first says what the second is of. -/
theorem tagged_told {γ : Type} {P : γ → Prop} {f : γ → Hasher → Hasher} {k : γ → Text}
    {b : γ → Hasher → Hasher} {tag : Text} (hf : ∀ c h, f c h = b c (h.text tag (k c)))
    (hkind : ∀ c, P c → Fits (toUtf8 (k c)))
    (happ : ∀ c h, (b c h).absorbed = h.absorbed ++ (b c new).absorbed)
    (htold : ∀ c c' rest rest', P c → P c' → k c = k c' →
      (b c new).absorbed ++ rest = (b c' new).absorbed ++ rest' → c = c' ∧ rest = rest') :
    Determines P f id := by
  have htext := determines_text tag
  have hsplit : ∀ c h, (f c h).absorbed = h.absorbed ++ ((new.text tag (k c)).absorbed ++ (b c new).absorbed) := by
    intro c h
    rw [hf, happ, htext.appends (k c) h, List.append_assoc]
  apply Determines.of_told
  · intro c h
    rw [hsplit c h, hsplit c new]
    rfl
  · intro c c' rest rest' hc hc' heq
    simp only [hsplit, new, List.nil_append, List.append_assoc] at heq
    obtain ⟨hsame, hrest⟩ := htext.told (hkind c hc) (hkind c' hc') heq
    exact htold c c' rest rest' hc hc' hsame hrest

namespace AbiConstant

def kind : AbiConstant → Text
  | int _ => "int".toList
  | long _ => "long".toList
  | floatBits _ => "float".toList
  | doubleBits _ => "double".toList
  | string _ => "string".toList

/-- What is absorbed after the kind. -/
def body : AbiConstant → Hasher → Hasher
  | int value, h => h.field "constant-value".toList (le32 value.toUInt32)
  | long value, h => h.field "constant-value".toList (le64 value.toUInt64)
  | floatBits bits, h => h.field "constant-value".toList (le32 bits)
  | doubleBits bits, h => h.field "constant-value".toList (le64 bits)
  | string units, h => absorbUnits "constant-units".toList "constant-unit".toList units h

/-- Every length is one that the machine can count. -/
def Addressable : AbiConstant → Prop
  | string units => Fits units
  | _ => True

theorem body_appends (c : AbiConstant) (h : Hasher) :
    (c.body h).absorbed = h.absorbed ++ (c.body new).absorbed := by
  cases c with
  | int value => exact (determines_le32 _).appends value.toUInt32 h
  | long value => exact (determines_le64 _).appends value.toUInt64 h
  | floatBits bits => exact (determines_le32 _).appends bits h
  | doubleBits bits => exact (determines_le64 _).appends bits h
  | string units => exact (determines_units _ _).appends units h

theorem determines : Determines Addressable absorb id := by
  apply tagged_told (k := kind) (b := body)
  · intro c h
    cases c <;> rfl
  · intro c _
    cases c <;> simp only [kind] <;> decide
  · exact body_appends
  · intro c c' rest rest' hc hc' hkind heq
    cases c with
    | int value =>
      cases c' with
      | int value' =>
        obtain ⟨hsame, hrest⟩ := (determines_le32 _).told trivial trivial heq
        exact ⟨congrArg (fun bits => int bits.toInt32) hsame, hrest⟩
      | _ => cases hkind
    | long value =>
      cases c' with
      | long value' =>
        obtain ⟨hsame, hrest⟩ := (determines_le64 _).told trivial trivial heq
        exact ⟨congrArg (fun bits => long bits.toInt64) hsame, hrest⟩
      | _ => cases hkind
    | floatBits bits =>
      cases c' with
      | floatBits bits' =>
        obtain ⟨hsame, hrest⟩ := (determines_le32 _).told trivial trivial heq
        exact ⟨congrArg floatBits hsame, hrest⟩
      | _ => cases hkind
    | doubleBits bits =>
      cases c' with
      | doubleBits bits' =>
        obtain ⟨hsame, hrest⟩ := (determines_le64 _).told trivial trivial heq
        exact ⟨congrArg doubleBits hsame, hrest⟩
      | _ => cases hkind
    | string units =>
      cases c' with
      | string units' =>
        obtain ⟨hsame, hrest⟩ := (determines_units _ _).told hc hc' heq
        exact ⟨congrArg string hsame, hrest⟩
      | _ => cases hkind

end AbiConstant

mutual

def AbiAnnotation.Addressable : AbiAnnotation → Prop
  | .mk name arguments => Fits (toUtf8 name) ∧ Fits arguments ∧ ArgumentsAddressable arguments

def ArgumentsAddressable : List (Text × AbiAnnotationValue) → Prop
  | [] => True
  | (name, value) :: arguments => Fits (toUtf8 name) ∧ value.Addressable ∧ ArgumentsAddressable arguments

def AbiAnnotationValue.Addressable : AbiAnnotationValue → Prop
  | .string units => Fits units
  | .enum ty entry => Fits (toUtf8 ty) ∧ Fits (toUtf8 entry)
  | .cls ty => Fits (toUtf8 ty)
  | AbiAnnotationValue.annotation annotation => annotation.Addressable
  | .array values => Fits values ∧ ValuesAddressable values
  | _ => True

def ValuesAddressable : List AbiAnnotationValue → Prop
  | [] => True
  | value :: values => value.Addressable ∧ ValuesAddressable values

end

namespace AbiAnnotationValue

def kind : AbiAnnotationValue → Text
  | int _ => "int".toList
  | byte _ => "byte".toList
  | short _ => "short".toList
  | long _ => "long".toList
  | floatBits _ => "float".toList
  | doubleBits _ => "double".toList
  | boolean _ => "boolean".toList
  | char _ => "char".toList
  | string _ => "string".toList
  | enum _ _ => "enum".toList
  | cls _ => "class".toList
  | annotation _ => "annotation".toList
  | array _ => "array".toList

def body : AbiAnnotationValue → Hasher → Hasher
  | int value, h => h.field "annotation-value".toList (le32 value.toUInt32)
  | byte value, h => h.field "annotation-value".toList [value.toUInt8]
  | short value, h => h.field "annotation-value".toList (le16 value.toUInt16)
  | long value, h => h.field "annotation-value".toList (le64 value.toUInt64)
  | floatBits bits, h => h.field "annotation-value".toList (le32 bits)
  | doubleBits bits, h => h.field "annotation-value".toList (le64 bits)
  | boolean value, h => h.field "annotation-value".toList [if value then 1 else 0]
  | char unit, h => h.field "annotation-value".toList (le16 unit)
  | string units, h => absorbUnits "annotation-string-units".toList "annotation-string-unit".toList units h
  | enum ty entry, h => (h.text "annotation-enum-type".toList ty).text "annotation-enum-entry".toList entry
  | cls ty, h => h.text "annotation-class".toList ty
  | annotation note, h => note.absorb h
  | array values, h => absorbValues values (h.count "annotation-array-values".toList values.length)

theorem absorb_eq (value : AbiAnnotationValue) (h : Hasher) :
    value.absorb h = value.body (h.text "annotation-value-kind".toList value.kind) := by
  cases value <;> rfl

theorem absorb_appends_of_body {value : AbiAnnotationValue}
    (hbody : ∀ h, (value.body h).absorbed = h.absorbed ++ (value.body new).absorbed) (h : Hasher) :
    (value.absorb h).absorbed = h.absorbed ++ (value.absorb new).absorbed := by
  have hkind := (determines_text "annotation-value-kind".toList).appends value.kind h
  rw [absorb_eq, absorb_eq, hbody, hkind, hbody (new.text ..), List.append_assoc]

end AbiAnnotationValue

mutual

theorem AbiAnnotation.absorb_appends : ∀ (a : AbiAnnotation) (h : Hasher),
    (a.absorb h).absorbed = h.absorbed ++ (a.absorb new).absorbed
  | .mk name arguments, h => by
    have hname := (determines_text "annotation".toList).appends name h
    have hcount := (determines_count "annotation-arguments".toList).appends arguments.length
    simp only [ AbiAnnotation.absorb]
    rw [arguments_appends arguments (Hasher.count (Hasher.text h ..) ..), hcount (Hasher.text h ..), hname,
      arguments_appends arguments (Hasher.count (Hasher.text new ..) ..), hcount (Hasher.text new ..)]
    simp only [List.append_assoc]

theorem arguments_appends : ∀ (arguments : List (Text × AbiAnnotationValue)) (h : Hasher),
    (absorbArguments arguments h).absorbed = h.absorbed ++ (absorbArguments arguments new).absorbed
  | [], h => by simp [absorbArguments, new]
  | (name, value) :: arguments, h => by
    have hname := (determines_text "annotation-argument-name".toList).appends name h
    have hvalue := AbiAnnotationValue.absorb_appends_of_body value.body_appends
    simp only [absorbArguments]
    rw [arguments_appends arguments (value.absorb (Hasher.text h ..)), hvalue (Hasher.text h ..), hname,
      arguments_appends arguments (value.absorb (Hasher.text new ..)), hvalue (Hasher.text new ..)]
    simp only [List.append_assoc]

theorem AbiAnnotationValue.body_appends : ∀ (value : AbiAnnotationValue) (h : Hasher),
    (value.body h).absorbed = h.absorbed ++ (value.body new).absorbed
  | .int value, h => (determines_le32 _).appends value.toUInt32 h
  | .byte value, h => (determines_byte _).appends value.toUInt8 h
  | .short value, h => (determines_le16 _).appends value.toUInt16 h
  | .long value, h => (determines_le64 _).appends value.toUInt64 h
  | .floatBits bits, h => (determines_le32 _).appends bits h
  | .doubleBits bits, h => (determines_le64 _).appends bits h
  | .boolean value, h => (determines_byte _).appends (if value then 1 else 0) h
  | .char unit, h => (determines_le16 _).appends unit h
  | .string units, h => (determines_units _ _).appends units h
  | .enum ty entry, h => by
    have hty := (determines_text "annotation-enum-type".toList).appends ty h
    have hentry := (determines_text "annotation-enum-entry".toList).appends entry
    simp only [AbiAnnotationValue.body]
    rw [hentry (h.text ..), hty, hentry (new.text ..), List.append_assoc]
  | .cls ty, h => (determines_text _).appends ty h
  | AbiAnnotationValue.annotation note, h => note.absorb_appends h
  | .array values, h => by
    have hcount := (determines_count "annotation-array-values".toList).appends values.length h
    simp only [AbiAnnotationValue.body]
    rw [values_appends values (Hasher.count h ..), hcount, values_appends values (Hasher.count new ..),
      List.append_assoc]

theorem values_appends : ∀ (values : List AbiAnnotationValue) (h : Hasher),
    (absorbValues values h).absorbed = h.absorbed ++ (absorbValues values new).absorbed
  | [], h => by simp [absorbValues, new]
  | value :: values, h => by
    simp only [absorbValues]
    rw [values_appends values (value.absorb h), AbiAnnotationValue.absorb_appends_of_body value.body_appends h,
      values_appends values (value.absorb new), List.append_assoc]

end

theorem flag_injective {b b' : Bool} (h : (if b then (1 : UInt8) else 0) = if b' then 1 else 0) : b = b' := by
  revert b b'
  decide

namespace AbiAnnotationValue

def kinds : List Text := ["int".toList, "byte".toList, "short".toList, "long".toList, "float".toList,
  "double".toList, "boolean".toList, "char".toList, "string".toList, "enum".toList, "class".toList,
  "annotation".toList, "array".toList]

def kindIndex : AbiAnnotationValue → ℕ
  | int _ => 0
  | byte _ => 1
  | short _ => 2
  | long _ => 3
  | floatBits _ => 4
  | doubleBits _ => 5
  | boolean _ => 6
  | char _ => 7
  | string _ => 8
  | enum _ _ => 9
  | cls _ => 10
  | annotation _ => 11
  | array _ => 12

theorem kindIndex_eq (value : AbiAnnotationValue) : value.kindIndex = kinds.idxOf value.kind := by
  cases value <;> rfl

theorem kindIndex_lt (value : AbiAnnotationValue) : value.kindIndex < kinds.length := by
  cases value <;> exact Nat.lt_of_sub_pos (Nat.zero_lt_succ _)

theorem fits_kind (value : AbiAnnotationValue) : Fits (toUtf8 value.kind) := by
  have hall : ∀ k ∈ kinds, Fits (toUtf8 k) := by decide +kernel
  have hlt := value.kindIndex_lt
  rw [kindIndex_eq] at hlt
  exact hall _ (List.idxOf_lt_length_iff.mp hlt)

/-- The kind of a value is told first, then what it is of that kind. -/
theorem kind_told {value value' : AbiAnnotationValue} {rest rest' : List UInt8}
    (heq : (value.absorb new).absorbed ++ rest = (value'.absorb new).absorbed ++ rest') :
    value.kindIndex = value'.kindIndex ∧
      (value.body new).absorbed ++ rest = (value'.body new).absorbed ++ rest' := by
  rw [absorb_eq, absorb_eq, value.body_appends, value'.body_appends, List.append_assoc,
    List.append_assoc] at heq
  obtain ⟨hkind, hrest⟩ :=
    (determines_text "annotation-value-kind".toList).told value.fits_kind value'.fits_kind heq
  refine ⟨?_, hrest⟩
  rw [kindIndex_eq, kindIndex_eq]
  exact congrArg kinds.idxOf hkind

end AbiAnnotationValue

mutual

theorem AbiAnnotation.told : ∀ (a a' : AbiAnnotation) (rest rest' : List UInt8), a.Addressable →
    a'.Addressable → (a.absorb new).absorbed ++ rest = (a'.absorb new).absorbed ++ rest' →
    a = a' ∧ rest = rest'
  | .mk name arguments, .mk name' arguments', rest, rest', ha, ha', heq => by
    simp only [ AbiAnnotation.Addressable] at ha ha'
    have hcount := determines_count "annotation-arguments".toList
    simp only [ AbiAnnotation.absorb] at heq
    rw [arguments_appends, hcount.appends _ (new.text ..), arguments_appends arguments',
      hcount.appends _ (new.text "annotation".toList name')] at heq
    simp only [List.append_assoc] at heq
    obtain ⟨hname, hafter⟩ := (determines_text "annotation".toList).told ha.1 ha'.1 heq
    obtain ⟨hlength, hlast⟩ := hcount.told ha.2.1 ha'.2.1 hafter
    obtain ⟨hsame, hrest⟩ := arguments_told arguments arguments' rest rest' hlength ha.2.2 ha'.2.2 hlast
    exact ⟨congrArg₂ AbiAnnotation.mk hname hsame, hrest⟩

theorem arguments_told : ∀ (arguments arguments' : List (Text × AbiAnnotationValue))
    (rest rest' : List UInt8), arguments.length = arguments'.length → ArgumentsAddressable arguments →
    ArgumentsAddressable arguments' →
    (absorbArguments arguments new).absorbed ++ rest = (absorbArguments arguments' new).absorbed ++ rest' →
    arguments = arguments' ∧ rest = rest'
  | [], [], rest, rest', _, _, _, heq => by simpa [absorbArguments, new] using heq
  | [], _ :: _, _, _, hlength, _, _, _ => by cases hlength
  | _ :: _, [], _, _, hlength, _, _, _ => by cases hlength
  | (name, value) :: arguments, (name', value') :: arguments', rest, rest', hlength, ha, ha', heq => by
    simp only [ArgumentsAddressable] at ha ha'
    have hvalue := AbiAnnotationValue.absorb_appends_of_body value.body_appends
    have hvalue' := AbiAnnotationValue.absorb_appends_of_body value'.body_appends
    simp only [absorbArguments] at heq
    rw [arguments_appends, hvalue (new.text ..), arguments_appends arguments', hvalue' (new.text ..)] at heq
    simp only [List.append_assoc] at heq
    obtain ⟨hname, hafter⟩ := (determines_text "annotation-argument-name".toList).told ha.1 ha'.1 heq
    obtain ⟨hfirst, hlast⟩ := AbiAnnotationValue.told value value' _ _ ha.2.1 ha'.2.1 hafter
    obtain ⟨hothers, hrest⟩ :=
      arguments_told arguments arguments' rest rest' (Nat.succ.inj hlength) ha.2.2 ha'.2.2 hlast
    exact ⟨congrArg₂ List.cons (Prod.ext hname hfirst) hothers, hrest⟩

theorem AbiAnnotationValue.told : ∀ (value value' : AbiAnnotationValue) (rest rest' : List UInt8),
    value.Addressable → value'.Addressable →
    (value.absorb new).absorbed ++ rest = (value'.absorb new).absorbed ++ rest' →
    value = value' ∧ rest = rest'
  | AbiAnnotationValue.annotation note, value', rest, rest', ha, ha', heq => by
    obtain ⟨hkind, heq⟩ := AbiAnnotationValue.kind_told heq
    cases value' with
    | annotation note' =>
      simp only [AbiAnnotationValue.Addressable] at ha ha'
      obtain ⟨hsame, hrest⟩ := AbiAnnotation.told note note' rest rest' ha ha' heq
      exact ⟨congrArg AbiAnnotationValue.annotation hsame, hrest⟩
    | _ => cases hkind
  | .array values, value', rest, rest', ha, ha', heq => by
    obtain ⟨hkind, heq⟩ := AbiAnnotationValue.kind_told heq
    cases value' with
    | array values' =>
      have hcount := determines_count "annotation-array-values".toList
      simp only [AbiAnnotationValue.Addressable] at ha ha'
      simp only [AbiAnnotationValue.body] at heq
      rw [values_appends, values_appends values', List.append_assoc, List.append_assoc] at heq
      obtain ⟨hlength, hafter⟩ := hcount.told ha.1 ha'.1 heq
      obtain ⟨hsame, hrest⟩ := values_told values values' rest rest' hlength ha.2 ha'.2 hafter
      exact ⟨congrArg AbiAnnotationValue.array hsame, hrest⟩
    | _ => cases hkind
  | .int value₁, value', rest, rest', ha, ha', heq => by
    obtain ⟨hkind, heq⟩ := AbiAnnotationValue.kind_told heq
    cases value' with
    | int value₂ =>
      obtain ⟨hsame, hrest⟩ := (determines_le32 "annotation-value".toList).told trivial trivial heq
      exact ⟨congrArg (fun bits => AbiAnnotationValue.int bits.toInt32) hsame, hrest⟩
    | _ => cases hkind
  | .byte value₁, value', rest, rest', ha, ha', heq => by
    obtain ⟨hkind, heq⟩ := AbiAnnotationValue.kind_told heq
    cases value' with
    | byte value₂ =>
      obtain ⟨hsame, hrest⟩ := (determines_byte "annotation-value".toList).told trivial trivial heq
      exact ⟨congrArg (fun bits => AbiAnnotationValue.byte bits.toInt8) hsame, hrest⟩
    | _ => cases hkind
  | .short value₁, value', rest, rest', ha, ha', heq => by
    obtain ⟨hkind, heq⟩ := AbiAnnotationValue.kind_told heq
    cases value' with
    | short value₂ =>
      obtain ⟨hsame, hrest⟩ := (determines_le16 "annotation-value".toList).told trivial trivial heq
      exact ⟨congrArg (fun bits => AbiAnnotationValue.short bits.toInt16) hsame, hrest⟩
    | _ => cases hkind
  | .long value₁, value', rest, rest', ha, ha', heq => by
    obtain ⟨hkind, heq⟩ := AbiAnnotationValue.kind_told heq
    cases value' with
    | long value₂ =>
      obtain ⟨hsame, hrest⟩ := (determines_le64 "annotation-value".toList).told trivial trivial heq
      exact ⟨congrArg (fun bits => AbiAnnotationValue.long bits.toInt64) hsame, hrest⟩
    | _ => cases hkind
  | .floatBits bits, value', rest, rest', ha, ha', heq => by
    obtain ⟨hkind, heq⟩ := AbiAnnotationValue.kind_told heq
    cases value' with
    | floatBits bits' =>
      obtain ⟨hsame, hrest⟩ := (determines_le32 "annotation-value".toList).told trivial trivial heq
      exact ⟨congrArg AbiAnnotationValue.floatBits hsame, hrest⟩
    | _ => cases hkind
  | .doubleBits bits, value', rest, rest', ha, ha', heq => by
    obtain ⟨hkind, heq⟩ := AbiAnnotationValue.kind_told heq
    cases value' with
    | doubleBits bits' =>
      obtain ⟨hsame, hrest⟩ := (determines_le64 "annotation-value".toList).told trivial trivial heq
      exact ⟨congrArg AbiAnnotationValue.doubleBits hsame, hrest⟩
    | _ => cases hkind
  | .boolean value₁, value', rest, rest', ha, ha', heq => by
    obtain ⟨hkind, heq⟩ := AbiAnnotationValue.kind_told heq
    cases value' with
    | boolean value₂ =>
      obtain ⟨hsame, hrest⟩ := (determines_byte "annotation-value".toList).told trivial trivial heq
      exact ⟨congrArg AbiAnnotationValue.boolean (flag_injective hsame), hrest⟩
    | _ => cases hkind
  | .char unit, value', rest, rest', ha, ha', heq => by
    obtain ⟨hkind, heq⟩ := AbiAnnotationValue.kind_told heq
    cases value' with
    | char unit' =>
      obtain ⟨hsame, hrest⟩ := (determines_le16 "annotation-value".toList).told trivial trivial heq
      exact ⟨congrArg AbiAnnotationValue.char hsame, hrest⟩
    | _ => cases hkind
  | .string units, value', rest, rest', ha, ha', heq => by
    obtain ⟨hkind, heq⟩ := AbiAnnotationValue.kind_told heq
    cases value' with
    | string units' =>
      simp only [AbiAnnotationValue.Addressable] at ha ha'
      have hunits := determines_units "annotation-string-units".toList "annotation-string-unit".toList
      obtain ⟨hsame, hrest⟩ := hunits.told ha ha' heq
      exact ⟨congrArg AbiAnnotationValue.string hsame, hrest⟩
    | _ => cases hkind
  | .cls ty, value', rest, rest', ha, ha', heq => by
    obtain ⟨hkind, heq⟩ := AbiAnnotationValue.kind_told heq
    cases value' with
    | cls ty' =>
      simp only [AbiAnnotationValue.Addressable] at ha ha'
      obtain ⟨hsame, hrest⟩ := (determines_text "annotation-class".toList).told ha ha' heq
      exact ⟨congrArg AbiAnnotationValue.cls hsame, hrest⟩
    | _ => cases hkind
  | .enum ty entry, value', rest, rest', ha, ha', heq => by
    obtain ⟨hkind, heq⟩ := AbiAnnotationValue.kind_told heq
    cases value' with
    | enum ty' entry' =>
      have hentry := determines_text "annotation-enum-entry".toList
      simp only [AbiAnnotationValue.Addressable] at ha ha'
      simp only [AbiAnnotationValue.body] at heq
      rw [hentry.appends entry, hentry.appends entry', List.append_assoc, List.append_assoc] at heq
      obtain ⟨hty, hafter⟩ := (determines_text "annotation-enum-type".toList).told ha.1 ha'.1 heq
      obtain ⟨hsame, hrest⟩ := hentry.told ha.2 ha'.2 hafter
      exact ⟨congrArg₂ AbiAnnotationValue.enum hty hsame, hrest⟩
    | _ => cases hkind

theorem values_told : ∀ (values values' : List AbiAnnotationValue) (rest rest' : List UInt8),
    values.length = values'.length → ValuesAddressable values → ValuesAddressable values' →
    (absorbValues values new).absorbed ++ rest = (absorbValues values' new).absorbed ++ rest' →
    values = values' ∧ rest = rest'
  | [], [], rest, rest', _, _, _, heq => by simpa [absorbValues, new] using heq
  | [], _ :: _, _, _, hlength, _, _, _ => by cases hlength
  | _ :: _, [], _, _, hlength, _, _, _ => by cases hlength
  | value :: values, value' :: values', rest, rest', hlength, ha, ha', heq => by
    simp only [ValuesAddressable] at ha ha'
    simp only [absorbValues] at heq
    rw [values_appends, values_appends values', List.append_assoc, List.append_assoc] at heq
    obtain ⟨hfirst, hafter⟩ := AbiAnnotationValue.told value value' _ _ ha.1 ha'.1 heq
    obtain ⟨hothers, hrest⟩ := values_told values values' rest rest' (Nat.succ.inj hlength) ha.2 ha'.2 hafter
    exact ⟨congrArg₂ List.cons hfirst hothers, hrest⟩

end

theorem determines_annotation : Determines AbiAnnotation.Addressable AbiAnnotation.absorb id :=
  .of_told AbiAnnotation.absorb_appends AbiAnnotation.told

/-- A text as the fingerprint sees it: one that is there but empty is not there. -/
def seenText (part : Option Text) : Option Text := part.filter fun text => !text.isEmpty

theorem seenText_eq {part part' : Option Text} (h : part.getD [] = part'.getD []) :
    seenText part = seenText part' := by
  cases part with
  | none =>
    cases part' with
    | none => rfl
    | some text' =>
      obtain rfl : text' = [] := h.symm
      rfl
  | some text =>
    cases part' with
    | none =>
      obtain rfl : text = [] := h
      rfl
    | some text' =>
      obtain rfl : text = text' := h
      rfl

theorem getD_seenText (part : Option Text) : (seenText part).getD [] = part.getD [] := by
  cases part with
  | none => rfl
  | some text => cases text <;> rfl

theorem determines_absorbText (tag : Text) :
    Determines (fun part : Option Text => Fits (toUtf8 (part.getD []))) (absorbText tag) seenText :=
  ((determines_text tag).of_comp fun part : Option Text => part.getD []).map fun _ _ => seenText_eq

namespace AbiMember

def seen (member : AbiMember) : AbiMember := { member with signature := seenText member.signature }

structure Addressable (member : AbiMember) : Prop where
  name : Fits (toUtf8 member.name)
  descriptor : Fits (toUtf8 member.descriptor)
  signature : Fits (toUtf8 (member.signature.getD []))
  constant : ∀ constant ∈ member.constant, constant.Addressable

theorem absorb_seen (member : AbiMember) : member.seen.absorb = member.absorb := by
  funext hasher
  simp only [absorb, seen, absorbText, getD_seenText]

theorem determines : Determines Addressable absorb seen := by
  have hkind := ((determines_text "kind".toList).of_comp fun m : AbiMember => m.kind.tag).mono
    (Q := Addressable) fun m _ => by cases m.kind <;> decide
  have hname := ((determines_text "name".toList).of_comp name).mono (Q := Addressable) fun _ h => h.name
  have hdescriptor := ((determines_text "descriptor".toList).of_comp descriptor).mono (Q := Addressable)
    fun _ h => h.descriptor
  have haccess := ((determines_le16 "member-access".toList).of_comp access).mono (Q := Addressable)
    fun _ _ => trivial
  have hsignature := ((determines_absorbText "member-signature".toList).of_comp signature).mono
    (Q := Addressable) fun _ h => h.signature
  have hconstant := ((determines_absorbOption "has-constant".toList AbiConstant.determines).of_comp
    constant).mono (Q := Addressable) fun _ h => h.constant
  refine (((((hkind.comp hname).comp hdescriptor).comp haccess).comp hsignature).comp hconstant).map ?_
  intro m m' h
  simp only [Prod.mk.injEq, id_eq] at h
  obtain ⟨⟨⟨⟨⟨htag, hn⟩, hd⟩, ha⟩, hs⟩, hc⟩ := h
  have hk : m.kind = m'.kind := by
    cases hm : m.kind <;> cases hm' : m'.kind <;> rw [hm, hm'] at htag <;> first | rfl | cases htag
  simp only [seen, hk, hn, hd, ha, hs, hc]

end AbiMember

namespace AbiClass

def seen (cls : AbiClass) : AbiClass :=
  { cls with
    superName := seenText cls.superName
    signature := seenText cls.signature
    retention := seenText cls.retention
    members := cls.members.map AbiMember.seen }

structure Addressable (cls : AbiClass) : Prop where
  name : Fits (toUtf8 cls.name)
  superName : Fits (toUtf8 (cls.superName.getD []))
  interfaces : CacheKeyInputs.TextsFit cls.interfaces
  signature : Fits (toUtf8 (cls.signature.getD []))
  retention : Fits (toUtf8 (cls.retention.getD []))
  metadata : ∀ metadata ∈ cls.metadata, metadata.Addressable
  members : Fits cls.members ∧ ∀ member ∈ cls.members, member.Addressable

theorem absorb_seen (cls : AbiClass) : cls.seen.absorb = cls.absorb := by
  funext hasher
  simp only [absorb, seen, absorbText, getD_seenText, CacheKeyInputs.absorbAll, List.length_map,
    List.foldl_map, AbiMember.absorb_seen]

theorem determines : Determines Addressable absorb seen := by
  have hname := ((determines_text "class".toList).of_comp name).mono (Q := Addressable) fun _ h => h.name
  have haccess := ((determines_le16 "access".toList).of_comp access).mono (Q := Addressable) fun _ _ => trivial
  have hsuper := ((determines_absorbText "super".toList).of_comp superName).mono (Q := Addressable)
    fun _ h => h.superName
  have hinterfaces := ((determines_absorbAll "interfaces".toList (determines_text "interface".toList)).of_comp
    interfaces).mono (Q := Addressable) fun _ h => h.interfaces
  have hsignature := ((determines_absorbText "signature".toList).of_comp signature).mono (Q := Addressable)
    fun _ h => h.signature
  have hretention := ((determines_absorbText "retention".toList).of_comp retention).mono (Q := Addressable)
    fun _ h => h.retention
  have hmetadata := ((determines_absorbOption "has-meta".toList determines_annotation).of_comp metadata).mono
    (Q := Addressable) fun _ h => h.metadata
  have hmembers := ((determines_absorbAll_part "members".toList AbiMember.determines).of_comp members).mono
    (Q := Addressable) fun _ h => h.members
  refine (((((((hname.comp haccess).comp hsuper).comp hinterfaces).comp hsignature).comp hretention).comp
    hmetadata).comp hmembers).map ?_
  intro c c' h
  simp only [Prod.mk.injEq, id_eq] at h
  obtain ⟨⟨⟨⟨⟨⟨⟨hn, ha⟩, hs⟩, hi⟩, hg⟩, hr⟩, hm⟩, hb⟩ := h
  simp only [seen, hn, ha, hs, hi, hg, hr, hm, hb]

end AbiClass

section Fingerprint

variable {classes classes' : List AbiClass}

theorem ordered_perm (classes : List AbiClass) : (ordered classes).Perm classes :=
  List.perm_insertionSort _ classes

theorem ordered_sorted (classes : List AbiClass) : (ordered classes).Pairwise fun a b => a.name ≤ b.name := by
  have htotal : Std.Total fun a b : AbiClass => a.name ≤ b.name := ⟨fun a b => le_total a.name b.name⟩
  have htrans : IsTrans AbiClass fun a b => a.name ≤ b.name := ⟨fun _ _ _ => le_trans⟩
  exact List.pairwise_insertionSort _ classes

theorem absorbClasses_seen (classes : List AbiClass) (hasher : Hasher) :
    absorbClasses classes hasher = CacheKeyInputs.absorbAll "classes".toList
      ((ordered classes).map AbiClass.seen) AbiClass.absorb hasher := by
  simp only [absorbClasses, CacheKeyInputs.absorbAll, List.length_map, List.foldl_map, AbiClass.absorb_seen]

/-- Classes of distinct names come in one order only. -/
theorem ordered_seen_eq (hnames : (classes.map AbiClass.name).Nodup)
    (hperm : (classes.map AbiClass.seen).Perm (classes'.map AbiClass.seen)) :
    (ordered classes).map AbiClass.seen = (ordered classes').map AbiClass.seen := by
  have hname : ∀ c : AbiClass, c.seen.name = c.name := fun _ => rfl
  have hsorted : ∀ l : List AbiClass,
      ((ordered l).map AbiClass.seen).Pairwise fun a b => a.name ≤ b.name := by
    intro l
    rw [List.pairwise_map]
    exact ordered_sorted l
  have hseen : ((ordered classes).map AbiClass.seen).Perm ((ordered classes').map AbiClass.seen) :=
    (((ordered_perm classes).map _).trans hperm).trans ((ordered_perm classes').map _).symm
  have hdistinct : (((ordered classes).map AbiClass.seen).map AbiClass.name).Nodup := by
    rw [List.map_map]
    exact (((ordered_perm classes).map AbiClass.name).nodup_iff).mpr hnames
  refine hseen.eq_of_pairwise ?_ (hsorted classes) (hsorted classes')
  intro a b ha hb hab hba
  exact List.inj_on_of_nodup_map hdistinct ha (hseen.mem_iff.mpr hb) (le_antisymm hab hba)

def ClassesAddressable (classes : List AbiClass) : Prop :=
  Fits classes ∧ ∀ cls ∈ classes, cls.Addressable

/-- Two modules absorb the same bytes exactly when the fingerprint sees the same classes in both. -/
theorem absorbed_eq_iff (hnames : (classes.map AbiClass.name).Nodup)
    (ha : ClassesAddressable classes) (ha' : ClassesAddressable classes') :
    (absorbClasses classes new).absorbed = (absorbClasses classes' new).absorbed ↔
      (classes.map AbiClass.seen).Perm (classes'.map AbiClass.seen) := by
  constructor
  · intro heq
    have haddressable : ∀ {l : List AbiClass}, ClassesAddressable l →
        Fits (ordered l) ∧ ∀ cls ∈ ordered l, cls.Addressable := by
      intro l hl
      refine ⟨by rw [Fits, (ordered_perm l).length_eq]; exact hl.1, ?_⟩
      intro cls hcls
      exact hl.2 cls ((ordered_perm l).mem_iff.mp hcls)
    have hstream := determines_absorbAll_part "classes".toList AbiClass.determines
    have hsame : (ordered classes).map AbiClass.seen = (ordered classes').map AbiClass.seen :=
      (hstream.told (haddressable ha) (haddressable ha') (congrArg (· ++ []) heq)).1
    exact (((ordered_perm classes).map _).symm.trans (hsame ▸ .refl _)).trans ((ordered_perm classes').map _)
  · intro hperm
    rw [absorbClasses_seen, absorbClasses_seen, ordered_seen_eq hnames hperm]

/-- Two lists of classes absorb the same bytes exactly when one is a permutation of the other, if and only if
reading the present but empty texts as absent makes no permutations of lists that are none. -/
theorem fingerprint_distinguishes_iff (classes classes' : List AbiClass)
    (hnames : (classes.map AbiClass.name).Nodup) (_hnames' : (classes'.map AbiClass.name).Nodup)
    (ha : ClassesAddressable classes) (ha' : ClassesAddressable classes') :
    ((absorbClasses classes new).absorbed = (absorbClasses classes' new).absorbed ↔ classes.Perm classes') ↔
      ((classes.map AbiClass.seen).Perm (classes'.map AbiClass.seen) → classes.Perm classes') := by
  rw [absorbed_eq_iff hnames ha ha']
  constructor
  · exact fun h => h.mp
  · exact fun h => ⟨h, fun hperm => hperm.map _⟩

/-- A class without members, whose signature is absent. -/
def unsigned : AbiClass where
  name := "lib/Api".toList
  access := 0x21
  superName := some "java/lang/Object".toList
  interfaces := []
  signature := none
  retention := none
  metadata := none
  members := []

theorem unsigned_addressable : ClassesAddressable [unsigned] := by
  refine ⟨by simp [Fits], ?_⟩
  intro cls hcls
  obtain rfl := List.mem_singleton.mp hcls
  constructor
  case members => exact ⟨by decide, fun member hmember => absurd hmember List.not_mem_nil⟩
  case metadata =>
    intro metadata hmetadata
    cases hmetadata
  case interfaces => exact ⟨by decide, fun text htext => absurd htext List.not_mem_nil⟩
  all_goals decide +kernel

theorem fingerprint_distinguishes_unsigned :
    (absorbClasses [unsigned] new).absorbed = (absorbClasses [unsigned] new).absorbed ↔
      [unsigned].Perm [unsigned] :=
  (fingerprint_distinguishes_iff [unsigned] [unsigned] (by simp) (by simp) unsigned_addressable
    unsigned_addressable).mpr fun _ => .refl _

/-- An absent signature and an empty one are absorbed alike. -/
theorem fingerprint_confuses_empty :
    (absorbClasses [unsigned] new).absorbed =
        (absorbClasses [{ unsigned with signature := some [] }] new).absorbed ∧
      ¬ [unsigned].Perm [{ unsigned with signature := some [] }] := by
  constructor
  · rfl
  · intro hperm
    have hsame := List.perm_singleton.mp hperm
    have hsignature : unsigned.signature = some [] := congrArg AbiClass.signature (List.singleton_inj.mp hsame)
    cases hsignature

end Fingerprint

end Krusty.Build
