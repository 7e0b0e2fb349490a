import Mathlib.Data.List.Basic
import Krusty.Jvm.MethodNode.Pool
import Krusty.Jvm.StackMapTable

/-! Verification types and frames as the class writer holds them, by instruction index. -/
namespace Krusty.Jvm

inductive VerificationType where
  | top
  | integer
  | float
  | long
  | double
  | null
  | uninitializedThis
  /-- The `new` at this instruction index produced it, and no `<init>` has run on it yet. -/
  | uninitialized (index : ℕ)
  /-- An internal class name, or an array descriptor. -/
  | reference (name : String)
  deriving DecidableEq

/-- A frame as the class file carries it: a `long` or `double` is one local, the stack is bottom-first. -/
structure ComputedFrame where
  index : ℕ
  locals : List VerificationType
  stack : List VerificationType
  deriving DecidableEq

/-- A type with its class under its class-file name. -/
def VerificationType.spelled (spelling : String → String) : VerificationType → VerificationType
  | .reference name => .reference (spelling name)
  | value => value

def ComputedFrame.spelled (spelling : String → String) (frame : ComputedFrame) : ComputedFrame :=
  ⟨frame.index, frame.locals.map (·.spelled spelling), frame.stack.map (·.spelled spelling)⟩

end Krusty.Jvm

/-! Writing computed frames as a `StackMapTable`, and reading them back. -/
namespace Krusty.Jvm.StackMaps

open Bytes (u2Bytes)
open StackMapTable Transcode

section Encode

variable (spelling : String → String) (offsets : List ℕ)

/-- A type's bytes, and the pool with the class it names; `none` is an index out of range. -/
def writeType (value : VerificationType) (cp : ConstPool) : Option (List UInt8 × ConstPool) :=
  match value with
  | .top => some ([0], cp)
  | .integer => some ([1], cp)
  | .float => some ([2], cp)
  | .double => some ([3], cp)
  | .long => some ([4], cp)
  | .null => some ([5], cp)
  | .uninitializedThis => some ([6], cp)
  | .reference name =>
    let (index, cp) := cp.cls spelling name
    some (7 :: u2Bytes index, cp)
  | .uninitialized index => do
    let offset ← offsets[index]?
    return (8 :: u2Bytes (UInt16.ofNat offset), cp)

def writeTypes : List VerificationType → ConstPool → Option (List UInt8 × ConstPool)
  | [], cp => some ([], cp)
  | value :: values, cp => do
    let (bytes, cp) ← writeType spelling offsets value cp
    let (rest, cp) ← writeTypes values cp
    return (bytes ++ rest, cp)

/-- A frame's `offset_delta`: its offset, or its distance past the frame before. -/
def offsetDelta (previous : Option ℕ) (offset : ℕ) : UInt16 :=
  match previous with
  | none => UInt16.ofNat offset
  | some previous => UInt16.ofInt ((offset : ℤ) - previous - 1)

/-- One frame against the locals of the frame before it. -/
def encodeFrame (previousLocals : List VerificationType) (delta : UInt16) (frame : ComputedFrame)
    (cp : ConstPool) : Option (List UInt8 × ConstPool) :=
  let locals := frame.locals
  let stack := frame.stack
  let common := min locals.length previousLocals.length
  let agrees := locals.take common = previousLocals.take common
  let sameLocals := agrees ∧ locals.length = previousLocals.length
  let grown : ℤ := (locals.length : ℤ) - previousLocals.length
  if stack = [] ∧ sameLocals then
    some (if delta < 64 then [delta.toUInt8] else 251 :: u2Bytes delta, cp)
  else if stack = [] ∧ agrees ∧ 1 ≤ grown ∧ grown ≤ 3 then do
    let (types, cp) ← writeTypes spelling offsets (locals.drop previousLocals.length) cp
    return (UInt8.ofInt (251 + grown) :: (u2Bytes delta ++ types), cp)
  else if stack = [] ∧ agrees ∧ -3 ≤ grown ∧ grown ≤ -1 then
    some (UInt8.ofInt (251 + grown) :: u2Bytes delta, cp)
  else if stack.length = 1 ∧ sameLocals then do
    let (types, cp) ← writeTypes spelling offsets stack cp
    return ((if delta < 64 then [64 + delta.toUInt8] else 247 :: u2Bytes delta) ++ types, cp)
  else do
    let (localTypes, cp) ← writeTypes spelling offsets locals cp
    let (stackTypes, cp) ← writeTypes spelling offsets stack cp
    return (255 :: (u2Bytes delta ++ (u2Bytes (UInt16.ofNat locals.length) ++ (localTypes ++
      (u2Bytes (UInt16.ofNat stack.length) ++ stackTypes)))), cp)

def encodeFrames (previousLocals : List VerificationType) (previousOffset : Option ℕ) :
    List ComputedFrame → ConstPool → Option (List UInt8 × ConstPool)
  | [], cp => some ([], cp)
  | frame :: frames, cp => do
    let offset ← offsets[frame.index]?
    let (bytes, cp) ← encodeFrame spelling offsets previousLocals (offsetDelta previousOffset offset) frame cp
    let (rest, cp) ← encodeFrames frame.locals (some offset) frames cp
    return (bytes ++ rest, cp)

/-- The table of `frames` in a method entered with `entry`, whose instructions stand at `offsets`. -/
def encode (frames : List ComputedFrame) (entry : List VerificationType) (cp : ConstPool) :
    Option (List UInt8 × ConstPool) := do
  let (body, cp) ← encodeFrames spelling offsets entry none frames cp
  return (u2Bytes (UInt16.ofNat frames.length) ++ body, cp)

end Encode

section Decode

variable (cp : ConstPool) (offsets : List ℕ)

/-- What a type of the table names: a class of the pool, or the `new` at a byte offset. -/
def verificationType : TypeInfo → Option VerificationType
  | .top => some .top
  | .integer => some .integer
  | .float => some .float
  | .double => some .double
  | .long => some .long
  | .null => some .null
  | .uninitializedThis => some .uninitializedThis
  | .object index => (cp.className index).map .reference
  | .uninitialized offset => (offsets.idxOf? offset.toNat).map .uninitialized

/-- The frames a table means, each at the instruction its offset names. -/
def decodeTable (entry : List VerificationType) (table : List UInt8) : Option (List ComputedFrame) := do
  let frames ← StackMapTable.decode (verificationType cp offsets) entry table
  frames.mapM fun frame => do
    let index ← offsets.idxOf? frame.offset
    return ⟨index, frame.locals, frame.stack⟩

end Decode

/-- The frames stand at instructions of a body the class-file format admits: `offsets` are where its
instructions start and end, code is at most 65535 bytes, and a frame's types are counted by a `u2`. -/
structure FramesAt (offsets : List ℕ) (frames : List ComputedFrame) : Prop where
  increasing : offsets.Pairwise (· < ·)
  codeLength : ∀ offset ∈ offsets, offset ≤ 65535
  ascending : frames.Pairwise fun a b => a.index < b.index
  instruction : ∀ frame ∈ frames, frame.index + 1 < offsets.length
  created : ∀ frame ∈ frames, ∀ index, .uninitialized index ∈ frame.locals ++ frame.stack →
    index < offsets.length
  locals : ∀ frame ∈ frames, frame.locals.length ≤ 65535
  stack : ∀ frame ∈ frames, frame.stack.length ≤ 65535

section Written

variable {α β γ : Type} {take : List UInt8 → Option (α × List UInt8)}
  {name : ConstPool → α → Option β} {cp : ConstPool} {out : Option (List UInt8 × ConstPool)} {value : β}

/-- Bytes that read back, in front of anything and against the pool as it ends up, as `value`. -/
def Written (take : List UInt8 → Option (α × List UInt8)) (name : ConstPool → α → Option β)
    (cp : ConstPool) (out : Option (List UInt8 × ConstPool)) (value : β) : Prop :=
  ∃ bytes cp', out = some (bytes, cp') ∧ cp.Extends cp' ∧
    (cp.Sound → cp'.slotEntries.length < 65536 → cp'.Sound ∧
      ∃ item, (∀ rest, take (bytes ++ rest) = some (item, rest)) ∧
        ∀ last, cp'.Extends last → name last item = some value)

/-- Bytes that leave the pool alone. -/
theorem Written.plain {bytes : List UInt8} (item : α)
    (htake : ∀ rest, take (bytes ++ rest) = some (item, rest))
    (hname : ∀ last, name last item = some value) : Written take name cp (some (bytes, cp)) value :=
  ⟨bytes, cp, rfl, .refl, fun h _ => ⟨h, item, htake, fun last _ => hname last⟩⟩

theorem Written.map {α' β' : Type} {take' : List UInt8 → Option (α' × List UInt8)}
    {name' : ConstPool → α' → Option β'} {value' : β'} (f : List UInt8 → List UInt8)
    (h : Written take name cp out value)
    (hf : ∀ bytes item, (∀ rest, take (bytes ++ rest) = some (item, rest)) →
      ∃ item', (∀ rest, take' (f bytes ++ rest) = some (item', rest)) ∧
        ∀ last, name last item = some value → name' last item' = some value') :
    Written take' name' cp (out.bind fun written => some (f written.1, written.2)) value' := by
  obtain ⟨bytes, cp', rfl, hext, hread⟩ := h
  refine ⟨f bytes, cp', rfl, hext, ?_⟩
  intro hsound hslots
  obtain ⟨hsound', item, htake, hname⟩ := hread hsound hslots
  obtain ⟨item', htake', hname'⟩ := hf bytes item htake
  exact ⟨hsound', item', htake', fun last hlast => hname' last (hname last hlast)⟩

/-- Two writes in a row, the second against the pool the first leaves. -/
theorem Written.seq {α₁ α₂ β₁ β₂ : Type} {take₁ : List UInt8 → Option (α₁ × List UInt8)}
    {take₂ : List UInt8 → Option (α₂ × List UInt8)} {name₁ : ConstPool → α₁ → Option β₁}
    {name₂ : ConstPool → α₂ → Option β₂} {value₁ : β₁} {value₂ : β₂}
    {next : ConstPool → Option (List UInt8 × ConstPool)} (join : List UInt8 → List UInt8 → List UInt8)
    (h₁ : Written take₁ name₁ cp out value₁) (h₂ : ∀ cp, Written take₂ name₂ cp (next cp) value₂)
    (hjoin : ∀ bytes₁ bytes₂ item₁ item₂, (∀ rest, take₁ (bytes₁ ++ rest) = some (item₁, rest)) →
      (∀ rest, take₂ (bytes₂ ++ rest) = some (item₂, rest)) →
      ∃ item, (∀ rest, take (join bytes₁ bytes₂ ++ rest) = some (item, rest)) ∧
        ∀ last, name₁ last item₁ = some value₁ → name₂ last item₂ = some value₂ →
          name last item = some value) :
    Written take name cp (out.bind fun first => (next first.2).bind fun second =>
      some (join first.1 second.1, second.2)) value := by
  obtain ⟨bytes₁, cp₁, rfl, hext₁, hread₁⟩ := h₁
  obtain ⟨bytes₂, cp₂, hnext, hext₂, hread₂⟩ := h₂ cp₁
  refine ⟨join bytes₁ bytes₂, cp₂, ?_, hext₁.trans hext₂, ?_⟩
  · simp [hnext]
  intro hsound hslots
  obtain ⟨hsound₁, item₁, htake₁, hname₁⟩ := hread₁ hsound (hext₂.slots.trans_lt hslots)
  obtain ⟨hsound₂, item₂, htake₂, hname₂⟩ := hread₂ hsound₁ hslots
  obtain ⟨item, htake, hname⟩ := hjoin bytes₁ bytes₂ item₁ item₂ htake₁ htake₂
  refine ⟨hsound₂, item, htake, ?_⟩
  intro last hlast
  exact hname last (hname₁ last (hext₂.trans hlast)) (hname₂ last hlast)

end Written

section Types

variable (spelling : String → String) {offsets : List ℕ}

/-- The instruction an offset names is the one that stands there. -/
theorem idxOf?_offset (h : offsets.Pairwise (· < ·)) {index offset : ℕ}
    (hi : offsets[index]? = some offset) : offsets.idxOf? offset = some index := by
  obtain ⟨hlt, rfl⟩ := List.getElem?_eq_some_iff.mp hi
  have hnodup : offsets.Nodup := h.imp (fun hab => hab.ne)
  rw [List.idxOf?_eq_some_iff]
  refine ⟨hlt, rfl, ?_⟩
  intro j hj heq
  exact absurd ((hnodup.getElem_inj_iff).mp heq) hj.ne

theorem written_type (hoff : offsets.Pairwise (· < ·)) (hcode : ∀ offset ∈ offsets, offset ≤ 65535)
    (value : VerificationType) (hnew : ∀ index, value = .uninitialized index → index < offsets.length)
    (cp : ConstPool) :
    Written takeType (verificationType · offsets) cp (writeType spelling offsets value cp)
      (value.spelled spelling) := by
  cases value with
  | reference name =>
    obtain ⟨hext, hcls⟩ := cp.cls_spec spelling name
    refine ⟨7 :: u2Bytes (cp.cls spelling name).1, (cp.cls spelling name).2, rfl, hext, ?_⟩
    intro hsound hslots
    obtain ⟨hsound', hname⟩ := hcls hsound hslots
    refine ⟨hsound', .object (cp.cls spelling name).1, ?_, ?_⟩
    · intro rest
      simp [takeType]
    · intro last hlast
      simp [verificationType, hlast.className hname, VerificationType.spelled]
  | uninitialized index =>
    obtain ⟨offset, hi⟩ : ∃ offset, offsets[index]? = some offset :=
      ⟨_, List.getElem?_eq_getElem (hnew index rfl)⟩
    have hle : (UInt16.ofNat offset).toNat = offset := by
      have := hcode _ (List.mem_of_getElem? hi)
      rw [UInt16.toNat_ofNat']
      omega
    simp only [writeType, hi]
    apply Written.plain (.uninitialized (UInt16.ofNat offset))
    · intro rest
      simp [takeType]
    · intro last
      simp [verificationType, hle, idxOf?_offset hoff hi, VerificationType.spelled]
  | _ => exact Written.plain _ (fun _ => rfl) (fun _ => rfl)

theorem written_types (hoff : offsets.Pairwise (· < ·)) (hcode : ∀ offset ∈ offsets, offset ≤ 65535)
    (values : List VerificationType)
    (hnew : ∀ index, .uninitialized index ∈ values → index < offsets.length) (cp : ConstPool) :
    Written (takeMany takeType values.length) (fun last types => types.mapM (verificationType last offsets))
      cp (writeTypes spelling offsets values cp) (values.map (·.spelled spelling)) := by
  induction values generalizing cp with
  | nil => exact Written.plain _ (fun _ => rfl) (fun _ => rfl)
  | cons value values ih =>
    have hvalue := written_type spelling hoff hcode value (fun index h => hnew index (by simp [h])) cp
    have hvalues := ih fun index h => hnew index (by simp [h])
    refine hvalue.seq (· ++ ·) hvalues ?_
    intro bytes₁ bytes₂ item₁ item₂ htake₁ htake₂
    refine ⟨item₁ :: item₂, ?_, ?_⟩
    · intro rest
      rw [List.append_assoc]
      exact takeMany_cons (htake₁ _) (htake₂ rest)
    · intro last h₁ h₂
      simp [List.mapM_cons, h₁, h₂]

end Types

section Frames

variable (spelling : String → String) {offsets : List ℕ}

theorem eq_of_agrees {locals previous : List VerificationType}
    (h : locals.take (min locals.length previous.length) =
      previous.take (min locals.length previous.length)) :
    (previous.length ≤ locals.length → locals = previous ++ locals.drop previous.length) ∧
      (locals.length ≤ previous.length → locals = previous.take locals.length) := by
  constructor
  · intro hle
    rw [min_eq_right hle, List.take_length] at h
    nth_rewrite 1 [← List.take_append_drop previous.length locals]
    rw [h]
  · intro hle
    rw [min_eq_left hle, List.take_length] at h
    exact h

theorem toNat_ofInt8 {z : ℤ} (h : 0 ≤ z) (h' : z < 256) : (UInt8.ofInt z).toNat = z.toNat := by
  rw [UInt8.ofInt, UInt8.toNat_ofNat']
  omega

theorem takeEntry_sameDelta (delta : UInt16) (rest : List UInt8) :
    takeEntry ((if delta < 64 then [delta.toUInt8] else 251 :: u2Bytes delta) ++ rest) =
      some (.same delta.toNat, rest) := by
  split_ifs with hd
  · have hlt : delta.toNat < 64 := hd
    have hkind : delta.toUInt8.toNat = delta.toNat := by
      rw [UInt16.toNat_toUInt8]
      omega
    rw [← hkind]
    exact takeEntry_same (by omega)
  · exact takeEntry_sameExtended delta

theorem takeEntry_sameLocals1Delta (delta : UInt16) {bytes rest : List UInt8} {stack : TypeInfo}
    (hs : takeType bytes = some (stack, rest)) :
    takeEntry ((if delta < 64 then [64 + delta.toUInt8] else 247 :: u2Bytes delta) ++ bytes) =
      some (.sameLocals1StackItem delta.toNat stack, rest) := by
  split_ifs with hd
  · have hlt : delta.toNat < 64 := hd
    have hkind : (64 + delta.toUInt8).toNat = 64 + delta.toNat := by
      rw [UInt8.toNat_add, UInt16.toNat_toUInt8]
      simp only [UInt8.reduceToNat]
      omega
    rw [List.singleton_append, takeEntry_sameLocals1 (by omega) (by omega) hs, hkind,
      Nat.add_sub_cancel_left]
  · exact takeEntry_sameLocals1Extended delta hs

/-- An entry stands for a frame written at `delta` after a frame with locals `previous`. -/
structure Stands (previous : List VerificationType) (delta : UInt16) (frame : ComputedFrame)
    (entry : Entry VerificationType) : Prop where
  delta : entry.delta = delta.toNat
  locals : entry.locals (previous.map (·.spelled spelling)) = some (frame.locals.map (·.spelled spelling))
  stack : entry.stack = frame.stack.map (·.spelled spelling)

/-- A frame is written as an entry that stands for it after the frame before. -/
theorem written_frame (hoff : offsets.Pairwise (· < ·)) (hcode : ∀ offset ∈ offsets, offset ≤ 65535)
    (frame : ComputedFrame)
    (hnew : ∀ index, .uninitialized index ∈ frame.locals ++ frame.stack → index < offsets.length)
    (hlocals : frame.locals.length ≤ 65535) (hstack : frame.stack.length ≤ 65535)
    (previous : List VerificationType) (delta : UInt16) :
    ∃ entry : Entry VerificationType, Stands spelling previous delta frame entry ∧
      ∀ cp, Written takeEntry (fun last entry => entry.mapM (verificationType last offsets)) cp
        (encodeFrame spelling offsets previous delta frame cp) entry := by
  obtain ⟨index, locals, stack⟩ := frame
  simp only at hnew hlocals hstack ⊢
  have hnewStack : ∀ index, .uninitialized index ∈ stack → index < offsets.length :=
    fun index h => hnew index (List.mem_append_right _ h)
  have hnewLocals : ∀ index, .uninitialized index ∈ locals → index < offsets.length :=
    fun index h => hnew index (List.mem_append_left _ h)
  unfold encodeFrame
  simp only
  split
  case isTrue hsame =>
    obtain ⟨rfl, hagrees, hlen⟩ := hsame
    have hl := (eq_of_agrees hagrees).2 hlen.le
    rw [hlen, List.take_length] at hl
    subst hl
    refine ⟨.same delta.toNat, ⟨rfl, rfl, rfl⟩, ?_⟩
    intro cp
    exact Written.plain _ (takeEntry_sameDelta delta) (fun _ => rfl)
  split
  case isTrue happend =>
    obtain ⟨rfl, hagrees, hpos, hmax⟩ := happend
    have hl := (eq_of_agrees hagrees).1 (by omega)
    have hkind : (UInt8.ofInt (251 + ((locals.length : ℤ) - previous.length))).toNat =
        251 + (locals.length - previous.length) := by
      rw [toNat_ofInt8 (by omega) (by omega)]
      omega
    refine ⟨.append delta.toNat ((locals.drop previous.length).map (·.spelled spelling)),
      ⟨rfl, ?_, rfl⟩, ?_⟩
    · simp only [Entry.locals]
      rw [← List.map_append, ← hl]
    intro cp
    have htypes := written_types spelling hoff hcode (locals.drop previous.length)
      (fun index h => hnewLocals index (List.mem_of_mem_drop h)) cp
    refine htypes.map (fun types => UInt8.ofInt (251 + ((locals.length : ℤ) - previous.length)) ::
      (u2Bytes delta ++ types)) ?_
    intro bytes types htake
    refine ⟨.append delta.toNat types, ?_, ?_⟩
    · intro rest
      have htypes := htake rest
      rw [List.length_drop] at htypes
      rw [List.cons_append, List.append_assoc]
      apply takeEntry_append delta (by omega) (by omega)
      rw [hkind, Nat.add_sub_cancel_left, htypes]
    · intro last hname
      simp [Entry.mapM, hname]
  split
  case isTrue hchop =>
    obtain ⟨rfl, hagrees, hmin, hneg⟩ := hchop
    have hl := (eq_of_agrees hagrees).2 (by omega)
    have hkind : (UInt8.ofInt (251 + ((locals.length : ℤ) - previous.length))).toNat =
        251 - (previous.length - locals.length) := by
      rw [toNat_ofInt8 (by omega) (by omega)]
      omega
    refine ⟨.chop (previous.length - locals.length) delta.toNat, ⟨rfl, ?_, rfl⟩, ?_⟩
    · simp only [Entry.locals, List.length_map]
      rw [if_pos (by omega), Nat.sub_sub_self (by omega), ← List.map_take, ← hl]
    intro cp
    apply Written.plain (.chop (previous.length - locals.length) delta.toNat)
    · intro rest
      rw [List.cons_append, takeEntry_chop delta (by omega) (by omega), hkind, Nat.sub_sub_self (by omega)]
    · intro last
      rfl
  split
  case isTrue hone =>
    obtain ⟨hlen1, hagrees, hlen⟩ := hone
    obtain ⟨value, rfl⟩ := List.length_eq_one_iff.mp hlen1
    have hl := (eq_of_agrees hagrees).2 hlen.le
    rw [hlen, List.take_length] at hl
    subst hl
    refine ⟨.sameLocals1StackItem delta.toNat (value.spelled spelling), ⟨rfl, rfl, rfl⟩, ?_⟩
    intro cp
    refine (written_types spelling hoff hcode [value] hnewStack cp).map (fun types =>
      (if delta < 64 then [64 + delta.toUInt8] else 247 :: u2Bytes delta) ++ types) ?_
    intro bytes types htake
    obtain ⟨type, rfl, hvalue⟩ := takeMany_one htake
    refine ⟨.sameLocals1StackItem delta.toNat type, ?_, ?_⟩
    · intro rest
      rw [List.append_assoc]
      exact takeEntry_sameLocals1Delta delta (hvalue rest)
    · intro last hname
      have hone : verificationType last offsets type = some (value.spelled spelling) := by
        simpa [Option.bind_eq_some_iff] using hname
      simp [Entry.mapM, hone]
  case isFalse =>
    refine ⟨.full delta.toNat (locals.map (·.spelled spelling)) (stack.map (·.spelled spelling)),
      ⟨rfl, rfl, rfl⟩, ?_⟩
    intro cp
    have hnat : ∀ n ≤ 65535, (UInt16.ofNat n).toNat = n := by
      intro n hn
      rw [UInt16.toNat_ofNat']
      omega
    refine (written_types spelling hoff hcode locals hnewLocals cp).seq (fun localTypes stackTypes =>
      255 :: (u2Bytes delta ++ (u2Bytes (UInt16.ofNat locals.length) ++ (localTypes ++
        (u2Bytes (UInt16.ofNat stack.length) ++ stackTypes)))))
      (written_types spelling hoff hcode stack hnewStack) ?_
    intro bytes₁ bytes₂ types₁ types₂ htake₁ htake₂
    refine ⟨.full delta.toNat types₁ types₂, ?_, ?_⟩
    · intro rest
      simp only [List.cons_append, List.append_assoc]
      apply takeEntry_full delta
      · rw [hnat _ hlocals]
        exact htake₁ _
      · rw [hnat _ hstack]
        exact htake₂ rest
    · intro last h₁ h₂
      simp [Entry.mapM, h₁, h₂]

theorem offsetDelta_offset {τ : Type} {entry : Entry τ} {previous : Option ℕ} {offset : ℕ}
    (hlt : ∀ p, previous = some p → p < offset) (hle : offset ≤ 65535)
    (hd : entry.delta = (offsetDelta previous offset).toNat) : entry.offset previous = offset := by
  cases previous with
  | none =>
    simp only [Entry.offset, hd, offsetDelta, UInt16.toNat_ofNat']
    omega
  | some p =>
    have hp := hlt p rfl
    have hz : (UInt16.ofInt ((offset : ℤ) - p - 1)).toNat = offset - p - 1 := by
      rw [UInt16.ofInt, UInt16.toNat_ofNat']
      omega
    simp only [Entry.offset, hd, offsetDelta, hz]
    omega

/-- The frames as the table has them, by byte offset. -/
def framesAt (offsets : List ℕ) (frames : List ComputedFrame) : List (StackMapTable.Frame VerificationType) :=
  frames.map fun frame =>
    ⟨offsets.getD frame.index 0, frame.locals.map (·.spelled spelling), frame.stack.map (·.spelled spelling)⟩

theorem getD_lt (h : offsets.Pairwise (· < ·)) {i j : ℕ} (hij : i < j) (hj : j < offsets.length) :
    offsets.getD i 0 < offsets.getD j 0 := by
  rw [List.getD_eq_getElem?_getD, List.getD_eq_getElem?_getD,
    List.getElem?_eq_getElem (hij.trans hj), List.getElem?_eq_getElem hj]
  exact List.pairwise_iff_getElem.mp h i j (hij.trans hj) hj hij

variable {rest : List ComputedFrame}

theorem FramesAt.tail {frame : ComputedFrame}
    (h : FramesAt offsets (frame :: rest)) : FramesAt offsets rest where
  increasing := h.increasing
  codeLength := h.codeLength
  ascending := h.ascending.of_cons
  instruction := fun f hf => h.instruction f (by simp [hf])
  created := fun f hf => h.created f (by simp [hf])
  locals := fun f hf => h.locals f (by simp [hf])
  stack := fun f hf => h.stack f (by simp [hf])

/-- Entries for a run of frames stand for those frames, read on from the frame before the run. -/
theorem written_frames (h : FramesAt offsets rest) (previous : List VerificationType) (at? : Option ℕ)
    (hat : ∀ p, at? = some p → ∀ frame ∈ rest, p < offsets.getD frame.index 0) :
    ∃ entries : List (Entry VerificationType),
      frames (previous.map (·.spelled spelling)) at? entries = some (framesAt spelling offsets rest) ∧
      ∀ cp, Written (takeMany takeEntry rest.length)
        (fun last entries => entries.mapM (Entry.mapM (verificationType last offsets))) cp
        (encodeFrames spelling offsets previous at? rest cp) entries := by
  induction rest generalizing previous at? with
  | nil =>
    refine ⟨[], rfl, ?_⟩
    intro cp
    exact Written.plain _ (fun _ => rfl) (fun _ => rfl)
  | cons frame rest ih =>
    have hlt : frame.index < offsets.length := by
      have := h.instruction frame (by simp)
      omega
    obtain ⟨offset, hi⟩ : ∃ offset, offsets[frame.index]? = some offset :=
      ⟨_, List.getElem?_eq_getElem hlt⟩
    have hget : offsets.getD frame.index 0 = offset := by
      rw [List.getD_eq_getElem?_getD, hi, Option.getD_some]
    obtain ⟨entry, hstands, hwritten⟩ := written_frame spelling h.increasing h.codeLength frame
      (h.created frame (by simp)) (h.locals frame (by simp)) (h.stack frame (by simp)) previous
      (offsetDelta at? offset)
    have hoffset : entry.offset at? = offset :=
      offsetDelta_offset (fun p hp => hget ▸ hat p hp frame (by simp))
        (h.codeLength _ (List.mem_of_getElem? hi)) hstands.delta
    obtain ⟨entries, hframes, hrest⟩ := ih h.tail frame.locals (some offset) (by
      intro p hp f hf
      cases hp
      have hidx := List.rel_of_pairwise_cons h.ascending hf
      have hbound := h.tail.instruction f hf
      rw [← hget]
      exact getD_lt h.increasing hidx (by omega))
    refine ⟨entry :: entries, ?_, ?_⟩
    · simp [frames, hstands.locals, hstands.stack, hoffset, hframes, framesAt, hi]
    intro cp
    simp only [encodeFrames, hi]
    refine (hwritten cp).seq (· ++ ·) hrest ?_
    intro bytes₁ bytes₂ item₁ item₂ htake₁ htake₂
    refine ⟨item₁ :: item₂, ?_, ?_⟩
    · intro tail
      rw [List.append_assoc]
      exact takeMany_cons (htake₁ _) (htake₂ tail)
    · intro last h₁ h₂
      simp [List.mapM_cons, h₁, h₂]

/-- Strictly increasing numbers below `n` are at most `n` many. -/
theorem length_le_of_increasing {xs : List ℕ} {n : ℕ} (h : xs.Pairwise (· < ·)) (hlt : ∀ x ∈ xs, x < n) :
    xs.length ≤ n := by
  have hnodup : xs.Nodup := h.imp (fun hab => hab.ne)
  have hsub : xs ⊆ List.range n := fun x hx => List.mem_range.mpr (hlt x hx)
  have hle := (List.subperm_of_subset hnodup hsub).length_le
  rwa [List.length_range] at hle

theorem FramesAt.count (h : FramesAt offsets rest) : rest.length ≤ 65535 := by
  have hoff : offsets.length ≤ 65536 :=
    length_le_of_increasing h.increasing fun offset ho => by
      have := h.codeLength offset ho
      omega
  have hindices : (rest.map (·.index)).length ≤ 65535 := by
    apply length_le_of_increasing (List.pairwise_map.mpr h.ascending)
    intro index hindex
    obtain ⟨frame, hframe, rfl⟩ := List.mem_map.mp hindex
    have := h.instruction frame hframe
    omega
  rwa [List.length_map] at hindices

theorem parse_table {body : List UInt8} {entries : List (Entry TypeInfo)} {n : ℕ} (hn : n ≤ 65535)
    (h : ∀ rest, takeMany takeEntry n (body ++ rest) = some (entries, rest)) :
    parse (u2Bytes (UInt16.ofNat n) ++ body) = some entries := by
  have hcount : (UInt16.ofNat n).toNat = n := by
    rw [UInt16.toNat_ofNat']
    omega
  have hall := h []
  rw [List.append_nil] at hall
  simp [parse, hcount, hall]

theorem mapM_framesAt (h : FramesAt offsets rest) : ((framesAt spelling offsets rest).mapM fun frame => do
      let index ← offsets.idxOf? frame.offset
      return (⟨index, frame.locals, frame.stack⟩ : ComputedFrame)) =
      some (rest.map (·.spelled spelling)) := by
  induction rest with
  | nil => rfl
  | cons frame rest ih =>
    have hlt : frame.index < offsets.length := by
      have := h.instruction frame (by simp)
      omega
    have hidx : offsets.idxOf? (offsets.getD frame.index 0) = some frame.index := by
      apply idxOf?_offset h.increasing
      rw [List.getD_eq_getElem?_getD, List.getElem?_eq_getElem hlt, Option.getD_some]
    have htail := ih h.tail
    unfold framesAt at htail ⊢
    simp only [List.map_cons, List.mapM_cons, hidx, htail]
    rfl

/-- The class names of a list of types are names a class file may carry. -/
def Spelled (values : List VerificationType) : Prop :=
  ∀ name, .reference name ∈ values → spelling name = name

theorem map_spelled {values : List VerificationType} (h : Spelled spelling values) :
    values.map (·.spelled spelling) = values := by
  nth_rewrite 2 [← List.map_id values]
  apply List.map_congr_left
  intro value hvalue
  cases value with
  | reference name => rw [VerificationType.spelled, h name hvalue, id]
  | _ => rfl

theorem map_frame_spelled (h : ∀ frame ∈ rest, Spelled spelling frame.locals ∧ Spelled spelling frame.stack) :
    rest.map (·.spelled spelling) = rest := by
  nth_rewrite 2 [← List.map_id rest]
  apply List.map_congr_left
  intro frame hframe
  obtain ⟨hlocals, hstack⟩ := h frame hframe
  rw [ComputedFrame.spelled, map_spelled spelling hlocals, map_spelled spelling hstack, id]

/-- The table reads back as the frames it was written from, each class under its class-file name, and
as exactly those frames when they name classes so. -/
theorem decodeTable_encode (offsets : List ℕ) (frames : List ComputedFrame)
    (entry : List VerificationType) (cp : ConstPool) (h : FramesAt offsets frames) (hcp : cp.Sound) :
    ∃ table cp', encode spelling offsets frames entry cp = some (table, cp') ∧
      (cp'.slotEntries.length < 65536 →
        decodeTable cp' offsets (entry.map (·.spelled spelling)) table =
            some (frames.map (·.spelled spelling)) ∧
          (Spelled spelling entry →
            (∀ frame ∈ frames, Spelled spelling frame.locals ∧ Spelled spelling frame.stack) →
            decodeTable cp' offsets entry table = some frames)) := by
  obtain ⟨entries, hframes, hwritten⟩ := written_frames spelling h entry none (by simp)
  obtain ⟨body, cp', hbody, -, hread⟩ := hwritten cp
  refine ⟨u2Bytes (UInt16.ofNat frames.length) ++ body, cp', ?_, ?_⟩
  · simp [encode, hbody]
  intro hslots
  obtain ⟨-, infos, htake, hname⟩ := hread hcp hslots
  have hdecode : decodeTable cp' offsets (entry.map (·.spelled spelling))
      (u2Bytes (UInt16.ofNat frames.length) ++ body) = some (frames.map (·.spelled spelling)) := by
    simp only [decodeTable, StackMapTable.decode, parse_table h.count htake, Option.bind_eq_bind,
      Option.bind_some, hname cp' .refl, hframes]
    exact mapM_framesAt spelling h
  refine ⟨hdecode, ?_⟩
  intro hentry hnames
  rwa [map_spelled spelling hentry, map_frame_spelled spelling hnames] at hdecode

/-- The spelling of one built-in (`classfile_internal_name` maps the others alike). -/
def anySpelling (name : String) : String := if name = "kotlin/Any" then "java/lang/Object" else name

theorem decodeTable_encode_sample :
    ∃ table cp', encode anySpelling [0, 3, 70, 71, 200]
        [⟨1, [.long, .uninitialized 0, .top], []⟩, ⟨2, [.long], []⟩, ⟨3, [.long], [.reference "p/A"]⟩]
        [.long] .empty = some (table, cp') ∧
      decodeTable cp' [0, 3, 70, 71, 200] [.long] table =
        some [⟨1, [.long, .uninitialized 0, .top], []⟩, ⟨2, [.long], []⟩,
          ⟨3, [.long], [.reference "p/A"]⟩] := by
  obtain ⟨table, cp', hencode, hread⟩ := decodeTable_encode anySpelling [0, 3, 70, 71, 200]
    [⟨1, [.long, .uninitialized 0, .top], []⟩, ⟨2, [.long], []⟩, ⟨3, [.long], [.reference "p/A"]⟩]
    [.long] .empty
    ⟨by decide, by decide, by decide, by decide, by simp, by decide, by decide⟩ ConstPool.sound_empty
  have hslots : cp'.slotEntries.length < 65536 := by
    have hcp : (encode anySpelling [0, 3, 70, 71, 200]
        [⟨1, [.long, .uninitialized 0, .top], []⟩, ⟨2, [.long], []⟩, ⟨3, [.long], [.reference "p/A"]⟩]
        [.long] .empty).map (·.2.slotEntries.length) = some 2 := by decide
    rw [hencode] at hcp
    have hlen : cp'.slotEntries.length = 2 := by simpa using hcp
    omega
  exact ⟨table, cp', hencode, (hread hslots).2 (by simp [Spelled]) (by simp [Spelled, anySpelling])⟩

/-- A built-in under its Kotlin name comes back under its JVM name. -/
theorem decodeTable_encode_kotlin_any :
    ((encode anySpelling [0, 1, 2] [⟨1, [.reference "kotlin/Any"], []⟩] [] .empty).bind
        fun written => decodeTable written.2 [0, 1, 2] [] written.1) ≠
      some [⟨1, [.reference "kotlin/Any"], []⟩] := by
  decide

end Frames

end Krusty.Jvm.StackMaps
