import Krusty.Jvm.MethodNode.Read
import Krusty.Jvm.MethodNode.Layout

/-! One instruction at a time: what the assembler encodes, the reader decodes back. -/
namespace Krusty.Jvm
open Bytes Results

/-- An entry a body asks its constant pool for. -/
inductive Request where
  | cls (name : String)
  | field (owner name desc : String)
  | method (owner name desc : String) (interface : Bool)
  | constant (constant : Constant)
  | invokeDynamic (name desc : String) (bootstrap : Handle) (arguments : List Constant)

def ConstantSink.answer {σ : Type} (sink : ConstantSink σ) (s : σ) : Request → UInt16 × σ
  | .cls name => sink.cls s name
  | .field owner name desc => sink.field s owner name desc
  | .method owner name desc interface => sink.method s owner name desc interface
  | .constant constant => sink.constant s constant
  | .invokeDynamic name desc bootstrap arguments =>
    sink.invokeDynamic s name desc bootstrap arguments

/-- The index of each request, asked for in order. -/
def ConstantSink.answers {σ : Type} (sink : ConstantSink σ) :
    List Request → σ → List (Request × UInt16)
  | [], _ => []
  | r :: rs, s => (r, (sink.answer s r).1) :: sink.answers rs (sink.answer s r).2

/-- The entry at `index` reads back as what was asked for. -/
def Request.Resolved (pool : ConstantPoolView) (index : UInt16) : Request → Prop
  | cls name => ∀ pos, SourcePool.cls ⟨pool, pos⟩ index = .ok name
  | field owner name desc => ∀ pos, SourcePool.field ⟨pool, pos⟩ index = .ok (owner, name, desc)
  | method owner name desc interface =>
    ∀ pos, SourcePool.method ⟨pool, pos⟩ index = .ok (owner, name, desc, interface)
  | constant c => ∀ pos, SourcePool.constant ⟨pool, pos⟩ index = .ok c
  | invokeDynamic name desc bootstrap arguments =>
    ∀ pos, SourcePool.invokeDynamic ⟨pool, pos⟩ index =
      .ok (Insn.invokeDynamic name desc bootstrap arguments : Insn ℤ)

def Insn.request {L : Type} : Insn L → Option Request
  | .type _ c => some (.cls c)
  | .field _ owner name desc => some (.field owner name desc)
  | .method _ owner name desc interface => some (.method owner name desc interface)
  | .invokeDynamic name desc bootstrap arguments =>
    some (.invokeDynamic name desc bootstrap arguments)
  | .ldc c => some (.constant c)
  | .multiANewArray desc _ => some (.cls desc)
  | _ => none

/-- The bytes at `pos` are one instruction of `len` bytes, and it reads as `insn`. -/
structure Decodes (code : List UInt8) (pool : ConstantPoolView) (pos len : ℕ) (insn : Insn ℤ) :
    Prop where
  length : instructionLen code pos = some len
  notMarker : u1 code pos ≠ 0xfe
  decoded : decode code pos ⟨pool, pos⟩ id = .ok insn

/-- What an encoding is of: a jump or a switch keeps its instruction's labels, and anything
else has none. -/
def Encoded.Encodes (insn : Insn LabelId) : Encoded → Prop
  | fixed bytes => insn.jumpTargets = [] ∧ bytes ≠ []
  | jump op target _ => insn = .jump op target ∧ isJumpOpcode op
  | tableSwitch low high default labels => insn = .tableSwitch low high default labels ∧
    high.toInt - low.toInt + 1 = labels.length ∧ labels ≠ []
  | lookupSwitch default keys labels => insn = .lookupSwitch default keys labels ∧
    keys.length = labels.length

/-- The bytes of an encoding without labels decode to its instruction wherever they are put. -/
def Encoded.ReadsBack (pool : ConstantPoolView) (insn : Insn LabelId) : Encoded → Prop
  | fixed bytes => ∀ code pos rest offset, code.drop pos = bytes ++ rest →
      Decodes code pool pos bytes.length (insn.map offset)
  | _ => True

/-- The opcode has this decoder arm and this length, and is none of those with a length of
their own. -/
def HasForm (op : UInt8) (form : OpForm) (len : ℕ) : Prop :=
  opForm op = form ∧ fixedLen op = len ∧ op ≠ 0xc4 ∧ op ≠ 0xaa ∧ op ≠ 0xab ∧ op ≠ 0xfe

instance (op : UInt8) (form : OpForm) (len : ℕ) : Decidable (HasForm op form len) :=
  inferInstanceAs (Decidable (_ ∧ _ ∧ _ ∧ _ ∧ _ ∧ _))

/-- The decoder's arm and the length of the opcodes the assembler writes; a short load or store is the long one's
opcode and slot in one byte. -/
theorem hasForm_written (op : UInt8) :
    (isPlainOp op → HasForm op .plain 1) ∧ (isVarOp op → HasForm op .var 2) ∧
      (isJumpOpcode op → HasForm op .branch 3) ∧ (opRange 0xb2 0xb5 op → HasForm op .field 3) ∧
      (opRange 0xb6 0xb9 op → HasForm op .method (if op = 0xb9 then 5 else 3)) ∧
      (op = 0xbb ∨ op = 0xbd ∨ op = 0xc0 ∨ op = 0xc1 → HasForm op .type 3) ∧
      (isVarOp op ∨ isJumpOpcode op → op ≠ 0x84 ∧ op ≠ 0xc8 ∧ op ≠ 0xc9) ∧
      ∀ slot : Fin 4,
        (opRange 0x15 0x19 op →
          HasForm (0x1a + (op - 0x15) * 4 + UInt8.ofNat slot) .loadShort 1 ∧
            0x15 + (0x1a + (op - 0x15) * 4 + UInt8.ofNat slot - 0x1a) / 4 = op ∧
            (0x1a + (op - 0x15) * 4 + UInt8.ofNat slot - 0x1a) % 4 = UInt8.ofNat slot) ∧
        (opRange 0x36 0x3a op →
          HasForm (0x3b + (op - 0x36) * 4 + UInt8.ofNat slot) .storeShort 1 ∧
            0x36 + (0x3b + (op - 0x36) * 4 + UInt8.ofNat slot - 0x3b) / 4 = op ∧
            (0x3b + (op - 0x36) * 4 + UInt8.ofNat slot - 0x3b) % 4 = UInt8.ofNat slot) := by
  and_intros
  all_goals
    revert op
    exact forall_opcode (by decide +kernel)

variable {op : UInt8}

theorem hasForm_plain (h : isPlainOp op) : HasForm op .plain 1 :=
  (hasForm_written op).1 h

theorem hasForm_var (h : isVarOp op) : HasForm op .var 2 :=
  (hasForm_written op).2.1 h

theorem hasForm_branch (h : isJumpOpcode op) : HasForm op .branch 3 :=
  (hasForm_written op).2.2.1 h

theorem hasForm_ldcWide (h : op = 0x13 ∨ op = 0x14) : HasForm op .ldcWide 3 :=
  h.elim (fun h => h ▸ by decide) fun h => h ▸ by decide

variable {insn : Insn LabelId}

section Bytes

variable {code operands rest : List UInt8} {pool : ConstantPoolView} {pos : ℕ}

theorem getElem?_of_drop (h : code.drop pos = op :: rest) : code[pos]? = some op := by
  rw [← List.head?_drop, h, List.head?_cons]

variable {form : OpForm}

/-- An opcode with a fixed length, followed by that many operand bytes. -/
theorem instructionLen_fixed {len : ℕ} (hf : HasForm op form len)
    (h : code.drop pos = op :: operands ++ rest) (hl : operands.length + 1 = len) :
    instructionLen code pos = some len := by
  obtain ⟨-, hlen, h1, h2, h3, -⟩ := hf
  refine instructionLen_eq_some.mpr ⟨op, getElem?_of_drop h, ?_, ?_⟩
  · simp [declaredLen, h1, h2, h3, hlen]
  · have := le_length h (by simp)
    simp only [List.length_cons] at this
    omega

/-- The decoder's arm for an opcode is all that is left to check. -/
theorem decodes_of_form {len : ℕ} {insn : Insn ℤ}
    (hf : HasForm op form len) (h : code.drop pos = op :: operands ++ rest)
    (hl : operands.length + 1 = len)
    (hd : decodeAs form op code pos ⟨pool, pos⟩ id = .ok insn) :
    Decodes code pool pos len insn := by
  have hu : u1 code pos = op := u1_of_drop h
  refine ⟨instructionLen_fixed hf h hl, ?_, ?_⟩
  · rw [hu]
    exact hf.2.2.2.2.2
  · rw [decode, hu, hf.1]
    exact hd

theorem drop_tail (h : code.drop pos = op :: operands ++ rest) : code.drop (pos + 1) = operands ++ rest := by
  rw [← List.drop_drop, h]
  rfl

/-- One opcode of a known form with its operands, whatever stands around it. -/
theorem readsBack_fixed {len : ℕ} (hf : HasForm op form len) (hl : operands.length + 1 = len)
    (hd : ∀ (code rest : List UInt8) (pos : ℕ) (offset : LabelId → ℤ),
      code.drop (pos + 1) = operands ++ rest →
      decodeAs form op code pos ⟨pool, pos⟩ id = .ok (insn.map offset)) :
    (Encoded.fixed (op :: operands)).ReadsBack pool insn := by
  intro code pos rest offset h
  rw [List.length_cons, hl]
  exact decodes_of_form hf h hl (hd code rest pos offset (drop_tail h))

theorem readsBack_op (h : isPlainOp op) : (Encoded.fixed [op]).ReadsBack pool (.op op) := by
  refine readsBack_fixed (hasForm_plain h) rfl ?_
  intro code rest pos offset _
  rfl

theorem readsBack_bipush {operand : Int32} (hl : -2 ^ 7 ≤ operand.toInt)
    (hu : operand.toInt < 2 ^ 7) :
    (Encoded.fixed [0x10, operand.toUInt32.toUInt8]).ReadsBack pool (.int 0x10 operand) := by
  have hf : HasForm 0x10 .bipush 2 := by decide
  refine readsBack_fixed hf rfl ?_
  intro code rest pos offset h
  change Except.ok (Insn.int 0x10 (Int32.ofInt (u1 code (pos + 1)).toInt8.toInt)) = _
  rw [u1_of_drop h, ofInt_low8 hl hu]
  rfl

theorem readsBack_sipush {operand : Int32} (hl : -2 ^ 15 ≤ operand.toInt)
    (hu : operand.toInt < 2 ^ 15) :
    (Encoded.fixed (0x11 :: u2Bytes operand.toUInt32.toUInt16)).ReadsBack pool
      (.int 0x11 operand) := by
  have hf : HasForm 0x11 .sipush 3 := by decide
  refine readsBack_fixed hf (by simp) ?_
  intro code rest pos offset h
  change Except.ok (Insn.int 0x11 (Int32.ofInt (u2 code (pos + 1)).toInt16.toInt)) = _
  rw [u2_of_drop h, ofInt_low16 hl hu]
  rfl

theorem readsBack_newarray {operand : Int32} (hl : 0 ≤ operand.toInt)
    (hu : operand.toInt < 2 ^ 8) :
    (Encoded.fixed [0xbc, operand.toUInt32.toUInt8]).ReadsBack pool (.int 0xbc operand) := by
  have hf : HasForm 0xbc .newarray 2 := by decide
  refine readsBack_fixed hf rfl ?_
  intro code rest pos offset h
  change Except.ok (Insn.int 0xbc (Int32.ofInt (u1 code (pos + 1)).toNat)) = _
  rw [u1_of_drop h, ofInt_lowByte hl hu]
  rfl

variable {slot : UInt16}

theorem slot_le_three (h : slot ≤ 3) :
    ∃ k : Fin 4, slot.toUInt8 = UInt8.ofNat k ∧ slot = (UInt8.ofNat k).toUInt16 := by
  have h : slot.toNat ≤ 3 := UInt16.le_iff_toNat_le.mp h
  have hs : slot.toUInt8 = UInt8.ofNat slot.toNat := (UInt8.ofNat_uInt16ToNat slot).symm
  refine ⟨⟨slot.toNat, by omega⟩, hs, ?_⟩
  rw [← hs]
  exact (toUInt8_toUInt16 (UInt16.le_iff_toNat_le.mpr (le_trans h (by decide)))).symm

/-- The `wide` prefix before a local access. -/
theorem readsBack_wideVar (h : isVarOp op) :
    (Encoded.fixed (0xc4 :: withU2 op slot)).ReadsBack pool (.var op slot) := by
  intro code pos rest offset hd
  have hop : u1 code pos = 0xc4 := u1_of_drop hd
  have htail : code.drop (pos + 1) = op :: u2Bytes slot ++ rest := drop_tail hd
  have hslot : code.drop (pos + 1 + 1) = u2Bytes slot ++ rest := drop_tail htail
  have hne : op ≠ 0x84 := ((hasForm_written op).2.2.2.2.2.2.1 (.inl h)).1
  refine ⟨?_, by simp [hop], ?_⟩
  · refine instructionLen_eq_some.mpr ⟨0xc4, getElem?_of_drop hd, ?_, ?_⟩
    · simp [declaredLen, getElem?_of_drop htail, hne, h, withU2]
    · exact le_length hd (by simp)
  · rw [decode, hop, show opForm 0xc4 = .wide from rfl]
    change (if u1 code (pos + 1) == 0x84 then _
      else if isVarOp (u1 code (pos + 1)) then _ else _) = _
    rw [u1_of_drop htail, if_neg (by simpa using hne), if_pos h, u2_of_drop hslot]
    rfl

theorem readsBack_var (h : isVarOp op) (slot : UInt16) :
    (Encoded.fixed (varEncoding op slot)).ReadsBack pool (.var op slot) := by
  unfold varEncoding
  split_ifs with hload hstore hbyte
  · obtain ⟨hr, hs⟩ := Bool.and_eq_true_iff.mp hload
    obtain ⟨k, hk, hslot⟩ := slot_le_three (of_decide_eq_true hs)
    obtain ⟨hf, hop, hmod⟩ := ((hasForm_written op).2.2.2.2.2.2.2 k).1 hr
    rw [hk, hslot]
    refine readsBack_fixed hf rfl ?_
    intro code rest pos offset _
    change Except.ok (Insn.var (0x15 + _ / 4) (_ % 4 : UInt8).toUInt16) = _
    rw [hop, hmod]
    rfl
  · obtain ⟨hr, hs⟩ := Bool.and_eq_true_iff.mp hstore
    obtain ⟨k, hk, hslot⟩ := slot_le_three (of_decide_eq_true hs)
    obtain ⟨hf, hop, hmod⟩ := ((hasForm_written op).2.2.2.2.2.2.2 k).2 hr
    rw [hk, hslot]
    refine readsBack_fixed hf rfl ?_
    intro code rest pos offset _
    change Except.ok (Insn.var (0x36 + _ / 4) (_ % 4 : UInt8).toUInt16) = _
    rw [hop, hmod]
    rfl
  · refine readsBack_fixed (hasForm_var h) rfl ?_
    intro code rest pos offset hd
    change Except.ok (Insn.var op (u1 code (pos + 1)).toUInt16) = _
    rw [u1_of_drop hd, toUInt8_toUInt16 hbyte]
    rfl
  · exact readsBack_wideVar h

theorem readsBack_iinc {delta : Int16} (hs : slot ≤ 255) (hl : -128 ≤ delta) (hu : delta ≤ 127) :
    (Encoded.fixed [0x84, slot.toUInt8, delta.toUInt16.toUInt8]).ReadsBack pool
      (.iinc slot delta) := by
  have hf : HasForm 0x84 .iinc 3 := by decide
  refine readsBack_fixed hf rfl ?_
  intro code rest pos offset h
  have hdelta : code.drop (pos + 1 + 1) = delta.toUInt16.toUInt8 :: rest := drop_tail h
  change Except.ok (Insn.iinc (u1 code (pos + 1)).toUInt16
    (Int16.ofInt (u1 code (pos + 1 + 1)).toInt8.toInt)) = _
  rw [u1_of_drop h, u1_of_drop hdelta, toUInt8_toUInt16 hs, int16_ofInt_low8 hl hu]
  rfl

theorem readsBack_wideIinc {delta : Int16} :
    (Encoded.fixed (0xc4 :: 0x84 :: (u2Bytes slot ++ u2Bytes delta.toUInt16))).ReadsBack pool
      (.iinc slot delta) := by
  intro code pos rest offset hd
  have hop : u1 code pos = 0xc4 := u1_of_drop hd
  have htail : code.drop (pos + 1) = 0x84 :: (u2Bytes slot ++ u2Bytes delta.toUInt16) ++ rest :=
    drop_tail hd
  have hslot : code.drop (pos + 1 + 1) = u2Bytes slot ++ (u2Bytes delta.toUInt16 ++ rest) := by
    rw [← List.append_assoc]
    exact drop_tail htail
  have hdelta : code.drop (pos + 1 + 1 + 2) = u2Bytes delta.toUInt16 ++ rest := drop_add hslot
  refine ⟨?_, by simp [hop], ?_⟩
  · refine instructionLen_eq_some.mpr ⟨0xc4, getElem?_of_drop hd, ?_, ?_⟩
    · simp [declaredLen, getElem?_of_drop htail]
    · exact le_length hd (by simp)
  · rw [decode, hop, show opForm 0xc4 = .wide from rfl]
    change (if u1 code (pos + 1) == 0x84 then
      Except.ok (Insn.iinc (u2 code (pos + 1 + 1)) (u2 code (pos + 1 + 1 + 2)).toInt16) else _) = _
    rw [u1_of_drop htail, if_pos (beq_self_eq_true _), u2_of_drop hslot, u2_of_drop hdelta]
    rfl

variable {index : UInt16}

/-- An opcode with a pool index, and the bytes that may follow it. -/
theorem readsBack_withU2 {len : ℕ} {more : List UInt8} (hf : HasForm op form len) (hl : more.length + 3 = len)
    (hd : ∀ (code rest : List UInt8) (pos : ℕ) (offset : LabelId → ℤ),
      u2 code (pos + 1) = index → code.drop (pos + 3) = more ++ rest →
      decodeAs form op code pos ⟨pool, pos⟩ id = .ok (insn.map offset)) :
    (Encoded.fixed (withU2 op index ++ more)).ReadsBack pool insn := by
  have hlen : (u2Bytes index ++ more).length + 1 = len := by
    rw [List.length_append, u2Bytes_length]
    omega
  refine readsBack_fixed hf hlen ?_
  intro code rest pos offset h
  have h : code.drop (pos + 1) = u2Bytes index ++ (more ++ rest) := by
    rw [h]
    exact List.append_assoc ..
  exact hd code rest pos offset (u2_of_drop h) (drop_add h)

theorem readsBack_withU2_alone (hf : HasForm op form 3)
    (hd : ∀ (code : List UInt8) (pos : ℕ) (offset : LabelId → ℤ),
      u2 code (pos + 1) = index →
      decodeAs form op code pos ⟨pool, pos⟩ id = .ok (insn.map offset)) :
    (Encoded.fixed (withU2 op index)).ReadsBack pool insn := by
  rw [← List.append_nil (withU2 op index)]
  refine readsBack_withU2 hf rfl ?_
  intro code rest pos offset hi _
  exact hd code pos offset hi

theorem readsBack_type {c : String}
    (h : (Insn.type op c : Insn LabelId).WellFormed) (hr : (Request.cls c).Resolved pool index) :
    (Encoded.fixed (withU2 op index)).ReadsBack pool (.type op c) := by
  have hf : HasForm op .type 3 := (hasForm_written op).2.2.2.2.2.1 h
  refine readsBack_withU2_alone hf ?_
  intro code pos offset hi
  change Insn.type op <$> SourcePool.cls ⟨pool, pos⟩ (u2 code (pos + 1)) = _
  rw [hi, hr pos]
  rfl

variable {owner name desc : String}

theorem readsBack_field (h : opRange 0xb2 0xb5 op) (hr : (Request.field owner name desc).Resolved pool index) :
    (Encoded.fixed (withU2 op index)).ReadsBack pool (.field op owner name desc) := by
  refine readsBack_withU2_alone ((hasForm_written op).2.2.2.1 h) ?_
  intro code pos offset hi
  change (SourcePool.field ⟨pool, pos⟩ (u2 code (pos + 1)) >>= fun out =>
    Except.ok (Insn.field op out.1 out.2.1 out.2.2)) = _
  rw [hi, hr pos]
  rfl

theorem readsBack_method {interface : Bool} (h : opRange 0xb6 0xb9 op) (hne : op ≠ 0xb9)
    (hr : (Request.method owner name desc interface).Resolved pool index) :
    (Encoded.fixed (withU2 op index)).ReadsBack pool (.method op owner name desc interface) := by
  have hf := (hasForm_written op).2.2.2.2.1 h
  rw [if_neg hne] at hf
  refine readsBack_withU2_alone hf ?_
  intro code pos offset hi
  change (SourcePool.method ⟨pool, pos⟩ (u2 code (pos + 1)) >>= fun out =>
    Except.ok (Insn.method op out.1 out.2.1 out.2.2.1 out.2.2.2)) = _
  rw [hi, hr pos]
  rfl

theorem readsBack_invokeInterface {interface : Bool} {count : UInt8}
    (hr : (Request.method owner name desc interface).Resolved pool index) :
    (Encoded.fixed (withU2 0xb9 index ++ [count, 0])).ReadsBack pool
      (.method 0xb9 owner name desc interface) := by
  have hf : HasForm 0xb9 .method 5 := by decide
  refine readsBack_withU2 hf rfl ?_
  intro code rest pos offset hi _
  change (SourcePool.method ⟨pool, pos⟩ (u2 code (pos + 1)) >>= fun out =>
    Except.ok (Insn.method 0xb9 out.1 out.2.1 out.2.2.1 out.2.2.2)) = _
  rw [hi, hr pos]
  rfl

theorem readsBack_invokeDynamic {name desc : String} {bootstrap : Handle}
    {arguments : List Constant}
    (hr : (Request.invokeDynamic name desc bootstrap arguments).Resolved pool index) :
    (Encoded.fixed (withU2 0xba index ++ [0, 0])).ReadsBack pool
      (.invokeDynamic name desc bootstrap arguments) := by
  have hf : HasForm 0xba .invokeDynamic 5 := by decide
  refine readsBack_withU2 hf rfl ?_
  intro code rest pos offset hi _
  change SourcePool.invokeDynamic ⟨pool, pos⟩ (u2 code (pos + 1)) = _
  rw [hi, hr pos]
  rfl

theorem readsBack_multiANewArray {desc : String} {dims : UInt8} (hr : (Request.cls desc).Resolved pool index) :
    (Encoded.fixed (withU2 0xc5 index ++ [dims])).ReadsBack pool
      (.multiANewArray desc dims) := by
  have hf : HasForm 0xc5 .multiANewArray 4 := by decide
  refine readsBack_withU2 hf rfl ?_
  intro code rest pos offset hi hm
  change (SourcePool.cls ⟨pool, pos⟩ (u2 code (pos + 1)) >>= fun desc =>
    Except.ok (Insn.multiANewArray desc (u1 code (pos + 3)))) = _
  rw [hi, hr pos, u1_of_drop hm]
  rfl

theorem readsBack_ldc {c : Constant} (hi : index ≤ 255) (hr : (Request.constant c).Resolved pool index) :
    (Encoded.fixed [0x12, index.toUInt8]).ReadsBack pool (.ldc c) := by
  have hf : HasForm 0x12 .ldc 2 := by decide
  refine readsBack_fixed hf rfl ?_
  intro code rest pos offset h
  change Insn.ldc <$> SourcePool.constant ⟨pool, pos⟩ (u1 code (pos + 1)).toUInt16 = _
  rw [u1_of_drop h, toUInt8_toUInt16 hi, hr pos]
  rfl

theorem readsBack_ldcWide {c : Constant}
    (hf : HasForm op .ldcWide 3) (hr : (Request.constant c).Resolved pool index) :
    (Encoded.fixed (withU2 op index)).ReadsBack pool (.ldc c) := by
  refine readsBack_withU2_alone hf ?_
  intro code pos offset hi
  change Insn.ldc <$> SourcePool.constant ⟨pool, pos⟩ (u2 code (pos + 1)) = _
  rw [hi, hr pos]
  rfl

end Bytes

variable {encoded : Encoded}

/-- A well-formed instruction, its operand interned at an index that resolves, reads back from
what is written for it. -/
theorem encode_readsBack {σ : Type} {sink : ConstantSink σ} {s s' : σ} {pool : ConstantPoolView}
    (h : encode sink s insn = .ok (encoded, s')) (hwf : insn.WellFormed)
    (hr : ∀ r ∈ insn.request, r.Resolved pool (sink.answer s r).1) :
    encoded.ReadsBack pool insn := by
  cases insn with
  | op o =>
    obtain ⟨rfl, -⟩ := Prod.mk.inj (Except.ok.inj h)
    exact readsBack_op hwf
  | int o operand =>
    rcases hwf with ⟨rfl, hl, hu⟩ | ⟨rfl, hl, hu⟩ | ⟨rfl, hl, hu⟩
    · obtain ⟨rfl, -⟩ := Prod.mk.inj (Except.ok.inj h)
      exact readsBack_bipush hl hu
    · obtain ⟨rfl, -⟩ := Prod.mk.inj (Except.ok.inj h)
      exact readsBack_sipush hl hu
    · obtain ⟨rfl, -⟩ := Prod.mk.inj (Except.ok.inj h)
      exact readsBack_newarray hl hu
  | var o slot =>
    obtain ⟨rfl, -⟩ := Prod.mk.inj (Except.ok.inj h)
    exact readsBack_var hwf slot
  | iinc slot delta =>
    simp only [encode] at h
    split_ifs at h with hsmall
    · obtain ⟨rfl, -⟩ := Prod.mk.inj (Except.ok.inj h)
      simp only [Bool.and_eq_true, decide_eq_true_eq] at hsmall
      exact readsBack_iinc hsmall.1.1 hsmall.1.2 hsmall.2
    · obtain ⟨rfl, -⟩ := Prod.mk.inj (Except.ok.inj h)
      exact readsBack_wideIinc
  | type o c =>
    obtain ⟨rfl, -⟩ := Prod.mk.inj (Except.ok.inj h)
    exact readsBack_type hwf (hr _ rfl)
  | field o owner name desc =>
    obtain ⟨rfl, -⟩ := Prod.mk.inj (Except.ok.inj h)
    exact readsBack_field hwf (hr _ rfl)
  | method o owner name desc interface =>
    simp only [encode] at h
    split_ifs at h with ho
    · obtain ⟨count, -, h⟩ := bind_ok h
      obtain ⟨rfl, -⟩ := Prod.mk.inj (Except.ok.inj h)
      obtain rfl : o = 0xb9 := by simpa using ho
      exact readsBack_invokeInterface (hr _ rfl)
    · obtain ⟨rfl, -⟩ := Prod.mk.inj (Except.ok.inj h)
      exact readsBack_method hwf (by simpa using ho) (hr _ rfl)
  | invokeDynamic name desc bootstrap arguments =>
    obtain ⟨rfl, -⟩ := Prod.mk.inj (Except.ok.inj h)
    exact readsBack_invokeDynamic (hr _ rfl)
  | jump o target =>
    simp only [encode] at h
    split_ifs at h
    obtain ⟨rfl, -⟩ := Prod.mk.inj (Except.ok.inj h)
    trivial
  | ldc c =>
    simp only [encode] at h
    split_ifs at h with hw hi
    · obtain ⟨rfl, -⟩ := Prod.mk.inj (Except.ok.inj h)
      exact readsBack_ldcWide (hasForm_ldcWide (by tauto)) (hr _ rfl)
    · obtain ⟨rfl, -⟩ := Prod.mk.inj (Except.ok.inj h)
      exact readsBack_ldc hi (hr _ rfl)
    · obtain ⟨rfl, -⟩ := Prod.mk.inj (Except.ok.inj h)
      exact readsBack_ldcWide (hasForm_ldcWide (by tauto)) (hr _ rfl)
  | tableSwitch low high default labels =>
    simp only [encode] at h
    split_ifs at h
    obtain ⟨rfl, -⟩ := Prod.mk.inj (Except.ok.inj h)
    trivial
  | lookupSwitch default keys labels =>
    simp only [encode] at h
    split_ifs at h
    obtain ⟨rfl, -⟩ := Prod.mk.inj (Except.ok.inj h)
    trivial
  | multiANewArray desc dims =>
    obtain ⟨rfl, -⟩ := Prod.mk.inj (Except.ok.inj h)
    exact readsBack_multiANewArray (hr _ rfl)

theorem encode_encodes {σ : Type} {sink : ConstantSink σ} {s s' : σ}
    (h : encode sink s insn = .ok (encoded, s')) : encoded.Encodes insn := by
  have hfixed : ∀ bytes t, insn.jumpTargets = [] → bytes ≠ [] →
      (Except.ok (Encoded.fixed bytes, t) : Except AssembleError (Encoded × σ)) =
        .ok (encoded, s') → encoded.Encodes insn := by
    intro bytes t ht hb he
    obtain ⟨rfl, -⟩ := Prod.mk.inj (Except.ok.inj he)
    exact ⟨ht, hb⟩
  cases insn with
  | int o operand =>
    simp only [encode] at h
    split_ifs at h <;> exact hfixed _ _ rfl (List.cons_ne_nil _ _) h
  | var o slot =>
    refine hfixed _ _ rfl ?_ h
    unfold varEncoding
    split_ifs <;> exact List.cons_ne_nil _ _
  | iinc slot delta =>
    simp only [encode] at h
    split_ifs at h <;> exact hfixed _ _ rfl (List.cons_ne_nil _ _) h
  | method o owner name desc interface =>
    simp only [encode] at h
    split_ifs at h
    · obtain ⟨count, -, h⟩ := bind_ok h
      exact hfixed _ _ rfl (List.cons_ne_nil _ _) h
    · exact hfixed _ _ rfl (List.cons_ne_nil _ _) h
  | jump o target =>
    simp only [encode] at h
    split_ifs at h with hj
    obtain ⟨rfl, -⟩ := Prod.mk.inj (Except.ok.inj h)
    exact ⟨rfl, hj⟩
  | ldc c =>
    simp only [encode] at h
    split_ifs at h <;> exact hfixed _ _ rfl (List.cons_ne_nil _ _) h
  | tableSwitch low high default labels =>
    simp only [encode] at h
    split_ifs at h with hc
    obtain ⟨rfl, -⟩ := Prod.mk.inj (Except.ok.inj h)
    refine ⟨rfl, by omega, ?_⟩
    rintro rfl
    simp only [List.length_nil] at hc
    omega
  | lookupSwitch default keys labels =>
    simp only [encode] at h
    split_ifs at h with hc
    obtain ⟨rfl, -⟩ := Prod.mk.inj (Except.ok.inj h)
    exact ⟨rfl, by tauto⟩
  | op _ | type _ _ | field _ _ _ _ | invokeDynamic _ _ _ _ | multiANewArray _ _ =>
    exact hfixed _ _ rfl (List.cons_ne_nil _ _) h

/-- Encoding asks the pool for the instruction's operand and for nothing else. -/
theorem encode_state {σ : Type} {sink : ConstantSink σ} {s s' : σ} (h : encode sink s insn = .ok (encoded, s')) :
    s' = (insn.request.map fun r => (sink.answer s r).2).getD s := by
  cases insn with
  | int o operand =>
    simp only [encode] at h
    split_ifs at h <;> exact (Prod.mk.inj (Except.ok.inj h)).2.symm
  | iinc slot delta =>
    simp only [encode] at h
    split_ifs at h <;> exact (Prod.mk.inj (Except.ok.inj h)).2.symm
  | method o owner name desc interface =>
    simp only [encode] at h
    split_ifs at h
    · obtain ⟨count, -, h⟩ := bind_ok h
      exact (Prod.mk.inj (Except.ok.inj h)).2.symm
    · exact (Prod.mk.inj (Except.ok.inj h)).2.symm
  | jump o target =>
    simp only [encode] at h
    split_ifs at h
    exact (Prod.mk.inj (Except.ok.inj h)).2.symm
  | ldc c =>
    simp only [encode] at h
    split_ifs at h <;> exact (Prod.mk.inj (Except.ok.inj h)).2.symm
  | tableSwitch low high default labels =>
    simp only [encode] at h
    split_ifs at h
    exact (Prod.mk.inj (Except.ok.inj h)).2.symm
  | lookupSwitch default keys labels =>
    simp only [encode] at h
    split_ifs at h
    exact (Prod.mk.inj (Except.ok.inj h)).2.symm
  | op _ | var _ _ | type _ _ | field _ _ _ _ | invokeDynamic _ _ _ _ | multiANewArray _ _ =>
    exact (Prod.mk.inj (Except.ok.inj h)).2.symm

end Krusty.Jvm
