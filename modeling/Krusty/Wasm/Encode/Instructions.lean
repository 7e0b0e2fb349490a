import Krusty.Wasm.Encode.Types

/-! Instructions written and read, and the expressions they make up. -/
namespace Krusty.Wasm

open Parsing

/-! ### Instructions written -/

def BlockType.encode : BlockType → List UInt8
  | .empty => [0x40]
  | .value ty => ty.encode

/-- An instruction of the `0xfb` prefix. -/
def gc (opcode : UInt8) : List UInt8 := 0xfb :: uleb opcode.toUInt64

def Instr.encode : Instr → List UInt8
  | .op opcode => [opcode]
  | .truncSat opcode => 0xfc :: uleb opcode.toUInt64
  | .block ty => 0x02 :: ty.encode
  | .loop_ ty => 0x03 :: ty.encode
  | .if_ ty => 0x04 :: ty.encode
  | .tryTable ty tag handler => 0x1f :: (ty.encode ++ (index 1 ++ (0x00 :: (index tag ++ index handler))))
  | .throw tag => 0x08 :: index tag
  | .else_ => [0x05]
  | .end_ => [0x0b]
  | .br depth => 0x0c :: index depth
  | .brIf depth => 0x0d :: index depth
  | .unreachable => [0x00]
  | .return_ => [0x0f]
  | .call function => 0x10 :: index function
  | .drop_ => [0x1a]
  | .localGet local_ => 0x20 :: index local_
  | .localSet local_ => 0x21 :: index local_
  | .localTee local_ => 0x22 :: index local_
  | .globalGet global => 0x23 :: index global
  | .globalSet global => 0x24 :: index global
  | .i32Store8 offset => 0x3a :: (index 0 ++ index offset)
  | .i32Store offset => 0x36 :: (index 2 ++ index offset)
  | .i32Const value => 0x41 :: sleb value.toInt64
  | .i64Const value => 0x42 :: sleb value
  | .f32Const bits => 0x43 :: LittleEndian.leBytes 4 bits.toNat
  | .f64Const bits => 0x44 :: LittleEndian.leBytes 8 bits.toNat
  | .refNull heap => 0xd0 :: heap.encode
  | .refIsNull => [0xd1]
  | .refEq => [0xd3]
  | .refAsNonNull => [0xd4]
  | .refFunc function => 0xd2 :: index function
  | .callRef ty => 0x14 :: index ty
  | .refTest nullable heap => gc (if nullable then 0x15 else 0x14) ++ heap.encode
  | .refCast nullable heap => gc (if nullable then 0x17 else 0x16) ++ heap.encode
  | .structSet ty field => gc 0x05 ++ (index ty ++ index field)
  | .structNew ty => gc 0x00 ++ index ty
  | .structNewDefault ty => gc 0x01 ++ index ty
  | .structGet ty field => gc 0x02 ++ (index ty ++ index field)
  | .arrayNewDefault ty => gc 0x07 ++ index ty
  | .arrayNewFixed ty length => gc 0x08 ++ (index ty ++ index length)
  | .arrayNewData ty segment => gc 0x09 ++ (index ty ++ index segment)
  | .arrayGet ty => gc 0x0b ++ index ty
  | .arrayGetU ty => gc 0x0d ++ index ty
  | .arraySet ty => gc 0x0e ++ index ty
  | .arrayLen => gc 0x0f
  | .arrayCopy destination source => gc 0x11 ++ (index destination ++ index source)

def Code.encode (code : Code) : List UInt8 := code.flatMap Instr.encode

/-! ### Instructions read -/

/-- The opcodes of instructions without immediates that have no method of their own: `nop`, `select` and the numeric
instructions. -/
def Plain (opcode : UInt8) : Prop := opcode = 0x01 ∨ opcode = 0x1b ∨ 0x45 ≤ opcode ∧ opcode ≤ 0xc4

instance (opcode : UInt8) : Decidable (Plain opcode) :=
  inferInstanceAs (Decidable (opcode = 0x01 ∨ opcode = 0x1b ∨ 0x45 ≤ opcode ∧ opcode ≤ 0xc4))

def blockType : Parser BlockType
  | 0x40 :: rest => some (.empty, rest)
  | bytes => (BlockType.value <$> valType) bytes

def indexed (g : UInt32 → Instr) : Parser Instr := g <$> u32

def indexed2 (g : UInt32 → UInt32 → Instr) : Parser Instr := do
  let first ← u32
  let second ← u32
  return g first second

/-- An offset after the alignment that the instruction is written with. -/
def aligned (align : UInt32) (g : UInt32 → Instr) : Parser Instr := do
  if (← u32) = align then indexed g else failure

def handlers (ty : BlockType) : Parser Instr := do
  if (← u32) = 1 then
    match ← next with
    | 0x00 => indexed2 (.tryTable ty)
    | _ => failure
  else failure

def gcInstruction : UInt32 → Parser Instr
  | 0x00 => indexed .structNew
  | 0x01 => indexed .structNewDefault
  | 0x02 => indexed2 .structGet
  | 0x05 => indexed2 .structSet
  | 0x07 => indexed .arrayNewDefault
  | 0x08 => indexed2 .arrayNewFixed
  | 0x09 => indexed2 .arrayNewData
  | 0x0b => indexed .arrayGet
  | 0x0d => indexed .arrayGetU
  | 0x0e => indexed .arraySet
  | 0x0f => return .arrayLen
  | 0x11 => indexed2 .arrayCopy
  | 0x14 => Instr.refTest false <$> heapType
  | 0x15 => Instr.refTest true <$> heapType
  | 0x16 => Instr.refCast false <$> heapType
  | 0x17 => Instr.refCast true <$> heapType
  | _ => failure

/-- The instruction of an opcode that has immediates or a method of its own. -/
def immediates : UInt8 → Parser Instr
  | 0x00 => return .unreachable
  | 0x02 => Instr.block <$> blockType
  | 0x03 => Instr.loop_ <$> blockType
  | 0x04 => Instr.if_ <$> blockType
  | 0x05 => return .else_
  | 0x08 => indexed .throw
  | 0x0b => return .end_
  | 0x0c => indexed .br
  | 0x0d => indexed .brIf
  | 0x0f => return .return_
  | 0x10 => indexed .call
  | 0x14 => indexed .callRef
  | 0x1a => return .drop_
  | 0x1f => blockType >>= handlers
  | 0x20 => indexed .localGet
  | 0x21 => indexed .localSet
  | 0x22 => indexed .localTee
  | 0x23 => indexed .globalGet
  | 0x24 => indexed .globalSet
  | 0x36 => aligned 2 .i32Store
  | 0x3a => aligned 0 .i32Store8
  | 0x41 => (fun value => Instr.i32Const (Int32.ofInt value)) <$> Leb128.signed 32
  | 0x42 => (fun value => Instr.i64Const (Int64.ofInt value)) <$> Leb128.signed 64
  | 0x43 => (fun bytes => Instr.f32Const (UInt32.ofNat (LittleEndian.leNat bytes))) <$> take 4
  | 0x44 => (fun bytes => Instr.f64Const (UInt64.ofNat (LittleEndian.leNat bytes))) <$> take 8
  | 0xd0 => Instr.refNull <$> heapType
  | 0xd1 => return .refIsNull
  | 0xd2 => indexed .refFunc
  | 0xd3 => return .refEq
  | 0xd4 => return .refAsNonNull
  | 0xfb => u32 >>= gcInstruction
  | 0xfc => do
    let opcode ← u32
    if opcode < 8 then return .truncSat opcode.toUInt8 else failure
  | _ => failure

def instruction : Parser Instr := do
  let opcode ← next
  if Plain opcode then return .op opcode else immediates opcode

/-- An opcode given as such stands for an instruction of its own, with nothing after it. -/
def Instr.Complete : Instr → Prop
  | .op opcode => Plain opcode
  | .truncSat opcode => opcode < 8
  | _ => True

section Reads

variable {bytes : List UInt8} {instr : Instr}

theorem reads_immediates {opcode : UInt8} (h : Reads LIMIT (immediates opcode) bytes instr) (hplain : ¬Plain opcode) :
    Reads LIMIT instruction (opcode :: bytes) instr := by
  apply Reads.next_bind
  rw [if_neg hplain]
  exact h

theorem reads_blockType (ty : BlockType) : Reads LIMIT blockType ty.encode ty := by
  cases ty with
  | empty => exact fun _ _ => rfl
  | value value =>
    intro hlength rest
    have hread := (reads_valType value).map BlockType.value hlength rest
    cases value with
    | ref nullable heap => cases nullable <;> exact hread
    | _ => exact hread

theorem reads_indexed (g : UInt32 → Instr) (i : UInt32) : Reads LIMIT (indexed g) (index i) (g i) := (reads_index i).map g

theorem reads_indexed2 (g : UInt32 → UInt32 → Instr) (i j : UInt32) :
    Reads LIMIT (indexed2 g) (index i ++ index j) (g i j) :=
  (reads_index i).bind ((reads_index j).bind_pure rfl)

theorem reads_aligned (align : UInt32) (g : UInt32 → Instr) (offset : UInt32) :
    Reads LIMIT (aligned align g) (index align ++ index offset) (g offset) := by
  apply (reads_index align).bind
  rw [if_pos rfl]
  exact reads_indexed g offset

theorem reads_handlers (ty : BlockType) (tag handler : UInt32) :
    Reads LIMIT (handlers ty) (index 1 ++ (0x00 :: (index tag ++ index handler))) (.tryTable ty tag handler) := by
  apply (reads_index 1).bind
  rw [if_pos rfl]
  exact .next_bind (reads_indexed2 _ tag handler)

theorem reads_gc {opcode : UInt8} (h : Reads LIMIT (gcInstruction opcode.toUInt32) bytes instr) :
    Reads LIMIT instruction (gc opcode ++ bytes) instr := by
  have hindex := reads_index opcode.toUInt32
  have hwidth : opcode.toUInt32.toUInt64 = opcode.toUInt64 := by
    rw [← UInt64.toNat_inj, UInt32.toNat_toUInt64, UInt8.toNat_toUInt32, UInt8.toNat_toUInt64]
  rw [index, hwidth] at hindex
  have hread : Reads LIMIT (immediates 0xfb) (uleb opcode.toUInt64 ++ bytes) instr := hindex.bind h
  exact reads_immediates hread (by decide)

theorem reads_bits {bits n v : ℕ} (hbits : 256 ^ n = 2 ^ bits) (hv : v < 2 ^ bits) :
    Reads LIMIT (LittleEndian.leNat <$> take n) (LittleEndian.leBytes n v) v := by
  have hread := (@Reads.take LIMIT (LittleEndian.leBytes n v)).map LittleEndian.leNat
  rw [LittleEndian.leBytes_length, LittleEndian.leNat_leBytes, Nat.mod_eq_of_lt (hbits ▸ hv)] at hread
  exact hread

theorem reads_truncSat {opcode : UInt8} (h : opcode < 8) :
    Reads LIMIT instruction (Instr.encode (.truncSat opcode)) (.truncSat opcode) := by
  have hindex := reads_index opcode.toUInt32
  have hwidth : opcode.toUInt32.toUInt64 = opcode.toUInt64 := by
    rw [← UInt64.toNat_inj, UInt32.toNat_toUInt64, UInt8.toNat_toUInt32, UInt8.toNat_toUInt64]
  have hlt : opcode.toUInt32 < 8 := by
    rw [UInt32.lt_iff_toNat_lt, UInt8.toNat_toUInt32]
    exact UInt8.lt_iff_toNat_lt.mp h
  rw [index, hwidth] at hindex
  have hread : Reads LIMIT (immediates 0xfc) (uleb opcode.toUInt64) (.truncSat opcode) := by
    apply hindex.bind_pure
    rw [if_pos hlt, UInt8.toUInt8_toUInt32]
  exact reads_immediates hread (by decide)

end Reads

theorem reads_instruction {instr : Instr} (h : instr.Complete) : Reads LIMIT instruction instr.encode instr := by
  cases instr with
  | op opcode =>
    have hplain : Plain opcode := h
    apply Reads.next_bind
    rw [if_pos hplain]
    exact .pure _
  | truncSat opcode => exact reads_truncSat h
  | block ty => exact reads_immediates ((reads_blockType ty).map _) (by decide)
  | loop_ ty => exact reads_immediates ((reads_blockType ty).map _) (by decide)
  | if_ ty => exact reads_immediates ((reads_blockType ty).map _) (by decide)
  | tryTable ty tag handler => exact reads_immediates ((reads_blockType ty).bind (reads_handlers ty tag handler)) (by decide)
  | else_ => exact reads_immediates (.pure _) (by decide)
  | end_ => exact reads_immediates (.pure _) (by decide)
  | unreachable => exact reads_immediates (.pure _) (by decide)
  | return_ => exact reads_immediates (.pure _) (by decide)
  | drop_ => exact reads_immediates (.pure _) (by decide)
  | refIsNull => exact reads_immediates (.pure _) (by decide)
  | refEq => exact reads_immediates (.pure _) (by decide)
  | refAsNonNull => exact reads_immediates (.pure _) (by decide)
  | throw tag => exact reads_immediates (reads_indexed _ tag) (by decide)
  | br depth => exact reads_immediates (reads_indexed _ depth) (by decide)
  | brIf depth => exact reads_immediates (reads_indexed _ depth) (by decide)
  | call function => exact reads_immediates (reads_indexed _ function) (by decide)
  | localGet i => exact reads_immediates (reads_indexed _ i) (by decide)
  | localSet i => exact reads_immediates (reads_indexed _ i) (by decide)
  | localTee i => exact reads_immediates (reads_indexed _ i) (by decide)
  | globalGet i => exact reads_immediates (reads_indexed _ i) (by decide)
  | globalSet i => exact reads_immediates (reads_indexed _ i) (by decide)
  | refFunc function => exact reads_immediates (reads_indexed _ function) (by decide)
  | callRef ty => exact reads_immediates (reads_indexed _ ty) (by decide)
  | i32Store8 offset => exact reads_immediates (reads_aligned 0 _ offset) (by decide)
  | i32Store offset => exact reads_immediates (reads_aligned 2 _ offset) (by decide)
  | i32Const value =>
    have hread := (reads_i32 value).map fun value => Instr.i32Const (Int32.ofInt value)
    rw [Int32.ofInt_toInt] at hread
    exact reads_immediates hread (by decide)
  | i64Const value =>
    have hread := (reads_i64 value).map fun value => Instr.i64Const (Int64.ofInt value)
    rw [Int64.ofInt_toInt] at hread
    exact reads_immediates hread (by decide)
  | f32Const bits =>
    have hread := (@reads_bits 32 4 _ rfl bits.toNat_lt).map fun v => Instr.f32Const (UInt32.ofNat v)
    rw [UInt32.ofNat_toNat] at hread
    exact reads_immediates hread (by decide)
  | f64Const bits =>
    have hread := (@reads_bits 64 8 _ rfl bits.toNat_lt).map fun v => Instr.f64Const (UInt64.ofNat v)
    rw [UInt64.ofNat_toNat] at hread
    exact reads_immediates hread (by decide)
  | refNull heap => exact reads_immediates ((reads_heapType heap).map _) (by decide)
  | refTest nullable heap => cases nullable <;> exact reads_gc ((reads_heapType heap).map _)
  | refCast nullable heap => cases nullable <;> exact reads_gc ((reads_heapType heap).map _)
  | structSet ty field => exact reads_gc (reads_indexed2 _ ty field)
  | structNew ty => exact reads_gc (reads_indexed _ ty)
  | structNewDefault ty => exact reads_gc (reads_indexed _ ty)
  | structGet ty field => exact reads_gc (reads_indexed2 _ ty field)
  | arrayNewDefault ty => exact reads_gc (reads_indexed _ ty)
  | arrayNewFixed ty length => exact reads_gc (reads_indexed2 _ ty length)
  | arrayNewData ty segment => exact reads_gc (reads_indexed2 _ ty segment)
  | arrayGet ty => exact reads_gc (reads_indexed _ ty)
  | arrayGetU ty => exact reads_gc (reads_indexed _ ty)
  | arraySet ty => exact reads_gc (reads_indexed _ ty)
  | arrayLen =>
    have hread : Reads LIMIT instruction (gc 0x0f ++ []) .arrayLen := reads_gc (.pure _)
    rw [List.append_nil] at hread
    exact hread
  | arrayCopy destination source => exact reads_gc (reads_indexed2 _ destination source)

theorem instr_ne_nil (instr : Instr) : instr.encode ≠ [] := by cases instr <;> simp [Instr.encode, gc]

end Krusty.Wasm

/-! Expressions: instructions up to the `end` that belongs to none of them. -/
namespace Krusty.Wasm

open Parsing

/-- What an `end` is still to come for: an `if` that may have an `else`, or another construct. -/
inductive Opener where
  | thenBranch
  | block
deriving DecidableEq

/-- The constructs open after an instruction, the innermost first. -/
def nest : List Opener → Instr → Option (List Opener)
  | openers, .block _ => some (.block :: openers)
  | openers, .loop_ _ => some (.block :: openers)
  | openers, .tryTable .. => some (.block :: openers)
  | openers, .if_ _ => some (.thenBranch :: openers)
  | .thenBranch :: openers, .else_ => some (.block :: openers)
  | _, .else_ => none
  | _ :: openers, .end_ => some openers
  | [], .end_ => none
  | openers, _ => some openers

def expression : ℕ → List Opener → Parser Code
  | 0, _ => failure
  | fuel + 1, openers => do
    let instr ← instruction
    if openers = [] ∧ instr = .end_ then return []
    else
      match nest openers instr with
      | some openers => do
        let rest ← expression fuel openers
        return instr :: rest
      | none => failure

/-- An expression has no more instructions than bytes. -/
def expr : Parser Code := fun bytes => expression bytes.length [] bytes

/-- The method that an opcode given as such is written by, where there is one. -/
def Instr.named : Instr → Instr
  | .op 0x00 => .unreachable
  | .op 0x05 => .else_
  | .op 0x0b => .end_
  | .op 0x0f => .return_
  | .op 0x1a => .drop_
  | .op 0xd1 => .refIsNull
  | .op 0xd3 => .refEq
  | .op 0xd4 => .refAsNonNull
  | instr => instr

def Code.named (code : Code) : Code := code.map Instr.named

/-- Complete instructions, each `else` and `end` of a construct that is open and each construct closed. -/
structure Code.WellFormed (code : Code) : Prop where
  complete : ∀ instr ∈ code.named, instr.Complete
  nested : code.named.foldlM nest [] = some []

theorem encode_named (code : Code) : code.named.encode = code.encode := by
  have hinstr (instr : Instr) : instr.named.encode = instr.encode := by
    unfold Instr.named
    split <;> rfl
  rw [Code.named, Code.encode, Code.encode, List.flatMap_map]
  exact congrArg (List.flatMap · code) (funext hinstr)

theorem reads_expression {code : Code} {openers : List Opener} {fuel : ℕ} (hcomplete : ∀ instr ∈ code, instr.Complete)
    (hnested : code.foldlM nest openers = some []) (hfuel : code.length < fuel) :
    Reads LIMIT (expression fuel openers) (code.encode ++ [0x0b]) code := by
  induction code generalizing openers fuel with
  | nil =>
    obtain ⟨fuel, rfl⟩ := Nat.exists_eq_succ_of_ne_zero (Nat.ne_zero_of_lt hfuel)
    cases hnested
    exact (@reads_instruction .end_ trivial).bind_pure rfl
  | cons instr code ih =>
    obtain ⟨fuel, rfl⟩ := Nat.exists_eq_succ_of_ne_zero (Nat.ne_zero_of_lt hfuel)
    rw [List.foldlM_cons] at hnested
    obtain ⟨openers', hnest, hrest⟩ := Option.bind_eq_some_iff.mp hnested
    have hnot : ¬(openers = [] ∧ instr = .end_) := by
      rintro ⟨rfl, rfl⟩
      cases hnest
    have hlast : Reads LIMIT (expression fuel openers') (Code.encode code ++ [0x0b]) code :=
      ih (fun other hother => hcomplete other (List.mem_cons_of_mem instr hother)) hrest (Nat.lt_of_succ_lt_succ hfuel)
    rw [Code.encode, List.flatMap_cons, List.append_assoc, expression]
    apply (reads_instruction (hcomplete instr List.mem_cons_self)).bind
    rw [if_neg hnot, hnest]
    exact hlast.bind_pure rfl

theorem reads_expr {code : Code} (h : code.WellFormed) : Reads LIMIT expr (code.encode ++ [0x0b]) code.named := by
  intro hlength rest
  have hcount := length_le_flatMap instr_ne_nil code.named
  have hbytes : (code.encode ++ [0x0b] ++ rest).length = (code.named.flatMap Instr.encode).length + 1 + rest.length := by
    rw [← encode_named, List.length_append, List.length_append, List.length_singleton]
    rfl
  rw [← encode_named] at hlength hbytes ⊢
  exact reads_expression h.complete h.nested (by omega) hlength rest

end Krusty.Wasm
