import Krusty.Jvm.Bytecode
import Krusty.Jvm.MethodNode.Pool
import Mathlib.Data.List.Sort
import Mathlib.Data.List.Dedup

/-! Decoding a class-file method into a `MethodNode`. Every offset a table or a branch names
becomes one label, numbered in offset order. -/
namespace Krusty.Jvm
open Bytes

def switchOperands (pc : ℕ) : ℕ := pc + 1 + padding pc

/-- The number of arms a table switch at `pc` declares. -/
def tableCount (code : List UInt8) (pc : ℕ) : ℕ :=
  let p := switchOperands pc
  ((i4 code (p + 8)).toInt - (i4 code (p + 4)).toInt + 1).toNat

/-- The number of pairs a lookup switch at `pc` declares. -/
def lookupCount (code : List UInt8) (pc : ℕ) : ℕ := (i4 code (switchOperands pc + 4)).toInt.toNat

/-- Every byte offset the instruction at `pc` may transfer control to. -/
def branchTargets (code : List UInt8) (pc : ℕ) : List ℤ :=
  let op := u1 code pc
  let p := switchOperands pc
  if isJumpOpcode op then [pc + (u2 code (pc + 1)).toInt16.toInt]
  else if op == 0xc8 || op == 0xc9 then [pc + (i4 code (pc + 1)).toInt]
  else if op == 0xaa then
    (i4 code p :: (List.range (tableCount code pc)).map fun k => i4 code (p + 12 + k * 4)).map
      fun delta => pc + delta.toInt
  else if op == 0xab then
    (i4 code p :: (List.range (lookupCount code pc)).map fun k => i4 code (p + 12 + k * 8)).map
      fun delta => pc + delta.toInt
  else []

/-- The arms of the decoder, one for each operand format. -/
inductive OpForm where
  | plain | bipush | sipush | newarray | ldc | ldcWide | var | loadShort | storeShort | iinc
  | branch | gotoWide | jsrWide | tableSwitch | lookupSwitch | field | method | invokeDynamic
  | type | wide | multiANewArray | marker | unknown
  deriving DecidableEq

def opForm (op : UInt8) : OpForm :=
  if isPlainOp op then .plain
  else if op == 0x10 then .bipush
  else if op == 0x11 then .sipush
  else if op == 0xbc then .newarray
  else if op == 0x12 then .ldc
  else if op == 0x13 || op == 0x14 then .ldcWide
  else if isVarOp op then .var
  else if opRange 0x1a 0x2d op then .loadShort
  else if opRange 0x3b 0x4e op then .storeShort
  else if op == 0x84 then .iinc
  else if isJumpOpcode op then .branch
  else if op == 0xc8 then .gotoWide
  else if op == 0xc9 then .jsrWide
  else if op == 0xaa then .tableSwitch
  else if op == 0xab then .lookupSwitch
  else if opRange 0xb2 0xb5 op then .field
  else if opRange 0xb6 0xb9 op then .method
  else if op == 0xba then .invokeDynamic
  else if op == 0xbb || op == 0xbd || op == 0xc0 || op == 0xc1 then .type
  else if op == 0xc4 then .wide
  else if op == 0xc5 then .multiANewArray
  else if op == codegenMarkerOp then .marker
  else .unknown

/-- The decoder's arm for an operand format, the opcode in hand. -/
def decodeAs {L : Type} (form : OpForm) (op : UInt8) (code : List UInt8) (pc : ℕ)
    (pool : SourcePool) (label : ℤ → L) : Except MalformedCode (Insn L) :=
  -- Only the jump and switch arms read these, and their opcodes have a first target.
  let target := label ((branchTargets code pc).headD 0)
  let labels := (branchTargets code pc).tail.map label
  let p := switchOperands pc
  match form with
  | .plain => .ok (.op op)
  | .bipush => .ok (.int op (Int32.ofInt (u1 code (pc + 1)).toInt8.toInt))
  | .sipush => .ok (.int op (Int32.ofInt (u2 code (pc + 1)).toInt16.toInt))
  | .newarray => .ok (.int op (Int32.ofInt (u1 code (pc + 1)).toNat))
  | .ldc => .ldc <$> pool.constant (u1 code (pc + 1)).toUInt16
  | .ldcWide => .ldc <$> pool.constant (u2 code (pc + 1))
  | .var => .ok (.var op (u1 code (pc + 1)).toUInt16)
  | .loadShort => .ok (.var (0x15 + (op - 0x1a) / 4) ((op - 0x1a) % 4).toUInt16)
  | .storeShort => .ok (.var (0x36 + (op - 0x3b) / 4) ((op - 0x3b) % 4).toUInt16)
  | .iinc =>
    .ok (.iinc (u1 code (pc + 1)).toUInt16 (Int16.ofInt (u1 code (pc + 2)).toInt8.toInt))
  | .branch => .ok (.jump op target)
  | .gotoWide => .ok (.jump 0xa7 target)
  | .jsrWide => .ok (.jump 0xa8 target)
  | .tableSwitch => .ok (.tableSwitch (i4 code (p + 4)) (i4 code (p + 8)) target labels)
  | .lookupSwitch => .ok (.lookupSwitch target
      ((List.range (lookupCount code pc)).map fun k => i4 code (p + 8 + k * 8)) labels)
  | .field => do
    let (owner, name, desc) ← pool.field (u2 code (pc + 1))
    .ok (.field op owner name desc)
  | .method => do
    let (owner, name, desc, interface) ← pool.method (u2 code (pc + 1))
    .ok (.method op owner name desc interface)
  | .invokeDynamic => pool.invokeDynamic (u2 code (pc + 1))
  | .type => .type op <$> pool.cls (u2 code (pc + 1))
  | .wide =>
    let prefixed := u1 code (pc + 1)
    if prefixed == 0x84 then .ok (.iinc (u2 code (pc + 2)) (u2 code (pc + 4)).toInt16)
    else if isVarOp prefixed then .ok (.var prefixed (u2 code (pc + 2)))
    else pool.fail "wide prefix on an instruction that has no wide form"
  | .multiANewArray => do
    let desc ← pool.cls (u2 code (pc + 1))
    .ok (.multiANewArray desc (u1 code (pc + 3)))
  | .marker =>
    match CodegenMarker.fromOperand (u1 code (pc + 1)) with
    | some marker => .ok (.method 0xb8 CodegenMarker.owner marker.method.1 marker.method.2 false)
    | none => pool.fail "unknown codegen marker"
  | .unknown => pool.fail "unknown opcode"

/-- Decode the instruction at `pc`, whose length is already validated; `label` names the
targets. -/
def decode {L : Type} (code : List UInt8) (pc : ℕ) (pool : SourcePool) (label : ℤ → L) :
    Except MalformedCode (Insn L) :=
  decodeAs (opForm (u1 code pc)) (u1 code pc) code pc pool label

/-- The offset of every instruction, walking from `pc`; a code of `n` bytes has at most `n`. -/
def instructionStarts (code : List UInt8) : ℕ → ℕ → Except MalformedCode (List ℕ)
  | 0, _ => .ok []
  | fuel + 1, pc =>
    if pc < code.length then
      if u1 code pc == 0xfe then .error ⟨pc, "coroutine-site marker in a class-file body"⟩
      else match (instructionLen code pc).filter (fun len => pc + len ≤ code.length) with
        | none => .error ⟨pc, "truncated instruction"⟩
        | some len => (pc :: ·) <$> instructionStarts code fuel (pc + len)
    else .ok []

structure ExcEntry where
  startPc : UInt16
  endPc : UInt16
  handlerPc : UInt16
  catchType : UInt16
  deriving DecidableEq

structure MethodLocal where
  startPc : UInt16
  length : UInt16
  slot : UInt16
  name : String
  descriptor : String
  deriving DecidableEq

/-- A method's `Code` attribute as far as a node needs it. -/
structure CodeAttribute where
  maxStack : UInt16
  maxLocals : UInt16
  code : List UInt8
  handlers : List ExcEntry
  lines : List (UInt16 × UInt16)
  locals : List MethodLocal

/-- Note the label at `offset`, which has to be an instruction boundary. -/
def mark (boundaries : List ℕ) (offset : ℤ) (pos : ℕ) (reason : String) :
    Except MalformedCode ℕ :=
  if 0 ≤ offset ∧ offset.toNat ∈ boundaries then .ok offset.toNat else .error ⟨pos, reason⟩

def branchMarks (code : List UInt8) (boundaries : List ℕ) (pc : ℕ) :
    Except MalformedCode (List ℕ) :=
  (branchTargets code pc).mapM fun (target : ℤ) =>
    if target = (code.length : ℤ) then .error ⟨pc, "branch past the last instruction"⟩
    else mark boundaries target pc "branch into the middle of an instruction"

def handlerMarks (boundaries : List ℕ) (handler : ExcEntry) : Except MalformedCode (List ℕ) :=
  [handler.startPc, handler.endPc, handler.handlerPc].mapM fun offset =>
    mark boundaries offset.toNat handler.startPc.toNat
      "exception range off an instruction boundary"

def lineMark (stop : ℕ) (boundaries : List ℕ) (line : UInt16 × UInt16) :
    Except MalformedCode ℕ :=
  if line.1.toNat = stop then .error ⟨stop, "line number past the last instruction"⟩
  else mark boundaries line.1.toNat line.1.toNat "line number off an instruction boundary"

def localMarks (boundaries : List ℕ) (l : MethodLocal) : Except MalformedCode (List ℕ) :=
  [l.startPc.toNat, l.startPc.toNat + l.length.toNat].mapM fun (offset : ℕ) =>
    mark boundaries offset l.startPc.toNat "local variable off an instruction boundary"

/-- The offsets the code and its tables name, in the order they are met. -/
def markedOffsets (body : CodeAttribute) (starts : List ℕ) : Except MalformedCode (List ℕ) := do
  let stop := body.code.length
  let boundaries := starts ++ [stop]
  let branches ← starts.mapM (branchMarks body.code boundaries)
  let handlers ← body.handlers.mapM (handlerMarks boundaries)
  let lines ← body.lines.mapM (lineMark stop boundaries)
  let locals ← body.locals.mapM (localMarks boundaries)
  .ok (branches.flatten ++ handlers.flatten ++ lines ++ locals.flatten)

/-- The labels' offsets in ascending order: a label's id is its place here. -/
def labelTable (marks : List ℕ) : List ℕ := (marks.insertionSort (· ≤ ·)).dedup

def labelAt (table : List ℕ) (offset : ℕ) : LabelId := ⟨table.idxOf offset⟩

/-- The label at `pc`, when there is one, with the lines that start there. -/
def labelNodes (table : List ℕ) (lines : List (UInt16 × UInt16)) (pc : ℕ) : List Node :=
  if pc ∈ table then
    .label (labelAt table pc) ::
      (lines.filter (·.1.toNat = pc)).map fun line => .line line.2 (labelAt table pc)
  else []

def catchTypeOf (pool : ConstantPoolView) (handler : ExcEntry) :
    Except MalformedCode (Option String) :=
  if handler.catchType = 0 then .ok none
  else some <$> SourcePool.cls ⟨pool, 0⟩ handler.catchType

/-- The nodes read at one instruction: its label and lines, and the instruction. -/
def nodesAt (body : CodeAttribute) (pool : ConstantPoolView) (table : List ℕ) (pc : ℕ) :
    Except MalformedCode (List Node) := do
  let insn ← decode body.code pc ⟨pool, pc⟩ fun offset => labelAt table offset.toNat
  .ok (labelNodes table body.lines pc ++ [.insn insn])

def blockOf (pool : ConstantPoolView) (table : List ℕ) (handler : ExcEntry) :
    Except MalformedCode TryCatchBlock := do
  let catchType ← catchTypeOf pool handler
  .ok { start := labelAt table handler.startPc.toNat, stop := labelAt table handler.endPc.toNat
        handler := labelAt table handler.handlerPc.toNat, catchType }

def localOf (table : List ℕ) (l : MethodLocal) : LocalVariable :=
  { name := l.name, desc := l.descriptor, start := labelAt table l.startPc.toNat
    stop := labelAt table (l.startPc.toNat + l.length.toNat), slot := l.slot }

/-- The label a range may have at the end of the code. -/
def endNodes (body : CodeAttribute) (table : List ℕ) : List Node :=
  if body.code.length ∈ table then [.label (labelAt table body.code.length)] else []

def MethodNode.readCode (access : UInt16) (name desc : String) (body : CodeAttribute)
    (pool : ConstantPoolView) : Except MalformedCode MethodNode := do
  let starts ← instructionStarts body.code body.code.length 0
  let marks ← markedOffsets body starts
  let table := labelTable marks
  let chunks ← starts.mapM (nodesAt body pool table)
  let tryCatchBlocks ← body.handlers.mapM (blockOf pool table)
  .ok { access, name, desc, nodes := chunks.flatten ++ endNodes body table, tryCatchBlocks
        localVariables := body.locals.map (localOf table)
        maxStack := body.maxStack, maxLocals := body.maxLocals, labelCount := table.length }

end Krusty.Jvm
