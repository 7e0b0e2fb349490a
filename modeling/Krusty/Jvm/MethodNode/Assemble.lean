import Krusty.Jvm.Bytecode
import Krusty.Jvm.Descriptors

/-! Laying a `MethodNode` out as class-file bytes against some constant pool. -/
namespace Krusty.Jvm
open Bytes

/-- A constant pool a body can be assembled against: each call interns (or finds) an entry of
the pool in state `σ` and returns its index. -/
structure ConstantSink (σ : Type) where
  cls : σ → String → UInt16 × σ
  field : σ → (owner name desc : String) → UInt16 × σ
  method : σ → (owner name desc : String) → (interface : Bool) → UInt16 × σ
  constant : σ → Constant → UInt16 × σ
  invokeDynamic : σ → (name desc : String) → Handle → List Constant → UInt16 × σ

inductive AssembleError where
  | unplacedLabel (label : LabelId)
  | duplicateLabel (label : LabelId)
  | invalidJumpOpcode (op : UInt8)
  | invalidTableSwitch (low high : Int32) (labels : ℕ)
  | invalidLookupSwitch
  | invertedLocalRange (start stop : LabelId)
  | codeTooLarge
  | malformedDescriptor (desc : String)
  /-- An `expect` that does not hold: the assembler would panic. -/
  | panic (message : String)
  deriving DecidableEq

structure AssembledLocal where
  startPc : UInt16
  length : UInt16
  slot : UInt16
  name : String
  desc : String
  deriving DecidableEq

/-- A laid-out `Code` attribute, minus the frames the caller computes. -/
structure AssembledCode where
  maxStack : UInt16
  maxLocals : UInt16
  code : List UInt8
  exceptionTable : List (UInt16 × UInt16 × UInt16 × UInt16)
  lineNumbers : List (UInt16 × UInt16)
  localVariables : List AssembledLocal
  labelOffsets : List (Option UInt16)

/-- An instruction with its pool operands interned; only branch offsets are left to lay out. -/
inductive Encoded where
  | fixed (bytes : List UInt8)
  | jump (op : UInt8) (target : LabelId) (wide : Bool)
  | tableSwitch (low high : Int32) (default : LabelId) (labels : List LabelId)
  | lookupSwitch (default : LabelId) (keys : List Int32) (labels : List LabelId)
  deriving DecidableEq

inductive Item where
  | label (label : LabelId)
  | code (encoded : Encoded)
  deriving DecidableEq

def Encoded.sizeAt (pos : ℕ) : Encoded → ℕ
  | fixed bytes => bytes.length
  | jump op _ true => if op == 0xa7 || op == 0xa8 then 5 else 8
  | jump _ _ false => 3
  | tableSwitch _ _ _ labels => 1 + padding pos + 12 + 4 * labels.length
  | lookupSwitch _ _ labels => 1 + padding pos + 8 + 8 * labels.length

def withU2 (op : UInt8) (index : UInt16) : List UInt8 := op :: u2Bytes index

/-- The argument words an `invokeinterface` passes, receiver included. -/
def interfaceArgumentCount (desc : String) : Except AssembleError UInt8 :=
  match parseMethodDescriptor desc with
  | none => .error (.malformedDescriptor desc)
  | some (parameters, _) =>
    let words := (parameters.map fun p => if p == ['J'] || p == ['D'] then 2 else 1).sum
    if words + 1 < 256 then .ok (UInt8.ofNat (words + 1)) else .error (.malformedDescriptor desc)

/-- A local load, store or `ret`: the one-byte form for slots 0-3 (`ret` has none), the one-byte
operand up to slot 255, `wide` beyond. -/
def varEncoding (op : UInt8) (slot : UInt16) : List UInt8 :=
  if opRange 0x15 0x19 op && slot ≤ 3 then [0x1a + (op - 0x15) * 4 + slot.toUInt8]
  else if opRange 0x36 0x3a op && slot ≤ 3 then [0x3b + (op - 0x36) * 4 + slot.toUInt8]
  else if slot ≤ 255 then [op, slot.toUInt8]
  else 0xc4 :: withU2 op slot

/-- The conditional that skips a following `goto_w` when the original condition is false. -/
def inverseCondition (op : UInt8) : Option UInt8 :=
  [(0x99, 0x9a), (0x9a, 0x99), (0x9b, 0x9c), (0x9c, 0x9b), (0x9d, 0x9e), (0x9e, 0x9d),
    (0x9f, 0xa0), (0xa0, 0x9f), (0xa1, 0xa2), (0xa2, 0xa1), (0xa3, 0xa4), (0xa4, 0xa3),
    (0xa5, 0xa6), (0xa6, 0xa5), (0xc6, 0xc7), (0xc7, 0xc6)].lookup op

/-- An instruction's bytes, its operands interned into `sink`, where they do not depend on the
layout. -/
def encode {σ : Type} (sink : ConstantSink σ) (s : σ) :
    Insn LabelId → Except AssembleError (Encoded × σ)
  | .op o => .ok (.fixed [o], s)
  | .int o operand =>
    if o == 0x10 then .ok (.fixed [0x10, operand.toUInt32.toUInt8], s)
    else if o == 0x11 then .ok (.fixed (0x11 :: u2Bytes operand.toUInt32.toUInt16), s)
    else .ok (.fixed [o, operand.toUInt32.toUInt8], s)
  | .var o slot => .ok (.fixed (varEncoding o slot), s)
  | .iinc slot delta =>
    if slot ≤ 255 && -128 ≤ delta && delta ≤ 127 then
      .ok (.fixed [0x84, slot.toUInt8, delta.toUInt16.toUInt8], s)
    else .ok (.fixed (0xc4 :: 0x84 :: (u2Bytes slot ++ u2Bytes delta.toUInt16)), s)
  | .type o c =>
    let (index, s) := sink.cls s c
    .ok (.fixed (withU2 o index), s)
  | .field o owner name desc =>
    let (index, s) := sink.field s owner name desc
    .ok (.fixed (withU2 o index), s)
  | .method o owner name desc interface =>
    let (index, s) := sink.method s owner name desc interface
    if o == 0xb9 then do
      let count ← interfaceArgumentCount desc
      .ok (.fixed (withU2 o index ++ [count, 0]), s)
    else .ok (.fixed (withU2 o index), s)
  | .invokeDynamic name desc bootstrap arguments =>
    let (index, s) := sink.invokeDynamic s name desc bootstrap arguments
    .ok (.fixed (withU2 0xba index ++ [0, 0]), s)
  | .ldc constant =>
    let (index, s) := sink.constant s constant
    if constant.isWide then .ok (.fixed (withU2 0x14 index), s)
    else if index ≤ 255 then .ok (.fixed [0x12, index.toUInt8], s)
    else .ok (.fixed (withU2 0x13 index), s)
  | .multiANewArray desc dims =>
    let (index, s) := sink.cls s desc
    .ok (.fixed (withU2 0xc5 index ++ [dims]), s)
  | .jump o target =>
    if isJumpOpcode o then .ok (.jump o target false, s) else .error (.invalidJumpOpcode o)
  | .tableSwitch low high default labels =>
    let count := high.toInt - low.toInt + 1
    if count ≤ 0 ∨ count ≠ labels.length then
      .error (.invalidTableSwitch low high labels.length)
    else .ok (.tableSwitch low high default labels, s)
  | .lookupSwitch default keys labels =>
    if keys.length ≠ labels.length ∨ ¬ keys.IsChain (· < ·) then .error .invalidLookupSwitch
    else .ok (.lookupSwitch default keys labels, s)

/-- The items of a body: its labels and its encoded instructions, in node order. -/
def encodeNodes {σ : Type} (sink : ConstantSink σ) :
    List Node → σ → Except AssembleError (List Item × σ)
  | [], s => .ok ([], s)
  | .label l :: nodes, s => do
    let (items, s) ← encodeNodes sink nodes s
    .ok (.label l :: items, s)
  | .line _ _ :: nodes, s => encodeNodes sink nodes s
  | .insn insn :: nodes, s => do
    let (encoded, s) ← encode sink s insn
    let (items, s) ← encodeNodes sink nodes s
    .ok (.code encoded :: items, s)

/-- Every label is one the method handed out, placed at most once; `placed` holds those met. -/
def checkPlacements (labelCount : ℕ) : List Item → List LabelId → Except AssembleError Unit
  | [], _ => .ok ()
  | .code _ :: items, placed => checkPlacements labelCount items placed
  | .label l :: items, placed =>
    if labelCount ≤ l.index then .error (.unplacedLabel l)
    else if l ∈ placed then .error (.duplicateLabel l)
    else checkPlacements labelCount items (l :: placed)

def Item.sizeAt (pos : ℕ) : Item → ℕ
  | label _ => 0
  | code encoded => encoded.sizeAt pos

/-- The offset of each item laid out from `pos`, and of the end of the code. -/
def offsetsFrom : List Item → ℕ → List ℕ
  | [], pos => [pos]
  | item :: items, pos => pos :: offsetsFrom items (pos + item.sizeAt pos)

def placeLabel (table : List (Option ℕ)) : Item × ℕ → List (Option ℕ)
  | (.label l, offset) => table.set l.index (some offset)
  | (.code _, _) => table

def placeLabels (labelCount : ℕ) (items : List Item) (offsets : List ℕ) : List (Option ℕ) :=
  (items.zip offsets).foldl placeLabel (List.replicate labelCount none)

def offsetOf (table : List (Option ℕ)) (label : LabelId) : Except AssembleError ℕ :=
  match table[label.index]? with
  | some (some offset) => .ok offset
  | _ => .error (.unplacedLabel label)

/-- Whether a branch delta fits a signed 16-bit operand. -/
def fitsI16 (delta : ℤ) : Bool := -2 ^ 15 ≤ delta && delta < 2 ^ 15

/-- Widen every branch out of reach: the items, and whether one was widened. -/
def widen (table : List (Option ℕ)) :
    List (Item × ℕ) → Except AssembleError (List Item × Bool)
  | [] => .ok ([], false)
  | (.code (.jump op target wide), here) :: items => do
    let dest ← offsetOf table target
    let far := !wide && !fitsI16 ((dest : ℤ) - here)
    let (items, widened) ← widen table items
    .ok (.code (.jump op target (wide || far)) :: items, far || widened)
  | (item, _) :: items => do
    let (items, widened) ← widen table items
    .ok (item :: items, widened)

/-- The layout loop: switch padding depends on position and widening a branch moves everything
after it, so both are iterated to a fixed point. `none` is a loop that needs more than `fuel`
rounds. -/
def layoutLoop (labelCount : ℕ) :
    ℕ → List Item → List ℕ → Option (Except AssembleError (List Item × List ℕ))
  | 0, _, _ => none
  | fuel + 1, items, offsets =>
    let next := offsetsFrom items 0
    if next.getLastD 0 > 65535 then some (.error .codeTooLarge)
    else match widen (placeLabels labelCount items next) (items.zip next) with
      | .error e => some (.error e)
      | .ok (items', widened) =>
        if next = offsets ∧ !widened then some (.ok (items', next))
        else layoutLoop labelCount fuel items' next

def emitItem (table : List (Option ℕ)) (here : ℕ) : Item → Except AssembleError (List UInt8)
  | .label _ => .ok []
  | .code (.fixed bytes) => .ok bytes
  | .code (.jump op target false) => do
    let dest ← offsetOf table target
    if fitsI16 ((dest : ℤ) - here) then .ok (op :: intBytes 2 ((dest : ℤ) - here))
    else .error (.panic "layout widens every branch outside the signed-u16 range")
  | .code (.jump op target true) => do
    let dest ← offsetOf table target
    if op == 0xa7 || op == 0xa8 then
      .ok ((if op == 0xa7 then 0xc8 else 0xc9) :: intBytes 4 ((dest : ℤ) - here))
    else match inverseCondition op with
      | none => .error (.panic "only conditions reach this arm")
      | some inverse =>
        .ok (inverse :: intBytes 2 8 ++ 0xc8 :: intBytes 4 ((dest : ℤ) - (here + 3 : ℕ)))
  | .code (.tableSwitch low high default labels) => do
    let dest ← offsetOf table default
    let arms ← labels.mapM (offsetOf table)
    .ok (0xaa :: List.replicate (padding here) 0 ++ intBytes 4 ((dest : ℤ) - here) ++
      intBytes 4 low.toInt ++ intBytes 4 high.toInt ++
      arms.flatMap fun (arm : ℕ) => intBytes 4 ((arm : ℤ) - here))
  | .code (.lookupSwitch default keys labels) => do
    let dest ← offsetOf table default
    let arms ← labels.mapM (offsetOf table)
    .ok (0xab :: List.replicate (padding here) 0 ++ intBytes 4 ((dest : ℤ) - here) ++
      intBytes 4 keys.length ++
      (keys.zip arms).flatMap fun (pair : Int32 × ℕ) =>
        intBytes 4 pair.1.toInt ++ intBytes 4 ((pair.2 : ℤ) - here))

def emit (table : List (Option ℕ)) : List (Item × ℕ) → Except AssembleError (List UInt8)
  | [] => .ok []
  | (item, here) :: items => do
    let bytes ← emitItem table here item
    let rest ← emit table items
    .ok (bytes ++ rest)

def internCatchTypes {σ : Type} (sink : ConstantSink σ) :
    List TryCatchBlock → σ → List UInt16 × σ
  | [], s => ([], s)
  | block :: blocks, s =>
    let (index, s) := match block.catchType with
      | none => (0, s)
      | some name => sink.cls s name
    let (indices, s) := internCatchTypes sink blocks s
    (index :: indices, s)

def lineRows (table : List (Option ℕ)) :
    List Node → Except AssembleError (List (UInt16 × UInt16))
  | [] => .ok []
  | .line line start :: nodes => do
    let pc ← offsetOf table start
    let rows ← lineRows table nodes
    .ok ((UInt16.ofNat pc, line) :: rows)
  | _ :: nodes => lineRows table nodes

def exceptionRow (table : List (Option ℕ)) (block : TryCatchBlock) (catchType : UInt16) :
    Except AssembleError (UInt16 × UInt16 × UInt16 × UInt16) := do
  let start ← offsetOf table block.start
  let stop ← offsetOf table block.stop
  let handler ← offsetOf table block.handler
  .ok (UInt16.ofNat start, UInt16.ofNat stop, UInt16.ofNat handler, catchType)

def localRow (table : List (Option ℕ)) (l : LocalVariable) :
    Except AssembleError AssembledLocal := do
  let start ← offsetOf table l.start
  let stop ← offsetOf table l.stop
  if stop < start then .error (.invertedLocalRange l.start l.stop)
  else .ok { startPc := UInt16.ofNat start, length := UInt16.ofNat (stop - start)
             slot := l.slot, name := l.name, desc := l.desc }

/-- What follows the layout loop: the code and the tables, from the items and their offsets. -/
def MethodNode.finish (method : MethodNode) (catchTypes : List UInt16)
    (items : List Item) (offsets : List ℕ) : Except AssembleError AssembledCode := do
  let table := placeLabels method.labelCount items offsets
  let code ← emit table (items.zip offsets)
  let exceptionTable ← (method.tryCatchBlocks.zip catchTypes).mapM fun (block, catchType) =>
    exceptionRow table block catchType
  let lineNumbers ← lineRows table method.nodes
  let localVariables ← method.localVariables.mapM (localRow table)
  .ok { maxStack := method.maxStack, maxLocals := method.maxLocals, code, exceptionTable
        lineNumbers, localVariables
        labelOffsets := table.map fun offset => offset.map UInt16.ofNat }

/-- Lay the body out, interning its operands into `sink`, with at most `fuel` layout rounds. -/
def MethodNode.assemble {σ : Type} (sink : ConstantSink σ) (fuel : ℕ) (method : MethodNode)
    (s : σ) : Option (Except AssembleError (AssembledCode × σ)) :=
  let (catchTypes, s) := internCatchTypes sink method.tryCatchBlocks s
  match encodeNodes sink method.nodes s with
  | .error e => some (.error e)
  | .ok (items, s) =>
    match checkPlacements method.labelCount items [] with
    | .error e => some (.error e)
    | .ok () =>
      (layoutLoop method.labelCount fuel items (List.replicate (items.length + 1) 0)).map
        fun result => do
          let (items, offsets) ← result
          let code ← method.finish catchTypes items offsets
          .ok (code, s)

end Krusty.Jvm
