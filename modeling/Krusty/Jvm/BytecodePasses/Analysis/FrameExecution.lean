import Krusty.Jvm.Opcodes
import Krusty.Jvm.BytecodePasses.Analysis.FastAnalyzer

/-! ASM's `Frame.execute`: how an instruction transforms the frame before it. -/
namespace Krusty.Jvm.BytecodePasses

/-- An interpreter with what each kind of instruction makes of its operands. No result is an instruction
that produces nothing. -/
structure Operations (V : Type) extends Interpreter V where
  /-- The words a value occupies. -/
  size : V → ℕ
  newOperation : ℕ → Insn LabelId → Except AnalyzerError V
  copyOperation : ℕ → Insn LabelId → V → Except AnalyzerError V
  unaryOperation : ℕ → Insn LabelId → V → Except AnalyzerError (Option V)
  binaryOperation : ℕ → Insn LabelId → V → V → Except AnalyzerError (Option V)
  ternaryOperation : ℕ → Insn LabelId → V → V → V → Except AnalyzerError (Option V)
  naryOperation : ℕ → Insn LabelId → List V → Except AnalyzerError (Option V)
  returnOperation : ℕ → Insn LabelId → V → V → Except AnalyzerError Unit

def hexDigit (n : ℕ) : Char := ("0123456789abcdef".toList)[n]?.getD '?'

def hexByte (op : UInt8) : String := "0x" ++ String.ofList [hexDigit (op.toNat / 16), hexDigit (op.toNat % 16)]

section Stack

variable {V : Type} (O : Operations V) (index : ℕ) (insn : Insn LabelId)

/-- The stacks of these definitions have their top first. -/
def pop : List V → Except AnalyzerError (V × List V)
  | [] => .error ⟨index, "cannot pop an empty operand stack"⟩
  | value :: stack => .ok (value, stack)

def popWord (stack : List V) : Except AnalyzerError (V × List V) := do
  let (value, stack) ← pop index stack
  if O.size value ≠ 1 then
    throw ⟨index, "a one-word value was expected"⟩
  return (value, stack)

/-- The top values, the last one pushed first. -/
def popMany : ℕ → List V → Except AnalyzerError (List V × List V)
  | 0, stack => .ok ([], stack)
  | count + 1, stack => do
    let (value, stack) ← pop index stack
    let (values, stack) ← popMany count stack
    return (value :: values, stack)

def pushResult (result : Option V) (stack : List V) : Except AnalyzerError (List V) :=
  match result with
  | some value => .ok (value :: stack)
  | none => .error ⟨index, "the interpreter produced no value"⟩

/-- `pop`…`swap`. -/
def executeShuffle (op : UInt8) (stack : List V) : Except AnalyzerError (List V) :=
  if op = popOp then do
    let (_, stack) ← popWord O index stack
    return stack
  else if op = pop2Op then do
    let (first, stack) ← pop index stack
    if O.size first = 1 then do
      let (_, stack) ← popWord O index stack
      return stack
    else return stack
  else if op = dupOp then do
    let (value, stack) ← popWord O index stack
    let copy ← O.copyOperation index insn value
    return copy :: value :: stack
  else if op = dupX1Op then do
    let (first, stack) ← popWord O index stack
    let (second, stack) ← popWord O index stack
    let copy ← O.copyOperation index insn first
    return first :: second :: copy :: stack
  else if op = dupX2Op then do
    let (first, stack) ← popWord O index stack
    let (second, stack) ← pop index stack
    let copy ← O.copyOperation index insn first
    if O.size second = 1 then do
      let (third, stack) ← popWord O index stack
      return first :: second :: third :: copy :: stack
    else return first :: second :: copy :: stack
  else if op = dup2Op then do
    let (first, stack) ← pop index stack
    if O.size first = 1 then do
      let (second, stack) ← popWord O index stack
      let copySecond ← O.copyOperation index insn second
      let copyFirst ← O.copyOperation index insn first
      return copyFirst :: copySecond :: first :: second :: stack
    else do
      let copy ← O.copyOperation index insn first
      return copy :: first :: stack
  else if op = dup2X1Op then do
    let (first, stack) ← pop index stack
    if O.size first = 1 then do
      let (second, stack) ← popWord O index stack
      let (third, stack) ← popWord O index stack
      let copySecond ← O.copyOperation index insn second
      let copyFirst ← O.copyOperation index insn first
      return first :: second :: third :: copyFirst :: copySecond :: stack
    else do
      let (second, stack) ← popWord O index stack
      let copy ← O.copyOperation index insn first
      return first :: second :: copy :: stack
  else if op = dup2X2Op then do
    let (first, stack) ← pop index stack
    if O.size first = 1 then do
      let (second, stack) ← popWord O index stack
      let (third, stack) ← pop index stack
      let copySecond ← O.copyOperation index insn second
      let copyFirst ← O.copyOperation index insn first
      if O.size third = 1 then do
        let (fourth, stack) ← popWord O index stack
        return first :: second :: third :: fourth :: copyFirst :: copySecond :: stack
      else return first :: second :: third :: copyFirst :: copySecond :: stack
    else do
      let (second, stack) ← pop index stack
      let copy ← O.copyOperation index insn first
      if O.size second = 1 then do
        let (third, stack) ← popWord O index stack
        return first :: second :: third :: copy :: stack
      else return first :: second :: copy :: stack
  else do
    let (second, stack) ← popWord O index stack
    let (first, stack) ← popWord O index stack
    let copySecond ← O.copyOperation index insn second
    let copyFirst ← O.copyOperation index insn first
    return copyFirst :: copySecond :: stack

/-- How many values a call takes off the stack, and whether it leaves one. -/
def callShape : Except AnalyzerError (ℕ × Bool) := do
  let desc ← match insn with
    | .method _ _ _ desc _ | .invokeDynamic _ desc _ _ => pure desc
    | _ => throw (⟨index, "an invocation without a descriptor"⟩ : AnalyzerError)
  match argumentTypes desc with
  | none => throw ⟨index, "malformed method descriptor"⟩
  | some arguments =>
    let op := opcode insn
    let receiver := if op ≠ invokestatic ∧ op ≠ invokedynamic then 1 else 0
    return (arguments.length + receiver, decide (returnType desc ≠ some "V"))

/-- An instruction that leaves the locals alone. -/
def operate (returnValue : Option V) (stack : List V) : Except AnalyzerError (List V) :=
  let op := opcode insn
  if op = nop ∨ op = gotoOp then .ok stack
  else if opRange aconstNull ldc2W op ∨ op = getstatic ∨ op = newOp then do
    let value ← O.newOperation index insn
    return value :: stack
  else if opRange iaload saload op ∨ opRange iadd drem op ∨ opRange ishl lxor op ∨ opRange lcmp dcmpg op ∨
      opRange ifIcmpeq ifAcmpne op then do
    let (second, stack) ← pop index stack
    let (first, stack) ← pop index stack
    let result ← O.binaryOperation index insn first second
    if opRange ifIcmpeq ifAcmpne op then return stack else pushResult index result stack
  else if opRange iastore sastore op then do
    let (third, stack) ← pop index stack
    let (second, stack) ← pop index stack
    let (first, stack) ← pop index stack
    let _ ← O.ternaryOperation index insn first second third
    return stack
  else if opRange popOp swapOp op then executeShuffle O index insn op stack
  else if opRange ineg dneg op ∨ opRange i2l i2s op ∨ op = getfield ∨ op = newarray ∨ op = anewarray ∨
      op = arraylength ∨ op = checkcast ∨ op = instanceof then do
    let (value, stack) ← pop index stack
    let result ← O.unaryOperation index insn value
    pushResult index result stack
  else if opRange ifeq ifle op ∨ op = tableswitch ∨ op = lookupswitch ∨ op = putstatic ∨ op = athrow ∨
      op = monitorenter ∨ op = monitorexit ∨ op = ifnull ∨ op = ifnonnull then do
    let (value, stack) ← pop index stack
    let _ ← O.unaryOperation index insn value
    return stack
  else if opRange ireturn areturn op then do
    let (value, stack) ← pop index stack
    let _ ← O.unaryOperation index insn value
    match returnValue with
    | some expected => do
      O.returnOperation index insn value expected
      return stack
    | none => return stack
  else if op = returnOp then
    if returnValue.isSome then .error ⟨index, "a void return from a non-void method"⟩ else .ok stack
  else if op = putfield then do
    let (second, stack) ← pop index stack
    let (first, stack) ← pop index stack
    let _ ← O.binaryOperation index insn first second
    return stack
  else if opRange invokevirtual invokedynamic op then do
    let (count, produces) ← callShape index insn
    let (values, stack) ← popMany index count stack
    let result ← O.naryOperation index insn values.reverse
    if produces then pushResult index result stack else return stack
  else if op = multianewarray then
    match insn with
    | .multiANewArray _ dims => do
      let (values, stack) ← popMany index dims.toNat stack
      let result ← O.naryOperation index insn values.reverse
      pushResult index result stack
    | _ => .error ⟨index, "a multianewarray without its dimensions"⟩
  else .error ⟨index, "unsupported opcode " ++ hexByte op⟩

end Stack

section Locals

variable {V : Type} (O : Operations V) (index : ℕ)

def varSlot : Insn LabelId → Except AnalyzerError ℕ
  | .var _ slot => .ok slot.toNat
  | _ => .error ⟨index, "a local access without its slot"⟩

def pastMaxLocals (slot : ℕ) : AnalyzerError := ⟨index, "local " ++ toString slot ++ " past max_locals"⟩

def localAt (locals : List V) (slot : ℕ) : Except AnalyzerError V :=
  match locals[slot]? with
  | some value => .ok value
  | none => .error (pastMaxLocals index slot)

def setLocal (locals : List V) (slot : ℕ) (value : V) : Except AnalyzerError (List V) :=
  if slot < locals.length then .ok (locals.set slot value) else .error (pastMaxLocals index slot)

/-- The locals after a store. A wide value takes the slot above too, and takes over the second word of a
wide value below. -/
def storeLocal (locals : List V) (slot : ℕ) (value : V) : Except AnalyzerError (List V) := do
  let locals ← setLocal index locals slot value
  let locals ← if O.size value = 2 then setLocal index locals (slot + 1) O.newEmptyValue else pure locals
  if 0 < slot ∧ (locals[slot - 1]?.map O.size) = some 2 then setLocal index locals (slot - 1) O.newEmptyValue
  else return locals

/-- ASM's `Frame.execute`. -/
def Operations.execute : Executor V := fun index insn frame =>
  let op := opcode insn
  if opRange iload aload op then do
    let slot ← varSlot index insn
    let value ← localAt index frame.locals slot
    let copy ← O.copyOperation index insn value
    return { frame with stack := frame.stack ++ [copy] }
  else if opRange istore astore op then do
    let slot ← varSlot index insn
    let (popped, stack) ← pop index frame.stack.reverse
    let value ← O.copyOperation index insn popped
    let locals ← storeLocal O index frame.locals slot value
    return { frame with locals := locals, stack := stack.reverse }
  else if op = iincOp then
    match insn with
    | .iinc slot _ => do
      let value ← localAt index frame.locals slot.toNat
      let result ← O.unaryOperation index insn value
      match result with
      | none => .error ⟨index, "iinc produced no value"⟩
      | some result => do
        let locals ← setLocal index frame.locals slot.toNat result
        return { frame with locals := locals }
    | _ => .error ⟨index, "an iinc without its operands"⟩
  else do
    let stack ← operate O index insn frame.returnValue frame.stack.reverse
    return { frame with stack := stack.reverse }

end Locals

end Krusty.Jvm.BytecodePasses
