import Mathlib.Tactic

/-! The tree form of a method body: ASM's nodes, with symbolic operands and label targets. -/
namespace Krusty.Jvm

/-- A Kotlin string value, its UTF-16 code units. -/
structure KtString where
  units : List UInt16
  deriving DecidableEq

/-- One Unicode scalar as UTF-16. -/
def utf16Units (c : Char) : List UInt16 :=
  if c.val.toNat < 0x10000 then [UInt16.ofNat c.val.toNat]
  else [UInt16.ofNat (0xd800 + (c.val.toNat - 0x10000) / 0x400),
    UInt16.ofNat (0xdc00 + (c.val.toNat - 0x10000) % 0x400)]

def KtString.ofText (text : String) : KtString := ⟨text.toList.flatMap utf16Units⟩

def KtString.ofUnits (units : List UInt16) : KtString := ⟨units⟩

@[ext]
structure LabelId where
  index : ℕ
  deriving DecidableEq

/-- A method handle: a reference kind onto a field or method. -/
structure Handle where
  kind : UInt8
  owner : String
  name : String
  desc : String
  interface : Bool
  deriving DecidableEq

/-- A loadable constant. Floating-point constants are raw IEEE bits. -/
inductive Constant where
  | int (value : Int32)
  | float (bits : UInt32)
  | long (value : Int64)
  | double (bits : UInt64)
  | string (value : KtString)
  | cls (name : String)
  | methodType (desc : String)
  | handle (handle : Handle)
  deriving DecidableEq

/-- Whether the constant takes two stack words (`ldc2_w`). -/
def Constant.isWide : Constant → Bool
  | .long _ | .double _ => true
  | _ => false

/-- An instruction over labels of type `L`. The nodes of a body use `LabelId`; a decoder that
stops at byte offsets uses `ℤ`. -/
inductive Insn (L : Type) where
  | op (op : UInt8)
  | int (op : UInt8) (operand : Int32)
  | var (op : UInt8) (slot : UInt16)
  | iinc (slot : UInt16) (delta : Int16)
  | type (op : UInt8) (cls : String)
  | field (op : UInt8) (owner name desc : String)
  | method (op : UInt8) (owner name desc : String) (interface : Bool)
  | invokeDynamic (name desc : String) (bootstrap : Handle) (arguments : List Constant)
  | jump (op : UInt8) (target : L)
  | ldc (constant : Constant)
  | tableSwitch (low high : Int32) (default : L) (labels : List L)
  | lookupSwitch (default : L) (keys : List Int32) (labels : List L)
  | multiANewArray (desc : String) (dims : UInt8)
  deriving DecidableEq

inductive Node where
  | label (label : LabelId)
  | line (line : UInt16) (start : LabelId)
  | insn (insn : Insn LabelId)
  deriving DecidableEq

structure TryCatchBlock where
  start : LabelId
  stop : LabelId
  handler : LabelId
  catchType : Option String
  deriving DecidableEq

structure LocalVariable where
  name : String
  desc : String
  start : LabelId
  stop : LabelId
  slot : UInt16
  deriving DecidableEq

structure MethodNode where
  access : UInt16
  name : String
  desc : String
  nodes : List Node
  tryCatchBlocks : List TryCatchBlock
  localVariables : List LocalVariable
  maxStack : UInt16
  maxLocals : UInt16
  labelCount : ℕ
  deriving DecidableEq

namespace Insn

variable {L M N : Type}

def map (f : L → M) : Insn L → Insn M
  | op o => op o
  | int o operand => int o operand
  | var o slot => var o slot
  | iinc slot delta => iinc slot delta
  | type o c => type o c
  | field o owner name desc => field o owner name desc
  | method o owner name desc i => method o owner name desc i
  | invokeDynamic name desc b args => invokeDynamic name desc b args
  | jump o target => jump o (f target)
  | ldc c => ldc c
  | tableSwitch low high d ls => tableSwitch low high (f d) (ls.map f)
  | lookupSwitch d keys ls => lookupSwitch (f d) keys (ls.map f)
  | multiANewArray desc dims => multiANewArray desc dims

/-- The labels a jump or switch can transfer to, default first. -/
def jumpTargets : Insn L → List L
  | jump _ target => [target]
  | tableSwitch _ _ d ls => d :: ls
  | lookupSwitch d _ ls => d :: ls
  | _ => []

theorem map_map (f : L → M) (g : M → N) (insn : Insn L) :
    (insn.map f).map g = insn.map (g ∘ f) := by
  cases insn <;> simp [map]

theorem map_congr {f g : L → M} {insn : Insn L} (h : ∀ l ∈ insn.jumpTargets, f l = g l) :
    insn.map f = insn.map g := by
  cases insn <;> simp_all [map, jumpTargets]

theorem jumpTargets_map (f : L → M) (insn : Insn L) :
    (insn.map f).jumpTargets = insn.jumpTargets.map f := by
  cases insn <;> simp [map, jumpTargets]

end Insn

/-- `lo ..= hi` as an opcode pattern. -/
def opRange (lo hi op : UInt8) : Bool := lo ≤ op && op ≤ hi

/-- A fact about every opcode, checked case by case. -/
theorem forall_opcode {P : UInt8 → Prop} (h : ∀ n : Fin 256, P (UInt8.ofFin n)) (op : UInt8) :
    P op := h op.toFin

/-- The opcodes without an operand, as the reader lists them. -/
def isPlainOp (op : UInt8) : Bool :=
  opRange 0x00 0x0f op || opRange 0x2e 0x35 op || opRange 0x4f 0x83 op || opRange 0x85 0x98 op ||
    opRange 0xac 0xb1 op || op == 0xbe || op == 0xbf || op == 0xc2 || op == 0xc3

/-- `iload`…`aload`, `istore`…`astore` and `ret`, in their long-form opcodes. -/
def isVarOp (op : UInt8) : Bool := opRange 0x15 0x19 op || opRange 0x36 0x3a op || op == 0xa9

/-- A conditional branch, `goto` or `jsr`. -/
def isJumpOpcode (op : UInt8) : Bool := opRange 0x99 0xa8 op || op == 0xc6 || op == 0xc7

/-- What each kind of instruction node stands for: an opcode of the node's family, with an
immediate that fits its operand field. -/
def Insn.WellFormed {L : Type} : Insn L → Prop
  | .op o => isPlainOp o
  | .int o operand =>
      (o = 0x10 ∧ -2 ^ 7 ≤ operand.toInt ∧ operand.toInt < 2 ^ 7) ∨
      (o = 0x11 ∧ -2 ^ 15 ≤ operand.toInt ∧ operand.toInt < 2 ^ 15) ∨
      (o = 0xbc ∧ 0 ≤ operand.toInt ∧ operand.toInt < 2 ^ 8)
  | .var o _ => isVarOp o
  | .type o _ => o = 0xbb ∨ o = 0xbd ∨ o = 0xc0 ∨ o = 0xc1
  | .field o _ _ _ => opRange 0xb2 0xb5 o
  | .method o _ _ _ _ => opRange 0xb6 0xb9 o
  | _ => True

instance {L : Type} : (insn : Insn L) → Decidable insn.WellFormed
  | .op o => inferInstanceAs (Decidable (isPlainOp o = true))
  | .int _ _ => inferInstanceAs (Decidable (_ ∨ _ ∨ _))
  | .var o _ => inferInstanceAs (Decidable (isVarOp o = true))
  | .type _ _ => inferInstanceAs (Decidable (_ ∨ _ ∨ _ ∨ _))
  | .field o _ _ _ => inferInstanceAs (Decidable (opRange 0xb2 0xb5 o = true))
  | .method o _ _ _ _ => inferInstanceAs (Decidable (opRange 0xb6 0xb9 o = true))
  | .iinc _ _ | .invokeDynamic _ _ _ _ | .jump _ _ | .ldc _ | .tableSwitch _ _ _ _
  | .lookupSwitch _ _ _ | .multiANewArray _ _ => inferInstanceAs (Decidable True)

theorem Insn.WellFormed.map {L M : Type} {insn : Insn L} (h : insn.WellFormed) (f : L → M) :
    (insn.map f).WellFormed := by
  cases insn <;> exact h

def MethodNode.instructions (method : MethodNode) : List (Insn LabelId) :=
  method.nodes.filterMap fun
    | .insn insn => some insn
    | _ => none

end Krusty.Jvm

/-! What an instruction does to control flow, and where a method's labels stand. -/
namespace Krusty.Jvm

def nop : UInt8 := 0x00
def istore : UInt8 := 0x36
def astore : UInt8 := 0x3a
def iincOp : UInt8 := 0x84
def gotoOp : UInt8 := 0xa7
def jsr : UInt8 := 0xa8
def ret : UInt8 := 0xa9
def ireturn : UInt8 := 0xac
def returnOp : UInt8 := 0xb1
def athrow : UInt8 := 0xbf

/-- The opcode an instruction node stands for. -/
def opcode : Insn LabelId → UInt8
  | .op op | .int op _ | .var op _ | .type op _ | .field op _ _ _ | .method op _ _ _ _ | .jump op _ => op
  | .iinc _ _ => iincOp
  | .invokeDynamic _ _ _ _ => 0xba
  | .ldc _ => 0x12
  | .tableSwitch _ _ _ _ => 0xaa
  | .lookupSwitch _ _ _ => 0xab
  | .multiANewArray _ _ => 0xc5

/-- Whether control can fall through the instruction to the next node. -/
def Insn.fallsThrough : Insn LabelId → Bool
  | .tableSwitch _ _ _ _ | .lookupSwitch _ _ _ => false
  | .jump o _ => o != gotoOp && o != jsr
  | .op o => o != athrow && !opRange ireturn returnOp o
  | _ => true

/-- A jump or a switch. -/
def Insn.isBranch : Insn LabelId → Bool
  | .jump _ _ | .tableSwitch _ _ _ _ | .lookupSwitch _ _ _ => true
  | _ => false

/-- Where a label stands. The source's map keeps the last of two nodes with one label. -/
def MethodNode.position (method : MethodNode) (label : LabelId) : Option ℕ :=
  (method.nodes.zipIdx.reverse.find? fun (node, _) => node == .label label).map Prod.snd

theorem MethodNode.position_spec {method : MethodNode} {label : LabelId} {index : ℕ}
    (h : method.position label = some index) : method.nodes[index]? = some (.label label) := by
  unfold MethodNode.position at h
  obtain ⟨⟨node, i⟩, hfind, rfl⟩ := Option.map_eq_some_iff.mp h
  have hmem := List.mem_of_find?_eq_some hfind
  have hnode := List.find?_some hfind
  have hat := List.mem_zipIdx_iff_getElem?.mp (List.mem_reverse.mp hmem)
  simp only [beq_iff_eq] at hnode
  rw [← hnode]
  exact hat

theorem Insn.jumpTargets_eq_nil {insn : Insn LabelId} (h : insn.isBranch = false) :
    insn.jumpTargets = [] := by
  cases insn <;> first | rfl | cases h

end Krusty.Jvm
