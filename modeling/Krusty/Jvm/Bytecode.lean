import Krusty.Lib.Bytes
import Krusty.Jvm.MethodNode.Nodes

/-! JVM instruction lengths, and krusty's stand-in for codegen's marker calls. -/
namespace Krusty.Jvm
open Bytes

/-- The padding after a switch opcode at `pc` that aligns its operands to four bytes. -/
def padding (pc : ℕ) : ℕ := (4 - (pc + 1) % 4) % 4

/-- The opcode krusty writes in place of a call of `InlineMarker`. -/
def codegenMarkerOp : UInt8 := 0xff

/-- The length of an instruction whose opcode fixes it. -/
def fixedLen (op : UInt8) : ℕ :=
  if op == 0x10 || op == 0x12 || opRange 0x15 0x19 op || opRange 0x36 0x3a op || op == 0xa9 ||
      op == 0xbc then 2
  else if op == 0x11 || op == 0x13 || op == 0x14 || op == 0x84 || opRange 0x99 0xa8 op ||
      opRange 0xb2 0xb8 op || op == 0xbb || op == 0xbd || op == 0xc0 || op == 0xc1 ||
      op == 0xc6 || op == 0xc7 then 3
  else if op == 0xc5 then 4
  else if op == 0xfe then 4
  else if op == codegenMarkerOp then 2
  else if op == 0xb9 || op == 0xba || op == 0xc8 || op == 0xc9 then 5
  else 1

/-- The length the operands at `pc` give their instruction, before the bounds check. -/
def declaredLen (code : List UInt8) (pc : ℕ) (op : UInt8) : Option ℕ :=
  if op == 0xc4 then do
    let prefixed ← code[pc + 1]?
    if prefixed == 0x84 then some 6 else if isVarOp prefixed then some 4 else none
  else if op == 0xaa then do
    let operands := pc + 1 + padding pc
    let low ← i4? code (operands + 4)
    let high ← i4? code (operands + 8)
    let count := high.toInt - low.toInt + 1
    if 0 < count then some (operands + 12 + count.toNat * 4 - pc) else none
  else if op == 0xab then do
    let operands := pc + 1 + padding pc
    let pairs ← i4? code (operands + 4)
    if 0 ≤ pairs.toInt then some (operands + 8 + pairs.toInt.toNat * 8 - pc) else none
  else some (fixedLen op)

/-- The length in bytes of the instruction at `pc`; `none` for an out-of-range, malformed or
truncated one. -/
def instructionLen (code : List UInt8) (pc : ℕ) : Option ℕ := do
  let op ← code[pc]?
  let len ← declaredLen code pc op
  if pc + len ≤ code.length then some len else none

theorem fixedLen_pos (op : UInt8) : 0 < fixedLen op := by
  unfold fixedLen
  split_ifs <;> decide

variable {code : List UInt8}

theorem declaredLen_pos {pc len : ℕ} {op : UInt8} (h : declaredLen code pc op = some len) : 0 < len := by
  unfold declaredLen at h
  split_ifs at h
  · simp only [Option.bind_eq_bind, Option.bind_eq_some_iff] at h
    obtain ⟨w, -, h⟩ := h
    split_ifs at h <;> simp at h <;> omega
  · simp only [Option.bind_eq_bind, Option.bind_eq_some_iff] at h
    obtain ⟨low, -, high, -, h⟩ := h
    split_ifs at h
    simp at h
    omega
  · simp only [Option.bind_eq_bind, Option.bind_eq_some_iff] at h
    obtain ⟨pairs, -, h⟩ := h
    split_ifs at h
    simp at h
    omega
  · have := fixedLen_pos op
    simp at h
    omega

theorem instructionLen_eq_some {pc len : ℕ} : instructionLen code pc = some len ↔
      ∃ op, code[pc]? = some op ∧ declaredLen code pc op = some len ∧ pc + len ≤ code.length := by
  simp only [instructionLen, Option.bind_eq_bind, Option.bind_eq_some_iff]
  constructor
  · rintro ⟨op, hop, l, hl, h⟩
    split_ifs at h with hle
    exact ⟨op, hop, by rw [hl, h], by simpa using (Option.some.inj h) ▸ hle⟩
  · rintro ⟨op, hop, hl, hle⟩
    exact ⟨op, hop, len, hl, if_pos hle⟩

theorem instructionLen_pos {pc len : ℕ}
    (h : instructionLen code pc = some len) : 0 < len ∧ pc + len ≤ code.length := by
  obtain ⟨op, -, hl, hle⟩ := instructionLen_eq_some.mp h
  exact ⟨declaredLen_pos hl, hle⟩

/-- Which `InlineMarker` method a marker opcode stands for. -/
inductive CodegenMarker where
  | mark
  | beforeInlineCall
  | afterInlineCall
  | beforeInlineCallWithReservedLocals
  deriving DecidableEq

namespace CodegenMarker

def owner : String := "kotlin/jvm/internal/InlineMarker"

def fromOperand (operand : UInt8) : Option CodegenMarker :=
  if operand == 1 then some mark
  else if operand == 2 then some beforeInlineCall
  else if operand == 3 then some afterInlineCall
  else if operand == 4 then some beforeInlineCallWithReservedLocals
  else none

/-- The `InlineMarker` method's name and descriptor. -/
def method : CodegenMarker → String × String
  | mark => ("mark", "(I)V")
  | beforeInlineCall => ("beforeInlineCall", "()V")
  | afterInlineCall => ("afterInlineCall", "()V")
  | beforeInlineCallWithReservedLocals => ("beforeInlineCallWithReservedLocals", "()V")

end CodegenMarker

end Krusty.Jvm
