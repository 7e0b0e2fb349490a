import Krusty.Lib.BitFields
import Krusty.Native.Linker.Relocate

/-! The fields that relocations patch, read by the rules of each instruction set. -/
namespace Krusty.Native.Linker

open BitFields LittleEndian

/-- The bits that a field takes of the word at a site, and the values that the number they spell is
read as. -/
structure Field where
  bits : ℕ
  layout : Layout bits
  Spells : ℕ → ℤ → Prop

namespace Field

def Reads (f : Field) (w : BitVec f.bits) (v : ℤ) : Prop := f.Spells (f.layout.gather w) v

def Represents (f : Field) (v : ℤ) : Prop := ∃ w, f.Reads w v

/-- Bit `i` of the image is in the field at this site. -/
def Covers (f : Field) (site i : ℕ) : Prop := 8 * site ≤ i ∧ f.layout.mask.getLsbD (i - 8 * site) = true

/-- Two's complement in `n` bits. -/
def signed (n g : ℕ) : ℤ := Int.bmod g (2 ^ n)

/-- The sign-extended low 12 bits of a value. -/
def lo12 (v : ℤ) : ℤ := Int.bmod v 0x1000

def word64 : Field where
  bits := 64
  layout := .whole 64
  Spells g v := g = v ∨ signed 64 g = v

def word32 (Spells : ℕ → ℤ → Prop) : Field where
  bits := 32
  layout := .whole 32
  Spells

def signed32 : Field := word32 fun g v => signed 32 g = v

def unsigned32 : Field := word32 fun g v => g = v

/-- A 32-bit word of data, read either way. -/
def either32 : Field := word32 fun g v => g = v ∨ signed 32 g = v

/-- AArch64 `ADRP`: `immlo` in bits 30:29 and `immhi` in bits 23:5 count pages. -/
def adrp : Field where
  bits := 32
  layout := ⟨[⟨29, 0, 2⟩, ⟨5, 2, 19⟩], by decide, by decide⟩
  Spells g v := signed 21 g * 0x1000 = v

/-- AArch64 `imm12` in bits 21:10, scaled by the access size: the offset within a page. -/
def imm12 (shift : ℕ) : Field where
  bits := 32
  layout := ⟨[⟨10, 0, 12⟩], by decide, by decide⟩
  Spells g v := (g : ℤ) * 2 ^ shift = v % 0x1000

/-- AArch64 `imm26` of a branch, in words. -/
def imm26 : Field where
  bits := 32
  layout := ⟨[⟨0, 0, 26⟩], by decide, by decide⟩
  Spells g v := signed 26 g * 4 = v

/-- RISC-V B-type: `imm[12|10:5]` in bits 31:25, `imm[4:1|11]` in bits 11:7. -/
def branch : Field where
  bits := 32
  layout := ⟨[⟨31, 12, 1⟩, ⟨25, 5, 6⟩, ⟨8, 1, 4⟩, ⟨7, 11, 1⟩], by decide, by decide⟩
  Spells g v := signed 13 g = v

/-- RISC-V J-type: `imm[20|10:1|11|19:12]` in bits 31:12. -/
def jump : Field where
  bits := 32
  layout := ⟨[⟨31, 20, 1⟩, ⟨21, 1, 10⟩, ⟨20, 11, 1⟩, ⟨12, 12, 8⟩], by decide, by decide⟩
  Spells g v := signed 21 g = v

/-- RISC-V U-type: `imm[31:12]` in bits 31:12, the high part of a value whose partner adds its low 12 bits. -/
def upper : Field where
  bits := 32
  layout := ⟨[⟨12, 12, 20⟩], by decide, by decide⟩
  Spells g v := signed 32 g + lo12 v = v

/-- RISC-V I-type: `imm[11:0]` in bits 31:20. -/
def lowerI : Field where
  bits := 32
  layout := ⟨[⟨20, 0, 12⟩], by decide, by decide⟩
  Spells g v := signed 12 g = lo12 v

/-- RISC-V S-type: `imm[11:5]` in bits 31:25, `imm[4:0]` in bits 11:7. -/
def lowerS : Field where
  bits := 32
  layout := ⟨[⟨25, 5, 7⟩, ⟨7, 0, 5⟩], by decide, by decide⟩
  Spells g v := signed 12 g = lo12 v

/-- An `auipc` and the `jalr` in the next word: a U-type immediate and an I-type one, added. -/
def call : Field where
  bits := 64
  layout := ⟨[⟨12, 12, 20⟩, ⟨52, 0, 12⟩], by decide, by decide⟩
  Spells g v := signed 32 (g / 0x1000 * 0x1000) + signed 12 (g % 0x1000) = v

/-- RISC-V CB-type: `imm[8|4:3]` in bits 12:10, `imm[7:6|2:1|5]` in bits 6:2. -/
def cBranch : Field where
  bits := 16
  layout := ⟨[⟨12, 8, 1⟩, ⟨10, 3, 2⟩, ⟨5, 6, 2⟩, ⟨3, 1, 2⟩, ⟨2, 5, 1⟩], by decide, by decide⟩
  Spells g v := signed 9 g = v

/-- RISC-V CJ-type: `imm[11|4|9:8|10|6|7|3:1|5]` in bits 12:2. -/
def cJump : Field where
  bits := 16
  layout := ⟨[⟨12, 11, 1⟩, ⟨11, 4, 1⟩, ⟨9, 8, 2⟩, ⟨8, 10, 1⟩, ⟨7, 6, 1⟩, ⟨6, 7, 1⟩, ⟨3, 1, 3⟩, ⟨2, 5, 1⟩],
    by decide, by decide⟩
  Spells g v := signed 12 g = v

-- `beq a0, a1, +12`, `jal ra, +8`, `c.beqz a0, +4`, `c.j +2`, `adrp x1, #0x10000`
example : branch.layout.gather 0x00b50663#32 = 12 := by decide
example : jump.layout.gather 0x008000ef#32 = 8 := by decide
example : cBranch.layout.gather 0xc111#16 = 4 := by decide
example : cJump.layout.gather 0xa009#16 = 2 := by decide
example : adrp.layout.gather 0x90000081#32 = 0x10 := by decide

/-- A hint: no bit is patched. -/
def hint : Field where
  bits := 0
  layout := ⟨[], by decide, by decide⟩
  Spells _ _ := True

end Field

namespace Reloc

def absolute (r : Reloc) : ℤ := r.s.toNat + r.a.toInt

def relative (r : Reloc) : ℤ := r.absolute - r.p.toNat

/-- The distance between the page of the target and the page of the site. -/
def pageDelta (r : Reloc) : ℤ := r.absolute / 0x1000 * 0x1000 - r.p.toNat / 0x1000 * 0x1000

end Reloc

/-- What a relocation kind wants its field to spell. -/
inductive Operand
  | absolute
  | relative
  | pageDelta
  | paired
deriving DecidableEq

/-- The `PCREL_HI20` whose `auipc` is at an address; the last one where there are several. -/
def hi20 (relocations : List Reloc) (address : UInt64) : Option Reloc :=
  (relocations.filter fun h => h.rType = 23 ∧ h.p = address).getLast?

def Operand.value (relocations : List Reloc) (r : Reloc) : Operand → Option ℤ
  | .absolute => some r.absolute
  | .relative => some r.relative
  | .pageDelta => some r.pageDelta
  | .paired => (hi20 relocations r.s).map Reloc.relative

/-- The relocation kinds of the ABI documents that the linker implements. -/
def kind : Arch → UInt32 → Option (Field × Operand)
  | .x86_64, 1 => some (.word64, .absolute)
  | .x86_64, 2 => some (.signed32, .relative)
  | .x86_64, 4 => some (.signed32, .relative)
  | .x86_64, 10 => some (.unsigned32, .absolute)
  | .x86_64, 11 => some (.signed32, .absolute)
  | .aarch64, 257 => some (.word64, .absolute)
  | .aarch64, 261 => some (.signed32, .relative)
  | .aarch64, 275 => some (.adrp, .pageDelta)
  | .aarch64, 277 => some (.imm12 0, .absolute)
  | .aarch64, 278 => some (.imm12 0, .absolute)
  | .aarch64, 284 => some (.imm12 1, .absolute)
  | .aarch64, 285 => some (.imm12 2, .absolute)
  | .aarch64, 286 => some (.imm12 3, .absolute)
  | .aarch64, 299 => some (.imm12 4, .absolute)
  | .aarch64, 282 => some (.imm26, .relative)
  | .aarch64, 283 => some (.imm26, .relative)
  | .riscv64, 2 => some (.word64, .absolute)
  | .riscv64, 1 => some (.either32, .absolute)
  | .riscv64, 16 => some (.branch, .relative)
  | .riscv64, 17 => some (.jump, .relative)
  | .riscv64, 18 => some (.call, .relative)
  | .riscv64, 19 => some (.call, .relative)
  | .riscv64, 23 => some (.upper, .relative)
  | .riscv64, 24 => some (.lowerI, .paired)
  | .riscv64, 25 => some (.lowerS, .paired)
  | .riscv64, 26 => some (.upper, .absolute)
  | .riscv64, 27 => some (.lowerI, .absolute)
  | .riscv64, 28 => some (.lowerS, .absolute)
  | .riscv64, 44 => some (.cBranch, .relative)
  | .riscv64, 45 => some (.cJump, .relative)
  | .riscv64, 43 => some (.hint, .absolute)
  | .riscv64, 51 => some (.hint, .absolute)
  | _, _ => none

end Krusty.Native.Linker
