import Krusty.Lib.LittleEndian

/-! Applying relocations: each architecture's relocation kinds, patched into the linked image. -/
namespace Krusty.Native.Linker

open Bytes LittleEndian

inductive Arch
  | x86_64
  | aarch64
  | riscv64
deriving DecidableEq

/-- The errors that applying relocations and writing interface calls can end with. -/
inductive ProgramLinkError
  | parse (message : String)
  | duplicateSymbol (message : String)
  | unsupportedRelocation (arch : Arch) (rType : UInt32)
  | relocationOutOfRange (message : String)
  | unsupported (message : String)
deriving DecidableEq

/-- One relocation, resolved: where it is, what it points at. `site` and `sectionEnd` are offsets in
the image, `p` the address of the site, `s` the value of the symbol and `a` the addend. -/
structure Reloc where
  rType : UInt32
  site : ℕ
  sectionEnd : ℕ
  p : UInt64
  s : UInt64
  a : Int64
deriving DecidableEq

def hex (n : ℕ) : String := "0x" ++ String.ofList (Nat.toDigits 16 n)

namespace Reloc

/-- The `n` bytes `offset` bytes past the site, which must lie within the site's section. -/
def field (r : Reloc) (n : ℕ) (image : List UInt8) (offset : ℕ) : Except ProgramLinkError (List UInt8) :=
  let start := r.site + offset
  match if start + n ≤ r.sectionEnd then slice? image start n else none with
  | some bytes => .ok bytes
  | none =>
    .error (.parse ("relocation type " ++ toString r.rType ++ " at " ++ hex r.p.toNat ++
      " reaches past the end of its section"))

def set64 (r : Reloc) (image : List UInt8) (value : BitVec 64) : Except ProgramLinkError (List UInt8) := do
  let _ ← r.field 8 image 0
  return write image r.site (leBytes 8 value.toNat)

/-- Rewrite the 32-bit word `offset` bytes past the site as `patch` of its current value. -/
def update32 (r : Reloc) (image : List UInt8) (offset : ℕ) (patch : BitVec 32 → BitVec 32) :
    Except ProgramLinkError (List UInt8) := do
  let field ← r.field 4 image offset
  return write image (r.site + offset) (leBytes 4 (patch (BitVec.ofNat 32 (leNat field))).toNat)

def update16 (r : Reloc) (image : List UInt8) (patch : BitVec 16 → BitVec 16) :
    Except ProgramLinkError (List UInt8) := do
  let field ← r.field 2 image 0
  return write image r.site (leBytes 2 (patch (BitVec.ofNat 16 (leNat field))).toNat)

end Reloc

def outOfRange (what : String) (value : ℤ) (p : UInt64) : ProgramLinkError :=
  let sign := if value < 0 then "-" else ""
  .relocationOutOfRange (what ++ ": value " ++ sign ++ hex value.natAbs ++ " at " ++ hex p.toNat)

/-- Does `value` fit in a signed field of `bits` bits? -/
def fitsSigned (value : ℤ) (bits : ℕ) : Bool :=
  let min : ℤ := -2 ^ (bits - 1)
  let max : ℤ := 2 ^ (bits - 1) - 1
  min ≤ value ∧ value ≤ max

/-- `S + A` and `S + A - P`, exactly. -/
def expressions (r : Reloc) : ℤ × ℤ :=
  let sPlusA := (r.s.toNat : ℤ) + r.a.toInt
  (sPlusA, sPlusA - r.p.toNat)

/-- A 64-bit field holds any value 64 bits can spell, whether it is read as signed or unsigned. -/
def setWord64 (image : List UInt8) (r : Reloc) (value : ℤ) (what : String) :
    Except ProgramLinkError (List UInt8) :=
  if ¬(-2 ^ 63 ≤ value ∧ value ≤ 2 ^ 64 - 1) then .error (outOfRange what value r.p)
  else r.set64 image (BitVec.ofInt 64 value)

def relocateX86_64 (image : List UInt8) (r : Reloc) : Except ProgramLinkError (List UInt8) :=
  let (sPlusA, pcRelative) := expressions r
  match r.rType with
  | 1 => setWord64 image r sPlusA "64"
  -- a static link has no PLT, so PLT32 is PC-relative to S as well
  | 2 | 4 =>
    if !fitsSigned pcRelative 32 then .error (outOfRange "PC32" pcRelative r.p)
    else r.update32 image 0 fun _ => BitVec.ofInt 32 pcRelative
  | 10 =>
    if ¬(0 ≤ sPlusA ∧ sPlusA < 2 ^ 32) then .error (outOfRange "32" sPlusA r.p)
    else r.update32 image 0 fun _ => BitVec.ofInt 32 sPlusA
  | 11 =>
    if !fitsSigned sPlusA 32 then .error (outOfRange "32S" sPlusA r.p)
    else r.update32 image 0 fun _ => BitVec.ofInt 32 sPlusA
  | other => .error (.unsupportedRelocation .x86_64 other)

/-- Insert the low 12 bits of `x`, scaled down by the access size `1 << shift`, into the imm12 field
(bits 21:10) of an `ADD`/`LDR`/`STR`. -/
def aarch64Lo12 (image : List UInt8) (r : Reloc) (x : ℤ) (shift : ℕ) (what : String) :
    Except ProgramLinkError (List UInt8) :=
  if BitVec.ofInt 64 x &&& ((1#64 <<< shift) - 1) ≠ 0 then
    .error (outOfRange (what ++ ": target is not " ++ toString (1 <<< shift) ++ "-byte aligned") x r.p)
  else
    let field := ((BitVec.ofInt 64 x &&& 0xfff) >>> shift).setWidth 32
    r.update32 image 0 fun instruction => (instruction &&& ~~~(0xfff#32 <<< 10)) ||| (field <<< 10)

/-- Masks with `0xfff` and `3` of the wide sums are written as remainders. -/
def relocateAarch64 (image : List UInt8) (r : Reloc) : Except ProgramLinkError (List UInt8) :=
  let (x, rel) := expressions r
  match r.rType with
  | 257 => setWord64 image r x "ABS64"
  | 261 =>
    if !fitsSigned rel 32 then .error (outOfRange "PREL32" rel r.p)
    else r.update32 image 0 fun _ => BitVec.ofInt 32 rel
  | 275 =>
    let pageDelta := (x - x % 0x1000) - ((r.p &&& ~~~0xfff).toNat : ℤ)
    if !fitsSigned pageDelta 33 then .error (outOfRange "ADR_PREL_PG_HI21" pageDelta r.p)
    else
      let pages := BitVec.ofInt 64 (pageDelta >>> (12 : ℕ))
      let immlo := (pages &&& 0x3).setWidth 32 <<< 29
      let immhi := ((pages >>> 2) &&& 0x7ffff).setWidth 32 <<< 5
      r.update32 image 0 fun instruction =>
        (instruction &&& ~~~((0x3#32 <<< 29) ||| (0x7ffff#32 <<< 5))) ||| immlo ||| immhi
  | 277 => aarch64Lo12 image r x 0 "ADD_ABS_LO12_NC"
  | 278 => aarch64Lo12 image r x 0 "LDST8_ABS_LO12_NC"
  | 284 => aarch64Lo12 image r x 1 "LDST16_ABS_LO12_NC"
  | 285 => aarch64Lo12 image r x 2 "LDST32_ABS_LO12_NC"
  | 286 => aarch64Lo12 image r x 3 "LDST64_ABS_LO12_NC"
  | 299 => aarch64Lo12 image r x 4 "LDST128_ABS_LO12_NC"
  | 282 | 283 =>
    if rel % 4 ≠ 0 ∨ !fitsSigned rel 28 then .error (outOfRange "CALL26" rel r.p)
    else
      let imm26 := BitVec.ofInt 32 (rel >>> (2 : ℕ)) &&& 0x03ffffff
      r.update32 image 0 fun instruction => (instruction &&& ~~~0x03ffffff#32) ||| imm26
  | other => .error (.unsupportedRelocation .aarch64 other)

/-- Does `value` split into a `hi20`/`lo12` pair? -/
def fitsHiLo (value : ℤ) : Bool := fitsSigned (value + 0x800) 32

/-- Split a 32-bit value into RISC-V's `hi20`/`lo12` pair, where `lo12` is sign-extended. -/
def splitHiLo (value : ℤ) : BitVec 32 × BitVec 32 :=
  let hi := BitVec.ofInt 32 ((value + 0x800) >>> (12 : ℕ)) &&& 0xfffff
  let lo := (BitVec.ofInt 32 value - (hi <<< 12)) &&& 0xfff
  (hi, lo)

def bType (imm : BitVec 32) : BitVec 32 :=
  ((imm >>> 12) &&& 1) <<< 31 ||| ((imm >>> 5) &&& 0x3f) <<< 25 ||| ((imm >>> 1) &&& 0xf) <<< 8 |||
    ((imm >>> 11) &&& 1) <<< 7

def jType (imm : BitVec 32) : BitVec 32 :=
  ((imm >>> 20) &&& 1) <<< 31 ||| ((imm >>> 1) &&& 0x3ff) <<< 21 ||| ((imm >>> 11) &&& 1) <<< 20 |||
    ((imm >>> 12) &&& 0xff) <<< 12

def sType (imm : BitVec 32) : BitVec 32 := ((imm >>> 5) &&& 0x7f) <<< 25 ||| (imm &&& 0x1f) <<< 7

def cbType (imm : BitVec 32) : BitVec 16 :=
  (((imm >>> 8) &&& 1) <<< 12 ||| ((imm >>> 3) &&& 3) <<< 10 ||| ((imm >>> 6) &&& 3) <<< 5 |||
    ((imm >>> 1) &&& 3) <<< 3 ||| ((imm >>> 5) &&& 1) <<< 2).setWidth 16

def cjType (imm : BitVec 32) : BitVec 16 :=
  (((imm >>> 11) &&& 1) <<< 12 ||| ((imm >>> 4) &&& 1) <<< 11 ||| ((imm >>> 8) &&& 3) <<< 9 |||
    ((imm >>> 10) &&& 1) <<< 8 ||| ((imm >>> 6) &&& 1) <<< 7 ||| ((imm >>> 7) &&& 1) <<< 6 |||
    ((imm >>> 1) &&& 7) <<< 3 ||| ((imm >>> 5) &&& 1) <<< 2).setWidth 16

/-- The kinds that the first pass over an object's relocations patches at once. -/
def patchRiscv64 (image : List UInt8) (r : Reloc) : Except ProgramLinkError (List UInt8) :=
  let (x, rel) := expressions r
  match r.rType with
  | 2 => setWord64 image r x "64"
  | 1 =>
    if ¬(0 ≤ x ∧ x < 2 ^ 32) ∧ !fitsSigned x 32 then .error (outOfRange "32" x r.p)
    else r.update32 image 0 fun _ => BitVec.ofInt 32 x
  | 16 =>
    if rel % 2 ≠ 0 ∨ !fitsSigned rel 13 then .error (outOfRange "BRANCH" rel r.p)
    else r.update32 image 0 fun instruction => (instruction &&& 0x01fff07f#32) ||| bType (BitVec.ofInt 32 rel)
  | 17 =>
    if rel % 2 ≠ 0 ∨ !fitsSigned rel 21 then .error (outOfRange "JAL" rel r.p)
    else r.update32 image 0 fun instruction => (instruction &&& 0x00000fff#32) ||| jType (BitVec.ofInt 32 rel)
  -- `auipc` at P, `jalr` at P+4
  | 18 | 19 =>
    if !fitsHiLo rel then .error (outOfRange "CALL" rel r.p)
    else do
      let (hi, lo) := splitHiLo rel
      let _ ← r.field 8 image 0
      let image ← r.update32 image 0 fun auipc => (auipc &&& 0xfff#32) ||| (hi <<< 12)
      r.update32 image 4 fun jalr => (jalr &&& 0x000fffff#32) ||| (lo <<< 20)
  | 23 =>
    if !fitsHiLo rel then .error (outOfRange "PCREL_HI20" rel r.p)
    else r.update32 image 0 fun auipc => (auipc &&& 0xfff#32) ||| ((splitHiLo rel).1 <<< 12)
  | 26 =>
    if !fitsHiLo x then .error (outOfRange "HI20" x r.p)
    else r.update32 image 0 fun lui => (lui &&& 0xfff#32) ||| ((splitHiLo x).1 <<< 12)
  | 27 => r.update32 image 0 fun instruction => (instruction &&& 0x000fffff#32) ||| ((splitHiLo x).2 <<< 20)
  | 28 => r.update32 image 0 fun instruction => (instruction &&& 0x01fff07f#32) ||| sType (splitHiLo x).2
  | 44 =>
    if rel % 2 ≠ 0 ∨ !fitsSigned rel 9 then .error (outOfRange "RVC_BRANCH" rel r.p)
    else r.update16 image fun instruction => (instruction &&& 0xe383#16) ||| cbType (BitVec.ofInt 32 rel)
  | 45 =>
    if rel % 2 ≠ 0 ∨ !fitsSigned rel 12 then .error (outOfRange "RVC_JUMP" rel r.p)
    else r.update16 image fun instruction => (instruction &&& 0xe003#16) ||| cjType (BitVec.ofInt 32 rel)
  -- hints for a relaxing linker; this one does not relax
  | 43 | 51 => .ok image
  | other => .error (.unsupportedRelocation .riscv64 other)

/-- The image and what the first pass has recorded: the value of every `PCREL_HI20`, keyed by the
address of its `auipc`, and the `PCREL_LO12_*` relocations met. -/
structure Pass where
  image : List UInt8
  hi20At : UInt64 → Option ℤ
  deferred : List Reloc

def Pass.step (st : Pass) (r : Reloc) : Except ProgramLinkError Pass :=
  match r.rType with
  | 24 | 25 => .ok { st with deferred := st.deferred ++ [r] }
  | 23 => do
    let image ← patchRiscv64 st.image r
    return { st with image, hi20At := fun p => if p = r.p then some (expressions r).2 else st.hi20At p }
  | _ => do
    let image ← patchRiscv64 st.image r
    return { st with image }

/-- The symbol of a `PCREL_LO12_*` names the `auipc`; its recorded value is what the low half is taken of. -/
def patchDeferred (hi20At : UInt64 → Option ℤ) (image : List UInt8) (r : Reloc) :
    Except ProgramLinkError (List UInt8) :=
  match hi20At r.s with
  | none =>
    .error (.unsupported ("PCREL_LO12 at " ++ hex r.p.toNat ++ " has no PCREL_HI20 at " ++ hex r.s.toNat))
  | some x =>
    let (_, lo) := splitHiLo x
    if r.rType = 24 then r.update32 image 0 fun instruction => (instruction &&& 0x000fffff#32) ||| (lo <<< 20)
    else r.update32 image 0 fun instruction => (instruction &&& 0x01fff07f#32) ||| sType lo

def relocateRiscv64 (image : List UInt8) (relocations : List Reloc) : Except ProgramLinkError (List UInt8) := do
  let st ← relocations.foldlM Pass.step ⟨image, fun _ => none, []⟩
  st.deferred.foldlM (patchDeferred st.hi20At) st.image

/-- Apply every relocation of one object. -/
def relocate (arch : Arch) (image : List UInt8) (relocations : List Reloc) :
    Except ProgramLinkError (List UInt8) :=
  match arch with
  | .x86_64 => relocations.foldlM relocateX86_64 image
  | .aarch64 => relocations.foldlM relocateAarch64 image
  | .riscv64 => relocateRiscv64 image relocations

end Krusty.Native.Linker
