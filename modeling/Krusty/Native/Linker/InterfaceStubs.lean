import Mathlib.Data.List.Dedup
import Krusty.Lib.Groups
import Krusty.Native.Linker.InterfaceTables

/-! The stubs every call through a module interface member goes to, written by the link from the
implementation records of every object. -/
namespace Krusty.Native.Linker

open LittleEndian

def stubAlign : ℕ := 16

def receiverTypeOffset : BitVec 32 := 0

/-- What one stub does, between addresses of the linked image. -/
inductive Kind
  | direct (function : UInt64)
  | compare (ty thenTo otherwise : UInt64)
  | table
deriving DecidableEq

/-- The stub for implementations given as `(type, function)` addresses, one pair per type. -/
def choose (records : List (UInt64 × UInt64)) : Kind :=
  match Groups.group records with
  | [(only, _)] => .direct only
  | [(first, firstTypes), (second, secondTypes)] =>
    match firstTypes, secondTypes with
    | [ty], _ => .compare ty first second
    | _, [ty] => .compare ty second first
    | _, _ => .table
  | _ => .table

/-- Whether implementations `(type, function)` may need a table lookup. -/
def mayReadATable (records : List (Target × Target)) : Bool :=
  match Groups.count records with
  | [_] => false
  | [(_, first), (_, second)] => first > 1 ∧ second > 1
  | _ => true

structure Stub where
  name : String
  records : List (Target × Target)
  index : Option ℕ
  offset : ℕ
  kind : Option Kind
deriving DecidableEq

/-- Every interface stub the program's objects call, and the interface tables they read. -/
structure InterfaceStubs where
  stubs : List Stub
  size : ℕ
  tables : InterfaceTables
deriving DecidableEq

def alignUp (value align : ℕ) : ℕ := (value + align - 1) / align * align

def codeSize : Arch → Kind → ℕ
  | _, .direct _ => 0
  | .x86_64, .compare .. => 25
  | .x86_64, .table => 21
  | .aarch64, .compare .. => 44
  | .aarch64, .table => 24
  | .riscv64, .compare .. => 32
  | .riscv64, .table => 28

/-- Give the members that may read a table their indices, in order. -/
def assignIndices : List Stub → List ℕ → List Stub
  | [], _ => []
  | stub :: stubs, indices =>
    if mayReadATable stub.records then
      match indices with
      | [] => stub :: stubs
      | index :: indices => { stub with index := some index } :: assignIndices stubs indices
    else stub :: assignIndices stubs indices

/-- The stubs of the names the objects call, with the records that decide each one. A stub name that
an object defines itself is refused. -/
def InterfaceStubs.collect (arch : Arch) (called defined : List String)
    (records : String → List (Target × Target)) : Except ProgramLinkError InterfaceStubs :=
  match defined with
  | name :: _ => .error (.duplicateSymbol (name ++ " (an interface stub, which only the link defines)"))
  | [] => do
    let names := called.dedup.mergeSort
    let room := alignUp (max (codeSize arch (.compare 0 0 0)) (codeSize arch .table)) stubAlign
    let stubs := names.zipIdx.map fun (name, index) =>
      { name, records := records name, index := none, offset := index * room, kind := none : Stub }
    let (tables, indices) ← InterfaceTables.number ((stubs.map (·.records)).filter mayReadATable)
    return { stubs := assignIndices stubs indices, size := stubs.length * room, tables }

section Decide

variable (address : Target → Except ProgramLinkError UInt64)

def resolve (r : Target × Target) : Except ProgramLinkError (UInt64 × UInt64) := do
  let ty ← address r.1
  let function ← address r.2
  return (ty, function)

def Stub.decide (stub : Stub) : Except ProgramLinkError Stub := do
  let records ← stub.records.mapM (resolve address)
  return { stub with kind := some (choose records) }

/-- The address a decided stub's symbol is bound to. -/
def Stub.symbol (stubsAt : UInt64) (stub : Stub) : UInt64 :=
  match stub.kind with
  | some (.direct function) => function
  | _ => stubsAt + UInt64.ofNat stub.offset

/-- Choose each stub's form from the addresses its records resolve to, and the address every stub
symbol is bound to. -/
def InterfaceStubs.decide (self : InterfaceStubs) (stubsAt : UInt64) :
    Except ProgramLinkError (InterfaceStubs × List (String × UInt64)) := do
  let stubs ← self.stubs.mapM (Stub.decide address)
  return ({ self with stubs }, stubs.map fun stub => (stub.name, stub.symbol stubsAt))

end Decide

/-- The displacement from `start` to `target`, if a signed 32-bit field holds it. -/
def rel32 (start target : UInt64) : Option (BitVec 32) :=
  let distance := (target.toNat : ℤ) - start.toNat
  if fitsSigned distance 32 then some (BitVec.ofInt 32 distance) else none

def word32 (word : BitVec 32) : List UInt8 := leBytes 4 word.toNat

/-- AArch64 `adrp x16, to; add x16, x16, :lo12:to`, placed at `pc`. -/
def aarch64AddressX16 (pc target : UInt64) : Option (BitVec 32 × BitVec 32) :=
  let pages := (((target &&& ~~~0xfff).toNat : ℤ) - (pc &&& ~~~0xfff).toNat) >>> (12 : ℕ)
  if ¬(-2 ^ 20 ≤ pages ∧ pages < 2 ^ 20) then none
  else
    let pages := BitVec.ofInt 32 pages
    let adrp := 0x90000010#32 ||| (pages &&& 3) <<< 29 ||| ((pages >>> 2) &&& 0x7ffff) <<< 5
    let add := 0x91000210#32 ||| (target &&& 0xfff).toBitVec.setWidth 32 <<< 10
    some (adrp, add)

/-- RISC-V `auipc t3, %pcrel_hi(to)` at `pc`, and the low twelve bits its partner adds. -/
def riscvPcrelT3 (pc target : UInt64) : Option (BitVec 32 × BitVec 32) :=
  let distance := (target.toNat : ℤ) - pc.toNat
  if ¬(-2 ^ 31 + 0x800 ≤ distance ∧ distance < 2 ^ 31 - 0x800) then none
  else
    let (hi, lo) := splitHiLo distance
    some (0x00000e17#32 ||| hi <<< 12, lo)

def aarch64BrX16 : BitVec 32 := 0xd61f0200

def riscvJrT3 : BitVec 32 := 0x000e0067

/-- A jump to `thenTo` when the receiver's type is `ty`, and to `otherwise` when it is not. -/
def compareCode (arch : Arch) (pc ty thenTo otherwise : UInt64) : Option (List UInt8) :=
  match arch with
  | .x86_64 => do
    -- lea r11, [rip + ty]; cmp r11, [rdi + type]; je then; jmp otherwise
    let toType ← rel32 (pc + 7) ty
    let toThen ← rel32 (pc + 20) thenTo
    let toOtherwise ← rel32 (pc + 25) otherwise
    return [0x4c, 0x8d, 0x1d] ++ word32 toType ++ [0x4c, 0x3b, 0x9f] ++ word32 receiverTypeOffset ++ [0x0f, 0x84] ++
      word32 toThen ++ [0xe9] ++ word32 toOtherwise
  | .aarch64 => do
    let (typePage, typeLow) ← aarch64AddressX16 (pc + 4) ty
    let (thenPage, thenLow) ← aarch64AddressX16 (pc + 20) thenTo
    let (otherPage, otherLow) ← aarch64AddressX16 (pc + 32) otherwise
    return [0xf9400011#32 ||| (receiverTypeOffset / 8) <<< 10, typePage, typeLow, 0xeb11021f,
      0x54000001#32 ||| (16 / 4) <<< 5, thenPage, thenLow, aarch64BrX16, otherPage, otherLow,
      aarch64BrX16].flatMap word32
  | .riscv64 => do
    let (typeHi, typeLo) ← riscvPcrelT3 (pc + 4) ty
    let (thenHi, thenLo) ← riscvPcrelT3 (pc + 16) thenTo
    let (otherHi, otherLo) ← riscvPcrelT3 (pc + 24) otherwise
    return [0x00053e83#32 ||| receiverTypeOffset <<< 20, typeHi, 0x000e0e13#32 ||| typeLo <<< 20,
      0x01de1063#32 ||| ((12 >>> 1) &&& 0xf) <<< 8, thenHi, riscvJrT3 ||| thenLo <<< 20, otherHi,
      riscvJrT3 ||| otherLo <<< 20].flatMap word32

/-- The interface table lookup `receiver.type.itable[number]`, jumped through. -/
def tableCode (arch : Arch) (number : ℕ) : Option (List UInt8) :=
  let entry := number * 8
  if 2 ^ 32 ≤ entry then none
  else match arch with
    | .x86_64 =>
      -- mov r11, [rdi + type]; mov r11, [r11 + itable]; jmp [r11 + 8 * number]
      if 2 ^ 31 ≤ entry then none
      else some ([0x4c, 0x8b, 0x9f] ++ word32 receiverTypeOffset ++ [0x4d, 0x8b, 0x9b] ++
        word32 (itableOffset.toBitVec.setWidth 32) ++ [0x41, 0xff, 0xa3] ++ word32 (BitVec.ofNat 32 entry))
    | .aarch64 =>
      let entry := BitVec.ofNat 32 entry
      some ([0xf9400010#32 ||| (receiverTypeOffset / 8) <<< 10,
        0xf9400210#32 ||| (itableOffset.toBitVec.setWidth 32 / 8) <<< 10, 0xd2800011#32 ||| (entry &&& 0xffff) <<< 5,
        0xf2a00011#32 ||| (entry >>> 16) <<< 5, 0xf8716a10, aarch64BrX16].flatMap word32)
    | .riscv64 =>
      let (hi, lo) := splitHiLo entry
      some ([0x00053e03#32 ||| receiverTypeOffset <<< 20,
        0x000e3e03#32 ||| itableOffset.toBitVec.setWidth 32 <<< 20, 0x00000eb7#32 ||| hi <<< 12, 0x01de0e33,
        0x000e3e03#32 ||| lo <<< 20, riscvJrT3, 0x00000013].flatMap word32)

/-- The code of one decided stub at `pc`, if it has any. -/
def Stub.code (arch : Arch) (pc : UInt64) (stub : Stub) : Except Failure (Option (List UInt8)) :=
  let reached (code : Option (List UInt8)) : Except Failure (Option (List UInt8)) :=
    match code with
    | some code => .ok (some code)
    | none =>
      .error (.error (.relocationOutOfRange ("the interface stub `" ++ stub.name ++ "` at " ++ hex pc.toNat ++
        " cannot reach its implementation")))
  match stub.kind with
  | none => .error (.panic "decided before the stubs are written")
  | some (.direct _) => .ok none
  | some (.compare ty thenTo otherwise) => reached (compareCode arch pc ty thenTo otherwise)
  | some .table =>
    match stub.index with
    | none => .error (.panic "a table lookup is decided only for a numbered member")
    | some index => reached (tableCode arch index)

/-- Write every decided stub into the image, the stubs starting at file offset `offset` and address
`stubsAt`. -/
def InterfaceStubs.write (self : InterfaceStubs) (image : List UInt8) (offset : ℕ) (stubsAt : UInt64) (arch : Arch) :
    Except Failure (List UInt8) :=
  self.stubs.foldlM (fun image stub => do
    match ← stub.code arch (stubsAt + UInt64.ofNat stub.offset) with
    | none => return image
    | some code =>
      let start := offset + stub.offset
      if start + code.length ≤ image.length then return LittleEndian.write image start code
      else .error (.panic "range end index out of range for slice")) image

end Krusty.Native.Linker
