import Krusty.Lib.Spans
import Krusty.Native.Linker.InterfaceTables

/-! Where the linker puts every input section, in memory and in the file. -/
namespace Krusty.Native.Linker

def Arch.maxPageSize : Arch → ℕ
  | .x86_64 => 0x1000
  | .aarch64 => 0x10000
  | .riscv64 => 0x1000

namespace Addresses

/-- What an input says a section holds; the kinds that no branch tells apart are one. -/
inductive SectionKind
  | text
  | data
  | readOnlyData
  | readOnlyDataWithRel
  | readOnlyString
  | uninitializedData
  | tls
  | uninitializedTls
  | note
  | other
deriving DecidableEq

/-- A section of an input: `data` is how many bytes it has in the file, where they can be read. -/
structure Section where
  index : ℕ
  name : Option String
  kind : SectionKind
  shFlags : Option UInt64
  align : UInt64
  size : UInt64
  data : Except String UInt64

structure Comdat where
  name : Except String String
  sections : List ℕ

/-- An input object, whose sections are told apart by their indices. -/
structure Elf where
  sections : List Section
  comdats : List Comdat
  distinct : (sections.map Section.index).Nodup

def Section.shownName (sect : Section) : String := sect.name.getD "?"

/-- Which output segment an input section lands in. -/
inductive Placement
  | text
  | readOnly
  | data
  | bss
deriving DecidableEq

def placement : SectionKind → Option Placement
  | .text => some .text
  | .readOnlyData | .readOnlyString | .readOnlyDataWithRel => some .readOnly
  | .data => some .data
  | .uninitializedData => some .bss
  | _ => none

/-- A section of a prefix and a module's namespace. -/
def namesModule (start name : String) : Bool :=
  (start ++ ".").toList.isPrefixOf name.toList && (start.length + 1 < name.length)

/-- Whether the link reads a section and does not load it. -/
def isImplementationsSection (name : String) : Bool :=
  namesModule ".kt_interface_implementations" name || namesModule ".kt_interface_identities" name ||
    name == ".kt_interface_dependency_implementations"

/-- One input section's place in the output. -/
structure Layout.Placed where
  vaddr : ℕ
  fileOffset : Option ℕ
  size : ℕ
deriving DecidableEq

abbrev Places := List ((ℕ × ℕ) × Layout.Placed)

def Places.insert (places : Places) (key : ℕ × ℕ) (placed : Layout.Placed) : Places :=
  places.filter (fun entry => entry.1 ≠ key) ++ [(key, placed)]

structure Layout where
  placed : Places
  page : ℕ
  textEnd : ℕ
  dataFileStart : ℕ
  dataVaddrStart : ℕ
  dataFileSize : ℕ
  dataMemSize : ℕ
  stubsAt : ℕ
  interfaceStubsAt : ℕ
  interfaceTablesAt : ℕ
deriving DecidableEq

/-- Room for what the linker writes itself, from tables that it holds in memory. -/
structure Reserve where
  headers : ℕ
  stubs : ℕ
  interfaceStubs : ℕ
  interfaceTables : ℕ
  writable : ℕ
  inMemory : headers + stubs + interfaceStubs + interfaceTables + writable < 2 ^ 63

def base : ℕ := 0x400000

def imageLimit : ℕ := 2 ^ 32

/-- `+` on a `u64`. -/
def addWord (a b : ℕ) : Except Failure ℕ :=
  if a + b < 2 ^ 64 then .ok (a + b) else .error (.panic "attempt to add with overflow")

namespace Layout

/-- `value` rounded up to `align`, a power of two. -/
def alignUp (value align : ℕ) : Except Failure ℕ := do
  let raised ← addWord value align
  pure ((raised - 1) &&& (2 ^ 64 - 1 - (align - 1)))

/-- Where the bytes of an address sit in the image. -/
def fileOffset (layout : Layout) (address : ℕ) : Except Failure (Option ℕ) := do
  let textEnd ← addWord base layout.textEnd
  if base ≤ address ∧ address < textEnd then pure (some (address - base))
  else
    let dataEnd ← addWord layout.dataVaddrStart layout.dataFileSize
    if layout.dataVaddrStart ≤ address ∧ address < dataEnd then
      let raised ← addWord layout.dataFileStart address
      pure (some (raised - layout.dataVaddrStart))
    else pure none

/-- Every section of the inputs, with its input's number. -/
def sections (files : List Elf) : List (ℕ × Section) :=
  files.zipIdx.flatMap fun (file, fileIndex) => file.sections.map (fileIndex, ·)

def unsupported {α : Type} (message : String) : Except Failure α := .error (.error (.unsupported message))

def parseError {α : Type} (message : String) : Except Failure α := .error (.error (.parse message))

/-- One turn of the loop that refuses what would be left out. -/
def checkSection (fileIndex : ℕ) (sect : Section) : Except Failure Unit :=
  if sect.kind = .tls ∨ sect.kind = .uninitializedTls then
    unsupported ("thread-local storage (section `" ++ sect.shownName ++ "` of input " ++ toString fileIndex ++
      ") is not supported by krusty's linker")
  else
    match sect.shFlags with
    | none => pure ()
    | some flags =>
      let unread := sect.kind = .note ∨ sect.shownName = ".eh_frame" ∨ isImplementationsSection sect.shownName
      -- `SHF_ALLOC`
      if flags &&& 2 = 2 ∧ placement sect.kind = none ∧ ¬ unread then
        unsupported ("section `" ++ sect.shownName ++ "` of input " ++ toString fileIndex ++
          " is loaded at run time, but is of a kind krusty's linker does not place")
      else pure ()

/-- One turn of the loop of `discarded_groups`, over the signatures kept and the sections left out. -/
def discardGroup (state : List String × List (ℕ × ℕ)) (group : ℕ × Comdat) :
    Except Failure (List String × List (ℕ × ℕ)) :=
  match group.2.name with
  | .error message => parseError message
  | .ok signature =>
    if signature ∈ state.1 then .ok (state.1, state.2 ++ group.2.sections.map (group.1, ·))
    else .ok (signature :: state.1, state.2)

/-- The sections of every group whose signature an earlier group already carries. -/
def discardedGroups (files : List Elf) : Except Failure (List (ℕ × ℕ)) :=
  Prod.snd <$> (files.zipIdx.flatMap fun (file, fileIndex) => file.comdats.map (fileIndex, ·)).foldlM
    discardGroup ([], [])

section Place

variable (page : ℕ) (discarded : List (ℕ × ℕ)) (wanted : Placement)

def isPowerOfTwo (n : ℕ) : Bool := (List.range 64).any fun k => n == 2 ^ k

def belongs (entry : ℕ × Section) : Bool :=
  placement entry.2.kind == some wanted && !isImplementationsSection entry.2.shownName &&
    !(discarded.contains (entry.1, entry.2.index))

def alignment (sect : Section) : ℕ := max sect.align.toNat 1

/-- A section's size: one with bytes in the file is sized by the bytes there are. -/
def sizeOf (sect : Section) : Except Failure ℕ :=
  if wanted = .bss then .ok sect.size.toNat
  else
    match sect.data with
    | .error message => parseError message
    | .ok length => .ok length.toNat

/-- One turn of the loop of `place`, over the cursor and the places so far. -/
def placeSection (locate : ℕ → Except Failure (ℕ × Option ℕ)) (state : ℕ × Places) (entry : ℕ × Section) :
    Except Failure (ℕ × Places) :=
  if belongs discarded wanted entry then
    let (cursor, placed) := state
    let (fileIndex, sect) := entry
    let align := alignment sect
    if !isPowerOfTwo align then
      parseError ("section `" ++ sect.shownName ++ "` of input " ++ toString fileIndex ++ " has alignment " ++
        toString align ++ ", which is not a power of two")
    else if page < align then
      unsupported ("section `" ++ sect.shownName ++ "` of input " ++ toString fileIndex ++ " asks for " ++
        hex align ++ "-byte alignment; krusty's linker aligns to at most the target's maximum page size, " ++
        hex page ++ " bytes")
    else do
      let size ← sizeOf wanted sect
      let cursor ← alignUp cursor align
      let (vaddr, fileOffset) ← locate cursor
      let placed := placed.insert (fileIndex, sect.index) { vaddr, fileOffset, size }
      -- the limit is below `2 ^ 64`, so a sum within it did not overflow
      if cursor + size ≤ imageLimit then pure (cursor + size, placed)
      else
        unsupported ("section `" ++ sect.shownName ++ "` of input " ++ toString fileIndex ++
          " takes the program past the 4 GiB its code model can address")
  else .ok state

/-- Lay every section that belongs in `wanted` end to end from the cursor, an offset within its segment. -/
def place (files : List Elf) (locate : ℕ → Except Failure (ℕ × Option ℕ)) (state : ℕ × Places) :
    Except Failure (ℕ × Places) :=
  (sections files).foldlM (placeSection page discarded wanted locate) state

end Place

/-- Where an area that the linker writes starts, from the cursor on, and where it ends. -/
def reserveArea (cursor size align : ℕ) : Except Failure (ℕ × ℕ) :=
  if 0 < size then do
    let start ← alignUp cursor align
    let stop ← addWord start size
    pure (start, stop)
  else pure (0, cursor)

/-- An offset in the executable segment, which is mapped from the start of the file. -/
def locateText (offset : ℕ) : Except Failure (ℕ × Option ℕ) := do
  let vaddr ← addWord base offset
  pure (vaddr, some offset)

def locateData (vaddrStart fileStart offset : ℕ) : Except Failure (ℕ × Option ℕ) := do
  let vaddr ← addWord vaddrStart offset
  let fileOffset ← addWord fileStart offset
  pure (vaddr, some fileOffset)

def locateBss (vaddrStart offset : ℕ) : Except Failure (ℕ × Option ℕ) := do
  let vaddr ← addWord vaddrStart offset
  pure (vaddr, none)

def new (files : List Elf) (page : ℕ) (reserve : Reserve) : Except Failure Layout := do
  (sections files).forM fun (fileIndex, sect) => checkSection fileIndex sect
  let discarded ← discardedGroups files
  let (cursor, placed) ← place page discarded .text files locateText (reserve.headers, [])
  let (stubsAt, cursor) ← reserveArea cursor reserve.stubs 16
  let (interfaceStubsAt, cursor) ← reserveArea cursor reserve.interfaceStubs 16
  let (interfaceTablesAt, cursor) ← reserveArea cursor reserve.interfaceTables 8
  let (textEnd, placed) ← place page discarded .readOnly files locateText (cursor, placed)
  let fileStart ← alignUp textEnd page
  let vaddrStart ← addWord base fileStart
  let (dataFileSize, placed) ← place page discarded .data files (locateData vaddrStart fileStart)
    (reserve.writable, placed)
  let (dataMemSize, placed) ← place page discarded .bss files (locateBss vaddrStart) (dataFileSize, placed)
  let span ← addWord fileStart dataMemSize
  if imageLimit < span then
    unsupported "the program is larger than the 4 GiB its code model can address"
  else
    pure {
      placed
      page
      textEnd
      dataFileStart := fileStart
      dataVaddrStart := vaddrStart
      dataFileSize
      dataMemSize
      stubsAt
      interfaceStubsAt
      interfaceTablesAt }

end Layout

end Addresses

end Krusty.Native.Linker
