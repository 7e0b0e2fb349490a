import Mathlib.Data.Finset.Lattice.Basic
import Mathlib.Data.Set.Finite.Basic
import Krusty.Native.Linker.Relocate

/-! The interface tables of the program's types, numbered and written by the link. -/
namespace Krusty.Native.Linker

open Bytes LittleEndian

/-- A symbol a record names: a global by name, a local by its object and index. -/
inductive Target
  | global (name : String)
  | «local» (file index : ℕ)
deriving DecidableEq

/-- A write into the image can also end in a panic. -/
inductive Failure
  | error (e : ProgramLinkError)
  | panic (message : String)
deriving DecidableEq

def itableOffset : UInt64 := 160

/-- One type's table: where it starts among the tables, and the function at each index, `none` where
the type implements no member numbered there. -/
structure Table where
  ty : Target
  offset : ℕ
  entries : List (Option Target)
deriving DecidableEq

structure InterfaceTables where
  tables : List Table
  size : ℕ
deriving DecidableEq

/-- Record a function at an index of a table. -/
def Table.enter (table : Table) (index : ℕ) (function : Target) : Except ProgramLinkError Table :=
  let entries :=
    if table.entries.length ≤ index then
      table.entries ++ List.replicate (index + 1 - table.entries.length) none
    else table.entries
  match entries[index]? with
  | some (some known) =>
    if known ≠ function then
      .error (.unsupported "a type records two implementations of one interface member")
    else .ok { table with entries := entries.set index (some function) }
  | _ => .ok { table with entries := entries.set index (some function) }

/-- The same in the table of a type, which is added at the end the first time. -/
def enterTable (ty : Target) (index : ℕ) (function : Target) : List Table → Except ProgramLinkError (List Table)
  | [] => do
    let table ← Table.enter ⟨ty, 0, []⟩ index function
    return [table]
  | table :: tables =>
    if table.ty = ty then do
      let table ← table.enter index function
      return table :: tables
    else do
      let tables ← enterTable ty index function tables
      return table :: tables

/-- The indices taken in the table of each type, the tables, and the members' indices so far. -/
structure Numbering where
  taken : Target → List ℕ
  tables : List Table
  indices : List ℕ

theorem exists_free (taken : Target → List ℕ) (types : List Target) : ∃ index, ∀ ty ∈ types, index ∉ taken ty := by
  obtain ⟨index, h⟩ := Infinite.exists_notMem_finset (types.flatMap taken).toFinset
  refine ⟨index, fun ty hty hi => h ?_⟩
  rw [List.mem_toFinset, List.mem_flatMap]
  exact ⟨ty, hty, hi⟩

/-- The lowest index that no table of the types holds. -/
def freeIndex (taken : Target → List ℕ) (types : List Target) : ℕ := Nat.find (exists_free taken types)

def Numbering.record (index : ℕ) (st : Numbering) (r : Target × Target) : Except ProgramLinkError Numbering := do
  let tables ← enterTable r.1 index r.2 st.tables
  return { st with tables, taken := fun ty => if ty = r.1 then index :: st.taken ty else st.taken ty }

/-- Number one member and enter its implementations. -/
def Numbering.member (st : Numbering) (implementations : List (Target × Target)) :
    Except ProgramLinkError Numbering := do
  let index := freeIndex st.taken (implementations.map (·.1))
  let st ← implementations.foldlM (Numbering.record index) st
  return { st with indices := st.indices ++ [index] }

/-- The tables one after the other from an offset on, and where they end. -/
def place : ℕ → List Table → List Table × ℕ
  | size, [] => ([], size)
  | size, table :: tables =>
    let (rest, total) := place (size + table.entries.length * 8) tables
    ({ table with offset := size } :: rest, total)

/-- Number the members, each by its implementations `(type, function)`, and lay out the tables they
need, with each member's index. -/
def InterfaceTables.number (members : List (List (Target × Target))) :
    Except ProgramLinkError (InterfaceTables × List ℕ) := do
  let st ← members.foldlM Numbering.member ⟨fun _ => [], [], []⟩
  let (tables, size) := place 0 st.tables
  return (⟨tables, size⟩, st.indices)

/-- Eight bytes copied into the image. -/
def put64 (image : List UInt8) (start : ℕ) (value : UInt64) : Except Failure (List UInt8) :=
  if start + 8 ≤ image.length then .ok (write image start (leBytes 8 value.toNat))
  else .error (.panic "range end index out of range for slice")

section Write

variable (offset : ℕ) (tablesAt : UInt64) (address : Target → Except ProgramLinkError UInt64)
  (fileOffset : UInt64 → Option ℕ)

def entryValue : Option Target → Except Failure UInt64
  | some function => (address function).mapError Failure.error
  | none => .ok 0

/-- The entries of one table, from a file offset on. -/
def writeEntries : List UInt8 → ℕ → List (Option Target) → Except Failure (List UInt8)
  | image, _, [] => .ok image
  | image, start, entry :: entries => do
    let value ← entryValue address entry
    let image ← put64 image start value
    writeEntries image (start + 8) entries

/-- Write one table and point its type's `itable` field at it. -/
def writeTable (image : List UInt8) (table : Table) : Except Failure (List UInt8) := do
  let image ← writeEntries address image (offset + table.offset) table.entries
  let ty ← (address table.ty).mapError Failure.error
  match (fileOffset (ty + itableOffset)).filter fun start => start + 8 ≤ image.length with
  | none => .error (.error (.unsupported "a type with an interface table has no bytes in the image"))
  | some start =>
    if (image.drop start).take 8 ≠ List.replicate 8 0 then
      .error (.error (.unsupported "a type's interface table field is already filled"))
    else put64 image start (tablesAt + UInt64.ofNat table.offset)

/-- Write every table, the tables starting at file offset `offset` and address `tablesAt`. -/
def InterfaceTables.write (tables : InterfaceTables) (image : List UInt8) : Except Failure (List UInt8) :=
  tables.tables.foldlM (writeTable offset tablesAt address fileOffset) image

end Write

end Krusty.Native.Linker
