import Mathlib.Logic.Relation
import Krusty.Lib.Strings

/-! The source map a class accumulates while it is emitted: each inlined line of each file has an output
line of its own. -/
namespace Krusty.Jvm.SourceMaps

open Strings (Text)

/-- An arithmetic overflow of 16-bit lines, or an index out of range: both panic. -/
inductive Fault where
  | overflow
  | index
  deriving DecidableEq

section Arithmetic

def maxLine : ℕ := 65535

def add (a b : ℕ) : Except Fault ℕ := if a + b ≤ maxLine then .ok (a + b) else .error .overflow

def sub (a b : ℕ) : Except Fault ℕ := if b ≤ a then .ok (a - b) else .error .overflow

def checkedAdd (a b : ℕ) : Option ℕ := if a + b ≤ maxLine then some (a + b) else none

def checkedSub (a b : ℕ) : Option ℕ := if b ≤ a then some (a - b) else none

def saturatingAdd (a b : ℕ) : ℕ := min (a + b) maxLine

end Arithmetic

/-- Input lines from `source` on take the `range` output lines from `dest` on. Only the owning file's own
lines have no `callSite`. -/
structure RangeMapping where
  source : ℕ
  dest : ℕ
  range : ℕ
  callSite : Option ℕ
  deriving DecidableEq

namespace RangeMapping

variable (r : RangeMapping)

def coversDest (line : ℕ) : Bool := decide (r.dest ≤ line) && decide (line - r.dest < r.range)

def maxDest : Option ℕ := do
  let last ← checkedSub r.range 1
  checkedAdd r.dest last

/-- Whether the range came from the same call and holds the line, `slack` lines past its end included. -/
def reusable (source : ℕ) (callSite : Option ℕ) (slack : ℕ) : Bool :=
  decide (r.callSite = callSite) && decide (r.source ≤ source) &&
    decide (source - r.source < saturatingAdd r.range slack)

end RangeMapping

structure FileMapping where
  name : Text
  path : Text
  ranges : List RangeMapping
  deriving DecidableEq

structure SourceMap where
  files : List FileMapping
  /-- The highest output line handed out. -/
  maxUsed : ℕ
  keepTrivial : Bool
  deriving DecidableEq

def fakeFileName : Text := "fake.kt".toList

def fakePath : Text := "kotlin/jvm/internal/FakeKt".toList

def frontierSlack : ℕ := 10

/-- What an output line stands for: file, path, line there, and the call that expanded it. -/
structure Position where
  name : Text
  path : Text
  source : ℕ
  callSite : Option ℕ
  deriving DecidableEq

/-- The last place of a list whose value satisfies `p`. -/
def rposition {α : Type} (p : α → Bool) (xs : List α) : Option ℕ :=
  (List.range xs.length).reverse.find? fun i => (xs[i]?).any p

namespace SourceMap

/-- The map before anything is recorded. -/
def unstarted : SourceMap := ⟨[], 0, false⟩

def new (name path : Text) (lines : ℕ) : SourceMap :=
  let lines := max lines 1
  ⟨[⟨name, path, [⟨1, 1, lines, none⟩]⟩], lines, false⟩

def forRegeneratedClass (name path : Text) (lines : ℕ) : SourceMap :=
  { new name path lines with keepTrivial := true }

variable (m : SourceMap)

def isUnstarted : Bool := m.files.isEmpty

def forMethod : Option SourceMap := do
  let owner ← m.files.head?
  let own ← owner.ranges.head?
  return new owner.name owner.path own.range

def position (name path : Text) : Option ℕ :=
  m.files.findIdx? fun known => decide (known.name = name) && decide (known.path = path)

/-- `file`'s ranges replaced. -/
def setRanges (file : ℕ) (mapping : FileMapping) (ranges : List RangeMapping) (maxUsed : ℕ) : SourceMap :=
  { m with files := m.files.set file { mapping with ranges }, maxUsed }

/-- The output line of `source` in range `at`, which grows to hold it. -/
def growNewLine (file : ℕ) (mapping : FileMapping) (ranges : List RangeMapping) (place source : ℕ) :
    Except Fault (Option ℕ × SourceMap) :=
  match ranges[place]? with
  | none => .error .index
  | some range => do
    let offset ← sub source range.source
    match checkedAdd range.dest offset with
    | none => return (none, m.setRanges file mapping ranges m.maxUsed)
    | some output => do
      let expanded ← add offset 1
      let grown := { range with range := max range.range expanded }
      return (some output, m.setRanges file mapping (ranges.set place grown) (max m.maxUsed output))

/-- kotlinc's own rule for a file's ranges: its last or else its first may take the line. -/
def mapInFile (file source : ℕ) (callSite : Option ℕ) : Except Fault (Option ℕ × SourceMap) :=
  match m.files[file]? with
  | none => .error .index
  | some mapping =>
    let ranges := mapping.ranges
    let reusable := fun range : RangeMapping =>
      range.reusable source callSite (if range.coversDest m.maxUsed then frontierSlack else 0)
    let last := ranges.length - 1
    if (ranges[last]?).any reusable then m.growNewLine file mapping ranges last source
    else if (ranges[0]?).any reusable then m.growNewLine file mapping ranges 0 source
    else
      match checkedAdd m.maxUsed 1 with
      | none => .ok (none, m)
      | some next => m.growNewLine file mapping (ranges ++ [⟨source, next, 1, callSite⟩]) ranges.length source

def mapNewLine (name path : Text) (source : ℕ) (callSite : Option ℕ) : Except Fault (Option ℕ × SourceMap) :=
  match m.position name path with
  | some file => m.mapInFile file source callSite
  | none =>
    match checkedAdd m.maxUsed 1 with
    | none => .ok (none, m)
    | some _ =>
      let m' : SourceMap := { m with files := m.files ++ [⟨name, path, []⟩] }
      m'.mapInFile m.files.length source callSite

/-- A range that covers the line, or else the file's last range at the frontier of the output space. -/
def stretchable (ranges : List RangeMapping) (source : ℕ) (callSite : Option ℕ) : Option ℕ :=
  (rposition (fun range => range.reusable source callSite 0) ranges).or
    (rposition (fun range => decide (range.maxDest = some m.maxUsed) &&
      range.reusable source callSite frontierSlack) ranges)

/-- The line in range `at` of a file, every step checked. -/
def stretch (file : ℕ) (mapping : FileMapping) (place source : ℕ) : Except Fault (Option ℕ × SourceMap) :=
  match mapping.ranges[place]? with
  | none => .error .index
  | some range =>
    let placed : Option (ℕ × ℕ) := do
      let offset ← checkedSub source range.source
      let output ← checkedAdd range.dest offset
      let expanded ← checkedAdd offset 1
      return (output, expanded)
    match placed with
    | none => .ok (none, m)
    | some (output, expanded) =>
      let grown := { range with range := max range.range expanded }
      .ok (some output, m.setRanges file mapping (mapping.ranges.set place grown) (max m.maxUsed output))

/-- A new range at the next free output line. -/
def openRange (file : Option ℕ) (name path : Text) (source : ℕ) (callSite : Option ℕ) :
    Except Fault (Option ℕ × SourceMap) :=
  match checkedAdd m.maxUsed 1 with
  | none => .ok (none, m)
  | some output =>
    let range : RangeMapping := ⟨source, output, 1, callSite⟩
    match file with
    | none =>
      .ok (some output, { m with
        files := m.files ++ [⟨name, path, [range]⟩], maxUsed := max m.maxUsed output })
    | some file =>
      match m.files[file]? with
      | none => .error .index
      | some mapping =>
        .ok (some output, m.setRanges file mapping (mapping.ranges ++ [range]) (max m.maxUsed output))

def map (name path : Text) (source : ℕ) (callSite : Option ℕ) : Except Fault (Option ℕ × SourceMap) :=
  match m.position name path with
  | none => m.openRange none name path source callSite
  | some file =>
    match m.files[file]? with
    | none => .error .index
    | some mapping =>
      match m.stretchable mapping.ranges source callSite with
      | some place => m.stretch file mapping place source
      | none => m.openRange (some file) name path source callSite

def mapLine (name path : Text) (source callLine : ℕ) : Except Fault (Option ℕ × SourceMap) :=
  m.mapNewLine name path source (some callLine)

def mapSyntheticLine (id : ℕ) (callSite : Option ℕ) : Except Fault (Option ℕ × SourceMap) :=
  m.map fakeFileName fakePath id callSite

def mapCopiedLine (name path : Text) (source : ℕ) (callLine : Option ℕ) : Except Fault (Option ℕ × SourceMap) :=
  m.map name path source callLine

/-- What an output line stands for: its first range, in the files' order. -/
def resolve (line : ℕ) : Option Position :=
  m.files.findSome? fun file =>
    (file.ranges.find? (·.coversDest line)).map fun range =>
      ⟨file.name, file.path, range.source + (line - range.dest), range.callSite⟩

/-- The file and the range that cover an output line. -/
def findRange (line : ℕ) : Option (ℕ × ℕ) :=
  (m.files.zipIdx).findSome? fun (mapping, file) =>
    (mapping.ranges.findIdx? (·.coversDest line)).map fun range => (file, range)

end SourceMap

/-- The lines a copy has mapped, and the range it read last. -/
structure LineCopier where
  visited : ℕ → Option ℕ
  last : Option (ℕ × ℕ)

namespace LineCopier

def start : LineCopier := ⟨fun _ => none, none⟩

/-- A range of a map, with its file. -/
def rangeAt (method : SourceMap) (place : ℕ × ℕ) : Except Fault (FileMapping × RangeMapping) :=
  match method.files[place.1]? with
  | none => .error .index
  | some file =>
    match file.ranges[place.2]? with
    | none => .error .index
    | some range => .ok (file, range)

/-- The range read last where it covers the line, or else the first that does. -/
def find (copier : LineCopier) (method : SourceMap) (line : ℕ) : Except Fault (Option (ℕ × ℕ)) :=
  match copier.last with
  | none => .ok (method.findRange line)
  | some place => do
    let (_, range) ← rangeAt method place
    return if range.coversDest line then some place else method.findRange line

/-- The class-map line of a line of the method's map. -/
def map (copier : LineCopier) (cls method : SourceMap) (line : ℕ) :
    Except Fault (Option ℕ × LineCopier × SourceMap) :=
  match copier.visited line with
  | some mapped => .ok (some mapped, copier, cls)
  | none => do
    match ← copier.find method line with
    | none => return (none, copier, cls)
    | some found => do
      let copier := { copier with last := some found }
      let (file, range) ← rangeAt method found
      let offset ← sub line range.dest
      let source ← add range.source offset
      let (mapped, cls) ← cls.mapNewLine file.name file.path source range.callSite
      match mapped with
      | none => return (none, copier, cls)
      | some mapped =>
        return (some mapped, { copier with visited := Function.update copier.visited line (some mapped) }, cls)

/-- Lines mapped in turn, and what each took. -/
def mapAll (method : SourceMap) : List ℕ → LineCopier → SourceMap → Except Fault (List (Option ℕ) × LineCopier × SourceMap)
  | [], copier, cls => .ok ([], copier, cls)
  | line :: lines, copier, cls => do
    let (mapped, copier, cls) ← copier.map cls method line
    let (rest, copier, cls) ← mapAll method lines copier cls
    return (mapped :: rest, copier, cls)

end LineCopier

namespace SourceMap

variable (m : SourceMap)

/-- A row of a line table with the line it was mapped to, if any. -/
def tableLine (line : ℕ × ℕ) (mapped : Option ℕ) : ℕ × ℕ := (line.1, mapped.getD line.2)

/-- The lines of a method's table rewritten from its own map into the class's, after the lines it was
`written` with. A line the method's map does not cover keeps its number. -/
def copyMethodLines (method : SourceMap) (written : List ℕ) (lines : List (ℕ × ℕ)) :
    Except Fault (SourceMap × List (ℕ × ℕ)) := do
  let (_, copier, cls) ← LineCopier.mapAll method written .start m
  let (mapped, _, cls) ← LineCopier.mapAll method (lines.map Prod.snd) copier cls
  return (cls, lines.zipWith tableLine mapped)

def copiedLines (method : SourceMap) (written queries : List ℕ) : Except Fault (SourceMap × List ℕ) := do
  let (_, copier, cls) ← LineCopier.mapAll method written .start m
  let (mapped, _, cls) ← LineCopier.mapAll method queries copier cls
  return (cls, queries.zipWith (fun line mapped => mapped.getD line) mapped)


end SourceMap

end Krusty.Jvm.SourceMaps
