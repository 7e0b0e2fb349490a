import Mathlib.Data.List.Nodup
import Krusty.Jvm.SourceMap.Copying

/-! A source map written as a `SourceDebugExtension`, and a dependency's read back. -/
namespace Krusty.Jvm.SourceMaps

open Strings

section Render

/-- One `*L` row: a repeat count or an output increment of 1 is left out. -/
def lineRow (inputStart file repeatCount outputStart outputIncrement : ℕ) : Text :=
  let repeatCount := if repeatCount = 1 then [] else ',' :: decimal repeatCount
  let outputIncrement := if outputIncrement = 1 then [] else ',' :: decimal outputIncrement
  decimal inputStart ++ '#' :: (decimal file ++ repeatCount) ++ ':' :: (decimal outputStart ++ outputIncrement)

/-- A file's number in the map, counted from 1 in 16 bits. -/
def fileId (index : ℕ) : Except Fault ℕ := add (index % (maxLine + 1)) 1

/-- A `*F` file: its number and name, and below them its path. -/
def fileLines (id : ℕ) (name path : Text) : List Text := ["+ ".toList ++ decimal id ++ ' ' :: name, path]

namespace SourceMap

variable (m : SourceMap)

def isEmpty : Bool :=
  match m.files with
  | [] => true
  | [owner] => owner.ranges.length = 1
  | _ => false

def fileRows (index : ℕ) (file : FileMapping) : Except Fault (List Text) :=
  file.ranges.mapM fun range => do
    return lineRow range.source (← fileId index) range.range range.dest 1

/-- Each file's ranges in the order they were opened. -/
def rows : List (FileMapping × ℕ) → Except Fault (List Text)
  | [] => .ok []
  | (file, index) :: files => do
    let own ← fileRows index file
    let rest ← rows files
    return own ++ rest

/-- The ranges a call expanded, with its line. -/
def calls : List (ℕ × RangeMapping) :=
  (m.files.flatMap (·.ranges)).filterMap fun range => range.callSite.map fun call => (call, range)

/-- The debug stratum: every inlined range at the line of the call that expanded it. -/
def debugLines (owner : FileMapping) : List Text :=
  if m.calls = [] then []
  else
    ["*S KotlinDebug".toList, "*F".toList] ++ fileLines 1 owner.name owner.path ++ ["*L".toList] ++
      m.calls.map fun (call, range) => lineRow call 1 1 range.dest range.range

/-- The lines of the extension, without their line feeds. -/
def renderLines (owner : FileMapping) : Except Fault (List Text) := do
  let rows ← rows m.files.zipIdx
  return ["SMAP".toList, owner.name, "Kotlin".toList, "*S Kotlin".toList, "*F".toList] ++
    m.files.zipIdx.flatMap (fun (file, index) => fileLines (index + 1) file.name file.path) ++
    ["*L".toList] ++ rows ++ m.debugLines owner ++ ["*E".toList]

/-- The extension, or `none` when nothing was inlined. -/
def render : Except Fault (Option Text) :=
  if m.isUnstarted || (m.isEmpty && !m.keepTrivial) then .ok none
  else
    match m.files.head? with
    | none => .ok none
    | some owner => do
      let lines ← m.renderLines owner
      return some (lines.flatMap (· ++ ['\n']))

end SourceMap

end Render

section Parse

def maxU32 : ℕ := 4294967295

structure Row where
  inputStart : ℕ
  file : ℕ
  repeatCount : ℕ
  outputStart : ℕ
  outputIncrement : ℕ
  deriving DecidableEq

/-- The input line an output line stands for, when the row covers it. -/
def Row.sourceOf (row : Row) (line : ℕ) : Option ℕ :=
  let covered := row.repeatCount * row.outputIncrement
  if maxU32 < covered then none
  else if line < row.outputStart then none
  else
    let offset := line - row.outputStart
    if covered ≤ offset then none
    else
      let source := row.inputStart + offset / row.outputIncrement
      if maxU32 < source then none else some source

/-- A stratum's files, by number, name and path, and its rows. -/
structure Stratum where
  files : List (ℕ × Text × Text)
  rows : List Row
  deriving DecidableEq

namespace Stratum

def empty : Stratum := ⟨[], []⟩

def resolve (stratum : Stratum) (line : ℕ) : Option (Text × Text × ℕ) := do
  let (file, source) ← stratum.rows.findSome? fun row => (row.sourceOf line).map fun source => (row.file, source)
  let (_, name, path) ← stratum.files.find? fun known => decide (known.1 = file)
  if source ≤ maxLine then return (name, path, source) else none

end Stratum

/-- What a stratum's reader has read: its section, and a file whose path is still to come. -/
structure Reading where
  stratum : Stratum
  sectionName : Text
  pending : Option (ℕ × Text)

def parseU16 : Text → Option ℕ := parseUnsigned (maxLine + 1)

def parseU32 : Text → Option ℕ := parseUnsigned (maxU32 + 1)

/-- A number, and after a comma a count that is 1 where it is left out. -/
def splitCount (text : Text) : Option (Text × ℕ) :=
  match splitOnce ',' text with
  | some (number, count) => (parseU32 count).map fun count => (number, count)
  | none => some (text, 1)

def parseRow (line : Text) : Option Row := do
  let (input, output) ← splitOnce ':' line
  let (inputStart, fileAndCount) ← splitOnce '#' input
  let (file, repeatCount) ← splitCount fileAndCount
  let (outputStart, outputIncrement) ← splitCount output
  return ⟨← parseU32 inputStart, ← parseU16 file, repeatCount, ← parseU32 outputStart, outputIncrement⟩

def parseFile (line : Text) : Option (ℕ × Text) := do
  let rest ← stripPrefix "+ ".toList line
  let (id, name) ← splitOnce ' ' rest
  return (← parseU16 id, name)

namespace Reading

def start : Reading := ⟨.empty, [], none⟩

def addFile (reading : Reading) (id : ℕ) (name path : Text) : Reading :=
  { reading with
    stratum := { reading.stratum with files := reading.stratum.files ++ [(id, name, path)] }, pending := none }

def addRow (reading : Reading) (row : Row) : Reading :=
  { reading with stratum := { reading.stratum with rows := reading.stratum.rows ++ [row] } }

def line (reading : Reading) (line : Text) : Option Reading :=
  if reading.sectionName = "*F".toList then
    match reading.pending with
    | some (id, name) => some (reading.addFile id name line)
    | none => (parseFile line).map fun file => { reading with pending := some file }
  else if reading.sectionName = "*L".toList then (parseRow line).map reading.addRow
  else some reading

/-- The lines up to the next stratum or the end. -/
def lines : List Text → Reading → Option Reading
  | [], reading => some reading
  | line :: rest, reading =>
    if line.head? = some '*' then
      if line = "*E".toList ∨ "*S ".toList.isPrefixOf line then some reading
      else lines rest { reading with sectionName := line }
    else do
      let reading ← reading.line line
      lines rest reading

end Reading

/-- File numbers are distinct, none of them zero. -/
def Stratum.DistinctFiles (stratum : Stratum) : Prop :=
  (∀ file ∈ stratum.files, file.1 ≠ 0) ∧ (stratum.files.map Prod.fst).Nodup

/-- Every row covers something, in a file the stratum lists. -/
def Stratum.ValidRows (stratum : Stratum) : Prop :=
  ∀ row ∈ stratum.rows, row.inputStart ≠ 0 ∧ row.repeatCount ≠ 0 ∧ row.outputStart ≠ 0 ∧
    row.outputIncrement ≠ 0 ∧ ∃ file ∈ stratum.files, file.1 = row.file

instance decidableDistinctFiles (stratum : Stratum) : Decidable stratum.DistinctFiles :=
  inferInstanceAs (Decidable (_ ∧ _))

instance decidableValidRows (stratum : Stratum) : Decidable stratum.ValidRows :=
  inferInstanceAs (Decidable (∀ row ∈ stratum.rows, _))

def parseStratum (lines : List Text) : Option Stratum := do
  let reading ← Reading.lines lines .start
  if reading.pending = none ∧ reading.stratum.DistinctFiles ∧ reading.stratum.ValidRows then
    return reading.stratum
  else none

/-- The strata of a dependency's extension. -/
structure DependencyMap where
  kotlin : Stratum
  debug : Stratum
  deriving DecidableEq

namespace DependencyMap

/-- The lines after the one that begins a stratum. -/
def stratumLines (marker : Text) (lines : List Text) : List Text := (lines.dropWhile (· ≠ marker)).drop 1

def parse (text : Text) : Option DependencyMap :=
  match Strings.lines text with
  | first :: _ :: _ :: rest =>
    if first ≠ "SMAP".toList then none
    else do
      let kotlin ← parseStratum (stratumLines "*S Kotlin".toList rest)
      if kotlin.files = [] ∨ kotlin.rows = [] then none
      else
        let debugLines := stratumLines "*S KotlinDebug".toList (Strings.lines text)
        let debug ← if debugLines = [] then some .empty else parseStratum debugLines
        return ⟨kotlin, debug⟩
  | _ => none

variable (map : DependencyMap)

def resolve (line : ℕ) : Option (Text × Text × ℕ) := map.kotlin.resolve line

/-- The line and the file of the call an output line was expanded by. -/
def callSite (line : ℕ) : Option (ℕ × Text × Text) := do
  let row ← map.debug.rows.find? fun row => (row.sourceOf line).isSome
  let (_, name, path) ← map.debug.files.find? fun known => decide (known.1 = row.file)
  if row.inputStart ≤ maxLine then return (row.inputStart, name, path) else none

end DependencyMap

end Parse

section RowText

theorem not_mem_decimal {c : Char} (h : c.isDigit = false) (n : ℕ) : c ∉ decimal n := by
  intro hmem
  rw [isDigit_of_mem_decimal hmem] at h
  cases h

/-- A count as it is written after its number. -/
def countText (count : ℕ) : Text := if count = 1 then [] else ',' :: decimal count

theorem lineRow_eq (inputStart file repeatCount outputStart outputIncrement : ℕ) :
    lineRow inputStart file repeatCount outputStart outputIncrement =
      (decimal inputStart ++ '#' :: (decimal file ++ countText repeatCount)) ++
        ':' :: (decimal outputStart ++ countText outputIncrement) := rfl

theorem not_mem_countText {c : Char} (h : c.isDigit = false) (hcomma : c ≠ ',') (count : ℕ) :
    c ∉ countText count := by
  unfold countText
  split_ifs with hone
  · exact List.not_mem_nil
  · intro hmem
    obtain heq | hmem := List.mem_cons.mp hmem
    · exact hcomma heq
    · exact not_mem_decimal h count hmem

/-- Rows a stratum may hold: numbers that fit their types. -/
structure Row.Fits (row : Row) : Prop where
  inputStart : row.inputStart ≤ maxU32
  file : row.file ≤ maxLine
  repeatCount : row.repeatCount ≤ maxU32
  outputStart : row.outputStart ≤ maxU32
  outputIncrement : row.outputIncrement ≤ maxU32

def Row.text (row : Row) : Text :=
  lineRow row.inputStart row.file row.repeatCount row.outputStart row.outputIncrement

theorem parseU32_decimal {n : ℕ} (h : n ≤ maxU32) : parseU32 (decimal n) = some n :=
  parseUnsigned_decimal (Nat.lt_succ_of_le h)

theorem parseU16_decimal {n : ℕ} (h : n ≤ maxLine) : parseU16 (decimal n) = some n :=
  parseUnsigned_decimal (Nat.lt_succ_of_le h)

theorem splitCount_countText (number : ℕ) {count : ℕ} (h : count ≤ maxU32) :
    splitCount (decimal number ++ countText count) = some (decimal number, count) := by
  have hcomma : ',' ∉ decimal number := not_mem_decimal (by decide) number
  unfold splitCount countText
  split_ifs with hone
  · rw [List.append_nil, splitOnce, if_neg hcomma, hone]
  · rw [splitOnce_append hcomma]
    dsimp only
    rw [parseU32_decimal h]
    rfl

/-- A row reads back. -/
theorem parseRow_text {row : Row} (h : row.Fits) : parseRow row.text = some row := by
  have hcolon : ':' ∉ decimal row.inputStart ++ '#' :: (decimal row.file ++ countText row.repeatCount) := by
    rw [List.mem_append, List.mem_cons, List.mem_append, not_or, not_or, not_or]
    exact ⟨not_mem_decimal (by decide) _, by decide, not_mem_decimal (by decide) _,
      not_mem_countText (by decide) (by decide) _⟩
  have hhash : '#' ∉ decimal row.inputStart := not_mem_decimal (by decide) _
  unfold parseRow Row.text
  rw [lineRow_eq, splitOnce_append hcolon]
  simp only [bind, Option.bind, splitOnce_append hhash, splitCount_countText _ h.repeatCount,
    splitCount_countText _ h.outputIncrement, parseU32_decimal h.inputStart, parseU16_decimal h.file,
    parseU32_decimal h.outputStart]
  rfl

theorem parseFile_text {id : ℕ} (h : id ≤ maxLine) (name : Text) :
    parseFile ("+ ".toList ++ decimal id ++ ' ' :: name) = some (id, name) := by
  have hspace : ' ' ∉ decimal id := not_mem_decimal (by decide) _
  unfold parseFile
  rw [List.append_assoc, stripPrefix_append]
  simp only [bind, Option.bind, splitOnce_append hspace, parseU16_decimal h]
  rfl

/-- A text that stays one line of a stratum: it holds no line break, nor starts like a section. -/
structure Plain (text : Text) : Prop where
  noFeed : '\n' ∉ text
  noReturn : text.getLast? ≠ some '\r'
  noStar : text.head? ≠ some '*'

theorem not_mem_rowText {c : Char} (hdigit : c.isDigit = false) (hcomma : c ≠ ',') (hhash : c ≠ '#')
    (hcolon : c ≠ ':') (row : Row) : c ∉ row.text := by
  have hdecimal : ∀ n, c ∉ decimal n := not_mem_decimal hdigit
  have hcount : ∀ n, c ∉ countText n := not_mem_countText hdigit hcomma
  unfold Row.text
  rw [lineRow_eq]
  simp only [List.mem_append, List.mem_cons, hdecimal, hcount, hhash, hcolon, or_self, not_false_eq_true]

theorem rowText_plain (row : Row) : Plain row.text where
  noFeed := not_mem_rowText (by decide) (by decide) (by decide) (by decide) row
  noReturn h := not_mem_rowText (by decide) (by decide) (by decide) (by decide) row (List.mem_of_getLast? h)
  noStar h := not_mem_rowText (by decide) (by decide) (by decide) (by decide) row (List.mem_of_head? h)

theorem fileText_plain (id : ℕ) {name : Text} (h : Plain name) :
    Plain ("+ ".toList ++ decimal id ++ ' ' :: name) where
  noFeed := by
    have hdecimal := not_mem_decimal (c := '\n') (by decide) id
    have hplus : '\n' ∉ "+ ".toList := by decide
    rw [List.mem_append, List.mem_append, List.mem_cons, not_or, not_or, not_or]
    exact ⟨⟨hplus, hdecimal⟩, by decide, h.noFeed⟩
  noReturn := by
    rw [List.getLast?_append_of_ne_nil _ (List.cons_ne_nil _ _)]
    cases name with
    | nil => decide
    | cons c name =>
      rw [List.getLast?_cons_cons]
      exact h.noReturn
  noStar := by
    have hplus : "+ ".toList = ['+', ' '] := rfl
    rw [hplus]
    simp

end RowText

section ReadStratum

theorem Reading.lines_cons {reading reading' : Reading} {line : Text} {rest : List Text} (h : line.head? ≠ some '*')
    (hline : reading.line line = some reading') : Reading.lines (line :: rest) reading = Reading.lines rest reading' := by
  rw [Reading.lines, if_neg h, hline]
  rfl

/-- A section's files are read one by one. -/
theorem lines_files {reading : Reading} (hsection : reading.sectionName = "*F".toList) (hpending : reading.pending = none)
    (files : List (ℕ × Text × Text)) (hfiles : ∀ file ∈ files, file.1 ≤ maxLine ∧ Plain file.2.1 ∧ Plain file.2.2)
    (rest : List Text) :
    Reading.lines (files.flatMap (fun file => fileLines file.1 file.2.1 file.2.2) ++ rest) reading =
      Reading.lines rest { reading with
        stratum := { reading.stratum with files := reading.stratum.files ++ files } } := by
  induction files generalizing reading with
  | nil => simp
  | cons file files ih =>
    obtain ⟨hid, hname, hpath⟩ := hfiles file (List.mem_cons_self ..)
    have hfirst : reading.line ("+ ".toList ++ decimal file.1 ++ ' ' :: file.2.1) =
        some { reading with pending := some (file.1, file.2.1) } := by
      unfold Reading.line
      rw [if_pos hsection, hpending]
      dsimp only
      rw [parseFile_text hid]
      rfl
    have hsecond : Reading.line { reading with pending := some (file.1, file.2.1) } file.2.2 =
        some (reading.addFile file.1 file.2.1 file.2.2) := by
      unfold Reading.line
      rw [if_pos hsection]
      rfl
    have hrest := @ih (reading.addFile file.1 file.2.1 file.2.2) hsection rfl
      fun other hother => hfiles other (List.mem_cons_of_mem _ hother)
    rw [List.flatMap_cons, fileLines, List.append_assoc, List.cons_append, List.cons_append, List.nil_append,
      Reading.lines_cons (fileText_plain file.1 hname).noStar hfirst, Reading.lines_cons hpath.noStar hsecond, hrest]
    simp [Reading.addFile, hpending]

/-- A section's rows are read one by one. -/
theorem lines_rows {reading : Reading} (hsection : reading.sectionName = "*L".toList) (rows : List Row)
    (hrows : ∀ row ∈ rows, row.Fits) (rest : List Text) :
    Reading.lines (rows.map Row.text ++ rest) reading =
      Reading.lines rest { reading with
        stratum := { reading.stratum with rows := reading.stratum.rows ++ rows } } := by
  induction rows generalizing reading with
  | nil => simp
  | cons row rows ih =>
    have hline : reading.line row.text = some (reading.addRow row) := by
      unfold Reading.line
      have hnotFiles : reading.sectionName ≠ "*F".toList := by
        rw [hsection]
        decide
      rw [if_neg hnotFiles, if_pos hsection, parseRow_text (hrows row (List.mem_cons_self ..))]
      rfl
    have hrest := @ih (reading.addRow row) hsection
      fun other hother => hrows other (List.mem_cons_of_mem _ hother)
    rw [List.map_cons, List.cons_append, Reading.lines_cons (rowText_plain row).noStar hline, hrest]
    simp [Reading.addRow]

/-- The lines of a stratum, without the one that begins it. -/
def stratumText (files : List (ℕ × Text × Text)) (rows : List Row) : List Text :=
  ["*F".toList] ++ files.flatMap (fun file => fileLines file.1 file.2.1 file.2.2) ++ ["*L".toList] ++
    rows.map Row.text

/-- A stratum whose numbers fit and whose names and paths are plain. -/
structure Stratum.Written (stratum : Stratum) : Prop where
  files : ∀ file ∈ stratum.files, file.1 ≤ maxLine ∧ Plain file.2.1 ∧ Plain file.2.2
  rows : ∀ row ∈ stratum.rows, row.Fits
  distinct : stratum.DistinctFiles
  valid : stratum.ValidRows

/-- A stratum reads back, up to the line that begins another or ends the extension. -/
theorem parseStratum_text {stratum : Stratum} (h : stratum.Written) {stop : Text} (hstar : stop.head? = some '*')
    (hstop : stop = "*E".toList ∨ "*S ".toList.isPrefixOf stop) (rest : List Text) :
    parseStratum (stratumText stratum.files stratum.rows ++ stop :: rest) = some stratum := by
  have hsection : ∀ (name : Text) (rest : List Text) (reading : Reading), name.head? = some '*' →
      ¬(name = "*E".toList ∨ "*S ".toList.isPrefixOf name) →
      Reading.lines (name :: rest) reading = Reading.lines rest { reading with sectionName := name } := by
    intro name rest reading hstar hstop
    rw [Reading.lines, if_pos hstar, if_neg hstop]
  have hread : Reading.lines (stratumText stratum.files stratum.rows ++ stop :: rest) .start =
      some ⟨stratum, "*L".toList, none⟩ := by
    unfold stratumText
    simp only [List.append_assoc, List.cons_append, List.nil_append]
    rw [hsection _ _ _ (by decide) (by decide), lines_files rfl rfl _ h.files,
      hsection _ _ _ (by decide) (by decide), lines_rows rfl _ h.rows, Reading.lines, if_pos hstar, if_pos hstop]
    simp [Reading.start, Stratum.empty]
  unfold parseStratum
  simp only [hread, bind, Option.bind, true_and]
  rw [if_pos ⟨h.distinct, h.valid⟩]
  rfl

end ReadStratum

variable {owner : FileMapping}

section Strata

namespace SourceMap

variable (m : SourceMap)

def kotlinFile (file : FileMapping × ℕ) : ℕ × Text × Text := (file.2 + 1, file.1.name, file.1.path)

def kotlinRow (index : ℕ) (range : RangeMapping) : Row := ⟨range.source, index + 1, range.range, range.dest, 1⟩

def kotlinRows (file : FileMapping × ℕ) : List Row := file.1.ranges.map (kotlinRow file.2)

/-- The stratum of the map's own ranges. -/
def kotlinStratum : Stratum := ⟨m.files.zipIdx.map kotlinFile, m.files.zipIdx.flatMap kotlinRows⟩

def debugRow (call : ℕ × RangeMapping) : Row := ⟨call.1, 1, 1, call.2.dest, call.2.range⟩

/-- The stratum of the calls. -/
def debugStratum (owner : FileMapping) : Stratum := ⟨[(1, owner.name, owner.path)], m.calls.map debugRow⟩

variable {m}

theorem fileId_of_le {index : ℕ} (h : index + 1 ≤ maxLine) : fileId index = .ok (index + 1) := by
  unfold fileId
  rw [Nat.mod_eq_of_lt (Nat.lt_of_lt_of_le (Nat.lt_succ_self index) (Nat.le_succ_of_le h))]
  exact if_pos h

theorem fileRows_eq {index : ℕ} (h : index + 1 ≤ maxLine) (file : FileMapping) :
    fileRows index file = .ok ((kotlinRows (file, index)).map Row.text) := by
  unfold fileRows kotlinRows
  induction file.ranges with
  | nil => rfl
  | cons range ranges ih =>
    rw [List.mapM_cons, ih]
    simp only [fileId_of_le h, bind, Except.bind]
    rfl

theorem rows_eq (files : List (FileMapping × ℕ)) (h : ∀ file ∈ files, file.2 + 1 ≤ maxLine) :
    rows files = .ok ((files.flatMap kotlinRows).map Row.text) := by
  induction files with
  | nil => rfl
  | cons file files ih =>
    have hrest := ih fun other hother => h other (List.mem_cons_of_mem _ hother)
    have hown := fileRows_eq (h file (List.mem_cons_self ..)) file.1
    rw [rows, hown, hrest, List.flatMap_cons, List.map_append]
    rfl

theorem index_le (hm : m.Good) : ∀ file ∈ m.files.zipIdx, file.2 + 1 ≤ maxLine := by
  intro file hfile
  have hlt := List.snd_lt_of_mem_zipIdx hfile
  have hfiles := hm.files_le
  have hused := hm.maxUsed_le
  unfold SourceMap.keys at hfiles
  rw [List.length_map] at hfiles
  omega

/-- The lines a map is written as. -/
theorem renderLines_eq (hm : m.Good) (owner : FileMapping) : m.renderLines owner =
    .ok (["SMAP".toList, owner.name, "Kotlin".toList, "*S Kotlin".toList] ++
      stratumText m.kotlinStratum.files m.kotlinStratum.rows ++ (m.debugLines owner ++ ["*E".toList])) := by
  unfold SourceMap.renderLines stratumText kotlinStratum
  rw [rows_eq _ (index_le hm), List.flatMap_map]
  simp only [bind, Except.bind, List.append_assoc]
  rfl

theorem debugLines_eq (owner : FileMapping) (h : m.calls ≠ []) : m.debugLines owner =
    "*S KotlinDebug".toList :: stratumText (m.debugStratum owner).files (m.debugStratum owner).rows := by
  unfold SourceMap.debugLines stratumText debugStratum
  rw [if_neg h]
  simp only [List.map_map, List.flatMap_cons, List.flatMap_nil, List.append_nil, List.append_assoc,
    List.cons_append, List.nil_append]
  rfl

theorem mem_entries_of_calls {call : ℕ × RangeMapping} (h : call ∈ m.calls) :
    ∃ e ∈ m.entries, e.range = call.2 ∧ e.range.callSite = some call.1 := by
  unfold SourceMap.calls at h
  obtain ⟨range, hrange, hcall⟩ := List.mem_filterMap.mp h
  obtain ⟨file, hfile, hmem⟩ := List.mem_flatMap.mp hrange
  obtain ⟨line, hline, rfl⟩ := Option.map_eq_some_iff.mp hcall
  refine ⟨⟨file.name, file.path, range⟩, ?_, rfl, hline⟩
  simp only [SourceMap.entries, filesEntries, List.mem_flatMap, FileMapping.entriesOf, List.mem_map]
  exact ⟨file, hfile, range, hmem, rfl⟩

theorem mem_entries_of_kotlinRow {row : Row} (h : row ∈ m.kotlinStratum.rows) :
    ∃ e ∈ m.entries, ∃ file ∈ m.files.zipIdx, row = kotlinRow file.2 e.range := by
  obtain ⟨file, hfile, hrow⟩ := List.mem_flatMap.mp h
  obtain ⟨range, hrange, rfl⟩ := List.mem_map.mp hrow
  refine ⟨⟨file.1.name, file.1.path, range⟩, ?_, file, hfile, rfl⟩
  have hmem := List.fst_mem_of_mem_zipIdx hfile
  simp only [SourceMap.entries, filesEntries, List.mem_flatMap, FileMapping.entriesOf, List.mem_map]
  exact ⟨file.1, hmem, range, hrange, rfl⟩

/-- A sound map of plain names is written as a stratum that reads back. -/
theorem kotlinStratum_written (hm : m.Sane Plain) : m.kotlinStratum.Written where
  files file hfile := by
    obtain ⟨mapping, hmapping, rfl⟩ := List.mem_map.mp hfile
    have hmem := List.fst_mem_of_mem_zipIdx hmapping
    have hnames := hm.named (mapping.1.name, mapping.1.path) (List.mem_map_of_mem hmem)
    exact ⟨index_le hm.good mapping hmapping, hnames.1, hnames.2⟩
  rows row hrow := by
    obtain ⟨e, he, file, hfile, rfl⟩ := mem_entries_of_kotlinRow hrow
    have hsound := hm.good.sound e he
    have hsource := hsound.source_le
    have hstart := hsound.source_pos
    have hdest := hsound.dest_le
    have hused := hm.good.maxUsed_le
    have hpos := hsound.range_pos
    have hindex := index_le hm.good file hfile
    have hmax : maxLine ≤ maxU32 := by decide
    have hone : 1 ≤ maxU32 := by decide
    unfold kotlinRow
    exact ⟨by dsimp only; omega, hindex, by dsimp only; omega, by dsimp only; omega, hone⟩
  distinct := by
    constructor
    · intro file hfile
      obtain ⟨mapping, -, rfl⟩ := List.mem_map.mp hfile
      exact Nat.succ_ne_zero _
    · have hids : (m.kotlinStratum.files.map Prod.fst) = (List.range' 0 m.files.length).map (· + 1) := by
        unfold kotlinStratum
        rw [← List.zipIdx_map_snd 0 m.files, List.map_map, List.map_map]
        rfl
      rw [hids]
      exact List.Nodup.map Nat.succ_injective List.nodup_range'
  valid row hrow := by
    obtain ⟨e, he, file, hfile, rfl⟩ := mem_entries_of_kotlinRow hrow
    have hsound := hm.good.sound e he
    have hsource := hsound.source_pos
    have hdest := hsound.dest_pos
    have hrange := hsound.range_pos
    refine ⟨Nat.ne_of_gt hsource, Nat.ne_of_gt hrange, Nat.ne_of_gt hdest, Nat.one_ne_zero, ?_⟩
    exact ⟨kotlinFile file, List.mem_map_of_mem hfile, rfl⟩

theorem debugStratum_written (hm : m.Sane Plain) (howner : owner ∈ m.files) :
    (m.debugStratum owner).Written where
  files file hfile := by
    obtain rfl := List.mem_singleton.mp hfile
    have hnames := hm.named (owner.name, owner.path) (List.mem_map_of_mem howner)
    have hone : 1 ≤ maxLine := by decide
    exact ⟨hone, hnames.1, hnames.2⟩
  rows row hrow := by
    obtain ⟨call, hcall, rfl⟩ := List.mem_map.mp hrow
    obtain ⟨e, he, hrange, hsite⟩ := mem_entries_of_calls hcall
    have hsound := hm.good.sound e he
    have hdest := hsound.dest_le
    have hused := hm.good.maxUsed_le
    have hline := hsound.callSite call.1 hsite
    have hpos := hsound.range_pos
    have hstart := hsound.dest_pos
    have hmax : maxLine ≤ maxU32 := by decide
    have hfile : 1 ≤ maxLine := by decide
    have hone : 1 ≤ maxU32 := by decide
    rw [hrange] at hdest hpos hstart
    unfold debugRow
    exact ⟨by dsimp only; omega, hfile, hone, by dsimp only; omega, by dsimp only; omega⟩
  distinct := ⟨fun file hfile => (by
    obtain rfl := List.mem_singleton.mp hfile
    exact Nat.one_ne_zero), List.nodup_singleton _⟩
  valid row hrow := by
    obtain ⟨call, hcall, rfl⟩ := List.mem_map.mp hrow
    obtain ⟨e, he, hrange, hsite⟩ := mem_entries_of_calls hcall
    have hsound := hm.good.sound e he
    have hline := (hsound.callSite call.1 hsite).1
    have hdest := hsound.dest_pos
    have hpos := hsound.range_pos
    rw [hrange] at hdest hpos
    exact ⟨Nat.ne_of_gt hline, Nat.one_ne_zero, Nat.ne_of_gt hdest, Nat.ne_of_gt hpos, _,
      List.mem_singleton_self _, rfl⟩

end SourceMap

end Strata

section ReadBack

/-- A line of the extension holds no line break. -/
def OneLine (line : Text) : Prop := '\n' ∉ line ∧ line.getLast? ≠ some '\r'

theorem Plain.oneLine {text : Text} (h : Plain text) : OneLine text := ⟨h.noFeed, h.noReturn⟩

theorem stratumText_lines {stratum : Stratum} (h : stratum.Written) {line : Text}
    (hline : line ∈ stratumText stratum.files stratum.rows) :
    OneLine line ∧ line ≠ "*S KotlinDebug".toList := by
  have hplain : ∀ text : Text, Plain text → OneLine text ∧ text ≠ "*S KotlinDebug".toList := by
    intro text htext
    refine ⟨htext.oneLine, ?_⟩
    rintro rfl
    exact htext.noStar rfl
  unfold stratumText at hline
  simp only [List.mem_append, List.mem_singleton, List.mem_flatMap, List.mem_map] at hline
  obtain ((rfl | ⟨file, hfile, hmem⟩) | rfl) | ⟨row, -, rfl⟩ := hline
  · exact ⟨⟨by decide, by decide⟩, by decide⟩
  · obtain ⟨-, hname, hpath⟩ := h.files file hfile
    unfold fileLines at hmem
    obtain rfl | hmem := List.mem_cons.mp hmem
    · exact hplain _ (fileText_plain file.1 hname)
    · obtain rfl := List.mem_singleton.mp hmem
      exact hplain _ hpath
  · exact ⟨⟨by decide, by decide⟩, by decide⟩
  · exact hplain _ (rowText_plain row)

theorem stratumLines_append {marker : Text} {before : List Text} (h : ∀ line ∈ before, line ≠ marker)
    (after : List Text) :
    DependencyMap.stratumLines marker (before ++ after) = DependencyMap.stratumLines marker after := by
  unfold DependencyMap.stratumLines
  rw [List.dropWhile_append_of_pos]
  intro line hline
  simpa using h line hline

theorem stratumLines_cons (marker : Text) (after : List Text) :
    DependencyMap.stratumLines marker (marker :: after) = after := by
  unfold DependencyMap.stratumLines
  simp

variable {m : SourceMap}

/-- The strata a map is written with; a map without calls has no debug stratum. -/
def SourceMap.written (m : SourceMap) (owner : FileMapping) : DependencyMap :=
  ⟨m.kotlinStratum, if m.calls = [] then .empty else m.debugStratum owner⟩

theorem kotlinStratum_ne (hm : m.Sane Plain) (howner : owner ∈ m.files) :
    ¬(m.kotlinStratum.files = [] ∨ m.kotlinStratum.rows = []) := by
  have hkeys : m.keys ≠ [] := List.ne_nil_of_mem (List.mem_map_of_mem howner)
  have hentries := hm.good.filled hkeys
  obtain ⟨e, he⟩ := List.exists_mem_of_ne_nil _ hentries
  simp only [SourceMap.entries, filesEntries, List.mem_flatMap, FileMapping.entriesOf, List.mem_map] at he
  obtain ⟨file, hfile, range, hrange, -⟩ := he
  obtain ⟨i, hi⟩ := List.getElem?_of_mem hfile
  have hmem : (file, i) ∈ m.files.zipIdx := List.mem_zipIdx_iff_getElem?.mpr hi
  rintro (hnone | hnone)
  · exact List.ne_nil_of_mem (List.mem_map_of_mem hmem) hnone
  · have hrow : SourceMap.kotlinRow i range ∈ m.kotlinStratum.rows :=
      List.mem_flatMap.mpr ⟨(file, i), hmem, List.mem_map_of_mem hrange⟩
    exact List.ne_nil_of_mem hrow hnone

/-- What a map is written as reads back as its strata. -/
theorem parse_lines (hm : m.Sane Plain) (howner : owner ∈ m.files) {lines : List Text}
    (hlines : m.renderLines owner = .ok lines) :
    DependencyMap.parse (lines.flatMap (· ++ ['\n'])) = some (m.written owner) := by
  have hname := (hm.named (owner.name, owner.path) (List.mem_map_of_mem howner)).1
  have hkotlin := SourceMap.kotlinStratum_written hm
  have hdebug := SourceMap.debugStratum_written hm howner
  rw [SourceMap.renderLines_eq hm.good] at hlines
  obtain rfl := Except.ok.inj hlines
  -- the head of the extension, and its first stratum, name no debug stratum
  have hbefore : ∀ line ∈ ["SMAP".toList, owner.name, "Kotlin".toList, "*S Kotlin".toList] ++
      stratumText m.kotlinStratum.files m.kotlinStratum.rows,
      OneLine line ∧ line ≠ "*S KotlinDebug".toList := by
    intro line hline
    obtain hline | hline := List.mem_append.mp hline
    · simp only [List.mem_cons, List.not_mem_nil, or_false] at hline
      obtain rfl | rfl | rfl | rfl := hline
      · exact ⟨⟨by decide, by decide⟩, by decide⟩
      · refine ⟨hname.oneLine, ?_⟩
        intro heq
        exact hname.noStar (by rw [heq]; rfl)
      · exact ⟨⟨by decide, by decide⟩, by decide⟩
      · exact ⟨⟨by decide, by decide⟩, by decide⟩
    · exact stratumText_lines hkotlin hline
  have hafter : ∀ line ∈ m.debugLines owner ++ ["*E".toList], OneLine line := by
    intro line hline
    obtain hline | hline := List.mem_append.mp hline
    · by_cases hcalls : m.calls = []
      · unfold SourceMap.debugLines at hline
        rw [if_pos hcalls] at hline
        cases hline
      · rw [SourceMap.debugLines_eq owner hcalls] at hline
        obtain rfl | hline := List.mem_cons.mp hline
        · exact ⟨by decide, by decide⟩
        · exact (stratumText_lines hdebug hline).1
    · obtain rfl := List.mem_singleton.mp hline
      exact ⟨by decide, by decide⟩
  have hread : Strings.lines ((["SMAP".toList, owner.name, "Kotlin".toList, "*S Kotlin".toList] ++
      stratumText m.kotlinStratum.files m.kotlinStratum.rows ++
        (m.debugLines owner ++ ["*E".toList])).flatMap (· ++ ['\n'])) =
      ["SMAP".toList, owner.name, "Kotlin".toList, "*S Kotlin".toList] ++
        stratumText m.kotlinStratum.files m.kotlinStratum.rows ++ (m.debugLines owner ++ ["*E".toList]) := by
    have hall : ∀ line ∈ ["SMAP".toList, owner.name, "Kotlin".toList, "*S Kotlin".toList] ++
        stratumText m.kotlinStratum.files m.kotlinStratum.rows ++ (m.debugLines owner ++ ["*E".toList]),
        OneLine line := by
      intro line hline
      obtain hline | hline := List.mem_append.mp hline
      · exact (hbefore line hline).1
      · exact hafter line hline
    exact lines_unlines (fun line hline => (hall line hline).1) fun line hline => (hall line hline).2
  have hfirst : parseStratum (stratumText m.kotlinStratum.files m.kotlinStratum.rows ++
      (m.debugLines owner ++ ["*E".toList])) = some m.kotlinStratum := by
    by_cases hcalls : m.calls = []
    · have hnone : m.debugLines owner = [] := if_pos hcalls
      rw [hnone]
      exact parseStratum_text hkotlin (by decide) (by decide) []
    · rw [SourceMap.debugLines_eq owner hcalls]
      exact parseStratum_text hkotlin (by decide) (by decide) _
  have hdebugLines : DependencyMap.stratumLines "*S KotlinDebug".toList
      (["SMAP".toList, owner.name, "Kotlin".toList, "*S Kotlin".toList] ++
        stratumText m.kotlinStratum.files m.kotlinStratum.rows ++ (m.debugLines owner ++ ["*E".toList])) =
      if m.calls = [] then []
      else stratumText (m.debugStratum owner).files (m.debugStratum owner).rows ++ ["*E".toList] := by
    rw [stratumLines_append fun line hline => (hbefore line hline).2]
    by_cases hcalls : m.calls = []
    · have hnone : m.debugLines owner = [] := if_pos hcalls
      rw [hnone, if_pos hcalls]
      decide
    · rw [SourceMap.debugLines_eq owner hcalls, if_neg hcalls, List.cons_append, stratumLines_cons]
  have hshape : ["SMAP".toList, owner.name, "Kotlin".toList, "*S Kotlin".toList] ++
      stratumText m.kotlinStratum.files m.kotlinStratum.rows ++ (m.debugLines owner ++ ["*E".toList]) =
      "SMAP".toList :: owner.name :: "Kotlin".toList :: "*S Kotlin".toList ::
        (stratumText m.kotlinStratum.files m.kotlinStratum.rows ++ (m.debugLines owner ++ ["*E".toList])) := by
    simp only [List.cons_append, List.nil_append]
  unfold DependencyMap.parse
  rw [hread]
  rw [hshape] at hdebugLines ⊢
  dsimp only
  rw [if_neg (not_not.mpr rfl), stratumLines_cons, hfirst, hdebugLines]
  simp only [bind, Option.bind]
  rw [if_neg (kotlinStratum_ne hm howner)]
  by_cases hcalls : m.calls = []
  · rw [if_pos hcalls, if_pos rfl, SourceMap.written, if_pos hcalls]
    rfl
  · have hdebugRead := @parseStratum_text (m.debugStratum owner) hdebug "*E".toList (by decide) (by decide) []
    have hne : stratumText (m.debugStratum owner).files (m.debugStratum owner).rows ++ ["*E".toList] ≠ [] := by simp
    rw [if_neg hcalls, if_neg hne, hdebugRead, SourceMap.written, if_neg hcalls]
    rfl

theorem sourceOf_kotlinRow {r : RangeMapping} {maxUsed : ℕ} (h : r.Sound maxUsed) (index line : ℕ) : (SourceMap.kotlinRow index r).sourceOf line =
      if r.coversDest line then some (r.source + (line - r.dest)) else none := by
  have hpos := h.range_pos
  have hsource := h.source_le
  have hdest := h.dest_le
  have hmax : maxLine + 1 ≤ maxU32 := by decide
  have hcovered : ¬maxU32 < r.range * 1 := by
    have hstart := h.dest_pos
    omega
  unfold Row.sourceOf SourceMap.kotlinRow
  dsimp only
  rw [if_neg hcovered]
  by_cases hcovers : r.coversDest line = true
  · rw [if_pos hcovers]
    rw [coversDest_iff] at hcovers
    have hbelow : ¬line < r.dest := by omega
    have hin : ¬r.range * 1 ≤ line - r.dest := by omega
    have hfits : ¬maxU32 < r.source + (line - r.dest) / 1 := by
      rw [Nat.div_one]
      omega
    rw [if_neg hbelow, if_neg hin, if_neg hfits, Nat.div_one]
  · rw [if_neg hcovers]
    rw [coversDest_iff] at hcovers
    by_cases hbelow : line < r.dest
    · rw [if_pos hbelow]
    · have hout : r.range * 1 ≤ line - r.dest := by omega
      rw [if_neg hbelow, if_pos hout]

theorem sourceOf_debugRow {r : RangeMapping} {maxUsed call : ℕ} (h : r.Sound maxUsed) (hused : maxUsed ≤ maxLine)
    (hcall : call ≤ maxLine) (line : ℕ) :
    (SourceMap.debugRow (call, r)).sourceOf line = if r.coversDest line then some call else none := by
  have hpos := h.range_pos
  have hstart := h.dest_pos
  have hdest := h.dest_le
  have hmax : maxLine + 1 ≤ maxU32 := by decide
  have hcovered : ¬maxU32 < 1 * r.range := by omega
  unfold Row.sourceOf SourceMap.debugRow
  dsimp only
  rw [if_neg hcovered]
  by_cases hcovers : r.coversDest line = true
  · rw [if_pos hcovers]
    rw [coversDest_iff] at hcovers
    have hbelow : ¬line < r.dest := by omega
    have hin : ¬1 * r.range ≤ line - r.dest := by omega
    have hzero : (line - r.dest) / r.range = 0 := Nat.div_eq_of_lt (by omega)
    have hfits : ¬maxU32 < call + 0 := by omega
    rw [if_neg hbelow, if_neg hin, hzero, if_neg hfits, Nat.add_zero]
  · rw [if_neg hcovers]
    rw [coversDest_iff] at hcovers
    by_cases hbelow : line < r.dest
    · rw [if_pos hbelow]
    · have hout : 1 * r.range ≤ line - r.dest := by omega
      rw [if_neg hbelow, if_pos hout]

/-- The first range that covers a line, with its file and the file's place. -/
def covering (files : List (FileMapping × ℕ)) (line : ℕ) : Option (FileMapping × ℕ × RangeMapping) :=
  files.findSome? fun file => (file.1.ranges.find? (·.coversDest line)).map fun range => (file.1, file.2, range)

theorem resolve_eq_covering (files : List FileMapping) (line start : ℕ) :
    (files.findSome? fun file => (file.ranges.find? (·.coversDest line)).map fun range =>
      (⟨file.name, file.path, range.source + (line - range.dest), range.callSite⟩ : Position)) =
    (covering (files.zipIdx start) line).map fun found =>
      ⟨found.1.name, found.1.path, found.2.2.source + (line - found.2.2.dest), found.2.2.callSite⟩ := by
  induction files generalizing start with
  | nil => rfl
  | cons file files ih =>
    unfold covering
    rw [List.zipIdx_cons, List.findSome?_cons, List.findSome?_cons]
    cases hfind : file.ranges.find? (·.coversDest line) with
    | none => exact ih (start + 1)
    | some range => rfl

/-- The rows find the range that covers a line first. -/
theorem rows_eq_covering {maxUsed : ℕ} (files : List (FileMapping × ℕ))
    (hsound : ∀ file ∈ files, ∀ range ∈ file.1.ranges, range.Sound maxUsed) (line : ℕ) :
    ((files.flatMap SourceMap.kotlinRows).findSome? fun row =>
      (row.sourceOf line).map fun source => (row.file, source)) =
    (covering files line).map fun found => (found.2.1 + 1, found.2.2.source + (line - found.2.2.dest)) := by
  induction files with
  | nil => rfl
  | cons file files ih =>
    have hrest := ih fun other hother => hsound other (List.mem_cons_of_mem _ hother)
    have hown : ∀ ranges : List RangeMapping, (∀ range ∈ ranges, range.Sound maxUsed) →
        ((ranges.map (SourceMap.kotlinRow file.2)).findSome? fun row =>
          (row.sourceOf line).map fun source => (row.file, source)) =
        (ranges.find? (·.coversDest line)).map fun range =>
          (file.2 + 1, range.source + (line - range.dest)) := by
      intro ranges hranges
      induction ranges with
      | nil => rfl
      | cons range ranges ih =>
        have hrow := sourceOf_kotlinRow (hranges range (List.mem_cons_self ..)) file.2 line
        have htail := ih fun other hother => hranges other (List.mem_cons_of_mem _ hother)
        rw [List.map_cons, List.findSome?_cons, hrow, List.find?_cons]
        cases hcovers : range.coversDest line with
        | true => rfl
        | false => exact htail
    have hfirst := hown file.1.ranges (hsound file (List.mem_cons_self ..))
    unfold covering
    rw [List.flatMap_cons, List.findSome?_append, hrest, SourceMap.kotlinRows, hfirst, List.findSome?_cons]
    cases hfind : file.1.ranges.find? (·.coversDest line) with
    | none => rfl
    | some range => rfl

theorem mem_of_covering {files : List (FileMapping × ℕ)} {line : ℕ} {found : FileMapping × ℕ × RangeMapping}
    (h : covering files line = some found) :
    (found.1, found.2.1) ∈ files ∧ found.2.2 ∈ found.1.ranges ∧ found.2.2.coversDest line = true := by
  obtain ⟨file, hfile, hfound⟩ := List.exists_of_findSome?_eq_some h
  obtain ⟨range, hrange, rfl⟩ := Option.map_eq_some_iff.mp hfound
  have hcovers : range.coversDest line = true := by simpa using List.find?_some hrange
  exact ⟨hfile, List.mem_of_find?_eq_some hrange, hcovers⟩

/-- A file's number finds it. -/
theorem find_kotlinFile {file : FileMapping} {index : ℕ} (h : (file, index) ∈ m.files.zipIdx) :
    (m.kotlinStratum.files.find? fun known => decide (known.1 = index + 1)) =
      some (index + 1, file.name, file.path) := by
  unfold SourceMap.kotlinStratum
  cases hfind : (m.files.zipIdx.map SourceMap.kotlinFile).find? fun known => decide (known.1 = index + 1) with
  | none =>
    have hnone := List.find?_eq_none.mp hfind (index + 1, file.name, file.path) (List.mem_map_of_mem h)
    simp at hnone
  | some known =>
    obtain ⟨⟨other, place⟩, hmem, rfl⟩ := List.mem_map.mp (List.mem_of_find?_eq_some hfind)
    have hid := List.find?_some hfind
    have hplace : place = index := by simpa [SourceMap.kotlinFile] using hid
    subst hplace
    have hfile := List.mem_zipIdx_iff_getElem?.mp h
    have hother := List.mem_zipIdx_iff_getElem?.mp hmem
    rw [hfile] at hother
    obtain rfl := Option.some.inj hother
    rfl

/-- The stratum read back resolves a line as the map does. -/
theorem kotlinStratum_resolve (hm : m.Good) (line : ℕ) : m.kotlinStratum.resolve line =
    (m.resolve line).map fun p => (p.name, p.path, p.source) := by
  have hsound : ∀ file ∈ m.files.zipIdx, ∀ range ∈ file.1.ranges, range.Sound m.maxUsed := by
    intro file hfile range hrange
    obtain ⟨i, hi⟩ := List.getElem?_of_mem hrange
    exact hm.sound _ (mem_entries (List.mem_zipIdx_iff_getElem?.mp hfile) hi)
  have hrows := rows_eq_covering m.files.zipIdx hsound line
  have hresolve : m.resolve line = (covering m.files.zipIdx line).map fun found =>
      ⟨found.1.name, found.1.path, found.2.2.source + (line - found.2.2.dest), found.2.2.callSite⟩ :=
    resolve_eq_covering m.files line 0
  unfold Stratum.resolve
  rw [hresolve]
  unfold SourceMap.kotlinStratum at hrows ⊢
  dsimp only at hrows ⊢
  rw [hrows]
  cases hcovering : covering m.files.zipIdx line with
  | none => rfl
  | some found =>
    obtain ⟨hfile, hrange, hcovers⟩ := mem_of_covering hcovering
    have hfind := find_kotlinFile hfile
    unfold SourceMap.kotlinStratum at hfind
    dsimp only at hfind
    have hle : found.2.2.source + (line - found.2.2.dest) ≤ maxLine := by
      have hpos : m.resolve line = some _ := hresolve.trans (by rw [hcovering]; rfl)
      exact (hm.source_le hpos).2
    simp only [Option.map_some, bind, Option.bind, hfind]
    rw [if_pos hle]
    rfl

/-- The first call of entries that are apart is the call of the entry that covers the line. -/
theorem find_calls {entries : List Entry} (h : entries.Pairwise fun e e' => Apart e.range e'.range) (line : ℕ) :
    ((entries.filterMap fun e => e.range.callSite.map fun call => (call, e.range)).find?
      fun call => call.2.coversDest line) =
    (entries.find? fun e => e.range.coversDest line).bind fun e =>
      e.range.callSite.map fun call => (call, e.range) := by
  induction entries with
  | nil => rfl
  | cons e entries ih =>
    obtain ⟨hhead, htail⟩ := List.pairwise_cons.mp h
    have hrest := ih htail
    rw [List.filterMap_cons, List.find?_cons]
    cases hcovers : e.range.coversDest line with
    | false =>
      cases hsite : e.range.callSite with
      | none => exact hrest
      | some call =>
        simp only [Option.map_some, List.find?_cons, hcovers]
        exact hrest
    | true =>
      cases hsite : e.range.callSite with
      | some call => simp [hcovers, hsite]
      | none =>
        -- no other entry covers the line, so no call does
        have hothers : (entries.find? fun e => e.range.coversDest line) = none := by
          rw [List.find?_eq_none]
          intro other hother hcovered
          exact not_apart hcovers hcovered (hhead other hother)
        simp only [Option.map_none, Option.bind_some, hsite]
        rw [hrest, hothers]
        rfl

theorem calls_eq (m : SourceMap) :
    m.calls = m.entries.filterMap fun e => e.range.callSite.map fun call => (call, e.range) := by
  unfold SourceMap.calls SourceMap.entries filesEntries
  induction m.files with
  | nil => rfl
  | cons file files ih =>
    rw [List.flatMap_cons, List.filterMap_append, ih, List.flatMap_cons, List.filterMap_append,
      FileMapping.entriesOf, List.filterMap_map]
    rfl

/-- The debug stratum read back names the call of a line exactly when the map records one. -/
theorem written_callSite (hm : m.Good) (owner : FileMapping) (line : ℕ) : (m.written owner).callSite line =
    ((m.resolve line).bind (·.callSite)).map fun call => (call, owner.name, owner.path) := by
  have hsite : ((m.resolve line).bind (·.callSite)) =
      (m.calls.find? fun call => call.2.coversDest line).map Prod.fst := by
    rw [calls_eq, find_calls hm.apart, resolve_eq]
    cases hfind : m.entries.find? fun e => e.range.coversDest line with
    | none => rfl
    | some e =>
      cases hcall : e.range.callSite with
      | none => simp [Entry.position, hcall]
      | some call => simp [Entry.position, hcall]
  rw [hsite]
  by_cases hcalls : m.calls = []
  · unfold SourceMap.written DependencyMap.callSite
    rw [if_pos hcalls, hcalls]
    rfl
  · have hrows : ∀ calls : List (ℕ × RangeMapping), (∀ call ∈ calls, call ∈ m.calls) →
        ((calls.map SourceMap.debugRow).find? fun row => (row.sourceOf line).isSome) =
          (calls.find? fun call => call.2.coversDest line).map SourceMap.debugRow := by
      intro calls hmem
      induction calls with
      | nil => rfl
      | cons call calls ih =>
        have hrest := ih fun other hother => hmem other (List.mem_cons_of_mem _ hother)
        obtain ⟨e, he, hrange, hcall⟩ := SourceMap.mem_entries_of_calls (hmem call (List.mem_cons_self ..))
        have hsound := hm.sound e he
        have hline := (hsound.callSite call.1 hcall).2
        rw [hrange] at hsound
        have hrow : ((SourceMap.debugRow call).sourceOf line).isSome = call.2.coversDest line := by
          rw [@sourceOf_debugRow call.2 m.maxUsed call.1 hsound hm.maxUsed_le hline]
          cases call.2.coversDest line <;> rfl
        rw [List.map_cons, List.find?_cons, hrow, List.find?_cons]
        cases hcovers : call.2.coversDest line with
        | true => rfl
        | false => exact hrest
    have hfind := hrows m.calls fun _ hcall => hcall
    unfold SourceMap.written DependencyMap.callSite
    rw [if_neg hcalls]
    unfold SourceMap.debugStratum
    dsimp only
    rw [hfind]
    cases hfound : m.calls.find? fun call => call.2.coversDest line with
    | none => rfl
    | some call =>
      obtain ⟨e, he, -, hcall⟩ := SourceMap.mem_entries_of_calls (List.mem_of_find?_eq_some hfound)
      have hline := ((hm.sound e he).callSite call.1 hcall).2
      simp only [Option.map_some, bind, Option.bind, SourceMap.debugRow, List.find?_cons, decide_true]
      rw [if_pos hline]
      rfl

end ReadBack

/-- A map built of plain names is written without overflow, and what is written reads back: every output line
stands for the same file, path and line, and has a call exactly where the map records one. -/
theorem sourceMap_reads_back {m : SourceMap} (h : Built Plain m) :
    ∃ rendered, m.render = .ok rendered ∧ ∀ text, rendered = some text →
      ∃ owner map, m.files.head? = some owner ∧ DependencyMap.parse text = some map ∧
        ∀ line, map.resolve line = (m.resolve line).map (fun p => (p.name, p.path, p.source)) ∧
          map.callSite line =
            ((m.resolve line).bind (·.callSite)).map fun call => (call, owner.name, owner.path) := by
  have hm := h.sane
  unfold SourceMap.render
  by_cases hnone : (m.isUnstarted || (m.isEmpty && !m.keepTrivial)) = true
  · rw [if_pos hnone]
    exact ⟨none, rfl, fun text htext => (by cases htext)⟩
  · rw [if_neg hnone]
    cases howner : m.files.head? with
    | none => exact ⟨none, rfl, fun text htext => (by cases htext)⟩
    | some owner =>
      have hlines := SourceMap.renderLines_eq hm.good owner
      refine ⟨_, by simp only [hlines, bind, Except.bind]; rfl, ?_⟩
      intro text htext
      obtain rfl := Option.some.inj htext
      refine ⟨owner, m.written owner, rfl, parse_lines hm (List.mem_of_head? howner) hlines, ?_⟩
      intro line
      exact ⟨kotlinStratum_resolve hm.good line, written_callSite hm.good owner line⟩

/-- The map of a two-file class: its own lines, and a line inlined into it. -/
theorem sourceMap_reads_back_inlined : ∃ m, Built Plain m ∧ (m.render.map Option.isSome = .ok true) ∧
    ∃ rendered, m.render = .ok rendered ∧ ∀ text, rendered = some text →
      ∃ owner map, m.files.head? = some owner ∧ DependencyMap.parse text = some map ∧
        ∀ line, map.resolve line = (m.resolve line).map (fun p => (p.name, p.path, p.source)) ∧
          map.callSite line =
            ((m.resolve line).bind (·.callSite)).map fun call => (call, owner.name, owner.path) := by
  have hstart : Built Plain (.new "Main.kt".toList "MainKt".toList 3) :=
    .new (by decide) ⟨by decide, by decide, by decide⟩ ⟨by decide, by decide, by decide⟩
  have hrun : ∃ m, (Call.line "Lib.kt".toList "LibKt".toList 5 2).run (.new "Main.kt".toList "MainKt".toList 3) =
      .ok (some 4, m) ∧ (m.render.map Option.isSome = .ok true) := ⟨_, rfl, rfl⟩
  obtain ⟨m, hcall, hrender⟩ := hrun
  have hvalid : (Call.line "Lib.kt".toList "LibKt".toList 5 2).Valid Plain :=
    ⟨⟨by decide, by decide, fun call hcall => (by
      obtain rfl := Option.some.inj hcall
      exact ⟨by decide, by decide⟩)⟩, ⟨by decide, by decide, by decide⟩, ⟨by decide, by decide, by decide⟩⟩
  have hbuilt : Built Plain m := .call hstart _ hvalid hcall
  exact ⟨m, hbuilt, hrender, sourceMap_reads_back hbuilt⟩

end Krusty.Jvm.SourceMaps
