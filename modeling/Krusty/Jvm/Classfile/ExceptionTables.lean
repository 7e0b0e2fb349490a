import Krusty.Jvm.MethodNode.Nodes
import Mathlib.Data.List.Basic
import Mathlib.Data.UInt

/-! The exception table of a method whose unreachable code the class writer cuts out. -/
namespace Krusty.Jvm.Classfile

/-- One row: the protected byte offsets, the handler's, and the class it catches. -/
structure ExceptionRow where
  start : UInt16
  stop : UInt16
  handler : UInt16
  catchType : UInt16
  deriving DecidableEq

namespace ExceptionRow

def Covers (row : ExceptionRow) (pc : ℕ) : Prop := row.start.toNat ≤ pc ∧ pc < row.stop.toNat

instance (row : ExceptionRow) (pc : ℕ) : Decidable (row.Covers pc) := inferInstanceAs (Decidable (_ ∧ _))

def target (row : ExceptionRow) : UInt16 × UInt16 := (row.handler, row.catchType)

end ExceptionRow

/-- The handlers of the instruction at `pc`, the first to be tried first, each with the class it catches. -/
def handlersAt (exceptions : List ExceptionRow) (pc : ℕ) : List (UInt16 × UInt16) :=
  (exceptions.filter fun row => row.Covers pc).map ExceptionRow.target

structure CodeRange where
  start : ℕ
  stop : ℕ
  deriving DecidableEq

/-- What is left of one row once `cutStart..cutEnd` is cut out of it. -/
def cutRow (cutStart cutEnd : UInt16) (row : ExceptionRow) : List ExceptionRow :=
  if cutStart ≥ row.stop ∨ cutEnd ≤ row.start then [row]
  else if cutStart ≤ row.start then
    if cutEnd < row.stop then [{ row with start := cutEnd }] else []
  else if cutEnd ≥ row.stop then [{ row with stop := cutStart }]
  else [{ row with stop := cutStart }, { row with start := cutEnd }]

/-- The table with `dead` cut out of every protected range. -/
def removeRange (exceptions : List ExceptionRow) (dead : CodeRange) : List ExceptionRow :=
  exceptions.flatMap (cutRow dead.start.toUInt16 dead.stop.toUInt16)

/-- Every unreachable block cut out in turn, as the writer does before it writes a method. -/
def removeDead (exceptions : List ExceptionRow) (dead : List CodeRange) : List ExceptionRow :=
  dead.foldl removeRange exceptions

/-- The bytes of an unreachable block overwritten: nothing until its end, and then a throw. -/
def fillDead (code : List UInt8) (dead : CodeRange) : List UInt8 :=
  code.mapIdx fun pc byte =>
    if dead.start ≤ pc ∧ pc < dead.stop - 1 then nop else if pc = dead.stop - 1 then athrow else byte

section Cut

variable {cutStart cutEnd : UInt16} {row : ExceptionRow} {pc : ℕ}

theorem handlersAt_append (rows rows' : List ExceptionRow) (pc : ℕ) :
    handlersAt (rows ++ rows') pc = handlersAt rows pc ++ handlersAt rows' pc := by
  unfold handlersAt
  rw [List.filter_append, List.map_append]

theorem handlersAt_cons (row : ExceptionRow) (rows : List ExceptionRow) (pc : ℕ) :
    handlersAt (row :: rows) pc =
      (if row.start.toNat ≤ pc ∧ pc < row.stop.toNat then [row.target] else []) ++ handlersAt rows pc := by
  unfold handlersAt
  by_cases hcovers : row.start.toNat ≤ pc ∧ pc < row.stop.toNat
  · simp [ExceptionRow.Covers, hcovers]
  · simp only [ExceptionRow.Covers, List.filter_cons, hcovers, decide_false, if_false]
    rfl

/-- The pieces of a row cover what it covered outside the cut, once, and nothing inside. -/
theorem handlersAt_cutRow (hcut : cutStart ≤ cutEnd) : handlersAt (cutRow cutStart cutEnd row) pc =
    if cutStart.toNat ≤ pc ∧ pc < cutEnd.toNat then []
    else if row.start.toNat ≤ pc ∧ pc < row.stop.toNat then [row.target] else [] := by
  have hnil : handlersAt [] pc = [] := rfl
  have hle : cutStart.toNat ≤ cutEnd.toNat := hcut
  unfold cutRow
  by_cases hdisjoint : cutStart ≥ row.stop ∨ cutEnd ≤ row.start
  · have hdisjoint' : row.stop.toNat ≤ cutStart.toNat ∨ cutEnd.toNat ≤ row.start.toNat := hdisjoint
    rw [if_pos hdisjoint, handlersAt_cons, hnil, List.append_nil]
    split_ifs <;> first | rfl | omega
  rw [if_neg hdisjoint]
  have hmeet : cutStart.toNat < row.stop.toNat ∧ row.start.toNat < cutEnd.toNat := by
    rw [not_or, ge_iff_le, UInt16.not_le, UInt16.not_le] at hdisjoint
    exact hdisjoint
  by_cases hstart : cutStart ≤ row.start
  · have hstart' : cutStart.toNat ≤ row.start.toNat := hstart
    rw [if_pos hstart]
    by_cases hend : cutEnd < row.stop
    · have hend' : cutEnd.toNat < row.stop.toNat := hend
      rw [if_pos hend, handlersAt_cons, hnil, List.append_nil]
      dsimp only
      split_ifs <;> first | rfl | omega
    · have hend' : row.stop.toNat ≤ cutEnd.toNat := UInt16.not_lt.mp hend
      rw [if_neg hend, hnil]
      split_ifs <;> first | rfl | omega
  rw [if_neg hstart]
  have hstart' : row.start.toNat < cutStart.toNat := UInt16.not_le.mp hstart
  by_cases hend : cutEnd ≥ row.stop
  · have hend' : row.stop.toNat ≤ cutEnd.toNat := hend
    rw [if_pos hend, handlersAt_cons, hnil, List.append_nil]
    dsimp only
    split_ifs <;> first | rfl | omega
  · have hend' : cutEnd.toNat < row.stop.toNat := UInt16.not_le.mp hend
    rw [if_neg hend, handlersAt_cons, handlersAt_cons, hnil, List.append_nil]
    dsimp only
    split_ifs <;> first | rfl | omega

theorem cutRow_nonempty (hrow : row.start < row.stop) : ∀ piece ∈ cutRow cutStart cutEnd row,
    piece.start < piece.stop := by
  unfold cutRow
  simp only [UInt16.le_iff_toNat_le, UInt16.lt_iff_toNat_lt, ge_iff_le] at *
  intro piece hpiece
  split_ifs at hpiece <;>
    simp only [List.mem_cons, List.not_mem_nil, or_false] at hpiece
  · rw [hpiece]
    exact hrow
  · rw [hpiece]
    assumption
  · rw [hpiece]
    simp only
    omega
  · obtain rfl | rfl := hpiece <;> simp only <;> omega

end Cut

section Table

variable {exceptions : List ExceptionRow} {dead : CodeRange} {pc : ℕ}

theorem handlersAt_removeRange (hdead : dead.start ≤ dead.stop) (hcode : dead.stop < 2 ^ 16) :
    handlersAt (removeRange exceptions dead) pc =
      if dead.start ≤ pc ∧ pc < dead.stop then [] else handlersAt exceptions pc := by
  have hstart : dead.start.toUInt16.toNat = dead.start := Nat.mod_eq_of_lt (by omega)
  have hstop : dead.stop.toUInt16.toNat = dead.stop := Nat.mod_eq_of_lt hcode
  have hcut : dead.start.toUInt16 ≤ dead.stop.toUInt16 := by
    rw [UInt16.le_iff_toNat_le, hstart, hstop]
    exact hdead
  induction exceptions with
  | nil => simp [removeRange, handlersAt]
  | cons row rows ih =>
    have hsplit : removeRange (row :: rows) dead =
        cutRow dead.start.toUInt16 dead.stop.toUInt16 row ++ removeRange rows dead := rfl
    rw [hsplit, handlersAt_append, ih, handlersAt_cutRow hcut, handlersAt_cons row rows, hstart, hstop]
    by_cases hin : dead.start ≤ pc ∧ pc < dead.stop
    · rw [if_pos hin, if_pos hin, if_pos hin, List.append_nil]
    · rw [if_neg hin, if_neg hin, if_neg hin]

theorem removeRange_nonempty (hrows : ∀ row ∈ exceptions, row.start < row.stop) :
    ∀ row ∈ removeRange exceptions dead, row.start < row.stop := by
  intro piece hpiece
  obtain ⟨row, hrow, hcut⟩ := List.mem_flatMap.mp hpiece
  exact cutRow_nonempty (hrows row hrow) piece hcut

/-- An instruction outside a dead range keeps its handlers, in their order; one inside has none left; and
no row is left empty. A method's code ends before offset 65536, and its rows protect something. -/
theorem removeRange_exact (exceptions : List ExceptionRow) (dead : CodeRange)
    (hdead : dead.start ≤ dead.stop) (hcode : dead.stop < 2 ^ 16)
    (hrows : ∀ row ∈ exceptions, row.start < row.stop) :
    (∀ pc, pc < dead.start ∨ dead.stop ≤ pc →
      handlersAt (removeRange exceptions dead) pc = handlersAt exceptions pc) ∧
    (∀ pc, dead.start ≤ pc → pc < dead.stop → handlersAt (removeRange exceptions dead) pc = []) ∧
    ∀ row ∈ removeRange exceptions dead, row.start < row.stop := by
  refine ⟨?_, ?_, removeRange_nonempty hrows⟩
  · intro pc hpc
    rw [handlersAt_removeRange hdead hcode, if_neg (by omega)]
  · intro pc hlow hhigh
    rw [handlersAt_removeRange hdead hcode, if_pos ⟨hlow, hhigh⟩]

/-- The table of `a_dead_range_is_cut_out_of_the_ranges_it_touches`. -/
def touchedTable : List ExceptionRow :=
  [⟨0, 4, 20, 0⟩, ⟨6, 12, 20, 0⟩, ⟨2, 16, 20, 3⟩, ⟨4, 8, 20, 0⟩, ⟨12, 14, 20, 0⟩]

theorem removeRange_exact_touched :
    handlersAt (removeRange touchedTable ⟨3, 9⟩) 2 = handlersAt touchedTable 2 ∧
      handlersAt (removeRange touchedTable ⟨3, 9⟩) 5 = [] ∧
      ∀ row ∈ removeRange touchedTable ⟨3, 9⟩, row.start < row.stop := by
  obtain ⟨houtside, hinside, hrows⟩ :=
    removeRange_exact touchedTable ⟨3, 9⟩ (by decide) (by decide) (by decide)
  exact ⟨houtside 2 (by decide), hinside 5 (by decide) (by decide), hrows⟩

/-- The blocks lie in a method's code, and apart from each other. -/
structure Blocks (code : List UInt8) (dead : List CodeRange) : Prop where
  within : ∀ d ∈ dead, d.start < d.stop ∧ d.stop ≤ code.length
  apart : dead.Pairwise fun d d' => d.stop ≤ d'.start ∨ d'.stop ≤ d.start
  short : code.length < 2 ^ 16

variable {code : List UInt8} {blocks : List CodeRange}

theorem fillDead_getElem? (hdead : dead.start < dead.stop) : (fillDead code dead)[pc]? = code[pc]?.map fun byte =>
    if dead.start ≤ pc ∧ pc < dead.stop then if pc + 1 = dead.stop then athrow else nop else byte := by
  rw [fillDead, List.getElem?_mapIdx]
  congr 1
  funext byte
  split_ifs <;> first | rfl | omega

theorem length_foldl_fillDead : (blocks.foldl fillDead code).length = code.length := by
  induction blocks generalizing code with
  | nil => rfl
  | cons d blocks ih => rw [List.foldl_cons, ih, fillDead, List.length_mapIdx]

/-- Blocks leave alone what is in none of them. -/
theorem outside (code : List UInt8) (exceptions : List ExceptionRow) (hblocks : ∀ d ∈ blocks, d.start < d.stop ∧ d.stop < 2 ^ 16)
    (hpc : ∀ d ∈ blocks, ¬ (d.start ≤ pc ∧ pc < d.stop)) : (blocks.foldl fillDead code)[pc]? = code[pc]? ∧
      handlersAt (removeDead exceptions blocks) pc = handlersAt exceptions pc := by
  induction blocks generalizing code exceptions with
  | nil => exact ⟨rfl, rfl⟩
  | cons d blocks ih =>
    obtain ⟨hlt, hshort⟩ := hblocks d List.mem_cons_self
    have hd := hpc d List.mem_cons_self
    obtain ⟨hbyte, hhandlers⟩ := ih (fillDead code d) (removeRange exceptions d)
      (fun d' hd' => hblocks d' (List.mem_cons_of_mem _ hd')) fun d' hd' => hpc d' (List.mem_cons_of_mem _ hd')
    constructor
    · rw [List.foldl_cons, hbyte, fillDead_getElem? hlt]
      simp only [if_neg hd, Option.map_id']
    · rw [handlersAt_removeRange hlt.le hshort, if_neg hd] at hhandlers
      exact hhandlers

theorem removeDead_nonempty (hrows : ∀ row ∈ exceptions, row.start < row.stop) :
    ∀ row ∈ removeDead exceptions blocks, row.start < row.stop := by
  induction blocks generalizing exceptions with
  | nil => exact hrows
  | cons d blocks ih => exact ih (removeRange_nonempty hrows)

/-- The unreachable blocks of a method overwritten: what is in none of them keeps its byte and its handlers, each is
nops up to a last throw, which nothing handles, and no row is left empty. -/
theorem unreachable_overwritten (h : Blocks code blocks) (hrows : ∀ row ∈ exceptions, row.start < row.stop) :
    (blocks.foldl fillDead code).length = code.length ∧
    (∀ pc, (∀ d ∈ blocks, ¬ (d.start ≤ pc ∧ pc < d.stop)) → (blocks.foldl fillDead code)[pc]? = code[pc]? ∧
      handlersAt (removeDead exceptions blocks) pc = handlersAt exceptions pc) ∧
    (∀ d ∈ blocks, ∀ pc, d.start ≤ pc → pc < d.stop →
      (blocks.foldl fillDead code)[pc]? = some (if pc + 1 = d.stop then athrow else nop) ∧
      handlersAt (removeDead exceptions blocks) pc = []) ∧
    ∀ row ∈ removeDead exceptions blocks, row.start < row.stop := by
  have hall : ∀ d ∈ blocks, d.start < d.stop ∧ d.stop < 2 ^ 16 := fun d hd =>
    ⟨(h.within d hd).1, (h.within d hd).2.trans_lt h.short⟩
  refine ⟨length_foldl_fillDead, fun pc hpc => outside _ _ hall hpc, fun d hd pc hlow hhigh => ?_,
    removeDead_nonempty hrows⟩
  obtain ⟨hlt, hstop⟩ := hall d hd
  have hlength := (h.within d hd).2
  obtain ⟨before, after, hsplit⟩ := List.append_of_mem hd
  have hapart := h.apart
  rw [hsplit] at hapart hall
  have hafter := List.pairwise_cons.mp (List.pairwise_append.mp hapart).2.1
  have hlater : ∀ d' ∈ after, ¬ (d'.start ≤ pc ∧ pc < d'.stop) := fun d' hd' hin => by
    have hdisjoint := hafter.1 d' hd'
    omega
  obtain ⟨hbyte, hhandlers⟩ := outside (fillDead (before.foldl fillDead code) d)
    (removeRange (removeDead exceptions before) d)
    (fun d' hd' => hall d' (List.mem_append_right _ (List.mem_cons_of_mem _ hd'))) hlater
  rw [handlersAt_removeRange hlt.le hstop, if_pos ⟨hlow, hhigh⟩] at hhandlers
  have hsome : (before.foldl fillDead code)[pc]? ≠ none := by
    rw [ne_eq, List.getElem?_eq_none_iff, length_foldl_fillDead]
    omega
  obtain ⟨byte, hold⟩ := Option.ne_none_iff_exists'.mp hsome
  rw [fillDead_getElem? hlt, hold] at hbyte
  rw [hsplit, removeDead, List.foldl_append, List.foldl_append]
  refine ⟨hbyte.trans ?_, hhandlers⟩
  simp only [Option.map_some, if_pos (And.intro hlow hhigh)]

theorem unreachable_overwritten_touched :
    ([⟨3, 9⟩, ⟨12, 13⟩].foldl fillDead (List.replicate 24 0x2a))[8]? = some athrow ∧
      handlersAt (removeDead touchedTable [⟨3, 9⟩, ⟨12, 13⟩]) 8 = [] := by
  have hblocks : Blocks (List.replicate 24 0x2a) [⟨3, 9⟩, ⟨12, 13⟩] := ⟨by decide, by decide, by decide⟩
  have hrows : ∀ row ∈ touchedTable, row.start < row.stop := by decide
  obtain ⟨-, -, hinside, -⟩ := unreachable_overwritten hblocks hrows
  exact hinside ⟨3, 9⟩ (by decide) 8 (by decide) (by decide)

end Table

end Krusty.Jvm.Classfile
