import Krusty.KtString.Canonical
import Krusty.Lib.Splits

/-! The fold of `trimIndent` and `trimMargin`, beside the library functions it stands for. -/
namespace Krusty

open Splits

def LF : UInt16 := 0x0a

def CR : UInt16 := 0x0d

/-- `char::is_whitespace` on a scalar value below 0x10000. -/
def isWhiteSpace (code : ℕ) : Bool :=
  0x09 ≤ code && code ≤ 0x0d || code = 0x20 || code = 0x85 || code = 0xa0 || code = 0x1680 ||
    0x2000 ≤ code && code ≤ 0x200a || code = 0x2028 || code = 0x2029 || code = 0x202f || code = 0x205f ||
    code = 0x3000

def isKotlinWhitespace (unit : UInt16) : Bool :=
  if 0x1c ≤ unit.toNat ∧ unit.toNat ≤ 0x1f then true
  else unit ≠ 0x85 && (Utf16.ofUnit unit).any fun c => isWhiteSpace c.toNat

def isBlankLine (line : List UInt16) : Bool := line.all isKotlinWhitespace

def joinLines (lines : List (List UInt16)) : KtString :=
  KtString.fromUnits (lines.zipIdx.flatMap fun (line, index) => if index > 0 then LF :: line else line)

/-- The smallest indent of the lines that are not blank. -/
def minimumIndent (lines : List (List UInt16)) : ℕ :=
  (((lines.filter fun line => !isBlankLine line).map fun line => (line.takeWhile isKotlinWhitespace).length).min?).getD 0

def trimIndent (value : KtString) : KtString :=
  let lines := split LF value.units
  let minimum := minimumIndent lines
  let last := lines.length - 1
  joinLines (lines.zipIdx.filterMap fun (line, index) =>
    if (index = 0 || index = last) && isBlankLine line then none
    else some (line.drop (min minimum line.length)))

def trimMargin (value margin : KtString) : KtString :=
  let lines := split LF value.units
  let last := lines.length - 1
  joinLines (lines.zipIdx.filterMap fun (line, index) =>
    if (index = 0 || index = last) && isBlankLine line then none
    else
      let indent := (line.takeWhile isKotlinWhitespace).length
      let trimmed := line.drop indent
      some (if margin.units.isPrefixOf trimmed then trimmed.drop margin.units.length else line))

/-! The functions of the Kotlin library, on the code units of a `String`. -/
namespace Library

/-- `Char.isWhitespace`: `Character.isSpaceChar` or one of the controls of `Character.isWhitespace`. -/
def isWhitespace (unit : UInt16) : Bool :=
  let separator := [0x20, 0xa0, 0x1680, 0x2000, 0x2001, 0x2002, 0x2003, 0x2004, 0x2005, 0x2006, 0x2007, 0x2008,
    0x2009, 0x200a, 0x2028, 0x2029, 0x202f, 0x205f, 0x3000].contains unit
  let control := [0x09, 0x0a, 0x0b, 0x0c, 0x0d, 0x1c, 0x1d, 0x1e, 0x1f].contains unit
  separator || control

/-- `String.lines`: a line ends at CR LF, at LF or at CR. -/
def lines : List UInt16 → List (List UInt16)
  | [] => [[]]
  | u :: rest =>
    if u = CR then
      match rest with
      | [] => [[], []]
      | u' :: rest => if u' = LF then [] :: lines rest else [] :: lines (u' :: rest)
    else if u = LF then [] :: lines rest
    else (lines rest).modifyHead (u :: ·)

def isBlank (line : List UInt16) : Bool := line.all isWhitespace

def indentWidth (line : List UInt16) : ℕ := line.findIdx fun u => !isWhitespace u

/-- `reindent`: blank first and last lines are dropped, and what `cut` leaves of the others is rejoined. -/
def reindent (lines : List (List UInt16)) (cut : List UInt16 → Option (List UInt16)) : List UInt16 :=
  [LF].intercalate (lines.zipIdx.filterMap fun (line, index) =>
    if (index = 0 || index = lines.length - 1) && isBlank line then none else some ((cut line).getD line))

def trimIndent (value : List UInt16) : List UInt16 :=
  let lines := lines value
  let minCommonIndent := ((lines.filter fun line => !isBlank line).map indentWidth).min?.getD 0
  reindent lines fun line => some (line.drop minCommonIndent)

def trimMargin (value marginPrefix : List UInt16) : List UInt16 :=
  reindent (lines value) fun line =>
    if isBlank line then none
    else if marginPrefix.isPrefixOf (line.drop (indentWidth line)) then
      some (line.drop (indentWidth line + marginPrefix.length))
    else none

end Library

example : (trimIndent (.ofString "\n  a\n    b\n")).units = Utf16.encode "a\n  b" := by decide

end Krusty

/-! The folds split at line feeds only. They give what the library gives where no carriage return is left in a line. -/
namespace Krusty

open Splits

theorem isWhiteSpace_iff {code : ℕ} : isWhiteSpace code = true ↔
    0x09 ≤ code ∧ code ≤ 0x0d ∨ code = 0x20 ∨ code = 0x85 ∨ code = 0xa0 ∨ code = 0x1680 ∨
      0x2000 ≤ code ∧ code ≤ 0x200a ∨ code = 0x2028 ∨ code = 0x2029 ∨ code = 0x202f ∨ code = 0x205f ∨
      code = 0x3000 := by
  simp only [isWhiteSpace, Bool.or_eq_true, Bool.and_eq_true, decide_eq_true_eq, or_assoc]

/-- A surrogate is not whitespace. -/
theorem ofUnit_any (unit : UInt16) :
    ((Utf16.ofUnit unit).any fun c => isWhiteSpace c.toNat) = isWhiteSpace unit.toNat := by
  cases h : Utf16.ofUnit unit with
  | none =>
    have hsurrogate := Utf16.ofUnit_eq_none h
    unfold Utf16.IsHigh Utf16.IsLow at hsurrogate
    have hfalse : ¬isWhiteSpace unit.toNat = true := by
      rw [isWhiteSpace_iff]
      omega
    exact (Bool.eq_false_iff.mpr hfalse).symm
  | some c =>
    unfold Utf16.ofUnit at h
    split_ifs at h with hvalid
    cases h
    rw [Option.any_some, Utf16.toNat_scalar hvalid]

theorem isKotlinWhitespace_eq (unit : UInt16) : isKotlinWhitespace unit = Library.isWhitespace unit := by
  have heq (u : UInt16) : unit = u ↔ unit.toNat = u.toNat := UInt16.toNat_inj.symm
  have hcode : isKotlinWhitespace unit = true ↔
      0x1c ≤ unit.toNat ∧ unit.toNat ≤ 0x1f ∨ unit.toNat ≠ 0x85 ∧ isWhiteSpace unit.toNat = true := by
    rw [isKotlinWhitespace, ofUnit_any]
    split_ifs with h
    · simp [h]
    · simp only [h, false_or, Bool.and_eq_true, decide_eq_true_eq, ne_eq, heq]
      rfl
  rw [Bool.eq_iff_iff, hcode, isWhiteSpace_iff]
  simp only [Library.isWhitespace, Bool.or_eq_true, List.contains_iff_mem, List.mem_cons, List.not_mem_nil, or_false, heq,
    UInt16.reduceToNat]
  omega

theorem isBlankLine_eq (line : List UInt16) : isBlankLine line = Library.isBlank line := by
  rw [isBlankLine, funext isKotlinWhitespace_eq]
  rfl

theorem length_takeWhile_eq (line : List UInt16) :
    (line.takeWhile isKotlinWhitespace).length = Library.indentWidth line := by
  rw [funext isKotlinWhitespace_eq]
  induction line with
  | nil => rfl
  | cons u line ih =>
    rw [Library.indentWidth, List.findIdx_cons, List.takeWhile_cons]
    cases Library.isWhitespace u with
    | false => rfl
    | true => exact congrArg (· + 1) ih

/-! The library's lines, from the pieces between line feeds: each but the last loses a carriage return at its end,
and a carriage return left in one ends a line. -/

def chopCr (line : List UInt16) : List UInt16 := dropEnd (· = CR) line

def endLines : List (List UInt16) → List (List UInt16)
  | [] => []
  | [piece] => split CR piece
  | piece :: next :: rest => split CR (chopCr piece) ++ endLines (next :: rest)

theorem endLines_cons (piece : List UInt16) {rest : List (List UInt16)} (h : rest ≠ []) :
    endLines (piece :: rest) = split CR (chopCr piece) ++ endLines rest := by
  cases rest with
  | nil => exact absurd rfl h
  | cons next rest => rfl

theorem modifyHead_append {α : Type*} (f : α → α) {xs : List α} (h : xs ≠ []) (ys : List α) :
    (xs ++ ys).modifyHead f = xs.modifyHead f ++ ys := by
  cases xs with
  | nil => exact absurd rfl h
  | cons x xs => rfl

variable {line : List UInt16}

theorem chopCr_cons {u : UInt16} (h : u ≠ CR ∨ line ≠ []) : chopCr (u :: line) = u :: chopCr line := by
  cases line with
  | nil =>
    have hu : u ≠ CR := h.resolve_right (absurd rfl)
    simp [chopCr, dropEnd, hu]
  | cons v line => rfl

theorem Library.lines_lf (rest : List UInt16) : lines (LF :: rest) = [] :: lines rest := by
  have hlf : ¬LF = CR := by decide
  rw [lines.eq_def]
  simp only [if_neg hlf, if_true]

theorem Library.lines_cons {u : UInt16} (hcr : ¬u = CR) (hlf : ¬u = LF) (rest : List UInt16) :
    lines (u :: rest) = (lines rest).modifyHead (u :: ·) := by
  rw [lines.eq_def]
  simp only [if_neg hcr, if_neg hlf]

theorem Library.lines_eq (value : List UInt16) : lines value = endLines (split LF value) := by
  induction value using Library.lines.induct with
  | case1 => rfl
  | case2 => decide
  | case3 rest ih =>
    have hne : split LF rest ≠ [] := split_ne_nil LF rest
    have hcr : CR ≠ LF := by decide
    simp only [lines]
    rw [split_cons_of_ne hcr, split_cons_self, List.modifyHead_cons, endLines_cons _ hne, ih]
    rfl
  | case4 u' rest h ih =>
    have hcr : CR ≠ LF := by decide
    have hu' : (split LF (u' :: rest)) = (split LF rest).modifyHead (u' :: ·) := split_cons_of_ne h rest
    obtain ⟨part, parts, hparts⟩ := exists_split_eq LF rest
    rw [hparts, List.modifyHead_cons] at hu'
    have hchop : chopCr (CR :: u' :: part) = CR :: chopCr (u' :: part) := chopCr_cons (.inr (List.cons_ne_nil u' part))
    simp only [lines, if_neg h]
    rw [split_cons_of_ne hcr, ih, hu', List.modifyHead_cons]
    cases parts with
    | nil => rfl
    | cons next rest =>
      rw [endLines, endLines, hchop, split_cons_self]
      rfl
  | case5 rest h ih =>
    have hne : split LF rest ≠ [] := split_ne_nil LF rest
    rw [split_cons_self, endLines_cons _ hne, lines_lf, ih]
    rfl
  | case6 u rest h h' ih =>
    obtain ⟨part, parts, hparts⟩ := exists_split_eq LF rest
    rw [split_cons_of_ne h', lines_cons h h', ih, hparts, List.modifyHead_cons]
    cases parts with
    | nil => exact (split_cons_of_ne h part).symm
    | cons next rest =>
      rw [endLines, endLines, chopCr_cons (.inl h), split_cons_of_ne h, modifyHead_append _ (split_ne_nil CR _)]

/-! What is joined. -/

theorem flatMap_zipIdx_succ (lines : List (List UInt16)) (start : ℕ) :
    ((lines.zipIdx (start + 1)).flatMap fun (line, index) => if index > 0 then LF :: line else line) =
      lines.flatMap (LF :: ·) := by
  induction lines generalizing start with
  | nil => rfl
  | cons line lines ih =>
    have hindex : start + 1 > 0 := start.succ_pos
    rw [List.zipIdx_cons, List.flatMap_cons, List.flatMap_cons, ih (start + 1)]
    simp only [if_pos hindex]

theorem intercalate_cons_eq (line : List UInt16) (lines : List (List UInt16)) :
    [LF].intercalate (line :: lines) = line ++ lines.flatMap (LF :: ·) := by
  induction lines generalizing line with
  | nil => simp
  | cons next lines ih =>
    rw [List.intercalate_cons_cons, ih next, List.flatMap_cons, List.append_assoc]
    rfl

theorem units_joinLines (lines : List (List UInt16)) : (joinLines lines).units = [LF].intercalate lines := by
  rw [joinLines, KtString.units_fromUnits]
  cases lines with
  | nil => rfl
  | cons line lines =>
    rw [List.zipIdx_cons, List.flatMap_cons, flatMap_zipIdx_succ, intercalate_cons_eq]
    rfl

/-- What is kept of `lines`. -/
def keptLines (lines : List (List UInt16)) : List (List UInt16) := dropEnds isBlankLine lines

def cutMargin (margin line : List UInt16) : List UInt16 :=
  let trimmed := line.drop (line.takeWhile isKotlinWhitespace).length
  if margin.isPrefixOf trimmed then trimmed.drop margin.length else line

theorem units_trimIndent (value : KtString) : (trimIndent value).units = [LF].intercalate
    ((keptLines (split LF value.units)).map fun line => line.drop (minimumIndent (split LF value.units))) := by
  rw [trimIndent, units_joinLines, keptLines, ← zipIdx_filterMap_dropEnds]
  simp only [← List.drop_eq_drop_min]

theorem units_trimMargin (value margin : KtString) : (trimMargin value margin).units = [LF].intercalate
    ((keptLines (split LF value.units)).map (cutMargin margin.units)) := by
  rw [trimMargin, units_joinLines, keptLines, ← zipIdx_filterMap_dropEnds]
  rfl

theorem Library.reindent_eq (lines : List (List UInt16)) (cut : List UInt16 → Option (List UInt16)) :
    reindent lines cut = [LF].intercalate ((keptLines lines).map fun line => (cut line).getD line) := by
  rw [reindent, keptLines, funext isBlankLine_eq, ← zipIdx_filterMap_dropEnds]

theorem Library.trimIndent_eq (value : List UInt16) : trimIndent value = [LF].intercalate
    ((keptLines (lines value)).map fun line => line.drop (minimumIndent (lines value))) := by
  rw [trimIndent, reindent_eq, minimumIndent, funext isBlankLine_eq, funext length_takeWhile_eq]
  rfl

theorem Library.drop_indentWidth (h : isBlank line) : line.drop (indentWidth line) = [] := by
  have hwidth : indentWidth line = line.length := by
    rw [indentWidth, List.findIdx_eq_length]
    intro u hu
    simpa using List.all_eq_true.mp h u hu
  rw [hwidth, List.drop_length]

/-- A blank line has no margin, as the margin is not empty. -/
theorem Library.trimMargin_eq (value : List UInt16) {margin : List UInt16} (h : isBlank margin = false) :
    trimMargin value margin = [LF].intercalate ((keptLines (lines value)).map (cutMargin margin)) := by
  have hne : margin ≠ [] := by
    intro hnil
    rw [hnil] at h
    exact absurd h (by decide)
  have hcut (line : List UInt16) : (if isBlank line then none
      else if margin.isPrefixOf (line.drop (indentWidth line)) then some (line.drop (indentWidth line + margin.length))
      else none).getD line = cutMargin margin line := by
    rw [cutMargin, length_takeWhile_eq]
    split_ifs with hblank hprefix hprefix
    · rw [drop_indentWidth hblank, List.isPrefixOf_iff_prefix, List.prefix_nil] at hprefix
      exact absurd hprefix hne
    · rfl
    · rw [List.drop_drop]
      rfl
    · rfl
  rw [trimMargin, reindent_eq]
  simp only [hcut]

/-! When the two agree. -/

/-- The only carriage return, if there is one, ends a blank first line together with the line feed after it. -/
def NoReturnKept (units : List UInt16) : Prop :=
  CR ∉ units ∨ ∃ first rest, units = first ++ CR :: LF :: rest ∧ isBlankLine first ∧ LF ∉ first ∧ CR ∉ first ∧ CR ∉ rest

/-- Nothing but whitespace on at most two pieces, and no more than an empty line between the first line and the last. -/
def NothingKept (units : List UInt16) : Prop :=
  isBlankLine units ∧ (split LF units).length ≤ 2 ∧
    ((Library.lines units).tail.dropLast = [] ∨ (Library.lines units).tail.dropLast = [[]])

theorem chopCr_concat (line : List UInt16) : chopCr (line ++ [CR]) = line := by
  rw [chopCr, dropEnd_concat, if_pos (decide_eq_true rfl), List.append_nil]

theorem chopCr_of_notMem (h : CR ∉ line) : chopCr line = line := by
  induction line with
  | nil => rfl
  | cons u line ih =>
    have hu : u ≠ CR := fun h' => h (h' ▸ List.mem_cons_self)
    have hline : CR ∉ line := fun h' => h (List.mem_cons_of_mem u h')
    rw [chopCr_cons (.inl hu), ih hline]

theorem endLines_concat (pieces : List (List UInt16)) (last : List UInt16) :
    endLines (pieces ++ [last]) = (pieces.flatMap fun piece => split CR (chopCr piece)) ++ split CR last := by
  induction pieces with
  | nil => rfl
  | cons piece pieces ih =>
    have hne : pieces ++ [last] ≠ [] := List.append_ne_nil_of_right_ne_nil pieces (List.cons_ne_nil last [])
    rw [List.cons_append, endLines_cons _ hne, ih, List.flatMap_cons, List.append_assoc]

variable {pieces : List (List UInt16)}

theorem flatMap_chopCr (h : ∀ piece ∈ pieces, CR ∉ piece) :
    (pieces.flatMap fun piece => split CR (chopCr piece)) = pieces := by
  induction pieces with
  | nil => rfl
  | cons piece pieces ih =>
    have hpiece := h piece List.mem_cons_self
    rw [List.flatMap_cons, chopCr_of_notMem hpiece, split_of_notMem hpiece,
      ih fun other hother => h other (List.mem_cons_of_mem piece hother), List.singleton_append]

theorem endLines_of_notMem (h : ∀ piece ∈ pieces, CR ∉ piece) : endLines pieces = pieces := by
  cases pieces.eq_nil_or_concat' with
  | inl hnil =>
    rw [hnil]
    rfl
  | inr hconcat =>
    obtain ⟨front, last, heq⟩ := hconcat
    subst heq
    have hlast := h last (List.mem_append_right front List.mem_cons_self)
    rw [endLines_concat, flatMap_chopCr fun piece hpiece => h piece (List.mem_append_left _ hpiece), split_of_notMem hlast]

theorem mem_endLines (h : line ∈ endLines pieces) : CR ∉ line ∧ ∀ u ∈ line, ∃ piece ∈ pieces, u ∈ piece := by
  induction pieces with
  | nil => cases h
  | cons piece pieces ih =>
    by_cases hnil : pieces = []
    · rw [hnil] at h
      have hpart := mem_split h
      exact ⟨hpart.1, fun u hu => ⟨piece, List.mem_cons_self, hpart.2 u hu⟩⟩
    · rw [endLines_cons piece hnil] at h
      have hcases := List.mem_append.mp h
      cases hcases with
      | inl h =>
        have hpart := mem_split h
        exact ⟨hpart.1, fun u hu => ⟨piece, List.mem_cons_self, mem_of_mem_dropEnd (hpart.2 u hu)⟩⟩
      | inr h =>
        have hrest := ih h
        constructor
        · exact hrest.1
        · intro u hu
          obtain ⟨other, hother, hmem⟩ := hrest.2 u hu
          exact ⟨other, List.mem_cons_of_mem piece hother, hmem⟩

theorem Library.mem_lines {value line : List UInt16} (h : line ∈ lines value) :
    CR ∉ line ∧ LF ∉ line ∧ ∀ u ∈ line, u ∈ value := by
  rw [lines_eq] at h
  have hline := mem_endLines h
  constructor
  · exact hline.1
  constructor
  · intro hmem
    obtain ⟨piece, hpiece, hlf⟩ := hline.2 LF hmem
    exact (mem_split hpiece).1 hlf
  · intro u hu
    obtain ⟨piece, hpiece, hmem⟩ := hline.2 u hu
    exact (mem_split hpiece).2 u hmem

/-- What the library keeps, and the indent it removes, where only a blank first line has a carriage return. -/
theorem keptLines_eq_of_noReturnKept {units : List UInt16} (h : NoReturnKept units) :
    keptLines (Library.lines units) = keptLines (split LF units) ∧
      minimumIndent (Library.lines units) = minimumIndent (split LF units) := by
  cases h with
  | inl h =>
    have hsame : endLines (split LF units) = split LF units :=
      endLines_of_notMem fun piece hpiece hcr => h ((mem_split hpiece).2 CR hcr)
    rw [Library.lines_eq, hsame]
    exact ⟨rfl, rfl⟩
  | inr h =>
    obtain ⟨first, rest, heq, hblank, hlf, hcr, hrest⟩ := h
    have hpiece : LF ∉ first ++ [CR] := by
      intro hmem
      have hcases := List.mem_append.mp hmem
      cases hcases with
      | inl hmem => exact hlf hmem
      | inr hmem => exact absurd (List.mem_singleton.mp hmem) (by decide)
    have hsplit : split LF units = (first ++ [CR]) :: split LF rest := by
      rw [heq, ← split_append hpiece, List.append_assoc]
      rfl
    have hlines : Library.lines units = first :: split LF rest := by
      have hsame : endLines (split LF rest) = split LF rest :=
        endLines_of_notMem fun piece hpiece hmem => hrest ((mem_split hpiece).2 CR hmem)
      rw [Library.lines_eq, hsplit, endLines_cons _ (split_ne_nil LF rest), chopCr_concat, split_of_notMem hcr, hsame,
        List.singleton_append]
    have hblank' : isBlankLine (first ++ [CR]) := by
      rw [isBlankLine, List.all_append, Bool.and_eq_true]
      exact ⟨hblank, by decide⟩
    rw [hsplit, hlines]
    constructor
    · rw [keptLines, keptLines, dropEnds, dropEnds, if_pos hblank, if_pos hblank']
    · rw [minimumIndent, minimumIndent, List.filter_cons_of_neg (by simpa using hblank),
        List.filter_cons_of_neg (by simpa using hblank')]

theorem isBlankLine_of_subset {line units : List UInt16} (h : isBlankLine units) (hsub : ∀ u ∈ line, u ∈ units) :
    isBlankLine line := List.all_eq_true.mpr fun u hu => List.all_eq_true.mp h u (hsub u hu)

theorem keptLines_lines_of_isBlankLine {units : List UInt16} (h : isBlankLine units) :
    keptLines (Library.lines units) = (Library.lines units).tail.dropLast :=
  dropEnds_of_all fun _ hline => isBlankLine_of_subset h (Library.mem_lines hline).2.2

theorem keptLines_split_of_isBlankLine {units : List UInt16} (h : isBlankLine units) :
    keptLines (split LF units) = (split LF units).tail.dropLast :=
  dropEnds_of_all fun _ hline => isBlankLine_of_subset h (mem_split hline).2

theorem cutMargin_nil (margin : List UInt16) : cutMargin margin [] = [] := by
  rw [cutMargin]
  split_ifs
  · exact List.drop_nil
  · rfl

/-- No line has a margin with a line feed in it. -/
theorem cutMargin_of_lf {margin line : List UInt16} (hmargin : LF ∈ margin) (hline : LF ∉ line) :
    cutMargin margin line = line := by
  have hprefix : ¬margin.isPrefixOf (line.drop (line.takeWhile isKotlinWhitespace).length) := by
    rw [List.isPrefixOf_iff_prefix]
    intro h
    exact hline (List.mem_of_mem_drop (h.subset hmargin))
  rw [cutMargin, if_neg hprefix]

theorem map_cutMargin_of_lf {margin : List UInt16} {lines : List (List UInt16)} (hmargin : LF ∈ margin)
    (hlines : ∀ line ∈ lines, LF ∉ line) : (keptLines lines).map (cutMargin margin) = keptLines lines := by
  conv_rhs => rw [← List.map_id (keptLines lines)]
  exact List.map_congr_left fun line hline => cutMargin_of_lf hmargin (hlines line (mem_of_mem_dropEnds hline))

theorem eq_chopCr_concat (h : CR ∈ line) (hchop : CR ∉ chopCr line) : line = chopCr line ++ [CR] := by
  cases line.eq_nil_or_concat' with
  | inl hnil =>
    rw [hnil] at h
    cases h
  | inr hconcat =>
    obtain ⟨front, last, heq⟩ := hconcat
    subst heq
    by_cases hlast : last = CR
    · rw [hlast, chopCr_concat]
    · have hsame : chopCr (front ++ [last]) = front ++ [last] := by
        rw [chopCr, dropEnd_concat, if_neg (by simpa using hlast)]
      rw [hsame] at hchop
      exact absurd h hchop

section Necessity

variable {units : List UInt16}
  (hjoin : [LF].intercalate (keptLines (split LF units)) = [LF].intercalate (keptLines (Library.lines units)))

include hjoin

theorem notMem_of_mem_keptLines {piece : List UInt16} (h : piece ∈ keptLines (split LF units)) : CR ∉ piece := by
  intro hcr
  have hmem := @mem_intercalate_of_mem _ _ LF _ _ h hcr
  rw [hjoin] at hmem
  cases mem_intercalate hmem with
  | inl heq => exact absurd heq (by decide)
  | inr hline =>
    obtain ⟨line, hline, hcr⟩ := hline
    exact (Library.mem_lines (mem_of_mem_dropEnds hline)).1 hcr

theorem length_keptLines_eq :
    (keptLines (split LF units)).length - 1 = (keptLines (Library.lines units)).length - 1 := by
  have hsplit := @count_intercalate _ (keptLines (split LF units)) LF _ fun piece hpiece =>
    (mem_split (mem_of_mem_dropEnds hpiece)).1
  have hlines := @count_intercalate _ (keptLines (Library.lines units)) LF _ fun line hline =>
    (Library.mem_lines (mem_of_mem_dropEnds hline)).2.1
  rw [← hsplit, hjoin, hlines]

theorem nothingKept_of_isBlankLine (hblank : isBlankLine units) (hlen : (split LF units).length ≤ 2) :
    NothingKept units := by
  have hnone : keptLines (split LF units) = [] := by
    rw [keptLines_split_of_isBlankLine hblank]
    apply List.eq_nil_of_length_eq_zero
    rw [List.length_dropLast, List.length_tail]
    omega
  rw [hnone, keptLines_lines_of_isBlankLine hblank] at hjoin
  exact ⟨hblank, hlen, eq_of_intercalate_eq_nil hjoin.symm⟩

/-- On one piece, what is kept is all of it. -/
theorem agree_of_single {piece : List UInt16} (h : split LF units = [piece]) :
    NoReturnKept units ∨ NothingKept units := by
  have hunits : units = piece := by
    rw [← intercalate_split LF units, h, List.intercalate_singleton]
  by_cases hblank : isBlankLine units
  · have hlen : (split LF units).length ≤ 2 := by
      rw [h, List.length_singleton]
      omega
    exact .inr (nothingKept_of_isBlankLine hjoin hblank hlen)
  · have hkept : piece ∈ keptLines (split LF units) := by
      rw [h, ← hunits, keptLines, dropEnds, if_neg hblank]
      exact List.mem_cons_self
    have hcr := notMem_of_mem_keptLines hjoin hkept
    exact .inl (.inl (hunits ▸ hcr))

/-- On more pieces, as many lines are kept as pieces, so that no carriage return stands alone. -/
theorem agree_of_concat {first last : List UInt16} {mid : List (List UInt16)}
    (h : split LF units = first :: (mid ++ [last])) : NoReturnKept units ∨ NothingKept units := by
  have hkept : keptLines (split LF units) =
      (if isBlankLine first then [] else [first]) ++ mid ++ if isBlankLine last then [] else [last] := by
    rw [h]
    exact dropEnds_concat isBlankLine first mid last
  have hunits : units = first ++ LF :: [LF].intercalate (mid ++ [last]) := by
    have hne : mid ++ [last] ≠ [] := List.append_ne_nil_of_right_ne_nil mid (List.cons_ne_nil last [])
    conv_lhs => rw [← intercalate_split LF units, h, List.intercalate_cons_of_ne_nil hne]
    rw [List.append_assoc, List.singleton_append]
  by_cases hnone : keptLines (split LF units) = []
  · rw [hkept] at hnone
    have hmid : mid = [] := List.append_eq_nil_iff.mp (List.append_eq_nil_iff.mp hnone).1 |>.2
    have hfirst : isBlankLine first := by
      by_contra hblank
      simp [hblank] at hnone
    have hlast : isBlankLine last := by
      by_contra hblank
      simp [hblank] at hnone
    have hblank : isBlankLine units := by
      rw [hunits, hmid, List.nil_append, List.intercalate_singleton, isBlankLine, List.all_append, List.all_cons,
        Bool.and_eq_true, Bool.and_eq_true]
      exact ⟨hfirst, by decide, hlast⟩
    have hlen : (split LF units).length ≤ 2 := by
      rw [h, hmid]
      simp
    exact .inr (nothingKept_of_isBlankLine hjoin hblank hlen)
  · have hmid : ∀ piece ∈ mid, CR ∉ piece := by
      intro piece hpiece
      apply notMem_of_mem_keptLines hjoin
      rw [hkept]
      exact List.mem_append_left _ (List.mem_append_right _ hpiece)
    obtain ⟨line, lines, hfront⟩ := exists_split_eq CR (chopCr first)
    have hback := (split CR last).eq_nil_or_concat'.resolve_left (split_ne_nil CR last)
    obtain ⟨lines', line', hback⟩ := hback
    have hall : Library.lines units = line :: (lines ++ mid ++ lines' ++ [line']) := by
      rw [Library.lines_eq, h, ← List.cons_append, endLines_concat, List.flatMap_cons, flatMap_chopCr hmid, hfront, hback]
      simp only [List.cons_append, List.append_assoc]
    have hkept' : keptLines (Library.lines units) =
        (if isBlankLine line then [] else [line]) ++ (lines ++ mid ++ lines') ++ if isBlankLine line' then [] else [line'] := by
      rw [hall]
      exact dropEnds_concat isBlankLine line (lines ++ mid ++ lines') line'
    -- a first or last piece that is not blank is kept, so it is a line of its own
    have hfirst : isBlankLine first = isBlankLine line := by
      cases hblank : isBlankLine first with
      | true =>
        have hsub : ∀ u ∈ line, u ∈ first := fun u hu => by
          have hmem : line ∈ split CR (chopCr first) := hfront ▸ List.mem_cons_self
          exact mem_of_mem_dropEnd ((mem_split hmem).2 u hu)
        exact (isBlankLine_of_subset hblank hsub).symm
      | false =>
        have hcr : CR ∉ first := by
          apply notMem_of_mem_keptLines hjoin
          rw [hkept, hblank]
          simp
        rw [chopCr_of_notMem hcr, split_of_notMem hcr] at hfront
        cases hfront
        exact hblank.symm
    have hlast : isBlankLine last = isBlankLine line' := by
      cases hblank : isBlankLine last with
      | true =>
        have hmem : line' ∈ split CR last := hback ▸ List.mem_append_right _ List.mem_cons_self
        exact (isBlankLine_of_subset hblank (mem_split hmem).2).symm
      | false =>
        have hcr : CR ∉ last := by
          apply notMem_of_mem_keptLines hjoin
          rw [hkept, hblank]
          simp
        rw [split_of_notMem hcr] at hback
        have hline : last = line' := by simpa using congrArg List.getLast? hback
        rw [← hline, hblank]
    have hlen := length_keptLines_eq hjoin
    have hpos : 0 < (keptLines (split LF units)).length := List.length_pos_iff.mpr hnone
    rw [hkept', hkept, ← hfirst, ← hlast] at hlen
    rw [hkept] at hpos
    simp only [List.length_append, apply_ite List.length, List.length_nil, List.length_singleton] at hlen hpos
    have hlines : lines.length = 0 := by omega
    have hlines' : lines'.length = 0 := by omega
    have hchop : CR ∉ chopCr first := by
      have hcount := length_split CR (chopCr first)
      rw [hfront, List.length_cons, hlines] at hcount
      exact List.count_eq_zero.mp (by omega)
    have htail : CR ∉ [LF].intercalate (mid ++ [last]) := by
      intro hmem
      have hcount := length_split CR last
      rw [hback, List.length_append, hlines', List.length_singleton] at hcount
      have hlast : CR ∉ last := List.count_eq_zero.mp (by omega)
      cases mem_intercalate hmem with
      | inl heq => exact absurd heq (by decide)
      | inr hpiece =>
        obtain ⟨piece, hpiece, hcr⟩ := hpiece
        cases List.mem_append.mp hpiece with
        | inl hpiece => exact hmid piece hpiece hcr
        | inr hpiece => exact hlast (List.mem_singleton.mp hpiece ▸ hcr)
    left
    by_cases hcr : CR ∈ first
    · right
      have hblank : isBlankLine first := by
        by_contra hblank
        refine notMem_of_mem_keptLines hjoin ?_ hcr
        rw [hkept, if_neg hblank]
        simp
      have heq := eq_chopCr_concat hcr hchop
      refine ⟨chopCr first, _, ?_, ?_, ?_, hchop, htail⟩
      · conv_lhs => rw [hunits, heq]
        rw [List.append_assoc]
        rfl
      · exact isBlankLine_of_subset hblank fun u hu => mem_of_mem_dropEnd hu
      · intro hlf
        have hmem : first ∈ split LF units := h ▸ List.mem_cons_self
        exact (mem_split hmem).1 (mem_of_mem_dropEnd hlf)
    · left
      rw [hunits]
      intro hmem
      cases List.mem_append.mp hmem with
      | inl hmem => exact hcr hmem
      | inr hmem =>
        cases hmem with
        | tail _ hmem => exact htail hmem

end Necessity

/-- Both folds give what the library gives, for every margin that is not blank, exactly when no carriage return is
left in a kept line, or nothing is kept by either. -/
theorem trim_eq_library_iff (value : KtString) :
    ((trimIndent value).units = Library.trimIndent value.units ∧
      ∀ margin : KtString, Library.isBlank margin.units = false →
        (trimMargin value margin).units = Library.trimMargin value.units margin.units) ↔
    NoReturnKept value.units ∨ NothingKept value.units := by
  constructor
  · intro h
    -- a margin that no line has
    have hmargin := h.2 (.fromUnits [0x78, LF]) (by rw [KtString.units_fromUnits]; decide)
    have hlf : LF ∈ [0x78, LF] := List.mem_cons_of_mem _ List.mem_cons_self
    rw [units_trimMargin, KtString.units_fromUnits, Library.trimMargin_eq _ (by decide),
      map_cutMargin_of_lf hlf fun piece hpiece => (mem_split hpiece).1,
      map_cutMargin_of_lf hlf fun line hline => (Library.mem_lines hline).2.1] at hmargin
    obtain ⟨first, rest, heq⟩ := exists_split_eq LF value.units
    cases rest.eq_nil_or_concat' with
    | inl hnil => exact agree_of_single hmargin (hnil ▸ heq)
    | inr hconcat =>
      obtain ⟨mid, last, hrest⟩ := hconcat
      exact agree_of_concat hmargin (hrest ▸ heq)
  · intro h
    cases h with
    | inl h =>
      have hkept := keptLines_eq_of_noReturnKept h
      constructor
      · rw [units_trimIndent, Library.trimIndent_eq, hkept.1, hkept.2]
      · intro margin hmargin
        rw [units_trimMargin, Library.trimMargin_eq _ hmargin, hkept.1]
    | inr h =>
      obtain ⟨hblank, hlen, hlines⟩ := h
      have hnone : keptLines (split LF value.units) = [] := by
        rw [keptLines_split_of_isBlankLine hblank]
        apply List.eq_nil_of_length_eq_zero
        rw [List.length_dropLast, List.length_tail]
        omega
      rw [← keptLines_lines_of_isBlankLine hblank] at hlines
      constructor
      · rw [units_trimIndent, Library.trimIndent_eq, hnone]
        cases hlines with
        | inl hlines =>
          rw [hlines]
          rfl
        | inr hlines =>
          rw [hlines, List.map_singleton, List.drop_nil]
          rfl
      · intro margin hmargin
        rw [units_trimMargin, Library.trimMargin_eq _ hmargin, hnone]
        cases hlines with
        | inl hlines => rw [hlines]
        | inr hlines =>
          rw [hlines, List.map_singleton, cutMargin_nil]
          rfl

/-- A carriage return before a line feed stays in the folded text. -/
theorem trim_ne_library :
    (trimIndent (.ofString "  a\r\n  b")).units ≠ Library.trimIndent (KtString.ofString "  a\r\n  b").units ∧
      (trimMargin (.ofString "|a\r\n|b") (.ofString "|")).units ≠
        Library.trimMargin (KtString.ofString "|a\r\n|b").units (KtString.ofString "|").units := by
  have hindent : Utf16.encode "  a\r\n  b" = [0x20, 0x20, 0x61, CR, LF, 0x20, 0x20, 0x62] := by decide
  have hmargin : Utf16.encode "|a\r\n|b" = [0x7c, 0x61, CR, LF, 0x7c, 0x62] := by decide
  have hbar : Utf16.encode "|" = [0x7c] := by decide
  rw [units_trimIndent, units_trimMargin, KtString.units_ofString, KtString.units_ofString, KtString.units_ofString,
    hindent, hmargin, hbar]
  decide

end Krusty
