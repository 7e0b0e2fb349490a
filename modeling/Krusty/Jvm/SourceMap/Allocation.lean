import Mathlib.Order.Nat
import Krusty.Jvm.SourceMap.Lines

/-! Output lines are handed out once each: the ranges of a source map stay apart, and what a line stands for
stays what it was asked for. -/
namespace Krusty.Jvm.SourceMaps

open Strings (Text)

structure Entry where
  name : Text
  path : Text
  range : RangeMapping

def Entry.position (e : Entry) (line : ℕ) : Position :=
  ⟨e.name, e.path, e.range.source + (line - e.range.dest), e.range.callSite⟩

def FileMapping.entriesOf (f : FileMapping) (ranges : List RangeMapping) : List Entry :=
  ranges.map (Entry.mk f.name f.path)

def filesEntries (files : List FileMapping) : List Entry := files.flatMap fun f => f.entriesOf f.ranges

def SourceMap.entries (m : SourceMap) : List Entry := filesEntries m.files

def SourceMap.keys (m : SourceMap) : List (Text × Text) := m.files.map fun f => (f.name, f.path)

/-- No output line is of both ranges. -/
def Apart (r s : RangeMapping) : Prop := r.dest + r.range ≤ s.dest ∨ s.dest + s.range ≤ r.dest

/-- A range of lines that fit 16 bits, on output lines handed out. -/
structure RangeMapping.Sound (r : RangeMapping) (maxUsed : ℕ) : Prop where
  source_pos : 1 ≤ r.source
  dest_pos : 1 ≤ r.dest
  range_pos : 1 ≤ r.range
  source_le : r.source + r.range ≤ maxLine + 1
  dest_le : r.dest + r.range ≤ maxUsed + 1
  callSite : ∀ call, r.callSite = some call → 1 ≤ call ∧ call ≤ maxLine

structure SourceMap.Good (m : SourceMap) : Prop where
  sound : ∀ e ∈ m.entries, e.range.Sound m.maxUsed
  apart : m.entries.Pairwise fun e e' => Apart e.range e'.range
  maxUsed_le : m.maxUsed ≤ maxLine
  files_le : m.keys.length ≤ m.maxUsed
  filled : m.keys ≠ [] → m.entries ≠ []

variable {line : ℕ} {m : SourceMap}

section Covering

theorem coversDest_iff {r : RangeMapping} :
    r.coversDest line = true ↔ r.dest ≤ line ∧ line < r.dest + r.range := by
  simp only [RangeMapping.coversDest, Bool.and_eq_true, decide_eq_true_eq]
  omega

theorem not_apart {r s : RangeMapping} (hr : r.coversDest line = true)
    (hs : s.coversDest line = true) : ¬Apart r s := by
  rw [coversDest_iff] at hr hs
  unfold Apart
  omega

theorem apart_symm {r s : RangeMapping} (h : Apart r s) : Apart s r := Or.symm h

theorem resolve_eq (m : SourceMap) (line : ℕ) : m.resolve line =
    (m.entries.find? fun e => e.range.coversDest line).map (·.position line) := by
  unfold SourceMap.resolve SourceMap.entries filesEntries
  induction m.files with
  | nil => rfl
  | cons f files ih =>
    rw [List.findSome?_cons, List.flatMap_cons, List.find?_append, FileMapping.entriesOf, List.find?_map]
    cases hfind : f.ranges.find? (·.coversDest line) with
    | none =>
      have hnone : f.ranges.find? ((fun e : Entry => e.range.coversDest line) ∘ Entry.mk f.name f.path) = none :=
        hfind
      rw [hnone]
      simpa using ih
    | some range =>
      have hsome : f.ranges.find? ((fun e : Entry => e.range.coversDest line) ∘ Entry.mk f.name f.path) =
          some range := hfind
      rw [hsome]
      rfl

/-- A line stands for what the range that covers it says. -/
theorem resolve_of_mem (h : m.Good) {e : Entry} (he : e ∈ m.entries)
    (hcovers : e.range.coversDest line = true) : m.resolve line = some (e.position line) := by
  have hapart := h.apart
  rw [resolve_eq]
  generalize m.entries = entries at he hapart
  induction entries with
  | nil => cases he
  | cons first rest ih =>
    rw [List.pairwise_cons] at hapart
    rw [List.find?_cons]
    cases hfirst : first.range.coversDest line with
    | true =>
      obtain heq | hrest := List.mem_cons.mp he
      · rw [heq]
        rfl
      · exact absurd (hapart.1 e hrest) (not_apart hfirst hcovers)
    | false =>
      obtain heq | hrest := List.mem_cons.mp he
      · rw [heq, hfirst] at hcovers
        cases hcovers
      · exact ih hrest hapart.2

theorem exists_of_resolve {p : Position} (h : m.resolve line = some p) :
    ∃ e ∈ m.entries, e.range.coversDest line = true ∧ e.position line = p := by
  rw [resolve_eq] at h
  obtain ⟨e, hfind, hp⟩ := Option.map_eq_some_iff.mp h
  have hcovers := List.find?_some hfind
  exact ⟨e, List.mem_of_find?_eq_some hfind, hcovers, hp⟩

/-- Every range of a map is still a range of a later one, on the same output lines and perhaps more. -/
def Grows (m m' : SourceMap) : Prop :=
  ∀ e ∈ m.entries, ∃ range, e.range.range ≤ range ∧
    (⟨e.name, e.path, { e.range with range }⟩ : Entry) ∈ m'.entries

theorem Grows.refl (m : SourceMap) : Grows m m := fun e he => ⟨e.range.range, le_rfl, he⟩

theorem Grows.trans {m m' m'' : SourceMap} (h : Grows m m') (h' : Grows m' m'') : Grows m m'' := by
  intro e he
  obtain ⟨range, hle, hmem⟩ := h e he
  obtain ⟨range', hle', hmem'⟩ := h' _ hmem
  exact ⟨range', hle.trans hle', hmem'⟩

/-- What a line stands for it stands for in every map grown from this one. -/
theorem Grows.resolve {m m' : SourceMap} (hgrows : Grows m m') (h' : m'.Good) {p : Position}
    (h : m.resolve line = some p) : m'.resolve line = some p := by
  obtain ⟨e, he, hcovers, rfl⟩ := exists_of_resolve h
  obtain ⟨range, hle, hmem⟩ := hgrows e he
  rw [coversDest_iff] at hcovers
  apply resolve_of_mem h' hmem
  rw [coversDest_iff]
  dsimp only
  omega

/-- A resolved line is a 16-bit one. -/
theorem SourceMap.Good.source_le (h : m.Good) {p : Position}
    (hp : m.resolve line = some p) : 1 ≤ p.source ∧ p.source ≤ maxLine := by
  obtain ⟨e, he, hcovers, rfl⟩ := exists_of_resolve hp
  have hsound := h.sound e he
  have hpos := hsound.source_pos
  have hle := hsound.source_le
  rw [coversDest_iff] at hcovers
  unfold Entry.position
  dsimp only
  omega

end Covering

/-- A line asked of a map: in which file, and by which call. -/
structure Request where
  name : Text
  path : Text
  source : ℕ
  callSite : Option ℕ

def Request.position (q : Request) : Position := ⟨q.name, q.path, q.source, q.callSite⟩

structure Request.Valid (q : Request) : Prop where
  source_pos : 1 ≤ q.source
  source_le : q.source ≤ maxLine
  callSite : ∀ call, q.callSite = some call → 1 ≤ call ∧ call ≤ maxLine

/-- A range that the request's line may be a line of. -/
structure Request.Fits (q : Request) (e : Entry) : Prop where
  name : e.name = q.name
  path : e.path = q.path
  callSite : e.range.callSite = q.callSite
  source : e.range.source ≤ q.source

/-- What an allocation may do to a map: refuse, give a line of a range, stretch the range at the frontier, or
open a range there. -/
inductive Allocated (m : SourceMap) (q : Request) : Option ℕ → SourceMap → Prop
  | refused : Allocated m q none m
  | within {e : Entry} (he : e ∈ m.entries) (hfits : q.Fits e) (hin : q.source - e.range.source < e.range.range) :
    Allocated m q (some (e.range.dest + (q.source - e.range.source))) m
  | stretched {m' : SourceMap} {pre post : List Entry} {e : Entry} (hfits : q.Fits e)
    (hfrontier : e.range.dest + e.range.range = m.maxUsed + 1)
    (hout : e.range.range ≤ q.source - e.range.source)
    (hle : e.range.dest + (q.source - e.range.source) ≤ maxLine)
    (hbefore : m.entries = pre ++ e :: post)
    (hafter : m'.entries =
      pre ++ ⟨e.name, e.path, { e.range with range := q.source - e.range.source + 1 }⟩ :: post)
    (hused : m'.maxUsed = e.range.dest + (q.source - e.range.source)) (hkeys : m'.keys = m.keys) :
    Allocated m q (some (e.range.dest + (q.source - e.range.source))) m'
  | opened {m' : SourceMap} {pre post : List Entry} (hle : m.maxUsed + 1 ≤ maxLine)
    (hbefore : m.entries = pre ++ post)
    (hafter : m'.entries = pre ++ ⟨q.name, q.path, ⟨q.source, m.maxUsed + 1, 1, q.callSite⟩⟩ :: post)
    (hused : m'.maxUsed = m.maxUsed + 1) (hkeys : m'.keys = m.keys ∨ m'.keys = m.keys ++ [(q.name, q.path)]) :
    Allocated m q (some (m.maxUsed + 1)) m'

namespace Allocated

variable {m m' : SourceMap} {q : Request} {answer : Option ℕ}

theorem eq_of_none (h : Allocated m q none m') : m' = m := by
  cases h with
  | refused => rfl

theorem grows (h : Allocated m q answer m') : Grows m m' := by
  cases h with
  | refused => exact .refl m
  | within => exact .refl m
  | @stretched _ pre post e hfits hfrontier hout hle hbefore hafter hused hkeys =>
    intro e' he'
    rw [hbefore, List.mem_append, List.mem_cons] at he'
    obtain hpre | rfl | hpost := he'
    · refine ⟨e'.range.range, le_rfl, ?_⟩
      rw [hafter]
      exact List.mem_append_left _ hpre
    · refine ⟨q.source - e'.range.source + 1, by omega, ?_⟩
      rw [hafter]
      exact List.mem_append_right _ (List.mem_cons_self ..)
    · refine ⟨e'.range.range, le_rfl, ?_⟩
      rw [hafter]
      exact List.mem_append_right _ (List.mem_cons_of_mem _ hpost)
  | @opened _ pre post hle hbefore hafter hused hkeys =>
    intro e' he'
    refine ⟨e'.range.range, le_rfl, ?_⟩
    rw [hbefore, List.mem_append] at he'
    rw [hafter, List.mem_append, List.mem_cons]
    exact he'.imp_right .inr

/-- An entry replaced by one whose lines are new leaves the others apart. -/
theorem pairwise_replace {pre post : List Entry} {e e' : Entry}
    (h : (pre ++ e :: post).Pairwise fun e e' => Apart e.range e'.range)
    (hnew : ∀ other ∈ pre ++ post, Apart e.range other.range → Apart e'.range other.range) :
    (pre ++ e' :: post).Pairwise fun e e' => Apart e.range e'.range := by
  have hsymm : ∀ {x y : Entry}, Apart x.range y.range → Apart y.range x.range := fun h => apart_symm h
  rw [List.pairwise_middle hsymm, List.pairwise_cons] at h ⊢
  exact ⟨fun other hother => hnew other hother (h.1 other hother), h.2⟩

theorem good (h : Allocated m q answer m') (hm : m.Good) (hq : q.Valid) : m'.Good := by
  cases h with
  | refused => exact hm
  | within => exact hm
  | @stretched _ pre post e hfits hfrontier hout hle hbefore hafter hused hkeys =>
    have he : e ∈ m.entries := by
      rw [hbefore]
      exact List.mem_append_right _ (List.mem_cons_self ..)
    have hsound := hm.sound e he
    have hsource := hfits.source
    have hothers : ∀ other ∈ pre ++ post, other ∈ m.entries := by
      intro other hother
      rw [hbefore]
      exact (List.Sublist.append_left (List.sublist_cons_self e post) pre).subset hother
    constructor
    · intro e' he'
      rw [hafter, List.mem_append, List.mem_cons] at he'
      have hkept : e' ∈ pre ++ post → e'.range.Sound m'.maxUsed := by
        intro hmem
        have hs := hm.sound e' (hothers e' hmem)
        have hdest := hs.dest_le
        exact { hs with dest_le := by omega }
      obtain hpre | rfl | hpost := he'
      · exact hkept (List.mem_append_left _ hpre)
      · have hvalid := hq.source_le
        have hpos := hsound.range_pos
        refine ⟨hsound.source_pos, hsound.dest_pos, Nat.succ_pos _, ?_, ?_, hsound.callSite⟩
        · dsimp only
          omega
        · dsimp only
          omega
      · exact hkept (List.mem_append_right _ hpost)
    · rw [hafter]
      have hbase := hm.apart
      rw [hbefore] at hbase
      apply pairwise_replace hbase
      intro other hother hapart
      have hdest := (hm.sound other (hothers other hother)).dest_le
      have hrange := (hm.sound other (hothers other hother)).range_pos
      unfold Apart at hapart ⊢
      dsimp only
      omega
    · rw [hused]
      exact hle
    · have hfiles := hm.files_le
      rw [hkeys, hused]
      omega
    · intro _
      rw [hafter]
      simp
  | @opened _ pre post hle hbefore hafter hused hkeys =>
    have hmem : ∀ other ∈ pre ++ post, other.range.Sound m.maxUsed := by
      intro other hother
      rw [← hbefore] at hother
      exact hm.sound other hother
    constructor
    · intro e' he'
      rw [hafter, List.mem_append, List.mem_cons] at he'
      have hkept : e' ∈ pre ++ post → e'.range.Sound m'.maxUsed := by
        intro hin
        have hs := hmem e' hin
        have hdest := hs.dest_le
        exact { hs with dest_le := by omega }
      obtain hpre | rfl | hpost := he'
      · exact hkept (List.mem_append_left _ hpre)
      · have hvalid := hq.source_le
        refine ⟨hq.source_pos, Nat.succ_pos _, le_rfl, ?_, ?_, hq.callSite⟩
        · dsimp only
          omega
        · dsimp only
          omega
      · exact hkept (List.mem_append_right _ hpost)
    · have hsymm : ∀ {x y : Entry}, Apart x.range y.range → Apart y.range x.range := fun h => apart_symm h
      rw [hafter, List.pairwise_middle hsymm, List.pairwise_cons]
      constructor
      · intro other hother
        have hdest := (hmem other hother).dest_le
        right
        dsimp only
        omega
      · rw [← hbefore]
        exact hm.apart
    · rw [hused]
      exact hle
    · have hfiles := hm.files_le
      obtain hkeys | hkeys := hkeys
      · rw [hkeys]
        omega
      · rw [hkeys, List.length_append, List.length_singleton]
        omega
    · intro _
      rw [hafter]
      simp

/-- The line a request was given stands for what was asked. -/
theorem resolve (h : Allocated m q (some line) m') (hm : m.Good) (hq : q.Valid) :
    m'.resolve line = some q.position := by
  have hm' := h.good hm hq
  have hposition : ∀ e : Entry, q.Fits e → e.range.dest ≤ line → line - e.range.dest = q.source - e.range.source →
      e.position line = q.position := by
    intro e hfits _ hoffset
    have hsource := hfits.source
    unfold Entry.position Request.position
    rw [hfits.name, hfits.path, hfits.callSite, hoffset, Nat.add_sub_cancel' hsource]
  cases h with
  | @within e he hfits hin =>
    rw [resolve_of_mem hm he, hposition e hfits (Nat.le_add_right ..) (Nat.add_sub_cancel_left ..)]
    rw [coversDest_iff]
    omega
  | @stretched _ pre post e hfits hfrontier hout hle hbefore hafter hused hkeys =>
    have hmem : (⟨e.name, e.path, { e.range with range := q.source - e.range.source + 1 }⟩ : Entry) ∈ m'.entries := by
      rw [hafter]
      exact List.mem_append_right _ (List.mem_cons_self ..)
    have hfits' : q.Fits ⟨e.name, e.path, { e.range with range := q.source - e.range.source + 1 }⟩ :=
      ⟨hfits.name, hfits.path, hfits.callSite, hfits.source⟩
    rw [resolve_of_mem hm' hmem, hposition _ hfits' (Nat.le_add_right ..) (Nat.add_sub_cancel_left ..)]
    rw [coversDest_iff]
    dsimp only
    omega
  | @opened _ pre post hle hbefore hafter hused hkeys =>
    have hmem : (⟨q.name, q.path, ⟨q.source, m.maxUsed + 1, 1, q.callSite⟩⟩ : Entry) ∈ m'.entries := by
      rw [hafter]
      exact List.mem_append_right _ (List.mem_cons_self ..)
    have hfits : q.Fits ⟨q.name, q.path, ⟨q.source, m.maxUsed + 1, 1, q.callSite⟩⟩ := ⟨rfl, rfl, rfl, le_rfl⟩
    rw [resolve_of_mem hm' hmem, hposition _ hfits le_rfl (by simp)]
    rw [coversDest_iff]
    dsimp only
    omega

end Allocated

section Splits

theorem exists_split {α : Type} {xs : List α} {i : ℕ} {a : α} (h : xs[i]? = some a) :
    ∃ pre post, xs = pre ++ a :: post ∧ ∀ b, xs.set i b = pre ++ b :: post := by
  obtain ⟨hi, rfl⟩ := List.getElem?_eq_some_iff.mp h
  refine ⟨xs.take i, xs.drop (i + 1), ?_, ?_⟩
  · rw [← List.drop_eq_getElem_cons hi, List.take_append_drop]
  · intro b
    exact List.set_eq_take_append_cons_drop.trans (if_pos hi)

theorem exists_of_position {name path : Text} {file : ℕ} (h : m.position name path = some file) :
    ∃ mapping, m.files[file]? = some mapping ∧ mapping.name = name ∧ mapping.path = path := by
  obtain ⟨hlt, hp, -⟩ := List.findIdx?_eq_some_iff_getElem.mp h
  simp only [Bool.and_eq_true, decide_eq_true_eq] at hp
  exact ⟨_, List.getElem?_eq_getElem hlt, hp⟩

theorem exists_of_rposition {α : Type} {p : α → Bool} {xs : List α} {i : ℕ} (h : rposition p xs = some i) :
    ∃ a, xs[i]? = some a ∧ p a = true := by
  have hany := List.find?_some h
  cases ha : xs[i]? with
  | none =>
    rw [ha] at hany
    cases hany
  | some a =>
    rw [ha] at hany
    exact ⟨a, rfl, hany⟩

variable {m : SourceMap} {file : ℕ} {mapping : FileMapping}

/-- A file's ranges replaced leave the entries of the others. -/
theorem setRanges_split (hfile : m.files[file]? = some mapping) : ∃ pre post,
    m.entries = pre ++ mapping.entriesOf mapping.ranges ++ post ∧ ∀ ranges maxUsed,
      (m.setRanges file mapping ranges maxUsed).entries = pre ++ mapping.entriesOf ranges ++ post ∧
      (m.setRanges file mapping ranges maxUsed).keys = m.keys := by
  obtain ⟨pre, post, hfiles, hset⟩ := exists_split hfile
  refine ⟨filesEntries pre, filesEntries post, ?_, ?_⟩
  · rw [SourceMap.entries, hfiles, filesEntries, List.flatMap_append, List.flatMap_cons, List.append_assoc]
    rfl
  · intro ranges maxUsed
    constructor
    · rw [SourceMap.entries, SourceMap.setRanges, hset, filesEntries, List.flatMap_append, List.flatMap_cons,
        List.append_assoc]
      rfl
    · rw [SourceMap.keys, SourceMap.keys, SourceMap.setRanges, hset, hfiles]
      simp

theorem setRanges_self (hfile : m.files[file]? = some mapping) :
    m.setRanges file mapping mapping.ranges m.maxUsed = m := by
  obtain ⟨pre, post, hfiles, hset⟩ := exists_split hfile
  rw [SourceMap.setRanges, hset, ← hfiles]

end Splits

section Rules

variable {m : SourceMap} {q : Request} {file place : ℕ} {mapping : FileMapping} {range : RangeMapping}

theorem saturatingAdd_le (a b : ℕ) : saturatingAdd a b ≤ a + b := Nat.min_le_left _ _

/-- A line put into a range that covers it, or that is at the frontier, is an allocation. -/
theorem grow_allocated (hm : m.Good) (hfile : m.files[file]? = some mapping) (hname : mapping.name = q.name)
    (hpath : mapping.path = q.path) (hrange : mapping.ranges[place]? = some range)
    (hcall : range.callSite = q.callSite) (hsource : range.source ≤ q.source)
    (hroom : q.source - range.source < range.range ∨ range.dest + range.range = m.maxUsed + 1)
    (hle : range.dest + (q.source - range.source) ≤ maxLine) :
    Allocated m q (some (range.dest + (q.source - range.source)))
      (m.setRanges file mapping
        (mapping.ranges.set place { range with range := max range.range (q.source - range.source + 1) })
        (max m.maxUsed (range.dest + (q.source - range.source)))) := by
  obtain ⟨rpre, rpost, hranges, hset⟩ := exists_split hrange
  obtain ⟨pre, post, hentries, hreplaced⟩ := setRanges_split hfile
  have hfits : q.Fits ⟨mapping.name, mapping.path, range⟩ := ⟨hname, hpath, hcall, hsource⟩
  have hmem : (⟨mapping.name, mapping.path, range⟩ : Entry) ∈ m.entries := by
    rw [hentries, hranges]
    simp [FileMapping.entriesOf]
  have hdest := (hm.sound _ hmem).dest_le
  by_cases hin : q.source - range.source < range.range
  · -- the range covers the line already, and nothing changes
    have hmax : max range.range (q.source - range.source + 1) = range.range := Nat.max_eq_left hin
    have hused : max m.maxUsed (range.dest + (q.source - range.source)) = m.maxUsed := by
      dsimp only at hdest
      omega
    have hsame : mapping.ranges.set place range = mapping.ranges := by rw [hset, ← hranges]
    rw [hmax, hused, hsame, setRanges_self hfile]
    exact .within hmem hfits hin
  · have hfrontier := hroom.resolve_left hin
    have hmax : max range.range (q.source - range.source + 1) = q.source - range.source + 1 :=
      Nat.max_eq_right (by omega)
    have hused : max m.maxUsed (range.dest + (q.source - range.source)) =
        range.dest + (q.source - range.source) := by omega
    rw [hmax, hused]
    have hafter := hreplaced (mapping.ranges.set place { range with range := q.source - range.source + 1 })
      (range.dest + (q.source - range.source))
    refine @Allocated.stretched _ _ _ (pre ++ mapping.entriesOf rpre) (mapping.entriesOf rpost ++ post) _ hfits
      hfrontier (not_lt.mp hin) hle ?_ ?_ rfl hafter.2
    · rw [hentries, hranges]
      simp [FileMapping.entriesOf]
    · rw [hafter.1, hset]
      simp [FileMapping.entriesOf]

/-- A range opened at the end of a file's ranges is an allocation. -/
theorem open_allocated (hfile : m.files[file]? = some mapping) (hname : mapping.name = q.name)
    (hpath : mapping.path = q.path) (hle : m.maxUsed + 1 ≤ maxLine) :
    Allocated m q (some (m.maxUsed + 1))
      (m.setRanges file mapping (mapping.ranges ++ [⟨q.source, m.maxUsed + 1, 1, q.callSite⟩])
        (m.maxUsed + 1)) := by
  obtain ⟨pre, post, hentries, hreplaced⟩ := setRanges_split hfile
  have hafter := hreplaced (mapping.ranges ++ [⟨q.source, m.maxUsed + 1, 1, q.callSite⟩]) (m.maxUsed + 1)
  refine @Allocated.opened _ _ _ (pre ++ mapping.entriesOf mapping.ranges) post hle ?_ ?_ rfl (.inl hafter.2)
  · exact hentries
  · rw [hafter.1]
    simp [FileMapping.entriesOf, hname, hpath]

/-- A file recorded with the range it is recorded for is an allocation. -/
theorem open_file_allocated (hle : m.maxUsed + 1 ≤ maxLine) :
    Allocated m q (some (m.maxUsed + 1))
      { m with
        files := m.files ++ [⟨q.name, q.path, [⟨q.source, m.maxUsed + 1, 1, q.callSite⟩]⟩]
        maxUsed := m.maxUsed + 1 } := by
  refine @Allocated.opened _ _ _ m.entries [] hle (List.append_nil _).symm ?_ rfl (.inr ?_)
  · simp [SourceMap.entries, filesEntries, FileMapping.entriesOf]
  · simp [SourceMap.keys]

theorem reusable_spec {slack : ℕ} (h : range.reusable q.source q.callSite slack = true) :
    range.callSite = q.callSite ∧ range.source ≤ q.source ∧ q.source - range.source < range.range + slack := by
  simp only [RangeMapping.reusable, Bool.and_eq_true, decide_eq_true_eq] at h
  obtain ⟨⟨hcall, hsource⟩, hlt⟩ := h
  exact ⟨hcall, hsource, lt_of_lt_of_le hlt (saturatingAdd_le _ _)⟩

/-- A range at the frontier is the one that holds the last line handed out. -/
theorem frontier_of_covers (hm : m.Good) {e : Entry} (he : e ∈ m.entries)
    (hcovers : e.range.coversDest m.maxUsed = true) : e.range.dest + e.range.range = m.maxUsed + 1 := by
  have hle := (hm.sound e he).dest_le
  rw [coversDest_iff] at hcovers
  omega

theorem mem_entries (hfile : m.files[file]? = some mapping) (hrange : mapping.ranges[place]? = some range) :
    (⟨mapping.name, mapping.path, range⟩ : Entry) ∈ m.entries := by
  have hmapping := List.mem_of_getElem? hfile
  have hmem := List.mem_of_getElem? hrange
  simp only [SourceMap.entries, filesEntries, List.mem_flatMap, FileMapping.entriesOf, List.mem_map]
  exact ⟨mapping, hmapping, range, hmem, rfl⟩

/-- A range that a line joins gives it a line, or refuses it past the last one. -/
theorem growNewLine_spec (hm : m.Good) (hq : q.Valid) (hfile : m.files[file]? = some mapping)
    (hname : mapping.name = q.name) (hpath : mapping.path = q.path)
    (hrange : mapping.ranges[place]? = some range)
    (hreusable : range.reusable q.source q.callSite
      (if range.coversDest m.maxUsed then frontierSlack else 0) = true) :
    ∃ answer m', m.growNewLine file mapping mapping.ranges place q.source = .ok (answer, m') ∧
      Allocated m q answer m' := by
  obtain ⟨hcall, hsource, hlt⟩ := reusable_spec hreusable
  have hmem := mem_entries hfile hrange
  have hpos := (hm.sound _ hmem).source_pos
  have hsub : sub q.source range.source = .ok (q.source - range.source) := if_pos hsource
  have hadd : add (q.source - range.source) 1 = .ok (q.source - range.source + 1) := by
    have hle := hq.source_le
    dsimp only at hpos
    exact if_pos (by omega)
  unfold SourceMap.growNewLine
  simp only [hrange, hsub]
  by_cases hle : range.dest + (q.source - range.source) ≤ maxLine
  · have houtput : checkedAdd range.dest (q.source - range.source) = some (range.dest + (q.source - range.source)) :=
      if_pos hle
    have hroom : q.source - range.source < range.range ∨ range.dest + range.range = m.maxUsed + 1 := by
      by_cases hcovers : range.coversDest m.maxUsed = true
      · exact .inr (frontier_of_covers hm hmem hcovers)
      · rw [if_neg hcovers] at hlt
        exact .inl hlt
    refine ⟨_, _, ?_, grow_allocated hm hfile hname hpath hrange hcall hsource hroom hle⟩
    simp only [bind, Except.bind, houtput, hadd]
    rfl
  · have houtput : checkedAdd range.dest (q.source - range.source) = none := if_neg hle
    refine ⟨none, m, ?_, .refused⟩
    simp only [bind, Except.bind, houtput, setRanges_self hfile]
    rfl

/-- A line that no range of its file takes opens one. -/
theorem growNewLine_opened (hle : m.maxUsed + 1 ≤ maxLine) :
    m.growNewLine file mapping (mapping.ranges ++ [⟨q.source, m.maxUsed + 1, 1, q.callSite⟩])
        mapping.ranges.length q.source =
      .ok (some (m.maxUsed + 1), m.setRanges file mapping
        (mapping.ranges ++ [⟨q.source, m.maxUsed + 1, 1, q.callSite⟩]) (m.maxUsed + 1)) := by
  have hrange : (mapping.ranges ++ [(⟨q.source, m.maxUsed + 1, 1, q.callSite⟩ : RangeMapping)])[mapping.ranges.length]? =
      some ⟨q.source, m.maxUsed + 1, 1, q.callSite⟩ := by simp
  have hsub : sub q.source q.source = .ok 0 := by simp [sub]
  have hadd : add 0 1 = .ok 1 := rfl
  have houtput : checkedAdd (m.maxUsed + 1) 0 = some (m.maxUsed + 1) := if_pos hle
  have hset : (mapping.ranges ++ [(⟨q.source, m.maxUsed + 1, 1, q.callSite⟩ : RangeMapping)]).set
      mapping.ranges.length ⟨q.source, m.maxUsed + 1, 1, q.callSite⟩ =
      mapping.ranges ++ [⟨q.source, m.maxUsed + 1, 1, q.callSite⟩] := by simp
  have hused : max m.maxUsed (m.maxUsed + 1) = m.maxUsed + 1 := Nat.max_eq_right (Nat.le_succ _)
  unfold SourceMap.growNewLine
  simp only [hrange, hsub, bind, Except.bind, houtput, hadd, max_self, hset, hused]
  rfl

theorem mapInFile_spec (hm : m.Good) (hq : q.Valid) (hfile : m.files[file]? = some mapping)
    (hname : mapping.name = q.name) (hpath : mapping.path = q.path) :
    ∃ answer m', m.mapInFile file q.source q.callSite = .ok (answer, m') ∧ Allocated m q answer m' := by
  unfold SourceMap.mapInFile
  simp only [hfile]
  split_ifs with hlast hfirst
  · obtain ⟨range, hrange, hreusable⟩ := (Option.any_eq_true _ _).mp hlast
    exact growNewLine_spec hm hq hfile hname hpath hrange hreusable
  · obtain ⟨range, hrange, hreusable⟩ := (Option.any_eq_true _ _).mp hfirst
    exact growNewLine_spec hm hq hfile hname hpath hrange hreusable
  · by_cases hle : m.maxUsed + 1 ≤ maxLine
    · have hnext : checkedAdd m.maxUsed 1 = some (m.maxUsed + 1) := if_pos hle
      simp only [hnext]
      exact ⟨_, _, growNewLine_opened hle, open_allocated hfile hname hpath hle⟩
    · have hnext : checkedAdd m.maxUsed 1 = none := if_neg hle
      simp only [hnext]
      exact ⟨_, _, rfl, .refused⟩

/-- kotlinc's own rule allocates, and overflows nowhere. -/
theorem mapNewLine_spec (hm : m.Good) (hq : q.Valid) :
    ∃ answer m', m.mapNewLine q.name q.path q.source q.callSite = .ok (answer, m') ∧
      Allocated m q answer m' := by
  unfold SourceMap.mapNewLine
  cases hposition : m.position q.name q.path with
  | some file =>
    obtain ⟨mapping, hfile, hname, hpath⟩ := exists_of_position hposition
    exact mapInFile_spec hm hq hfile hname hpath
  | none =>
    by_cases hle : m.maxUsed + 1 ≤ maxLine
    · have hnext : checkedAdd m.maxUsed 1 = some (m.maxUsed + 1) := if_pos hle
      simp only [hnext]
      have hfile : (m.files ++ [(⟨q.name, q.path, []⟩ : FileMapping)])[m.files.length]? =
          some ⟨q.name, q.path, []⟩ := by simp
      refine ⟨_, _, ?_, open_file_allocated hle⟩
      unfold SourceMap.mapInFile
      simp only [hfile, List.getElem?_nil, Option.any_none, Bool.false_eq_true, if_false, hnext]
      have hopened := @growNewLine_opened { m with files := m.files ++ [⟨q.name, q.path, []⟩] } q m.files.length
        ⟨q.name, q.path, []⟩ hle
      refine hopened.trans ?_
      simp [SourceMap.setRanges]
    · have hnext : checkedAdd m.maxUsed 1 = none := if_neg hle
      simp only [hnext]
      exact ⟨_, _, rfl, .refused⟩

/-- A range found to hold a line gives it one, or refuses it past the last. -/
theorem stretch_spec (hm : m.Good) (hq : q.Valid) (hfile : m.files[file]? = some mapping)
    (hname : mapping.name = q.name) (hpath : mapping.path = q.path)
    (hplace : m.stretchable mapping.ranges q.source q.callSite = some place) :
    ∃ answer m', m.stretch file mapping place q.source = .ok (answer, m') ∧ Allocated m q answer m' := by
  -- the range covers the line, or ends at the frontier
  have hfound : ∃ range, mapping.ranges[place]? = some range ∧ range.callSite = q.callSite ∧
      range.source ≤ q.source ∧
      (q.source - range.source < range.range ∨ range.maxDest = some m.maxUsed) := by
    unfold SourceMap.stretchable at hplace
    obtain hcovering | ⟨-, hfrontier⟩ := Option.or_eq_some_iff.mp hplace
    · obtain ⟨range, hrange, hreusable⟩ := exists_of_rposition hcovering
      obtain ⟨hcall, hsource, hlt⟩ := reusable_spec hreusable
      exact ⟨range, hrange, hcall, hsource, .inl hlt⟩
    · obtain ⟨range, hrange, hp⟩ := exists_of_rposition hfrontier
      rw [Bool.and_eq_true, decide_eq_true_eq] at hp
      obtain ⟨hcall, hsource, -⟩ := reusable_spec hp.2
      exact ⟨range, hrange, hcall, hsource, .inr hp.1⟩
  obtain ⟨range, hrange, hcall, hsource, hroom⟩ := hfound
  have hmem := mem_entries hfile hrange
  have hsound := hm.sound _ hmem
  have hpos := hsound.source_pos
  have hle := hq.source_le
  dsimp only at hpos
  have hsub : checkedSub q.source range.source = some (q.source - range.source) := if_pos hsource
  have hadd : checkedAdd (q.source - range.source) 1 = some (q.source - range.source + 1) := if_pos (by omega)
  unfold SourceMap.stretch
  simp only [hrange, hsub, hadd, bind, Option.bind]
  by_cases hout : range.dest + (q.source - range.source) ≤ maxLine
  · have houtput : checkedAdd range.dest (q.source - range.source) =
        some (range.dest + (q.source - range.source)) := if_pos hout
    simp only [houtput]
    refine ⟨_, _, rfl, grow_allocated hm hfile hname hpath hrange hcall hsource ?_ hout⟩
    refine hroom.imp_right fun hmax => ?_
    have hrangePos := hsound.range_pos
    have hlast : checkedSub range.range 1 = some (range.range - 1) := if_pos hrangePos
    simp only [RangeMapping.maxDest, hlast, bind, Option.bind, checkedAdd] at hmax
    split_ifs at hmax
    have hmax := Option.some.inj hmax
    dsimp only at hrangePos
    omega
  · have houtput : checkedAdd range.dest (q.source - range.source) = none := if_neg hout
    simp only [houtput]
    exact ⟨_, _, rfl, .refused⟩

/-- The copier's rule allocates, and overflows nowhere. -/
theorem map_spec (hm : m.Good) (hq : q.Valid) :
    ∃ answer m', m.map q.name q.path q.source q.callSite = .ok (answer, m') ∧ Allocated m q answer m' := by
  unfold SourceMap.map
  cases hposition : m.position q.name q.path with
  | none =>
    unfold SourceMap.openRange
    by_cases hle : m.maxUsed + 1 ≤ maxLine
    · have hnext : checkedAdd m.maxUsed 1 = some (m.maxUsed + 1) := if_pos hle
      have hused : max m.maxUsed (m.maxUsed + 1) = m.maxUsed + 1 := Nat.max_eq_right (Nat.le_succ _)
      simp only [hnext, hused]
      exact ⟨_, _, rfl, open_file_allocated hle⟩
    · have hnext : checkedAdd m.maxUsed 1 = none := if_neg hle
      simp only [hnext]
      exact ⟨_, _, rfl, .refused⟩
  | some file =>
    obtain ⟨mapping, hfile, hname, hpath⟩ := exists_of_position hposition
    simp only [hfile]
    cases hplace : m.stretchable mapping.ranges q.source q.callSite with
    | some place => exact stretch_spec hm hq hfile hname hpath hplace
    | none =>
      unfold SourceMap.openRange
      by_cases hle : m.maxUsed + 1 ≤ maxLine
      · have hnext : checkedAdd m.maxUsed 1 = some (m.maxUsed + 1) := if_pos hle
        have hused : max m.maxUsed (m.maxUsed + 1) = m.maxUsed + 1 := Nat.max_eq_right (Nat.le_succ _)
        simp only [hnext, hused, hfile]
        exact ⟨_, _, rfl, open_allocated hfile hname hpath hle⟩
      · have hnext : checkedAdd m.maxUsed 1 = none := if_neg hle
        simp only [hnext]
        exact ⟨_, _, rfl, .refused⟩

end Rules

end Krusty.Jvm.SourceMaps
