import Krusty.Lib.Results
import Krusty.Jvm.SourceMap.Allocation

/-! A method's lines copied from its own map into the class's, and the maps any sequence of calls builds. -/
namespace Krusty.Jvm.SourceMaps

open Strings (Text)

/-- Every file of the map has a name and a path that `ok` allows. -/
def SourceMap.Named (ok : Text → Prop) (m : SourceMap) : Prop := ∀ key ∈ m.keys, ok key.1 ∧ ok key.2

/-- A sound map whose names are allowed. -/
structure SourceMap.Sane (ok : Text → Prop) (m : SourceMap) : Prop where
  good : m.Good
  named : m.Named ok

section Steps

variable {ok : Text → Prop} {m m' : SourceMap} {q : Request} {answer : Option ℕ}

theorem Allocated.named (h : Allocated m q answer m') (hm : m.Named ok) (hname : ok q.name) (hpath : ok q.path) :
    m'.Named ok := by
  cases h with
  | refused => exact hm
  | within => exact hm
  | @stretched _ pre post e hfits hfrontier hout hle hbefore hafter hused hkeys =>
    unfold SourceMap.Named
    rw [hkeys]
    exact hm
  | @opened _ pre post hle hbefore hafter hused hkeys =>
    intro key hkey
    obtain hkeys | hkeys := hkeys
    · rw [hkeys] at hkey
      exact hm key hkey
    · rw [hkeys, List.mem_append, List.mem_singleton] at hkey
      obtain hold | rfl := hkey
      · exact hm key hold
      · exact ⟨hname, hpath⟩

theorem Allocated.sane (h : Allocated m q answer m') (hm : m.Sane ok) (hq : q.Valid) (hname : ok q.name)
    (hpath : ok q.path) : m'.Sane ok :=
  ⟨h.good hm.good hq, h.named hm.named hname hpath⟩

theorem unstarted_sane : SourceMap.unstarted.Sane ok where
  good := ⟨fun e he => (by cases he), .nil, Nat.zero_le _, le_rfl, fun hkeys => absurd rfl hkeys⟩
  named key hkey := by cases hkey

/-- A map holding its owner's lines alone. -/
theorem new_sane {name path : Text} {lines : ℕ} (hlines : lines ≤ maxLine) (hname : ok name) (hpath : ok path) :
    (SourceMap.new name path lines).Sane ok := by
  have hbound : max lines 1 ≤ maxLine := Nat.max_le.mpr ⟨hlines, by decide⟩
  have hpos : 1 ≤ max lines 1 := Nat.le_max_right _ _
  constructor
  · constructor
    · intro e he
      obtain rfl := List.mem_singleton.mp he
      refine ⟨le_rfl, le_rfl, hpos, ?_, ?_, fun call hcall => (by cases hcall)⟩
      · dsimp only
        omega
      · change 1 + max lines 1 ≤ max lines 1 + 1
        omega
    · exact List.pairwise_singleton _ _
    · exact hbound
    · exact hpos
    · exact fun _ => List.cons_ne_nil _ _
  · intro key hkey
    obtain rfl := List.mem_singleton.mp hkey
    exact ⟨hname, hpath⟩

theorem forRegeneratedClass_sane {name path : Text} {lines : ℕ} (hlines : lines ≤ maxLine) (hname : ok name)
    (hpath : ok path) : (SourceMap.forRegeneratedClass name path lines).Sane ok := by
  have hnew : (SourceMap.new name path lines).Sane ok := new_sane hlines hname hpath
  exact ⟨⟨hnew.good.sound, hnew.good.apart, hnew.good.maxUsed_le, hnew.good.files_le,
    hnew.good.filled⟩, hnew.named⟩

theorem forMethod_sane (hm : m.Sane ok) (h : m.forMethod = some m') : m'.Sane ok := by
  unfold SourceMap.forMethod at h
  obtain ⟨owner, howner, h⟩ := Option.bind_eq_some_iff.mp h
  obtain ⟨own, hown, h⟩ := Option.bind_eq_some_iff.mp h
  obtain rfl := Option.some.inj h
  have hfile := List.mem_of_head? howner
  have hkey := hm.named (owner.name, owner.path) (List.mem_map_of_mem hfile)
  have hmem : (⟨owner.name, owner.path, own⟩ : Entry) ∈ m.entries := by
    simp only [SourceMap.entries, filesEntries, List.mem_flatMap, FileMapping.entriesOf, List.mem_map]
    exact ⟨owner, hfile, own, List.mem_of_head? hown, rfl⟩
  have hsound := hm.good.sound _ hmem
  have hpos := hsound.source_pos
  have hle := hsound.source_le
  dsimp only at hpos hle
  exact new_sane (by omega) hkey.1 hkey.2

end Steps

section Copier

variable {ok : Text → Prop} {method cls : SourceMap} {copier : LineCopier} {line : ℕ}

theorem resolve_eq_none_of_forall {m : SourceMap} {line : ℕ}
    (h : ∀ file ∈ m.files, ∀ range ∈ file.ranges, range.coversDest line = false) : m.resolve line = none := by
  cases hresolve : m.resolve line with
  | none => rfl
  | some p =>
    obtain ⟨e, he, hcovers, -⟩ := exists_of_resolve hresolve
    simp only [SourceMap.entries, filesEntries, List.mem_flatMap, FileMapping.entriesOf, List.mem_map] at he
    obtain ⟨file, hfile, range, hrange, rfl⟩ := he
    rw [h file hfile range hrange] at hcovers
    cases hcovers

/-- A place that holds a range of a file. -/
theorem rangeAt_of {file : FileMapping} {range : RangeMapping} {i j : ℕ} (hfile : method.files[i]? = some file)
    (hrange : file.ranges[j]? = some range) : LineCopier.rangeAt method (i, j) = .ok (file, range) := by
  unfold LineCopier.rangeAt
  simp only [hfile, hrange]

theorem mem_of_rangeAt {file : FileMapping} {range : RangeMapping} {place : ℕ × ℕ}
    (h : LineCopier.rangeAt method place = .ok (file, range)) :
    file ∈ method.files ∧ (⟨file.name, file.path, range⟩ : Entry) ∈ method.entries := by
  unfold LineCopier.rangeAt at h
  cases hfile : method.files[place.1]? with
  | none =>
    rw [hfile] at h
    cases h
  | some found =>
    simp only [hfile] at h
    cases hrange : found.ranges[place.2]? with
    | none =>
      rw [hrange] at h
      cases h
    | some own =>
      rw [hrange] at h
      obtain ⟨rfl, rfl⟩ := Prod.mk.inj (Except.ok.inj h)
      exact ⟨List.mem_of_getElem? hfile, mem_entries hfile hrange⟩

/-- What `findRange` finds covers the line; where it finds nothing, nothing does. -/
theorem findRange_spec (method : SourceMap) (line : ℕ) :
    (∃ place file range, method.findRange line = some place ∧
        LineCopier.rangeAt method place = .ok (file, range) ∧ range.coversDest line = true) ∨
      (method.findRange line = none ∧ method.resolve line = none) := by
  cases hfind : method.findRange line with
  | none =>
    right
    refine ⟨rfl, resolve_eq_none_of_forall ?_⟩
    intro file hfile range hrange
    unfold SourceMap.findRange at hfind
    rw [List.findSome?_eq_none_iff] at hfind
    obtain ⟨i, hi⟩ := List.getElem?_of_mem hfile
    have hnone := hfind (file, i) (List.mem_zipIdx_iff_getElem?.mpr hi)
    rw [Option.map_eq_none_iff, List.findIdx?_eq_none_iff] at hnone
    exact hnone range hrange
  | some place =>
    left
    unfold SourceMap.findRange at hfind
    obtain ⟨⟨file, i⟩, hmem, hplace⟩ := List.exists_of_findSome?_eq_some hfind
    obtain ⟨j, hj, rfl⟩ := Option.map_eq_some_iff.mp hplace
    obtain ⟨hlt, hcovers, -⟩ := List.findIdx?_eq_some_iff_getElem.mp hj
    have hfile := List.mem_zipIdx_iff_getElem?.mp hmem
    exact ⟨(i, j), file, _, rfl, rangeAt_of hfile (List.getElem?_eq_getElem hlt), hcovers⟩

/-- What a copier remembers is right: each mapped line stands for the same in both maps, and the range read
last is one. -/
structure LineCopier.Right (copier : LineCopier) (method cls : SourceMap) : Prop where
  visited : ∀ line mapped, copier.visited line = some mapped →
    ∃ p, method.resolve line = some p ∧ cls.resolve mapped = some p
  last : ∀ place, copier.last = some place → ∃ file range, LineCopier.rangeAt method place = .ok (file, range)

theorem LineCopier.start_right (method cls : SourceMap) : LineCopier.start.Right method cls :=
  ⟨fun line mapped h => (by cases h), fun place h => (by cases h)⟩

theorem LineCopier.Right.grows {cls' : SourceMap} (h : copier.Right method cls) (hgrows : Grows cls cls')
    (hcls' : cls'.Good) : copier.Right method cls' where
  visited line mapped hmapped := by
    obtain ⟨p, hmethod, hcls⟩ := h.visited line mapped hmapped
    exact ⟨p, hmethod, hgrows.resolve hcls' hcls⟩
  last := h.last

/-- The copier finds the range that covers a line, if one does. -/
theorem LineCopier.find_spec (hright : copier.Right method cls) (line : ℕ) :
    (∃ place file range, copier.find method line = .ok (some place) ∧
        LineCopier.rangeAt method place = .ok (file, range) ∧ range.coversDest line = true) ∨
      (copier.find method line = .ok none ∧ method.resolve line = none) := by
  have hfallback : copier.find method line = .ok (method.findRange line) →
      (∃ place file range, copier.find method line = .ok (some place) ∧
        LineCopier.rangeAt method place = .ok (file, range) ∧ range.coversDest line = true) ∨
      (copier.find method line = .ok none ∧ method.resolve line = none) := by
    intro hfind
    obtain ⟨place, file, range, hplace, hat, hcovers⟩ | ⟨hnone, hresolve⟩ := findRange_spec method line
    · rw [hfind, hplace]
      exact .inl ⟨place, file, range, rfl, hat, hcovers⟩
    · rw [hfind, hnone]
      exact .inr ⟨rfl, hresolve⟩
  cases hlast : copier.last with
  | none =>
    apply hfallback
    unfold LineCopier.find
    rw [hlast]
  | some place =>
    obtain ⟨file, range, hat⟩ := hright.last place hlast
    have hfind : copier.find method line =
        .ok (if range.coversDest line then some place else method.findRange line) := by
      unfold LineCopier.find
      simp only [hlast, hat]
      rfl
    by_cases hcovers : range.coversDest line = true
    · rw [hfind, if_pos hcovers]
      exact .inl ⟨place, file, range, rfl, hat, hcovers⟩
    · apply hfallback
      rw [hfind, if_neg hcovers]

/-- What mapping a line leaves: a grown class map, a copier still right, and a line that stands for the same. -/
structure Copied (ok : Text → Prop) (method cls : SourceMap) (line : ℕ) (answer : Option ℕ) (copier' : LineCopier)
    (cls' : SourceMap) : Prop where
  sane : cls'.Sane ok
  grows : Grows cls cls'
  right : copier'.Right method cls'
  resolves : ∀ mapped, answer = some mapped → ∃ p, method.resolve line = some p ∧ cls'.resolve mapped = some p

theorem LineCopier.map_spec (hmethod : method.Sane ok) (hcls : cls.Sane ok) (hright : copier.Right method cls)
    (line : ℕ) : ∃ answer copier' cls', copier.map cls method line = .ok (answer, copier', cls') ∧
      Copied ok method cls line answer copier' cls' := by
  unfold LineCopier.map
  cases hvisited : copier.visited line with
  | some mapped =>
    refine ⟨some mapped, copier, cls, rfl, hcls, .refl cls, hright, ?_⟩
    intro out hout
    obtain rfl := Option.some.inj hout
    exact hright.visited line mapped hvisited
  | none =>
    obtain ⟨place, file, range, hfind, hat, hcovers⟩ | ⟨hfind, -⟩ := LineCopier.find_spec hright line
    swap
    · refine ⟨none, copier, cls, ?_, hcls, .refl cls, hright, fun out hout => (by cases hout)⟩
      simp only [hfind, bind, Except.bind]
      rfl
    obtain ⟨hfile, hmem⟩ := mem_of_rangeAt hat
    have hsound := hmethod.good.sound _ hmem
    have hresolve := resolve_of_mem hmethod.good hmem hcovers
    have hline := coversDest_iff.mp hcovers
    have hpos := hsound.source_pos
    have hle := hsound.source_le
    dsimp only at hpos hle
    -- the line's place in its file is a request of the class map
    have hq : (⟨file.name, file.path, range.source + (line - range.dest), range.callSite⟩ : Request).Valid :=
      ⟨by dsimp only; omega, by dsimp only; omega, hsound.callSite⟩
    have hsub : sub line range.dest = .ok (line - range.dest) := if_pos hline.1
    have hadd : add range.source (line - range.dest) = .ok (range.source + (line - range.dest)) :=
      if_pos (by omega)
    have hnames := hmethod.named (file.name, file.path) (List.mem_map_of_mem hfile)
    obtain ⟨answer, cls', hmap, hallocated⟩ := mapNewLine_spec hcls.good hq
    have hcls' := hallocated.sane hcls hq hnames.1 hnames.2
    have hlast : LineCopier.Right { copier with last := some place } method cls' := by
      have hgrown := hright.grows hallocated.grows hcls'.good
      refine ⟨hgrown.visited, ?_⟩
      intro place' hplace'
      obtain rfl := Option.some.inj hplace'
      exact ⟨file, range, hat⟩
    dsimp only at hmap
    simp only [hfind, hat, hsub, hadd, hmap, bind, Except.bind]
    cases answer with
    | none => exact ⟨none, _, cls', rfl, hcls', hallocated.grows, hlast, fun out hout => (by cases hout)⟩
    | some mapped =>
      have hmapped := hallocated.resolve hcls.good hq
      refine ⟨some mapped, _, cls', rfl, hcls', hallocated.grows, ⟨?_, hlast.last⟩, ?_⟩
      · intro line' mapped' hvisited'
        dsimp only at hvisited'
        by_cases hsame : line' = line
        · subst hsame
          rw [Function.update_self] at hvisited'
          obtain rfl := Option.some.inj hvisited'
          exact ⟨_, hresolve, hmapped⟩
        · rw [Function.update_of_ne hsame] at hvisited'
          exact hlast.visited line' mapped' hvisited'
      · intro out hout
        obtain rfl := Option.some.inj hout
        exact ⟨_, hresolve, hmapped⟩

/-- A line's answer, if it has one, stands for what the line stands for. -/
def Answers (method cls : SourceMap) (line : ℕ) (answer : Option ℕ) : Prop :=
  ∀ mapped, answer = some mapped → ∃ p, method.resolve line = some p ∧ cls.resolve mapped = some p

theorem Answers.grows {cls' : SourceMap} {answer : Option ℕ} (h : Answers method cls line answer)
    (hgrows : Grows cls cls') (hcls' : cls'.Good) : Answers method cls' line answer := by
  intro mapped hmapped
  obtain ⟨p, hmethod, hcls⟩ := h mapped hmapped
  exact ⟨p, hmethod, hgrows.resolve hcls' hcls⟩

theorem LineCopier.mapAll_spec (hmethod : method.Sane ok) (lines : List ℕ) (hcls : cls.Sane ok)
    (hright : copier.Right method cls) :
    ∃ answers copier' cls', LineCopier.mapAll method lines copier cls = .ok (answers, copier', cls') ∧
      cls'.Sane ok ∧ Grows cls cls' ∧ copier'.Right method cls' ∧
      List.Forall₂ (Answers method cls') lines answers := by
  induction lines generalizing copier cls with
  | nil => exact ⟨[], copier, cls, rfl, hcls, .refl cls, hright, .nil⟩
  | cons line lines ih =>
    obtain ⟨answer, copier₁, cls₁, hmap, hcopied⟩ := LineCopier.map_spec hmethod hcls hright line
    obtain ⟨answers, copier₂, cls₂, hrest, hsane, hgrows, hright₂, hanswers⟩ := ih hcopied.sane hcopied.right
    have hanswer : Answers method cls₁ line answer := hcopied.resolves
    refine ⟨answer :: answers, copier₂, cls₂, ?_, hsane, hcopied.grows.trans hgrows, hright₂,
      .cons (hanswer.grows hgrows hsane.good) hanswers⟩
    simp only [LineCopier.mapAll, hmap, hrest, bind, Except.bind]
    rfl

/-- What the copier answered, line by line, for the lines as written and then for the table's. -/
def SourceMap.copyAnswers (m method : SourceMap) (written lines : List ℕ) :
    Except Fault (List (Option ℕ) × List (Option ℕ)) := do
  let (first, copier, cls) ← LineCopier.mapAll method written .start m
  let (answers, _, _) ← LineCopier.mapAll method lines copier cls
  return (first, answers)

/-- Every line the method's map covers was given a line of the class map. -/
def Unrefused (m method : SourceMap) (written lines : List ℕ) : Prop :=
  ∀ first answers, m.copyAnswers method written lines = .ok (first, answers) →
    List.Forall₂ (fun line answer => method.resolve line ≠ none → answer ≠ none) written first ∧
      List.Forall₂ (fun line answer => method.resolve line ≠ none → answer ≠ none) lines answers

/-- A table's line after the copy: rewritten to one that stands for the same, or kept. -/
structure Rewritten (method cls : SourceMap) (old new : ℕ × ℕ) : Prop where
  pc : new.1 = old.1
  covered : ∀ p, method.resolve old.2 = some p → cls.resolve new.2 = some p
  uncovered : method.resolve old.2 = none → new.2 = old.2

theorem rewritten_of_answers {lines : List (ℕ × ℕ)} {answers : List (Option ℕ)}
    (h : List.Forall₂ (Answers method cls) (lines.map Prod.snd) answers)
    (hunrefused : List.Forall₂ (fun line answer => method.resolve line ≠ none → answer ≠ none)
      (lines.map Prod.snd) answers) :
    List.Forall₂ (Rewritten method cls) lines (lines.zipWith SourceMap.tableLine answers) := by
  induction lines generalizing answers with
  | nil => exact .nil
  | cons line lines ih =>
    cases h with
    | @cons _ answer _ answers hanswer hrest =>
      cases hunrefused with
      | cons hkept hunrefused =>
        refine .cons ⟨rfl, ?_, ?_⟩ (ih hrest hunrefused)
        · intro p hp
          cases answer with
          | none => exact absurd rfl (hkept (by rw [hp]; simp))
          | some mapped =>
            obtain ⟨p', hp', hcls⟩ := hanswer mapped rfl
            exact hcls.trans (hp'.symm.trans hp)
        · intro hnone
          cases answer with
          | none => rfl
          | some mapped =>
            obtain ⟨p', hp', -⟩ := hanswer mapped rfl
            rw [hnone] at hp'
            cases hp'

/-- Copying a method's lines keeps a map sound, and rewrites each to one that stands for the same. -/
theorem copyMethodLines_spec (hmethod : method.Sane ok) (hcls : cls.Sane ok) (written : List ℕ)
    (lines : List (ℕ × ℕ)) : ∃ cls' lines', cls.copyMethodLines method written lines = .ok (cls', lines') ∧
      cls'.Sane ok ∧ Grows cls cls' ∧
      (Unrefused cls method written (lines.map Prod.snd) → List.Forall₂ (Rewritten method cls') lines lines') := by
  obtain ⟨first, copier₁, cls₁, hwritten, hsane₁, hgrows₁, hright₁, -⟩ :=
    LineCopier.mapAll_spec hmethod written hcls (LineCopier.start_right method cls)
  obtain ⟨answers, copier₂, cls₂, hlines, hsane₂, hgrows₂, -, hanswers⟩ :=
    LineCopier.mapAll_spec hmethod (lines.map Prod.snd) hsane₁ hright₁
  refine ⟨cls₂, lines.zipWith SourceMap.tableLine answers, ?_, hsane₂, hgrows₁.trans hgrows₂, ?_⟩
  · simp only [SourceMap.copyMethodLines, hwritten, hlines, bind, Except.bind]
    rfl
  · intro hunrefused
    have hrun : cls.copyAnswers method written (lines.map Prod.snd) = .ok (first, answers) := by
      simp only [SourceMap.copyAnswers, hwritten, hlines, bind, Except.bind]
      rfl
    exact rewritten_of_answers hanswers (hunrefused first answers hrun).2

theorem copiedLines_spec (hmethod : method.Sane ok) (hcls : cls.Sane ok) (written queries : List ℕ) :
    ∃ cls' lines, cls.copiedLines method written queries = .ok (cls', lines) ∧ cls'.Sane ok ∧ Grows cls cls' := by
  obtain ⟨first, copier₁, cls₁, hwritten, hsane₁, hgrows₁, hright₁, -⟩ :=
    LineCopier.mapAll_spec hmethod written hcls (LineCopier.start_right method cls)
  obtain ⟨answers, copier₂, cls₂, hlines, hsane₂, hgrows₂, -, -⟩ :=
    LineCopier.mapAll_spec hmethod queries hsane₁ hright₁
  refine ⟨cls₂, queries.zipWith (fun line mapped => mapped.getD line) answers, ?_, hsane₂,
    hgrows₁.trans hgrows₂⟩
  simp only [SourceMap.copiedLines, hwritten, hlines, bind, Except.bind]
  rfl

end Copier

section Built

/-- A call that asks for one line. -/
inductive Call where
  | line (name path : Text) (source callLine : ℕ)
  | synthetic (id : ℕ) (callSite : Option ℕ)
  | copied (name path : Text) (source : ℕ) (callLine : Option ℕ)

namespace Call

def run (call : Call) (m : SourceMap) : Except Fault (Option ℕ × SourceMap) :=
  match call with
  | line name path source callLine => m.mapLine name path source callLine
  | synthetic id callSite => m.mapSyntheticLine id callSite
  | copied name path source callLine => m.mapCopiedLine name path source callLine

/-- What the call asks for. -/
def asked : Call → Request
  | line name path source callLine => ⟨name, path, source, some callLine⟩
  | synthetic id callSite => ⟨fakeFileName, fakePath, id, callSite⟩
  | copied name path source callLine => ⟨name, path, source, callLine⟩

/-- Lines from 1 to 65535, of a file whose name and path are allowed. -/
structure Valid (ok : Text → Prop) (call : Call) : Prop where
  lines : call.asked.Valid
  name : ok call.asked.name
  path : ok call.asked.path

variable {ok : Text → Prop} {m : SourceMap}

theorem run_spec (call : Call) (hm : m.Good) (hcall : call.asked.Valid) :
    ∃ answer m', call.run m = .ok (answer, m') ∧ Allocated m call.asked answer m' := by
  cases call with
  | line name path source callLine => exact mapNewLine_spec hm hcall
  | synthetic id callSite => exact map_spec hm hcall
  | copied name path source callLine => exact map_spec hm hcall

end Call

/-- The maps the public operations build, of files whose names and paths `ok` allows. -/
inductive Built (ok : Text → Prop) : SourceMap → Prop
  | unstarted : Built ok .unstarted
  | new {name path : Text} {lines : ℕ} (hlines : lines ≤ maxLine) (hname : ok name) (hpath : ok path) :
    Built ok (.new name path lines)
  | regenerated {name path : Text} {lines : ℕ} (hlines : lines ≤ maxLine) (hname : ok name) (hpath : ok path) :
    Built ok (.forRegeneratedClass name path lines)
  | forMethod {m m' : SourceMap} (hm : Built ok m) (h : m.forMethod = some m') : Built ok m'
  | call {m m' : SourceMap} {answer : Option ℕ} (hm : Built ok m) (call : Call) (hcall : call.Valid ok)
    (h : call.run m = .ok (answer, m')) : Built ok m'
  | copy {m m' method : SourceMap} {written : List ℕ} {lines lines' : List (ℕ × ℕ)} (hm : Built ok m)
    (hmethod : Built ok method) (h : m.copyMethodLines method written lines = .ok (m', lines')) : Built ok m'
  | copied {m m' method : SourceMap} {written queries lines : List ℕ} (hm : Built ok m)
    (hmethod : Built ok method) (h : m.copiedLines method written queries = .ok (m', lines)) : Built ok m'

variable {ok : Text → Prop}

theorem Built.sane {m : SourceMap} (h : Built ok m) : m.Sane ok := by
  induction h with
  | unstarted => exact unstarted_sane
  | new hlines hname hpath => exact new_sane hlines hname hpath
  | regenerated hlines hname hpath => exact forRegeneratedClass_sane hlines hname hpath
  | forMethod _ h ih => exact forMethod_sane ih h
  | call _ call hcall h ih =>
    obtain ⟨answer, m', hrun, hallocated⟩ := call.run_spec ih.good hcall.lines
    rw [hrun] at h
    obtain ⟨-, rfl⟩ := Prod.mk.inj (Except.ok.inj h)
    exact hallocated.sane ih hcall.lines hcall.name hcall.path
  | @copy m m' method written lines lines' _ _ h ih ihmethod =>
    obtain ⟨m'', lines'', hrun, hsane, -, -⟩ := copyMethodLines_spec ihmethod ih written lines
    rw [hrun] at h
    obtain ⟨rfl, -⟩ := Prod.mk.inj (Except.ok.inj h)
    exact hsane
  | @copied m m' method written queries lines _ _ h ih ihmethod =>
    obtain ⟨m'', lines'', hrun, hsane, -⟩ := copiedLines_spec ihmethod ih written queries
    rw [hrun] at h
    obtain ⟨rfl, -⟩ := Prod.mk.inj (Except.ok.inj h)
    exact hsane

/-- One call that changes a map. -/
inductive Step (ok : Text → Prop) : SourceMap → SourceMap → Prop
  | call {m m' : SourceMap} {answer : Option ℕ} (call : Call) (hcall : call.Valid ok)
    (h : call.run m = .ok (answer, m')) : Step ok m m'
  | copy {m m' method : SourceMap} {written : List ℕ} {lines lines' : List (ℕ × ℕ)}
    (hmethod : Built ok method) (h : m.copyMethodLines method written lines = .ok (m', lines')) : Step ok m m'
  | copied {m m' method : SourceMap} {written queries lines : List ℕ}
    (hmethod : Built ok method) (h : m.copiedLines method written queries = .ok (m', lines)) : Step ok m m'

/-- Any calls, one after the other. -/
def Later (ok : Text → Prop) : SourceMap → SourceMap → Prop := Relation.ReflTransGen (Step ok)

theorem Step.built {m m' : SourceMap} (h : Step ok m m') (hm : Built ok m) : Built ok m' := by
  cases h with
  | call call hcall h => exact .call hm call hcall h
  | copy hmethod h => exact .copy hm hmethod h
  | copied hmethod h => exact .copied hm hmethod h

theorem Step.grows {m m' : SourceMap} (h : Step ok m m') (hm : Built ok m) : Grows m m' := by
  cases h with
  | call call hcall h =>
    obtain ⟨answer, m'', hrun, hallocated⟩ := call.run_spec hm.sane.good hcall.lines
    rw [hrun] at h
    obtain ⟨-, rfl⟩ := Prod.mk.inj (Except.ok.inj h)
    exact hallocated.grows
  | @copy method written lines lines' hmethod h =>
    obtain ⟨m'', lines'', hrun, -, hgrows, -⟩ := copyMethodLines_spec hmethod.sane hm.sane written lines
    rw [hrun] at h
    obtain ⟨rfl, -⟩ := Prod.mk.inj (Except.ok.inj h)
    exact hgrows
  | @copied method written queries lines hmethod h =>
    obtain ⟨m'', lines'', hrun, -, hgrows⟩ := copiedLines_spec hmethod.sane hm.sane written queries
    rw [hrun] at h
    obtain ⟨rfl, -⟩ := Prod.mk.inj (Except.ok.inj h)
    exact hgrows

theorem Later.grows {m m' : SourceMap} (h : Later ok m m') (hm : Built ok m) : Grows m m' ∧ Built ok m' := by
  induction h with
  | refl => exact ⟨.refl m, hm⟩
  | tail _ hstep ih =>
    obtain ⟨hgrows, hbuilt⟩ := ih
    exact ⟨hgrows.trans (hstep.grows hbuilt), hstep.built hbuilt⟩

/-- Every line a map hands out stands for what was asked, then and after any later calls; ranges stay apart,
no arithmetic leaves 16 bits, a refused call changes nothing, and a copied method's lines stand for the same
in the class map. -/
theorem sourceMap_allocates {m : SourceMap} (h : Built (fun _ => True) m) :
    (m.entries.Pairwise (fun e e' => Apart e.range e'.range) ∧
      (∀ e ∈ m.entries, e.range.dest + e.range.range ≤ m.maxUsed + 1) ∧ m.maxUsed ≤ maxLine) ∧
    (∀ line p, m.resolve line = some p → p.source ≤ maxLine) ∧
    (∀ call : Call, call.asked.Valid → ∃ answer m', call.run m = .ok (answer, m') ∧
      (answer = none → m' = m) ∧
      ∀ line, answer = some line → ∀ later, Later (fun _ => True) m' later →
        later.resolve line = some call.asked.position) ∧
    ∀ method written lines, Built (fun _ => True) method →
      ∃ m' lines', m.copyMethodLines method written lines = .ok (m', lines') ∧
        (Unrefused m method written (lines.map Prod.snd) → List.Forall₂ (Rewritten method m') lines lines') := by
  have hsane := h.sane
  refine ⟨⟨hsane.good.apart, fun e he => (hsane.good.sound e he).dest_le, hsane.good.maxUsed_le⟩,
    fun line p hp => (hsane.good.source_le hp).2, ?_, ?_⟩
  · intro call hcall
    obtain ⟨answer, m', hrun, hallocated⟩ := call.run_spec hsane.good hcall
    refine ⟨answer, m', hrun, ?_, ?_⟩
    · rintro rfl
      exact hallocated.eq_of_none
    · rintro line rfl later hlater
      have hbuilt : Built (fun _ => True) m' := .call h call ⟨hcall, trivial, trivial⟩ hrun
      obtain ⟨hgrows, hbuiltLater⟩ := Later.grows hlater hbuilt
      exact hgrows.resolve hbuiltLater.sane.good (hallocated.resolve hsane.good hcall)
  · intro method written lines hmethod
    obtain ⟨m', lines', hrun, -, -, hrewritten⟩ := copyMethodLines_spec hmethod.sane hsane written lines
    exact ⟨m', lines', hrun, hrewritten⟩

/-- A class map with one inlined file, where a line joins the range of the line before it. -/
theorem sourceMap_allocates_inlined : ∃ m, Built (fun _ => True) m ∧
    (m.mapLine "Lib.kt".toList "LibKt".toList 6 2).map Prod.fst = .ok (some 5) ∧
    ∀ line p, m.resolve line = some p → p.source ≤ maxLine := by
  have hstart : Built (fun _ => True) (.new "Main.kt".toList "MainKt".toList 3) := .new (by decide) trivial trivial
  have hrun : ∃ m, (Call.line "Lib.kt".toList "LibKt".toList 5 2).run (.new "Main.kt".toList "MainKt".toList 3) =
      .ok (some 4, m) ∧ (m.mapLine "Lib.kt".toList "LibKt".toList 6 2).map Prod.fst = .ok (some 5) :=
    ⟨_, rfl, by decide⟩
  obtain ⟨m, hcall, hnext⟩ := hrun
  have hvalid : (Call.line "Lib.kt".toList "LibKt".toList 5 2).Valid fun _ => True :=
    ⟨⟨by decide, by decide, fun call hcall => (by
      obtain rfl := Option.some.inj hcall
      exact ⟨by decide, by decide⟩)⟩, trivial, trivial⟩
  have hbuilt : Built (fun _ => True) m := .call hstart _ hvalid hcall
  exact ⟨m, hbuilt, hnext, (sourceMap_allocates hbuilt).2.1⟩

end Built

end Krusty.Jvm.SourceMaps
