import Mathlib.Data.List.Nodup
import Krusty.Lib.Results
import Krusty.Native.Linker.Layout

/-! The layout of an image is sound: its parts are apart, aligned, and found in the file where they were put. -/
namespace Krusty.Native.Linker.Addresses.Layout

open Spans

section Words

variable {value align result a b : ℕ} {m : String}

theorem addWord_ok : addWord a b = .ok result ↔ a + b < 2 ^ 64 ∧ a + b = result := by
  unfold addWord
  split_ifs with hfits
  · rw [Except.ok.injEq]
    exact (and_iff_right hfits).symm
  · constructor
    · nofun
    · intro h
      exact absurd h.1 hfits

theorem addWord_ne_panic (h : a + b < 2 ^ 64) : addWord a b ≠ .error (.panic m) := by
  have hok : addWord a b = .ok (a + b) := addWord_ok.mpr ⟨h, rfl⟩
  rw [hok]
  nofun

theorem exists_pow_of_isPowerOfTwo (h : isPowerOfTwo align = true) : ∃ k < 64, align = 2 ^ k := by
  unfold isPowerOfTwo at h
  rw [List.any_eq_true] at h
  obtain ⟨k, hk, heq⟩ := h
  exact ⟨k, List.mem_range.mp hk, by simpa using heq⟩

/-- Adding all but one of the alignment and masking rounds up. -/
theorem alignUp_ok (hpower : isPowerOfTwo align = true) :
    alignUp value align = .ok result ↔ value + align < 2 ^ 64 ∧ roundUp value align = result := by
  obtain ⟨k, hk, rfl⟩ := exists_pow_of_isPowerOfTwo hpower
  unfold alignUp addWord
  split_ifs with hfits
  · have hmask : (value + 2 ^ k - 1) &&& (2 ^ 64 - 1 - (2 ^ k - 1)) = _ := and_mask k hk.le (by omega)
    change (Except.ok ((value + 2 ^ k - 1) &&& (2 ^ 64 - 1 - (2 ^ k - 1))) : Except Failure ℕ) = .ok result ↔ _
    rw [hmask]
    simp only [hfits, true_and, Except.ok.injEq]
    rfl
  · constructor
    · nofun
    · intro h
      exact absurd h.1 hfits

theorem alignUp_ne_panic (h : value + align < 2 ^ 64) : alignUp value align ≠ .error (.panic m) := by
  apply Results.bind_ne_error (addWord_ne_panic h)
  nofun

end Words

/-! ## One call of `place` -/

/-- A section where a call of `place` put it: `start` is its offset within its segment. -/
structure Spot where
  entry : ℕ × Section
  start : ℕ
  placed : Placed

namespace Spot

def key (spot : Spot) : ℕ × ℕ := (spot.entry.1, spot.entry.2.index)

def span (spot : Spot) : Span := ⟨spot.start, spot.placed.size⟩

/-- The spot honours the section's alignment, and is where its segment has that offset. -/
structure Good (page : ℕ) (locate : ℕ → Except Failure (ℕ × Option ℕ)) (spot : Spot) : Prop where
  power : isPowerOfTwo (alignment spot.entry.2) = true
  le_page : alignment spot.entry.2 ≤ page
  aligned : alignment spot.entry.2 ∣ spot.start
  located : locate spot.start = .ok (spot.placed.vaddr, spot.placed.fileOffset)

end Spot

section Place

variable {page : ℕ} {discarded : List (ℕ × ℕ)} {wanted : Placement}
  {locate : ℕ → Except Failure (ℕ × Option ℕ)} {cursor stop : ℕ} {placed later : Places} {entry : ℕ × Section}

/-- A turn of the loop leaves a section out, or puts it at the next place it may have. -/
theorem placeSection_ok
    (h : placeSection page discarded wanted locate (cursor, placed) entry = .ok (stop, later)) :
    belongs discarded wanted entry = false ∧ stop = cursor ∧ later = placed ∨
      belongs discarded wanted entry = true ∧ ∃ spot : Spot, spot.entry = entry ∧ spot.Good page locate ∧
        cursor ≤ spot.start ∧ stop = spot.start + spot.placed.size ∧ stop ≤ imageLimit ∧
        later = placed.insert spot.key spot.placed := by
  unfold placeSection at h
  by_cases hbelongs : belongs discarded wanted entry = true
  · rw [if_pos hbelongs] at h
    dsimp only at h
    by_cases hpower : isPowerOfTwo (alignment entry.2) = true
    · rw [if_neg (by simp [hpower])] at h
      by_cases hpage : page < alignment entry.2
      · rw [if_pos hpage] at h
        cases h
      · rw [if_neg hpage] at h
        obtain ⟨size, -, h⟩ := Results.bind_ok h
        obtain ⟨start, hstart, h⟩ := Results.bind_ok h
        obtain ⟨⟨vaddr, fileOffset⟩, hlocate, h⟩ := Results.bind_ok h
        dsimp only at h
        by_cases hlimit : start + size ≤ imageLimit
        · rw [if_pos hlimit] at h
          cases h
          obtain ⟨-, rfl⟩ := (alignUp_ok hpower).mp hstart
          refine .inr ⟨hbelongs, ⟨entry, _, vaddr, fileOffset, size⟩, rfl, ?_, ?_, rfl, hlimit, rfl⟩
          · exact ⟨hpower, not_lt.mp hpage, dvd_roundUp _ _, hlocate⟩
          · exact le_roundUp (Nat.lt_of_lt_of_le Nat.zero_lt_one (Nat.le_max_right _ _))
        · rw [if_neg hlimit] at h
          cases h
    · rw [if_pos (by simpa using hpower)] at h
      cases h
  · rw [if_neg hbelongs] at h
    cases h
    exact .inl ⟨by simpa using hbelongs, rfl, rfl⟩

/-- What a call of `place` adds: the sections that belong, in order from the cursor on. -/
theorem place_ok {entries : List (ℕ × Section)}
    (h : entries.foldlM (placeSection page discarded wanted locate) (cursor, placed) = .ok (stop, later))
    (hdistinct : (entries.map fun entry => (entry.1, entry.2.index)).Nodup)
    (hnew : ∀ entry ∈ entries, belongs discarded wanted entry = true →
      (entry.1, entry.2.index) ∉ placed.map Prod.fst) :
    ∃ spots : List Spot, later = placed ++ spots.map (fun spot => (spot.key, spot.placed)) ∧
      spots.map Spot.entry = entries.filter (belongs discarded wanted) ∧ (∀ spot ∈ spots, spot.Good page locate) ∧
      InOrder cursor (spots.map Spot.span) stop ∧ stop ≤ max cursor imageLimit := by
  induction entries generalizing cursor placed with
  | nil =>
    cases h
    exact ⟨[], (List.append_nil _).symm, rfl, nofun, Nat.le_refl _, Nat.le_max_left _ _⟩
  | cons entry entries ih =>
    rw [List.foldlM_cons] at h
    obtain ⟨⟨next, between⟩, hfirst, hlater⟩ := Results.bind_ok h
    clear h
    rw [List.map_cons, List.nodup_cons] at hdistinct
    obtain ⟨hother, hdistinct⟩ := hdistinct
    rcases placeSection_ok hfirst with hskip | hput
    · obtain ⟨hbelongs, rfl, rfl⟩ := hskip
      obtain ⟨spots, rfl, hentries, hrest⟩ :=
        ih hlater hdistinct fun entry hentry => hnew entry (List.mem_cons_of_mem _ hentry)
      refine ⟨spots, rfl, ?_, hrest⟩
      rw [hentries, List.filter_cons_of_neg (by simp [hbelongs])]
    · obtain ⟨hbelongs, spot, rfl, hgood, hcursor, rfl, hlimit, rfl⟩ := hput
      have hkey : spot.key ∉ placed.map Prod.fst := hnew spot.entry List.mem_cons_self hbelongs
      -- nothing was placed under the section's key, so the map only grows
      have hinsert : placed.insert spot.key spot.placed = placed ++ [(spot.key, spot.placed)] := by
        unfold Places.insert
        rw [List.filter_eq_self.mpr]
        intro place hplace
        have hne : place.1 ≠ spot.key := fun heq => hkey (heq ▸ List.mem_map_of_mem hplace)
        simpa using hne
      rw [hinsert] at hlater
      have hnext : ∀ entry ∈ entries, belongs discarded wanted entry = true →
          (entry.1, entry.2.index) ∉ (placed ++ [(spot.key, spot.placed)]).map Prod.fst := by
        intro entry hentry hwanted hmem
        rw [List.map_append, List.mem_append, List.map_singleton, List.mem_singleton] at hmem
        rcases hmem with hmem | hmem
        · exact hnew entry (List.mem_cons_of_mem _ hentry) hwanted hmem
        · exact hother (List.mem_map.mpr ⟨entry, hentry, hmem⟩)
      obtain ⟨spots, rfl, hentries, hgoods, horder, hstop⟩ := ih hlater hdistinct hnext
      refine ⟨spot :: spots, ?_, ?_, List.forall_mem_cons.mpr ⟨hgood, hgoods⟩, ⟨hcursor, horder⟩, by omega⟩
      · rw [List.append_assoc]
        rfl
      · rw [List.map_cons, hentries, List.filter_cons_of_pos hbelongs]

end Place

/-! ## The parts of a layout -/

/-- An area of the image, if it has room for anything. -/
def area (vaddr fileOffset size : ℕ) : List Placed := if 0 < size then [⟨vaddr, some fileOffset, size⟩] else []

/-- What the linker reserves room for. -/
def areas (layout : Layout) (reserve : Reserve) : List Placed :=
  area base 0 reserve.headers ++ area (base + layout.stubsAt) layout.stubsAt reserve.stubs ++
    area (base + layout.interfaceStubsAt) layout.interfaceStubsAt reserve.interfaceStubs ++
    area (base + layout.interfaceTablesAt) layout.interfaceTablesAt reserve.interfaceTables ++
    area layout.dataVaddrStart layout.dataFileStart reserve.writable

def regions (layout : Layout) (reserve : Reserve) : List Placed :=
  layout.areas reserve ++ layout.placed.map Prod.snd

def areaSpan (start size : ℕ) : List Span := if 0 < size then [⟨start, size⟩] else []

/-- A layout by its four lists of spots, each segment's in order. -/
structure Built (files : List Elf) (page : ℕ) (reserve : Reserve) (discarded : List (ℕ × ℕ)) (layout : Layout)
    (text readOnly data bss : List Spot) : Prop where
  placed : layout.placed = (text ++ readOnly ++ data ++ bss).map fun spot => (spot.key, spot.placed)
  textEntries : text.map Spot.entry = (sections files).filter (belongs discarded .text)
  readOnlyEntries : readOnly.map Spot.entry = (sections files).filter (belongs discarded .readOnly)
  dataEntries : data.map Spot.entry = (sections files).filter (belongs discarded .data)
  bssEntries : bss.map Spot.entry = (sections files).filter (belongs discarded .bss)
  textGood : ∀ spot ∈ text ++ readOnly, spot.Good page locateText
  dataGood : ∀ spot ∈ data, spot.Good page (locateData layout.dataVaddrStart layout.dataFileStart)
  bssGood : ∀ spot ∈ bss, spot.Good page (locateBss layout.dataVaddrStart)
  textOrder : InOrder 0 (areaSpan 0 reserve.headers ++ (text.map Spot.span ++
    (areaSpan layout.stubsAt reserve.stubs ++ (areaSpan layout.interfaceStubsAt reserve.interfaceStubs ++
      (areaSpan layout.interfaceTablesAt reserve.interfaceTables ++ readOnly.map Spot.span))))) layout.textEnd
  dataOrder : InOrder 0 (areaSpan 0 reserve.writable ++ data.map Spot.span) layout.dataFileSize
  bssOrder : InOrder layout.dataFileSize (bss.map Spot.span) layout.dataMemSize
  fileStart : layout.dataFileStart = roundUp layout.textEnd page
  vaddrStart : layout.dataVaddrStart = base + layout.dataFileStart
  samePage : layout.page = page
  limit : layout.dataFileStart + layout.dataMemSize ≤ imageLimit

variable {entry : ℕ × Section} {spots : List Spot}

section New

variable {files : List Elf} {page : ℕ} {reserve : Reserve} {layout : Layout}

theorem areaSpan_inOrder (start size : ℕ) : InOrder start (areaSpan start size) (start + size) := by
  unfold areaSpan
  split_ifs with hsize
  · exact ⟨Nat.le_refl _, Nat.le_refl _⟩
  · exact Nat.le_add_right _ _

theorem reserveArea_ok {cursor size align start stop : ℕ} (hpower : isPowerOfTwo align = true)
    (h : reserveArea cursor size align = .ok (start, stop)) :
    InOrder cursor (areaSpan start size) stop ∧ stop ≤ cursor + align + size := by
  have hpos : 0 < align := by
    obtain ⟨k, -, rfl⟩ := exists_pow_of_isPowerOfTwo hpower
    exact Nat.two_pow_pos k
  unfold reserveArea at h
  unfold areaSpan
  split_ifs at h ⊢ with hsize
  · obtain ⟨at', hat, h⟩ := Results.bind_ok h
    obtain ⟨sum, hsum, h⟩ := Results.bind_ok h
    cases h
    obtain ⟨-, rfl⟩ := (alignUp_ok hpower).mp hat
    obtain ⟨-, rfl⟩ := addWord_ok.mp hsum
    have hlt : roundUp cursor align < cursor + align := roundUp_lt hpos
    exact ⟨⟨le_roundUp hpos, Nat.le_refl _⟩, by omega⟩
  · cases h
    exact ⟨Nat.le_refl _, by omega⟩

theorem sections_keys (files : List Elf) (start : ℕ) :
    (((files.zipIdx start).flatMap fun (file, fileIndex) => file.sections.map (fileIndex, ·)).map
      fun entry => (entry.1, entry.2.index)).Nodup ∧
    ∀ entry ∈ (files.zipIdx start).flatMap fun (file, fileIndex) => file.sections.map (fileIndex, ·),
      start ≤ entry.1 := by
  induction files generalizing start with
  | nil => exact ⟨.nil, nofun⟩
  | cons file files ih =>
    obtain ⟨hdistinct, hle⟩ := ih (start + 1)
    rw [List.zipIdx_cons, List.flatMap_cons, List.map_append, List.map_map]
    constructor
    · rw [List.nodup_append]
      refine ⟨?_, hdistinct, ?_⟩
      · have hpairs := file.distinct.map (f := fun index => (start, index)) fun a b h => (Prod.mk.inj h).2
        rwa [List.map_map] at hpairs
      · intro key hkey other hother heq
        obtain ⟨sect, -, rfl⟩ := List.mem_map.mp hkey
        obtain ⟨entry, hentry, rfl⟩ := List.mem_map.mp hother
        have hstart := hle entry hentry
        have hsame : start = entry.1 := congrArg Prod.fst heq
        omega
    · intro entry hentry
      rw [List.mem_append] at hentry
      rcases hentry with hentry | hentry
      · obtain ⟨sect, -, rfl⟩ := List.mem_map.mp hentry
        exact Nat.le_refl _
      · exact (Nat.le_succ start).trans (hle entry hentry)

/-- No two sections go under one key. -/
theorem sections_distinct (files : List Elf) :
    ((sections files).map fun entry => (entry.1, entry.2.index)).Nodup :=
  (sections_keys files 0).1

variable {discarded : List (ℕ × ℕ)}

theorem belongs_unique {wanted other : Placement}
    (h : belongs discarded wanted entry = true) (hne : wanted ≠ other) : belongs discarded other entry = false := by
  unfold belongs at h ⊢
  have hplacement : placement entry.2.kind = some wanted := by
    simp only [Bool.and_eq_true, beq_iff_eq] at h
    exact h.1.1
  have hother : (placement entry.2.kind == some other) = false := by
    rw [hplacement, beq_eq_false_iff_ne]
    simpa using hne
  rw [hother, Bool.false_and, Bool.false_and]

/-- Sections of another placement are under keys of their own. -/
theorem key_notMem {wanted : Placement}
    (hspots : ∀ spot ∈ spots, spot.entry ∈ sections files ∧ belongs discarded wanted spot.entry = false) :
    ∀ entry ∈ sections files, belongs discarded wanted entry = true →
      (entry.1, entry.2.index) ∉ (spots.map fun spot => (spot.key, spot.placed)).map Prod.fst := by
  intro entry hentry hbelongs hmem
  rw [List.map_map] at hmem
  obtain ⟨spot, hspot, hkey⟩ := List.mem_map.mp hmem
  obtain ⟨hin, hout⟩ := hspots spot hspot
  have hsame : spot.entry = entry := List.inj_on_of_nodup_map (sections_distinct files) hin hentry hkey
  rw [hsame, hbelongs] at hout
  cases hout

theorem mem_of_chosen {other : Placement}
    (hchosen : spots.map Spot.entry = (sections files).filter (belongs discarded other)) (wanted : Placement)
    (hne : other ≠ wanted) : ∀ spot ∈ spots, spot.entry ∈ sections files ∧ belongs discarded wanted spot.entry = false := by
  intro spot hspot
  have hmem := List.mem_map_of_mem (f := Spot.entry) hspot
  rw [hchosen, List.mem_filter] at hmem
  exact ⟨hmem.1, belongs_unique hmem.2 hne⟩

/-- A layout is built of the spots that its four calls of `place` find. -/
theorem new_built (hpage : isPowerOfTwo page = true) (h : new files page reserve = .ok layout) :
    ∃ discarded text readOnly data bss, discardedGroups files = .ok discarded ∧
      Built files page reserve discarded layout text readOnly data bss := by
  have hpos : 0 < page := by
    obtain ⟨k, -, rfl⟩ := exists_pow_of_isPowerOfTwo hpage
    exact Nat.two_pow_pos k
  obtain ⟨-, -, h⟩ := Results.bind_ok h
  obtain ⟨discarded, hdiscarded, h⟩ := Results.bind_ok h
  obtain ⟨⟨textStop, textPlaced⟩, htext, h⟩ := Results.bind_ok h
  obtain ⟨⟨stubsAt, stubsStop⟩, hstubs, h⟩ := Results.bind_ok h
  obtain ⟨⟨interfaceStubsAt, interfaceStubsStop⟩, hinterfaceStubs, h⟩ := Results.bind_ok h
  obtain ⟨⟨interfaceTablesAt, interfaceTablesStop⟩, hinterfaceTables, h⟩ := Results.bind_ok h
  obtain ⟨⟨textEnd, readOnlyPlaced⟩, hreadOnly, h⟩ := Results.bind_ok h
  obtain ⟨fileStart, hfileStart, h⟩ := Results.bind_ok h
  obtain ⟨vaddrStart, hvaddrStart, h⟩ := Results.bind_ok h
  obtain ⟨⟨dataFileSize, dataPlaced⟩, hdata, h⟩ := Results.bind_ok h
  obtain ⟨⟨dataMemSize, bssPlaced⟩, hbss, h⟩ := Results.bind_ok h
  obtain ⟨span, hspan, h⟩ := Results.bind_ok h
  split_ifs at h with hlimit
  · cases h
  cases h
  have hdistinct := sections_distinct files
  obtain ⟨text, rfl, htextEntries, htextGood, htextOrder, -⟩ := place_ok htext hdistinct fun _ _ _ => nofun
  rw [List.nil_append] at hreadOnly
  have htextApart := mem_of_chosen htextEntries
  obtain ⟨readOnly, rfl, hreadOnlyEntries, hreadOnlyGood, hreadOnlyOrder, -⟩ := place_ok hreadOnly hdistinct
    (key_notMem (htextApart .readOnly (by decide)))
  have hreadOnlyApart := mem_of_chosen hreadOnlyEntries
  rw [← List.map_append] at hdata
  obtain ⟨data, rfl, hdataEntries, hdataGood, hdataOrder, -⟩ := place_ok hdata hdistinct
    (key_notMem (List.forall_mem_append.mpr ⟨htextApart .data (by decide), hreadOnlyApart .data (by decide)⟩))
  have hdataApart := mem_of_chosen hdataEntries
  rw [← List.map_append] at hbss
  obtain ⟨bss, rfl, hbssEntries, hbssGood, hbssOrder, -⟩ := place_ok hbss hdistinct
    (key_notMem (List.forall_mem_append.mpr ⟨List.forall_mem_append.mpr
      ⟨htextApart .bss (by decide), hreadOnlyApart .bss (by decide)⟩, hdataApart .bss (by decide)⟩))
  obtain ⟨hstubsOrder, -⟩ := reserveArea_ok (by decide) hstubs
  obtain ⟨hinterfaceStubsOrder, -⟩ := reserveArea_ok (by decide) hinterfaceStubs
  obtain ⟨hinterfaceTablesOrder, -⟩ := reserveArea_ok (by decide) hinterfaceTables
  obtain ⟨-, rfl⟩ := (alignUp_ok hpage).mp hfileStart
  obtain ⟨-, rfl⟩ := addWord_ok.mp hvaddrStart
  obtain ⟨-, rfl⟩ := addWord_ok.mp hspan
  have hheaders := areaSpan_inOrder 0 reserve.headers
  have hwritable := areaSpan_inOrder 0 reserve.writable
  rw [Nat.zero_add] at hheaders hwritable
  exact ⟨discarded, text, readOnly, data, bss, hdiscarded, {
    placed := by rw [← List.map_append]
    textEntries := htextEntries
    readOnlyEntries := hreadOnlyEntries
    dataEntries := hdataEntries
    bssEntries := hbssEntries
    textGood := List.forall_mem_append.mpr ⟨htextGood, hreadOnlyGood⟩
    dataGood := hdataGood
    bssGood := hbssGood
    textOrder := hheaders.append (htextOrder.append (hstubsOrder.append
      (hinterfaceStubsOrder.append (hinterfaceTablesOrder.append hreadOnlyOrder))))
    dataOrder := hwritable.append hdataOrder
    bssOrder := hbssOrder
    fileStart := rfl
    vaddrStart := rfl
    samePage := rfl
    limit := not_lt.mp hlimit }⟩

end New

/-! ## Soundness -/

/-- Two parts of the image share no address. -/
def Apart (a b : Placed) : Prop := a.vaddr + a.size ≤ b.vaddr ∨ b.vaddr + b.size ≤ a.vaddr

/-- Two parts of the image share no byte of the file. -/
def FileApart (a b : Placed) : Prop :=
  ∀ x ∈ a.fileOffset, ∀ y ∈ b.fileOffset, x + a.size ≤ y ∨ y + b.size ≤ x

/-- A section that the layout gives a place. -/
def loaded (discarded : List (ℕ × ℕ)) (entry : ℕ × Section) : Bool :=
  (placement entry.2.kind).isSome && !isImplementationsSection entry.2.shownName &&
    !(discarded.contains (entry.1, entry.2.index))

/-- The layout is sound for the sections that it does not leave out. -/
structure Sound (files : List Elf) (reserve : Reserve) (layout : Layout) : Prop where
  /-- Sections and reserved areas share no address, and no byte of the file. -/
  apart : (layout.regions reserve).Pairwise Apart
  fileApart : (layout.regions reserve).Pairwise FileApart
  /-- Every place is one section's, and is aligned as the section asks. -/
  keys : (layout.placed.map Prod.fst).Nodup
  aligned : ∀ place ∈ layout.placed, ∃ entry ∈ sections files, place.1 = (entry.1, entry.2.index) ∧
    alignment entry.2 ∣ place.2.vaddr
  /-- Every section is placed, unless it is left out. -/
  complete : ∃ discarded, discardedGroups files = .ok discarded ∧ ∀ entry ∈ sections files,
    (entry.1, entry.2.index) ∈ layout.placed.map Prod.fst ↔ loaded discarded entry = true
  /-- An address with bytes in the file is found there. -/
  found : ∀ place ∈ layout.regions reserve, ∀ start ∈ place.fileOffset, ∀ k < place.size,
    layout.fileOffset (place.vaddr + k) = .ok (some (start + k))
  /-- Each part is within one of the two segments. -/
  within : ∀ place ∈ layout.regions reserve,
    base ≤ place.vaddr ∧ place.vaddr + place.size ≤ base + layout.textEnd ∨
    layout.dataVaddrStart ≤ place.vaddr ∧ place.vaddr + place.size ≤ layout.dataVaddrStart + layout.dataMemSize
  /-- Both segments are congruent modulo the page in the file and in memory. -/
  textCongruent : base % layout.page = 0
  dataCongruent : layout.dataVaddrStart % layout.page = layout.dataFileStart % layout.page
  /-- No page of the file or of memory holds bytes of both segments. -/
  filePages : ∀ x y, x < layout.textEnd → layout.dataFileStart ≤ y → x / layout.page ≠ y / layout.page
  pages : ∀ x y, x < base + layout.textEnd → layout.dataVaddrStart ≤ y → x / layout.page ≠ y / layout.page

section Soundness

variable {files : List Elf} {page : ℕ} {reserve : Reserve} {layout : Layout} {discarded : List (ℕ × ℕ)}
  {text readOnly data bss : List Spot}

def textRegion (span : Span) : Placed := ⟨base + span.start, some span.start, span.size⟩

def dataRegion (layout : Layout) (span : Span) : Placed :=
  ⟨layout.dataVaddrStart + span.start, some (layout.dataFileStart + span.start), span.size⟩

def bssRegion (layout : Layout) (span : Span) : Placed :=
  ⟨layout.dataVaddrStart + span.start, none, span.size⟩

namespace Built

def textSpans (reserve : Reserve) (layout : Layout) (text readOnly : List Spot) : List Span :=
  areaSpan 0 reserve.headers ++ (text.map Spot.span ++
    (areaSpan layout.stubsAt reserve.stubs ++ (areaSpan layout.interfaceStubsAt reserve.interfaceStubs ++
      (areaSpan layout.interfaceTablesAt reserve.interfaceTables ++ readOnly.map Spot.span))))

def dataSpans (reserve : Reserve) (data : List Spot) : List Span :=
  areaSpan 0 reserve.writable ++ data.map Spot.span

theorem map_areaSpan_text (start size : ℕ) :
    (areaSpan start size).map textRegion = area (base + start) start size := by
  unfold areaSpan area
  split_ifs <;> rfl

theorem map_areaSpan_data (layout : Layout) (size : ℕ) :
    (areaSpan 0 size).map (dataRegion layout) = area layout.dataVaddrStart layout.dataFileStart size := by
  unfold areaSpan area
  split_ifs <;> rfl

variable {spot : Spot}

theorem textSpot (h : spot.Good page locateText) : textRegion spot.span = spot.placed := by
  obtain ⟨vaddr, hvaddr, hlocated⟩ := Results.bind_ok h.located
  obtain ⟨-, rfl⟩ := addWord_ok.mp hvaddr
  obtain ⟨hvaddr, hfileOffset⟩ := Prod.mk.inj (Except.ok.inj hlocated)
  change (⟨base + spot.start, some spot.start, spot.placed.size⟩ : Placed) = spot.placed
  rw [hvaddr, hfileOffset]

theorem dataSpot (h : spot.Good page (locateData layout.dataVaddrStart layout.dataFileStart)) :
    layout.dataRegion spot.span = spot.placed := by
  obtain ⟨vaddr, hvaddr, hlocated⟩ := Results.bind_ok h.located
  obtain ⟨fileOffset, hfileOffset, hlocated⟩ := Results.bind_ok hlocated
  obtain ⟨-, rfl⟩ := addWord_ok.mp hvaddr
  obtain ⟨-, rfl⟩ := addWord_ok.mp hfileOffset
  obtain ⟨hvaddr, hfileOffset⟩ := Prod.mk.inj (Except.ok.inj hlocated)
  change (⟨layout.dataVaddrStart + spot.start, some (layout.dataFileStart + spot.start), spot.placed.size⟩ : Placed) =
    spot.placed
  rw [hvaddr, hfileOffset]

theorem bssSpot (h : spot.Good page (locateBss layout.dataVaddrStart)) :
    layout.bssRegion spot.span = spot.placed := by
  obtain ⟨vaddr, hvaddr, hlocated⟩ := Results.bind_ok h.located
  obtain ⟨-, rfl⟩ := addWord_ok.mp hvaddr
  obtain ⟨hvaddr, hfileOffset⟩ := Prod.mk.inj (Except.ok.inj hlocated)
  change (⟨layout.dataVaddrStart + spot.start, none, spot.placed.size⟩ : Placed) = spot.placed
  rw [hvaddr, hfileOffset]

theorem map_spans {region : Span → Placed} (h : ∀ spot ∈ spots, region spot.span = spot.placed) :
    (spots.map Spot.span).map region = spots.map Spot.placed := by
  rw [List.map_map]
  exact List.map_congr_left h

/-- The parts of the image, segment by segment. -/
theorem regions_perm (built : Built files page reserve discarded layout text readOnly data bss) :
    (layout.regions reserve).Perm ((textSpans reserve layout text readOnly).map textRegion ++
      ((dataSpans reserve data).map layout.dataRegion ++ (bss.map Spot.span).map layout.bssRegion)) := by
  obtain ⟨htextGood, hreadOnlyGood⟩ := List.forall_mem_append.mp built.textGood
  have htext := map_spans fun spot hspot => textSpot (htextGood spot hspot)
  have hreadOnly := map_spans fun spot hspot => textSpot (hreadOnlyGood spot hspot)
  have hdata := map_spans fun spot hspot => dataSpot (built.dataGood spot hspot)
  have hbss := map_spans fun spot hspot => bssSpot (built.bssGood spot hspot)
  have hplaced : layout.placed.map Prod.snd = (text ++ readOnly ++ data ++ bss).map Spot.placed := by
    rw [built.placed, List.map_map]
    rfl
  unfold regions areas textSpans dataSpans
  simp only [List.map_append, map_areaSpan_text, map_areaSpan_data, htext, hreadOnly, hdata, hbss, hplaced]
  rw [List.perm_iff_count]
  intro place
  simp only [List.count_append]
  have hbase : base + 0 = base := rfl
  rw [hbase]
  omega

/-- Where the segments are: the writable one starts on a page after the executable one. -/
theorem bounds (built : Built files page reserve discarded layout text readOnly data bss) (hpos : 0 < page) :
    layout.textEnd ≤ layout.dataFileStart ∧ layout.dataFileSize ≤ layout.dataMemSize ∧
      page ∣ layout.dataFileStart := by
  have hle := built.bssOrder.le
  rw [built.fileStart]
  exact ⟨le_roundUp hpos, hle, dvd_roundUp _ _⟩

/-- A part of the image is a span of the executable segment, or of the writable one, with bytes or without. -/
theorem mem_regions (built : Built files page reserve discarded layout text readOnly data bss) {place : Placed}
    (hplace : place ∈ layout.regions reserve) :
    (∃ span : Span, span.stop ≤ layout.textEnd ∧ place = textRegion span) ∨
    (∃ span : Span, span.stop ≤ layout.dataFileSize ∧ place = layout.dataRegion span) ∨
    ∃ span : Span, span.stop ≤ layout.dataMemSize ∧ place = layout.bssRegion span := by
  have hmem := built.regions_perm.mem_iff.mp hplace
  simp only [List.mem_append] at hmem
  rcases hmem with hmem | hmem | hmem
  · obtain ⟨span, hspan, rfl⟩ := List.mem_map.mp hmem
    exact .inl ⟨span, (built.textOrder.bounds hspan).2, rfl⟩
  · obtain ⟨span, hspan, rfl⟩ := List.mem_map.mp hmem
    exact .inr (.inl ⟨span, (built.dataOrder.bounds hspan).2, rfl⟩)
  · obtain ⟨span, hspan, rfl⟩ := List.mem_map.mp hmem
    exact .inr (.inr ⟨span, (built.bssOrder.bounds hspan).2, rfl⟩)

theorem apart (built : Built files page reserve discarded layout text readOnly data bss) (hpos : 0 < page) :
    (layout.regions reserve).Pairwise fun a b => Apart a b ∧ FileApart a b := by
  have hsymm : ∀ {a b : Placed}, Apart a b ∧ FileApart a b → Apart b a ∧ FileApart b a :=
    fun h => ⟨h.1.symm, fun x hx y hy => (h.2 y hy x hx).symm⟩
  rw [built.regions_perm.pairwise_iff hsymm]
  obtain ⟨hends, hsizes, -⟩ := built.bounds hpos
  have hvaddr := built.vaddrStart
  have htext := built.textOrder.pairwise
  have hdata := (built.dataOrder.append built.bssOrder).pairwise
  rw [List.pairwise_append] at hdata
  obtain ⟨hdata, hbss, hacross⟩ := hdata
  rw [List.pairwise_append, List.pairwise_append]
  refine ⟨?_, ⟨?_, ?_, ?_⟩, ?_⟩
  · rw [List.pairwise_map]
    refine htext.imp fun {a b} hab => ?_
    unfold Span.stop at hab
    constructor
    · left
      change base + a.start + a.size ≤ base + b.start
      omega
    · intro x hx y hy
      cases hx
      cases hy
      exact .inl hab
  · rw [List.pairwise_map]
    refine hdata.imp fun {a b} hab => ?_
    unfold Span.stop at hab
    constructor
    · left
      change layout.dataVaddrStart + a.start + a.size ≤ layout.dataVaddrStart + b.start
      omega
    · intro x hx y hy
      cases hx
      cases hy
      left
      change layout.dataFileStart + a.start + a.size ≤ layout.dataFileStart + b.start
      omega
  · rw [List.pairwise_map]
    refine hbss.imp fun {a b} hab => ?_
    unfold Span.stop at hab
    constructor
    · left
      change layout.dataVaddrStart + a.start + a.size ≤ layout.dataVaddrStart + b.start
      omega
    · nofun
  · intro a ha b hb
    obtain ⟨span, hspan, rfl⟩ := List.mem_map.mp ha
    obtain ⟨other, hother, rfl⟩ := List.mem_map.mp hb
    have hab := hacross span hspan other hother
    unfold Span.stop at hab
    constructor
    · left
      change layout.dataVaddrStart + span.start + span.size ≤ layout.dataVaddrStart + other.start
      omega
    · intro x hx y hy
      cases hy
  · intro a ha b hb
    obtain ⟨span, hspan, rfl⟩ := List.mem_map.mp ha
    have hstop := (built.textOrder.bounds hspan).2
    unfold Span.stop at hstop
    rw [List.mem_append] at hb
    rcases hb with hb | hb
    · obtain ⟨other, -, rfl⟩ := List.mem_map.mp hb
      constructor
      · left
        change base + span.start + span.size ≤ layout.dataVaddrStart + other.start
        omega
      · intro x hx y hy
        cases hx
        cases hy
        left
        change span.start + span.size ≤ layout.dataFileStart + other.start
        omega
    · obtain ⟨other, -, rfl⟩ := List.mem_map.mp hb
      constructor
      · left
        change base + span.start + span.size ≤ layout.dataVaddrStart + other.start
        omega
      · intro x hx y hy
        cases hy

theorem found (built : Built files page reserve discarded layout text readOnly data bss) (hpos : 0 < page)
    {place : Placed} (hplace : place ∈ layout.regions reserve) {start : ℕ} (hstart : start ∈ place.fileOffset)
    {k : ℕ} (hk : k < place.size) : layout.fileOffset (place.vaddr + k) = .ok (some (start + k)) := by
  obtain ⟨hends, hsizes, -⟩ := built.bounds hpos
  have hvaddr := built.vaddrStart
  have hlimit := built.limit
  have hbase : base = 0x400000 := rfl
  unfold imageLimit at hlimit
  have htextEnd : addWord base layout.textEnd = .ok (base + layout.textEnd) := addWord_ok.mpr ⟨by omega, rfl⟩
  have hdataEnd : addWord layout.dataVaddrStart layout.dataFileSize =
      .ok (layout.dataVaddrStart + layout.dataFileSize) := addWord_ok.mpr ⟨by omega, rfl⟩
  unfold fileOffset
  rw [Results.bind_of_ok htextEnd]
  rcases built.mem_regions hplace with htext | hdata | hbss
  · obtain ⟨span, hstop, rfl⟩ := htext
    cases hstart
    change k < span.size at hk
    unfold Span.stop at hstop
    change (if base ≤ base + span.start + k ∧ base + span.start + k < base + layout.textEnd then
      pure (some (base + span.start + k - base)) else _) = _
    have hoffset : base + span.start + k - base = span.start + k := by omega
    rw [if_pos (by omega), hoffset]
    rfl
  · obtain ⟨span, hstop, rfl⟩ := hdata
    cases hstart
    change k < span.size at hk
    unfold Span.stop at hstop
    change (if base ≤ layout.dataVaddrStart + span.start + k ∧
      layout.dataVaddrStart + span.start + k < base + layout.textEnd then _ else _) = _
    rw [if_neg (by omega), Results.bind_of_ok hdataEnd]
    change (if layout.dataVaddrStart ≤ layout.dataVaddrStart + span.start + k ∧
      layout.dataVaddrStart + span.start + k < layout.dataVaddrStart + layout.dataFileSize then _ else _) = _
    have hraised : addWord layout.dataFileStart (layout.dataVaddrStart + span.start + k) =
        .ok (layout.dataFileStart + (layout.dataVaddrStart + span.start + k)) := addWord_ok.mpr ⟨by omega, rfl⟩
    have hoffset : layout.dataFileStart + (layout.dataVaddrStart + span.start + k) - layout.dataVaddrStart =
        layout.dataFileStart + span.start + k := by omega
    rw [if_pos (by omega)]
    change (addWord layout.dataFileStart (layout.dataVaddrStart + span.start + k) >>= _) = _
    rw [Results.bind_of_ok hraised, hoffset]
    rfl
  · obtain ⟨span, hstop, rfl⟩ := hbss
    cases hstart

theorem entries_nodup (built : Built files page reserve discarded layout text readOnly data bss) :
    ((text ++ readOnly ++ data ++ bss).map Spot.entry).Nodup := by
  have hsections : (sections files).Nodup := (sections_distinct files).of_map _
  have hapart : ∀ {wanted other : Placement} {a b : ℕ × Section}, belongs discarded wanted a = true →
      belongs discarded other b = true → wanted ≠ other → a ≠ b := by
    intro wanted other a b ha hb hne heq
    rw [heq] at ha
    rw [belongs_unique ha hne] at hb
    cases hb
  simp only [List.map_append, built.textEntries, built.readOnlyEntries, built.dataEntries, built.bssEntries]
  simp only [List.nodup_append, hsections.filter, true_and, List.mem_append, List.mem_filter]
  refine ⟨⟨?_, ?_⟩, ?_⟩
  · intro a ha b hb
    exact hapart ha.2 hb.2 (by decide)
  · intro a ha b hb
    rcases ha with ha | ha
    · exact hapart ha.2 hb.2 (by decide)
    · exact hapart ha.2 hb.2 (by decide)
  · intro a ha b hb
    rcases ha with (ha | ha) | ha
    · exact hapart ha.2 hb.2 (by decide)
    · exact hapart ha.2 hb.2 (by decide)
    · exact hapart ha.2 hb.2 (by decide)

theorem mem_entries (built : Built files page reserve discarded layout text readOnly data bss) :
    entry ∈ (text ++ readOnly ++ data ++ bss).map Spot.entry ↔
      entry ∈ sections files ∧ loaded discarded entry = true := by
  simp only [List.map_append, built.textEntries, built.readOnlyEntries, built.dataEntries, built.bssEntries,
    List.mem_append, List.mem_filter]
  unfold belongs loaded
  cases hplacement : placement entry.2.kind with
  | none => simp
  | some wanted => cases wanted <;> simp

theorem keys_eq (built : Built files page reserve discarded layout text readOnly data bss) :
    layout.placed.map Prod.fst =
      ((text ++ readOnly ++ data ++ bss).map Spot.entry).map fun entry => (entry.1, entry.2.index) := by
  rw [built.placed, List.map_map, List.map_map]
  rfl

theorem keys (built : Built files page reserve discarded layout text readOnly data bss) :
    (layout.placed.map Prod.fst).Nodup := by
  rw [built.keys_eq]
  apply built.entries_nodup.map_on
  intro a ha b hb hkey
  exact List.inj_on_of_nodup_map (sections_distinct files) (built.mem_entries.mp ha).1
    (built.mem_entries.mp hb).1 hkey

theorem complete (built : Built files page reserve discarded layout text readOnly data bss)
    (hentry : entry ∈ sections files) :
    (entry.1, entry.2.index) ∈ layout.placed.map Prod.fst ↔ loaded discarded entry = true := by
  rw [built.keys_eq]
  constructor
  · intro h
    obtain ⟨other, hother, hkey⟩ := List.mem_map.mp h
    obtain ⟨hsection, hloaded⟩ := built.mem_entries.mp hother
    obtain rfl := List.inj_on_of_nodup_map (sections_distinct files) hsection hentry hkey
    exact hloaded
  · intro h
    exact List.mem_map_of_mem (f := fun entry : ℕ × Section => (entry.1, entry.2.index))
      (built.mem_entries.mpr ⟨hentry, h⟩)

theorem alignment_dvd (hpage : isPowerOfTwo page = true) {locate : ℕ → Except Failure (ℕ × Option ℕ)}
    (h : spot.Good page locate) : alignment spot.entry.2 ∣ page := by
  obtain ⟨j, -, hj⟩ := exists_pow_of_isPowerOfTwo h.power
  obtain ⟨k, -, hk⟩ := exists_pow_of_isPowerOfTwo hpage
  have hle := h.le_page
  rw [hj, hk] at hle ⊢
  exact Nat.pow_dvd_pow 2 ((Nat.pow_le_pow_iff_right (by decide)).mp hle)

theorem aligned (built : Built files page reserve discarded layout text readOnly data bss)
    (hpage : isPowerOfTwo page = true) (hbase : page ∣ base) {place : (ℕ × ℕ) × Placed}
    (hplace : place ∈ layout.placed) : ∃ entry ∈ sections files, place.1 = (entry.1, entry.2.index) ∧
      alignment entry.2 ∣ place.2.vaddr := by
  have hvaddrStart : page ∣ layout.dataVaddrStart := by
    rw [built.vaddrStart, built.fileStart]
    exact Nat.dvd_add hbase (dvd_roundUp _ _)
  rw [built.placed] at hplace
  obtain ⟨spot, hspot, rfl⟩ := List.mem_map.mp hplace
  have hentry := (built.mem_entries.mp (List.mem_map_of_mem (f := Spot.entry) hspot)).1
  refine ⟨spot.entry, hentry, rfl, ?_⟩
  simp only [List.mem_append] at hspot
  rcases hspot with (htext | hdata) | hbss
  · have hgood := built.textGood spot (List.mem_append.mpr htext)
    rw [← textSpot hgood]
    exact Nat.dvd_add ((alignment_dvd hpage hgood).trans hbase) hgood.aligned
  · have hgood := built.dataGood spot hdata
    rw [← dataSpot hgood]
    exact Nat.dvd_add ((alignment_dvd hpage hgood).trans hvaddrStart) hgood.aligned
  · have hgood := built.bssGood spot hbss
    rw [← bssSpot hgood]
    exact Nat.dvd_add ((alignment_dvd hpage hgood).trans hvaddrStart) hgood.aligned

theorem within (built : Built files page reserve discarded layout text readOnly data bss) (hpos : 0 < page)
    {place : Placed} (hplace : place ∈ layout.regions reserve) :
    base ≤ place.vaddr ∧ place.vaddr + place.size ≤ base + layout.textEnd ∨
    layout.dataVaddrStart ≤ place.vaddr ∧ place.vaddr + place.size ≤ layout.dataVaddrStart + layout.dataMemSize := by
  obtain ⟨-, hsizes, -⟩ := built.bounds hpos
  rcases built.mem_regions hplace with htext | hdata | hbss
  · obtain ⟨span, hstop, rfl⟩ := htext
    unfold Span.stop at hstop
    left
    change base ≤ base + span.start ∧ base + span.start + span.size ≤ base + layout.textEnd
    omega
  · obtain ⟨span, hstop, rfl⟩ := hdata
    unfold Span.stop at hstop
    right
    change layout.dataVaddrStart ≤ layout.dataVaddrStart + span.start ∧
      layout.dataVaddrStart + span.start + span.size ≤ layout.dataVaddrStart + layout.dataMemSize
    omega
  · obtain ⟨span, hstop, rfl⟩ := hbss
    unfold Span.stop at hstop
    right
    change layout.dataVaddrStart ≤ layout.dataVaddrStart + span.start ∧
      layout.dataVaddrStart + span.start + span.size ≤ layout.dataVaddrStart + layout.dataMemSize
    omega

theorem div_ne_of_page {x y boundary : ℕ} (hpos : 0 < page) (hdvd : page ∣ boundary) (hx : x < boundary)
    (hy : boundary ≤ y) : x / page ≠ y / page := by
  obtain ⟨k, rfl⟩ := hdvd
  have hlow : x / page < k := Nat.div_lt_of_lt_mul hx
  have hhigh : k ≤ y / page := (Nat.le_div_iff_mul_le hpos).mpr (by rwa [Nat.mul_comm])
  omega

theorem sound (built : Built files page reserve discarded layout text readOnly data bss)
    (hdiscarded : discardedGroups files = .ok discarded) (hpage : isPowerOfTwo page = true) (hbase : page ∣ base) :
    Sound files reserve layout := by
  have hpos : 0 < page := by
    obtain ⟨k, -, rfl⟩ := exists_pow_of_isPowerOfTwo hpage
    exact Nat.two_pow_pos k
  obtain ⟨hends, hsizes, hstart⟩ := built.bounds hpos
  have hpairs := built.apart hpos
  have hvaddr : page ∣ layout.dataVaddrStart := by
    rw [built.vaddrStart]
    exact Nat.dvd_add hbase hstart
  have hvaddrStart := built.vaddrStart
  exact {
    apart := hpairs.imp And.left
    fileApart := hpairs.imp And.right
    keys := built.keys
    aligned := fun place hplace => built.aligned hpage hbase hplace
    complete := ⟨discarded, hdiscarded, fun entry hentry => built.complete hentry⟩
    found := fun place hplace start hmem k hk => built.found hpos hplace hmem hk
    within := fun place hplace => built.within hpos hplace
    textCongruent := by rw [built.samePage, Nat.mod_eq_zero_of_dvd hbase]
    dataCongruent := by rw [built.samePage, Nat.mod_eq_zero_of_dvd hstart, Nat.mod_eq_zero_of_dvd hvaddr]
    filePages := fun x y hx hy => built.samePage ▸ div_ne_of_page hpos hstart (by omega) hy
    pages := fun x y hx hy => built.samePage ▸ div_ne_of_page hpos hvaddr (by omega) hy }

end Built

end Soundness

/-! ## No sum overflows -/

section Panics

variable {files : List Elf} {page : ℕ} {reserve : Reserve} {discarded : List (ℕ × ℕ)} {wanted : Placement}
  {locate : ℕ → Except Failure (ℕ × Option ℕ)} {cursor stop : ℕ} {placed later : Places} {m : String}

theorem unsupported_ne_panic {α : Type} {message : String} :
    (unsupported message : Except Failure α) ≠ .error (.panic m) := by
  unfold unsupported
  nofun

theorem parseError_ne_panic {α : Type} {message : String} :
    (parseError message : Except Failure α) ≠ .error (.panic m) := by
  unfold parseError
  nofun

theorem checkSections_ne_panic (entries : List (ℕ × Section)) :
    (entries.forM fun (fileIndex, sect) => checkSection fileIndex sect) ≠ .error (.panic m) := by
  induction entries with
  | nil => nofun
  | cons entry entries ih =>
    change (checkSection entry.1 entry.2 >>= fun _ => entries.forM _) ≠ _
    apply Results.bind_ne_error
    · unfold checkSection
      split_ifs
      · exact unsupported_ne_panic
      · split
        · nofun
        · dsimp only
          split_ifs
          · exact unsupported_ne_panic
          · nofun
    · intro _ _
      exact ih

theorem discardedGroups_ne_panic : discardedGroups files ≠ .error (.panic m) := by
  unfold discardedGroups
  intro h
  cases hfold : (files.zipIdx.flatMap fun (file, fileIndex) => file.comdats.map (fileIndex, ·)).foldlM
      discardGroup ([], []) with
  | ok state =>
    rw [hfold] at h
    cases h
  | error e =>
    rw [hfold] at h
    cases h
    apply Results.foldlM_ne_error (e := Failure.panic m) (f := discardGroup) ?_ ([], []) hfold
    intro group _ state
    unfold discardGroup
    split
    · exact parseError_ne_panic
    · split_ifs <;> nofun

theorem placeSection_le {bound : ℕ} {state next : ℕ × Places} (hle : state.1 ≤ max bound imageLimit)
    (h : placeSection page discarded wanted locate state entry = .ok next) : next.1 ≤ max bound imageLimit := by
  obtain ⟨cursor, placed⟩ := state
  obtain ⟨stop, later⟩ := next
  rcases placeSection_ok h with hskip | hput
  · rw [hskip.2.1]
    exact hle
  · obtain ⟨-, spot, -, -, -, -, hlimit, -⟩ := hput
    exact hlimit.trans (Nat.le_max_right _ _)

/-- The cursor never passes the limit, unless it began past it. -/
theorem place_le (h : place page discarded wanted files locate (cursor, placed) = .ok (stop, later)) :
    stop ≤ max cursor imageLimit :=
  Results.foldlM_invariant (I := fun state : ℕ × Places => state.1 ≤ max cursor imageLimit)
    (fun _ _ _ _ hle hstep => placeSection_le hle hstep) h (Nat.le_max_left _ _)

theorem place_ne_panic (hcursor : max cursor imageLimit + page < 2 ^ 64)
    (hlocate : ∀ start < max cursor imageLimit + page, locate start ≠ .error (.panic m)) :
    place page discarded wanted files locate (cursor, placed) ≠ .error (.panic m) := by
  apply Results.foldlM_ne_error_of_invariant (I := fun state : ℕ × Places => state.1 ≤ max cursor imageLimit)
  · intro entry _ state next hle hstep
    exact placeSection_le hle hstep
  · intro entry _ state hle
    unfold placeSection
    by_cases hbelongs : belongs discarded wanted entry = true
    · rw [if_pos hbelongs]
      dsimp only
      by_cases hpower : isPowerOfTwo (alignment entry.2) = true
      · rw [if_neg (by simp [hpower])]
        by_cases hpage : page < alignment entry.2
        · rw [if_pos hpage]
          exact unsupported_ne_panic
        · rw [if_neg hpage]
          have hpos : 0 < alignment entry.2 := Nat.lt_of_lt_of_le Nat.zero_lt_one (Nat.le_max_right _ _)
          apply Results.bind_ne_error
          · unfold sizeOf
            split_ifs
            · nofun
            · split
              · exact parseError_ne_panic
              · nofun
          · intro size _
            apply Results.bind_ne_error (alignUp_ne_panic (by omega))
            intro start hstart
            obtain ⟨-, rfl⟩ := (alignUp_ok hpower).mp hstart
            have hlt : roundUp state.1 (alignment entry.2) < state.1 + alignment entry.2 := roundUp_lt hpos
            apply Results.bind_ne_error (hlocate _ (by omega))
            intro place _
            split_ifs
            · nofun
            · exact unsupported_ne_panic
      · rw [if_pos (by simpa using hpower)]
        exact parseError_ne_panic
    · rw [if_neg hbelongs]
      nofun
  · exact Nat.le_max_left _ _

theorem reserveArea_ne_panic {size align : ℕ} (hpower : isPowerOfTwo align = true)
    (hfits : cursor + align + size < 2 ^ 64) : reserveArea cursor size align ≠ .error (.panic m) := by
  have hpos : 0 < align := by
    obtain ⟨k, -, rfl⟩ := exists_pow_of_isPowerOfTwo hpower
    exact Nat.two_pow_pos k
  unfold reserveArea
  split_ifs
  · apply Results.bind_ne_error (alignUp_ne_panic (by omega))
    intro start hstart
    obtain ⟨-, rfl⟩ := (alignUp_ok hpower).mp hstart
    have hlt : roundUp cursor align < cursor + align := roundUp_lt hpos
    apply Results.bind_ne_error (addWord_ne_panic (by omega))
    intro _ _
    nofun
  · nofun

/-- However the sections are sized, no sum of the layout passes 64 bits. -/
theorem new_ne_panic (hpage : isPowerOfTwo page = true) (hsmall : page ≤ 2 ^ 16) :
    new files page reserve ≠ .error (.panic m) := by
  have hreserve := reserve.inMemory
  have hbase : base = 0x400000 := rfl
  have hlimit : imageLimit = 2 ^ 32 := rfl
  have hpos : 0 < page := by
    obtain ⟨k, -, rfl⟩ := exists_pow_of_isPowerOfTwo hpage
    exact Nat.two_pow_pos k
  apply Results.bind_ne_error (checkSections_ne_panic _)
  intro _ _
  apply Results.bind_ne_error discardedGroups_ne_panic
  intro discarded _
  apply Results.bind_ne_error
  · apply place_ne_panic (by omega)
    intro start hstart
    apply Results.bind_ne_error (addWord_ne_panic (by omega))
    nofun
  intro text htext
  have hle := place_le htext
  apply Results.bind_ne_error (reserveArea_ne_panic (by decide) (by omega))
  intro stubs hstubs
  obtain ⟨-, hstubs⟩ := reserveArea_ok (by decide) hstubs
  apply Results.bind_ne_error (reserveArea_ne_panic (by decide) (by omega))
  intro interfaceStubs hinterfaceStubs
  obtain ⟨-, hinterfaceStubs⟩ := reserveArea_ok (by decide) hinterfaceStubs
  apply Results.bind_ne_error (reserveArea_ne_panic (by decide) (by omega))
  intro interfaceTables hinterfaceTables
  obtain ⟨-, hinterfaceTables⟩ := reserveArea_ok (by decide) hinterfaceTables
  apply Results.bind_ne_error
  · apply place_ne_panic (by omega)
    intro start hstart
    apply Results.bind_ne_error (addWord_ne_panic (by omega))
    nofun
  intro readOnly hreadOnly
  have hend := place_le hreadOnly
  apply Results.bind_ne_error (alignUp_ne_panic (by omega))
  intro fileStart hfileStart
  obtain ⟨-, rfl⟩ := (alignUp_ok hpage).mp hfileStart
  have hround : roundUp readOnly.1 page < readOnly.1 + page := roundUp_lt hpos
  apply Results.bind_ne_error (addWord_ne_panic (by omega))
  intro vaddrStart hvaddrStart
  obtain ⟨-, rfl⟩ := addWord_ok.mp hvaddrStart
  apply Results.bind_ne_error
  · apply place_ne_panic (by omega)
    intro start hstart
    apply Results.bind_ne_error (addWord_ne_panic (by omega))
    intro _ _
    apply Results.bind_ne_error (addWord_ne_panic (by omega))
    nofun
  intro data hdata
  have hdataEnd := place_le hdata
  apply Results.bind_ne_error
  · apply place_ne_panic (by omega)
    intro start hstart
    apply Results.bind_ne_error (addWord_ne_panic (by omega))
    nofun
  intro bss hbss
  have hbssEnd := place_le hbss
  apply Results.bind_ne_error (addWord_ne_panic (by omega))
  intro span _
  split_ifs
  · exact unsupported_ne_panic
  · nofun

end Panics

end Krusty.Native.Linker.Addresses.Layout
