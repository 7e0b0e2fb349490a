import Krusty.Native.Linker.Numbering
import Krusty.Native.Linker.StubForms

/-! The interface tables in the image: what a lookup through a type's `itable` field reads. -/
namespace Krusty.Native.Linker

open LittleEndian

def load (fileOffset : UInt64 → Option ℕ) (image : List UInt8) (address : UInt64) : Option UInt64 := do
  let start ← fileOffset address
  if start + 8 ≤ image.length then some (.ofBitVec (word 64 image start)) else none

/-- Where the tables and the types are: the tables fill a range of the file that is also at `tablesAt`,
away from the types, and two types have the same `itable` field or fields that do not overlap. -/
structure Placed (tables : InterfaceTables) (offset : ℕ) (tablesAt : UInt64) (address : Target → UInt64)
    (fileOffset : UInt64 → Option ℕ) : Prop where
  region : ∀ k < tables.size, fileOffset (tablesAt + UInt64.ofNat k) = some (offset + k)
  nonzero : ∀ t ∈ tables.tables, tablesAt + UInt64.ofNat t.offset ≠ 0
  fields : ∀ t ∈ tables.tables, ∀ u ∈ tables.tables, ∀ a b, fileOffset (address t.ty + itableOffset) = some a →
    fileOffset (address u.ty + itableOffset) = some b → a = b ∨ a + 8 ≤ b ∨ b + 8 ≤ a
  outside : ∀ t ∈ tables.tables, ∀ a, fileOffset (address t.ty + itableOffset) = some a →
    a + 8 ≤ offset ∨ offset + tables.size ≤ a

section Write

variable {offset : ℕ} {tablesAt : UInt64} {address : Target → UInt64} {fileOffset : UInt64 → Option ℕ}
  {image image' : List UInt8}

theorem put64_ok {start : ℕ} {value : UInt64} (h : put64 image start value = .ok image') :
    start + 8 ≤ image.length ∧ image'.length = image.length ∧ word 64 image' start = value.toBitVec ∧
      ∀ pos, pos + 8 ≤ start ∨ start + 8 ≤ pos → word 64 image' pos = word 64 image pos := by
  unfold put64 at h
  split at h
  · next hle =>
    cases h
    have hlen : start + (leBytes 8 value.toNat).length ≤ image.length := by simpa using hle
    refine ⟨hle, write_length hlen, ?_, fun pos ha => ?_⟩
    · refine (word_write_self (n := 8) hle).trans ?_
      exact BitVec.ofNat_toNat ..
    · exact word_write_of_apart (n := 8) hlen (by simpa using ha)
  · cases h

theorem writeEntries_ok {start : ℕ} {entries : List (Option Target)}
    (h : writeEntries (fun t => .ok (address t)) image start entries = .ok image') :
    image'.length = image.length ∧
      (∀ pos, pos + 8 ≤ start ∨ start + entries.length * 8 ≤ pos → word 64 image' pos = word 64 image pos) ∧
      ∀ j function, (entries[j]?).join = some function →
        start + j * 8 + 8 ≤ image.length ∧ word 64 image' (start + j * 8) = (address function).toBitVec := by
  induction entries generalizing image start with
  | nil =>
    cases h
    exact ⟨rfl, fun _ _ => rfl, by simp⟩
  | cons entry entries ih =>
    rw [writeEntries] at h
    obtain ⟨value, hvalue, h⟩ := Results.bind_ok h
    obtain ⟨image₁, hput, h⟩ := Results.bind_ok h
    obtain ⟨hin, hlen₁, hself, hother⟩ := put64_ok hput
    obtain ⟨hlen, hframe, hentries⟩ := ih h
    refine ⟨hlen.trans hlen₁, fun pos ha => ?_, fun j function hj => ?_⟩
    · rw [List.length_cons] at ha
      rw [hframe pos (by omega), hother pos (by omega)]
    · cases j with
      | zero =>
        have hentry : entry = some function := by simpa using hj
        subst hentry
        have hval : value = address function := (Except.ok.inj hvalue).symm
        have hpos : start + 0 * 8 = start := by omega
        rw [hpos, hframe start (by omega), hself, hval]
        exact ⟨hin, rfl⟩
      | succ j =>
        have hpos : start + (j + 1) * 8 = start + 8 + j * 8 := by omega
        rw [hpos, ← hlen₁]
        exact hentries j function hj

theorem word_eq_zero {start : ℕ} (h : (image.drop start).take 8 = List.replicate 8 0) : word 64 image start = 0 := by
  have hw : word 64 image start = _ := (ofNat_leNat_take 8 image start).symm
  rw [hw, h]
  decide

/-- Writing one table: its entries and the field of its type, which was zero. -/
theorem writeTable_ok {t : Table}
    (h : writeTable offset tablesAt (fun t => .ok (address t)) fileOffset image t = .ok image') :
    ∃ start mid, fileOffset (address t.ty + itableOffset) = some start ∧
      writeEntries (fun t => .ok (address t)) image (offset + t.offset) t.entries = .ok mid ∧
      word 64 mid start = 0 ∧ put64 mid start (tablesAt + UInt64.ofNat t.offset) = .ok image' := by
  unfold writeTable at h
  obtain ⟨mid, hmid, h⟩ := Results.bind_ok h
  obtain ⟨ty, hty, h⟩ := Results.bind_ok h
  have hty : ty = address t.ty := (Except.ok.inj hty).symm
  subst hty
  split at h
  · cases h
  · next start hstart =>
    split at h
    · cases h
    · next hzero =>
      obtain ⟨hs, -⟩ := Option.filter_eq_some_iff.mp hstart
      exact ⟨start, mid, hs, hmid, word_eq_zero (not_not.mp hzero), h⟩

/-- The image holds a table: the field of its type points at it, and its entries are in it. -/
structure HoldsTable (offset : ℕ) (tablesAt : UInt64) (address : Target → UInt64) (fileOffset : UInt64 → Option ℕ)
    (t : Table) (image : List UInt8) : Prop where
  field : ∃ start, fileOffset (address t.ty + itableOffset) = some start ∧ start + 8 ≤ image.length ∧
    word 64 image start = (tablesAt + UInt64.ofNat t.offset).toBitVec
  entries : ∀ j function, t.entry j = some function → offset + t.offset + j * 8 + 8 ≤ image.length ∧
    word 64 image (offset + t.offset + j * 8) = (address function).toBitVec

theorem Table.lt_of_entry {t : Table} {j : ℕ} {function : Target} (h : t.entry j = some function) :
    j < t.entries.length := by
  by_contra hge
  unfold Table.entry at h
  rw [List.getElem?_eq_none (by omega)] at h
  cases h

variable {tables : InterfaceTables} {t u : Table}

theorem holdsTable_of_write (hp : Placed tables offset tablesAt address fileOffset) (ht : t ∈ tables.tables)
    (hin : t.offset + t.entries.length * 8 ≤ tables.size)
    (h : writeTable offset tablesAt (fun t => .ok (address t)) fileOffset image t = .ok image') :
    HoldsTable offset tablesAt address fileOffset t image' := by
  obtain ⟨start, mid, hstart, hmid, -, hput⟩ := writeTable_ok h
  obtain ⟨hlen, -, hentries⟩ := writeEntries_ok hmid
  obtain ⟨hle, hlen', hself, hother⟩ := put64_ok hput
  have hout := hp.outside t ht start hstart
  refine ⟨⟨start, hstart, by omega, hself⟩, fun j function hj => ?_⟩
  have hlt := Table.lt_of_entry hj
  obtain ⟨hin', hword⟩ := hentries j function hj
  exact ⟨by omega, (hother _ (by omega)).trans hword⟩

/-- Writing a later table leaves an earlier one in place. -/
theorem HoldsTable.write (hp : Placed tables offset tablesAt address fileOffset) (ht : t ∈ tables.tables)
    (hu : u ∈ tables.tables) (hin : u.offset + u.entries.length * 8 ≤ tables.size)
    (hapart : t.offset + t.entries.length * 8 ≤ u.offset) (hold : HoldsTable offset tablesAt address fileOffset t image)
    (h : writeTable offset tablesAt (fun t => .ok (address t)) fileOffset image u = .ok image') :
    HoldsTable offset tablesAt address fileOffset t image' := by
  obtain ⟨start, mid, hstart, hmid, hzero, hput⟩ := writeTable_ok h
  obtain ⟨hlen, hframe, -⟩ := writeEntries_ok hmid
  obtain ⟨hle, hlen', -, hother⟩ := put64_ok hput
  obtain ⟨⟨a, ha, hale, hword⟩, hentries⟩ := hold
  have houta := hp.outside t ht a ha
  have houtu := hp.outside u hu start hstart
  have hmida : word 64 mid a = (tablesAt + UInt64.ofNat t.offset).toBitVec := (hframe a (by omega)).trans hword
  have hne : a ≠ start := by
    rintro rfl
    rw [hzero] at hmida
    exact hp.nonzero t ht (UInt64.toBitVec_inj.mp hmida.symm)
  have hfields := hp.fields t ht u hu a start ha hstart
  refine ⟨⟨a, ha, by omega, (hother a (by omega)).trans hmida⟩, fun j function hj => ?_⟩
  have hlt := Table.lt_of_entry hj
  obtain ⟨hjle, hjword⟩ := hentries j function hj
  refine ⟨by omega, ?_⟩
  rw [hother _ (by omega), hframe _ (by omega), hjword]

/-- After a write that succeeds, the image holds every table. -/
theorem holdsTable_of_mem (hp : Placed tables offset tablesAt address fileOffset)
    (hin : ∀ t ∈ tables.tables, t.offset + t.entries.length * 8 ≤ tables.size)
    (hapart : tables.tables.Pairwise fun t u => t.offset + t.entries.length * 8 ≤ u.offset)
    (h : tables.write offset tablesAt (fun t => .ok (address t)) fileOffset image = .ok image')
    (ht : t ∈ tables.tables) : HoldsTable offset tablesAt address fileOffset t image' := by
  obtain ⟨before, after, heq⟩ := List.append_of_mem ht
  unfold InterfaceTables.write at h
  rw [heq] at h hapart
  obtain ⟨image₁, image₂, -, hwrite, hafter⟩ := Results.foldlM_split h
  have hapart := (List.pairwise_cons.mp (List.pairwise_append.mp hapart).2.1).1
  have hfirst := holdsTable_of_write hp ht (hin t ht) hwrite
  refine Results.foldlM_invariant (fun u hu s s' hs hstep => ?_) hafter hfirst
  have hmem : u ∈ tables.tables := by simp [heq, hu]
  exact hs.write hp ht hmem (hin u hmem) (hapart u hu) hstep

/-- The lookup through the type's `itable` field at an index reads the function of the table's entry. -/
theorem load_entry (hp : Placed tables offset tablesAt address fileOffset)
    (hin : t.offset + t.entries.length * 8 ≤ tables.size)
    (hold : HoldsTable offset tablesAt address fileOffset t image) {j : ℕ} {function : Target}
    (hj : t.entry j = some function) :
    (do
      let itable ← load fileOffset image (address t.ty + itableOffset)
      load fileOffset image (itable + UInt64.ofNat (j * 8))) = some (address function) := by
  obtain ⟨⟨start, hstart, hle, hword⟩, hentries⟩ := hold
  have hlt := Table.lt_of_entry hj
  obtain ⟨hjle, hjword⟩ := hentries j function hj
  have hfield : load fileOffset image (address t.ty + itableOffset) = some (tablesAt + UInt64.ofNat t.offset) := by
    simp only [load, hstart, Option.bind_eq_bind, Option.bind_some, if_pos hle, hword]
  have hadd : tablesAt + UInt64.ofNat t.offset + UInt64.ofNat (j * 8) = tablesAt + UInt64.ofNat (t.offset + j * 8) := by
    rw [UInt64.ofNat_add, UInt64.add_assoc]
  have hregion := hp.region (t.offset + j * 8) (by omega)
  have hpos : offset + (t.offset + j * 8) = offset + t.offset + j * 8 := by omega
  rw [hpos] at hregion
  have hentry : load fileOffset image (tablesAt + UInt64.ofNat t.offset + UInt64.ofNat (j * 8)) = some (address function) := by
    simp only [load, hadd, hregion, Option.bind_eq_bind, Option.bind_some, if_pos hjle, hjword]
  rw [hfield]
  exact hentry

end Write

end Krusty.Native.Linker

/-! Interface calls reach the recorded implementation. -/
namespace Krusty.Native.Linker

section Assign

theorem assignIndices_shape (stubs : List Stub) (indices : List ℕ) :
    (assignIndices stubs indices).map (fun s => (s.name, s.records)) = stubs.map fun s => (s.name, s.records) := by
  induction stubs generalizing indices with
  | nil => rfl
  | cons stub stubs ih =>
    unfold assignIndices
    split
    · split
      · rfl
      · exact congrArg (_ :: ·) (ih _)
    · exact congrArg (_ :: ·) (ih _)

/-- The members that are numbered, in the order of their stubs. -/
def numberedMembers (stubs : List Stub) : List (List (Target × Target)) := (stubs.map (·.records)).filter mayReadATable

variable {stubs : List Stub}

theorem numberedMembers_pos {stub : Stub} (h : mayReadATable stub.records = true) :
    numberedMembers (stub :: stubs) = stub.records :: numberedMembers stubs := by
  rw [numberedMembers, List.map_cons, List.filter_cons_of_pos h]
  rfl

theorem numberedMembers_neg {stub : Stub} (h : ¬mayReadATable stub.records = true) :
    numberedMembers (stub :: stubs) = numberedMembers stubs := by
  rw [numberedMembers, List.map_cons, List.filter_cons_of_neg h]
  rfl

/-- With an index for each of them, every stub that may read a table has one, and no other has. -/
theorem assignIndices_index {indices : List ℕ} (hn : ∀ s ∈ stubs, s.index = none)
    (hlen : indices.length = (numberedMembers stubs).length) :
    ∀ s ∈ assignIndices stubs indices, (mayReadATable s.records = true → s.index ≠ none) ∧
      ∀ i, s.index = some i → (s.records, i) ∈ (numberedMembers stubs).zip indices := by
  induction stubs generalizing indices with
  | nil => simp [assignIndices]
  | cons stub stubs ih =>
    have hn' := fun s hs => hn s (List.mem_cons_of_mem _ hs)
    unfold assignIndices
    split
    · next hmay =>
      rw [numberedMembers_pos hmay] at hlen ⊢
      cases indices with
      | nil => simp at hlen
      | cons index indices =>
        dsimp only
        have ih := ih hn' (by simpa using hlen)
        rw [List.forall_mem_cons]
        refine ⟨⟨by simp, by simp⟩, fun s hs => ⟨(ih s hs).1, fun i hi => ?_⟩⟩
        exact List.mem_cons_of_mem _ ((ih s hs).2 i hi)
    · next hmay =>
      rw [numberedMembers_neg hmay] at hlen ⊢
      have ih := ih hn' hlen
      rw [List.forall_mem_cons]
      refine ⟨⟨fun h => absurd h hmay, fun i hi => ?_⟩, ih⟩
      rw [hn stub (List.mem_cons_self ..)] at hi
      cases hi

theorem assignIndices_pairwise {R : List (Target × Target) × ℕ → List (Target × Target) × ℕ → Prop}
    {indices : List ℕ} (hn : ∀ s ∈ stubs, s.index = none)
    (hlen : indices.length = (numberedMembers stubs).length)
    (h : ((numberedMembers stubs).zip indices).Pairwise R) :
    (assignIndices stubs indices).Pairwise fun s q =>
      ∀ i j, s.index = some i → q.index = some j → R (s.records, i) (q.records, j) := by
  induction stubs generalizing indices with
  | nil => exact .nil
  | cons stub stubs ih =>
    have hn' := fun s hs => hn s (List.mem_cons_of_mem _ hs)
    unfold assignIndices
    split
    · next hmay =>
      rw [numberedMembers_pos hmay] at hlen h
      cases indices with
      | nil => simp at hlen
      | cons index indices =>
        have hlen' : indices.length = (numberedMembers stubs).length := by simpa using hlen
        rw [List.zip_cons_cons, List.pairwise_cons] at h
        refine List.pairwise_cons.mpr ⟨fun q hq i j hi hj => ?_, ih hn' hlen' h.2⟩
        cases hi
        exact h.1 _ ((assignIndices_index hn' hlen' q hq).2 j hj)
    · next hmay =>
      rw [numberedMembers_neg hmay] at hlen h
      refine List.pairwise_cons.mpr ⟨fun q hq i j hi hj => ?_, ih hn' hlen h⟩
      rw [hn stub (List.mem_cons_self ..)] at hi
      cases hi

end Assign

section Decide

variable (address : Target → UInt64)

theorem decide_stub (s : Stub) :
    s.decide (fun t => .ok (address t)) = .ok { s with kind := some (choose (located address s.records)) } := by
  have hm : s.records.mapM (resolve fun t => .ok (address t)) = .ok (located address s.records) := by
    rw [Results.mapM_ok, located, List.forall₂_map_right_iff]
    exact List.forall₂_same.mpr fun _ _ => rfl
  rw [Stub.decide, hm]
  rfl

/-- A stub with its form. -/
def Stub.decided (s : Stub) : Stub := { s with kind := some (choose (located address s.records)) }

/-- Every assignment of addresses decides every stub. -/
theorem decide_stubs (stubs : InterfaceStubs) (stubsAt : UInt64) :
    stubs.decide (fun t => .ok (address t)) stubsAt =
      .ok ({ stubs with stubs := stubs.stubs.map (Stub.decided address) },
        (stubs.stubs.map (Stub.decided address)).map fun s => (s.name, s.symbol stubsAt)) := by
  have hm : stubs.stubs.mapM (Stub.decide fun t => .ok (address t)) =
      .ok (stubs.stubs.map (Stub.decided address)) := by
    rw [Results.mapM_ok, List.forall₂_map_right_iff]
    exact List.forall₂_same.mpr fun s _ => decide_stub address s
  rw [InterfaceStubs.decide, hm]
  rfl

end Decide

/-- What the stubs know before any address: a stub for every name called, an index wherever a table may
be read, at which the tables hold the stub's records, and tables that lie apart. -/
structure Collected (called : List String) (records : String → List (Target × Target)) (stubs : InterfaceStubs) :
    Prop where
  called : ∀ name ∈ called, ∃ s ∈ stubs.stubs, s.name = name ∧ s.records = records name
  numbered : ∀ s ∈ stubs.stubs, mayReadATable s.records = true → s.index ≠ none
  entries : ∀ s ∈ stubs.stubs, ∀ i, s.index = some i → ∀ r ∈ s.records,
    entryOf stubs.tables.tables r.1 i = some r.2
  indices : stubs.stubs.Pairwise fun s q => ∀ i j, s.index = some i → q.index = some j →
    ∀ r ∈ s.records, ∀ r' ∈ q.records, r.1 = r'.1 → i ≠ j
  types : (stubs.tables.tables.map (·.ty)).Nodup
  inside : ∀ t ∈ stubs.tables.tables, t.offset + t.entries.length * 8 ≤ stubs.tables.size
  apart : stubs.tables.tables.Pairwise fun t u => t.offset + t.entries.length * 8 ≤ u.offset

theorem collect_spec (arch : Arch) {called : List String} {records : String → List (Target × Target)}
    (hone : ∀ name ∈ called, OneFunction (records name)) :
    ∃ stubs, InterfaceStubs.collect arch called [] records = .ok stubs ∧ Collected called records stubs := by
  let room := alignUp (max (codeSize arch (.compare 0 0 0)) (codeSize arch .table)) stubAlign
  let stubs : List Stub := (called.dedup.mergeSort).zipIdx.map fun placed =>
    { name := placed.1, records := records placed.1, index := none, offset := placed.2 * room, kind := none }
  have hshape : stubs.map (fun s => (s.name, s.records)) = (called.dedup.mergeSort).map fun name => (name, records name) := by
    have hz : ∀ names : List String, names.zipIdx.map (fun p => (p.1, records p.1)) =
        names.map fun name => (name, records name) := by
      intro names
      conv_rhs => rw [← List.zipIdx_map_fst 0 names, List.map_map]
      rfl
    rw [List.map_map, ← hz]
    rfl
  have hnone : ∀ s ∈ stubs, s.index = none := by
    intro s hs
    obtain ⟨⟨name, index⟩, -, rfl⟩ := List.mem_map.mp hs
    rfl
  have hmembers : ∀ m ∈ numberedMembers stubs, OneFunction m := by
    intro m hm
    obtain ⟨s, hs, rfl⟩ := List.mem_map.mp (List.mem_of_mem_filter hm)
    have hmem : (s.name, s.records) ∈ stubs.map fun s => (s.name, s.records) := List.mem_map.mpr ⟨s, hs, rfl⟩
    rw [hshape] at hmem
    obtain ⟨name, hname, heq⟩ := List.mem_map.mp hmem
    rw [← (Prod.mk.inj heq).2]
    exact hone name (by simpa using hname)
  obtain ⟨tables, indices, hnumber, hlen, hentries, hpair, htypes, hin, hapart⟩ := number_spec hmembers
  refine ⟨⟨assignIndices stubs indices, stubs.length * room, tables⟩, ?_, ?_, ?_, ?_, ?_, htypes, hin, hapart⟩
  · change (InterfaceTables.number (numberedMembers stubs) >>= _) = _
    rw [hnumber]
    rfl
  · intro name hname
    have hmem : (name, records name) ∈ (assignIndices stubs indices).map fun s => (s.name, s.records) := by
      rw [assignIndices_shape, hshape]
      exact List.mem_map.mpr ⟨name, by simpa using hname, rfl⟩
    obtain ⟨s, hs, heq⟩ := List.mem_map.mp hmem
    exact ⟨s, hs, Prod.mk.inj heq⟩
  · exact fun s hs => (assignIndices_index hnone hlen s hs).1
  · intro s hs i hi r hr
    exact hentries _ ((assignIndices_index hnone hlen s hs).2 i hi) r hr
  · exact assignIndices_pairwise hnone hlen hpair

/-- The panic of a table lookup without an index. -/
def missingIndex : Failure := .panic "a table lookup is decided only for a numbered member"

theorem write_ne_missingIndex {stubs : InterfaceStubs} (h : ∀ s ∈ stubs.stubs, s.kind = some .table → s.index ≠ none)
    (image : List UInt8) (offset : ℕ) (stubsAt : UInt64) (arch : Arch) :
    stubs.write image offset stubsAt arch ≠ .error missingIndex := by
  apply Results.foldlM_ne_error
  intro s hs image
  apply Results.bind_ne_error
  · unfold Stub.code missingIndex
    dsimp only
    split
    · simp
    · simp
    · split <;> simp
    · next hk =>
      split
      · next hi => exact absurd hi (h s hs hk)
      · split <;> simp
  · intro code _
    split
    · intro hpure
      cases hpure
    · dsimp only
      split
      · intro hpure
        cases hpure
      · simp [missingIndex]

end Krusty.Native.Linker
