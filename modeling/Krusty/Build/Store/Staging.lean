import Krusty.Build.Store.Effects
import Krusty.Lib.Results

/-! What a lookup in the store answers. -/
namespace Krusty.Build.Store

open Files Interference Strings

variable (sha : List UInt8 → Digest)

/-- An artifact is what a record says, read below an entry's directory. -/
structure Recorded (s : Root) (dir : Name) (record : FileRecord) (artifact : Artifact) : Prop where
  path : artifact.path = record.path
  found : ∃ relative, safeRelativePath record.path = some relative ∧
    s.read dir (filesName :: relative) = .ok artifact.bytes
  length : artifact.bytes.length = record.length.toNat
  content : sha artifact.bytes = record.content

variable {sha}

theorem readRecords_unchanged (sha : List UInt8 → Digest) (s : Root) (dir : Name) (records : List FileRecord) :
    ((readRecords sha dir records).run Root.exec s).2 = s := by
  induction records with
  | nil => rfl
  | cons record records ih =>
    rw [readRecords]
    split
    · rfl
    · rw [Program.run_bind, run_read]
      split
      · rfl
      · rfl
      · split
        · rw [Program.run_bind]
          split
          · exact ih
          · exact ih
        · rfl

theorem readRecords_ok {s : Root} {dir : Name} {records : List FileRecord} {artifacts : List Artifact} :
    ((readRecords sha dir records).run Root.exec s).1 = .ok (.ok artifacts) ↔
      List.Forall₂ (Recorded sha s dir) records artifacts := by
  induction records generalizing artifacts with
  | nil =>
    rw [List.forall₂_nil_left_iff]
    constructor
    · intro h
      exact (Except.ok.inj (Except.ok.inj h)).symm
    · rintro rfl
      rfl
  | cons record records ih =>
    rw [List.forall₂_cons_left_iff, readRecords]
    constructor
    · intro h
      split at h
      · cases h
      · next relative hrel =>
        rw [Program.run_bind, run_read] at h
        split at h
        · cases h
        · cases h
        · next bytes hread =>
          split at h
          · next hb =>
            rw [Program.run_bind] at h
            split at h
            · next rest hrest =>
              obtain rfl := Except.ok.inj (Except.ok.inj h)
              exact ⟨_, rest, ⟨rfl, ⟨relative, hrel, hread⟩, hb.1, hb.2⟩, ih.mp hrest, rfl⟩
            · next stopped hstopped =>
              rw [Program.run_pure] at h
              exact absurd h (hstopped _)
          · cases h
    · rintro ⟨artifact, rest, ⟨hp, ⟨relative, hrel, hread⟩, hl, hc⟩, hrest, rfl⟩
      simp only [hrel, Program.run_bind, run_read, hread]
      rw [dif_pos ⟨hl, hc⟩, Program.run_bind, ih.mpr hrest]
      obtain ⟨path, bytes, fits⟩ := artifact
      obtain rfl : path = record.path := hp
      rfl

theorem get_unchanged (s : Root) (key : CacheKey) : ((get sha key).run Root.exec s).2 = s := by
  simp only [get, Program.run_bind, run_isDir]
  split
  · simp only [Program.run_bind, run_read]
    split
    · rfl
    · rfl
    · split
      · rfl
      · split
        · rfl
        · rfl
        · rw [Program.run_bind]
          have h := readRecords_unchanged sha s (.entry key)
          split <;> exact h _
  · rfl

/-- The manifest of an entry, when its text is one. -/
def Manifested (sha : List UInt8 → Digest) (s : Root) (name : Name) (m : Manifest) : Prop :=
  ∃ bytes text, s.read name [manifestName] = .ok bytes ∧ fromUtf8 bytes = some text ∧
    Manifest.parse sha text = .ok m

/-- A hit: every artifact is what the manifest records. -/
theorem get_hit {s : Root} {key : CacheKey} {m : CachedModule} :
    ((get sha key).run Root.exec s).1 = .ok (.ok m) ↔
      s.isDirectory (.entry key) = true ∧ ∃ manifest, Manifested sha s (.entry key) manifest ∧
        List.Forall₂ (Recorded sha s (.entry key)) manifest.files m.artifacts ∧ m.abi = manifest.abi := by
  constructor
  · intro h
    simp only [get, Program.run_bind, run_isDir] at h
    split at h
    · next hd =>
      simp only [Program.run_bind, run_read] at h
      split at h
      · cases h
      · cases h
      · next bytes hread =>
        split at h
        · cases h
        · next text htext =>
          split at h
          · cases h
          · cases h
          · next parsed hparsed =>
            rw [Program.run_bind] at h
            split at h
            · cases h
            · cases h
            · next artifacts hartifacts =>
              obtain rfl := Except.ok.inj (Except.ok.inj h)
              exact ⟨hd, parsed, ⟨bytes, text, hread, htext, hparsed⟩, readRecords_ok.mp hartifacts, rfl⟩
    · cases h
  · rintro ⟨hd, parsed, ⟨bytes, text, hread, htext, hparsed⟩, hartifacts, habi⟩
    have hrecords := readRecords_ok.mpr hartifacts
    simp only [get, Program.run_bind, run_isDir, hd, if_true, run_read, hread, htext, hparsed, hrecords]
    obtain ⟨artifacts, abi⟩ := m
    obtain rfl : abi = parsed.abi := habi
    rfl

end Krusty.Build.Store

/-! The tree that `put` stages for an entry, and what is read below it. -/
namespace Krusty.Build.Store

open Files Interference Strings

def recordOf (sha : List UInt8 → Digest) (a : Artifact) : FileRecord where
  path := a.path
  length := UInt64.ofNat a.bytes.length
  content := sha a.bytes

def manifestOf (sha : List UInt8 → Digest) (entry : CachedModule) : Manifest where
  abi := entry.abi
  files := entry.artifacts.map (recordOf sha)

/-- A call's error, as the fault it ends with. -/
def orFault {α : Type} : Except IoError α → Except Fault α
  | .error e => .error (.io e)
  | .ok a => .ok a

/-- One artifact put in its place below a tree. -/
def place (tree : Tree Text (List UInt8)) (a : Artifact) : Except Fault (Tree Text (List UInt8)) :=
  match safeRelativePath a.path with
  | none => .error (.io .invalidInput)
  | some relative => do
    let tree ← orFault (tree.createAll (filesName :: relative.dropLast))
    orFault (tree.write a.bytes (filesName :: relative))

/-- The artifacts in their places, a later one of the same place over an earlier. -/
def placeAll (tree : Tree Text (List UInt8)) (artifacts : List Artifact) :
    Except Fault (Tree Text (List UInt8)) :=
  artifacts.foldlM place tree

def stageTree (sha : List UInt8 → Digest) (entry : CachedModule) : Except Fault (Tree Text (List UInt8)) := do
  let tree ← orFault ((Tree.directory []).createAll [filesName])
  if capacityOverflows entry.artifacts.length then throw .panic
  let tree ← placeAll tree entry.artifacts
  orFault (tree.write (toUtf8 ((manifestOf sha entry).render sha)) [manifestName])

variable {sha : List UInt8 → Digest}

theorem filesName_ne : filesName ≠ manifestName := by decide

theorem safeRelativePath_oneLine {path : Text} {relative : List Text} (h : safeRelativePath path = some relative) :
    Manifest.OneLine path := by
  rw [safeRelativePath] at h
  split at h
  · cases h
  · next hc =>
    constructor
    · exact fun hn => hc (List.any_eq_true.mpr ⟨_, hn, by decide⟩)
    · exact fun hr => hc (List.any_eq_true.mpr ⟨_, hr, by decide⟩)

theorem orFault_ok {α : Type} {x : Except IoError α} {a : α} (h : orFault x = .ok a) : x = .ok a := by
  cases x with
  | error e => cases h
  | ok b => exact congrArg Except.ok (Except.ok.inj h)

theorem place_ok {tree tree' : Tree Text (List UInt8)} {a : Artifact} (h : place tree a = .ok tree') :
    ∃ relative made, safeRelativePath a.path = some relative ∧
      tree.createAll (filesName :: relative.dropLast) = .ok made ∧
      made.write a.bytes (filesName :: relative) = .ok tree' := by
  rw [place] at h
  split at h
  · cases h
  · next relative hrel =>
    obtain ⟨made, hmade, h⟩ := Results.bind_ok h
    exact ⟨relative, made, hrel, orFault_ok hmade, orFault_ok h⟩

/-- Where an artifact belongs, there is in the end it or one of the same place. -/
theorem placeAll_placed {tree tree' : Tree Text (List UInt8)} {artifacts : List Artifact}
    (h : placeAll tree artifacts = .ok tree') :
    (∀ a ∈ artifacts, ∃ relative, safeRelativePath a.path = some relative ∧
      ∃ b ∈ artifacts, safeRelativePath b.path = some relative ∧
        tree'.read (filesName :: relative) = .ok b.bytes) ∧
    ∀ path content, (∀ a ∈ artifacts, ∀ relative, safeRelativePath a.path = some relative →
      path ≠ filesName :: relative) → tree.read path = .ok content → tree'.read path = .ok content := by
  induction artifacts generalizing tree with
  | nil =>
    obtain rfl := Except.ok.inj h
    exact ⟨nofun, fun _ _ _ h => h⟩
  | cons a artifacts ih =>
    rw [placeAll, List.foldlM_cons] at h
    obtain ⟨next, hplace, h⟩ := Results.bind_ok h
    obtain ⟨relative, made, hrel, hmade, hwrite⟩ := place_ok hplace
    obtain ⟨hplaced, hkept⟩ := ih h
    constructor
    · intro b hb
      rcases List.mem_cons.mp hb with rfl | hb
      · refine ⟨relative, hrel, ?_⟩
        -- a later artifact of the same place wins
        by_cases hlater : ∃ b ∈ artifacts, safeRelativePath b.path = some relative
        · obtain ⟨b, hb, hbrel⟩ := hlater
          obtain ⟨relative', hrel', c, hc, hcrel, hread⟩ := hplaced b hb
          obtain rfl : relative = relative' := Option.some.inj (hbrel.symm.trans hrel')
          exact ⟨c, List.mem_cons_of_mem _ hc, hcrel, hread⟩
        · refine ⟨b, List.mem_cons_self .., hrel, hkept _ _ ?_ (Tree.read_write_self hwrite)⟩
          intro c hc relative' hcrel he
          obtain rfl : relative = relative' := (List.cons.inj he).2
          exact hlater ⟨c, hc, hcrel⟩
      · obtain ⟨relative', hrel', c, hc, hcrel, hread⟩ := hplaced b hb
        exact ⟨relative', hrel', c, List.mem_cons_of_mem _ hc, hcrel, hread⟩
    · intro path content hpath hread
      refine hkept path content (fun b hb => hpath b (List.mem_cons_of_mem _ hb)) ?_
      rw [Tree.read_write_of_ne hwrite (hpath a (List.mem_cons_self ..) relative hrel), Tree.read_createAll hmade]
      exact hread

/-- What a staged tree holds: the manifest of its entry, and each artifact or one of the same place. -/
structure Staged (sha : List UInt8 → Digest) (entry : CachedModule) (tree : Tree Text (List UInt8)) : Prop where
  manifest : tree.read [manifestName] = .ok (toUtf8 ((manifestOf sha entry).render sha))
  parsed : Manifest.parse sha ((manifestOf sha entry).render sha) = .ok (manifestOf sha entry)
  placed : ∀ a ∈ entry.artifacts, ∃ relative, safeRelativePath a.path = some relative ∧
    ∃ b ∈ entry.artifacts, safeRelativePath b.path = some relative ∧
      tree.read (filesName :: relative) = .ok b.bytes

/-- A manifest that `put` writes is parsed, the paths being those it accepted. -/
theorem parse_manifestOf (sha : List UInt8 → Digest) {entry : CachedModule}
    (hpaths : ∀ a ∈ entry.artifacts, (safeRelativePath a.path).isSome)
    (hc : ¬ capacityOverflows entry.artifacts.length) :
    Manifest.parse sha ((manifestOf sha entry).render sha) = .ok (manifestOf sha entry) := by
  refine Manifest.parse_render sha ?_ (by rwa [manifestOf, List.length_map])
  intro f hf
  obtain ⟨a, ha, rfl⟩ := List.mem_map.mp hf
  obtain ⟨relative, hrel⟩ := Option.isSome_iff_exists.mp (hpaths a ha)
  exact safeRelativePath_oneLine hrel

theorem stageTree_ok {entry : CachedModule} {tree : Tree Text (List UInt8)} (h : stageTree sha entry = .ok tree) :
    Staged sha entry tree := by
  obtain ⟨files, -, h⟩ := Results.bind_ok h
  by_cases hc : capacityOverflows entry.artifacts.length
  · rw [if_pos hc] at h
    cases h
  · rw [if_neg hc] at h
    obtain ⟨placed, hplaced, h⟩ := Results.bind_ok h
    have hw := orFault_ok h
    obtain ⟨hall, -⟩ := placeAll_placed hplaced
    refine ⟨Tree.read_write_self hw, parse_manifestOf sha ?_ hc, ?_⟩
    · intro a ha
      obtain ⟨relative, hrel, -⟩ := hall a ha
      exact Option.isSome_iff_exists.mpr ⟨relative, hrel⟩
    · intro a ha
      obtain ⟨relative, hrel, b, hb, hbrel, hread⟩ := hall a ha
      refine ⟨relative, hrel, b, hb, hbrel, ?_⟩
      rw [Tree.read_write_of_ne hw (fun he => filesName_ne (List.cons.inj he).1)]
      exact hread

end Krusty.Build.Store
