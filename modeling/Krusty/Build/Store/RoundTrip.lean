import Krusty.Build.Store.Staging

/-! What `put` writes is what `get` reads, exactly when artifacts in one place have one content. -/
namespace Krusty.Build.Store

open Files Interference Strings

variable {sha : List UInt8 → Digest}

/-- Two roots that differ in one name at most. -/
def SameBut (name : Name) (s s' : Root) : Prop := ∀ m ≠ name, s'.tree? m = s.tree? m

variable {name : Name}

theorem SameBut.trans {s s' s'' : Root} (h : SameBut name s s') (h' : SameBut name s' s'') :
    SameBut name s s'' := fun m hm => (h' m hm).trans (h m hm)

/-- Other names keep their trees, or directories among them lose what they have. -/
def Fades (name : Name) (s s' : Root) : Prop :=
  ∀ m ≠ name, s'.tree? m = s.tree? m ∨ s.isDirectory m = true ∧ s'.tree? m = some (.directory [])

variable {s s' : Root}

theorem SameBut.fades (h : SameBut name s s') : Fades name s s' :=
  fun m hm => .inl (h m hm)

theorem Fades.trans {s s' s'' : Root} (h : Fades name s s') (h' : Fades name s' s'') : Fades name s s'' := by
  intro m hm
  rcases h m hm with h | ⟨hd, h⟩ <;> rcases h' m hm with h' | ⟨hd', h'⟩
  · exact .inl (h'.trans h)
  · exact .inr ⟨Root.isDirectory_eq h ▸ hd', h'⟩
  · exact .inr ⟨hd, h'.trans h⟩
  · exact .inr ⟨hd, h'⟩

/-- Removing a tree empties other directories at most: those that are the same directory. -/
theorem removeDirAll_fades (s : Root) (name : Name) : Fades name s ((removeDirAll name).run Root.exec s).2 := by
  rw [removeDirAll, Program.run_bind, run_openDirectory]
  cases s.openDirectory name with
  | error e => exact fun m _ => .inl rfl
  | ok inode =>
    simp only [Program.run_bind, run_removeBelow, run_removeDirectory]
    have hbelow : Fades name s (s.removeBelow inode) := fun m _ => Root.tree?_removeBelow inode m
    refine hbelow.trans ?_
    cases hr : (s.removeBelow inode).removeDirectory name with
    | error e => exact fun m _ => .inl rfl
    | ok s' => exact fun m hm => .inl (by rw [Root.change, (Root.removeDirectory_ok hr).2, if_neg hm])

variable {s : Root}

theorem createAll_run (path : List Text) {old : Tree Text (List UInt8)}
    (h : (s.tree? name).getD (.directory []) = old) :
    (∃ e, old.createAll path = .error e ∧ s.createAll name path = .error e) ∨
      ∃ tree s', old.createAll path = .ok tree ∧ s.createAll name path = .ok s' ∧
        s'.tree? name = some tree ∧ SameBut name s s' := by
  cases hc : s.createAll name path with
  | ok s' =>
    obtain ⟨tree, ht, hall⟩ := Root.createAll_ok hc
    exact .inr ⟨tree, s', h ▸ ht, rfl, by rw [hall, if_pos rfl], fun m hm => by rw [hall, if_neg hm]⟩
  | error e =>
    refine .inl ⟨e, ?_, rfl⟩
    have hnode : ((s.entries.lookup name).getD { inode := s.next, tree := .directory [] }).tree = old := by
      rw [← h, Root.tree?]
      cases s.entries.lookup name <;> rfl
    rw [Root.createAll, hnode] at hc
    cases ht : old.createAll path with
    | error e' =>
      rw [ht] at hc
      exact congrArg Except.error (Except.error.inj hc)
    | ok tree =>
      rw [ht] at hc
      cases hc

theorem write_run (path : List Text) (content : List UInt8)
    {old : Tree Text (List UInt8)} (h : s.tree? name = some old) :
    (∃ e, old.write content path = .error e ∧ s.write name path content = .error e) ∨
      ∃ tree s', old.write content path = .ok tree ∧ s.write name path content = .ok s' ∧
        s'.tree? name = some tree ∧ SameBut name s s' := by
  cases hc : s.write name path content with
  | ok s' =>
    obtain ⟨old', tree, hold, ht, hall⟩ := Root.write_ok hc
    obtain rfl := Option.some.inj (h.symm.trans hold)
    exact .inr ⟨tree, s', ht, rfl, by rw [hall, if_pos rfl], fun m hm => by rw [hall, if_neg hm]⟩
  | error e =>
    refine .inl ⟨e, ?_, rfl⟩
    rw [Root.tree?] at h
    obtain ⟨node, hl, rfl⟩ := Option.map_eq_some_iff.mp h
    simp only [Root.write, hl] at hc
    cases ht : node.tree.write content path with
    | error e' =>
      rw [ht] at hc
      exact congrArg Except.error (Except.error.inj hc)
    | ok tree =>
      rw [ht] at hc
      cases hc

/-- The loop over the artifacts fills the staging tree as `placeAll` does. -/
theorem writeArtifacts_run (sha : List UInt8 → Digest) {staging : Name} {tree : Tree Text (List UInt8)}
    (artifacts : List Artifact) (h : s.tree? staging = some tree) :
    (∃ f s', placeAll tree artifacts = .error f ∧
      (writeArtifacts sha staging artifacts).run Root.exec s = (.error f, s') ∧ Fades staging s s') ∨
    ∃ tree' s', placeAll tree artifacts = .ok tree' ∧
      (writeArtifacts sha staging artifacts).run Root.exec s = (.ok (artifacts.map (recordOf sha)), s') ∧
      s'.tree? staging = some tree' ∧ SameBut staging s s' := by
  induction artifacts generalizing s tree with
  | nil => exact .inr ⟨tree, s, rfl, rfl, h, fun _ _ => rfl⟩
  | cons a artifacts ih =>
    rw [placeAll, List.foldlM_cons, place, writeArtifacts]
    cases hrel : safeRelativePath a.path with
    | none => exact .inl ⟨_, _, rfl, by rw [Program.run_bind]; rfl, removeDirAll_fades s staging⟩
    | some relative =>
      simp only [Program.run_bind, run_createAll]
      have hold : (s.tree? staging).getD (.directory []) = tree := by rw [h, Option.getD_some]
      rcases createAll_run (filesName :: relative.dropLast) hold with ⟨e, hp, hc⟩ | ⟨made, s₁, hp, hc, ht₁, hs₁⟩
      · rw [hp, hc]
        exact .inl ⟨_, _, rfl, rfl, fun _ _ => .inl rfl⟩
      · simp only [hp, hc, Root.change, Program.run_bind, run_write]
        rcases write_run (filesName :: relative) a.bytes ht₁ with
          ⟨e, hp, hw⟩ | ⟨next, s₂, hp, hw, ht₂, hs₂⟩
        · simp only [orFault, bind, Except.bind, hp, hw]
          exact .inl ⟨_, _, rfl, rfl, hs₁.fades⟩
        · simp only [orFault, bind, Except.bind, hp, hw]
          rcases ih ht₂ with ⟨f, s₃, hp, hr, hs₃⟩ | ⟨tree', s₃, hp, hr, ht₃, hs₃⟩
          · exact .inl ⟨f, s₃, hp, by
              change ((writeArtifacts sha staging artifacts >>= _).run Root.exec s₂) = _
              rw [Program.run_bind, hr]
              rfl, (hs₁.trans hs₂).fades.trans hs₃⟩
          · exact .inr ⟨tree', s₃, hp, by
              change ((writeArtifacts sha staging artifacts >>= _).run Root.exec s₂) = _
              rw [Program.run_bind, hr]
              rfl, ht₃, (hs₁.trans hs₂).trans hs₃⟩

/-- Staging into a free name: the tree of the entry, and then the publication. -/
theorem stageFiles_run (sha : List UInt8 → Digest) {staging : Name} (key : CacheKey) (entry : CachedModule)
    (h : s.tree? staging = none) :
    (∃ f s', stageTree sha entry = .error f ∧
      (stageFiles sha staging key entry).run Root.exec s = (.error f, s') ∧ Fades staging s s') ∨
    ∃ tree s', stageTree sha entry = .ok tree ∧ s'.tree? staging = some tree ∧ SameBut staging s s' ∧
      (stageFiles sha staging key entry).run Root.exec s = (publish staging (.entry key)).run Root.exec s' := by
  rw [stageFiles, stageTree]
  simp only [Program.run_bind, run_createAll]
  have hold : (s.tree? staging).getD (.directory []) = .directory [] := by rw [h, Option.getD_none]
  rcases createAll_run [filesName] hold with ⟨e, hp, hc⟩ | ⟨made, s₁, hp, hc, ht₁, hs₁⟩
  · simp only [hp, hc, orFault, bind, Except.bind, Root.change]
    exact .inl ⟨_, _, rfl, rfl, fun _ _ => .inl rfl⟩
  simp only [hp, hc, orFault, bind, Except.bind, Root.change]
  by_cases hcap : capacityOverflows entry.artifacts.length
  · simp only [if_pos hcap]
    exact .inl ⟨_, _, rfl, rfl, hs₁.fades⟩
  simp only [if_neg hcap, pure]
  rcases writeArtifacts_run sha entry.artifacts ht₁ with
    ⟨f, s₂, hp, hr, hs₂⟩ | ⟨filled, s₂, hp, hr, ht₂, hs₂⟩
  · exact .inl ⟨f, s₂, by simp only [hp], by
      change ((writeArtifacts sha staging entry.artifacts >>= _).run Root.exec s₁) = _
      rw [Program.run_bind, hr]
      rfl, hs₁.fades.trans hs₂⟩
  rcases write_run [manifestName] (toUtf8 ((manifestOf sha entry).render sha)) ht₂ with
    ⟨e, hp', hw⟩ | ⟨tree, s₃, hp', hw, ht₃, hs₃⟩
  · refine .inl ⟨.io e, s₂, by simp only [hp, hp'], ?_, (hs₁.trans hs₂).fades⟩
    change ((writeArtifacts sha staging entry.artifacts >>= _).run Root.exec s₁) = _
    rw [Program.run_bind, hr]
    change ((Fs.write staging [manifestName] (toUtf8 ((manifestOf sha entry).render sha)) >>= _).run Root.exec s₂)
      = _
    rw [Program.run_bind, run_write, hw]
    rfl
  · refine .inr ⟨tree, s₃, by simp only [hp, hp'], ht₃, (hs₁.trans hs₂).trans hs₃, ?_⟩
    change ((writeArtifacts sha staging entry.artifacts >>= _).run Root.exec s₁) = _
    rw [Program.run_bind, hr]
    change ((Fs.write staging [manifestName] (toUtf8 ((manifestOf sha entry).render sha)) >>= _).run Root.exec s₂)
      = _
    rw [Program.run_bind, run_write, hw]
    rfl

/-- A name that is no directory fails to stage. -/
theorem stageFiles_file (sha : List UInt8 → Digest) {staging : Name} {content : List UInt8}
    (key : CacheKey) (entry : CachedModule) (h : s.tree? staging = some (.file content)) :
    ∃ f s', (stageFiles sha staging key entry).run Root.exec s = (.error f, s') := by
  have hold : (s.tree? staging).getD (.directory []) = .file content := by rw [h, Option.getD_some]
  rcases createAll_run [filesName] hold with ⟨e, -, hc⟩ | ⟨made, s₁, hp, -⟩
  · refine ⟨.io e, s, ?_⟩
    rw [stageFiles, Program.run_bind, run_createAll, hc]
    rfl
  · cases hp

theorem removeDirAll_gone (s : Root) (name : Name) :
    ((removeDirAll name).run Root.exec s).2.tree? name = none ∨
      ∃ content, ((removeDirAll name).run Root.exec s).2.tree? name = some (.file content) := by
  rw [removeDirAll, Program.run_bind, run_openDirectory, Root.openDirectory]
  cases hl : s.entries.lookup name with
  | none => exact .inl (by rw [Program.run_pure, Root.tree?, hl, Option.map_none])
  | some node =>
    cases hd : node.tree.isDirectory with
    | false =>
      have ht : ∃ content, node.tree = .file content := by
        cases ht : node.tree with
        | file content => exact ⟨content, rfl⟩
        | directory children =>
          rw [ht] at hd
          cases hd
      obtain ⟨content, ht⟩ := ht
      simp only [hd, Bool.false_eq_true, if_false, Program.run_pure]
      exact .inr ⟨content, by rw [Root.tree?, hl, Option.map_some, ht]⟩
    | true =>
      have hb := Root.tree?_removeBelow_self hl hd
      simp only [hd, if_true, Program.run_bind, run_removeBelow, run_removeDirectory, Root.removeDirectory, hb]
      exact .inl (by rw [Root.change, Root.tree?_unassign, if_pos rfl])

/-- A publication that succeeds where no directory was has moved the staged tree. -/
theorem publish_ok {staging final : Name} (hne : staging ≠ final)
    (h : (publish staging final).run Root.exec s = (.ok (), s')) (hd : s.isDirectory final = false) :
    s'.tree? final = s.tree? staging := by
  rw [publish, Program.run_bind, run_rename] at h
  cases hr : s.rename staging final with
  | ok s₁ =>
    simp only [hr, Root.change, Program.run_pure, Prod.mk.injEq] at h
    obtain ⟨-, rfl⟩ := h
    obtain ⟨tree, ht, hall⟩ := Root.rename_ok hne hr
    rw [hall, if_pos rfl, ht]
  | error e =>
    simp only [hr, Root.change, Program.run_bind, run_isDir, hd, Bool.false_eq_true, if_false, Program.run_pure,
      Prod.mk.injEq, reduceCtorEq, false_and] at h

/-- What an entry's directory is once it is published. -/
def Published (sha : List UInt8 → Digest) (s : Root) (key : CacheKey) (entry : CachedModule) : Prop :=
  ∃ tree, stageTree sha entry = .ok tree ∧ s.tree? (.entry key) = some tree

variable {entry : CachedModule}

theorem stage_ok {suffixes : Suffixes} {key : CacheKey}
    (h : (stage sha suffixes key entry).run Root.exec s = (.ok (), s')) (hd : s.isDirectory (.entry key) = false) :
    Published sha s' key entry := by
  have hne : Name.staging suffixes.process key suffixes.staging ≠ .entry key := nofun
  simp only [stage, Program.run_bind] at h
  have hd₁ := removeDirAll_others s hne.symm
  rw [hd] at hd₁
  rcases removeDirAll_gone s (.staging suffixes.process key suffixes.staging) with hgone | ⟨content, hfile⟩
  · rcases stageFiles_run sha key entry hgone with ⟨f, s₂, -, hr, -⟩ | ⟨tree, s₂, htree, hst, hsame, hr⟩
    · rw [hr] at h
      cases h
    · rw [hr] at h
      have hd₂ : s₂.isDirectory (.entry key) = false := by
        rw [Root.isDirectory_eq (hsame _ hne.symm), hd₁]
      exact ⟨tree, htree, (publish_ok hne h hd₂).trans hst⟩
  · obtain ⟨f, s₂, hr⟩ := stageFiles_file sha key entry hfile
    rw [hr] at h
    cases h

/-- A key has a healthy entry when a lookup of it is a hit. -/
def Healthy (sha : List UInt8 → Digest) (s : Root) (key : CacheKey) : Prop :=
  ∃ m, ((get sha key).run Root.exec s).1 = .ok (.ok m)

/-- A `put` that succeeds on a key without a healthy entry has published what it was given. -/
theorem put_ok {suffixes : Suffixes} {key : CacheKey}
    (hfree : s.tree? (.damaged key suffixes.damaged) = none) (hmiss : ¬ Healthy sha s key)
    (h : (put sha suffixes key entry).run Root.exec s = (.ok (), s')) : Published sha s' key entry := by
  simp only [put, Program.run_bind, run_isDir] at h
  split at h
  · next hd =>
    rw [Program.run_bind, get_unchanged] at h
    split at h
    · next m hm => exact absurd ⟨m, hm⟩ hmiss
    · cases h
    · rw [Program.run_bind, run_rename] at h
      obtain ⟨s₁, hr⟩ := Root.rename_free hd hfree
      simp only [hr, Root.change] at h
      obtain ⟨tree, -, hall⟩ := Root.rename_ok (by simp) hr
      refine stage_ok h ?_
      rw [Root.isDirectory, hall, if_neg (by simp), if_pos rfl]
      rfl
  · next hd => exact stage_ok h (by simpa using hd)

/-- Artifacts whose paths name one file have one content. -/
def Consistent (entry : CachedModule) : Prop :=
  ∀ a ∈ entry.artifacts, ∀ b ∈ entry.artifacts, safeRelativePath a.path = safeRelativePath b.path →
    a.bytes = b.bytes

theorem Staged.manifested {tree : Tree Text (List UInt8)}
    (h : Staged sha entry tree) (ht : s.tree? name = some tree) : Manifested sha s name (manifestOf sha entry) :=
  ⟨_, _, by rw [Root.read_eq ht, h.manifest], fromUtf8_toUtf8 _, h.parsed⟩

/-- The published entry is read back exactly when its artifacts are consistent. -/
theorem get_published {key : CacheKey} (h : Published sha s key entry) :
    ((get sha key).run Root.exec s).1 = .ok (.ok entry) ↔ Consistent entry := by
  obtain ⟨tree, hstage, ht⟩ := h
  have hstaged := stageTree_ok hstage
  rw [get_hit]
  constructor
  · rintro ⟨-, m, hm, hfiles, -⟩ a ha b hb hab
    obtain ⟨bytes, text, hread, htext, hparse⟩ := hm
    obtain ⟨bytes', text', hread', htext', hparse'⟩ := hstaged.manifested ht
    obtain rfl := Except.ok.inj (hread.symm.trans hread')
    obtain rfl := Option.some.inj (htext.symm.trans htext')
    obtain rfl := Except.ok.inj (hparse.symm.trans hparse')
    -- each artifact is what its place holds, and one place holds one content
    have hplace : ∀ a ∈ entry.artifacts, ∀ relative, safeRelativePath a.path = some relative →
        s.read (.entry key) (filesName :: relative) = .ok a.bytes := by
      intro a ha relative hrel
      have hrec : List.Forall₂ (fun a a' => Recorded sha s (.entry key) (recordOf sha a) a')
          entry.artifacts entry.artifacts := List.forall₂_map_left_iff.mp hfiles
      have ha := List.forall₂_same.mp hrec a ha
      obtain ⟨relative', hrel', hread⟩ := ha.found
      obtain rfl : relative = relative' := Option.some.inj (hrel.symm.trans hrel')
      exact hread
    obtain ⟨relative, hrel, -⟩ := hstaged.placed a ha
    exact Except.ok.inj ((hplace a ha relative hrel).symm.trans (hplace b hb relative (hab ▸ hrel)))
  · intro hc
    have hd : s.isDirectory (.entry key) = true := by
      rw [Root.isDirectory, ht, Option.map_some, Option.getD_some]
      cases tree with
      | file c => cases hstaged.manifest
      | directory children => rfl
    refine ⟨hd, _, hstaged.manifested ht, ?_, rfl⟩
    refine List.forall₂_map_left_iff.mpr (List.forall₂_same.mpr fun a ha => ?_)
    obtain ⟨relative, hrel, b, hb, hbrel, hread⟩ := hstaged.placed a ha
    have hab : a.bytes = b.bytes := hc a ha b hb (hrel.trans hbrel.symm)
    refine ⟨rfl, ⟨relative, hrel, ?_⟩, ?_, rfl⟩
    · rw [hab, Root.read_eq ht, hread]
    · exact (UInt64.toNat_ofNat_of_lt' a.fits).symm

/-- A store gives back what it accepted, exactly when the artifacts of one place have one content. -/
theorem put_get (sha : List UInt8 → Digest) (s s' : Root) (suffixes : Suffixes) (key : CacheKey)
    (entry : CachedModule) (hfree : s.tree? (.damaged key suffixes.damaged) = none)
    (hmiss : ¬ Healthy sha s key) (hput : (put sha suffixes key entry).run Root.exec s = (.ok (), s')) :
    ((get sha key).run Root.exec s').1 = .ok (.ok entry) ↔ Consistent entry :=
  get_published (put_ok hfree hmiss hput)

/-! ### One entry that is read back and one that is not -/

def zeroDigest : Digest := ⟨List.replicate 32 0, rfl⟩

def firstSuffixes : Suffixes := { process := 1, damaged := 0, staging := 1 }

def oneFile : CachedModule where
  artifacts := [⟨"lib/A.class".toList, [1, 2], by decide⟩]
  abi := ⟨zeroDigest⟩

/-- Two spellings of one path, with contents of different lengths. -/
def twoSpellings : CachedModule where
  artifacts := [⟨"a".toList, [1], by decide⟩, ⟨"./a".toList, [], by decide⟩]
  abi := ⟨zeroDigest⟩

theorem empty_misses (sha : List UInt8 → Digest) (key : CacheKey) : ¬ Healthy sha .empty key := by
  rintro ⟨m, hm⟩
  have hd : Root.empty.isDirectory (.entry key) = false := rfl
  exact absurd (hd.symm.trans (get_hit.mp hm).1) Bool.false_ne_true

theorem put_get_oneFile :
    ((get (fun _ => zeroDigest) ⟨zeroDigest⟩).run Root.exec
      ((put (fun _ => zeroDigest) firstSuffixes ⟨zeroDigest⟩ oneFile).run Root.exec .empty).2).1 =
        .ok (.ok oneFile) := by
  have hput : ((put (fun _ => zeroDigest) firstSuffixes ⟨zeroDigest⟩ oneFile).run Root.exec .empty).1 = .ok () := by
    decide +kernel
  refine (put_get (fun _ => zeroDigest) .empty _ firstSuffixes ⟨zeroDigest⟩ oneFile rfl (empty_misses _ _)
    (Prod.ext hput rfl)).mpr ?_
  intro a ha b hb _
  rw [List.mem_singleton.mp ha, List.mem_singleton.mp hb]

/-- The last artifact written to a place is read for each of its spellings. -/
theorem put_get_twoSpellings :
    ¬ ∀ (sha : List UInt8 → Digest) (s s' : Root) (suffixes : Suffixes) (key : CacheKey) (entry : CachedModule),
      s.tree? (.damaged key suffixes.damaged) = none → ¬ Healthy sha s key →
      (put sha suffixes key entry).run Root.exec s = (.ok (), s') →
      ((get sha key).run Root.exec s').1 = .ok (.ok entry) := by
  intro h
  have hput : ((put (fun _ => zeroDigest) firstSuffixes ⟨zeroDigest⟩ twoSpellings).run Root.exec .empty).1 =
      .ok () := by decide +kernel
  have hrun : (put (fun _ => zeroDigest) firstSuffixes ⟨zeroDigest⟩ twoSpellings).run Root.exec .empty =
      (.ok (), _) := Prod.ext hput rfl
  have hget := h (fun _ => zeroDigest) .empty _ firstSuffixes ⟨zeroDigest⟩ twoSpellings rfl (empty_misses _ _) hrun
  have hc := (get_published (put_ok rfl (empty_misses _ _) hrun)).mp hget
  have he := hc ⟨"a".toList, [1], by decide⟩ (by simp [twoSpellings]) ⟨"./a".toList, [], by decide⟩
    (by simp [twoSpellings]) (by decide)
  exact absurd he (by decide)

end Krusty.Build.Store
