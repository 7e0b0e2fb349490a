import Krusty.Build.Store.RoundTrip

/-! Damaged entries: which of them a lookup turns into a miss, and how `put` replaces them. -/
namespace Krusty.Build.Store

open Files Interference Strings

variable {sha : List UInt8 → Digest}

/-- A manifest whose count of records asks for more memory than there is. -/
def AsksTooMuch (text : Text) : Prop :=
  ∃ abi count rest, Manifest.parseHead (lines text) = some (abi, count, rest) ∧ capacityOverflows count

/-- An entry's directory whose files can be read, or are not there. -/
structure Intact (sha : List UInt8 → Digest) (s : Root) (key : CacheKey) : Prop where
  /-- The manifest, if there is one, is a file. -/
  manifest : ∀ e, s.read (.entry key) [manifestName] = .error e → e = .notFound
  /-- It is UTF-8 and does not ask for more records than memory has. -/
  text : ∀ bytes, s.read (.entry key) [manifestName] = .ok bytes →
    ∃ text, fromUtf8 bytes = some text ∧ ¬ AsksTooMuch text
  /-- The first recorded file that is not as recorded is no directory and lies below none that is a file. -/
  files : ∀ m before record after artifacts relative e, Manifested sha s (.entry key) m →
    m.files = before ++ record :: after → List.Forall₂ (Recorded sha s (.entry key)) before artifacts →
    safeRelativePath record.path = some relative →
    s.read (.entry key) (filesName :: relative) = .error e → e = .notFound

theorem parse_panic {text : Text} : Manifest.parse sha text = .error .panic ↔ AsksTooMuch text := by
  rw [Manifest.parse, AsksTooMuch]
  cases hhead : Manifest.parseHead (lines text) with
  | none => simp [Manifest.orMalformed, bind, Except.bind]
  | some head =>
    obtain ⟨abi, count, rest⟩ := head
    simp only [Manifest.orMalformed, bind, Except.bind]
    by_cases hc : capacityOverflows count
    · simp only [if_pos hc]
      exact iff_of_true rfl ⟨abi, count, rest, rfl, hc⟩
    · simp only [if_neg hc, pure, Except.pure]
      refine iff_of_false ?_ ?_
      · cases Manifest.parseRecords count rest with
        | none =>
          intro h
          cases h
        | some records =>
          obtain ⟨files, rest'⟩ := records
          simp only
          cases Manifest.parseTail rest' with
          | none =>
            intro h
            cases h
          | some integrity =>
            simp only
            split <;> (intro h; cases h)
      · rintro ⟨abi', count', rest', he, hc'⟩
        obtain ⟨-, rfl, -⟩ : abi = abi' ∧ count = count' ∧ rest = rest' := by simpa using he
        exact hc hc'

variable {s : Root}

/-- The loop over the records fails exactly at a file that cannot be read and is not missing. -/
theorem readRecords_error {dir : Name} {records : List FileRecord} :
    (∃ f, ((readRecords sha dir records).run Root.exec s).1 = .error f) ↔
      ∃ before record after artifacts relative e, records = before ++ record :: after ∧
        List.Forall₂ (Recorded sha s dir) before artifacts ∧ safeRelativePath record.path = some relative ∧
        s.read dir (filesName :: relative) = .error e ∧ e ≠ .notFound := by
  induction records with
  | nil =>
    refine iff_of_false (by rintro ⟨f, hf⟩; cases hf) ?_
    rintro ⟨before, record, after, -, -, -, h, -⟩
    simp at h
  | cons record records ih =>
    rw [readRecords]
    -- what lies at the first record decides, unless it is as recorded
    have hfirst : ∀ before record' after artifacts, record :: records = before ++ record' :: after →
        List.Forall₂ (Recorded sha s dir) before artifacts →
        (before = [] ∧ record' = record ∧ after = records) ∨
          ∃ before' artifact artifacts', before = record :: before' ∧ artifacts = artifact :: artifacts' ∧
            records = before' ++ record' :: after ∧ Recorded sha s dir record artifact ∧
            List.Forall₂ (Recorded sha s dir) before' artifacts' := by
      intro before record' after artifacts h hf
      cases hf with
      | nil =>
        obtain ⟨rfl, rfl⟩ := List.cons.inj h
        exact .inl ⟨rfl, rfl, rfl⟩
      | cons hr hf =>
        obtain ⟨rfl, rfl⟩ := List.cons.inj h
        exact .inr ⟨_, _, _, rfl, rfl, rfl, hr, hf⟩
    cases hrel : safeRelativePath record.path with
    | none =>
      refine iff_of_false (by rintro ⟨f, hf⟩; cases hf) ?_
      rintro ⟨before, record', after, artifacts, relative, e, h, hf, hsafe, -⟩
      obtain ⟨-, rfl, -⟩ | ⟨_, _, _, -, -, -, hr, -⟩ := hfirst before record' after artifacts h hf
      · rw [hrel] at hsafe
        cases hsafe
      · obtain ⟨relative', hrel', -⟩ := hr.found
        rw [hrel] at hrel'
        cases hrel'
    | some relative =>
      simp only [Program.run_bind, run_read]
      cases hread : s.read dir (filesName :: relative) with
      | error e =>
        by_cases he : e = .notFound
        · subst he
          refine iff_of_false (by rintro ⟨f, hf⟩; cases hf) ?_
          rintro ⟨before, record', after, artifacts, relative', e, h, hf, hsafe, hread', hne⟩
          obtain ⟨-, rfl, -⟩ | ⟨_, _, _, -, -, -, hr, -⟩ := hfirst before record' after artifacts h hf
          · obtain rfl := Option.some.inj (hrel.symm.trans hsafe)
            rw [hread] at hread'
            exact hne (Except.error.inj hread').symm
          · obtain ⟨relative', hrel', hread'⟩ := hr.found
            obtain rfl := Option.some.inj (hrel.symm.trans hrel')
            rw [hread] at hread'
            cases hread'
        · refine iff_of_true ⟨.io e, ?_⟩ ⟨[], record, records, [], relative, e, rfl, .nil, hrel, hread, he⟩
          cases e <;> first | rfl | exact absurd rfl he
      | ok bytes =>
        by_cases hb : bytes.length = record.length.toNat ∧ sha bytes = record.content
        · simp only [dif_pos hb, Program.run_bind]
          have hrec : Recorded sha s dir record
              { path := record.path, bytes, fits := hb.1 ▸ record.length.toNat_lt } :=
            ⟨rfl, ⟨relative, hrel, hread⟩, hb.1, hb.2⟩
          have hstep : (∃ before record' after artifacts relative e, record :: records = before ++ record' :: after ∧
                List.Forall₂ (Recorded sha s dir) before artifacts ∧ safeRelativePath record'.path = some relative ∧
                s.read dir (filesName :: relative) = .error e ∧ e ≠ .notFound) ↔
              ∃ before record' after artifacts relative e, records = before ++ record' :: after ∧
                List.Forall₂ (Recorded sha s dir) before artifacts ∧ safeRelativePath record'.path = some relative ∧
                s.read dir (filesName :: relative) = .error e ∧ e ≠ .notFound := by
            constructor
            · rintro ⟨before, record', after, artifacts, relative', e, h, hf, hsafe, hread', hne⟩
              obtain ⟨-, rfl, -⟩ | ⟨before', _, artifacts', -, -, h, -, hf⟩ :=
                hfirst before record' after artifacts h hf
              · obtain rfl := Option.some.inj (hrel.symm.trans hsafe)
                rw [hread] at hread'
                cases hread'
              · exact ⟨before', record', after, artifacts', relative', e, h, hf, hsafe, hread', hne⟩
            · rintro ⟨before, record', after, artifacts, relative', e, h, hf, hsafe, hread', hne⟩
              exact ⟨record :: before, record', after, _ :: artifacts, relative', e, by rw [h]; rfl,
                .cons hrec hf, hsafe, hread', hne⟩
          rw [hstep, ← ih]
          constructor
          · rintro ⟨f, hf⟩
            split at hf
            · cases hf
            · exact ⟨f, hf⟩
          · rintro ⟨f, hf⟩
            rw [hf]
            exact ⟨f, rfl⟩
        · simp only [dif_neg hb]
          refine iff_of_false (by rintro ⟨f, hf⟩; cases hf) ?_
          rintro ⟨before, record', after, artifacts, relative', e, h, hf, hsafe, hread', hne⟩
          obtain ⟨-, rfl, -⟩ | ⟨_, _, _, -, -, -, hr, -⟩ := hfirst before record' after artifacts h hf
          · obtain rfl := Option.some.inj (hrel.symm.trans hsafe)
            rw [hread] at hread'
            cases hread'
          · obtain ⟨relative', hrel', hread'⟩ := hr.found
            obtain rfl := Option.some.inj (hrel.symm.trans hrel')
            obtain rfl := Except.ok.inj (hread.symm.trans hread')
            exact hb ⟨hr.length, hr.content⟩

variable {key : CacheKey}

/-- A lookup has an answer, a hit or a miss, exactly for an absent entry and an intact one. -/
theorem get_answers : (∃ answer, ((get sha key).run Root.exec s).1 = .ok answer) ↔
      (s.isDirectory (.entry key) = true → Intact sha s key) := by
  simp only [get, Program.run_bind, run_isDir]
  by_cases hd : s.isDirectory (.entry key) = true
  · simp only [hd, if_true, Program.run_bind, run_read, true_imp_iff]
    cases hm : s.read (.entry key) [manifestName] with
    | error e =>
      by_cases he : e = .notFound
      · subst he
        refine iff_of_true ⟨_, rfl⟩ ⟨fun e' h => ?_, fun bytes h => ?_, ?_⟩
        · rw [hm] at h
          exact (Except.error.inj h).symm
        · rw [hm] at h
          cases h
        · rintro m before record after artifacts relative e ⟨bytes, text, h, -⟩
          rw [hm] at h
          cases h
      · refine iff_of_false ?_ fun h => he (h.manifest e hm)
        rintro ⟨answer, h⟩
        cases e <;> first | exact absurd rfl he | cases h
    | ok bytes =>
      cases ht : fromUtf8 bytes with
      | none =>
        refine iff_of_false (by rintro ⟨answer, h⟩; simp [ht] at h) fun h => ?_
        obtain ⟨text, htext, -⟩ := h.text bytes hm
        rw [ht] at htext
        cases htext
      | some text =>
        have htext : Intact sha s key → ¬ AsksTooMuch text := by
          intro h
          obtain ⟨text', htext', hask⟩ := h.text bytes hm
          obtain rfl := Option.some.inj (ht.symm.trans htext')
          exact hask
        have hintact : ¬ AsksTooMuch text → (∀ m before record after artifacts relative e,
              Manifest.parse sha text = .ok m → m.files = before ++ record :: after →
              List.Forall₂ (Recorded sha s (.entry key)) before artifacts →
              safeRelativePath record.path = some relative →
              s.read (.entry key) (filesName :: relative) = .error e → e = .notFound) → Intact sha s key := by
          intro hask hfiles
          refine ⟨fun e h => ?_, fun bytes' h => ?_, ?_⟩
          · rw [hm] at h
            cases h
          · obtain rfl := Except.ok.inj (hm.symm.trans h)
            exact ⟨text, ht, hask⟩
          · rintro m before record after artifacts relative e ⟨bytes', text', h, htext', hparse⟩
            obtain rfl := Except.ok.inj (hm.symm.trans h)
            obtain rfl := Option.some.inj (ht.symm.trans htext')
            exact hfiles m before record after artifacts relative e hparse
        simp only [ht]
        cases hp : Manifest.parse sha text with
        | error fault =>
          cases fault with
          | malformed =>
            refine iff_of_true ⟨_, rfl⟩ (hintact (fun h => ?_) fun m _ _ _ _ _ _ h => ?_)
            · rw [parse_panic.mpr h] at hp
              cases hp
            · rw [hp] at h
              cases h
          | panic => exact iff_of_false (by rintro ⟨answer, h⟩; cases h) fun h => htext h (parse_panic.mp hp)
        | ok m =>
          have hask : ¬ AsksTooMuch text := fun h => by
            rw [parse_panic.mpr h] at hp
            cases hp
          simp only [Program.run_bind]
          cases hr : ((readRecords sha (.entry key) m.files).run Root.exec s).1 with
          | error f =>
            obtain ⟨before, record, after, artifacts, relative, e, hfiles, hf, hsafe, hread, hne⟩ :=
              readRecords_error.mp ⟨f, hr⟩
            refine iff_of_false (by rintro ⟨answer, h⟩; cases h) fun h => hne ?_
            exact h.files m before record after artifacts relative e ⟨bytes, text, hm, ht, hp⟩ hfiles hf hsafe hread
          | ok answer =>
            refine iff_of_true ?_ (hintact hask ?_)
            · cases answer with
              | error reason => exact ⟨_, rfl⟩
              | ok artifacts => exact ⟨_, rfl⟩
            · intro m' before record after artifacts relative e hm' hfiles hf hsafe hread
              obtain rfl := Except.ok.inj (hp.symm.trans hm')
              by_contra hne
              obtain ⟨f, hf⟩ := readRecords_error.mpr
                ⟨before, record, after, artifacts, relative, e, hfiles, hf, hsafe, hread, hne⟩
              rw [hr] at hf
              cases hf
  · simp only [hd, Bool.false_eq_true, if_false, false_imp_iff, iff_true]
    exact ⟨_, rfl⟩

/-! ### Replacement -/

/-- A publication under a free name moves the staged tree there. -/
theorem publish_free {staging final : Name} (hne : staging ≠ final)
    (hs : s.isDirectory staging = true) (hf : s.tree? final = none) :
    ∃ s', (publish staging final).run Root.exec s = (.ok (), s') ∧
      ∀ m, s'.tree? m = if m = final then s.tree? staging else if m = staging then none else s.tree? m := by
  obtain ⟨s', hr⟩ := Root.rename_free hs hf
  obtain ⟨tree, ht, hall⟩ := Root.rename_ok hne hr
  refine ⟨s', ?_, fun m => by rw [hall, ht]⟩
  rw [publish, Program.run_bind, run_rename, hr]
  rfl

theorem removeDirAll_free {name : Name} (h : s.tree? name = none) :
    (removeDirAll name).run Root.exec s = (.error .notFound, s) := by
  rw [Root.tree?, Option.map_eq_none_iff] at h
  rw [removeDirAll, Program.run_bind, run_openDirectory, Root.openDirectory, h]
  rfl

variable {suffixes : Suffixes}

/-- An entry whose tree can be staged is published where its two names are free. -/
theorem stage_free {entry : CachedModule}
    {tree : Tree Text (List UInt8)} (hst : s.tree? (.staging suffixes.process key suffixes.staging) = none)
    (hf : s.tree? (.entry key) = none) (hstage : stageTree sha entry = .ok tree) :
    ∃ s', (stage sha suffixes key entry).run Root.exec s = (.ok (), s') ∧
      ∀ m, s'.tree? m = if m = .entry key then some tree else s.tree? m := by
  have hne : Name.staging suffixes.process key suffixes.staging ≠ .entry key := nofun
  simp only [stage, Program.run_bind, removeDirAll_free hst]
  rcases stageFiles_run sha key entry hst with ⟨f, s₁, hp, -⟩ | ⟨tree', s₁, hp, ht, hsame, hr⟩
  · rw [hstage] at hp
    cases hp
  · obtain rfl := Except.ok.inj (hstage.symm.trans hp)
    have hd : s₁.isDirectory (.staging suffixes.process key suffixes.staging) = true := by
      rw [Root.isDirectory, ht, Option.map_some, Option.getD_some]
      have hm := (stageTree_ok hstage).manifest
      cases tree with
      | file c => cases hm
      | directory children => rfl
    have hf₁ : s₁.tree? (.entry key) = none := by rw [hsame _ hne.symm, hf]
    obtain ⟨s', hpub, hall⟩ := publish_free hne hd hf₁
    refine ⟨s', by rw [hr, hpub], fun m => ?_⟩
    rw [hall, ht]
    split
    · rfl
    · split
      · next h => rw [h, hst]
      · next h => exact hsame m h

/-- An entry whose tree cannot be staged is refused, and no other name gains anything. -/
theorem stage_refused {entry : CachedModule} {f : Fault}
    (hst : s.tree? (.staging suffixes.process key suffixes.staging) = none)
    (hstage : stageTree sha entry = .error f) :
    ∃ s', (stage sha suffixes key entry).run Root.exec s = (.error f, s') ∧
      Fades (.staging suffixes.process key suffixes.staging) s s' := by
  simp only [stage, Program.run_bind, removeDirAll_free hst]
  rcases stageFiles_run sha key entry hst with ⟨f', s₁, hp, hr, hs⟩ | ⟨tree', s₁, hp, -⟩
  · obtain rfl := Except.error.inj (hstage.symm.trans hp)
    exact ⟨s₁, hr, hs⟩
  · rw [hstage] at hp
    cases hp

/-- The names that a `put` takes for itself are not in use. -/
def FreshNames (s : Root) (suffixes : Suffixes) (key : CacheKey) : Prop :=
  s.tree? (.staging suffixes.process key suffixes.staging) = none ∧
    s.tree? (.damaged key suffixes.damaged) = none

/-- `put` on a key without a hit: the entry is published when its tree can be staged, and otherwise no entry
gains anything. -/
theorem put_miss (entry : CachedModule) {reason : MissReason} (hfresh : FreshNames s suffixes key)
    (hdir : ∀ tree, s.tree? (.entry key) = some tree → tree.isDirectory = true)
    (hmiss : ((get sha key).run Root.exec s).1 = .ok (.error reason)) :
    (∃ tree s', stageTree sha entry = .ok tree ∧ (put sha suffixes key entry).run Root.exec s = (.ok (), s') ∧
      s'.tree? (.entry key) = some tree ∧ ∀ k ≠ key, s'.tree? (.entry k) = s.tree? (.entry k)) ∨
    ∃ f s', stageTree sha entry = .error f ∧ (put sha suffixes key entry).run Root.exec s = (.error f, s') ∧
      ∀ k tree, s'.tree? (.entry k) = some tree → s.tree? (.entry k) = some tree ∨ tree = .directory [] := by
  -- in a root where the key is free, `put` comes down to staging
  have hstage : ∀ s₁ : Root, s₁.tree? (.staging suffixes.process key suffixes.staging) = none →
      s₁.tree? (.entry key) = none → (∀ k ≠ key, s₁.tree? (.entry k) = s.tree? (.entry k)) →
      (put sha suffixes key entry).run Root.exec s = (stage sha suffixes key entry).run Root.exec s₁ →
      (∃ tree s', stageTree sha entry = .ok tree ∧ (put sha suffixes key entry).run Root.exec s = (.ok (), s') ∧
        s'.tree? (.entry key) = some tree ∧ ∀ k ≠ key, s'.tree? (.entry k) = s.tree? (.entry k)) ∨
      ∃ f s', stageTree sha entry = .error f ∧ (put sha suffixes key entry).run Root.exec s = (.error f, s') ∧
        ∀ k tree, s'.tree? (.entry k) = some tree → s.tree? (.entry k) = some tree ∨ tree = .directory [] := by
    intro s₁ hst hf hsame hrun
    rw [hrun]
    cases htree : stageTree sha entry with
    | ok tree =>
      obtain ⟨s', hs', hall⟩ := stage_free hst hf htree
      refine .inl ⟨tree, s', rfl, hs', by rw [hall, if_pos rfl], fun k hk => ?_⟩
      rw [hall, if_neg (by simpa using hk), hsame k hk]
    | error f =>
      obtain ⟨s', hs', hfades⟩ := stage_refused hst htree
      refine .inr ⟨f, s', rfl, hs', fun k tree hk => ?_⟩
      rcases hfades (.entry k) (by simp) with h | ⟨-, h⟩
      · by_cases hkey : k = key
        · rw [h, hkey, hf] at hk
          cases hk
        · exact .inl (by rw [← hsame k hkey, ← h, hk])
      · exact .inr (Option.some.inj (hk.symm.trans h))
  cases ht : s.tree? (.entry key) with
  | none =>
    have hd : s.isDirectory (.entry key) = false := by rw [Root.isDirectory, ht]; rfl
    refine hstage s hfresh.1 ht (fun _ _ => rfl) ?_
    simp only [put, Program.run_bind, run_isDir, hd, Bool.false_eq_true, if_false]
  | some old =>
    have hd : s.isDirectory (.entry key) = true := by
      rw [Root.isDirectory, ht, Option.map_some, Option.getD_some, hdir old ht]
    obtain ⟨s₁, hr⟩ := Root.rename_free hd hfresh.2
    obtain ⟨_, -, hall⟩ := Root.rename_ok (by simp) hr
    refine hstage s₁ ?_ ?_ ?_ ?_
    · rw [hall, if_neg (by simp), if_neg (by simp), hfresh.1]
    · rw [hall, if_neg (by simp), if_pos rfl]
    · intro k hk
      rw [hall, if_neg (by simp), if_neg (by simpa using hk)]
    · simp only [put, Program.run_bind, run_isDir, hd, if_true, hmiss, run_rename, hr, Root.change, get_unchanged]

/-- Damage degrades to a miss: a lookup answers, what it hits is as its manifest records, and `put` replaces
an entry that is no hit. -/
structure Degrades (sha : List UInt8 → Digest) (s : Root) (key : CacheKey) : Prop where
  answers : ∃ answer, ((get sha key).run Root.exec s).1 = .ok answer
  whole : ∀ m, ((get sha key).run Root.exec s).1 = .ok (.ok m) → ∃ manifest,
    Manifested sha s (.entry key) manifest ∧ List.Forall₂ (Recorded sha s (.entry key)) manifest.files m.artifacts
  replaced : s.isDirectory (.entry key) = true → ¬ Healthy sha s key → ∀ suffixes entry tree,
    FreshNames s suffixes key → stageTree sha entry = .ok tree →
      ∃ s', (put sha suffixes key entry).run Root.exec s = (.ok (), s') ∧ s'.tree? (.entry key) = some tree

theorem degrades_iff (s : Root) (key : CacheKey) :
    Degrades sha s key ↔ (s.isDirectory (.entry key) = true → Intact sha s key) := by
  rw [← get_answers]
  constructor
  · exact fun h => h.answers
  · rintro ⟨answer, h⟩
    refine ⟨⟨answer, h⟩, fun m hm => ?_, fun hd hmiss suffixes entry tree hfresh hstage => ?_⟩
    · obtain ⟨-, manifest, hmanifest, hfiles, -⟩ := get_hit.mp hm
      exact ⟨manifest, hmanifest, hfiles⟩
    · cases answer with
      | ok m => exact absurd ⟨m, h⟩ hmiss
      | error reason =>
        have hdir : ∀ tree, s.tree? (.entry key) = some tree → tree.isDirectory = true := by
          intro tree ht
          rwa [Root.isDirectory, ht, Option.map_some, Option.getD_some] at hd
        rcases put_miss entry hfresh hdir h with ⟨tree', s', htree, hs', ht, -⟩ | ⟨f, _, hf, -⟩
        · obtain rfl := Except.ok.inj (hstage.symm.trans htree)
          exact ⟨s', hs', ht⟩
        · rw [hstage] at hf
          cases hf

end Krusty.Build.Store
