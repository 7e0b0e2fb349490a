import Krusty.Build.Driver
import Krusty.Build.KeyEncoding
import Krusty.Build.Store.Damage

/-! A build with a store of earlier builds, against the same build with an empty one. -/
namespace Krusty.Build

open Files Interference Store Strings

variable {sha : List UInt8 → Digest} {compile : CacheKeyInputs → Except Text CompiledModule} {process : ℕ}

/-! ### What the store knows -/

/-- A directory that no lookup takes for an entry: an empty one, or one whose damage is seen. -/
def Missed (sha : List UInt8 → Digest) (tree : Tree Text (List UInt8)) : Prop :=
  tree.isDirectory = true ∧ ∀ (s : Root) key, s.tree? (.entry key) = some tree →
    ∃ reason, ((Store.get sha key).run Root.exec s).1 = .ok (.error reason)

/-- Every entry is one that the driver stored of inputs it saw, or is missed. -/
def StoreSound (sha : List UInt8 → Digest) (compile : CacheKeyInputs → Except Text CompiledModule)
    (seen : List CacheKeyInputs) (s : Root) : Prop :=
  ∀ key tree, s.tree? (.entry key) = some tree → Missed sha tree ∨
    ∃ i ∈ seen, ∃ compiled, i.key sha = key ∧ compile i = .ok compiled ∧
      stageTree sha (entryOf sha compiled) = .ok tree

/-- What is hashed of the inputs that were seen: their encodings, and the artifacts that they compile to. -/
def Hashed (compile : CacheKeyInputs → Except Text CompiledModule) (seen : List CacheKeyInputs) : Set (List UInt8) :=
  { bytes | ∃ i ∈ seen, bytes = (i.absorb Hasher.new).absorbed ∨
    ∃ compiled, compile i = .ok compiled ∧ ∃ a ∈ compiled.artifacts, bytes = a.bytes }

/-- No two contents that were hashed have one digest. -/
structure CollisionFree (sha : List UInt8 → Digest) (compile : CacheKeyInputs → Except Text CompiledModule)
    (seen : List CacheKeyInputs) : Prop where
  digests : Set.InjOn sha (Hashed compile seen)
  addressable : ∀ i ∈ seen, i.Addressable

theorem CollisionFree.anti {seen seen' : List CacheKeyInputs} (h : CollisionFree sha compile seen')
    (hs : seen ⊆ seen') : CollisionFree sha compile seen where
  digests := by
    refine h.digests.mono ?_
    rintro bytes ⟨i, hi, hb⟩
    exact ⟨i, hs hi, hb⟩
  addressable i hi := h.addressable i (hs hi)

variable {seen : List CacheKeyInputs}

theorem CollisionFree.keys (h : CollisionFree sha compile seen) {i i' : CacheKeyInputs}
    (hi : i ∈ seen) (hi' : i' ∈ seen) (hkey : i.key sha = i'.key sha) : i = i' := by
  apply CacheKeyInputs.absorb_injective (h.addressable i hi) (h.addressable i' hi')
  exact h.digests ⟨i, hi, .inl rfl⟩ ⟨i', hi', .inl rfl⟩ (congrArg CacheKey.digest hkey)

variable {i : CacheKeyInputs}

theorem CollisionFree.contents (h : CollisionFree sha compile seen)
    (hi : i ∈ seen) {compiled : CompiledModule} (hc : compile i = .ok compiled) :
    ∀ a ∈ compiled.artifacts, ∀ b ∈ compiled.artifacts, sha a.bytes = sha b.bytes → a.bytes = b.bytes :=
  fun a ha b hb => h.digests ⟨i, hi, .inr ⟨compiled, hc, a, ha, rfl⟩⟩ ⟨i, hi, .inr ⟨compiled, hc, b, hb, rfl⟩⟩

variable {s : Root}

theorem StoreSound.mono {seen seen' : List CacheKeyInputs} (h : StoreSound sha compile seen s)
    (hs : seen ⊆ seen') : StoreSound sha compile seen' s := by
  intro key tree ht
  rcases h key tree ht with he | ⟨i, hi, compiled, rest⟩
  · exact .inl he
  · exact .inr ⟨i, hs hi, compiled, rest⟩

theorem storeSound_empty (seen : List CacheKeyInputs) : StoreSound sha compile seen .empty :=
  fun _ _ h => by cases h

variable {key : CacheKey} {tree : Tree Text (List UInt8)}

theorem StoreSound.directory (h : StoreSound sha compile seen s) (ht : s.tree? (.entry key) = some tree) :
    tree.isDirectory = true := by
  rcases h key tree ht with hm | ⟨i, -, compiled, -, -, hstage⟩
  · exact hm.1
  · have hm := (stageTree_ok hstage).manifest
    cases tree with
    | file c => cases hm
    | directory children => rfl

/-! ### What a lookup finds -/

theorem get_absent (ht : s.tree? (.entry key) = none) :
    ((get sha key).run Root.exec s).1 = .ok (.error .absent) := by
  have hd : s.isDirectory (.entry key) = false := by rw [Root.isDirectory, ht]; rfl
  simp only [Store.get, Program.run_bind, run_isDir, hd, Bool.false_eq_true, if_false, Program.run_pure]

theorem missed_emptied : Missed sha (.directory []) := by
  refine ⟨rfl, fun s key ht => ⟨.noManifest, ?_⟩⟩
  have hd : s.isDirectory (.entry key) = true := by rw [Root.isDirectory, ht]; rfl
  have hr : s.read (.entry key) [manifestName] = .error .notFound := by rw [Root.read_eq ht]; rfl
  simp only [Store.get, Program.run_bind, run_isDir, hd, if_true, run_read, hr, Program.run_pure]

/-- A staged tree is looked up without a fault. -/
theorem get_staged_answers {entry : CachedModule}
    (ht : s.tree? (.entry key) = some tree) (hstage : stageTree sha entry = .ok tree) :
    ∃ answer, ((get sha key).run Root.exec s).1 = .ok answer := by
  have hstaged := stageTree_ok hstage
  have hm : s.read (.entry key) [manifestName] = .ok (toUtf8 ((manifestOf sha entry).render sha)) := by
    rw [Root.read_eq ht, hstaged.manifest]
  refine get_answers.mpr fun _ => ⟨fun e h => ?_, fun bytes h => ?_, ?_⟩
  · rw [hm] at h
    cases h
  · obtain rfl := Except.ok.inj (hm.symm.trans h)
    refine ⟨_, fromUtf8_toUtf8 _, fun hask => ?_⟩
    have hp : Manifest.parse sha _ = .error .panic := parse_panic.mpr hask
    rw [hstaged.parsed] at hp
    cases hp
  · rintro m before record after artifacts relative e ⟨bytes, text, h, htext, hparse⟩ hfiles - hrel hread
    obtain rfl := Except.ok.inj (hm.symm.trans h)
    obtain rfl := Option.some.inj ((fromUtf8_toUtf8 _).symm.trans htext)
    obtain rfl := Except.ok.inj (hstaged.parsed.symm.trans hparse)
    -- every recorded file is in its place
    have hrecord : record ∈ (manifestOf sha entry).files := by rw [hfiles]; simp
    obtain ⟨a, ha, rfl⟩ := List.mem_map.mp hrecord
    obtain ⟨relative', hrel', b, -, -, hplaced⟩ := hstaged.placed a ha
    obtain rfl := Option.some.inj (hrel.symm.trans hrel')
    rw [Root.read_eq ht, hplaced] at hread
    cases hread

theorem eq_of_forall₂ {α : Type*} {R : α → α → Prop} {as bs : List α} (h : ∀ a ∈ as, ∀ b, R a b → b = a)
    (hr : List.Forall₂ R as bs) : bs = as := by
  induction hr with
  | nil => rfl
  | cons hab _ ih =>
    rw [h _ List.mem_cons_self _ hab, ih fun a ha => h a (List.mem_cons_of_mem _ ha)]

/-- A hit on a staged tree is the entry it was staged for, contents of one digest being equal. -/
theorem get_staged_hit {entry m : CachedModule}
    (ht : s.tree? (.entry key) = some tree) (hstage : stageTree sha entry = .ok tree)
    (hfree : ∀ a ∈ entry.artifacts, ∀ b ∈ entry.artifacts, sha a.bytes = sha b.bytes → a.bytes = b.bytes)
    (hit : ((get sha key).run Root.exec s).1 = .ok (.ok m)) : m = entry := by
  have hstaged := stageTree_ok hstage
  obtain ⟨-, manifest, ⟨bytes, text, h, htext, hparse⟩, hfiles, habi⟩ := get_hit.mp hit
  rw [Root.read_eq ht, hstaged.manifest] at h
  obtain rfl := Except.ok.inj h
  obtain rfl := Option.some.inj ((fromUtf8_toUtf8 _).symm.trans htext)
  obtain rfl := Except.ok.inj (hstaged.parsed.symm.trans hparse)
  have hartifacts : m.artifacts = entry.artifacts := by
    refine eq_of_forall₂ (fun a ha b hr => ?_) (List.forall₂_map_left_iff.mp hfiles)
    obtain ⟨relative, hrel, hread⟩ := hr.found
    obtain ⟨relative', hrel', c, hc, -, hplaced⟩ := hstaged.placed a ha
    obtain rfl := Option.some.inj (hrel.symm.trans hrel')
    rw [Root.read_eq ht, hplaced] at hread
    have hbytes : b.bytes = a.bytes := by
      rw [← Except.ok.inj hread]
      exact hfree c hc a ha (by rw [Except.ok.inj hread, hr.content]; rfl)
    have hpath : b.path = a.path := hr.path
    cases a
    cases b
    simp only [Artifact.mk.injEq]
    exact ⟨hpath, hbytes⟩
  cases m
  cases entry
  simp only [CachedModule.mk.injEq]
  exact ⟨hartifacts, habi⟩

/-! ### One module -/

/-- The outcome without its origin. -/
def Outcome.asCompiled : Outcome → Outcome
  | .cacheHit key abi => .compiled key abi
  | outcome => outcome

/-- A module built without a store. -/
def rebuild (sha : List UInt8 → Digest) (compile : CacheKeyInputs → Except Text CompiledModule) (process : ℕ)
    (module : Module) (i : CacheKeyInputs) (w : Workspace) : Outcome × Workspace :=
  match compile i with
  | .error message => (.failed (.environment message), w)
  | .ok compiled =>
    match stageTree sha (entryOf sha compiled) with
    | .error f => (.failed (.cacheWrite f), w)
    | .ok _ =>
      let (written, w) := materialize process compiled.artifacts module.outputs w
      match written with
      | .ok _ => (.compiled (i.key sha) (entryOf sha compiled).abi, w)
      | .error m => (.failed m, w)

/-- The number that a name in the store's directory carries. -/
def suffix? : Name → Option ℕ
  | .staging _ _ suffix => some suffix
  | .damaged _ suffix => some suffix
  | _ => none

theorem lt_uniqueSuffix {e : Name × Node} (he : e ∈ s.entries) {n : ℕ} (hn : suffix? e.1 = some n) :
    n < uniqueSuffix s := by
  have hfold : ∀ (entries : List (Name × Node)) (m : ℕ),
      let above := entries.foldl (fun n e =>
        match e.1 with
        | .staging _ _ suffix => max n (suffix + 1)
        | .damaged _ suffix => max n (suffix + 1)
        | _ => n) m
      m ≤ above ∧ ∀ e ∈ entries, ∀ n, suffix? e.1 = some n → n < above := by
    intro entries
    induction entries with
    | nil => simp
    | cons e entries ih =>
      intro m
      obtain ⟨name, node⟩ := e
      cases name with
      | staging process key suffix =>
        obtain ⟨hm, hall⟩ := ih (max m (suffix + 1))
        simp only [List.foldl_cons, List.forall_mem_cons, suffix?, Option.some.injEq]
        exact ⟨by omega, fun n hn => by omega, hall⟩
      | damaged key suffix =>
        obtain ⟨hm, hall⟩ := ih (max m (suffix + 1))
        simp only [List.foldl_cons, List.forall_mem_cons, suffix?, Option.some.injEq]
        exact ⟨by omega, fun n hn => by omega, hall⟩
      | _ =>
        simp only [List.foldl_cons, List.forall_mem_cons, suffix?, reduceCtorEq, false_imp_iff, implies_true, true_and]
        exact ih m
  exact (hfold s.entries 0).2 e he n hn

theorem tree?_of_uniqueSuffix_le {name : Name} {n : ℕ} (hn : suffix? name = some n)
    (hle : uniqueSuffix s ≤ n) : s.tree? name = none := by
  rw [Root.tree?, Option.map_eq_none_iff, List.lookup_eq_none_iff]
  intro e he
  have hne : name ≠ e.1 := by
    rintro rfl
    have hlt := lt_uniqueSuffix he hn
    omega
  exact bne_iff_ne.mpr hne

/-- A number above every one in use names nothing yet. -/
theorem uniqueSuffixes_fresh (process : ℕ) (s : Root) (key : CacheKey) : FreshNames s (uniqueSuffixes process s) key :=
  ⟨tree?_of_uniqueSuffix_le rfl (Nat.le_succ _), tree?_of_uniqueSuffix_le rfl le_rfl⟩

/-- A module was built as it is without a store, and the store stays sound. -/
structure AsRebuilt (sha : List UInt8 → Digest) (compile : CacheKeyInputs → Except Text CompiledModule) (process : ℕ)
    (seen : List CacheKeyInputs) (module : Module) (i : CacheKeyInputs) (s : BuildState)
    (r : Outcome × BuildState) : Prop where
  outcome : r.1.asCompiled = (rebuild sha compile process module i s.workspace).1
  workspace : r.2.workspace = (rebuild sha compile process module i s.workspace).2
  keyed : r.2.keyed = s.keyed
  sound : StoreSound sha compile seen r.2.store

variable {module : Module} {s : BuildState}

/-- A miss of the inputs' key is compiled, stored and materialized. -/
theorem compileAndStore_rebuilt
    {reason : MissReason} (hi : i ∈ seen) (hsound : StoreSound sha compile seen s.store)
    (hmiss : ((Store.get sha (i.key sha)).run Root.exec s.store).1 = .ok (.error reason)) :
    AsRebuilt sha compile process seen module i s (compileAndStore sha compile process module i s) := by
  cases hc : compile i with
  | error message => constructor <;> simp [compileAndStore, rebuild, hc, Outcome.asCompiled, hsound]
  | ok compiled =>
    have hnames := uniqueSuffixes_fresh process s.store (i.key sha)
    rcases put_miss (entryOf sha compiled) hnames
      (fun _ => hsound.directory) hmiss with ⟨tree, store, hstage, hput, ht, hall⟩ | ⟨f, store, hstage, hput, hall⟩
    · have hstore : StoreSound sha compile seen store := by
        intro key tree' ht'
        by_cases hkey : key = i.key sha
        · rw [hkey, ht] at ht'
          obtain rfl := Option.some.inj ht'
          exact .inr ⟨i, hi, compiled, hkey.symm, hc, hstage⟩
        · exact hsound key tree' (by rw [← hall key hkey, ht'])
      have hartifacts : (entryOf sha compiled).artifacts = compiled.artifacts := rfl
      cases hm : materialize process compiled.artifacts module.outputs s.workspace with
      | mk written w =>
        cases written <;> constructor <;>
          simp [compileAndStore, rebuild, hc, hput, hstage, hartifacts, hm, Outcome.asCompiled, hstore]
    · have hstore : StoreSound sha compile seen store := by
        intro key tree' ht'
        rcases hall key tree' ht' with h | rfl
        · exact hsound key tree' h
        · exact .inl missed_emptied
      constructor <;> simp [compileAndStore, rebuild, hc, hput, hstage, Outcome.asCompiled, hstore]

/-- Over a sound store a module is built as it is without one. -/
theorem lookUpOrCompile_rebuilt (process : ℕ) (module : Module)
    (hfree : CollisionFree sha compile seen) (hi : i ∈ seen) (hsound : StoreSound sha compile seen s.store) :
    AsRebuilt sha compile process seen module i s (lookUpOrCompile sha compile process module i s) := by
  have hcompiled : ∀ reason, ((Store.get sha (i.key sha)).run Root.exec s.store).1 = .ok (.error reason) →
      AsRebuilt sha compile process seen module i s (lookUpOrCompile sha compile process module i s) := by
    intro reason hmiss
    rw [lookUpOrCompile, hmiss]
    exact compileAndStore_rebuilt hi hsound hmiss
  cases ht : s.store.tree? (.entry (i.key sha)) with
  | none => exact hcompiled .absent (get_absent ht)
  | some tree =>
    rcases hsound _ tree ht with hm | ⟨i', hi', compiled, hkey, hc, hstage⟩
    · obtain ⟨reason, hmiss⟩ := hm.2 s.store _ ht
      exact hcompiled reason hmiss
    · obtain rfl := hfree.keys hi' hi hkey
      obtain ⟨answer, hanswer⟩ := get_staged_answers ht hstage
      cases answer with
      | error reason => exact hcompiled reason hanswer
      | ok m =>
        obtain rfl := get_staged_hit ht hstage (hfree.contents hi' hc) hanswer
        have hartifacts : (entryOf sha compiled).artifacts = compiled.artifacts := rfl
        cases hm : materialize process compiled.artifacts module.outputs s.workspace with
        | mk written w =>
          cases written <;> constructor <;>
            simp [lookUpOrCompile, hanswer, rebuild, hc, hstage, hartifacts, hm, Outcome.asCompiled, hsound]

/-! ### All modules -/

theorem keyed_compileAndStore : (compileAndStore sha compile process module i s).2.keyed = s.keyed := by
  rw [compileAndStore]
  split
  · rfl
  · dsimp only
    split
    · rfl
    · split <;> rfl

theorem keyed_lookUpOrCompile : (lookUpOrCompile sha compile process module i s).2.keyed = s.keyed := by
  rw [lookUpOrCompile]
  split
  · dsimp only
    split <;> rfl
  · exact keyed_compileAndStore
  · rfl

variable {built : List (ModuleId × AbiFingerprint)} {id : ModuleId}

theorem keyed_buildOne {env : BuildEnvironment} {graph : ModuleGraph} :
    s.keyed ⊆ (buildOne sha compile process env graph id module built s).2.keyed := by
  rw [buildOne]
  split
  · exact List.Subset.refl _
  · rw [keyed_lookUpOrCompile]
    exact List.subset_cons_self ..

variable {order : List ModuleId}

theorem keyed_buildFrom {env : BuildEnvironment} {graph : ModuleGraph} :
    s.keyed ⊆ (buildFrom sha compile process env graph order built s).2.keyed := by
  induction order generalizing built s with
  | nil => exact List.Subset.refl _
  | cons id order ih =>
    rw [buildFrom]
    split
    · exact ih
    · exact List.Subset.trans keyed_buildOne ih

/-- Two builds over sound stores that have come to the same files and the same inputs. -/
structure Lockstep (sha : List UInt8 → Digest) (compile : CacheKeyInputs → Except Text CompiledModule)
    (seen : List CacheKeyInputs) (s t : BuildState) : Prop where
  workspace : s.workspace = t.workspace
  keyed : s.keyed = t.keyed
  left : StoreSound sha compile seen s.store
  right : StoreSound sha compile seen t.store

variable {seen : List CacheKeyInputs} {env : BuildEnvironment} {graph : ModuleGraph} {s t : BuildState}

theorem buildOne_lockstep (hfree : CollisionFree sha compile seen) (h : Lockstep sha compile seen s t)
    (hseen : (buildOne sha compile process env graph id module built s).2.keyed ⊆ seen) :
    (buildOne sha compile process env graph id module built s).1.asCompiled =
        (buildOne sha compile process env graph id module built t).1.asCompiled ∧
      Lockstep sha compile seen (buildOne sha compile process env graph id module built s).2
        (buildOne sha compile process env graph id module built t).2 := by
  obtain ⟨store, w, keyed⟩ := s
  obtain ⟨store', w', keyed'⟩ := t
  obtain ⟨rfl, rfl, hs, ht⟩ := h
  rw [buildOne] at hseen
  rw [buildOne, buildOne]
  cases hi : keyInputs env graph id module built w with
  | error outcome => exact ⟨rfl, rfl, rfl, hs, ht⟩
  | ok i =>
    simp only [hi, keyed_lookUpOrCompile] at hseen
    have hmem : i ∈ seen := hseen List.mem_cons_self
    have hleft := lookUpOrCompile_rebuilt process module
      (s := ⟨store, w, i :: keyed⟩) hfree hmem hs
    have hright := lookUpOrCompile_rebuilt process module
      (s := ⟨store', w, i :: keyed⟩) hfree hmem ht
    refine ⟨?_, ?_, ?_, hleft.sound, hright.sound⟩
    · exact hleft.outcome.trans hright.outcome.symm
    · exact hleft.workspace.trans hright.workspace.symm
    · exact hleft.keyed.trans hright.keyed.symm

@[simp] theorem Outcome.abi_asCompiled (o : Outcome) : o.asCompiled.abi = o.abi := by
  cases o <;> rfl

@[simp] theorem Outcome.isOk_asCompiled (o : Outcome) : o.asCompiled.isOk = o.isOk := by
  cases o <;> rfl

/-- A report without the origins of its outcomes. -/
def asCompiled (report : List (ModuleId × Outcome)) : List (ModuleId × Outcome) :=
  report.map fun r => (r.1, r.2.asCompiled)

theorem buildFrom_lockstep (hfree : CollisionFree sha compile seen) (h : Lockstep sha compile seen s t)
    (hseen : (buildFrom sha compile process env graph order built s).2.keyed ⊆ seen) :
    asCompiled (buildFrom sha compile process env graph order built s).1 =
        asCompiled (buildFrom sha compile process env graph order built t).1 ∧
      Lockstep sha compile seen (buildFrom sha compile process env graph order built s).2
        (buildFrom sha compile process env graph order built t).2 := by
  induction order generalizing built s t with
  | nil => exact ⟨rfl, h⟩
  | cons id order ih =>
    rw [buildFrom] at hseen
    rw [buildFrom, buildFrom]
    cases hm : graph.get id with
    | none =>
      rw [hm] at hseen
      exact ih h hseen
    | some module =>
      rw [hm] at hseen
      obtain ⟨houtcome, hnext⟩ := buildOne_lockstep hfree h (List.Subset.trans keyed_buildFrom hseen)
      have habi := congrArg Outcome.abi houtcome
      rw [Outcome.abi_asCompiled, Outcome.abi_asCompiled] at habi
      obtain ⟨hreport, hend⟩ := ih hnext hseen
      dsimp only
      rw [← habi]
      refine ⟨?_, hend⟩
      rw [asCompiled, asCompiled, List.map_cons, List.map_cons, houtcome]
      exact congrArg _ hreport

/-! ### Dependencies -/

def Outcome.key? : Outcome → Option CacheKey
  | .cacheHit key _ => some key
  | .compiled key _ => some key
  | _ => none

/-- A module that was neither refused nor blocked comes after its dependencies, each of which succeeded, and
its key is computed from the ABIs that they published. -/
structure FromSuccesses (sha : List UInt8 → Digest) (graph : ModuleGraph) (keyed : List CacheKeyInputs)
    (earlier : List (ModuleId × Outcome)) (id : ModuleId) (o : Outcome) : Prop where
  succeeded : (∀ reason, o ≠ .refused reason) → (∀ on, o ≠ .blocked on) →
    ∀ d ∈ graph.directDependencies id, ∃ o', (d, o') ∈ earlier ∧ o'.isOk = true
  published : ∀ key, o.key? = some key → ∃ i ∈ keyed, i.key sha = key ∧
    i.dependencyAbis.map Prod.fst = graph.directDependencies id ∧
      ∀ d ∈ i.dependencyAbis, ∃ o', (d.1, o') ∈ earlier ∧ o'.abi = some d.2

/-- What is in `built` was published by an earlier module of the run. -/
def PublishedBy (earlier : List (ModuleId × Outcome)) (built : List (ModuleId × AbiFingerprint)) : Prop :=
  ∀ d abi, built.lookup d = some abi → ∃ o, (d, o) ∈ earlier ∧ o.abi = some abi

theorem dependencyAbis_ok {dependencies : List ModuleId}
    {abis : List (ModuleId × AbiFingerprint)} (h : dependencyAbis built dependencies = .ok abis) :
    abis.map Prod.fst = dependencies ∧ ∀ d ∈ abis, built.lookup d.1 = some d.2 := by
  induction dependencies generalizing abis with
  | nil =>
    obtain rfl := Except.ok.inj h
    simp
  | cons dependency rest ih =>
    rw [dependencyAbis] at h
    split at h
    · cases h
    · next abi hl =>
      cases hrest : dependencyAbis built rest with
      | error d => simp [hrest, bind, Except.bind] at h
      | ok others =>
        obtain ⟨hmap, hall⟩ := ih hrest
        simp only [hrest, bind, Except.bind, pure, Except.pure, Except.ok.injEq] at h
        subst h
        simp only [List.map_cons, hmap, List.forall_mem_cons, true_and]
        exact ⟨hl, hall⟩

theorem isOk_of_abi {o : Outcome} {abi : AbiFingerprint} (h : o.abi = some abi) : o.isOk = true := by
  cases o <;> first | rfl | cases h

theorem keyInputs_ok {w : Workspace} (h : keyInputs env graph id module built w = .ok i) :
    dependencyAbis built (graph.directDependencies id) = .ok i.dependencyAbis := by
  rw [keyInputs] at h
  split at h
  · cases h
  · split at h
    · cases h
    · split at h
      · cases h
      · next abis hd =>
        dsimp only at h
        split at h
        · cases h
        · obtain rfl := Except.ok.inj h
          exact hd

/-- A module without a key is refused, blocked, or fails when its dependencies are known. -/
theorem keyInputs_error {w : Workspace} {o : Outcome} (h : keyInputs env graph id module built w = .error o) :
    o.key? = none ∧ ((∃ reason, o = .refused reason) ∨ (∃ on, o = .blocked on) ∨
      ∃ abis, dependencyAbis built (graph.directDependencies id) = .ok abis) := by
  rw [keyInputs] at h
  split at h
  · obtain rfl := Except.error.inj h
    exact ⟨rfl, .inl ⟨_, rfl⟩⟩
  · split at h
    · obtain rfl := Except.error.inj h
      exact ⟨rfl, .inl ⟨_, rfl⟩⟩
    · split at h
      · obtain rfl := Except.error.inj h
        exact ⟨rfl, .inr (.inl ⟨_, rfl⟩)⟩
      · next abis hd =>
        dsimp only at h
        split at h
        · obtain rfl := Except.error.inj h
          exact ⟨rfl, .inr (.inr ⟨abis, hd⟩)⟩
        · cases h

theorem key?_lookUpOrCompile
    (h : (lookUpOrCompile sha compile process module i s).1.key? = some key) : i.key sha = key := by
  have hcompiled : ∀ s, (compileAndStore sha compile process module i s).1.key? = some key → i.key sha = key := by
    intro s h
    rw [compileAndStore] at h
    split at h
    · cases h
    · dsimp only at h
      split at h
      · cases h
      · split at h
        · exact Option.some.inj h
        · cases h
  rw [lookUpOrCompile] at h
  split at h
  · dsimp only at h
    split at h
    · exact Option.some.inj h
    · cases h
  · exact hcompiled s h
  · cases h

theorem succeeded_of_abis {earlier : List (ModuleId × Outcome)} {built abis : List (ModuleId × AbiFingerprint)}
    {dependencies : List ModuleId} (hbuilt : PublishedBy earlier built)
    (h : dependencyAbis built dependencies = .ok abis) :
    ∀ d ∈ dependencies, ∃ o', (d, o') ∈ earlier ∧ o'.isOk = true := by
  obtain ⟨hmap, hall⟩ := dependencyAbis_ok h
  intro d hd
  rw [← hmap] at hd
  obtain ⟨dependency, hmem, rfl⟩ := List.mem_map.mp hd
  obtain ⟨o, ho, habi⟩ := hbuilt _ _ (hall _ hmem)
  exact ⟨o, ho, isOk_of_abi habi⟩

theorem buildOne_fromSuccesses (id : ModuleId) (module : Module) {earlier : List (ModuleId × Outcome)}
    (hbuilt : PublishedBy earlier built) :
    FromSuccesses sha graph (buildOne sha compile process env graph id module built s).2.keyed earlier id
      (buildOne sha compile process env graph id module built s).1 := by
  rw [buildOne]
  cases hi : keyInputs env graph id module built s.workspace with
  | error o =>
    obtain ⟨hkey, hcases⟩ := keyInputs_error hi
    refine ⟨fun hrefused hblocked => ?_, fun key h => ?_⟩
    · rcases hcases with ⟨reason, h⟩ | ⟨on, h⟩ | ⟨abis, h⟩
      · exact absurd h (hrefused reason)
      · exact absurd h (hblocked on)
      · exact succeeded_of_abis hbuilt h
    · rw [hkey] at h
      cases h
  | ok i =>
    have hd := keyInputs_ok hi
    obtain ⟨hmap, hall⟩ := dependencyAbis_ok hd
    refine ⟨fun _ _ => succeeded_of_abis hbuilt hd, fun key h => ?_⟩
    refine ⟨i, ?_, key?_lookUpOrCompile h, hmap, fun d hmem => hbuilt _ _ (hall d hmem)⟩
    rw [keyed_lookUpOrCompile]
    exact List.mem_cons_self

theorem buildFrom_fromSuccesses {before : List (ModuleId × Outcome)} (hbuilt : PublishedBy before built) :
    ∀ earlier id o later, (buildFrom sha compile process env graph order built s).1 = earlier ++ (id, o) :: later →
      FromSuccesses sha graph (buildFrom sha compile process env graph order built s).2.keyed
        (before ++ earlier) id o := by
  induction order generalizing before built s with
  | nil =>
    intro earlier id o later h
    cases earlier <;> cases h
  | cons id order ih =>
    rw [buildFrom]
    cases hm : graph.get id with
    | none => exact ih hbuilt
    | some module =>
      have hone : FromSuccesses sha graph (buildOne sha compile process env graph id module built s).2.keyed before id
          (buildOne sha compile process env graph id module built s).1 := buildOne_fromSuccesses id module hbuilt
      dsimp only
      generalize buildOne sha compile process env graph id module built s = one at hone ⊢
      obtain ⟨outcome, s'⟩ := one
      have hbuilt' : PublishedBy (before ++ [(id, outcome)])
          ((outcome.abi.map fun abi => assign id abi built).getD built) := by
        intro d abi hl
        cases ho : outcome.abi with
        | none =>
          rw [ho] at hl
          obtain ⟨o, hmem, habi⟩ := hbuilt d abi hl
          exact ⟨o, List.mem_append_left _ hmem, habi⟩
        | some published =>
          rw [ho, Option.map_some, Option.getD_some] at hl
          by_cases hd : d = id
          · rw [hd, lookup_assign_self] at hl
            exact ⟨outcome, by simp [hd], ho.trans hl⟩
          · rw [lookup_assign_of_ne hd] at hl
            obtain ⟨o, hmem, habi⟩ := hbuilt d abi hl
            exact ⟨o, List.mem_append_left _ hmem, habi⟩
      intro earlier id' o later h
      cases earlier with
      | nil =>
        obtain ⟨hhead, -⟩ := List.cons.inj h
        obtain ⟨rfl, rfl⟩ := Prod.mk.inj hhead
        rw [List.append_nil]
        refine ⟨hone.succeeded, fun key hkey => ?_⟩
        obtain ⟨i, hi, rest⟩ := hone.published key hkey
        exact ⟨i, keyed_buildFrom hi, rest⟩
      | cons first earlier =>
        obtain ⟨hhead, htail⟩ := List.cons.inj h
        subst hhead
        have := ih hbuilt' earlier id' o later htail
        rwa [List.append_assoc] at this

/-! ### A history of builds -/

/-- Damage to the store takes entries away, or makes them miss. -/
def Damages (sha : List UInt8 → Digest) (s s' : Root) : Prop :=
  ∀ key tree, s'.tree? (.entry key) = some tree → s.tree? (.entry key) = some tree ∨ Missed sha tree

/-- What builds and edits come to, from an empty store. -/
inductive Reachable (sha : List UInt8 → Digest) (compile : CacheKeyInputs → Except Text CompiledModule) :
    BuildState → Prop
  | start (w : Workspace) : Reachable sha compile { store := .empty, workspace := w, keyed := [] }
  | edit {s : BuildState} (hs : Reachable sha compile s) (w : Workspace) : Reachable sha compile { s with workspace := w }
  | damage {s : BuildState} (hs : Reachable sha compile s) (store : Root) (hd : Damages sha s.store store) :
    Reachable sha compile { s with store }
  | build {s : BuildState} (hs : Reachable sha compile s) (process : ℕ) (env : BuildEnvironment)
    (graph : ModuleGraph) (order : List ModuleId) :
    Reachable sha compile (build sha compile process env graph order s).2

theorem reachable_sound (hs : Reachable sha compile s) (hfree : CollisionFree sha compile s.keyed) :
    StoreSound sha compile s.keyed s.store := by
  induction hs with
  | start w => exact storeSound_empty _
  | edit hs w ih => exact ih hfree
  | damage hs store hd ih =>
    intro key tree ht
    rcases hd key tree ht with h | h
    · exact ih hfree key tree h
    · exact .inl h
  | build hs process env graph order ih =>
    have hbefore := ih (hfree.anti keyed_buildFrom)
    have hsound : StoreSound sha compile (build sha compile process env graph order _).2.keyed _ :=
      hbefore.mono keyed_buildFrom
    exact (buildFrom_lockstep hfree ⟨rfl, rfl, hsound, hsound⟩ (List.Subset.refl _)).2.left

/-- After any history a build leaves the files and the ABIs that it leaves over an empty store, and builds no
module from a dependency that did not succeed in the same run. -/
theorem cached_build_eq_clean_build {s : BuildState} (hs : Reachable sha compile s) (process : ℕ)
    (env : BuildEnvironment) (graph : ModuleGraph) (order : List ModuleId)
    (hfree : CollisionFree sha compile (build sha compile process env graph order s).2.keyed) :
    let cached := build sha compile process env graph order s
    let clean := build sha compile process env graph order { s with store := .empty }
    asCompiled cached.1 = asCompiled clean.1 ∧ cached.2.workspace = clean.2.workspace ∧
      ∀ earlier id o later, cached.1 = earlier ++ (id, o) :: later →
        FromSuccesses sha graph cached.2.keyed earlier id o := by
  have hbefore := reachable_sound hs (hfree.anti keyed_buildFrom)
  have hsound : StoreSound sha compile (build sha compile process env graph order s).2.keyed s.store :=
    hbefore.mono keyed_buildFrom
  have hboth : Lockstep sha compile _ s { s with store := .empty } := ⟨rfl, rfl, hsound, storeSound_empty _⟩
  have hlockstep := buildFrom_lockstep hfree hboth (List.Subset.refl _)
  have hnone : PublishedBy [] [] := fun _ _ h => by cases h
  exact ⟨hlockstep.1, hlockstep.2.workspace, buildFrom_fromSuccesses hnone⟩

/-- A hash function that tells apart what differs in its last byte. -/
def lastByte (bytes : List UInt8) : Digest :=
  ⟨List.replicate 31 0 ++ [bytes.getLastD 0], by simp⟩

def noSources : CacheKeyInputs where
  compiler := "krusty".toList
  compilerFlags := []
  environment := []
  jdkIdentity := "17".toList
  sources := []
  classpath := []
  friendPaths := []
  dependencyAbis := []
  plugins := []
  pluginOptions := []
  target := "1.8".toList

def oneClass : CompiledModule where
  artifacts := [⟨"A.class".toList, [202], by decide⟩]
  publishedAbi := .exact ⟨lastByte []⟩

def compileOneClass (_ : CacheKeyInputs) : Except Text CompiledModule := .ok oneClass

def oneModule : ModuleGraph where
  modules := [("app".toList, ⟨[], [], [.classDirectory ["out".toList]]⟩)]

def sameInputs : BuildEnvironment where
  baseInputs _ _ _ _ := .ok noSources
  unsupported _ _ := none

def builtOnce : BuildState :=
  (build lastByte compileOneClass 0 sameInputs oneModule ["app".toList] ⟨.empty, ⟨.directory [], 0⟩, []⟩).2

theorem keyed_oneModule (s : BuildState) :
    (build lastByte compileOneClass 0 sameInputs oneModule ["app".toList] s).2.keyed = noSources :: s.keyed := by
  have hget : oneModule.get "app".toList = some ⟨[], [], [.classDirectory ["out".toList]]⟩ := rfl
  have hinputs : ∀ w, keyInputs sameInputs oneModule "app".toList ⟨[], [], [.classDirectory ["out".toList]]⟩ [] w =
      .ok noSources := fun _ => rfl
  simp only [build, buildFrom, hget, buildOne, hinputs, keyed_lookUpOrCompile]

theorem one_module_twice :
    let cached := build lastByte compileOneClass 0 sameInputs oneModule ["app".toList] builtOnce
    let clean := build lastByte compileOneClass 0 sameInputs oneModule ["app".toList] { builtOnce with store := .empty }
    asCompiled cached.1 = asCompiled clean.1 ∧ cached.2.workspace = clean.2.workspace ∧
      ∀ earlier id o later, cached.1 = earlier ++ (id, o) :: later →
        FromSuccesses lastByte oneModule cached.2.keyed earlier id o := by
  have hs : Reachable lastByte compileOneClass builtOnce := .build (.start _) ..
  have hkeyed : ∀ i ∈ (build lastByte compileOneClass 0 sameInputs oneModule ["app".toList] builtOnce).2.keyed,
      i = noSources := by
    rw [builtOnce, keyed_oneModule, keyed_oneModule]
    simp
  have hencoding : lastByte (noSources.absorb Hasher.new).absorbed ≠ lastByte [202] := by decide +kernel
  have hhashed : ∀ bytes ∈ Hashed compileOneClass
      (build lastByte compileOneClass 0 sameInputs oneModule ["app".toList] builtOnce).2.keyed,
      bytes = (noSources.absorb Hasher.new).absorbed ∨ bytes = [202] := by
    rintro bytes ⟨i, hi, rfl | ⟨compiled, hc, a, ha, rfl⟩⟩
    · exact .inl (by rw [hkeyed i hi])
    · obtain rfl := Except.ok.inj hc
      exact .inr (by rw [List.mem_singleton.mp ha])
  have hfree : CollisionFree lastByte compileOneClass
      (build lastByte compileOneClass 0 sameInputs oneModule ["app".toList] builtOnce).2.keyed := by
    constructor
    · intro a ha b hb hab
      rcases hhashed a ha with rfl | rfl <;> rcases hhashed b hb with rfl | rfl
      · rfl
      · exact absurd hab hencoding
      · exact absurd hab.symm hencoding
      · rfl
    · intro i hi
      rw [hkeyed i hi]
      constructor <;> first | decide +kernel | exact ⟨by decide, nofun⟩
  have h := cached_build_eq_clean_build hs 0 sameInputs oneModule ["app".toList] hfree
  with_reducible exact h

end Krusty.Build
