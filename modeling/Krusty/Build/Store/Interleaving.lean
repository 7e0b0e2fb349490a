import Krusty.Build.Store.Damage

/-! Puts, lookups and garbage collections that run at once, any of them stopping at any point. -/
namespace Krusty.Build.Store

open Files Interference Strings

/-! ### The system -/

inductive Request where
  | get (key : CacheKey)
  | put (suffixes : Suffixes) (key : CacheKey) (entry : CachedModule)
  | gc (maxAge : ℕ)

inductive Outcome where
  | looked (answer : StoreLookup)
  | stored (answer : Except Fault Unit)
  | swept (answer : Except Fault ℕ)

/-- What a call that runs beside others answers: what it would alone, the age of a file by the clock, or an
error of the system. -/
inductive Returns : (c : Call) → Root → Answer c → Root → Prop
  | exec (c : Call) (s : Root) : Returns c s (Root.exec c s).1 (Root.exec c s).2
  | age (name : Name) (s : Root) (content : List UInt8) (age : Option ℕ)
      (h : s.read name [manifestName] = .ok content) : Returns (.modified name) s (.ok age) s
  | fault (c : Call) (s : Root) (e : IoError) : Returns c s (.error e) s

/-- What a call does on the way: directories made one by one, a file written bit by bit, files removed one by
one below the open directory, whatever its name is by then. -/
inductive GoesOn : Call → Root → Root → Prop
  | createAll {name : Name} {path made : List Text} {s s' : Root} (hp : made <+: path)
      (h : s.createAll name made = .ok s') : GoesOn (.createAll name path) s s'
  | write {name : Name} {path : List Text} {content written : List UInt8} {s s' : Root}
      (hp : written <+: content) (h : s.write name path written = .ok s') : GoesOn (.write name path content) s s'
  | removeBelow {inode : ℕ} {s : Root} {name : Name} {node : Node} (path : List Text)
      (hn : s.entries.lookup name = some node) (hi : node.inode = inode) :
      GoesOn (.removeBelow inode) s
        { s with entries := assign name { node with tree := node.tree.erase path } s.entries }

/-- The name under which a request stages. -/
def Request.staging? : Request → Option Name
  | .put suffixes key _ => some (.staging suffixes.process key suffixes.staging)
  | _ => none

def storeSystem (sha : List UInt8 → Digest) : System Request Call Answer Root Outcome where
  program
    | .get key => Outcome.looked <$> get sha key
    | .put suffixes key entry => Outcome.stored <$> put sha suffixes key entry
    | .gc maxAge => Outcome.swept <$> gcOlderThan maxAge
  returns := Returns
  goesOn := GoesOn
  Apart r q := ∀ name, r.staging? = some name → q.staging? ≠ some name

/-! ### What a call leaves to be read -/

/-- Nothing is read that was not there before. -/
def Shrinks (s s' : Root) : Prop :=
  ∀ name path content, s'.read name path = .ok content → s.read name path = .ok content

/-- What is read after a call: what was there, what it wrote, or what it moved. -/
def Leaves (c : Call) (s s' : Root) : Prop :=
  ∀ name path content, s'.read name path = .ok content → s.read name path = .ok content ∨
    match c with
    | .write n p new => name = n ∧ path = p ∧ content <+: new
    | .rename source target => name = target ∧ s.read source path = .ok content
    | _ => False

theorem Leaves.same (c : Call) (s : Root) : Leaves c s s := fun _ _ _ h => .inl h

variable {s s' : Root} {path : List Text} {name : Name}

theorem shrinks_createAll (h : s.createAll name path = .ok s') : Shrinks s s' := by
  intro m p content hread
  obtain ⟨tree, ht, hall⟩ := Root.createAll_ok h
  obtain ⟨tree', htree', hr⟩ := Root.read_ok hread
  rw [hall] at htree'
  split at htree'
  · next hm =>
    subst hm
    obtain rfl := Option.some.inj htree'
    have hold := (Tree.read_createAll ht).mp hr
    cases hs : s.tree? m with
    | none =>
      -- a directory that was just made has no files
      rw [hs, Option.getD_none] at hold
      cases p with
      | nil => cases hold
      | cons n p =>
        rw [Tree.read_cons_none rfl] at hold
        cases hold
    | some old =>
      rw [hs, Option.getD_some] at hold
      rw [Root.read_eq hs, hold]
  · rw [Root.read_eq htree', hr]

theorem leaves_write {new written : List UInt8}
    (hp : written <+: new) (h : s.write name path written = .ok s') : Leaves (.write name path new) s s' := by
  intro m p content hread
  obtain ⟨old, tree, hold, ht, hall⟩ := Root.write_ok h
  obtain ⟨tree', htree', hr⟩ := Root.read_ok hread
  rw [hall] at htree'
  split at htree'
  · next hm =>
    subst hm
    obtain rfl := Option.some.inj htree'
    by_cases hpath : p = path
    · subst hpath
      obtain rfl := Except.ok.inj ((Tree.read_write_self ht).symm.trans hr)
      exact .inr ⟨rfl, rfl, hp⟩
    · exact .inl (by rw [Root.read_eq hold, (Tree.read_write_of_ne ht hpath).mp hr])
  · exact .inl (by rw [Root.read_eq htree', hr])

theorem leaves_rename {source target : Name} (h : s.rename source target = .ok s') :
    Leaves (.rename source target) s s' := by
  by_cases hne : source = target
  · subst hne
    rw [Root.rename] at h
    cases hl : s.entries.lookup source with
    | none =>
      rw [hl] at h
      cases h
    | some node =>
      simp only [hl, if_true] at h
      obtain rfl := Except.ok.inj h
      exact Leaves.same _ _
  · intro m p content hread
    obtain ⟨tree, ht, hall⟩ := Root.rename_ok hne h
    obtain ⟨tree', htree', hr⟩ := Root.read_ok hread
    rw [hall] at htree'
    split at htree'
    · next hm =>
      obtain rfl := Option.some.inj htree'
      exact .inr ⟨hm, by rw [Root.read_eq ht, hr]⟩
    · split at htree'
      · cases htree'
      · exact .inl (by rw [Root.read_eq htree', hr])

theorem shrinks_removeBelow (s : Root) (inode : ℕ) : Shrinks s (s.removeBelow inode) := by
  intro m p content hread
  obtain ⟨tree, ht, hr⟩ := Root.read_ok hread
  rcases Root.tree?_removeBelow (s := s) inode m with h | ⟨-, h⟩
  · rw [h] at ht
    rw [Root.read_eq ht, hr]
  · obtain rfl := Option.some.inj (h.symm.trans ht)
    cases p with
    | nil => cases hr
    | cons n p =>
      rw [Tree.read_cons_none rfl] at hr
      cases hr

theorem shrinks_erase {s : Root} {node : Node} (path : List Text) (hn : s.entries.lookup name = some node) :
    Shrinks s { s with entries := assign name { node with tree := node.tree.erase path } s.entries } := by
  intro m p content hread
  obtain ⟨tree, ht, hr⟩ := Root.read_ok hread
  rw [Root.tree?_assign] at ht
  split at ht
  · next hm =>
    subst hm
    obtain rfl := Option.some.inj ht
    have hs : s.tree? m = some node.tree := by rw [Root.tree?, hn]; rfl
    rw [Root.read_eq hs, Tree.read_erase hr]
  · rw [Root.read_eq ht, hr]

theorem shrinks_removeDirectory (h : s.removeDirectory name = .ok s') : Shrinks s s' := by
  intro m p content hread
  obtain ⟨tree, ht, hr⟩ := Root.read_ok hread
  rw [(Root.removeDirectory_ok h).2] at ht
  split at ht
  · cases ht
  · rw [Root.read_eq ht, hr]

theorem returns_read {v : Answer (.read name path)}
    (h : Returns (.read name path) s v s') : v = s.read name path ∨ ∃ e, v = .error e := by
  cases h with
  | exec => exact .inl rfl
  | fault => exact .inr ⟨_, rfl⟩

theorem returns_write {content : List UInt8}
    {u : Unit} (h : Returns (.write name path content) s (.ok u) s') : s'.read name path = .ok content := by
  generalize hv : (Except.ok u : Answer (.write name path content)) = v at h
  cases h with
  | fault => cases hv
  | exec =>
    rw [Root.exec] at hv ⊢
    cases hw : s.write name path content with
    | error e =>
      rw [hw] at hv
      cases hv
    | ok s' =>
      obtain ⟨old, tree, -, ht, hall⟩ := Root.write_ok hw
      have hn : s'.tree? name = some tree := by rw [hall, if_pos rfl]
      rw [Root.change, Root.read_eq hn, Tree.read_write_self ht]

theorem change_snd {P : Root → Prop} {s : Root} {x : Except IoError Root} (h : P s)
    (hx : ∀ s', x = .ok s' → P s') : P (s.change x).2 := by
  cases x with
  | error e => exact h
  | ok s' => exact hx s' rfl

theorem Returns.leaves {c : Call} {v : Answer c} (h : Returns c s v s') : Leaves c s s' := by
  cases h with
  | age => exact Leaves.same _ _
  | fault => exact Leaves.same _ _
  | exec =>
    cases c with
    | isDirectory | read | openDirectory | list | modified => exact Leaves.same _ _
    | createAll name path =>
      exact change_snd (Leaves.same _ _) fun s' hs _ _ _ hr => .inl (shrinks_createAll hs _ _ _ hr)
    | write name path content => exact change_snd (Leaves.same _ _) fun s' hs => leaves_write List.prefix_rfl hs
    | rename source target => exact change_snd (Leaves.same _ _) fun s' hs => leaves_rename hs
    | removeBelow inode => exact fun _ _ _ hr => .inl (shrinks_removeBelow s inode _ _ _ hr)
    | removeDirectory name =>
      exact change_snd (Leaves.same _ _) fun s' hs _ _ _ hr => .inl (shrinks_removeDirectory hs _ _ _ hr)

theorem GoesOn.leaves {c : Call} (h : GoesOn c s s') : Leaves c s s' := by
  cases h with
  | createAll hp h => exact fun _ _ _ hr => .inl (shrinks_createAll h _ _ _ hr)
  | write hp h => exact leaves_write hp h
  | removeBelow path hn hi => exact fun _ _ _ hr => .inl (shrinks_erase path hn _ _ _ hr)

/-! ### The invariant, and what the processes keep of it -/

/-- A content that some `put` was given, or the beginning of one. -/
def Given (started : List Request) (content : List UInt8) : Prop :=
  ∃ suffixes key entry, Request.put suffixes key entry ∈ started ∧
    ∃ a ∈ entry.artifacts, content <+: a.bytes

/-- No two contents of the run have one digest. -/
def CollisionFree (sha : List UInt8 → Digest) (started : List Request) : Prop :=
  ∀ b b', Given started b → Given started b' → sha b = sha b' → b = b'

/-- The bytes are the manifest of an entry, and read as such. -/
def ManifestOf (sha : List UInt8 → Digest) (entry : CachedModule) (bytes : List UInt8) : Prop :=
  bytes = toUtf8 ((manifestOf sha entry).render sha) ∧
    Manifest.parse sha ((manifestOf sha entry).render sha) = .ok (manifestOf sha entry)

/-- An entry's manifest is one that a `put` of its key wrote, and every file holds what a `put` was given. -/
structure StoreInv (sha : List UInt8 → Digest) (w : World Request Root) : Prop where
  manifest : ∀ key bytes, w.state.read (.entry key) [manifestName] = .ok bytes →
    ∃ suffixes entry, Request.put suffixes key entry ∈ w.started ∧ ManifestOf sha entry bytes
  files : ∀ name path content, w.state.read name (filesName :: path) = .ok content → Given w.started content

/-- Requests stay started, and nobody else writes the manifest that a request stages. -/
def StoreRely (r : Request) (w w' : World Request Root) : Prop :=
  w.started ⊆ w'.started ∧ ∀ name, r.staging? = some name → ∀ bytes,
    w'.state.read name [manifestName] = .ok bytes → w.state.read name [manifestName] = .ok bytes

variable {sha : List UInt8 → Digest}

/-- What a lookup promises: its hit is an entry that a `put` of the key was given. -/
def Promised (sha : List UInt8 → Digest) (r : Request) (a : Outcome) (started : List Request) : Prop :=
  ∀ key m, r = .get key → a = .looked (.ok (.ok m)) → CollisionFree sha started →
    ∃ suffixes, Request.put suffixes key m ∈ started

theorem Given.mono {started started' : List Request} {content : List UInt8} (h : Given started content)
    (hs : started ⊆ started') : Given started' content := by
  obtain ⟨suffixes, key, entry, hmem, ha⟩ := h
  exact ⟨suffixes, key, entry, hs hmem, ha⟩

theorem CollisionFree.anti {started started' : List Request} (h : CollisionFree sha started')
    (hs : started ⊆ started') : CollisionFree sha started :=
  fun b b' hb hb' he => h b b' (hb.mono hs) (hb'.mono hs) he

/-- The calls that a request may make in a state. -/
def Allowed (sha : List UInt8 → Digest) (r : Request) (w : World Request Root) : Call → Prop
  | .write name path new => r.staging? = some name ∧
      ((∃ rest, path = filesName :: rest ∧ Given w.started new) ∨ path = [manifestName])
  | .rename source target =>
      (∃ key suffix, target = .damaged key suffix) ∨
        ∃ suffixes key entry, Request.put suffixes key entry ∈ w.started ∧ target = .entry key ∧
          ∀ bytes, w.state.read source [manifestName] = .ok bytes → ManifestOf sha entry bytes
  | _ => True

variable {r : Request}

theorem staging_of_staging? (h : r.staging? = some name) :
    ∃ process key suffix, name = .staging process key suffix := by
  cases r with
  | put suffixes key entry => exact ⟨_, _, _, (Option.some.inj h).symm⟩
  | get key => cases h
  | gc maxAge => cases h

variable {w : World Request Root}

/-- An allowed call keeps the invariant and what the others rely on. -/
theorem guarantee_of_allowed {c : Call} {s : Root} (hi : StoreInv sha w)
    (ha : Allowed sha r w c) (hl : Leaves c w.state s) :
    ((storeSystem sha).contract (StoreInv sha) StoreRely r).guarantee w { w with state := s } := by
  refine ⟨⟨?_, ?_⟩, ?_⟩
  · intro key bytes hread
    rcases hl _ _ _ hread with h | h
    · exact hi.manifest key bytes h
    · cases c with
      | write name path new =>
        obtain ⟨process, key', suffix, hn⟩ := staging_of_staging? ha.1
        rw [hn] at h
        cases h.1
      | rename source target =>
        rcases ha with ⟨key', suffix, ht⟩ | ⟨suffixes, key', entry, hput, ht, hbytes⟩
        · rw [ht] at h
          cases h.1
        · rw [ht] at h
          obtain rfl := Name.entry.inj h.1
          exact ⟨suffixes, entry, hput, hbytes bytes h.2⟩
      | isDirectory | read | createAll | openDirectory | removeBelow | removeDirectory | list | modified =>
        exact h.elim
  · intro name path content hread
    rcases hl _ _ _ hread with h | h
    · exact hi.files name path content h
    · cases c with
      | write name' path' new =>
        rcases ha.2 with ⟨rest, hp, suffixes, key, entry, hput, a, ha, hpre⟩ | hp
        · exact ⟨suffixes, key, entry, hput, a, ha, h.2.2.trans hpre⟩
        · exact absurd (List.cons.inj (h.2.1.trans hp)).1 filesName_ne
      | rename source target => exact hi.files source path content h.2
      | isDirectory | read | createAll | openDirectory | removeBelow | removeDirectory | list | modified =>
        exact h.elim
  · intro q hapart
    refine ⟨List.Subset.refl _, fun name hname bytes hread => ?_⟩
    obtain ⟨process, key, suffix, hn⟩ := staging_of_staging? hname
    rcases hl _ _ _ hread with h | h
    · exact h
    · cases c with
      | write name' path' new =>
        obtain ⟨rfl, -, -⟩ := h
        exact absurd hname (hapart name ha.1)
      | rename source target =>
        obtain ⟨rfl, -⟩ := h
        rcases ha with ⟨_, _, ht⟩ | ⟨_, _, _, -, ht, -⟩
        · rw [hn] at ht
          cases ht
        · rw [hn] at ht
          cases ht
      | isDirectory | read | createAll | openDirectory | removeBelow | removeDirectory | list | modified =>
        exact h.elim

/-- The contract of a request of the store. -/
abbrev storeContract (sha : List UInt8 → Digest) (r : Request) : Contract Request Root :=
  (storeSystem sha).contract (StoreInv sha) StoreRely r

variable {α : Type} {post : α → World Request Root → Prop}

/-- A call that a known fact allows, and what follows it. -/
theorem safe_perform_knowing {Q : World Request Root → Prop} (c : Call) {next : Answer c → Calls α} (hq : Q w)
    (hrely : ∀ w w', Q w → StoreRely r w w' → Q w')
    (hown : ∀ w s, Q w → GoesOn c w.state s → Q { w with state := s })
    (hallowed : ∀ w, Q w → Allowed sha r w c)
    (hnext : ∀ w v s, StoreInv sha w → Q w → Returns c w.state v s → StoreInv sha { w with state := s } →
      (storeContract sha r).Safe (storeSystem sha) post (next v) { w with state := s }) :
    (storeContract sha r).Safe (storeSystem sha) post (Program.perform c >>= next) w := by
  change (storeContract sha r).Safe (storeSystem sha) post (.call c next) w
  refine Contract.Safe.call (Q := Q) hq hrely hown ?_ ?_
  · exact fun w s hi h hs => guarantee_of_allowed hi (hallowed w h) (GoesOn.leaves hs)
  · intro w v s hi h hs
    have hg := guarantee_of_allowed hi (hallowed w h) (Returns.leaves hs)
    exact ⟨hg, hnext w v s hi h hs hg.1⟩

/-- A call that is allowed whenever some requests are started, and what follows it. -/
theorem safe_perform {L : List Request} (c : Call) {next : Answer c → Calls α} (hL : L ⊆ w.started)
    (hallowed : ∀ w, L ⊆ w.started → Allowed sha r w c)
    (hnext : ∀ w v s, StoreInv sha w → L ⊆ w.started → Returns c w.state v s →
      StoreInv sha { w with state := s } →
      (storeContract sha r).Safe (storeSystem sha) post (next v) { w with state := s }) :
    (storeContract sha r).Safe (storeSystem sha) post (Program.perform c >>= next) w :=
  safe_perform_knowing (Q := fun w => L ⊆ w.started) c hL
    (fun _ _ h hrely => List.Subset.trans h hrely.1) (fun _ _ h _ => h) hallowed hnext

/-- A result, promised by requests that are started. -/
theorem safe_done {L : List Request} {a : α} (hL : L ⊆ w.started) (h : ∀ w, L ⊆ w.started → post a w) :
    (storeContract sha r).Safe (storeSystem sha) post (.done a) w :=
  Contract.Safe.ret (Q := fun w => L ⊆ w.started) hL (fun _ _ h hrely => List.Subset.trans h hrely.1) fun w _ hQ => h w hQ

/-! ### The programs are safe -/

variable {r : Request} {L : List Request} {w : World Request Root}

/-- That some requests are started is all that is known. -/
abbrev Known (L : List Request) : α → World Request Root → Prop := fun _ w => L ⊆ w.started

theorem safe_isDir (hL : L ⊆ w.started) :
    (storeContract sha r).Safe (storeSystem sha) (Known L) (isDir name) w := by
  refine safe_perform (.isDirectory name) hL (fun _ _ => trivial) fun w v s _ hL _ _ => ?_
  cases v with
  | error e => exact safe_done (L := L) hL fun _ h => h
  | ok answer => exact safe_done (L := L) hL fun _ h => h

theorem safe_removeDirAll (hL : L ⊆ w.started) :
    (storeContract sha r).Safe (storeSystem sha) (Known L) (removeDirAll name) w := by
  refine safe_perform (.openDirectory name) hL (fun _ _ => trivial) fun w v s _ hL _ _ => ?_
  cases v with
  | error e => exact safe_done (L := L) hL fun _ h => h
  | ok inode =>
    refine safe_perform (.removeBelow inode) hL (fun _ _ => trivial) fun w v s _ hL _ _ => ?_
    cases v with
    | error e => exact safe_done (L := L) hL fun _ h => h
    | ok _ =>
      refine safe_perform (.removeDirectory name) hL (fun _ _ => trivial) fun w v s _ hL _ _ => ?_
      exact safe_done (L := L) hL fun _ h => h

/-- Reading the records of an entry's artifacts gives those artifacts, or some digests collide. -/
theorem safe_readRecords (sha : List UInt8 → Digest) (dir : Name) (artifacts : List Artifact) (hL : L ⊆ w.started)
    (hgiven : ∀ a ∈ artifacts, Given L a.bytes) :
    (storeContract sha r).Safe (storeSystem sha)
      (fun answer w => L ⊆ w.started ∧ ∀ found, answer = .ok (.ok found) → CollisionFree sha w.started →
        found = artifacts) (readRecords sha dir (artifacts.map (recordOf sha))) w := by
  induction artifacts generalizing w L with
  | nil =>
    refine safe_done (L := L) hL fun w hL => ⟨hL, fun found hf _ => ?_⟩
    exact (Except.ok.inj (Except.ok.inj hf)).symm
  | cons a artifacts ih =>
    rw [List.map_cons, readRecords]
    cases hrel : safeRelativePath (recordOf sha a).path with
    | none => exact safe_done (L := L) hL fun w hL => ⟨hL, fun _ h => by cases h⟩
    | some relative =>
      refine safe_perform (.read dir (filesName :: relative)) hL (fun _ _ => trivial)
        fun w v s hi hL hret hi' => ?_
      cases v with
      | error e => cases e <;> exact safe_done (L := L) hL fun w hL => ⟨hL, fun _ h => by cases h⟩
      | ok bytes =>
        have hread : w.state.read dir (filesName :: relative) = .ok bytes := by
          rcases returns_read hret with h | ⟨e, h⟩
          · exact h.symm
          · cases h
        have hbytes : Given w.started bytes := hi.files dir relative bytes hread
        by_cases hb : bytes.length = (recordOf sha a).length.toNat ∧ sha bytes = (recordOf sha a).content
        · simp only [dif_pos hb]
          -- what was read is known to be given from here on
          have hrest := ih (w := { w with state := s }) (L := w.started) (List.Subset.refl _)
            fun b hb => (hgiven b (List.mem_cons_of_mem _ hb)).mono hL
          refine Contract.Safe.bind hrest hi' (fun _ _ hg => hg.1) fun answer w' hi' hpost => ?_
          obtain ⟨hL', hanswer⟩ := hpost
          cases answer with
          | error f => exact safe_done (L := L) (List.Subset.trans hL hL') fun w hL => ⟨hL, fun _ h => by cases h⟩
          | ok answer =>
          cases answer with
          | error reason =>
            exact safe_done (L := L) (List.Subset.trans hL hL') fun w hL => ⟨hL, fun _ h => by cases h⟩
          | ok found =>
            refine Contract.Safe.ret (Q := fun w'' => w'.started ⊆ w''.started) (List.Subset.refl _)
              (fun _ _ h hrely => List.Subset.trans h hrely.1) fun w'' _ hsub => ?_
            refine ⟨List.Subset.trans (List.Subset.trans hL hL') hsub, fun found' hf hfree => ?_⟩
            obtain rfl := (Except.ok.inj (Except.ok.inj hf)).symm
            have ha : bytes = a.bytes := hfree bytes a.bytes
              (hbytes.mono (List.Subset.trans hL' hsub))
              ((hgiven a (List.mem_cons_self ..)).mono (List.Subset.trans (List.Subset.trans hL hL') hsub)) hb.2
            obtain ⟨path, content, fits⟩ := a
            obtain rfl : bytes = content := ha
            rw [hanswer found rfl (hfree.anti hsub)]
            rfl
        · simp only [dif_neg hb]
          exact safe_done (L := L) hL fun w hL => ⟨hL, fun _ h => by cases h⟩

variable {key : CacheKey}

/-- A lookup's hit is an entry that a `put` of the key was given, or some digests collide. -/
theorem safe_get (hL : L ⊆ w.started) : (storeContract sha r).Safe (storeSystem sha)
      (fun answer w => L ⊆ w.started ∧ ∀ m, answer = .ok (.ok m) → CollisionFree sha w.started →
        ∃ suffixes, Request.put suffixes key m ∈ w.started) (get sha key) w := by
  refine safe_perform (.isDirectory (.entry key)) hL (fun _ _ => trivial) fun w v s hi hL _ hi' => ?_
  cases v with
  | error e => exact safe_done (L := L) hL fun w hL => ⟨hL, nofun⟩
  | ok answer =>
    cases answer with
    | false => exact safe_done (L := L) hL fun w hL => ⟨hL, nofun⟩
    | true =>
      refine safe_perform (.read (.entry key) [manifestName]) (w := { w with state := s }) hL (fun _ _ => trivial)
        fun w v s hi hL hret hi' => ?_
      cases v with
      | error e => cases e <;> exact safe_done (L := L) hL fun w hL => ⟨hL, nofun⟩
      | ok bytes =>
        have hread : w.state.read (.entry key) [manifestName] = .ok bytes := by
          rcases returns_read hret with h | ⟨e, h⟩
          · exact h.symm
          · cases h
        obtain ⟨suffixes, entry, hput, rfl, hparse⟩ := hi.manifest key bytes hread
        simp only [fromUtf8_toUtf8, hparse]
        have hrecords := safe_readRecords sha (.entry key) entry.artifacts (r := r)
          (w := { w with state := s }) (L := w.started) (List.Subset.refl _)
          fun a ha => ⟨suffixes, key, entry, hput, a, ha, List.prefix_rfl⟩
        refine Contract.Safe.bind hrecords hi' (fun _ _ hg => hg.1) fun answer w' hi' hpost => ?_
        obtain ⟨hL', hanswer⟩ := hpost
        match answer with
        | .error f => exact safe_done (L := L) (List.Subset.trans hL hL') fun w hL => ⟨hL, nofun⟩
        | .ok (.error reason) => exact safe_done (L := L) (List.Subset.trans hL hL') fun w hL => ⟨hL, nofun⟩
        | .ok (.ok found) =>
          refine Contract.Safe.ret (Q := fun w'' => w'.started ⊆ w''.started) (List.Subset.refl _)
            (fun _ _ h hrely => List.Subset.trans h hrely.1) fun w'' _ hsub => ?_
          refine ⟨List.Subset.trans (List.Subset.trans hL hL') hsub, fun m hm hfree => ?_⟩
          obtain rfl := (Except.ok.inj (Except.ok.inj hm)).symm
          rw [hanswer found rfl (hfree.anti hsub)]
          exact ⟨suffixes, hsub (hL' hput)⟩

variable {suffixes : Suffixes}

theorem safe_writeArtifacts (sha : List UInt8 → Digest) (artifacts : List Artifact)
    (hr : r.staging? = some (.staging suffixes.process key suffixes.staging)) (hL : L ⊆ w.started)
    (hi : StoreInv sha w) (hgiven : ∀ a ∈ artifacts, Given L a.bytes) :
    (storeContract sha r).Safe (storeSystem sha)
      (fun answer w => L ⊆ w.started ∧ ∀ files, answer = .ok files → files = artifacts.map (recordOf sha) ∧
        ∀ a ∈ artifacts, (safeRelativePath a.path).isSome)
      (writeArtifacts sha (.staging suffixes.process key suffixes.staging) artifacts) w := by
  induction artifacts generalizing w with
  | nil =>
    refine safe_done (L := L) hL fun w hL => ⟨hL, fun files hf => ?_⟩
    exact ⟨(Except.ok.inj hf).symm, fun _ h => absurd h List.not_mem_nil⟩
  | cons a artifacts ih =>
    rw [writeArtifacts]
    cases hrel : safeRelativePath a.path with
    | none =>
      refine Contract.Safe.bind (safe_removeDirAll hL) hi (fun _ _ hg => hg.1) fun _ w' _ hL => ?_
      exact safe_done (L := L) hL fun w hL => ⟨hL, fun _ h => by cases h⟩
    | some relative =>
      refine safe_perform (.createAll _ _) hL (fun _ _ => trivial) fun w v s _ hL _ _ => ?_
      cases v with
      | error e => exact safe_done (L := L) hL fun w hL => ⟨hL, fun _ h => by cases h⟩
      | ok _ =>
        refine safe_perform (.write _ (filesName :: relative) a.bytes) (w := { w with state := s }) hL
          (fun _ hL => ⟨hr, .inl ⟨relative, rfl, (hgiven a (List.mem_cons_self ..)).mono hL⟩⟩)
          fun w v s _ hL _ hi' => ?_
        cases v with
        | error e => exact safe_done (L := L) hL fun w hL => ⟨hL, fun _ h => by cases h⟩
        | ok _ =>
          have hrest := ih (w := { w with state := s }) hL hi' fun b hb => hgiven b (List.mem_cons_of_mem _ hb)
          refine Contract.Safe.bind hrest hi' (fun _ _ hg => hg.1) fun answer w' _ hpost => ?_
          obtain ⟨hL', hanswer⟩ := hpost
          cases answer with
          | error f => exact safe_done (L := L) hL' fun w hL => ⟨hL, fun _ h => by cases h⟩
          | ok records =>
            refine safe_done (L := L) hL' fun w hL => ⟨hL, fun files hf => ?_⟩
            obtain ⟨rfl, hsome⟩ := hanswer records rfl
            obtain rfl := (Except.ok.inj hf).symm
            refine ⟨rfl, fun b hb => ?_⟩
            rcases List.mem_cons.mp hb with rfl | hb
            · rw [hrel]
              rfl
            · exact hsome b hb

variable {entry : CachedModule}

/-- Publishing the staged directory, whose manifest is known if it is still there. -/
theorem safe_publish (hr : r.staging? = some (.staging suffixes.process key suffixes.staging))
    (hput : Request.put suffixes key entry ∈ L) (hL : L ⊆ w.started)
    (hm : ∀ bytes, w.state.read (.staging suffixes.process key suffixes.staging) [manifestName] = .ok bytes →
      ManifestOf sha entry bytes) :
    (storeContract sha r).Safe (storeSystem sha) (Known L)
      (publish (.staging suffixes.process key suffixes.staging) (.entry key)) w := by
  let staging : Name := .staging suffixes.process key suffixes.staging
  let Q (w : World Request Root) : Prop := L ⊆ w.started ∧
    ∀ bytes, w.state.read staging [manifestName] = .ok bytes → ManifestOf sha entry bytes
  refine safe_perform_knowing (Q := Q) (.rename staging (.entry key)) ⟨hL, hm⟩ ?_ ?_ ?_ ?_
  · exact fun w w' hQ hrely => ⟨List.Subset.trans hQ.1 hrely.1, fun bytes hb => hQ.2 bytes (hrely.2 _ hr bytes hb)⟩
  · intro w s _ hs
    cases hs
  · exact fun w hQ => .inr ⟨suffixes, key, entry, hQ.1 hput, rfl, hQ.2⟩
  · intro w v s _ hQ _ hi'
    have hL := hQ.1
    cases v with
    | ok _ => exact safe_done (L := L) hL fun _ h => h
    | error e =>
      refine Contract.Safe.bind (safe_isDir hL) hi' (fun _ _ hg => hg.1) fun answer w' hi' hL => ?_
      cases answer <;>
        exact Contract.Safe.bind (safe_removeDirAll hL) hi' (fun _ _ hg => hg.1) fun _ w' _ hL =>
          safe_done (L := L) hL fun _ h => h

theorem safe_stage (hr : r.staging? = some (.staging suffixes.process key suffixes.staging))
    (hput : Request.put suffixes key entry ∈ L) (hL : L ⊆ w.started) (hi : StoreInv sha w) :
    (storeContract sha r).Safe (storeSystem sha) (Known L) (stage sha suffixes key entry) w := by
  refine Contract.Safe.bind (safe_removeDirAll hL) hi (fun _ _ hg => hg.1) fun _ w hi hL => ?_
  refine safe_perform (.createAll _ [filesName]) hL (fun _ _ => trivial) fun w v s _ hL _ hi' => ?_
  cases v with
  | error e => exact safe_done (L := L) hL fun _ h => h
  | ok _ =>
    by_cases hcap : capacityOverflows entry.artifacts.length
    · simp only [if_pos hcap]
      exact safe_done (L := L) hL fun _ h => h
    simp only [if_neg hcap]
    have hwrite := safe_writeArtifacts sha entry.artifacts (w := { w with state := s })
      hr hL hi' fun a ha => ⟨suffixes, key, entry, hput, a, ha, List.prefix_rfl⟩
    refine Contract.Safe.bind hwrite hi' (fun _ _ hg => hg.1) fun answer w hi hpost => ?_
    obtain ⟨hL, hanswer⟩ := hpost
    cases answer with
    | error f => exact safe_done (L := L) hL fun _ h => h
    | ok files =>
      obtain ⟨rfl, hpaths⟩ := hanswer files rfl
      have hparse := parse_manifestOf sha hpaths hcap
      refine safe_perform (.write _ [manifestName] (toUtf8 ((manifestOf sha entry).render sha))) hL
        (fun _ _ => ⟨hr, .inr rfl⟩) fun w v s _ hL hret _ => ?_
      cases v with
      | error e => exact safe_done (L := L) hL fun _ h => h
      | ok _ =>
        refine safe_publish hr hput hL fun bytes hb => ?_
        have hwritten : s.read (.staging suffixes.process key suffixes.staging) [manifestName] =
            .ok (toUtf8 ((manifestOf sha entry).render sha)) := returns_write hret
        exact ⟨Except.ok.inj (hb.symm.trans hwritten), hparse⟩

theorem safe_put (hr : r.staging? = some (.staging suffixes.process key suffixes.staging))
    (hput : Request.put suffixes key entry ∈ L) (hL : L ⊆ w.started) (hi : StoreInv sha w) :
    (storeContract sha r).Safe (storeSystem sha) (Known L) (put sha suffixes key entry) w := by
  refine Contract.Safe.bind (safe_isDir hL) hi (fun _ _ hg => hg.1) fun answer w hi hL => ?_
  cases answer with
  | false => exact safe_stage hr hput hL hi
  | true =>
    refine Contract.Safe.bind (safe_get hL) hi (fun _ _ hg => hg.1) fun answer w hi hpost => ?_
    obtain ⟨hL, -⟩ := hpost
    match answer with
    | .ok (.ok m) => exact safe_done (L := L) hL fun _ h => h
    | .error f => exact safe_done (L := L) hL fun _ h => h
    | .ok (.error reason) =>
      refine safe_perform (.rename (.entry key) (.damaged key suffixes.damaged)) hL
        (fun _ _ => .inl ⟨_, _, rfl⟩) fun w v s _ hL _ hi' => ?_
      cases v with
      | ok _ => exact safe_stage hr hput hL hi'
      | error e =>
        refine Contract.Safe.bind (safe_isDir hL) hi' (fun _ _ hg => hg.1) fun answer w hi hL => ?_
        cases answer with
        | false => exact safe_stage hr hput hL hi
        | true => exact safe_done (L := L) hL fun _ h => h

theorem safe_sweep {maxAge removed : ℕ} {names : List Name} (hL : L ⊆ w.started) (hi : StoreInv sha w) :
    (storeContract sha r).Safe (storeSystem sha) (Known L) (sweep maxAge names removed) w := by
  induction names generalizing w removed with
  | nil => exact safe_done (L := L) hL fun _ h => h
  | cons name names ih =>
    have hleft : ∀ (w : World Request Root) (removed : ℕ), L ⊆ w.started → StoreInv sha w →
        (storeContract sha r).Safe (storeSystem sha) (Known L)
          (removeDirAll name >>= fun _ => sweep maxAge names removed) w := fun w removed hL hi =>
      Contract.Safe.bind (safe_removeDirAll hL) hi (fun _ _ hg => hg.1) fun _ w hi hL => ih hL hi
    cases name with
    | staging process key suffix => exact hleft _ _ hL hi
    | damaged key suffix => exact hleft _ _ hL hi
    | entry _ | other _ =>
      refine safe_perform (.modified _) hL (fun _ _ => trivial) fun w v s _ hL _ hi' => ?_
      cases v with
      | error e => exact hleft _ _ hL hi'
      | ok modified =>
      cases modified with
      | none => exact ih hL hi'
      | some age =>
        by_cases hage : maxAge < age
        · simp only [if_pos hage]
          refine Contract.Safe.bind (safe_removeDirAll hL) hi' (fun _ _ hg => hg.1) fun answer w hi hL => ?_
          cases answer with
          | error e => exact safe_done (L := L) hL fun _ h => h
          | ok _ => exact ih hL hi
        · simp only [if_neg hage]
          exact ih hL hi'

theorem safe_gcOlderThan {maxAge : ℕ} (hL : L ⊆ w.started) :
    (storeContract sha r).Safe (storeSystem sha) (Known L) (gcOlderThan maxAge) w := by
  refine safe_perform .list hL (fun _ _ => trivial) fun w v s _ hL _ hi' => ?_
  cases v with
  | error e => exact safe_done (L := L) hL fun _ h => h
  | ok names => exact safe_sweep hL hi'

/-! ### Every run -/

theorem storeSystem_safe (sha : List UInt8 → Digest) :
    (storeSystem sha).Safe (StoreInv sha) StoreRely (Promised sha) where
  start_inv r w hi := by
    refine ⟨fun key bytes h => ?_, fun name path content h => ?_⟩
    · obtain ⟨suffixes, entry, hput, hm⟩ := hi.manifest key bytes h
      exact ⟨suffixes, entry, List.mem_cons_of_mem _ hput, hm⟩
    · exact (hi.files name path content h).mono (List.subset_cons_self _ _)
  start_rely r q w := ⟨List.subset_cons_self _ _, fun _ _ _ h => h⟩
  start_promise r q a started h := by
    intro key m hq ha hfree
    obtain ⟨suffixes, hput⟩ := h key m hq ha (hfree.anti (List.subset_cons_self _ _))
    exact ⟨suffixes, List.mem_cons_of_mem _ hput⟩
  program r w hi hr := by
    cases r with
    | get key =>
      refine Contract.Safe.bind (safe_get (List.Subset.refl w.started)) hi (fun _ _ hg => hg.1)
        fun answer w' _ hpost => ?_
      refine Contract.Safe.ret (Q := fun w'' => w'.started ⊆ w''.started) (List.Subset.refl _)
        (fun _ _ h hrely => List.Subset.trans h hrely.1) fun w'' _ hsub => ?_
      intro key' m hkey hm hfree
      obtain rfl := Request.get.inj hkey
      obtain ⟨suffixes, hput⟩ := hpost.2 m (Outcome.looked.inj hm) (hfree.anti hsub)
      exact ⟨suffixes, hsub hput⟩
    | put suffixes key entry =>
      refine Contract.Safe.bind (safe_put rfl hr (List.Subset.refl w.started) hi) hi (fun _ _ hg => hg.1)
        fun answer w' _ hL => ?_
      exact safe_done (L := w.started) hL fun _ _ => nofun
    | gc maxAge =>
      refine Contract.Safe.bind (safe_gcOlderThan (List.Subset.refl w.started)) hi (fun _ _ hg => hg.1)
        fun answer w' _ hL => ?_
      exact safe_done (L := w.started) hL fun _ _ => nofun

/-- In every run from an empty store, a hit is an entry that a `put` of its key was given. -/
theorem hit_was_put {c : Pool Request Call Answer Root Outcome}
    (h : (storeSystem sha).Reachable Root.empty c) (hfree : CollisionFree sha c.world.started)
    {m : CachedModule} (hm : (Request.get key, Outcome.looked (.ok (.ok m))) ∈ c.returned) :
    ∃ suffixes, Request.put suffixes key m ∈ c.world.started := by
  have hempty : StoreInv sha { started := [], state := Root.empty } := ⟨nofun, nofun⟩
  exact (System.reachable_kept (storeSystem_safe sha) hempty h).promised _ hm key m rfl rfl hfree

/-- An entry whose manifest is one byte that no UTF-8 text has. -/
def brokenManifest : Root where
  entries := [(.entry ⟨zeroDigest⟩, { inode := 0, tree := .directory [(manifestName, .file [0xff])] })]
  next := 1

end Krusty.Build.Store
