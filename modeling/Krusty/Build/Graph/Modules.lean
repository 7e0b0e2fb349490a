import Krusty.Build.CacheKey
import Krusty.Lib.SortedSets
import Mathlib.Data.Char
import Mathlib.Data.List.Lex

/-! The module graph: its modules, how they are put in, and what must hold before it is planned. -/
namespace Krusty.Build.Graph

open Strings

/-- A component of a path, as `Path::components` yields it on Unix. -/
inductive Component where
  | rootDir
  | curDir
  | parentDir
  | normal (part : Text)
  deriving DecidableEq

abbrev Path := List Component

namespace Path

def hasRoot (self : Path) : Bool := self.head? = some .rootDir

def isAbsolute (self : Path) : Bool := hasRoot self

def join (base path : Path) : Path := if isAbsolute path then path else base ++ path

/-- `parent`, of which only the presence is read. -/
def hasParent (self : Path) : Bool :=
  match self.getLast? with
  | none => false
  | some .rootDir => false
  | some _ => true

def lexicalNormalize (path : Path) : Path :=
  path.foldl (fun normalized component =>
    match component with
    | .curDir => normalized
    | .parentDir =>
      match normalized.getLast? with
      | some (.normal _) => normalized.dropLast
      | some .parentDir => if hasRoot path then normalized else normalized ++ [.parentDir]
      | none => if hasRoot path then normalized else normalized ++ [.parentDir]
      | _ => normalized
    | .rootDir => [.rootDir]
    | .normal part => normalized ++ [.normal part]) []

def overlap (first second : Path) : Bool := second.isPrefixOf first || first.isPrefixOf second

end Path

inductive ModuleOutput where
  | classDirectory (path : Path)
  | jar (path : Path)
  deriving DecidableEq

namespace ModuleOutput

def path : ModuleOutput → Path
  | classDirectory p => p
  | jar p => p

def map (f : Path → Path) : ModuleOutput → ModuleOutput
  | classDirectory p => .classDirectory (f p)
  | jar p => .jar (f p)

end ModuleOutput

/-- One compilation unit: what the graph reads of it. -/
structure Module where
  id : Option ModuleId
  displayName : Text
  baseDirectory : Path
  sourceRoots : List Path
  resources : List Path
  javaSources : List Path
  classpath : List Path
  friendPaths : List Path
  dependsOn : List ModuleId
  outputs : List ModuleOutput
  jdkHome : Option Path
  processorPath : List Path
  deriving DecidableEq

/-- Every relative path resolved against the base directory, which must be absolute. -/
def Module.normalizePaths (self : Module) : Except Path Module :=
  if Path.isAbsolute self.baseDirectory then
    let base := Path.lexicalNormalize self.baseDirectory
    let resolve := fun path => Path.lexicalNormalize (Path.join base path)
    .ok { self with
      baseDirectory := base
      sourceRoots := self.sourceRoots.map resolve
      resources := self.resources.map resolve
      javaSources := self.javaSources.map resolve
      classpath := self.classpath.map resolve
      friendPaths := self.friendPaths.map resolve
      processorPath := self.processorPath.map resolve
      outputs := self.outputs.map (ModuleOutput.map resolve)
      jdkHome := self.jdkHome.map resolve }
  else .error self.baseDirectory

inductive GraphError where
  | unknownDependency (module dependency : ModuleId)
  | cycle (cycle : List ModuleId)
  | duplicateModule (module : ModuleId)
  | missingId (displayName : Text)
  | relativeBaseDirectory (module : ModuleId) (base : Path)
  | overlappingOutputs (firstModule : ModuleId) (firstOutput : Path) (secondModule : ModuleId) (secondOutput : Path)
  | filesystemRootOutput (module : ModuleId) (output : Path)
  | outputOverlapsInput (outputModule : ModuleId) (output : Path) (inputModule : ModuleId) (input : Path)
  | friendOwnerNotDependency (module : ModuleId) (friendPath : Path) (owner : ModuleId)
  deriving DecidableEq

/-- The members of `list` that are new, beside those of `seen`, at their first occurrence. -/
def retainNew (seen : List ModuleId) : List ModuleId → List ModuleId
  | [] => []
  | dependency :: list =>
    if dependency ∈ seen then retainNew seen list else dependency :: retainNew (dependency :: seen) list

theorem mem_retainNew {seen list : List ModuleId} {a : ModuleId} :
    a ∈ retainNew seen list ↔ a ∈ list ∧ a ∉ seen := by
  induction list generalizing seen with
  | nil => simp [retainNew]
  | cons b list ih =>
    rw [retainNew]
    split_ifs with hb
    · rw [ih, List.mem_cons]
      constructor
      · exact fun h => ⟨.inr h.1, h.2⟩
      · intro h
        cases h.1 with
        | inl hab => exact absurd (hab ▸ hb) h.2
        | inr hmem => exact ⟨hmem, h.2⟩
    · rw [List.mem_cons, ih, List.mem_cons, List.mem_cons, not_or]
      by_cases hab : a = b
      · simp [hab, hb]
      · simp [hab]

theorem nodup_retainNew (seen list : List ModuleId) : (retainNew seen list).Nodup := by
  induction list generalizing seen with
  | nil => exact .nil
  | cons b list ih =>
    rw [retainNew]
    split_ifs
    · exact ih seen
    · apply List.nodup_cons.mpr
      constructor
      · intro hmem
        exact (mem_retainNew.mp hmem).2 List.mem_cons_self
      · exact ih (b :: seen)

/-- Modules in the order of their ids, each dependency declared once. -/
structure ModuleGraph where
  modules : List (ModuleId × Module)
  sorted : (modules.map Prod.fst).Pairwise (· < ·)
  declared_once : ∀ e ∈ modules, e.2.dependsOn.Nodup

namespace ModuleGraph

def new : ModuleGraph := ⟨[], .nil, fun _ h => absurd h List.not_mem_nil⟩

def containsKey (self : ModuleGraph) (id : ModuleId) : Bool := id ∈ self.modules.map Prod.fst

/-- The module under its id, each dependency once. -/
def put (self : ModuleGraph) (id : ModuleId) (module : Module) : ModuleGraph where
  modules := SortedSets.insertEntry id { module with dependsOn := retainNew [] module.dependsOn } self.modules
  sorted := by
    rw [SortedSets.keys_insertEntry]
    exact SortedSets.pairwise_insert self.sorted
  declared_once := by
    intro e he
    cases SortedSets.mem_of_mem_insertEntry he with
    | inl he =>
      rw [he]
      exact nodup_retainNew [] module.dependsOn
    | inr he => exact self.declared_once e he

def insert (self : ModuleGraph) (module : Module) : Except GraphError ModuleGraph :=
  match module.id with
  | none => .error (.missingId module.displayName)
  | some id =>
    if self.containsKey id then .error (.duplicateModule id)
    else
      match module.normalizePaths with
      | .error base => .error (.relativeBaseDirectory id base)
      | .ok module => .ok (self.put id module)

def get (self : ModuleGraph) (id : ModuleId) : Option Module := self.modules.lookup id

/-- Direct dependencies, in declaration order. -/
def directDependencies (self : ModuleGraph) (id : ModuleId) : List ModuleId :=
  ((self.get id).map Module.dependsOn).getD []

/-! What `validate` checks, one loop after another. -/

def checkDependencies (self : ModuleGraph) : Except GraphError Unit :=
  self.modules.forM fun (id, module) => module.dependsOn.forM fun dependency =>
    if self.containsKey dependency then .ok () else .error (.unknownDependency id dependency)

def addOutput (module : ModuleId) (outputs : List (ModuleId × Path)) (output : ModuleOutput) :
    Except GraphError (List (ModuleId × Path)) :=
  if !Path.hasParent output.path then .error (.filesystemRootOutput module output.path)
  else
    match outputs.find? fun (_, otherPath) => Path.overlap output.path otherPath with
    | some (otherModule, otherPath) => .error (.overlappingOutputs otherModule otherPath module output.path)
    | none => .ok (outputs ++ [(module, output.path)])

def collectOutputs (self : ModuleGraph) : Except GraphError (List (ModuleId × Path)) :=
  self.modules.foldlM (fun outputs (module, declaration) => declaration.outputs.foldlM (addOutput module) outputs) []

def protectedInputs (declaration : Module) : List Path :=
  declaration.sourceRoots ++ declaration.resources ++ declaration.javaSources ++ declaration.processorPath ++
    declaration.jdkHome.toList

def checkInput (outputModule : ModuleId) (output : Path) (inputModule : ModuleId) (input : Path) :
    Except GraphError Unit :=
  if Path.overlap output input then .error (.outputOverlapsInput outputModule output inputModule input) else .ok ()

/-- A classpath or friend root may be the output of a module. -/
def checkInputs (self : ModuleGraph) (outputs : List (ModuleId × Path)) : Except GraphError Unit :=
  outputs.forM fun (outputModule, output) => self.modules.forM fun (inputModule, declaration) => do
    (protectedInputs declaration).forM (checkInput outputModule output inputModule)
    (declaration.classpath ++ declaration.friendPaths).forM fun input =>
      if outputs.any fun (_, declaredOutput) => declaredOutput = input then .ok ()
      else checkInput outputModule output inputModule input

def checkFriends (self : ModuleGraph) (outputs : List (ModuleId × Path)) : Except GraphError Unit :=
  self.modules.forM fun (module, declaration) => declaration.friendPaths.forM fun friendPath =>
    match outputs.find? fun (_, output) => output = friendPath with
    | none => .ok ()
    | some (owner, _) =>
      if owner ≠ module && !declaration.dependsOn.contains owner then
        .error (.friendOwnerNotDependency module friendPath owner)
      else .ok ()

def validate (self : ModuleGraph) : Except GraphError Unit := do
  self.checkDependencies
  let outputs ← self.collectOutputs
  self.checkInputs outputs
  self.checkFriends outputs

end ModuleGraph

/-! ### What is put in -/

theorem forM_ok {α ε : Type} {f : α → Except ε Unit} {list : List α} (h : list.forM f = .ok ()) :
    ∀ a ∈ list, f a = .ok () := by
  induction list with
  | nil => exact fun a ha => absurd ha List.not_mem_nil
  | cons b list ih =>
    intro a ha
    replace h : (f b >>= fun _ => list.forM f) = .ok () := h
    cases hb : f b with
    | error e =>
      rw [hb] at h
      cases h
    | ok _ =>
      rw [hb] at h
      cases ha with
      | head => exact hb
      | tail _ ha => exact ih h a ha

namespace ModuleGraph

/-- The entry that a module becomes, if it has an id and an absolute base directory. -/
def entry (module : Module) : Option (ModuleId × Module) := do
  let id ← module.id
  let module ← module.normalizePaths.toOption
  some (id, { module with dependsOn := retainNew [] module.dependsOn })

def insertAll (self : ModuleGraph) (modules : List Module) : Except GraphError ModuleGraph :=
  modules.foldlM insert self

variable {self other : ModuleGraph}

@[ext] theorem ext (h : self.modules = other.modules) : self = other := by
  cases self
  cases other
  cases h
  rfl

theorem insert_eq_put {module normalized : Module} {id : ModuleId} (hid : module.id = some id)
    (hpaths : module.normalizePaths = .ok normalized) (hnew : id ∉ self.modules.map Prod.fst) :
    self.insert module = .ok (self.put id normalized) := by
  have hkey : ¬self.containsKey id = true := by simpa [containsKey] using hnew
  simp only [insert, hid, hpaths, if_neg hkey]

theorem exists_insert {module : Module} {e : ModuleId × Module} (he : entry module = some e)
    (hnew : e.1 ∉ self.modules.map Prod.fst) :
    ∃ next, self.insert module = .ok next ∧ next.modules = SortedSets.insertEntry e.1 e.2 self.modules := by
  unfold entry at he
  cases hid : module.id with
  | none => simp [hid] at he
  | some id =>
    cases hpaths : module.normalizePaths with
    | error base => simp [hid, hpaths, Except.toOption] at he
    | ok normalized =>
      simp only [hid, hpaths, Except.toOption, Option.bind_eq_bind, Option.bind_some, Option.some.injEq] at he
      subst he
      exact ⟨_, insert_eq_put hid hpaths hnew, rfl⟩

theorem insert_ok_iff {module : Module} : self.insert module = .ok other ↔
    ∃ e, entry module = some e ∧ e.1 ∉ self.modules.map Prod.fst ∧
      other.modules = SortedSets.insertEntry e.1 e.2 self.modules := by
  constructor
  · intro h
    unfold insert at h
    split at h
    · cases h
    · next id hid =>
      split_ifs at h with hkey
      split at h
      · cases h
      · next normalized hpaths =>
        cases h
        refine ⟨(id, { normalized with dependsOn := retainNew [] normalized.dependsOn }), ?_, ?_, rfl⟩
        · simp [entry, hid, hpaths, Except.toOption]
        · simpa [containsKey] using hkey
  · intro h
    obtain ⟨e, he, hnew, hmodules⟩ := h
    obtain ⟨next, hnext, hnext_modules⟩ := exists_insert he hnew
    have hsame : next = other := ext (hnext_modules.trans hmodules.symm)
    exact hsame ▸ hnext

/-- Modules are put in, in whatever order, exactly when they all have entries and no two have one id. -/
theorem insertAll_ok_iff {modules : List Module} : self.insertAll modules = .ok other ↔
    (∀ module ∈ modules, (entry module).isSome) ∧
      (self.modules.map Prod.fst ++ (modules.filterMap entry).map Prod.fst).Nodup ∧
      other.modules.Perm (self.modules ++ modules.filterMap entry) := by
  induction modules generalizing self with
  | nil =>
    have hnodup := self.sorted.nodup
    constructor
    · intro h
      cases h
      simp [hnodup]
    · intro h
      have hperm : other.modules.Perm self.modules := by simpa using h.2.2
      exact congrArg Except.ok (ext (SortedSets.eq_of_perm self.sorted other.sorted hperm.symm))
  | cons module modules ih =>
    have hstep : self.insertAll (module :: modules) = .ok other ↔
        ∃ next, self.insert module = .ok next ∧ next.insertAll modules = .ok other := by
      rw [insertAll, List.foldlM_cons]
      cases self.insert module with
      | error e =>
        constructor
        · intro h
          cases h
        · intro h
          obtain ⟨next, hnext, -⟩ := h
          cases hnext
      | ok next =>
        constructor
        · exact fun h => ⟨next, rfl, h⟩
        · intro h
          obtain ⟨next', hnext, h⟩ := h
          cases hnext
          exact h
    rw [hstep]
    cases hentry : entry module with
    | none =>
      constructor
      · intro h
        obtain ⟨next, hnext, -⟩ := h
        obtain ⟨e, he, -⟩ := insert_ok_iff.mp hnext
        rw [hentry] at he
        cases he
      · intro h
        have hsome := h.1 module List.mem_cons_self
        rw [hentry] at hsome
        cases hsome
    | some e =>
      have hall : (∀ m ∈ module :: modules, (entry m).isSome) ↔ ∀ m ∈ modules, (entry m).isSome := by
        simp [hentry]
      rw [hall, List.filterMap_cons_some hentry]
      constructor
      · intro h
        obtain ⟨next, hnext, h⟩ := h
        obtain ⟨e', he', hnew, hmodules⟩ := insert_ok_iff.mp hnext
        rw [hentry] at he'
        cases he'
        have hput : next.modules.Perm (e :: self.modules) := hmodules ▸ SortedSets.perm_insertEntry hnew
        obtain ⟨hsome, hnodup, hperm⟩ := ih.mp h
        have hkeys := (hput.map Prod.fst).append_right ((modules.filterMap entry).map Prod.fst)
        refine ⟨hsome, ?_, ?_⟩
        · rw [List.map_cons]
          exact List.perm_middle.nodup_iff.mpr (hkeys.nodup_iff.mp hnodup)
        · exact hperm.trans ((hput.append_right _).trans List.perm_middle.symm)
      · intro h
        obtain ⟨hsome, hnodup, hperm⟩ := h
        rw [List.map_cons] at hnodup
        have hnodup' := List.perm_middle.nodup_iff.mp hnodup
        have hnew : e.1 ∉ self.modules.map Prod.fst := fun hmem =>
          (List.nodup_cons.mp hnodup').1 (List.mem_append_left _ hmem)
        obtain ⟨next, hnext, hmodules⟩ := exists_insert hentry hnew
        have hput : next.modules.Perm (e :: self.modules) := hmodules ▸ SortedSets.perm_insertEntry hnew
        have hkeys := (hput.map Prod.fst).append_right ((modules.filterMap entry).map Prod.fst)
        refine ⟨next, hnext, ih.mpr ⟨hsome, hkeys.nodup_iff.mpr hnodup', ?_⟩⟩
        exact hperm.trans (List.perm_middle.trans (hput.symm.append_right _))

/-- The graph does not depend on the order of insertion. -/
theorem insertAll_perm {modules modules' : List Module} (hperm : modules.Perm modules')
    (h : self.insertAll modules = .ok other) : self.insertAll modules' = .ok other := by
  rw [insertAll_ok_iff] at h ⊢
  have hentries := hperm.filterMap entry
  refine ⟨fun module hmodule => h.1 module (hperm.mem_iff.mpr hmodule), ?_, ?_⟩
  · exact ((hentries.map Prod.fst).append_left _).nodup_iff.mp h.2.1
  · exact h.2.2.trans (hentries.append_left _)

/-- Every dependency of a validated graph is one of its modules. -/
theorem mem_of_validate (h : self.validate = .ok ()) {id dependency : ModuleId} {module : Module}
    (hmodule : (id, module) ∈ self.modules) (hdependency : dependency ∈ module.dependsOn) :
    dependency ∈ self.modules.map Prod.fst := by
  have hcheck : self.checkDependencies = .ok () := by
    unfold validate at h
    cases hcheck : self.checkDependencies with
    | error e =>
      rw [hcheck] at h
      cases h
    | ok _ => rfl
  have hknown := forM_ok (forM_ok hcheck (id, module) hmodule) dependency hdependency
  by_contra hnot
  simp [containsKey, hnot] at hknown

end ModuleGraph

end Krusty.Build.Graph
