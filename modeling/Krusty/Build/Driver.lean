import Krusty.Build.Store.Operations

/-! The build driver: plan, look up, compile, store, materialize. -/
namespace Krusty.Build

open Files Interference Store Strings

/-- An absolute path, by its components. -/
abbrev Path := List Text

inductive ModuleOutput where
  | classDirectory (path : Path)
  | jar (path : Path)
  deriving DecidableEq

def ModuleOutput.path : ModuleOutput → Path
  | classDirectory p => p
  | jar p => p

/-- What the driver itself reads of a module. -/
structure Module where
  javaSources : List Path
  dependsOn : List ModuleId
  outputs : List ModuleOutput

def Module.isKrustyCompilable (m : Module) : Bool := m.javaSources.isEmpty

structure ModuleGraph where
  modules : List (ModuleId × Module)

def ModuleGraph.get (g : ModuleGraph) (id : ModuleId) : Option Module := g.modules.lookup id

def ModuleGraph.directDependencies (g : ModuleGraph) (id : ModuleId) : List ModuleId :=
  ((g.get id).map (·.dependsOn)).getD []

/-- The dependency identity a compiler environment can soundly publish. -/
inductive PublishedAbi where
  | exact (abi : AbiFingerprint)
  | wholeOutput (reason : Text)

/-- What a compiler hands back. -/
structure CompiledModule where
  artifacts : List Artifact
  publishedAbi : PublishedAbi

/-- The file system outside the store, and the counter that names staging directories. -/
structure Workspace where
  disk : Tree Text (List UInt8)
  counter : ℕ

/-- The driver's world outside: what a module's key is computed from, and what is refused. -/
structure BuildEnvironment where
  baseInputs : ModuleId → Module → List Path → Workspace → Except Text CacheKeyInputs
  unsupported : ModuleId → Module → Option Text

/-- Why a module failed. -/
inductive Message where
  | environment (text : Text)
  | cacheRead (fault : Fault)
  | cacheWrite (fault : Fault)
  | onlyClassDirectories (path : Path)
  | cannotCreate (path : Path) (error : IoError)
  | cannotWrite (path : Path) (error : IoError)
  | cannotSetAside (path : Path) (error : IoError)
  | cannotPublish (path : Path) (error : IoError)
  deriving DecidableEq

inductive Outcome where
  | cacheHit (key : CacheKey) (abi : AbiFingerprint)
  | compiled (key : CacheKey) (abi : AbiFingerprint)
  | refused (reason : Text)
  | failed (message : Message)
  | blocked (on : ModuleId)
  deriving DecidableEq

namespace Outcome

def abi : Outcome → Option AbiFingerprint
  | cacheHit _ abi => some abi
  | compiled _ abi => some abi
  | _ => none

def isOk : Outcome → Bool
  | cacheHit .. => true
  | compiled .. => true
  | _ => false

end Outcome

/-! ### Publishing an ABI -/

/-- The ABI value a module publishes to its dependents. -/
def publishedAbi (sha : List UInt8 → Digest) (artifacts : List Artifact) : PublishedAbi → AbiFingerprint
  | .wholeOutput reason =>
    let ordered := artifacts.mergeSort fun a b => decide (a.path ≤ b.path)
    let hasher := (Hasher.new.text "abi-kind".toList "whole-output".toList).text "reason".toList reason
    ⟨(ordered.foldl (fun hasher a => (hasher.text "path".toList a.path).nested "content".toList (sha a.bytes))
      (hasher.count "artifacts".toList ordered.length)).finish sha⟩
  | .exact abi =>
    ⟨((Hasher.new.text "abi-kind".toList "exact".toList).nested "semantic-abi".toList abi.digest).finish sha⟩

/-! ### Materializing -/

/-- A relative path below a directory, or an absolute one, as the system resolves it. -/
def join (directory : Path) (path : Text) : Path :=
  let start := if path.head? = some '/' then [] else directory
  (path.splitOn '/').foldl (fun at_ part =>
    if part = [] ∨ part = ['.'] then at_ else if part = ['.', '.'] then at_.dropLast else at_ ++ [part]) start

def writeTree (directory : Path) : List Artifact → Tree Text (List UInt8) →
    Except Message Unit × Tree Text (List UInt8)
  | [], disk => (.ok (), disk)
  | a :: artifacts, disk =>
    let destination := join directory a.path
    match disk.createAll destination.dropLast with
    | .error e => (.error (.cannotCreate destination.dropLast e), disk)
    | .ok disk =>
      match disk.write a.bytes destination with
      | .error e => (.error (.cannotWrite destination e), disk)
      | .ok disk => writeTree directory artifacts disk

/-- A hidden sibling of a directory. -/
def sibling (directory : Path) (purpose : Text) (process counter : ℕ) : Path :=
  directory.dropLast ++ ['.' :: directory.getLastD "out".toList ++ purpose ++ decimal process ++ '-' :: decimal counter]

/-- Put the built tree in the place of the output directory, which is set aside first. -/
def swap (directory staging retired : Path) (disk : Tree Text (List UInt8)) :
    Except Message Unit × Tree Text (List UInt8) :=
  let hadPrevious := (disk.find directory).isOk
  match (if hadPrevious then disk.rename directory retired else .ok disk) with
  | .error e => (.error (.cannotSetAside directory e), disk)
  | .ok disk =>
    match disk.rename staging directory with
    | .ok disk => (.ok (), if hadPrevious then disk.erase retired else disk)
    | .error e =>
      let disk := if hadPrevious then (disk.rename retired directory).toOption.getD disk else disk
      (.error (.cannotPublish directory e), disk.erase staging)

/-- Build the tree beside the target, then swap it in and drop the old one. -/
def replaceTree (process : ℕ) (directory : Path) (artifacts : List Artifact) (w : Workspace) :
    Except Message Unit × Workspace :=
  match w.disk.createAll directory.dropLast with
  | .error e => (.error (.cannotCreate directory.dropLast e), w)
  | .ok disk =>
    let staging := sibling directory ".staging-".toList process w.counter
    let w := { w with counter := w.counter + 1 }
    let disk := disk.erase staging
    match disk.createAll staging with
    | .error e => (.error (.cannotCreate staging e), { w with disk })
    | .ok disk =>
      match writeTree staging artifacts disk with
      | (.error m, disk) => (.error m, { w with disk })
      | (.ok _, disk) =>
        let retired := sibling directory ".replaced-".toList process (w.counter - 1)
        let (result, disk) := swap directory staging retired disk
        (result, { w with disk })

/-- Replace each output directory's contents with the artifacts. -/
def materialize (process : ℕ) (artifacts : List Artifact) : List ModuleOutput → Workspace →
    Except Message Unit × Workspace
  | [], w => (.ok (), w)
  | .jar path :: _, w => (.error (.onlyClassDirectories path), w)
  | .classDirectory directory :: outputs, w =>
    match replaceTree process directory artifacts w with
    | (.error m, w) => (.error m, w)
    | (.ok _, w) => materialize process artifacts outputs w

/-! ### Building -/

/-- The store, the files outside it, and the inputs of the keys that were looked up so far. -/
structure BuildState where
  store : Root
  workspace : Workspace
  keyed : List CacheKeyInputs

/-- A number that no name in the store's directory has yet. -/
def uniqueSuffix (s : Root) : ℕ :=
  s.entries.foldl (fun n e =>
    match e.1 with
    | .staging _ _ suffix => max n (suffix + 1)
    | .damaged _ suffix => max n (suffix + 1)
    | _ => n) 0

def uniqueSuffixes (process : ℕ) (s : Root) : Suffixes where
  process
  damaged := uniqueSuffix s
  staging := uniqueSuffix s + 1

section Build

variable (sha : List UInt8 → Digest) (compile : CacheKeyInputs → Except Text CompiledModule) (process : ℕ)

/-- The entry that the driver stores of a compiled module. -/
def entryOf (compiled : CompiledModule) : CachedModule where
  artifacts := compiled.artifacts
  abi := publishedAbi sha compiled.artifacts compiled.publishedAbi

def compileAndStore (module : Module) (inputs : CacheKeyInputs) (s : BuildState) : Outcome × BuildState :=
  match compile inputs with
  | .error message => (.failed (.environment message), s)
  | .ok compiled =>
    let entry := entryOf sha compiled
    let (stored, store) := (put sha (uniqueSuffixes process s.store) (inputs.key sha) entry).run Root.exec s.store
    let s := { s with store }
    match stored with
    | .error f => (.failed (.cacheWrite f), s)
    | .ok _ =>
      let (written, workspace) := materialize process entry.artifacts module.outputs s.workspace
      let s := { s with workspace }
      match written with
      | .ok _ => (.compiled (inputs.key sha) entry.abi, s)
      | .error m => (.failed m, s)

/-- What `build_one` does once the key's inputs are known. -/
def lookUpOrCompile (module : Module) (inputs : CacheKeyInputs) (s : BuildState) : Outcome × BuildState :=
  match ((get sha (inputs.key sha)).run Root.exec s.store).1 with
  | .ok (.ok cached) =>
    let (written, workspace) := materialize process cached.artifacts module.outputs s.workspace
    let s := { s with workspace }
    match written with
    | .ok _ => (.cacheHit (inputs.key sha) cached.abi, s)
    | .error m => (.failed m, s)
  | .ok (.error _) => compileAndStore sha compile process module inputs s
  | .error f => (.failed (.cacheRead f), s)

/-- The ABIs of the dependencies, or the first one that published none. -/
def dependencyAbis (built : List (ModuleId × AbiFingerprint)) :
    List ModuleId → Except ModuleId (List (ModuleId × AbiFingerprint))
  | [] => .ok []
  | dependency :: rest =>
    match built.lookup dependency with
    | none => .error dependency
    | some abi => do return (dependency, abi) :: (← dependencyAbis built rest)

/-- The inputs of a module's key, or the outcome of a module that has none. -/
def keyInputs (env : BuildEnvironment) (graph : ModuleGraph) (id : ModuleId) (module : Module)
    (built : List (ModuleId × AbiFingerprint)) (w : Workspace) : Except Outcome CacheKeyInputs :=
  if module.isKrustyCompilable = false then
    .error (.refused (decimal module.javaSources.length ++ " Java source(s); krusty has no Java frontend".toList))
  else
    match env.unsupported id module with
    | some reason => .error (.refused reason)
    | none =>
      match dependencyAbis built (graph.directDependencies id) with
      | .error dependency => .error (.blocked dependency)
      | .ok abis =>
        let dependencyOutputs := ((graph.directDependencies id).filterMap graph.get).flatMap fun dependency =>
          dependency.outputs.map (·.path)
        match env.baseInputs id module dependencyOutputs w with
        | .error message => .error (.failed (.environment message))
        | .ok inputs => .ok { inputs with dependencyAbis := abis }

def buildOne (env : BuildEnvironment) (graph : ModuleGraph) (id : ModuleId) (module : Module)
    (built : List (ModuleId × AbiFingerprint)) (s : BuildState) : Outcome × BuildState :=
  match keyInputs env graph id module built s.workspace with
  | .error outcome => (outcome, s)
  | .ok inputs => lookUpOrCompile sha compile process module inputs { s with keyed := inputs :: s.keyed }

/-- The loop of `build` over the modules, in an order that the graph gives. -/
def buildFrom (env : BuildEnvironment) (graph : ModuleGraph) :
    List ModuleId → List (ModuleId × AbiFingerprint) → BuildState → List (ModuleId × Outcome) × BuildState
  | [], _, s => ([], s)
  | id :: order, built, s =>
    match graph.get id with
    | none => buildFrom env graph order built s
    | some module =>
      let (outcome, s) := buildOne sha compile process env graph id module built s
      let built := (outcome.abi.map fun abi => assign id abi built).getD built
      let (report, s) := buildFrom env graph order built s
      ((id, outcome) :: report, s)

def build (env : BuildEnvironment) (graph : ModuleGraph) (order : List ModuleId) (s : BuildState) :
    List (ModuleId × Outcome) × BuildState :=
  buildFrom sha compile process env graph order [] s

end Build

end Krusty.Build
