import Krusty.Build.Store.Manifest
import Krusty.Lib.FileTree
import Krusty.Lib.Interference

/-! The artifact store: the directory it keeps, and the calls that `get`, `put` and `gc_older_than` make. -/
namespace Krusty.Build.Store

open Files Interference Strings

/-! ### The store's directory -/

/-- The names in the store's directory: entries, what is being staged, what was set aside as damaged, and
anything else. -/
inductive Name where
  | entry (key : CacheKey)
  | staging (process : ℕ) (key : CacheKey) (suffix : ℕ)
  | damaged (key : CacheKey) (suffix : ℕ)
  | other (name : Text)
  deriving DecidableEq

/-- A name's tree, with the identity that an open directory keeps when it is renamed. -/
structure Node where
  inode : ℕ
  tree : Tree Text (List UInt8)

structure Root where
  entries : List (Name × Node)
  next : ℕ

def Root.empty : Root := { entries := [], next := 0 }

/-- The file system calls. Removing what is below a directory follows the open directory, not its name. -/
inductive Call where
  | isDirectory (name : Name)
  | read (name : Name) (path : List Text)
  | createAll (name : Name) (path : List Text)
  | write (name : Name) (path : List Text) (content : List UInt8)
  | rename (source target : Name)
  | openDirectory (name : Name)
  | removeBelow (inode : ℕ)
  | removeDirectory (name : Name)
  | list
  /-- How long ago the manifest below a name was modified, where the system can tell. -/
  | modified (name : Name)

def Call.Value : Call → Type
  | .isDirectory _ => Bool
  | .read .. => List UInt8
  | .openDirectory _ => ℕ
  | .list => List Name
  | .modified _ => Option ℕ
  | _ => Unit

abbrev Answer (c : Call) : Type := Except IoError c.Value

def manifestName : Text := "MANIFEST".toList

def filesName : Text := "files".toList

namespace Root

def tree? (s : Root) (name : Name) : Option (Tree Text (List UInt8)) := (s.entries.lookup name).map (·.tree)

def isDirectory (s : Root) (name : Name) : Bool := ((s.tree? name).map (·.isDirectory)).getD false

def read (s : Root) (name : Name) (path : List Text) : Except IoError (List UInt8) :=
  match s.tree? name with
  | none => .error .notFound
  | some tree => tree.read path

def createAll (s : Root) (name : Name) (path : List Text) : Except IoError Root := do
  let node := (s.entries.lookup name).getD { inode := s.next, tree := .directory [] }
  let tree ← node.tree.createAll path
  return { entries := assign name { node with tree } s.entries, next := s.next + 1 }

def write (s : Root) (name : Name) (path : List Text) (content : List UInt8) : Except IoError Root :=
  match s.entries.lookup name with
  | none => .error .notFound
  | some node => do
    let tree ← node.tree.write content path
    return { s with entries := assign name { node with tree } s.entries }

/-- A directory takes the place of nothing or of an empty directory, a file that of nothing or of a file. -/
def rename (s : Root) (source target : Name) : Except IoError Root :=
  match s.entries.lookup source with
  | none => .error .notFound
  | some node =>
    if source = target then .ok s
    else
      let moved := { s with entries := assign target node (unassign source s.entries) }
      match node.tree, s.tree? target with
      | _, none => .ok moved
      | .directory _, some (.directory []) => .ok moved
      | .directory _, some (.directory (_ :: _)) => .error .directoryNotEmpty
      | .directory _, some (.file _) => .error .notADirectory
      | .file _, some (.file _) => .ok moved
      | .file _, some (.directory _) => .error .isADirectory

def openDirectory (s : Root) (name : Name) : Except IoError ℕ :=
  match s.entries.lookup name with
  | none => .error .notFound
  | some node => if node.tree.isDirectory then .ok node.inode else .error .notADirectory

def removeBelow (s : Root) (inode : ℕ) : Root :=
  { s with entries := s.entries.map fun e =>
      if e.2.inode = inode ∧ e.2.tree.isDirectory then (e.1, { e.2 with tree := .directory [] }) else e }

def removeDirectory (s : Root) (name : Name) : Except IoError Root :=
  match s.tree? name with
  | none => .error .notFound
  | some (.file _) => .error .notADirectory
  | some (.directory (_ :: _)) => .error .directoryNotEmpty
  | some (.directory []) => .ok { s with entries := unassign name s.entries }

def modified (s : Root) (name : Name) : Except IoError (Option ℕ) :=
  match s.tree? name with
  | none => .error .notFound
  | some tree => (tree.find [manifestName]).map fun _ => some 0

/-- A call that changes the directory, or fails and leaves it. -/
def change (s : Root) : Except IoError Root → Except IoError Unit × Root
  | .error e => (.error e, s)
  | .ok s' => (.ok (), s')

/-- What one call answers and leaves, when nothing else runs. -/
def exec : (c : Call) → Root → Answer c × Root
  | .isDirectory name, s => (.ok (s.isDirectory name), s)
  | .read name path, s => (s.read name path, s)
  | .createAll name path, s => s.change (s.createAll name path)
  | .write name path content, s => s.change (s.write name path content)
  | .rename source target, s => s.change (s.rename source target)
  | .openDirectory name, s => (s.openDirectory name, s)
  | .removeBelow inode, s => (.ok (), s.removeBelow inode)
  | .removeDirectory name, s => s.change (s.removeDirectory name)
  | .list, s => (.ok (s.entries.map (·.1)), s)
  | .modified name, s => (s.modified name, s)

end Root

/-! ### The store's own programs -/

abbrev Calls (α : Type) := Program Call Answer α

namespace Fs

def isDirectory (name : Name) : Calls (Except IoError Bool) := Program.perform (Call.isDirectory name)

def read (name : Name) (path : List Text) : Calls (Except IoError (List UInt8)) := Program.perform (Call.read name path)

def createAll (name : Name) (path : List Text) : Calls (Except IoError Unit) := Program.perform (Call.createAll name path)

def write (name : Name) (path : List Text) (content : List UInt8) : Calls (Except IoError Unit) :=
  Program.perform (Call.write name path content)

def rename (source target : Name) : Calls (Except IoError Unit) := Program.perform (Call.rename source target)

def openDirectory (name : Name) : Calls (Except IoError ℕ) := Program.perform (Call.openDirectory name)

def removeBelow (inode : ℕ) : Calls (Except IoError Unit) := Program.perform (Call.removeBelow inode)

def removeDirectory (name : Name) : Calls (Except IoError Unit) := Program.perform (Call.removeDirectory name)

def list : Calls (Except IoError (List Name)) := Program.perform Call.list

def modified (name : Name) : Calls (Except IoError (Option ℕ)) := Program.perform (Call.modified name)

end Fs

structure Artifact where
  path : Text
  bytes : List UInt8
  /-- The length of a vector is a `usize`. -/
  fits : bytes.length < 2 ^ 64
  deriving DecidableEq

structure CachedModule where
  artifacts : List Artifact
  abi : AbiFingerprint
  deriving DecidableEq

/-- Why a lookup did not produce a usable entry. -/
inductive MissReason where
  | absent
  | noManifest
  | malformedManifest
  | corruptEntry
  deriving DecidableEq

/-- What ends a call of the store without an answer. -/
inductive Fault where
  | io (error : IoError)
  | panic
  deriving DecidableEq

abbrev StoreLookup := Except Fault (Except MissReason CachedModule)

/-- The components of an artifact path below the entry's directory, unless it would escape it. -/
def safeRelativePath (path : Text) : Option (List Text) :=
  if path.any isControl then none
  else if path.head? = some '/' then none
  else
    let parts := (path.splitOn '/').filter fun part => part ≠ [] ∧ part ≠ ['.']
    if ['.', '.'] ∈ parts ∨ parts = [] then none else some parts

/-- `Path::is_dir`, false when the system cannot tell. -/
def isDir (name : Name) : Calls Bool := do
  match ← Fs.isDirectory name with
  | .ok answer => return answer
  | .error _ => return false

/-- `remove_dir_all`. -/
def removeDirAll (name : Name) : Calls (Except IoError Unit) := do
  match ← Fs.openDirectory name with
  | .error e => return .error e
  | .ok inode =>
    match ← Fs.removeBelow inode with
    | .error e => return .error e
    | .ok _ => Fs.removeDirectory name

variable (sha : List UInt8 → Digest)

/-- The loop of `get` over the records of the manifest. -/
def readRecords (dir : Name) : List FileRecord → Calls (Except Fault (Except MissReason (List Artifact)))
  | [] => return .ok (.ok [])
  | record :: records =>
    match safeRelativePath record.path with
    | none => return .ok (.error .malformedManifest)
    | some relative => do
      match ← Fs.read dir (filesName :: relative) with
      | .error .notFound => return .ok (.error .corruptEntry)
      | .error e => return .error (.io e)
      | .ok bytes =>
        if h : bytes.length = record.length.toNat ∧ sha bytes = record.content then
          match ← readRecords dir records with
          | .ok (.ok artifacts) =>
            return .ok (.ok ({ path := record.path, bytes, fits := h.1 ▸ record.length.toNat_lt } :: artifacts))
          | stopped => return stopped
        else return .ok (.error .corruptEntry)

/-- Look up a key. -/
def get (key : CacheKey) : Calls StoreLookup := do
  if ← isDir (.entry key) then
    match ← Fs.read (.entry key) [manifestName] with
    | .error .notFound => return .ok (.error .noManifest)
    | .error e => return .error (.io e)
    | .ok bytes =>
      match fromUtf8 bytes with
      | none => return .error (.io .invalidData)
      | some text =>
        match Manifest.parse sha text with
        | .error .malformed => return .ok (.error .malformedManifest)
        | .error .panic => return .error .panic
        | .ok parsed =>
          match ← readRecords sha (.entry key) parsed.files with
          | .error f => return .error f
          | .ok (.error reason) => return .ok (.error reason)
          | .ok (.ok artifacts) => return .ok (.ok { artifacts, abi := parsed.abi })
  else return .ok (.error .absent)

/-- The loop of `put` over the artifacts: the records of what was written. -/
def writeArtifacts (staging : Name) : List Artifact → Calls (Except Fault (List FileRecord))
  | [] => return .ok []
  | artifact :: artifacts =>
    match safeRelativePath artifact.path with
    | none => do
      let _ ← removeDirAll staging
      return .error (.io .invalidInput)
    | some relative => do
      match ← Fs.createAll staging (filesName :: relative.dropLast) with
      | .error e => return .error (.io e)
      | .ok _ =>
        match ← Fs.write staging (filesName :: relative) artifact.bytes with
        | .error e => return .error (.io e)
        | .ok _ =>
          match ← writeArtifacts staging artifacts with
          | .error f => return .error f
          | .ok records =>
            return .ok ({ path := artifact.path, length := UInt64.ofNat artifact.bytes.length,
                          content := sha artifact.bytes } :: records)

/-- What makes the names of one `put` its own. -/
structure Suffixes where
  process : ℕ
  damaged : ℕ
  staging : ℕ
  deriving DecidableEq

/-- The last step of `put`: the staged directory takes the entry's name, or another build won the race. -/
def publish (staging final : Name) : Calls (Except Fault Unit) := do
  match ← Fs.rename staging final with
  | .ok _ => return .ok ()
  | .error e =>
    if ← isDir final then
      let _ ← removeDirAll staging
      return .ok ()
    else
      let _ ← removeDirAll staging
      return .error (.io e)

/-- `put` once the staging name is clean: the files, then the manifest, then the publication. -/
def stageFiles (staging : Name) (key : CacheKey) (entry : CachedModule) : Calls (Except Fault Unit) := do
  match ← Fs.createAll staging [filesName] with
  | .error e => return .error (.io e)
  | .ok _ =>
    if capacityOverflows entry.artifacts.length then return .error .panic
    else
      match ← writeArtifacts sha staging entry.artifacts with
      | .error f => return .error f
      | .ok files =>
        let manifest : Manifest := { abi := entry.abi, files }
        match ← Fs.write staging [manifestName] (toUtf8 (manifest.render sha)) with
        | .error e => return .error (.io e)
        | .ok _ => publish staging (.entry key)

/-- The second half of `put`. A previous crash may have left the staging name; start clean. -/
def stage (suffixes : Suffixes) (key : CacheKey) (entry : CachedModule) : Calls (Except Fault Unit) := do
  let staging := Name.staging suffixes.process key suffixes.staging
  let _ ← removeDirAll staging
  stageFiles sha staging key entry

/-- Store an entry. A healthy entry under the key stays, a damaged one is set aside. -/
def put (suffixes : Suffixes) (key : CacheKey) (entry : CachedModule) : Calls (Except Fault Unit) := do
  if ← isDir (.entry key) then
    match ← get sha key with
    | .ok (.ok _) => return .ok ()
    | .error f => return .error f
    | .ok (.error _) =>
      match ← Fs.rename (.entry key) (.damaged key suffixes.damaged) with
      | .ok _ => stage sha suffixes key entry
      | .error _ => if ← isDir (.entry key) then return .ok () else stage sha suffixes key entry
  else stage sha suffixes key entry

/-- The loop of `gc_older_than` over the names that were listed. -/
def sweep (maxAge : ℕ) : List Name → ℕ → Calls (Except Fault ℕ)
  | [], removed => return .ok removed
  | .staging process key suffix :: names, removed => do
    let _ ← removeDirAll (.staging process key suffix)
    sweep maxAge names removed
  | .damaged key suffix :: names, removed => do
    let _ ← removeDirAll (.damaged key suffix)
    sweep maxAge names removed
  | name :: names, removed => do
    match ← Fs.modified name with
    | .error _ =>
      let _ ← removeDirAll name
      sweep maxAge names (removed + 1)
    | .ok none => sweep maxAge names removed
    | .ok (some age) =>
      if maxAge < age then
        match ← removeDirAll name with
        | .error e => return .error (.io e)
        | .ok _ => sweep maxAge names (removed + 1)
      else sweep maxAge names removed

def gcOlderThan (maxAge : ℕ) : Calls (Except Fault ℕ) := do
  match ← Fs.list with
  | .error e => return .error (.io e)
  | .ok names => sweep maxAge names 0

end Krusty.Build.Store
