import Krusty.Build.KeyEncoding
import Krusty.Build.Sha256.Lanes
import Krusty.Lib.Pieces
import Krusty.Lib.WorkQueue

/-! Files digested in pieces, which any number of workers take from one queue. -/
namespace Krusty.Build.Sha256

open Pieces Strings WorkQueue

/-! ### The hasher on its running state -/

structure Hasher where
  state : Sha256

namespace Hasher

def new : Hasher := ⟨init⟩

def field (self : Hasher) (tag : Text) (value : List UInt8) : Hasher :=
  let state := self.state.update (LittleEndian.leBytes 8 (toUtf8 tag).length)
  let state := state.update (toUtf8 tag)
  let state := state.update (LittleEndian.leBytes 8 value.length)
  ⟨state.update value⟩

def count (self : Hasher) (tag : Text) (value : ℕ) : Hasher := self.field tag (LittleEndian.leBytes 8 value)

def nested (self : Hasher) (tag : Text) (value : Digest) : Hasher := self.field tag value.bytes

def finish (self : Hasher) : Digest := self.state.finalize

/-- A hasher that has absorbed the same bytes. -/
def Absorbed (self : Hasher) (fields : Build.Hasher) : Prop := Represents self.state fields.absorbed

variable {self : Hasher} {fields : Build.Hasher}

theorem new_absorbed : new.Absorbed .new := represents_init

theorem field_absorbed (h : self.Absorbed fields) (tag : Text) (value : List UInt8) :
    (self.field tag value).Absorbed (fields.field tag value) := by
  have htag := update_represents (update_represents h (LittleEndian.leBytes 8 (toUtf8 tag).length)) (toUtf8 tag)
  exact update_represents (update_represents htag (LittleEndian.leBytes 8 value.length)) value

theorem foldl_nested_absorbed (tag : Text) (values : List Digest) (h : self.Absorbed fields) :
    (values.foldl (nested · tag) self).Absorbed (values.foldl (Build.Hasher.nested · tag) fields) := by
  induction values generalizing self fields with
  | nil => exact h
  | cons value values ih => exact ih (field_absorbed h tag value.bytes)

theorem finish_eq (h : self.Absorbed fields) : self.finish = fields.finish digestBytes := by
  apply digest_eq_of_bytes
  rw [Build.Hasher.finish, digestBytes_bytes]
  exact finalize_bytes h

end Hasher

/-! ### Files -/

def FILE_CHUNK : ℕ := 2 ^ 20

def GROUP : ℕ := LANES * FILE_CHUNK

/-- One group of one file: the file's index and the group's. -/
abbrev Task : Type := ℕ × ℕ

section Program

variable {Path File E : Type} (openFile : Path → Except E (File × ℕ))
  (readExactAt : File → ℕ → (size : ℕ) → Except E {buffer : List UInt8 // buffer.length = size}) (avx2 : Bool)

/-- The digests of the pieces in a group of a file. Nothing is returned where an assertion fails. -/
def groupDigests (file : File) (length group : ℕ) : Option (Except E (List Digest)) :=
  let start := group * GROUP
  let size := min (length - min start length) GROUP
  match readExactAt file start size with
  | .error e => some (.error e)
  | .ok buffer =>
    let full := size / FILE_CHUNK * FILE_CHUNK
    let equal := if 0 < full then digestEqual avx2 (chunks FILE_CHUNK (buffer.1.take full)) else some []
    equal.map fun digests =>
      .ok (if full < size ∨ size = 0 then digests ++ [digestBytes (buffer.1.drop full)] else digests)

/-- The tasks of the files from `index` on: an empty file has one, a file that is not opened none. -/
def tasksFrom (index : ℕ) (opened : List (Except E (File × ℕ))) : List Task :=
  (opened.zipIdx index).flatMap fun (file, index) =>
    match file with
    | .error _ => []
    | .ok (_, length) => (List.range (max (divCeil length GROUP) 1)).map fun group => (index, group)

def performTask (opened : List (Except E (File × ℕ))) (task : Task) : Task × Option (Except E (List Digest)) :=
  match opened[task.1]? with
  | some (.ok (file, length)) => (task, groupDigests readExactAt avx2 file length task.2)
  | _ => (task, none)

/-- A file's digest from its groups' digests, or the first error among them. -/
def fileDigest (length : ℕ) (groups : List (Except E (List Digest))) : Except E Digest :=
  let hasher := (Hasher.new.field "length".toList (LittleEndian.leBytes 8 length)).count "chunks".toList
    (max (divCeil length FILE_CHUNK) 1)
  let absorbed := groups.foldl (fun (acc : Hasher × Option E) digests =>
    match digests with
    | .ok digests => (digests.foldl (·.nested "chunk".toList ·) acc.1, acc.2)
    | .error e => (acc.1, acc.2.or (some e))) (hasher, none)
  match absorbed.2 with
  | some e => .error e
  | none => .ok absorbed.1.finish

/-- The digests of the opened files from `index` on, each of the groups of its index that come next. -/
def assemble : ℕ → List (Except E (File × ℕ)) → List (Task × Except E (List Digest)) → List (Except E Digest)
  | _, [], _ => []
  | index, .error e :: rest, done => .error e :: assemble (index + 1) rest done
  | index, .ok (_, length) :: rest, done =>
    fileDigest length ((done.takeWhile fun d => d.1.1 = index).map (·.2)) ::
      assemble (index + 1) rest (done.dropWhile fun d => d.1.1 = index)

def keyLe (a b : Task × Except E (List Digest)) : Bool := a.1.1 < b.1.1 || a.1.1 = b.1.1 && a.1.2 ≤ b.1.2

/-- What the workers have done, joined. Nothing is returned where one of them panicked. -/
def digestAll (opened : List (Except E (File × ℕ))) (done : List (Task × Option (Except E (List Digest)))) :
    Option (List (Except E Digest)) := do
  let done ← done.mapM fun d => d.2.map (d.1, ·)
  return assemble 0 opened (done.mergeSort keyLe)

def workersFor (workers tasks : ℕ) : ℕ := max 1 (min workers (max tasks 1))

/-- `digest_files` returns these digests when its workers take their steps in the order of the schedule. -/
def DigestFiles (paths : List Path) (workers : ℕ) (result : Option (List (Except E Digest))) : Prop :=
  let opened := paths.map openFile
  let tasks := tasksFrom 0 opened
  ∃ (schedule : List (Fin (workersFor workers tasks.length))) (queue : _),
    Runs.run (WorkQueue.step tasks (performTask readExactAt avx2 opened)) start schedule = some queue ∧
      (∀ w, queue.worker w = .stopped) ∧ result = digestAll opened (collected queue)

end Program

/-! ### One group -/

section Groups

variable {File E : Type} {readExactAt : File → ℕ → (size : ℕ) → Except E {buffer : List UInt8 // buffer.length = size}}
  {avx2 : Bool}

/-- A group has no more pieces than there are lanes, and whole ones to them. -/
theorem digestEqual_chunks {bytes : List UInt8} (hpos : 0 < bytes.length) (hle : bytes.length ≤ GROUP)
    (hwhole : FILE_CHUNK ∣ bytes.length) :
    digestEqual avx2 (chunks FILE_CHUNK bytes) = some ((pieces FILE_CHUNK bytes).map digestBytes) := by
  have hne : bytes ≠ [] := List.length_pos_iff.mp hpos
  have hchunk : 0 < FILE_CHUNK := by decide
  obtain ⟨count, hcount⟩ := hwhole
  have hdiv : divCeil bytes.length FILE_CHUNK = count := by
    rw [divCeil, hcount, Nat.mul_mod_right, if_pos rfl, Nat.mul_div_cancel_left _ hchunk]
  have hlanes : count ≤ LANES := by
    rw [hcount, GROUP, Nat.mul_comm] at hle
    exact Nat.le_of_mul_le_mul_right hle hchunk
  have hfirst : 0 < count := by
    by_contra hzero
    rw [hcount, Nat.eq_zero_of_not_pos hzero] at hpos
    exact absurd hpos (lt_irrefl 0)
  have hlength : (pieces FILE_CHUNK bytes).length = count := by rw [length_pieces, hdiv, Nat.max_eq_left hfirst]
  rw [chunks_eq_pieces hne]
  have hsome : pieces FILE_CHUNK bytes ≠ [] := by
    rw [← List.length_pos_iff, hlength]
    exact hfirst
  have hequal : ∀ message ∈ pieces FILE_CHUNK bytes, message.length = FILE_CHUNK := by
    intro message hmessage
    obtain ⟨i, hi, rfl⟩ := List.mem_map.mp hmessage
    have hi' : i < count := by
      have hrange := List.mem_range.mp hi
      rwa [hdiv, Nat.max_eq_left hfirst] at hrange
    have hroom : (i + 1) * FILE_CHUNK ≤ count * FILE_CHUNK := Nat.mul_le_mul_right FILE_CHUNK hi'
    rw [Nat.add_one_mul] at hroom
    have hrest : FILE_CHUNK ≤ count * FILE_CHUNK - i * FILE_CHUNK := Nat.le_sub_of_add_le' hroom
    rw [piece, List.length_take, List.length_drop, hcount, Nat.mul_comm FILE_CHUNK count, Nat.min_eq_left hrest]
  exact digestEqual_eq avx2 hsome (by rwa [hlength]) hequal (by decide)

/-- The digests of a group's pieces, in order. -/
def piecesDigests (readExactAt : File → ℕ → (size : ℕ) → Except E {buffer : List UInt8 // buffer.length = size})
    (file : File) (length group : ℕ) : Except E (List Digest) :=
  (readExactAt file (group * GROUP) (min (length - min (group * GROUP) length) GROUP)).map fun buffer =>
    (pieces FILE_CHUNK buffer.1).map digestBytes

theorem groupDigests_eq (file : File) (length group : ℕ) :
    groupDigests readExactAt avx2 file length group = some (piecesDigests readExactAt file length group) := by
  have hchunk : 0 < FILE_CHUNK := by decide
  have hgroup : min (length - min (group * GROUP) length) GROUP ≤ GROUP := Nat.min_le_right ..
  rw [groupDigests, piecesDigests]
  dsimp only
  generalize min (length - min (group * GROUP) length) GROUP = size at hgroup
  cases readExactAt file (group * GROUP) size with
  | error e => rfl
  | ok buffer =>
    obtain ⟨bytes, rfl⟩ := buffer
    have hle : bytes.length / FILE_CHUNK * FILE_CHUNK ≤ bytes.length := Nat.div_mul_le_self ..
    have hrest : bytes.length < bytes.length / FILE_CHUNK * FILE_CHUNK + FILE_CHUNK := Nat.lt_div_mul_add hchunk
    have htake : (bytes.take (bytes.length / FILE_CHUNK * FILE_CHUNK)).length =
        bytes.length / FILE_CHUNK * FILE_CHUNK := List.length_take_of_le hle
    have hwhole : FILE_CHUNK ∣ (bytes.take (bytes.length / FILE_CHUNK * FILE_CHUNK)).length := by
      rw [htake]
      exact Nat.dvd_mul_left ..
    generalize bytes.length / FILE_CHUNK * FILE_CHUNK = full at hle hrest htake hwhole
    dsimp only [Except.map]
    by_cases hpos : 0 < full
    · have hequal := @digestEqual_chunks avx2 _ (by rwa [htake]) (by omega) hwhole
      rw [if_pos hpos, hequal, Option.map_some]
      by_cases hlast : full < bytes.length
      · have hfront : bytes.take full ≠ [] := List.length_pos_iff.mp (by rwa [htake])
        have hdrop : (bytes.drop full).length = bytes.length - full := List.length_drop
        have hback : bytes.drop full ≠ [] := List.length_pos_iff.mp (by omega)
        have hsplit := pieces_append hchunk hwhole hfront hback
        rw [List.take_append_drop, pieces_short (l := bytes.drop full) (by omega) hchunk] at hsplit
        rw [if_pos (.inl hlast), hsplit, List.map_append]
        rfl
      · have hall : bytes.take full = bytes := List.take_of_length_le (by omega)
        rw [if_neg (by omega), hall]
    · have hzero : full = 0 := Nat.eq_zero_of_not_pos hpos
      rw [if_neg hpos, Option.map_some, if_pos (by omega), pieces_short (by omega) hchunk, hzero, List.drop_zero]
      rfl

end Groups

/-! ### The tasks in order -/

section Tasks

variable {File E : Type} {readExactAt : File → ℕ → (size : ℕ) → Except E {buffer : List UInt8 // buffer.length = size}}
  {avx2 : Bool} {opened : List (Except E (File × ℕ))} {task : Task} {index : ℕ}

theorem tasksFrom_error (e : E) (rest : List (Except E (File × ℕ))) :
    tasksFrom index (.error e :: rest) = tasksFrom (index + 1) rest := rfl

theorem tasksFrom_ok (file : File) (length : ℕ) (rest : List (Except E (File × ℕ))) :
    tasksFrom index (.ok (file, length) :: rest) =
      ((List.range (max (divCeil length GROUP) 1)).map fun group => (index, group)) ++ tasksFrom (index + 1) rest := rfl

theorem exists_of_mem_tasksFrom (h : task ∈ tasksFrom index opened) :
    ∃ i file length, task.1 = index + i ∧ opened[i]? = some (.ok (file, length)) := by
  induction opened generalizing index with
  | nil => cases h
  | cons opening rest ih =>
    cases opening with
    | error e =>
      rw [tasksFrom_error] at h
      obtain ⟨i, file, length, hindex, hfile⟩ := ih h
      exact ⟨i + 1, file, length, by omega, hfile⟩
    | ok opening =>
      rw [tasksFrom_ok] at h
      cases List.mem_append.mp h with
      | inl hfirst =>
        obtain ⟨group, -, rfl⟩ := List.mem_map.mp hfirst
        exact ⟨0, opening.1, opening.2, rfl, rfl⟩
      | inr hrest =>
        obtain ⟨i, file, length, hindex, hfile⟩ := ih hrest
        exact ⟨i + 1, file, length, by omega, hfile⟩

theorem pairwise_tasksFrom :
    (tasksFrom index opened).Pairwise fun a b => a.1 < b.1 ∨ a.1 = b.1 ∧ a.2 ≤ b.2 := by
  induction opened generalizing index with
  | nil => exact .nil
  | cons opening rest ih =>
    cases opening with
    | error e => exact ih
    | ok opening =>
      rw [tasksFrom_ok]
      refine List.pairwise_append.mpr ⟨?_, ih, ?_⟩
      · rw [List.pairwise_map]
        exact List.pairwise_lt_range.imp fun hlt => .inr ⟨rfl, le_of_lt hlt⟩
      · intro a ha b hb
        obtain ⟨group, -, rfl⟩ := List.mem_map.mp ha
        obtain ⟨i, file, length, hindex, -⟩ := exists_of_mem_tasksFrom hb
        left
        omega

/-- What a task of the queue gives. -/
def value (readExactAt : File → ℕ → (size : ℕ) → Except E {buffer : List UInt8 // buffer.length = size})
    (opened : List (Except E (File × ℕ))) (task : Task) : Except E (List Digest) :=
  match opened[task.1]? with
  | some (.ok (file, length)) => piecesDigests readExactAt file length task.2
  | _ => .ok []

theorem performTask_eq (h : task ∈ tasksFrom 0 opened) :
    performTask readExactAt avx2 opened task = (task, some (value readExactAt opened task)) := by
  obtain ⟨i, file, length, hindex, hfile⟩ := exists_of_mem_tasksFrom h
  rw [Nat.zero_add] at hindex
  rw [performTask, value, hindex, hfile]
  dsimp only
  rw [groupDigests_eq]

/-- What `digest_files` gives for one file. -/
def fileResult (readExactAt : File → ℕ → (size : ℕ) → Except E {buffer : List UInt8 // buffer.length = size}) :
    Except E (File × ℕ) → Except E Digest
  | .error e => .error e
  | .ok (file, length) =>
    fileDigest length ((List.range (max (divCeil length GROUP) 1)).map (piecesDigests readExactAt file length))

theorem span_none {α : Type} {p : α → Bool} {l : List α} (h : ∀ a ∈ l, p a = false) :
    l.takeWhile p = [] ∧ l.dropWhile p = l := by
  cases l with
  | nil => exact ⟨rfl, rfl⟩
  | cons a l =>
    have ha := h a List.mem_cons_self
    rw [List.takeWhile_cons, List.dropWhile_cons, ha]
    exact ⟨rfl, rfl⟩

variable {v : Task → Except E (List Digest)}

theorem assemble_tasks (hv : ∀ i file length, opened[i]? = some (.ok (file, length)) →
      ∀ group, v (index + i, group) = piecesDigests readExactAt file length group) :
    assemble index opened ((tasksFrom index opened).map fun task => (task, v task)) =
      opened.map (fileResult readExactAt) := by
  induction opened generalizing index with
  | nil => rfl
  | cons opening rest ih =>
    have hrest := @ih (index + 1) fun i file length hfile group => by
      rw [Nat.add_assoc, Nat.add_comm 1]
      exact hv (i + 1) file length hfile group
    cases opening with
    | error e => rw [tasksFrom_error, assemble, hrest, List.map_cons, fileResult]
    | ok opening =>
      obtain ⟨file, length⟩ := opening
      have hmine : ∀ d ∈ (((List.range (max (divCeil length GROUP) 1)).map fun group => (index, group)).map
          fun task => (task, v task)), decide (d.1.1 = index) = true := by
        intro d hd
        obtain ⟨task, htask, rfl⟩ := List.mem_map.mp hd
        obtain ⟨group, -, rfl⟩ := List.mem_map.mp htask
        exact decide_eq_true rfl
      have hothers := span_none (p := fun d : Task × Except E (List Digest) => decide (d.1.1 = index))
        (l := (tasksFrom (index + 1) rest).map fun task => (task, v task)) fun d hd => by
          obtain ⟨task, htask, rfl⟩ := List.mem_map.mp hd
          obtain ⟨i, file, length, hindex, -⟩ := exists_of_mem_tasksFrom htask
          apply decide_eq_false
          dsimp only
          omega
      have hgroups : ∀ group, v (index, group) = piecesDigests readExactAt file length group := hv 0 file length rfl
      have hfirst : ((((List.range (max (divCeil length GROUP) 1)).map fun group => (index, group)).map
          fun task => (task, v task)).map (·.2)) =
          (List.range (max (divCeil length GROUP) 1)).map (piecesDigests readExactAt file length) := by
        rw [List.map_map, List.map_map]
        exact List.map_congr_left fun group _ => hgroups group
      rw [tasksFrom_ok, List.map_append, assemble, List.takeWhile_append_of_pos hmine, List.dropWhile_append_of_pos hmine,
        hothers.1, hothers.2, List.append_nil, hfirst, hrest]
      rfl

/-- Results that are all there are joined. -/
theorem mapM_results {done : List (Task × Option (Except E (List Digest)))}
    (h : ∀ d ∈ done, d.2 = some (v d.1)) :
    done.mapM (fun d => d.2.map (d.1, ·)) = some (done.map fun d => (d.1, v d.1)) := by
  induction done with
  | nil => rfl
  | cons d done ih =>
    have hd := h d List.mem_cons_self
    have hrest := ih fun d hd => h d (List.mem_cons_of_mem _ hd)
    rw [List.mapM_cons, hd, hrest]
    rfl

theorem keyLe_iff {a b : Task × Except E (List Digest)} :
    keyLe a b = true ↔ a.1.1 < b.1.1 ∨ a.1.1 = b.1.1 ∧ a.1.2 ≤ b.1.2 := by
  rw [keyLe, Bool.or_eq_true, Bool.and_eq_true, decide_eq_true_eq, decide_eq_true_eq, decide_eq_true_eq]

/-- Sorting the results brings the tasks back into their order. -/
theorem mergeSort_results {results : List (Task × Except E (List Digest))}
    {tasks : List Task} (hperm : results.Perm (tasks.map fun task => (task, v task)))
    (htasks : tasks.Pairwise fun a b => a.1 < b.1 ∨ a.1 = b.1 ∧ a.2 ≤ b.2) :
    results.mergeSort keyLe = tasks.map fun task => (task, v task) := by
  have htrans : ∀ a b c : Task × Except E (List Digest), keyLe a b = true → keyLe b c = true → keyLe a c = true := by
    intro a b c hab hbc
    rw [keyLe_iff] at hab hbc ⊢
    omega
  have htotal : ∀ a b : Task × Except E (List Digest), (keyLe a b || keyLe b a) = true := by
    intro a b
    rw [Bool.or_eq_true, keyLe_iff, keyLe_iff]
    omega
  have hsorted := List.pairwise_mergeSort htrans htotal results
  have hordered : (tasks.map fun task => (task, v task)).Pairwise fun a b => keyLe a b = true := by
    rw [List.pairwise_map]
    exact htasks.imp fun h => keyLe_iff.mpr h
  have hsame := (List.mergeSort_perm results keyLe).trans hperm
  refine hsame.eq_of_pairwise ?_ hsorted hordered
  intro a b ha hb hab hba
  obtain ⟨task, -, rfl⟩ := List.mem_map.mp (hsame.subset ha)
  obtain ⟨task', -, rfl⟩ := List.mem_map.mp hb
  rw [keyLe_iff] at hab hba
  dsimp only at hab hba
  have htask : task = task' := by
    apply Prod.ext
    · omega
    · omega
  rw [htask]

theorem digestAll_eq {done : List (Task × Option (Except E (List Digest)))}
    (h : done.Perm ((tasksFrom 0 opened).map (performTask readExactAt avx2 opened))) :
    digestAll opened done = some (opened.map (fileResult readExactAt)) := by
  have htasks : (tasksFrom 0 opened).map (performTask readExactAt avx2 opened) =
      (tasksFrom 0 opened).map fun task => (task, some (value readExactAt opened task)) :=
    List.map_congr_left fun task htask => performTask_eq htask
  rw [htasks] at h
  have hsome : ∀ d ∈ done, d.2 = some (value readExactAt opened d.1) := by
    intro d hd
    obtain ⟨task, -, rfl⟩ := List.mem_map.mp (h.subset hd)
    rfl
  have hjoined : (done.map fun d => (d.1, value readExactAt opened d.1)).Perm
      ((tasksFrom 0 opened).map fun task => (task, value readExactAt opened task)) := by
    have hmap := h.map fun d => (d.1, value readExactAt opened d.1)
    rwa [List.map_map] at hmap
  have hvalue (i : ℕ) (file : File) (length : ℕ) (hfile : opened[i]? = some (.ok (file, length))) (group : ℕ) :
      value readExactAt opened (0 + i, group) = piecesDigests readExactAt file length group := by
    rw [Nat.zero_add, value, hfile]
  have hassembled := assemble_tasks hvalue
  rw [digestAll, mapM_results hsome, ← hassembled, ← mergeSort_results hjoined pairwise_tasksFrom]
  rfl

/-- `digest_files` always returns, and what it returns does not depend on the workers. -/
theorem digestFiles_iff {Path : Type} {openFile : Path → Except E (File × ℕ)} {paths : List Path} {workers : ℕ}
    {result : Option (List (Except E Digest))} :
    DigestFiles openFile readExactAt avx2 paths workers result ↔
      result = some ((paths.map openFile).map (fileResult readExactAt)) := by
  have hworkers (tasks : ℕ) : 0 < workersFor workers tasks := lt_of_lt_of_le Nat.one_pos (Nat.le_max_left ..)
  constructor
  · rintro ⟨schedule, queue, hrun, hstopped, rfl⟩
    exact digestAll_eq (collected_perm (hworkers _) hrun hstopped)
  · rintro rfl
    have hfinish := @exists_finish _ _ _ (tasksFrom 0 (paths.map openFile)) (performTask readExactAt avx2 (paths.map openFile))
      (start : Queue _ _ (workersFor workers (tasksFrom 0 (paths.map openFile)).length))
    obtain ⟨schedule, queue, hrun, hstopped⟩ := hfinish
    exact ⟨schedule, queue, hrun, hstopped, (digestAll_eq (collected_perm (hworkers _) hrun hstopped)).symm⟩

end Tasks

/-! ### The digest of a file that can be read -/

def sha256Digest (bytes : List UInt8) : Digest := ⟨Sha2.sha256 bytes, Sha2.output_length _⟩

theorem digestBytes_eq : digestBytes = sha256Digest := by
  funext bytes
  exact digest_eq_of_bytes (digestBytes_bytes bytes)

/-- The fields of a file's digest: its length and, in order, the digests of its pieces of 1 MiB. -/
def contentFields (bytes : List UInt8) : Build.Hasher :=
  ((pieces FILE_CHUNK bytes).map sha256Digest).foldl (Build.Hasher.nested · "chunk".toList ·)
    ((Build.Hasher.new.field "length".toList (LittleEndian.leBytes 8 bytes.length)).count "chunks".toList
      (pieces FILE_CHUNK bytes).length)

section Content

variable {Path File E : Type} {openFile : Path → Except E (File × ℕ)}
  {readExactAt : File → ℕ → (size : ℕ) → Except E {buffer : List UInt8 // buffer.length = size}} {bytes : List UInt8}

/-- Every part of the file can be read, with this content. -/
def Reads (readExactAt : File → ℕ → (size : ℕ) → Except E {buffer : List UInt8 // buffer.length = size}) (file : File)
    (bytes : List UInt8) : Prop :=
  ∀ start size, start + size ≤ bytes.length →
    (readExactAt file start size).map Subtype.val = .ok ((bytes.drop start).take size)

/-- The file at a path can be opened and read, with this content. -/
def Readable (openFile : Path → Except E (File × ℕ))
    (readExactAt : File → ℕ → (size : ℕ) → Except E {buffer : List UInt8 // buffer.length = size}) (path : Path)
    (bytes : List UInt8) : Prop :=
  ∃ file, openFile path = .ok (file, bytes.length) ∧ Reads readExactAt file bytes

theorem piecesDigests_eq {file : File} {group : ℕ} (h : Reads readExactAt file bytes)
    (hgroup : group < max (divCeil bytes.length GROUP) 1) : piecesDigests readExactAt file bytes.length group =
      .ok ((pieces FILE_CHUNK (piece GROUP bytes group)).map sha256Digest) := by
  have hstart : group * GROUP ≤ bytes.length := mul_le_of_lt hgroup
  have hread := h (group * GROUP) (min (bytes.length - min (group * GROUP) bytes.length) GROUP) (by omega)
  have hpiece : (bytes.drop (group * GROUP)).take (min (bytes.length - min (group * GROUP) bytes.length) GROUP) =
      piece GROUP bytes group := take_of_end _
  rw [hpiece] at hread
  rw [piecesDigests, ← digestBytes_eq]
  cases hresult : readExactAt file (group * GROUP) (min (bytes.length - min (group * GROUP) bytes.length) GROUP) with
  | error e =>
    rw [hresult] at hread
    cases hread
  | ok buffer =>
    rw [hresult] at hread
    have hbuffer : buffer.1 = piece GROUP bytes group := Except.ok.inj hread
    rw [← hbuffer]
    rfl

theorem foldl_groups (e : Option E) (groups : List (List Digest)) (hasher : Hasher) :
    (groups.map Except.ok).foldl (fun (acc : Hasher × Option E) digests =>
      match digests with
      | .ok digests => (digests.foldl (·.nested "chunk".toList ·) acc.1, acc.2)
      | .error e => (acc.1, acc.2.or (some e))) (hasher, e) =
      (groups.flatten.foldl (·.nested "chunk".toList ·) hasher, e) := by
  induction groups generalizing hasher with
  | nil => rfl
  | cons digests groups ih =>
    rw [List.map_cons, List.foldl_cons, ih, List.flatten_cons, List.foldl_append]

theorem fileResult_eq {file : File} (h : Reads readExactAt file bytes) :
    fileResult readExactAt (.ok (file, bytes.length)) = .ok ((contentFields bytes).finish sha256Digest) := by
  have hgroups : (List.range (max (divCeil bytes.length GROUP) 1)).map (piecesDigests readExactAt file bytes.length) =
      ((pieces GROUP bytes).map fun part => (pieces FILE_CHUNK part).map sha256Digest).map Except.ok := by
    rw [pieces, List.map_map, List.map_map]
    exact List.map_congr_left fun group hgroup => piecesDigests_eq h (List.mem_range.mp hgroup)
  have hpieces : ((pieces GROUP bytes).map fun part => (pieces FILE_CHUNK part).map sha256Digest).flatten =
      (pieces FILE_CHUNK bytes).map sha256Digest := by
    rw [← List.flatMap_def, ← List.map_flatMap, GROUP, flatMap_pieces (by decide) (by decide)]
  have habsorbed := Hasher.foldl_nested_absorbed "chunk".toList ((pieces FILE_CHUNK bytes).map sha256Digest)
    (Hasher.field_absorbed (Hasher.field_absorbed Hasher.new_absorbed "length".toList
      (LittleEndian.leBytes 8 bytes.length)) "chunks".toList (LittleEndian.leBytes 8 (pieces FILE_CHUNK bytes).length))
  have hfinish := Hasher.finish_eq habsorbed
  rw [digestBytes_eq] at hfinish
  rw [fileResult, fileDigest, hgroups, foldl_groups, hpieces, ← length_pieces]
  exact congrArg Except.ok hfinish

theorem digestFiles_readable {avx2 : Bool} {paths : List Path} {workers : ℕ} {digests : List (Except E Digest)}
    (h : DigestFiles openFile readExactAt avx2 paths workers (some digests)) {i : ℕ} {path : Path}
    (hpath : paths[i]? = some path) (hreadable : Readable openFile readExactAt path bytes) :
    digests[i]? = some (.ok ((contentFields bytes).finish sha256Digest)) := by
  obtain ⟨file, hopen, hreads⟩ := hreadable
  have hdigests := Option.some_inj.mp (digestFiles_iff.mp h)
  rw [hdigests, List.getElem?_map, List.getElem?_map, hpath, Option.map_some, Option.map_some, hopen,
    fileResult_eq hreads]

end Content

/-- However a message is cut into updates, in whichever lane it is hashed and whichever workers take the pieces of a
file, the digest is the standard's. -/
theorem digests_agree :
    (∀ updates : List (List UInt8), (updates.foldl update init).finalize.bytes = Sha2.sha256 updates.flatten) ∧
    (∀ (lanes : Fin LANES → List UInt8) (length : ℕ), 64 ∣ length → (∀ l, (lanes l).length = length) →
      ∀ l, bytesOf ((digestLanes lanes length).map (· l)) = (digestBytes (lanes l)).bytes) ∧
    (∀ (avx2 : Bool) (messages : List (List UInt8)) (length : ℕ), messages ≠ [] → messages.length ≤ LANES →
      (∀ message ∈ messages, message.length = length) → 64 ∣ length →
      digestEqual avx2 messages = some (messages.map digestBytes)) ∧
    ∀ (Path File E : Type) (openFile : Path → Except E (File × ℕ))
      (readExactAt : File → ℕ → (size : ℕ) → Except E {buffer : List UInt8 // buffer.length = size}) (avx2 : Bool)
      (paths : List Path),
      ∃ digests : List (Except E Digest),
        (∀ workers result, DigestFiles openFile readExactAt avx2 paths workers result ↔ result = some digests) ∧
        ∀ (i : ℕ) (path : Path) (bytes : List UInt8), paths[i]? = some path → Readable openFile readExactAt path bytes →
          digests[i]? = some (.ok ((contentFields bytes).finish sha256Digest)) := by
  refine ⟨finalize_pieces, ?_, ?_, ?_⟩
  · intro lanes length hwhole hlength l
    rw [digestBytes_bytes]
    exact digestLanes_lane l (hlength l) hwhole
  · intro avx2 messages length hsome hcount hlength hwhole
    exact digestEqual_eq avx2 hsome hcount hlength hwhole
  · intro Path File E openFile readExactAt avx2 paths
    refine ⟨(paths.map openFile).map (fileResult readExactAt), fun workers result => digestFiles_iff, ?_⟩
    intro i path bytes hpath hreadable
    exact digestFiles_readable (digestFiles_iff.mpr rfl : DigestFiles openFile readExactAt avx2 paths 1 _) hpath hreadable

/-- Two messages of one block, and an empty file on three workers. -/
theorem digests_agree_small :
    digestEqual true [List.replicate 64 1, List.replicate 64 2] =
        some [digestBytes (List.replicate 64 1), digestBytes (List.replicate 64 2)] ∧
      ∃ digests : List (Except Empty Digest),
        DigestFiles (fun _ : Unit => .ok ((), 0)) (fun _ _ size => .ok ⟨List.replicate size 0, List.length_replicate⟩)
          false [()] 3 (some digests) ∧
        digests[0]? = some (.ok ((contentFields []).finish sha256Digest)) := by
  have hlanes := digests_agree.2.2.1 true [List.replicate 64 1, List.replicate 64 2] 64 (by decide) (by decide)
    (by decide) (dvd_refl 64)
  obtain ⟨digests, hresult, hdigest⟩ := digests_agree.2.2.2 Unit Unit Empty (fun _ => .ok ((), 0))
    (fun _ _ size => .ok ⟨List.replicate size 0, List.length_replicate⟩) false [()]
  refine ⟨hlanes, digests, (hresult 3 _).mpr rfl, hdigest 0 () [] rfl ⟨(), rfl, ?_⟩⟩
  intro start size hsize
  have hzero : size = 0 := by
    rw [List.length_nil] at hsize
    omega
  rw [hzero, List.take_zero]
  rfl

/-! ### What two files of one digest have in common -/

section Equal

variable {bytes bytes' : List UInt8}

/-- What is hashed for the digest of a file's content. -/
def hashed (bytes : List UInt8) : List (List UInt8) := (contentFields bytes).absorbed :: pieces FILE_CHUNK bytes

/-- The fields tell the digests of the pieces. -/
theorem digests_of_fields (hbytes : Fits bytes) (hbytes' : Fits bytes')
    (h : (contentFields bytes).absorbed = (contentFields bytes').absorbed) :
    (pieces FILE_CHUNK bytes).map sha256Digest = (pieces FILE_CHUNK bytes').map sha256Digest := by
  have hlength := (Hasher.determines_field "length".toList).of_comp
    fun bytes : List UInt8 => LittleEndian.leBytes 8 bytes.length
  have hchunks := (Hasher.determines_absorbAll "chunks".toList (Hasher.determines_nested "chunk".toList)).of_comp
    fun bytes => (pieces FILE_CHUNK bytes).map sha256Digest
  have hfits (bytes : List UInt8) (hbytes : Fits bytes) : Fits ((pieces FILE_CHUNK bytes).map sha256Digest) := by
    have hpos : (pieces FILE_CHUNK bytes).length - 1 < max (divCeil bytes.length FILE_CHUNK) 1 := by
      rw [length_pieces]
      omega
    have hlast : _ * 2 ^ 20 ≤ bytes.length := mul_le_of_lt hpos
    rw [Fits, List.length_map]
    omega
  obtain ⟨code, happ, hinj⟩ := (hlength.mono (Q := Fits) fun bytes _ => by simp [Fits]).comp
    (hchunks.mono fun bytes hbytes => ⟨hfits bytes hbytes, fun _ _ => trivial⟩)
  have hcode (bytes : List UInt8) : (contentFields bytes).absorbed = code bytes := by
    have happend := happ bytes .new
    simp only [CacheKeyInputs.absorbAll, List.length_map] at happend
    exact happend
  rw [hcode, hcode] at h
  exact congrArg Prod.snd (hinj bytes bytes' [] [] hbytes hbytes' (by rw [h])).1

variable {Path File E : Type} {openFile : Path → Except E (File × ℕ)}
  {readExactAt : File → ℕ → (size : ℕ) → Except E {buffer : List UInt8 // buffer.length = size}} {avx2 : Bool}
  {paths : List Path} {workers i j : ℕ} {digests : List (Except E Digest)} {path path' : Path}

/-- Files that can be read and have one digest have one content, unless two of the byte strings hashed for them are a
collision. -/
theorem content_of_digest (h : DigestFiles openFile readExactAt avx2 paths workers (some digests))
    (hpath : paths[i]? = some path) (hpath' : paths[j]? = some path') (hreadable : Readable openFile readExactAt path bytes)
    (hreadable' : Readable openFile readExactAt path' bytes') (hbytes : Fits bytes) (hbytes' : Fits bytes')
    (hsame : digests[i]? = digests[j]?) :
    bytes = bytes' ∨ ∃ x ∈ hashed bytes, ∃ y ∈ hashed bytes', x ≠ y ∧ Sha2.sha256 x = Sha2.sha256 y := by
  rw [digestFiles_readable h hpath hreadable, digestFiles_readable h hpath' hreadable'] at hsame
  have hdigest : sha256Digest _ = sha256Digest _ := Except.ok.inj (Option.some.inj hsame)
  by_cases hfields : (contentFields bytes).absorbed = (contentFields bytes').absorbed
  · have hpieces := digests_of_fields hbytes hbytes' hfields
    by_cases hequal : pieces FILE_CHUNK bytes = pieces FILE_CHUNK bytes'
    · left
      rw [← flatten_pieces (by decide : 0 < FILE_CHUNK) bytes, hequal, flatten_pieces (by decide)]
    · right
      by_contra hnone
      refine hequal (List.ext_getElem (by simpa using congrArg List.length hpieces) fun k hk hk' => ?_)
      by_contra hne
      have hpiece : sha256Digest (pieces FILE_CHUNK bytes)[k] = sha256Digest (pieces FILE_CHUNK bytes')[k] := by
        simpa [hk, hk'] using congrArg (·[k]?) hpieces
      exact hnone ⟨_, List.mem_cons_of_mem _ (List.getElem_mem hk), _, List.mem_cons_of_mem _ (List.getElem_mem hk'), hne,
        congrArg Digest.bytes hpiece⟩
  · exact .inr ⟨_, List.mem_cons_self, _, List.mem_cons_self, hfields, congrArg Digest.bytes hdigest⟩

/-- An empty file, digested twice by three workers. -/
theorem content_of_digest_twice : ([] : List UInt8) = [] ∨
    ∃ x ∈ hashed [], ∃ y ∈ hashed [], x ≠ y ∧ Sha2.sha256 x = Sha2.sha256 y := by
  have hreadable : Readable (fun _ : Unit => (.ok ((), 0) : Except Empty (Unit × ℕ)))
      (fun _ _ size => .ok ⟨List.replicate size 0, List.length_replicate⟩) () [] := by
    refine ⟨(), rfl, fun start size hsize => ?_⟩
    obtain ⟨-, rfl⟩ : start = 0 ∧ size = 0 := by simpa using hsize
    rfl
  have hdigests : DigestFiles (fun _ : Unit => (.ok ((), 0) : Except Empty (Unit × ℕ)))
      (fun _ _ size => .ok ⟨List.replicate size 0, List.length_replicate⟩) false [(), ()] 3 (some _) :=
    digestFiles_iff.mpr rfl
  exact content_of_digest hdigests (i := 0) (j := 1) rfl rfl hreadable hreadable (by decide) (by decide) rfl

end Equal

end Krusty.Build.Sha256
