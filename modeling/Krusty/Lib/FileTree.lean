import Mathlib

/-! Trees of directories and files, and the calls that look things up in them and change them. -/
namespace Files

/-- Why a call on files fails. -/
inductive IoError where
  | notFound
  | notADirectory
  | isADirectory
  | directoryNotEmpty
  | invalidData
  | invalidInput
  | other (code : ℕ)
  deriving DecidableEq

inductive Tree (ν β : Type) where
  | file (content : β)
  | directory (children : List (ν × Tree ν β))

variable {ν β γ : Type} [DecidableEq ν]

/-- Give a name its value, in the place of the one it had. -/
def assign (n : ν) (x : γ) : List (ν × γ) → List (ν × γ)
  | [] => [(n, x)]
  | e :: entries => if e.1 = n then (n, x) :: entries else e :: assign n x entries

def unassign (n : ν) (entries : List (ν × γ)) : List (ν × γ) := entries.filter (·.1 ≠ n)

section Lookup

variable [BEq ν] [LawfulBEq ν]

omit [DecidableEq ν] in
theorem lookup_skip {m : ν} {e : ν × γ} (h : m ≠ e.1) (entries : List (ν × γ)) :
    (e :: entries).lookup m = entries.lookup m := by
  obtain ⟨k, x⟩ := e
  simp [List.lookup, beq_false_of_ne h]

theorem lookup_cons_congr (m : ν) (e : ν × γ) {entries entries' : List (ν × γ)}
    (h : entries.lookup m = entries'.lookup m) : (e :: entries).lookup m = (e :: entries').lookup m := by
  by_cases hm : m = e.1
  · obtain ⟨k, x⟩ := e
    subst hm
    rw [List.lookup_cons_self, List.lookup_cons_self]
  · rw [lookup_skip hm, lookup_skip hm, h]

theorem lookup_assign_self (n : ν) (x : γ) (entries : List (ν × γ)) :
    (assign n x entries).lookup n = some x := by
  induction entries with
  | nil => exact List.lookup_cons_self
  | cons e entries ih =>
    rw [assign]
    split
    · exact List.lookup_cons_self
    · next h => rw [lookup_skip (Ne.symm h), ih]

theorem lookup_assign_of_ne {n m : ν} (h : m ≠ n) (x : γ) (entries : List (ν × γ)) :
    (assign n x entries).lookup m = entries.lookup m := by
  induction entries with
  | nil => exact lookup_skip h []
  | cons e entries ih =>
    rw [assign]
    split
    · next he =>
      have hm : m ≠ e.1 := by rw [he]; exact h
      rw [lookup_skip h, lookup_skip hm]
    · exact lookup_cons_congr m e ih

theorem lookup_unassign_self (n : ν) (entries : List (ν × γ)) : (unassign n entries).lookup n = none := by
  induction entries with
  | nil => rfl
  | cons e entries ih =>
    rw [unassign] at ih ⊢
    rw [List.filter_cons]
    split
    · next he =>
      have hn : e.1 ≠ n := by simpa using he
      rw [lookup_skip hn.symm, ih]
    · exact ih

theorem lookup_unassign_of_ne {n m : ν} (h : m ≠ n) (entries : List (ν × γ)) :
    (unassign n entries).lookup m = entries.lookup m := by
  induction entries with
  | nil => rfl
  | cons e entries ih =>
    rw [unassign] at ih ⊢
    rw [List.filter_cons]
    split
    · exact lookup_cons_congr m e ih
    · next he =>
      have hn : e.1 = n := by simpa using he
      have hm : m ≠ e.1 := by rw [hn]; exact h
      rw [lookup_skip hm, ih]

end Lookup

namespace Tree

/-- What a path names. -/
def find : Tree ν β → List ν → Except IoError (Tree ν β)
  | t, [] => .ok t
  | file _, _ :: _ => .error .notADirectory
  | directory children, n :: path =>
    match children.lookup n with
    | none => .error .notFound
    | some t => t.find path

def read (t : Tree ν β) (path : List ν) : Except IoError β :=
  match t.find path with
  | .error e => .error e
  | .ok (file content) => .ok content
  | .ok (directory _) => .error .isADirectory

/-- A file's new content, the file made where there is none. -/
def write (content : β) : Tree ν β → List ν → Except IoError (Tree ν β)
  | file _, [] => .ok (file content)
  | directory _, [] => .error .isADirectory
  | file _, _ :: _ => .error .notADirectory
  | directory children, n :: path =>
    match children.lookup n with
    | none => if path = [] then .ok (directory (assign n (file content) children)) else .error .notFound
    | some t => do return directory (assign n (← t.write content path) children)

/-- Make a directory and the ones above it that are not there yet. -/
def createAll : Tree ν β → List ν → Except IoError (Tree ν β)
  | directory children, [] => .ok (directory children)
  | file _, _ => .error .notADirectory
  | directory children, n :: path => do
    return directory (assign n (← ((children.lookup n).getD (directory [])).createAll path) children)

/-- Take away what a path names, if it names anything below the tree. -/
def erase : Tree ν β → List ν → Tree ν β
  | directory children, [n] => directory (unassign n children)
  | directory children, n :: m :: path =>
    match children.lookup n with
    | none => directory children
    | some t => directory (assign n (t.erase (m :: path)) children)
  | t, _ => t

/-- Put a tree where a path leads, over what is there. The directories above are there. -/
def graft (new : Tree ν β) : Tree ν β → List ν → Except IoError (Tree ν β)
  | _, [] => .ok new
  | file _, _ :: _ => .error .notADirectory
  | directory children, n :: path =>
    match children.lookup n with
    | none => if path = [] then .ok (directory (assign n new children)) else .error .notFound
    | some t => do return directory (assign n (← graft new t path) children)

/-- Move a tree. A directory takes the place of nothing or of an empty directory, a file that of nothing or of
a file. -/
def rename (t : Tree ν β) (source target : List ν) : Except IoError (Tree ν β) := do
  let moved ← t.find source
  match moved, t.find target with
  | directory _, .ok (directory (_ :: _)) => .error .directoryNotEmpty
  | directory _, .ok (file _) => .error .notADirectory
  | file _, .ok (directory _) => .error .isADirectory
  | _, _ => graft moved (t.erase source) target

def isDirectory : Tree ν β → Bool
  | file _ => false
  | directory _ => true

theorem read_nil (t : Tree ν β) :
    t.read [] = match t with | file content => .ok content | directory _ => .error .isADirectory := by
  cases t <;> rfl

theorem read_file_cons (content : β) (n : ν) (path : List ν) :
    (file content).read (n :: path) = .error .notADirectory := rfl

variable {children : List (ν × Tree ν β)}

theorem read_cons {n : ν} {t : Tree ν β} (h : children.lookup n = some t)
    (path : List ν) : (directory children).read (n :: path) = t.read path := by
  simp only [read, find, h]

theorem read_cons_none {n : ν} (h : children.lookup n = none)
    (path : List ν) : (directory children).read (n :: path) = .error .notFound := by
  simp only [read, find, h]

/-- Files below a name that was assigned are those of the new tree there; the others stay. -/
theorem read_assign (n m : ν) (t : Tree ν β) (children : List (ν × Tree ν β)) (path : List ν) :
    (directory (assign n t children)).read (m :: path) =
      if m = n then t.read path else (directory children).read (m :: path) := by
  split
  · next h =>
    subst h
    exact read_cons (lookup_assign_self m t children) path
  · next h =>
    cases hm : children.lookup m with
    | none => rw [read_cons_none hm, read_cons_none (by rw [lookup_assign_of_ne h, hm])]
    | some u => rw [read_cons hm, read_cons (by rw [lookup_assign_of_ne h, hm])]

theorem write_directory {b : β} {n : ν} {path : List ν} {t' : Tree ν β}
    (h : (directory children).write b (n :: path) = .ok t') :
    (children.lookup n = none ∧ path = [] ∧ t' = directory (assign n (file b) children)) ∨
      ∃ t u, children.lookup n = some t ∧ t.write b path = .ok u ∧ t' = directory (assign n u children) := by
  rw [write] at h
  cases hn : children.lookup n with
  | none =>
    simp only [hn] at h
    split at h
    · next hp => exact .inl ⟨rfl, hp, (Except.ok.inj h).symm⟩
    · cases h
  | some t =>
    simp only [hn] at h
    cases hu : t.write b path with
    | error e => simp only [hu] at h; cases h
    | ok u =>
      simp only [hu] at h
      exact .inr ⟨t, u, rfl, hu, (Except.ok.inj h).symm⟩

variable {t t' : Tree ν β}

theorem read_write_self {b : β} {path : List ν} (h : t.write b path = .ok t') : t'.read path = .ok b := by
  induction path generalizing t t' with
  | nil =>
    cases t with
    | directory children => cases h
    | file c =>
      obtain rfl := Except.ok.inj h
      rfl
  | cons n path ih =>
    cases t with
    | file c => cases h
    | directory children =>
      obtain ⟨-, rfl, rfl⟩ | ⟨t, u, -, hu, rfl⟩ := write_directory h
      · rw [read_assign, if_pos rfl]
        rfl
      · rw [read_assign, if_pos rfl, ih hu]

variable {path other : List ν}

/-- Writing one file leaves every other as it is. -/
theorem read_write_of_ne {b c : β} (h : t.write b path = .ok t')
    (hne : other ≠ path) : t'.read other = .ok c ↔ t.read other = .ok c := by
  induction path generalizing t t' other with
  | nil =>
    cases t with
    | directory children => cases h
    | file d =>
      obtain rfl := Except.ok.inj h
      obtain ⟨m, other, rfl⟩ := List.exists_cons_of_ne_nil hne
      rw [read_file_cons, read_file_cons]
  | cons n path ih =>
    cases t with
    | file d => cases h
    | directory children =>
      cases other with
      | nil => obtain ⟨-, -, rfl⟩ | ⟨t, u, -, -, rfl⟩ := write_directory h <;> rw [read_nil, read_nil]
      | cons m other =>
        obtain ⟨hn, rfl, rfl⟩ | ⟨t, u, hn, hu, rfl⟩ := write_directory h
        · rw [read_assign]
          split
          · next hm =>
            -- below a new file there is nothing, as there was nothing before
            subst hm
            have ho : other ≠ [] := fun ho => hne (by rw [ho])
            obtain ⟨k, other, rfl⟩ := List.exists_cons_of_ne_nil ho
            rw [read_file_cons, read_cons_none hn]
            simp
          · rfl
        · rw [read_assign]
          split
          · next hm =>
            subst hm
            rw [ih hu (fun ho => hne (by rw [ho])), read_cons hn]
          · rfl

theorem createAll_directory {n : ν} {path : List ν} {t' : Tree ν β}
    (h : (directory children).createAll (n :: path) = .ok t') :
    ∃ u, ((children.lookup n).getD (directory [])).createAll path = .ok u ∧
      t' = directory (assign n u children) := by
  rw [createAll] at h
  cases hu : ((children.lookup n).getD (directory [])).createAll path with
  | error e => simp only [hu] at h; cases h
  | ok u =>
    simp only [hu] at h
    exact ⟨u, rfl, (Except.ok.inj h).symm⟩

/-- Making directories changes no file. -/
theorem read_createAll {c : β} (h : t.createAll path = .ok t') :
    t'.read other = .ok c ↔ t.read other = .ok c := by
  induction path generalizing t t' other with
  | nil =>
    cases t with
    | file d => cases h
    | directory children =>
      obtain rfl := Except.ok.inj h
      rfl
  | cons n path ih =>
    cases t with
    | file d => cases h
    | directory children =>
      obtain ⟨u, hu, rfl⟩ := createAll_directory h
      cases other with
      | nil => rw [read_nil, read_nil]
      | cons m other =>
        rw [read_assign]
        split
        · next hm =>
          subst hm
          rw [ih hu]
          cases hn : children.lookup m with
          | none =>
            rw [read_cons_none hn]
            cases other <;> simp [read, find]
          | some t => rw [read_cons hn, Option.getD_some]
        · rfl

/-- Taking something away leaves no file that was not there. -/
theorem read_erase {c : β} {t : Tree ν β} (h : (t.erase path).read other = .ok c) : t.read other = .ok c := by
  induction path generalizing t other with
  | nil => cases t <;> exact h
  | cons n path ih =>
    cases t with
    | file d => exact h
    | directory children =>
      cases path with
      | nil =>
        cases other with
        | nil => cases h
        | cons m other =>
          rw [erase] at h
          by_cases hm : m = n
          · subst hm
            rw [read_cons_none (lookup_unassign_self m children)] at h
            cases h
          · cases hl : children.lookup m with
            | none =>
              rw [read_cons_none (by rw [lookup_unassign_of_ne hm, hl])] at h
              cases h
            | some t =>
              rw [read_cons (by rw [lookup_unassign_of_ne hm, hl])] at h
              rw [read_cons hl, h]
      | cons k path =>
        cases hn : children.lookup n with
        | none =>
          simp only [erase, hn] at h
          exact h
        | some t =>
          simp only [erase, hn] at h
          cases other with
          | nil => cases h
          | cons m other =>
            rw [read_assign] at h
            split at h
            · next hm =>
              subst hm
              rw [read_cons hn]
              exact ih h
            · exact h

end Tree

end Files
