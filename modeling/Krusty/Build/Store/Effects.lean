import Krusty.Build.Store.Operations

/-! What each call reads of the store's directory and changes in it. -/
namespace Krusty.Build.Store

open Files Interference Strings

namespace Root

variable {s s' : Root} {name : Name}

theorem read_eq {tree : Tree Text (List UInt8)} (h : s.tree? name = some tree) (path : List Text) :
    s.read name path = tree.read path := by
  simp only [read, h]

theorem read_ok {path : List Text} {content : List UInt8} (h : s.read name path = .ok content) :
    ∃ tree, s.tree? name = some tree ∧ tree.read path = .ok content := by
  rw [read] at h
  cases ht : s.tree? name with
  | none =>
    rw [ht] at h
    cases h
  | some tree =>
    rw [ht] at h
    exact ⟨tree, rfl, h⟩

theorem isDirectory_eq (h : s.tree? name = s'.tree? name) : s.isDirectory name = s'.isDirectory name := by
  rw [isDirectory, isDirectory, h]

theorem isDirectory_iff :
    s.isDirectory name = true ↔ ∃ tree, s.tree? name = some tree ∧ tree.isDirectory = true := by
  rw [isDirectory]
  cases s.tree? name <;> simp

/-- The trees after a name was assigned a node. -/
theorem tree?_assign (name : Name) (node : Node) (n : ℕ) (m : Name) :
    tree? { entries := assign name node s.entries, next := n } m =
      if m = name then some node.tree else s.tree? m := by
  rw [tree?, tree?]
  split
  · next h => rw [h, lookup_assign_self, Option.map_some]
  · next h => rw [lookup_assign_of_ne h]

theorem tree?_unassign (name : Name) (n : ℕ) (m : Name) :
    tree? { entries := unassign name s.entries, next := n } m = if m = name then none else s.tree? m := by
  rw [tree?, tree?]
  split
  · next h => rw [h, lookup_unassign_self, Option.map_none]
  · next h => rw [lookup_unassign_of_ne h]

theorem createAll_ok {path : List Text} (h : s.createAll name path = .ok s') :
    ∃ tree, ((s.tree? name).getD (.directory [])).createAll path = .ok tree ∧
      ∀ m, s'.tree? m = if m = name then some tree else s.tree? m := by
  have hnode : ((s.entries.lookup name).getD { inode := s.next, tree := .directory [] }).tree =
      (s.tree? name).getD (.directory []) := by
    rw [tree?]
    cases s.entries.lookup name <;> rfl
  rw [createAll, hnode] at h
  cases ht : ((s.tree? name).getD (.directory [])).createAll path with
  | error e =>
    rw [ht] at h
    cases h
  | ok tree =>
    rw [ht] at h
    obtain rfl := Except.ok.inj h
    exact ⟨tree, rfl, tree?_assign name _ _⟩

theorem write_ok {path : List Text} {content : List UInt8} (h : s.write name path content = .ok s') :
    ∃ old tree, s.tree? name = some old ∧ old.write content path = .ok tree ∧
      ∀ m, s'.tree? m = if m = name then some tree else s.tree? m := by
  rw [write] at h
  cases hl : s.entries.lookup name with
  | none =>
    rw [hl] at h
    cases h
  | some node =>
    simp only [hl] at h
    cases ht : node.tree.write content path with
    | error e =>
      rw [ht] at h
      cases h
    | ok tree =>
      rw [ht] at h
      obtain rfl := Except.ok.inj h
      exact ⟨node.tree, tree, by rw [tree?, hl]; rfl, ht, tree?_assign name _ _⟩

theorem rename_ok {source target : Name} (hne : source ≠ target) (h : s.rename source target = .ok s') :
    ∃ tree, s.tree? source = some tree ∧
      ∀ m, s'.tree? m = if m = target then some tree else if m = source then none else s.tree? m := by
  rw [rename] at h
  cases hl : s.entries.lookup source with
  | none =>
    rw [hl] at h
    cases h
  | some node =>
    simp only [hl, if_neg hne] at h
    have hmoved : ∀ m, tree? { s with entries := assign target node (unassign source s.entries) } m =
        if m = target then some node.tree else if m = source then none else s.tree? m := by
      intro m
      have ha := tree?_assign (s := { s with entries := unassign source s.entries }) target node s.next m
      rw [ha, tree?_unassign]
    refine ⟨node.tree, by rw [tree?, hl]; rfl, ?_⟩
    split at h
    all_goals first
      | (obtain rfl := Except.ok.inj h; exact hmoved)
      | cases h

/-- A directory is renamed to a name that is free. -/
theorem rename_free {source target : Name} (hs : s.isDirectory source = true) (ht : s.tree? target = none) :
    ∃ s', s.rename source target = .ok s' := by
  obtain ⟨tree, hsource, -⟩ := isDirectory_iff.mp hs
  rw [tree?] at hsource
  obtain ⟨node, hl, -⟩ := Option.map_eq_some_iff.mp hsource
  rw [rename, hl]
  by_cases hne : source = target
  · exact ⟨s, by simp [hne]⟩
  · exact ⟨{ s with entries := assign target node (unassign source s.entries) }, by simp [hne, ht]⟩

theorem removeDirectory_ok (h : s.removeDirectory name = .ok s') :
    s.isDirectory name = true ∧ ∀ m, s'.tree? m = if m = name then none else s.tree? m := by
  rw [removeDirectory] at h
  split at h
  · cases h
  · cases h
  · cases h
  · next ht =>
    obtain rfl := Except.ok.inj h
    exact ⟨by simp [isDirectory, ht, Tree.isDirectory], tree?_unassign name _⟩

theorem tree?_removeBelow (inode : ℕ) (name : Name) :
    (s.removeBelow inode).tree? name = s.tree? name ∨
      s.isDirectory name = true ∧ (s.removeBelow inode).tree? name = some (.directory []) := by
  rw [isDirectory, tree?, tree?, removeBelow]
  induction s.entries with
  | nil => exact .inl rfl
  | cons e entries ih =>
    rw [List.map_cons]
    by_cases hm : name = e.1
    · obtain ⟨n, node⟩ := e
      subst hm
      split
      · next h => exact .inr ⟨by simp [h.2], by simp⟩
      · exact .inl (by simp)
    · have hne : name ≠ (if e.2.inode = inode ∧ e.2.tree.isDirectory = true then
          (e.1, { e.2 with tree := .directory [] }) else e).1 := by
        split <;> exact hm
      rw [lookup_skip hne, lookup_skip hm]
      exact ih

theorem tree?_removeBelow_self {node : Node} (h : s.entries.lookup name = some node)
    (hd : node.tree.isDirectory = true) : (s.removeBelow node.inode).tree? name = some (.directory []) := by
  rw [tree?, removeBelow]
  revert h
  induction s.entries with
  | nil => exact nofun
  | cons e entries ih =>
    intro h
    rw [List.map_cons]
    by_cases hm : name = e.1
    · obtain ⟨n, node'⟩ := e
      subst hm
      obtain rfl := Option.some.inj (List.lookup_cons_self.symm.trans h)
      rw [if_pos ⟨rfl, hd⟩, List.lookup_cons_self, Option.map_some]
    · have hne : name ≠ (if e.2.inode = node.inode ∧ e.2.tree.isDirectory = true then
          (e.1, { e.2 with tree := .directory [] }) else e).1 := by
        split <;> exact hm
      rw [lookup_skip hne]
      exact ih (by rwa [lookup_skip hm] at h)

theorem isDirectory_removeBelow (inode : ℕ) (name : Name) :
    (s.removeBelow inode).isDirectory name = s.isDirectory name := by
  rcases tree?_removeBelow (s := s) inode name with h | ⟨hd, h⟩
  · rw [isDirectory, h, ← isDirectory]
  · rw [hd, isDirectory, h]
    rfl

end Root

/-! ### Running a program alone -/

section Run

variable (s : Root)

@[simp] theorem run_isDirectory (name : Name) :
    (Fs.isDirectory name).run Root.exec s = (.ok (s.isDirectory name), s) := rfl

@[simp] theorem run_read (name : Name) (path : List Text) :
    (Fs.read name path).run Root.exec s = (s.read name path, s) := rfl

@[simp] theorem run_createAll (name : Name) (path : List Text) :
    (Fs.createAll name path).run Root.exec s = s.change (s.createAll name path) := rfl

@[simp] theorem run_write (name : Name) (path : List Text) (content : List UInt8) :
    (Fs.write name path content).run Root.exec s = s.change (s.write name path content) := rfl

@[simp] theorem run_rename (source target : Name) :
    (Fs.rename source target).run Root.exec s = s.change (s.rename source target) := rfl

@[simp] theorem run_openDirectory (name : Name) :
    (Fs.openDirectory name).run Root.exec s = (s.openDirectory name, s) := rfl

@[simp] theorem run_removeBelow (inode : ℕ) :
    (Fs.removeBelow inode).run Root.exec s = (.ok (), s.removeBelow inode) := rfl

@[simp] theorem run_removeDirectory (name : Name) :
    (Fs.removeDirectory name).run Root.exec s = s.change (s.removeDirectory name) := rfl

@[simp] theorem run_isDir (name : Name) : (isDir name).run Root.exec s = (s.isDirectory name, s) := by
  simp [isDir]

/-- Removing a tree leaves the other names directories or not, as they were. -/
theorem removeDirAll_others {name m : Name} (h : m ≠ name) :
    ((removeDirAll name).run Root.exec s).2.isDirectory m = s.isDirectory m := by
  rw [removeDirAll, Program.run_bind, run_openDirectory]
  cases s.openDirectory name with
  | error e => rfl
  | ok inode =>
    simp only [Program.run_bind, run_removeBelow, run_removeDirectory]
    cases hr : (s.removeBelow inode).removeDirectory name with
    | error e => exact Root.isDirectory_removeBelow inode m
    | ok s' =>
      have ht := (Root.removeDirectory_ok hr).2 m
      rw [if_neg h] at ht
      rw [Root.change, Root.isDirectory_eq ht, Root.isDirectory_removeBelow]

end Run

end Krusty.Build.Store
