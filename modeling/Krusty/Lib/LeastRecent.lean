import Mathlib.Data.List.MinMax
import Krusty.Lib.Lookups

/-! A queue that gives out an element of least rank first. -/
namespace PriorityQueue

variable {α : Type*} [DecidableEq α] (rank : α → ℕ)

/-- Take out an element of least rank. -/
def popMin (queue : List α) : Option (α × List α) :=
  (queue.argmin rank).map fun a => (a, queue.erase a)

variable {rank} {a : α} {queue rest : List α}

theorem popMin_eq_none : popMin rank queue = none ↔ queue = [] := by
  rw [popMin, Option.map_eq_none_iff, List.argmin_eq_none]

/-- What is popped and what is left make up the queue, and nothing left ranks lower. -/
theorem popMin_spec (h : popMin rank queue = some (a, rest)) :
    queue.Perm (a :: rest) ∧ ∀ b ∈ queue, rank a ≤ rank b := by
  obtain ⟨least, hleast, heq⟩ := Option.map_eq_some_iff.mp h
  cases heq
  exact ⟨List.perm_cons_erase (List.argmin_mem hleast), fun b hb => List.le_of_mem_argmin hb hleast⟩

/-- What is not popped is left. -/
theorem mem_rest (h : popMin rank queue = some (a, rest)) {b : α} (hb : b ∈ queue) (hne : b ≠ a) : b ∈ rest :=
  List.mem_of_ne_of_mem hne ((popMin_spec h).1.mem_iff.mp hb)

theorem length_popMin (h : popMin rank queue = some (a, rest)) : queue.length = rest.length + 1 :=
  (popMin_spec h).1.length_eq

end PriorityQueue

/-! A map of at most `cap` keys that drops the least recently used one for a new key: the reference for
caches. -/

/-- The entries in the order of their last use, the oldest first. -/
structure LeastRecent (κ ν : Type) (cap : ℕ) where
  entries : List (κ × ν)
  distinct : (entries.map Prod.fst).Nodup
  bounded : entries.length ≤ cap

namespace LeastRecent

variable {κ ν : Type} [DecidableEq κ] {cap : ℕ}

def without (k : κ) (entries : List (κ × ν)) : List (κ × ν) := entries.filter fun e => e.1 ≠ k

variable {entries : List (κ × ν)} {k : κ}

theorem mem_without {e : κ × ν} : e ∈ without k entries ↔ e ∈ entries ∧ e.1 ≠ k := by
  simp [without]

theorem length_without_le (k : κ) (entries : List (κ × ν)) : (without k entries).length ≤ entries.length :=
  List.length_filter_le ..

theorem length_without_lt (h : k ∈ entries.map Prod.fst) : (without k entries).length < entries.length := by
  obtain ⟨e, he, hk⟩ := List.mem_map.mp h
  apply List.length_filter_lt_length_iff_exists.mpr
  exact ⟨e, he, by simp [hk]⟩

theorem distinct_without (h : (entries.map Prod.fst).Nodup) : ((without k entries).map Prod.fst).Nodup :=
  h.sublist (List.filter_sublist.map _)

omit [DecidableEq κ] in
theorem distinct_concat {v : ν} (h : (entries.map Prod.fst).Nodup)
    (hk : k ∉ entries.map Prod.fst) : ((entries ++ [(k, v)]).map Prod.fst).Nodup := by
  rw [List.map_append]
  exact h.append (List.nodup_singleton k) (by simpa using hk)

theorem without_head {e : κ × ν} (h : ((e :: entries).map Prod.fst).Nodup) :
    without e.1 (e :: entries) = entries := by
  rw [List.map_cons, List.nodup_cons] at h
  have hothers : entries.filter (fun e' => e'.1 ≠ e.1) = entries := by
    apply List.filter_eq_self.mpr
    intro e' he'
    have hne : e'.1 ≠ e.1 := fun heq => h.1 (List.mem_map.mpr ⟨e', he', heq⟩)
    exact decide_eq_true hne
  simpa [without] using hothers

theorem notMem_without (k : κ) (entries : List (κ × ν)) : k ∉ (without k entries).map Prod.fst := by
  intro h
  obtain ⟨e, he, hk⟩ := List.mem_map.mp h
  exact (mem_without.mp he).2 hk

def empty : LeastRecent κ ν cap where
  entries := []
  distinct := List.nodup_nil
  bounded := Nat.zero_le cap

def lookup (self : LeastRecent κ ν cap) (k : κ) : Option ν := self.entries.lookup k

/-- A present key with its value, as the one last used. -/
def use (self : LeastRecent κ ν cap) (k : κ) (v : ν) (h : k ∈ self.entries.map Prod.fst) : LeastRecent κ ν cap where
  entries := without k self.entries ++ [(k, v)]
  distinct := distinct_concat (distinct_without self.distinct) (notMem_without k _)
  bounded := by
    have hlt := length_without_lt h
    have hle := self.bounded
    rw [List.length_append, List.length_singleton]
    omega

/-- A new key, in place of the one used longest ago when the map is full. -/
def add (self : LeastRecent κ ν cap) (hcap : 0 < cap) (k : κ) (v : ν) (h : k ∉ self.entries.map Prod.fst) :
    LeastRecent κ ν cap where
  entries := (if cap ≤ self.entries.length then self.entries.drop 1 else self.entries) ++ [(k, v)]
  distinct := by
    split_ifs
    · apply distinct_concat (self.distinct.sublist ((List.drop_sublist 1 _).map _))
      exact fun hk => h (((List.drop_sublist 1 _).map _).subset hk)
    · exact distinct_concat self.distinct h
  bounded := by
    have hle := self.bounded
    split_ifs <;> simp <;> omega

variable {self : LeastRecent κ ν cap}

theorem mem_of_lookup {v : ν} (h : self.lookup k = some v) : k ∈ self.entries.map Prod.fst :=
  List.mem_map.mpr ⟨(k, v), Lookups.mem_of_lookup h, rfl⟩

/-- Read a key, and leave `write` of its value there. -/
def access (self : LeastRecent κ ν cap) (write : ν → ν) (k : κ) : Option ν × LeastRecent κ ν cap :=
  match h : self.lookup k with
  | some v => (some v, self.use k (write v) (mem_of_lookup h))
  | none => (none, self)

theorem access_of_lookup {v : ν} (h : self.lookup k = some v)
    (write : ν → ν) : self.access write k = (some v, self.use k (write v) (mem_of_lookup h)) := by
  unfold access
  split
  · next v' h' =>
    cases Option.some.inj (h.symm.trans h')
    rfl
  · next h' => cases h.symm.trans h'

theorem access_of_absent (h : self.lookup k = none) (write : ν → ν) : self.access write k = (none, self) := by
  unfold access
  split
  · next v' h' => cases h.symm.trans h'
  · rfl

omit [DecidableEq κ] in
theorem add_entries_full (hfull : cap ≤ self.entries.length) (hcap : 0 < cap)
    (v : ν) (h : k ∉ self.entries.map Prod.fst) :
    (self.add hcap k v h).entries = self.entries.drop 1 ++ [(k, v)] :=
  congrArg (· ++ [(k, v)]) (if_pos hfull)

omit [DecidableEq κ] in
theorem add_entries_room (hroom : self.entries.length < cap) (hcap : 0 < cap)
    (v : ν) (h : k ∉ self.entries.map Prod.fst) :
    (self.add hcap k v h).entries = self.entries ++ [(k, v)] :=
  congrArg (· ++ [(k, v)]) (if_neg (Nat.not_le.mpr hroom))

def insert (self : LeastRecent κ ν cap) (hcap : 0 < cap) (k : κ) (v : ν) : LeastRecent κ ν cap :=
  if h : k ∈ self.entries.map Prod.fst then self.use k v h else self.add hcap k v h

def remove (self : LeastRecent κ ν cap) (k : κ) : Option ν × LeastRecent κ ν cap :=
  (self.lookup k,
    { entries := without k self.entries
      distinct := distinct_without self.distinct
      bounded := Nat.le_trans (length_without_le k _) self.bounded })

end LeastRecent
