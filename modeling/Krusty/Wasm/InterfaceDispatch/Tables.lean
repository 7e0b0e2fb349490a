import Krusty.Wasm.InterfaceDispatch.Records

/-! The members looked up are packed so that no class's table holds two at one index. -/
namespace Krusty.Wasm.InterfaceDispatch

/-- A table of a class holds a function at an index. -/
def Entered (tables : Tables) (cls : ClassRef) (index : ℕ) (function : UInt32) : Prop :=
  (tables cls)[index]? = some (some function)

section Enter

variable {table : List (Option UInt32)} {index other : ℕ} {function : UInt32}

theorem length_enter : (enter table index function).length = max table.length (index + 1) := by
  rw [enter, List.length_set, List.length_append, List.length_replicate]
  omega

theorem enter_self : (enter table index function)[index]? = some (some function) := by
  rw [enter, List.getElem?_set_self]
  rw [List.length_append, List.length_replicate]
  omega

theorem enter_other (h : other ≠ index) {g : UInt32} :
    (enter table index function)[other]? = some (some g) ↔ table[other]? = some (some g) := by
  rw [enter, List.getElem?_set_ne h.symm]
  by_cases hlt : other < table.length
  · rw [List.getElem?_append_left hlt]
  · have hnone : table[other]? = none := List.getElem?_eq_none (not_lt.mp hlt)
    rw [List.getElem?_append_right (not_lt.mp hlt), hnone, List.getElem?_replicate]
    split <;> simp

end Enter

section EnterAll

variable {tables : Tables} {index : ℕ} {implementations : List (ClassRef × UInt32)} {cls : ClassRef}

theorem enterAll_of_notMem (h : cls ∉ implementations.map (·.1)) :
    enterAll tables index implementations cls = tables cls := by
  induction implementations generalizing tables with
  | nil => rfl
  | cons first rest ih =>
    rw [List.map_cons, List.mem_cons, not_or] at h
    rw [enterAll, List.foldl_cons]
    exact (ih h.2).trans (Function.update_of_ne h.1 ..)

variable {function : UInt32}

theorem enterAll_of_mem (hnodup : (implementations.map (·.1)).Nodup) (h : (cls, function) ∈ implementations) :
    enterAll tables index implementations cls = enter (tables cls) index function := by
  induction implementations generalizing tables with
  | nil => cases h
  | cons first rest ih =>
    rw [List.map_cons] at hnodup
    have hcons := List.nodup_cons.mp hnodup
    rw [enterAll, List.foldl_cons]
    cases List.mem_cons.mp h with
    | inl hfirst =>
      subst hfirst
      exact (enterAll_of_notMem hcons.1).trans (Function.update_self ..)
    | inr hrest =>
      have hne : cls ≠ first.1 := by
        intro heq
        exact hcons.1 (heq ▸ List.mem_map_of_mem hrest)
      have hrec := @ih (Function.update tables first.1 (enter (tables first.1) index first.2)) hcons.2 hrest
      rw [Function.update_of_ne hne] at hrec
      exact hrec

/-- Entering a member keeps what is in the tables when its index is free. -/
theorem entered_enterAll_of_entered (hnodup : (implementations.map (·.1)).Nodup)
    (hfree : Free tables (implementations.map (·.1)) index) {other : ℕ}
    (h : Entered tables cls other function) : Entered (enterAll tables index implementations) cls other function := by
  by_cases hmem : cls ∈ implementations.map (·.1)
  · obtain ⟨⟨known, g⟩, himpl, rfl⟩ := List.mem_map.mp hmem
    have hne : other ≠ index := by
      intro heq
      subst heq
      exact hfree known hmem function h
    rw [Entered, enterAll_of_mem hnodup himpl, enter_other hne]
    exact h
  · rw [Entered, enterAll_of_notMem hmem]
    exact h

theorem entered_enterAll (hnodup : (implementations.map (·.1)).Nodup)
    (h : (cls, function) ∈ implementations) : Entered (enterAll tables index implementations) cls index function := by
  rw [Entered, enterAll_of_mem hnodup h]
  exact enter_self

theorem length_enterAll_le {bound : ℕ} (hnodup : (implementations.map (·.1)).Nodup)
    (htables : ∀ cls, (tables cls).length ≤ bound) (hindex : index ≤ bound) (cls : ClassRef) :
    (enterAll tables index implementations cls).length ≤ bound + 1 := by
  have hle := htables cls
  by_cases hmem : cls ∈ implementations.map (·.1)
  · obtain ⟨⟨known, g⟩, himpl, rfl⟩ := List.mem_map.mp hmem
    rw [enterAll_of_mem hnodup himpl, length_enter]
    dsimp only at hle
    omega
  · rw [enterAll_of_notMem hmem]
    omega

end EnterAll

theorem freeIndex_free (tables : Tables) (classes : List ClassRef) : Free tables classes (freeIndex tables classes) :=
  Nat.find_spec (exists_free tables classes)

theorem freeIndex_le {tables : Tables} {bound : ℕ} (htables : ∀ cls, (tables cls).length ≤ bound)
    (classes : List ClassRef) : freeIndex tables classes ≤ bound := by
  apply Nat.find_min'
  intro cls _ function hfunction
  have hlt := (List.getElem?_eq_some_iff.mp hfunction).1
  have hle := htables cls
  omega

/-! ### All members placed -/

variable {self : InterfaceDispatch}

/-- Two members looked up in the table of one class have different indices there. -/
def Apart (p q : Placed) : Prop :=
  ∀ k k' cls, p.shape = .table k → q.shape = .table k' → cls ∈ p.member.classes → cls ∈ q.member.classes → k ≠ k'

/-- What placing members leaves in the tables. -/
structure Packed (tables : Tables) (bound : ℕ) (members : List Member) (placed : List Placed) (tables' : Tables) :
    Prop where
  kept : ∀ cls index function, Entered tables cls index function → Entered tables' cls index function
  entered : ∀ p ∈ placed, ∀ k, p.shape = .table k →
    ∀ cls function, (cls, function) ∈ p.member.implementations → Entered tables' cls k function
  free : ∀ p ∈ placed, ∀ k, p.shape = .table k → Free tables p.member.classes k
  apart : placed.Pairwise Apart
  lt : ∀ p ∈ placed, ∀ k, p.shape = .table k → k < bound + members.length
  length_le : ∀ cls, (tables' cls).length ≤ bound + members.length

theorem placeAll_packed {members : List Member} {tables : Tables} {bound : ℕ}
    (hnodup : ∀ member ∈ members, member.classes.Nodup) (htables : ∀ cls, (tables cls).length ≤ bound)
    (hshape : ∀ member ∈ members, ∀ k, self.shape member ≠ some (.table k)) :
    Packed tables bound members (self.placeAll members tables).1 (self.placeAll members tables).2 := by
  induction members generalizing tables bound with
  | nil =>
    exact ⟨fun _ _ _ h => h, by simp [placeAll], by simp [placeAll], .nil, by simp [placeAll],
      fun cls => Nat.le_add_right_of_le (htables cls)⟩
  | cons member rest ih =>
    have hrest := fun other hother => hnodup other (List.mem_cons_of_mem member hother)
    have hshapes := fun other hother => hshape other (List.mem_cons_of_mem member hother)
    have hlength : bound + (member :: rest).length = bound + 1 + rest.length := by
      rw [List.length_cons]
      omega
    rw [placeAll]
    split
    · have hih := ih hrest (fun cls => Nat.le_succ_of_le (htables cls)) hshapes
      exact ⟨hih.kept, hih.entered, hih.free, hih.apart, hlength ▸ hih.lt, hlength ▸ hih.length_le⟩
    · next stub hstub =>
      split
      · next shape hsome =>
        have hih := ih hrest (fun cls => Nat.le_succ_of_le (htables cls)) hshapes
        have hnone : ∀ k, shape ≠ .table k := by
          intro k heq
          exact hshape member List.mem_cons_self k (heq ▸ hsome)
        refine ⟨hih.kept, ?_, ?_, ?_, ?_, hlength ▸ hih.length_le⟩
        · exact List.forall_mem_cons.mpr ⟨fun k hk => absurd hk (hnone k), hih.entered⟩
        · exact List.forall_mem_cons.mpr ⟨fun k hk => absurd hk (hnone k), hih.free⟩
        · exact List.pairwise_cons.mpr ⟨fun q _ k k' cls hk => absurd hk (hnone k), hih.apart⟩
        · rw [hlength]
          exact List.forall_mem_cons.mpr ⟨fun k hk => absurd hk (hnone k), hih.lt⟩
      · have hmember := hnodup member List.mem_cons_self
        have hindex := freeIndex_le htables member.classes
        have hfree := freeIndex_free tables member.classes
        have hih := ih hrest (length_enterAll_le hmember htables hindex) hshapes
        refine ⟨?_, ?_, ?_, ?_, ?_, hlength ▸ hih.length_le⟩
        · intro cls index function h
          exact hih.kept _ _ _ (entered_enterAll_of_entered hmember hfree h)
        · refine List.forall_mem_cons.mpr ⟨?_, hih.entered⟩
          intro k hk cls function himpl
          cases hk
          exact hih.kept _ _ _ (entered_enterAll hmember himpl)
        · refine List.forall_mem_cons.mpr ⟨?_, ?_⟩
          · intro k hk
            cases hk
            exact hfree
          · intro p hp k hk cls hcls function hfunction
            exact hih.free p hp k hk cls hcls function (entered_enterAll_of_entered hmember hfree hfunction)
        · refine List.pairwise_cons.mpr ⟨?_, hih.apart⟩
          intro q hq k k' cls hk hk' hcls hcls' heq
          cases hk
          obtain ⟨⟨known, function⟩, himpl, rfl⟩ := List.mem_map.mp hcls
          subst heq
          exact hih.free q hq _ hk' known hcls' function (entered_enterAll hmember himpl)
        · rw [hlength]
          refine List.forall_mem_cons.mpr ⟨?_, hih.lt⟩
          intro k hk
          cases hk
          omega

/-- The called members are placed in order, each with its own stub. -/
theorem placeAll_stubs (members : List Member) (tables : Tables) :
    (self.placeAll members tables).1.map (fun p => (p.stub, p.member)) =
      members.filterMap fun member => member.stub.map fun stub => (stub, member) := by
  induction members generalizing tables with
  | nil => rfl
  | cons member rest ih =>
    rw [placeAll]
    cases hstub : member.stub with
    | none => rw [List.filterMap_cons, hstub, Option.map_none, ih]
    | some stub =>
      rw [List.filterMap_cons, hstub, Option.map_some]
      cases self.shape member with
      | some shape => exact congrArg _ (ih tables)
      | none => exact congrArg _ (ih _)

theorem placeAll_shape {members : List Member} {tables : Tables} {p : Placed}
    (h : p ∈ (self.placeAll members tables).1) :
    self.shape p.member = some p.shape ∨ self.shape p.member = none ∧ ∃ k, p.shape = .table k := by
  induction members generalizing tables with
  | nil => cases h
  | cons member rest ih =>
    rw [placeAll] at h
    split at h
    · exact ih h
    · split at h
      · next shape hshape =>
        cases List.mem_cons.mp h with
        | inl hfirst =>
          subst hfirst
          exact .inl hshape
        | inr hrest => exact ih hrest
      · next hshape =>
        cases List.mem_cons.mp h with
        | inl hfirst =>
          subst hfirst
          exact .inr ⟨hshape, _, rfl⟩
        | inr hrest => exact ih hrest

end Krusty.Wasm.InterfaceDispatch
