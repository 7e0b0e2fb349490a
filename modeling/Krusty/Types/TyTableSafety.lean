import Krusty.Lib.Refinement
import Krusty.Types.TyTable

/-! Whatever the interleaving, equal kinds have one id, and an id gives its kind back. -/
namespace Krusty.Types.TyTable

open Runs

/-- The id that a thread has taken and not entered yet. -/
def Local.claim : Local → Option Ty
  | .checking _ id | .opening _ id | .publishing _ id | .inserting _ id => some id
  | _ => none

variable {Thread : Type} {kindHash : TyKind → UInt64} {T T' : Table Thread} {s s' : State Thread}
  {t t' : Thread} {kind kind' : TyKind} {id : Ty} {l : Local}

/-! ### The shared table -/

section Shared

variable (kindHash) (T)

/-- The thread holds the kind's shard to write. -/
def Table.Holds (t : Thread) (kind : TyKind) : Prop := (T.lock kindHash kind).writer = some t

/-- What always holds of what the threads share. -/
structure Table.Sound : Prop where
  entries : ∀ {sh kind id}, T.ids sh kind = some id → sh = shard kindHash kind ∧ T.kind id = some kind
  reserved : ∀ {id kind}, reservedKinds[id]? = some kind → T.interned kindHash kind = some id
  slots : ∀ {p kind}, T.slots p = some kind → ∃ id < T.next, p = slotPosition id
  reserved_le : TyTable.reserved ≤ T.next
  unpoisoned : ∀ sh, (T.locks sh).poisoned = false

/-- The table only grows. -/
structure Table.Grows (T' : Table Thread) : Prop where
  interned : ∀ {kind id}, T.interned kindHash kind = some id → T'.interned kindHash kind = some id
  next : T.next ≤ T'.next
  slots : ∀ {p kind}, T.slots p = some kind → T'.slots p = some kind
  published : ∀ {segment}, T.published segment = true → T'.published segment = true

/-- What a thread knows from holding a shard stays. -/
structure Table.Spares (T' : Table Thread) (t : Thread) : Prop where
  holds : ∀ {kind}, T.Holds kindHash t kind → T'.Holds kindHash t kind
  absent : ∀ {kind}, T.Holds kindHash t kind → T.interned kindHash kind = none → T'.interned kindHash kind = none

end Shared

namespace Table

theorem Grows.refl (T : Table Thread) : T.Grows kindHash T := ⟨fun h => h, le_rfl, fun h => h, fun h => h⟩

theorem Spares.refl (T : Table Thread) (t : Thread) : T.Spares kindHash T t := ⟨fun h => h, fun _ h => h⟩

theorem Grows.kind_eq (h : T.Grows kindHash T') (hkind : T.kind id = some kind) : T'.kind id = some kind := by
  unfold Table.kind at hkind ⊢
  by_cases hreserved : id < reserved
  · rw [if_pos hreserved] at hkind ⊢
    exact hkind
  · rw [if_neg hreserved] at hkind ⊢
    by_cases hpublished : T.published (slotPosition id).1 = true
    · rw [if_pos hpublished] at hkind
      rw [if_pos (h.published hpublished)]
      exact h.slots hkind
    · rw [if_neg hpublished] at hkind
      cases hkind

theorem kind_of_slot (hid : reserved ≤ id) (hpublished : T.published (slotPosition id).1 = true) :
    T.kind id = T.slots (slotPosition id) := by
  rw [Table.kind, if_neg (not_lt.mpr hid), if_pos hpublished]

theorem slot_of_kind (hid : reserved ≤ id) (h : T.kind id = some kind) :
    T.published (slotPosition id).1 = true ∧ T.slots (slotPosition id) = some kind := by
  rw [Table.kind, if_neg (not_lt.mpr hid)] at h
  by_cases hpublished : T.published (slotPosition id).1 = true
  · rw [if_pos hpublished] at h
    exact ⟨hpublished, h⟩
  · rw [if_neg hpublished] at h
    cases h

namespace Sound

theorem kind_eq (h : T.Sound kindHash) (hid : T.interned kindHash kind = some id) : T.kind id = some kind :=
  (h.entries hid).2

/-- Equal ids are ids of one kind. -/
theorem interned_inj (h : T.Sound kindHash) (hid : T.interned kindHash kind = some id)
    (hid' : T.interned kindHash kind' = some id) : kind = kind' :=
  Option.some.inj ((h.kind_eq hid).symm.trans (h.kind_eq hid'))

/-- An id that is not taken yet has an empty slot. -/
theorem slot_next (h : T.Sound kindHash) (hmax : T.next ≤ u32Max) : T.slots (slotPosition T.next) = none := by
  cases hslot : T.slots (slotPosition T.next) with
  | none => rfl
  | some kind =>
    obtain ⟨id, hlt, hsame⟩ := h.slots hslot
    have heq := slotPosition_injective hmax (hlt.le.trans hmax) hsame
    omega

end Sound

/-! ### What an action does to the table -/

section Locks

variable {lock : RwLock Thread}

theorem setLock_locks (sh : ℕ) :
    (T.setLock kindHash kind lock).locks sh = if sh = shard kindHash kind then lock else T.locks sh :=
  Function.update_apply ..

theorem grows_setLock : T.Grows kindHash (T.setLock kindHash kind lock) :=
  ⟨fun h => h, le_rfl, fun h => h, fun h => h⟩

theorem Sound.setLock (h : T.Sound kindHash) (hlock : lock.poisoned = false) :
    (T.setLock kindHash kind lock).Sound kindHash where
  entries := h.entries
  reserved := h.reserved
  slots := h.slots
  reserved_le := h.reserved_le
  unpoisoned sh := by
    rw [setLock_locks]
    split_ifs
    · exact hlock
    · exact h.unpoisoned sh

/-- Another thread's lock is left alone by one that does not take its place. -/
theorem spares_setLock (hlock : (T.lock kindHash kind).writer = some t' → lock.writer = some t') :
    T.Spares kindHash (T.setLock kindHash kind lock) t' where
  holds {other} hother := by
    rw [Holds, Table.lock, setLock_locks]
    rw [Holds, Table.lock] at hother
    split_ifs with hsh
    · rw [hsh] at hother
      exact hlock hother
    · exact hother
  absent _ h := h

theorem holds_setLock (h : lock.writer = some t) : (T.setLock kindHash kind lock).Holds kindHash t kind := by
  rw [Holds, Table.lock, setLock_locks, if_pos rfl, h]

end Locks

theorem grows_take : T.Grows kindHash T.take := ⟨fun h => h, Nat.le_succ _, fun h => h, fun h => h⟩

theorem Sound.take (h : T.Sound kindHash) : T.take.Sound kindHash where
  entries := h.entries
  reserved := h.reserved
  slots hslot := by
    obtain ⟨id, hlt, hp⟩ := h.slots hslot
    exact ⟨id, Nat.lt_succ_of_lt hlt, hp⟩
  reserved_le := h.reserved_le.trans (Nat.le_succ _)
  unpoisoned := h.unpoisoned

theorem openSegment_published (segment : ℕ) :
    (T.openSegment id).published segment = if segment = (slotPosition id).1 then true else T.published segment :=
  Function.update_apply ..

theorem grows_openSegment : T.Grows kindHash (T.openSegment id) where
  interned h := h
  next := le_rfl
  slots h := h
  published {segment} h := by
    rw [openSegment_published, h, ite_self]

theorem Sound.openSegment (h : T.Sound kindHash) : (T.openSegment id).Sound kindHash where
  entries hids := by
    have hgrows : T.Grows kindHash (T.openSegment id) := grows_openSegment
    exact ⟨(h.entries hids).1, hgrows.kind_eq (h.entries hids).2⟩
  reserved := h.reserved
  slots := h.slots
  reserved_le := h.reserved_le
  unpoisoned := h.unpoisoned

theorem set_slots (p : ℕ × ℕ) :
    (T.set id kind).slots p = if p = slotPosition id then some kind else T.slots p := Function.update_apply ..

theorem grows_set (hslot : T.slots (slotPosition id) = none) : T.Grows kindHash (T.set id kind) where
  interned h := h
  next := le_rfl
  slots {p other} h := by
    have hp : p ≠ slotPosition id := by
      rintro rfl
      rw [hslot] at h
      cases h
    rw [set_slots, if_neg hp, h]
  published h := h

theorem Sound.set (h : T.Sound kindHash) (hlt : id < T.next) (hslot : T.slots (slotPosition id) = none) :
    (T.set id kind).Sound kindHash where
  entries hids := by
    have hgrows : T.Grows kindHash (T.set id kind) := grows_set hslot
    exact ⟨(h.entries hids).1, hgrows.kind_eq (h.entries hids).2⟩
  reserved := h.reserved
  slots {p other} hp := by
    by_cases heq : p = slotPosition id
    · exact ⟨id, hlt, heq⟩
    · rw [set_slots, if_neg heq] at hp
      exact h.slots hp
  reserved_le := h.reserved_le
  unpoisoned := h.unpoisoned

theorem insertId_apply (ids : ℕ → TyKind → Option Ty) (sh : ℕ) (other : TyKind) :
    insertId kindHash ids kind id sh other =
      if sh = shard kindHash kind ∧ other = kind then some id else ids sh other := by
  unfold insertId
  by_cases hsh : sh = shard kindHash kind
  · rw [hsh, Function.update_self, Function.update_apply]
    simp
  · rw [Function.update_of_ne hsh, if_neg fun h => hsh h.1]

theorem interned_insert (other : TyKind) : (T.insert kindHash kind id).interned kindHash other =
    if other = kind then some id else T.interned kindHash other := by
  have happly : (T.insert kindHash kind id).interned kindHash other = _ := insertId_apply ..
  rw [happly]
  by_cases hkind : other = kind
  · rw [if_pos hkind, if_pos ⟨by rw [hkind], hkind⟩]
  · rw [if_neg hkind, if_neg fun h => hkind h.2]
    rfl

theorem grows_insert (habsent : T.interned kindHash kind = none) :
    T.Grows kindHash (T.insert kindHash kind id) where
  interned {other _} h := by
    have hne : other ≠ kind := by
      rintro rfl
      rw [habsent] at h
      cases h
    rw [interned_insert, if_neg hne, h]
  next := le_rfl
  slots h := h
  published h := h

theorem Sound.insert (h : T.Sound kindHash) (habsent : T.interned kindHash kind = none)
    (hkind : T.kind id = some kind) : (T.insert kindHash kind id).Sound kindHash where
  entries {sh other otherId} hids := by
    have happly : (T.insert kindHash kind id).ids sh other = _ := insertId_apply ..
    rw [happly] at hids
    by_cases hnew : sh = shard kindHash kind ∧ other = kind
    · rw [if_pos hnew] at hids
      rw [hnew.1, hnew.2, ← Option.some.inj hids]
      exact ⟨rfl, hkind⟩
    · rw [if_neg hnew] at hids
      exact h.entries hids
  reserved hreserved := (grows_insert habsent).interned (h.reserved hreserved)
  slots := h.slots
  reserved_le := h.reserved_le
  unpoisoned := h.unpoisoned

/-- A shard's map changes under its own lock. -/
theorem spares_insert (hholds : T.Holds kindHash t kind) (hne : t' ≠ t) :
    T.Spares kindHash (T.insert kindHash kind id) t' where
  holds h := h
  absent {other} hother h := by
    have hkind : other ≠ kind := by
      rintro rfl
      exact hne (Option.some.inj (hother.symm.trans hholds))
    rw [interned_insert, if_neg hkind, h]

end Table

/-! ### The threads -/

section Threads

variable (kindHash) (T) (t)

/-- A thread is on the way to entering a kind under an id of its own. -/
structure Table.Entering (kind : TyKind) (id : Ty) : Prop where
  holds : T.Holds kindHash t kind
  absent : T.interned kindHash kind = none
  reserved_le : reserved ≤ id
  lt_next : id < T.next

/-- What is known of a thread by where it is. -/
def LocalOk : Local → Prop
  | .idle | .interning _ | .missed _ | .reading _ | .absent _ => True
  | .looked kind answer => ∀ id, answer = some id → T.interned kindHash kind = some id
  | .locked kind => T.Holds kindHash t kind
  | .allocating kind => T.Holds kindHash t kind ∧ T.interned kindHash kind = none
  | .checking kind id | .opening kind id =>
    T.Entering kindHash t kind id ∧ T.slots (slotPosition id) = none
  | .publishing kind id => T.Entering kindHash t kind id ∧ T.slots (slotPosition id) = none ∧
      T.published (slotPosition id).1 = true
  | .inserting kind id => T.Entering kindHash t kind id ∧ T.kind id = some kind
  | .unlocking kind id => T.Holds kindHash t kind ∧ T.interned kindHash kind = some id
  | .remembering kind id => T.interned kindHash kind = some id
  | .asking ty => ∃ kind, T.interned kindHash kind = some ty
  | .indexing ty => reserved ≤ ty ∧ ∃ kind, T.interned kindHash kind = some ty
  | .panicked _ => False

end Threads

theorem Table.Entering.frame (h : T.Entering kindHash t kind id) (hgrows : T.Grows kindHash T')
    (hspares : T.Spares kindHash T' t) : T'.Entering kindHash t kind id where
  holds := hspares.holds h.holds
  absent := hspares.absent h.holds h.absent
  reserved_le := h.reserved_le
  lt_next := h.lt_next.trans_le hgrows.next

/-- What is known of a thread stays while the table grows and spares it. -/
theorem LocalOk.frame (h : LocalOk kindHash T t l) (hgrows : T.Grows kindHash T') (hspares : T.Spares kindHash T' t)
    (hslot : ∀ id, l.claim = some id → T.slots (slotPosition id) = none → T'.slots (slotPosition id) = none) :
    LocalOk kindHash T' t l := by
  cases l with
  | idle | interning | missed | reading | absent => trivial
  | looked kind answer => exact fun id hid => hgrows.interned (h id hid)
  | locked kind => exact hspares.holds h
  | allocating kind => exact ⟨hspares.holds h.1, hspares.absent h.1 h.2⟩
  | checking kind id | opening kind id => exact ⟨h.1.frame hgrows hspares, hslot id rfl h.2⟩
  | publishing kind id =>
    exact ⟨h.1.frame hgrows hspares, hslot id rfl h.2.1, hgrows.published h.2.2⟩
  | inserting kind id => exact ⟨h.1.frame hgrows hspares, hgrows.kind_eq h.2⟩
  | unlocking kind id => exact ⟨hspares.holds h.1, hgrows.interned h.2⟩
  | remembering kind id => exact hgrows.interned h
  | asking ty =>
    obtain ⟨kind, hkind⟩ := h
    exact ⟨kind, hgrows.interned hkind⟩
  | indexing ty =>
    obtain ⟨hty, kind, hkind⟩ := h
    exact ⟨hty, kind, hgrows.interned hkind⟩
  | panicked why => exact h

/-- A taken id is one of those that have been taken. -/
theorem LocalOk.claim_lt (h : LocalOk kindHash T t l) (hclaim : l.claim = some id) : id < T.next := by
  cases l with
  | checking kind other | opening kind other | publishing kind other | inserting kind other =>
    cases hclaim
    exact h.1.lt_next
  | _ => cases hclaim

/-! ### Runs -/

variable [DecidableEq Thread]

theorem act_threads (t' : Thread) : (s.act t T l).threads t' = if t' = t then l else s.threads t' :=
  Function.update_apply ..

variable (kindHash) (s) in
/-- What holds in every state of a run. -/
structure Inv : Prop where
  table : s.table.Sound kindHash
  claims : ∀ {t t' id}, (s.threads t).claim = some id → (s.threads t').claim = some id → t = t'
  threads : ∀ t, LocalOk kindHash s.table t (s.threads t)
  recent : ∀ {t i kind id}, s.recent t i = some (kind, id) → s.table.interned kindHash kind = some id
  returned : ∀ {a}, a ∈ s.returned → s.table.interned kindHash a.1 = some a.2
  answered : ∀ {a}, a ∈ s.answered → s.table.interned kindHash a.2 = some a.1

namespace Inv

/-- One action: the table grows and spares the other threads, and what is known of the acting one holds where
it goes on. -/
theorem act (h : Inv kindHash s) (hsound : T'.Sound kindHash) (hgrows : s.table.Grows kindHash T')
    (hspares : ∀ t' ≠ t, s.table.Spares kindHash T' t')
    (hslots : ∀ t' ≠ t, ∀ id, (s.threads t').claim = some id → s.table.slots (slotPosition id) = none →
      T'.slots (slotPosition id) = none)
    (hl : LocalOk kindHash T' t l) (hclaim : ∀ id, l.claim = some id → ∀ t' ≠ t, (s.threads t').claim ≠ some id) :
    Inv kindHash (s.act t T' l) where
  table := hsound
  claims {t₁ t₂ id} h₁ h₂ := by
    rw [act_threads] at h₁ h₂
    split_ifs at h₁ h₂ with ht₁ ht₂ ht₂
    · rw [ht₁, ht₂]
    · exact absurd h₂ (hclaim id h₁ t₂ ht₂)
    · exact absurd h₁ (hclaim id h₂ t₁ ht₁)
    · exact h.claims h₁ h₂
  threads t' := by
    rw [act_threads]
    split_ifs with ht
    · rw [ht]
      exact hl
    · exact (h.threads t').frame hgrows (hspares t' ht) (hslots t' ht)
  recent hrecent := hgrows.interned (h.recent hrecent)
  returned ha := hgrows.interned (h.returned ha)
  answered ha := hgrows.interned (h.answered ha)

/-- Going on to where no id is claimed leaves the table as it was. -/
theorem goto (h : Inv kindHash s) (hl : LocalOk kindHash s.table t l)
    (hclaim : ∀ id, l.claim = some id → (s.threads t).claim = some id) : Inv kindHash (s.goto t l) :=
  h.act h.table (.refl _) (fun _ _ => .refl _ _) (fun _ _ _ _ hslot => hslot) hl
    fun id hid _ hne hother => hne (h.claims hother (hclaim id hid))

/-- A lock changes hands, and its shard's other threads keep their places. -/
theorem setLock {lock : RwLock Thread} (h : Inv kindHash s) (hlock : lock.poisoned = false)
    (hspares : ∀ t' ≠ t, (s.table.lock kindHash kind).writer = some t' → lock.writer = some t')
    (hl : LocalOk kindHash (s.table.setLock kindHash kind lock) t l) (hclaim : l.claim = none) :
    Inv kindHash (s.act t (s.table.setLock kindHash kind lock) l) := by
  refine h.act (h.table.setLock hlock) Table.grows_setLock (fun t' hne => Table.spares_setLock (hspares t' hne))
    (fun _ _ _ _ hslot => hslot) hl fun id hid => ?_
  rw [hclaim] at hid
  cases hid

theorem returns (h : Inv kindHash s) (hkind : s.table.interned kindHash kind = some id) :
    Inv kindHash (s.returns t kind id) :=
  have hidle : Inv kindHash (s.goto t .idle) := h.goto trivial fun _ hid => (by cases hid)
  { hidle with
    returned := fun {a} ha => by
      cases List.mem_append.mp ha with
      | inl ha => exact h.returned ha
      | inr ha =>
        rw [List.mem_singleton.mp ha]
        exact hkind }

theorem answers (h : Inv kindHash s) (hkind : s.table.interned kindHash kind = some id) :
    Inv kindHash (s.answers t id kind) :=
  have hidle : Inv kindHash (s.goto t .idle) := h.goto trivial fun _ hid => (by cases hid)
  { hidle with
    answered := fun {a} ha => by
      cases List.mem_append.mp ha with
      | inl ha => exact h.answered ha
      | inr ha =>
        rw [List.mem_singleton.mp ha]
        exact hkind }

theorem remember (h : Inv kindHash s) (alive : Bool) (hkind : s.table.interned kindHash kind = some id) :
    Inv kindHash (s.remember kindHash t alive kind id) ∧
      (s.remember kindHash t alive kind id).table = s.table := by
  cases alive with
  | false => exact ⟨h, rfl⟩
  | true =>
    refine ⟨{ h with recent := fun {t' i other otherId} hrecent => ?_ }, rfl⟩
    simp only [State.remember, if_true] at hrecent
    by_cases ht : t' = t
    · rw [ht, Function.update_self] at hrecent
      by_cases hi : i = recentEntry kindHash kind
      · rw [hi, Function.update_self] at hrecent
        cases hrecent
        exact hkind
      · rw [Function.update_of_ne hi] at hrecent
        exact h.recent hrecent
    · rw [Function.update_of_ne ht] at hrecent
      exact h.recent hrecent

/-- A new id is one that no other thread has, and its slot is empty. -/
theorem allocating (h : Inv kindHash s) (hmax : s.table.next < u32Max) (hholds : s.table.Holds kindHash t kind)
    (habsent : s.table.interned kindHash kind = none) :
    Inv kindHash (s.act t s.table.take (.checking kind (s.table.next % 2 ^ 32))) := by
  have hu32 : u32Max = 2 ^ 32 - 1 := rfl
  have hnext : s.table.next % 2 ^ 32 = s.table.next := Nat.mod_eq_of_lt (by omega)
  rw [hnext]
  refine h.act h.table.take Table.grows_take (fun _ _ => ⟨fun h => h, fun _ h => h⟩) (fun _ _ _ _ hslot => hslot)
    ⟨⟨hholds, habsent, h.table.reserved_le, Nat.lt_succ_self _⟩, h.table.slot_next hmax.le⟩ ?_
  intro id hid t' _ hother
  cases hid
  exact lt_irrefl _ ((h.threads t').claim_lt hother)

/-- A slot is published by the one thread that claims its id, so it is empty before. -/
theorem publishing (h : Inv kindHash s) (hmax : s.table.next ≤ u32Max) (ht : s.threads t = .publishing kind id) :
    Inv kindHash (s.act t (s.table.set id kind) (.inserting kind id)) := by
  have hok := h.threads t
  rw [ht] at hok
  obtain ⟨hentering, hslot, hpublished⟩ := hok
  have hgrows : s.table.Grows kindHash (s.table.set id kind) := Table.grows_set hslot
  have hown : (s.threads t).claim = some id := by
    rw [ht]
    rfl
  refine h.act (h.table.set hentering.lt_next hslot) hgrows (fun _ _ => ⟨fun h => h, fun _ h => h⟩) ?_ ⟨⟨hentering.holds,
    hentering.absent, hentering.reserved_le, hentering.lt_next⟩, ?_⟩ ?_
  · intro t' hne other hother hempty
    have hapart : slotPosition other ≠ slotPosition id := by
      intro hsame
      have hlt := (h.threads t').claim_lt hother
      have heq := slotPosition_injective (hlt.le.trans hmax) (hentering.lt_next.le.trans hmax) hsame
      rw [heq] at hother
      exact hne (h.claims hother hown)
    rw [Table.set_slots, if_neg hapart, hempty]
  · rw [Table.kind_of_slot (T := s.table.set id kind) hentering.reserved_le hpublished, Table.set_slots, if_pos rfl]
  · intro other hother t' hne hclaim
    cases hother
    exact hne (h.claims hclaim hown)

theorem inserting (h : Inv kindHash s) (hentering : s.table.Entering kindHash t kind id)
    (hkind : s.table.kind id = some kind) :
    Inv kindHash (s.act t (s.table.insert kindHash kind id) (.unlocking kind id)) := by
  refine h.act (h.table.insert hentering.absent hkind) (Table.grows_insert hentering.absent)
    (fun t' hne => Table.spares_insert hentering.holds hne) (fun _ _ _ _ hslot => hslot) ⟨hentering.holds, ?_⟩ ?_
  · rw [Table.interned_insert, if_pos rfl]
  · intro other hother
    cases hother

/-- One case for each place of a call. -/
theorem advance {alive : Bool} (h : Inv kindHash s) (hmax : s.table.next ≤ u32Max) (hnext : s'.table.next ≤ u32Max)
    (hstep : s.advance kindHash t alive (s.threads t) = some s') : Inv kindHash s' := by
  have hok := h.threads t
  cases hl : s.threads t with
  | idle =>
    rw [hl] at hstep
    cases hstep
  | interning kind =>
    rw [hl] at hstep
    have hmissed : Inv kindHash (s.goto t (.missed kind)) := h.goto trivial fun _ hid => (by cases hid)
    obtain rfl := Option.some.inj hstep
    split
    · next seen id hrecent =>
      split
      · next hseen =>
        refine h.returns ?_
        cases alive with
        | false => cases hrecent
        | true =>
          rw [← hseen]
          exact h.recent hrecent
      · exact hmissed
    · exact hmissed
  | missed kind =>
    rw [hl, State.advance] at hstep
    have hunpoisoned : (s.table.lock kindHash kind).poisoned = false := h.table.unpoisoned _
    by_cases hwriter : (s.table.lock kindHash kind).writer.isSome = true
    · rw [if_pos hwriter] at hstep
      cases hstep
    · rw [if_neg hwriter, if_neg (by rw [hunpoisoned]; decide)] at hstep
      obtain rfl := Option.some.inj hstep
      exact h.setLock hunpoisoned (fun _ _ h => h) trivial rfl
  | reading kind =>
    rw [hl] at hstep
    obtain rfl := Option.some.inj hstep
    exact h.goto (fun _ hid => hid) fun _ hid => (by cases hid)
  | looked kind answer =>
    rw [hl] at hstep hok
    obtain rfl := Option.some.inj hstep
    have hunpoisoned : (s.table.lock kindHash kind).poisoned = false := h.table.unpoisoned _
    cases answer with
    | none => exact h.setLock hunpoisoned (fun _ _ h => h) trivial rfl
    | some id => exact h.setLock hunpoisoned (fun _ _ h => h) (hok id rfl) rfl
  | absent kind =>
    rw [hl, State.advance] at hstep
    have hunpoisoned : (s.table.lock kindHash kind).poisoned = false := h.table.unpoisoned _
    by_cases hfree : (s.table.lock kindHash kind).writer.isSome = true ∨ (s.table.lock kindHash kind).readers ≠ []
    · rw [if_pos hfree] at hstep
      cases hstep
    · rw [if_neg hfree, if_neg (by rw [hunpoisoned]; decide)] at hstep
      obtain rfl := Option.some.inj hstep
      refine h.setLock hunpoisoned (fun t' _ hwriter => ?_) (Table.holds_setLock rfl) rfl
      exact absurd (.inl (by rw [hwriter]; rfl)) hfree
  | locked kind =>
    rw [hl] at hstep hok
    obtain rfl := Option.some.inj hstep
    cases hid : s.table.interned kindHash kind with
    | none => exact h.goto ⟨hok, hid⟩ fun _ hid => (by cases hid)
    | some id => exact h.goto ⟨hok, hid⟩ fun _ hid => (by cases hid)
  | allocating kind =>
    rw [hl] at hstep hok
    obtain rfl := Option.some.inj hstep
    exact h.allocating hnext hok.1 hok.2
  | checking kind id =>
    rw [hl] at hstep hok
    have hfull : id ≠ u32Max := (hok.1.lt_next.trans_le hmax).ne
    rw [State.advance, if_neg hfull] at hstep
    obtain rfl := Option.some.inj hstep
    refine h.goto hok fun _ hid => ?_
    rw [hl]
    exact hid
  | opening kind id =>
    rw [hl] at hstep hok
    obtain rfl := Option.some.inj hstep
    have hown : (s.threads t).claim = some id := by
      rw [hl]
      rfl
    obtain ⟨hentering, hslot⟩ := hok
    refine h.act h.table.openSegment Table.grows_openSegment (fun _ _ => ⟨fun h => h, fun _ h => h⟩)
      (fun _ _ _ _ hslot => hslot) ⟨⟨hentering.holds, hentering.absent, hentering.reserved_le, hentering.lt_next⟩,
        hslot, ?_⟩ ?_
    · rw [Table.openSegment_published, if_pos rfl]
    · intro other hother t' hne hclaim
      cases hother
      exact hne (h.claims hclaim hown)
  | publishing kind id =>
    rw [hl] at hstep hok
    rw [State.advance, hok.2.1] at hstep
    obtain rfl := Option.some.inj hstep
    exact h.publishing hmax hl
  | inserting kind id =>
    rw [hl] at hstep hok
    obtain rfl := Option.some.inj hstep
    exact h.inserting hok.1 hok.2
  | unlocking kind id =>
    rw [hl] at hstep hok
    obtain rfl := Option.some.inj hstep
    refine h.setLock (h.table.unpoisoned _) (fun t' hne hwriter => ?_) hok.2 rfl
    exact absurd (Option.some.inj (hwriter.symm.trans hok.1)) hne
  | remembering kind id =>
    rw [hl] at hstep hok
    obtain rfl := Option.some.inj hstep
    obtain ⟨hremembered, htable⟩ := h.remember (t := t) alive hok
    refine hremembered.returns ?_
    rw [htable]
    exact hok
  | asking ty =>
    rw [hl] at hstep hok
    obtain ⟨kind, hkind⟩ := hok
    have hanswer := h.table.kind_eq hkind
    by_cases hreserved : ty < reserved
    · rw [Table.kind, if_pos hreserved] at hanswer
      rw [State.advance, if_pos hreserved, hanswer] at hstep
      obtain rfl := Option.some.inj hstep
      exact h.answers hkind
    · obtain ⟨hpublished, -⟩ := Table.slot_of_kind (not_lt.mp hreserved) hanswer
      rw [State.advance, if_neg hreserved, if_pos hpublished] at hstep
      obtain rfl := Option.some.inj hstep
      exact h.goto ⟨not_lt.mp hreserved, kind, hkind⟩ fun _ hid => (by cases hid)
  | indexing ty =>
    rw [hl] at hstep hok
    obtain ⟨hreserved, kind, hkind⟩ := hok
    have hslot := (Table.slot_of_kind hreserved (h.table.kind_eq hkind)).2
    rw [State.advance, hslot] at hstep
    obtain rfl := Option.some.inj hstep
    exact h.answers hkind
  | panicked why =>
    rw [hl] at hok
    cases hok

theorem step {e : Thread × Event} (h : Inv kindHash s) (hmax : s.table.next ≤ u32Max) (hnext : s'.table.next ≤ u32Max)
    (hstep : s.step kindHash e = some s') : Inv kindHash s' := by
  obtain ⟨t, e⟩ := e
  cases e with
  | intern kind =>
    simp only [State.step] at hstep
    by_cases hidle : s.threads t = .idle
    · rw [if_pos hidle] at hstep
      obtain rfl := Option.some.inj hstep
      exact h.goto trivial fun _ hid => (by cases hid)
    · rw [if_neg hidle] at hstep
      cases hstep
  | kind ty =>
    simp only [State.step] at hstep
    by_cases hgiven : s.threads t = .idle ∧ (ty < reserved ∨ ty ∈ s.returned.map Prod.snd)
    · rw [if_pos hgiven] at hstep
      obtain rfl := Option.some.inj hstep
      have hkind : ∃ kind, s.table.interned kindHash kind = some ty := by
        cases hgiven.2 with
        | inl hreserved => exact ⟨_, h.table.reserved (List.getElem?_eq_getElem hreserved)⟩
        | inr hreturned =>
          obtain ⟨a, ha, rfl⟩ := List.mem_map.mp hreturned
          exact ⟨a.1, h.returned ha⟩
      exact h.goto hkind fun _ hid => (by cases hid)
    · rw [if_neg hgiven] at hstep
      cases hstep
  | step alive => exact h.advance hmax hnext hstep

end Inv

/-- No action takes an id back. -/
theorem next_le_of_step {e : Thread × Event} (hstep : s.step kindHash e = some s') :
    s.table.next ≤ s'.table.next := by
  have hadvance : ∀ {t : Thread} {alive : Bool} {l : Local}, s.advance kindHash t alive l = some s' →
      s.table.next ≤ s'.table.next := by
    intro t alive l hstep
    cases l with
    | allocating kind =>
      cases hstep
      exact Nat.le_succ _
    | remembering kind id =>
      cases hstep
      cases alive <;> exact le_rfl
    | _ =>
      simp only [State.advance, Option.some.injEq] at hstep
      repeat' split at hstep
      all_goals
        cases hstep
        try exact le_rfl
  obtain ⟨t, e⟩ := e
  cases e with
  | intern kind | kind ty =>
    simp only [State.step, Option.ite_none_right_eq_some, Option.some.injEq] at hstep
    obtain ⟨-, rfl⟩ := hstep
    exact le_rfl
  | step alive => exact hadvance hstep

section Start

/-- The map that a shard starts with: its reserved kinds. -/
theorem foldl_insertId {entries : List (TyKind × Ty)} (hnodup : (entries.map Prod.fst).Nodup) {sh : ℕ} :
    entries.foldl (fun ids entry => insertId kindHash ids entry.1 entry.2) (fun _ _ => none) sh kind = some id ↔
      sh = shard kindHash kind ∧ (kind, id) ∈ entries := by
  induction entries using List.reverseRecOn generalizing sh kind id with
  | nil => simp
  | append_singleton entries e ih =>
    rw [List.map_append, List.nodup_append] at hnodup
    obtain ⟨hnodup, -, hapart⟩ := hnodup
    rw [List.foldl_append, List.foldl_cons, List.foldl_nil, Table.insertId_apply]
    by_cases hnew : sh = shard kindHash e.1 ∧ kind = e.1
    · obtain ⟨hsh, rfl⟩ := hnew
      have hold : (e.1, id) ∉ entries := fun hmem =>
        hapart _ (List.mem_map_of_mem hmem) _ (List.mem_singleton_self _) rfl
      rw [if_pos ⟨hsh, rfl⟩]
      simp [hsh, hold, Prod.ext_iff, eq_comm]
    · have hother : sh = shard kindHash kind → (kind, id) ≠ e := by
        rintro hsh rfl
        exact hnew ⟨hsh, rfl⟩
      rw [if_neg hnew, ih hnodup, List.mem_append, List.mem_singleton]
      constructor
      · exact fun h => ⟨h.1, .inl h.2⟩
      · exact fun h => ⟨h.1, h.2.resolve_right (hother h.1)⟩

omit [DecidableEq Thread] in
theorem init_ids {sh : ℕ} : (Table.init kindHash : Table Thread).ids sh kind = some id ↔
    sh = shard kindHash kind ∧ reservedKinds[id]? = some kind := by
  have hnodup : (reservedKinds.zipIdx.map Prod.fst).Nodup := by
    rw [List.zipIdx_map_fst]
    exact nodup_reservedKinds
  rw [Table.init, foldl_insertId hnodup, List.mem_zipIdx_iff_getElem?]

omit [DecidableEq Thread] in
theorem init_inv : Inv kindHash (State.init kindHash : State Thread) where
  table :=
    { entries := fun {sh kind id} hids => by
        obtain ⟨hsh, hkind⟩ := init_ids.mp hids
        have hlt : id < reserved := (List.getElem?_eq_some_iff.mp hkind).1
        exact ⟨hsh, by rw [Table.kind, if_pos hlt, hkind]⟩
      reserved := fun hkind => init_ids.mpr ⟨rfl, hkind⟩
      slots := fun hslot => (by cases hslot)
      reserved_le := le_rfl
      unpoisoned := fun _ => rfl }
  claims h := (by cases h)
  threads _ := trivial
  recent h := (by cases h)
  returned h := (by cases h)
  answered h := (by cases h)

end Start

theorem inv_of_run {events : List (Thread × Event)}
    (hrun : run (State.step kindHash) (State.init kindHash) events = some s) (hfew : s.table.next ≤ u32Max) :
    Inv kindHash s := by
  refine run_induction (P := fun _ s => s.table.next ≤ u32Max → Inv kindHash s) (fun _ => init_inv) ?_ hrun hfew
  intro es s e s' h hstep hnext
  have hmax := (next_le_of_step hstep).trans hnext
  exact (h hmax).step hmax hnext hstep

variable (kindHash) (s) in
/-- Interning is canonical: what the threads have been told is one to one, and stays so. -/
structure Canonical : Prop where
  same : ∀ a ∈ s.returned, ∀ b ∈ s.returned, a.2 = b.2 ↔ a.1 = b.1
  interned : ∀ a ∈ s.returned, s.table.interned kindHash a.1 = some a.2
  kind : ∀ a ∈ s.returned, s.table.kind a.2 = some a.1
  answered : ∀ a ∈ s.returned, ∀ q ∈ s.answered, q.1 = a.2 → q.2 = a.1
  reserved : ∀ id kind, reservedKinds[id]? = some kind →
    s.table.kind id = some kind ∧ ∀ a ∈ s.returned, a.1 = kind ↔ a.2 = id
  /-- Neither the publication of a slot nor another expectation has failed. -/
  noPanic : ∀ t why, s.threads t ≠ .panicked why
  recent : ∀ t entry kind id, s.recent t entry = some (kind, id) → s.table.interned kindHash kind = some id

omit [DecidableEq Thread] in
theorem Inv.canonical (h : Inv kindHash s) : Canonical kindHash s where
  same a ha b hb := by
    have hida := h.returned ha
    have hidb := h.returned hb
    constructor
    · intro hid
      rw [hid] at hida
      exact h.table.interned_inj hida hidb
    · intro hkind
      rw [hkind] at hida
      exact Option.some.inj (hida.symm.trans hidb)
  interned _ ha := h.returned ha
  kind _ ha := h.table.kind_eq (h.returned ha)
  answered a ha q hq hid := by
    have hkind := h.answered hq
    rw [hid] at hkind
    exact h.table.interned_inj hkind (h.returned ha)
  reserved id kind hreserved := by
    have hid := h.table.reserved hreserved
    refine ⟨h.table.kind_eq hid, fun a ha => ⟨fun hkind => ?_, fun hsame => ?_⟩⟩
    · have hida := h.returned ha
      rw [hkind, hid] at hida
      exact (Option.some.inj hida).symm
    · have hida := h.returned ha
      rw [hsame] at hida
      exact h.table.interned_inj hida hid
  noPanic t why ht := by
    have hok := h.threads t
    rw [ht] at hok
    exact hok
  recent _ _ _ _ hrecent := h.recent hrecent

/-- In every run of any number of threads that takes fewer than `2 ^ 32` ids, interning is canonical; and an id's
slot is its own, where exactly the slots of `HasId` have one. -/
theorem interning_canonical {events : List (Thread × Event)}
    (hrun : run (State.step kindHash) (State.init kindHash) events = some s) (hfew : s.table.next ≤ u32Max) :
    Canonical kindHash s ∧ (∀ id ≤ u32Max, HasId (slotPosition id).1 (slotPosition id).2) ∧
      ∀ segment offset, HasId segment offset → ∃! id, id ≤ u32Max ∧ slotPosition id = (segment, offset) := by
  refine ⟨(inv_of_run hrun hfew).canonical, fun id hid => exists_slotPosition.mp ⟨id, hid, rfl⟩, ?_⟩
  intro segment offset hslot
  obtain ⟨id, hid, hposition⟩ := exists_slotPosition.mpr hslot
  refine ⟨id, ⟨hid, hposition⟩, fun other hother => ?_⟩
  exact slotPosition_injective hother.1 hid (hother.2.trans hposition.symm)

/-- Two threads intern one kind at once: one enters it, the other finds it, and a third thread asks for it. -/
theorem interning_canonical_two : ∃ s : State (Fin 3),
    run (State.step fun _ => 0) (State.init fun _ => 0)
      ([(0, .intern (.nullable 8)), (1, .intern (.nullable 8))] ++
        (List.replicate 4 [(0, Event.step true), (1, Event.step true)]).flatten ++
        List.replicate 9 (0, .step true) ++ List.replicate 4 (1, .step true) ++
        [(2, .kind 18), (2, .step true), (2, .step true)]) = some s ∧
      s.returned = [(.nullable 8, 18), (.nullable 8, 18)] ∧ s.answered = [(18, .nullable 8)] ∧
      Canonical (fun _ => 0) s := by
  have hlast : (run (State.step fun _ => 0) (State.init fun _ => 0)
      ([((0 : Fin 3), .intern (.nullable 8)), (1, .intern (.nullable 8))] ++
        (List.replicate 4 [(0, Event.step true), (1, Event.step true)]).flatten ++
        List.replicate 9 (0, .step true) ++ List.replicate 4 (1, .step true) ++
        [(2, .kind 18), (2, .step true), (2, .step true)])).map
      (fun s => (s.returned, s.answered, s.table.next)) =
        some ([(.nullable 8, 18), (.nullable 8, 18)], [(18, .nullable 8)], 19) := by decide
  obtain ⟨s, hrun, hs⟩ := Option.map_eq_some_iff.mp hlast
  simp only [Prod.mk.injEq] at hs
  obtain ⟨hreturned, hanswered, hnext⟩ := hs
  have hfew : s.table.next ≤ u32Max := by
    rw [hnext]
    decide
  exact ⟨s, hrun, hreturned, hanswered, (interning_canonical hrun hfew).1⟩

/-- The last segment has more slots than there are ids left for it. -/
theorem slot_without_id : ¬ ∀ segment < segments, ∀ offset < segmentSize segment,
    ∃ id ≤ u32Max, slotPosition id = (segment, offset) := by
  intro h
  have hid := exists_slotPosition.mp (h 20 (by decide) 4096 (by decide))
  exact absurd (hid.2.2 rfl) (by decide)

end Krusty.Types.TyTable
