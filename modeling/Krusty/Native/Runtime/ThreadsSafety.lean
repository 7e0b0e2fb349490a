import Krusty.Lib.Lookups
import Krusty.Native.Runtime.Threads

/-! One runner, and every root: what holds of the mutator protocol under any interleaving. -/
namespace Krusty.Native.Threads

open Futex

/-! ### What the calls do to the registry -/

variable {r : KThread}

namespace Memory

variable {m : Memory} {p q : Ptr}

def keys (m : Memory) : List Ptr := m.threads.map Prod.fst

theorem record_modify (f : KThread → KThread) (m : Memory) (p q : Ptr) :
    (m.modify p f).record q = if q = p then (m.record p).map f else m.record q :=
  Lookups.lookup_modify f p q m.threads

theorem keys_modify (f : KThread → KThread) (m : Memory) (p : Ptr) : (m.modify p f).keys = m.keys :=
  Lookups.keys_modify f p m.threads

theorem record_acquire (m : Memory) (p q : Ptr) : (m.acquire p).record q =
    if q = p then (m.record p).map fun r => { r with released := false, pending := none } else m.record q :=
  record_modify _ _ p q

theorem keys_acquire (m : Memory) (p : Ptr) : (m.acquire p).keys = m.keys := keys_modify _ _ p

theorem record_release (m : Memory) (p q : Ptr) : (m.release p).record q =
    if q = p then (m.record p).map fun r => { r with pending := m.pending, released := true } else m.record q :=
  record_modify _ _ p q

theorem keys_release (m : Memory) (p : Ptr) : (m.release p).keys = m.keys := keys_modify _ _ p

/-- A record that is written to before the release. -/
theorem record_modify_release (hr : m.record p = some r) (f : KThread → KThread) (pending : Option Ref)
    (q : Ptr) : ({ m.modify p f with pending }.release p).record q =
      if q = p then some { f r with pending, released := true } else m.record q := by
  have hmodify : ∀ q, ({ m.modify p f with pending } : Memory).record q =
      if q = p then some (f r) else m.record q := by
    intro q
    refine (record_modify f m p q).trans ?_
    rw [hr]
    rfl
  rw [record_release, hmodify, hmodify, if_pos rfl]
  split <;> rfl

theorem keys_modify_release (f : KThread → KThread) (m : Memory) (p : Ptr) (pending : Option Ref) :
    ({ m.modify p f with pending }.release p).keys = m.keys := (keys_release _ p).trans (keys_modify f m p)

/-- A new record that is written to. -/
theorem record_threadNew (f : KThread → KThread) (m : Memory) (p q : Ptr) (stackBottom : ℕ) (tid : Tid) :
    ((m.threadNew p stackBottom tid).modify p f).record q =
      if q = p then some (f { KThread.zeroed with stackBottom, tid }) else m.record q := by
  rw [record_modify]
  split
  · exact congrArg (Option.map f) List.lookup_cons_self
  · next h => exact Lookups.lookup_cons_of_ne h _

theorem keys_threadNew (f : KThread → KThread) (m : Memory) (p : Ptr) (stackBottom : ℕ) (tid : Tid) :
    ((m.threadNew p stackBottom tid).modify p f).keys = p :: m.keys := keys_modify f _ p

theorem record_threadRemove (h : m.keys.Nodup) (p q : Ptr) :
    (m.threadRemove p).record q = if q = p then none else m.record q :=
  Lookups.lookup_eraseP p q h

theorem not_mem_keys (h : m.record p = none) : p ∉ m.keys := by
  intro hp
  obtain ⟨e, he, rfl⟩ := List.mem_map.mp hp
  rw [record, List.lookup_eq_none_iff] at h
  simpa using h e he

end Memory

namespace State

variable (s : State) (m : Memory) (l : Local)

@[simp] theorem memory_set (t : Tid) : (s.set t m l).memory = m := rfl

@[simp] theorem locals_set_self (t : Tid) : (s.set t m l).locals t = l := Function.update_self ..

theorem locals_set_of_ne {t u : Tid} (h : u ≠ t) : (s.set t m l).locals u = s.locals u := Function.update_of_ne h ..

end State

/-! ### Standings -/

def Base.thread : Base → Option Ptr
  | .main thread => some thread
  | .started thread _ _ => some thread
  | _ => none

/-- The record that a thread has in the registry. -/
def Local.owns (l : Local) : Option Ptr :=
  match l.frames with
  | .native thread _ _ _ :: _ => some thread
  | .callback entry _ :: _ => some entry.thread
  | [] => l.base.thread

/-- The frames below a Kotlin frame at a stack pointer: each callback holds what the Kotlin frame that waits for
it left, between that frame and the ones above it. -/
inductive Nested (p : Ptr) (base : Base) (bottom : ℕ) : ℕ → List Frame → Prop
  | base {sp : ℕ} (hbase : base.thread = some p) (hsp : sp ≤ bottom) : Nested p base bottom sp []
  | attached {sp address : ℕ} {entry : KThreadEntry} (hbase : base.thread = none) (hthread : entry.thread = p)
    (hattached : entry.attached = true) (haddress : sp ≤ address) (hsp : sp ≤ bottom) :
    Nested p base bottom sp [.callback entry address]
  | callback {sp sp' address : ℕ} {entry : KThreadEntry} {frames : List Frame} (hthread : entry.thread = p)
    (hattached : entry.attached = false) (haddress : sp ≤ address) (habove : address < sp')
    (hsp : entry.outerSp = sp') (hrest : Nested p base bottom sp' frames) :
    Nested p base bottom sp
      (.callback entry address :: .native p entry.outerRegisters sp' entry.outerPending :: frames)

variable {frames : List Frame} {p : Ptr}

theorem Nested.mono {base : Base} {bottom sp sp' : ℕ}
    (h : Nested p base bottom sp frames) (hsp : sp' ≤ sp) : Nested p base bottom sp' frames := by
  cases h with
  | base hbase hbottom => exact .base hbase (hsp.trans hbottom)
  | attached hbase hthread hattached haddress hbottom =>
    exact .attached hbase hthread hattached (hsp.trans haddress) (hsp.trans hbottom)
  | callback hthread hattached haddress habove heq hrest =>
    exact .callback hthread hattached (hsp.trans haddress) habove heq hrest

theorem Nested.le_bottom {base : Base} {bottom sp : ℕ} (h : Nested p base bottom sp frames) : sp ≤ bottom := by
  induction h with
  | base _ hsp => exact hsp
  | attached _ _ _ _ hsp => exact hsp
  | callback _ _ haddress habove _ _ ih => omega

variable {l : Local}

theorem Nested.owns {bottom sp : ℕ} (h : Nested p l.base bottom sp l.frames) : l.owns = some p := by
  obtain ⟨pc, base, frames, limit⟩ := l
  cases h with
  | base hbase _ => exact hbase
  | attached _ hthread _ _ _ => exact congrArg some hthread
  | callback hthread _ _ _ _ _ => exact congrArg some hthread

/-- What a thread is to the registry. -/
inductive Standing where
  | detached
  | unstarted (thread : Ptr)
  | outside (thread : Ptr)
  | inside (thread : Ptr)

def Standing.thread : Standing → Option Ptr
  | .detached => none
  | .unstarted p => some p
  | .outside p => some p
  | .inside p => some p

/-- A thread of each standing has the record that goes with it. -/
def Stands (m : Memory) (t : Tid) (l : Local) : Standing → Prop
  | .detached => l.frames = [] ∧ l.base.thread = none
  | .unstarted p => ∃ r handle, m.record p = some r ∧ r.released = true ∧ r.tid = 0 ∧
      l.base = .started p handle r.startArgument ∧ l.frames = []
  | .outside p => ∃ r frames, m.record p = some r ∧ r.released = true ∧ r.tid = t ∧
      l.frames = .native p r.registers r.savedSp r.pending :: frames ∧
      Nested p l.base r.stackBottom r.savedSp frames
  | .inside p => ∃ r, m.record p = some r ∧ r.released = false ∧ r.tid = t ∧
      Nested p l.base r.stackBottom l.limit l.frames

variable {t : Tid} {m : Memory} {st : Standing}

theorem Stands.owns (h : Stands m t l st) : l.owns = st.thread := by
  cases st with
  | detached =>
    obtain ⟨hframes, hbase⟩ := h
    rw [Local.owns, hframes]
    exact hbase
  | unstarted p =>
    obtain ⟨r, handle, -, -, -, hbase, hframes⟩ := h
    rw [Local.owns, hframes, hbase]
    rfl
  | outside p =>
    obtain ⟨r, frames, -, -, -, hframes, -⟩ := h
    rw [Local.owns, hframes]
    rfl
  | inside p =>
    obtain ⟨r, -, -, -, hnested⟩ := h
    exact hnested.owns

/-- A standing depends on the thread's own record only. -/
theorem Stands.congr {m m' : Memory} (h : Stands m t l st)
    (hrecord : ∀ p, st.thread = some p → m'.record p = m.record p) : Stands m' t l st := by
  cases st with
  | detached => exact h
  | unstarted p =>
    obtain ⟨r, handle, hr, rest⟩ := h
    exact ⟨r, handle, (hrecord p rfl).trans hr, rest⟩
  | outside p =>
    obtain ⟨r, frames, hr, rest⟩ := h
    exact ⟨r, frames, (hrecord p rfl).trans hr, rest⟩
  | inside p =>
    obtain ⟨r, hr, rest⟩ := h
    exact ⟨r, (hrecord p rfl).trans hr, rest⟩

variable {registers : Registers}

/-- A Kotlin frame waits in a thread that is outside. -/
theorem Stands.outside (h : Stands m t l st)
    (hst : st = .detached ∨ ∃ p, st = .outside p) {thread : Ptr} {sp : ℕ}
    {pending : Option Ref} (hframes : l.frames = .native thread registers sp pending :: frames) :
    st = .outside thread := by
  have howns : l.owns = some thread := by rw [Local.owns, hframes]
  have hthread : st.thread = some thread := h.owns.symm.trans howns
  rcases hst with rfl | ⟨p, rfl⟩
  · cases hthread
  · exact congrArg Standing.outside (Option.some.inj hthread)

/-- Where a thread of a standing may be. -/
def Entry.admits : Entry → Standing → Prop
  | .nativeLeave p _, st => st = .outside p
  | .callbackEnter _ _, st => st = .detached ∨ ∃ p, st = .outside p
  | .threadMain p, st => st = .unstarted p

def Pc.admits : Pc → Standing → Prop
  | .absent, st => st = .detached
  | .foreign, st => st = .detached ∨ ∃ p, st = .outside p
  | .kotlin, st => ∃ p, st = .inside p
  | .locking _ entry, st => entry.admits st
  | .locked entry, st => entry.admits st
  | .unlocking _ .foreign, st => st = .detached ∨ ∃ p, st = .outside p
  | .unlocking _ (.join _), st => ∃ p, st = .outside p
  | .unlocking _ .threadEnd, st => st = .detached
  | .joining _, st => ∃ p, st = .outside p
  | .ending, st => st = .detached

def Pc.entering : Pc → Option Entry
  | .locking _ entry => some entry
  | .locked entry => some entry
  | _ => none

theorem Pc.entry_admits {pc : Pc} {entry : Entry} (h : pc.entering = some entry) (hadmits : pc.admits st) :
    entry.admits st := by
  cases pc with
  | locking at_ e =>
    obtain rfl := Option.some.inj h
    exact hadmits
  | locked e =>
    obtain rfl := Option.some.inj h
    exact hadmits
  | _ => cases h

structure Tied (m : Memory) (t : Tid) (l : Local) : Prop where
  stands : ∃ st, l.pc.admits st ∧ Stands m t l st
  /-- A callback's entry lies below the Kotlin frame that waits for it. -/
  below : ∀ address bottom, l.pc.entering = some (.callbackEnter address bottom) →
    ∀ sp, l.waitingSp = some sp → address < sp

theorem Tied.congr {m m' : Memory} (h : Tied m t l)
    (hrecord : ∀ p, l.owns = some p → m'.record p = m.record p) : Tied m' t l := by
  obtain ⟨st, hadmits, hst⟩ := h.stands
  exact ⟨⟨st, hadmits, hst.congr fun p hp => hrecord p (hst.owns.trans hp)⟩, h.below⟩

/-! ### The invariant -/

/-- What a place in the code has to do with the lock. -/
def Pc.phase : Pc → Phase
  | .kotlin => .holding
  | .locked _ => .holding
  | .locking at_ _ => .locking at_
  | .unlocking at_ _ => .unlocking at_
  | _ => .idle

def State.lock (s : State) : Lock Tid := ⟨s.memory.word, fun t => (s.locals t).pc.phase⟩

theorem State.lock_set (s : State) (t : Tid) (m : Memory) (l : Local) :
    (s.set t m l).lock = ⟨m.word, Function.update s.lock.phase t l.pc.phase⟩ := by
  rw [lock, Lock.mk.injEq]
  refine ⟨rfl, funext fun u => ?_⟩
  by_cases hu : u = t
  · rw [hu, locals_set_self, Function.update_self]
  · rw [locals_set_of_ne s m l hu, Function.update_of_ne hu]
    rfl

structure Inv (s : State) : Prop where
  lock : Exclusive s.lock
  nodup : s.memory.keys.Nodup
  tied : ∀ t, Tied s.memory t (s.locals t)
  unique : ∀ t u p, (s.locals t).owns = some p → (s.locals u).owns = some p → t = u
  owned : ∀ p r, s.memory.record p = some r → ∃ t, (s.locals t).owns = some p
  running : ∀ p, s.memory.running = some p ↔ ∃ t, (s.locals t).pc = .kotlin ∧ (s.locals t).owns = some p
  zero : (s.locals 0).pc = .absent
  noFailure : s.ending ≠ some (.failed scanFailure)

variable {s : State}

/-- A thread in the section is the only one that can run Kotlin. -/
theorem Inv.only (hi : Inv s) {t u : Tid} (ht : (s.locals t).pc.phase.inSection = true)
    (hu : (s.locals u).pc = .kotlin) : u = t :=
  hi.lock.unique u t (congrArg (·.phase.inSection) hu) ht

/-- One thread moves, and changes its own record only. -/
theorem Inv.set (hi : Inv s) (hlock : Exclusive (s.set t m l).lock) (hnodup : m.keys.Nodup)
    (hothers : ∀ p, (s.locals t).owns ≠ some p → l.owns ≠ some p → m.record p = s.memory.record p)
    (hleft : ∀ p, (s.locals t).owns = some p → l.owns ≠ some p → m.record p = none)
    (hnew : ∀ p, l.owns = some p → (s.locals t).owns = some p ∨ ∀ u, (s.locals u).owns ≠ some p)
    (htied : Tied m t l)
    (hrunning : ∀ p, m.running = some p ↔
      (∃ u ≠ t, (s.locals u).pc = .kotlin ∧ (s.locals u).owns = some p) ∨ l.pc = .kotlin ∧ l.owns = some p)
    (hzero : t ≠ 0) : Inv (s.set t m l) where
  lock := hlock
  nodup := hnodup
  tied u := by
    by_cases hu : u = t
    · subst hu
      rwa [State.locals_set_self]
    · rw [State.locals_set_of_ne s m l hu]
      refine (hi.tied u).congr fun p hp => hothers p (fun ht => hu (hi.unique u t p hp ht)) fun hl => ?_
      rcases hnew p hl with ht | hnone
      · exact hu (hi.unique u t p hp ht)
      · exact hnone u hp
  unique u v p hu hv := by
    have hclash : ∀ v, l.owns = some p → v ≠ t → (s.locals v).owns ≠ some p := by
      intro v hl hv hown
      rcases hnew p hl with ht | hnone
      · exact hv (hi.unique v t p hown ht)
      · exact hnone v hown
    by_cases hut : u = t
    · subst hut
      by_contra hvt
      rw [State.locals_set_self] at hu
      rw [State.locals_set_of_ne s m l (Ne.symm hvt)] at hv
      exact hclash v hu (Ne.symm hvt) hv
    · rw [State.locals_set_of_ne s m l hut] at hu
      by_cases hvt : v = t
      · subst hvt
        rw [State.locals_set_self] at hv
        exact absurd hu (hclash u hv hut)
      · rw [State.locals_set_of_ne s m l hvt] at hv
        exact hi.unique u v p hu hv
  owned p r hr := by
    by_cases hl : l.owns = some p
    · exact ⟨t, by rw [State.locals_set_self, hl]⟩
    · by_cases ht : (s.locals t).owns = some p
      · rw [State.memory_set, hleft p ht hl] at hr
        cases hr
      · obtain ⟨u, hu⟩ := hi.owned p r (by rw [← hothers p ht hl]; exact hr)
        have hut : u ≠ t := by
          rintro rfl
          exact ht hu
        exact ⟨u, by rw [State.locals_set_of_ne s m l hut, hu]⟩
  running p := by
    rw [State.memory_set, hrunning]
    constructor
    · rintro (⟨u, hut, hu⟩ | hl)
      · exact ⟨u, by rwa [State.locals_set_of_ne s m l hut]⟩
      · exact ⟨t, by rwa [State.locals_set_self]⟩
    · rintro ⟨u, hu⟩
      by_cases hut : u = t
      · rw [hut, State.locals_set_self] at hu
        exact .inr hu
      · rw [State.locals_set_of_ne s m l hut] at hu
        exact .inl ⟨u, hut, hu⟩
  zero := by
    rw [State.locals_set_of_ne s m l hzero.symm]
    exact hi.zero
  noFailure := hi.noFailure

/-- A thread moves outside the section, and the records stay. -/
theorem Inv.pass (hi : Inv s) (hlock : Exclusive (s.set t m l).lock)
    (hthreads : m.threads = s.memory.threads) (hrunning : m.running = s.memory.running)
    (howns : l.owns = (s.locals t).owns) (htied : Tied m t l) (hpc : (s.locals t).pc ≠ .kotlin) (hpc' : l.pc ≠ .kotlin)
    (hzero : t ≠ 0) : Inv (s.set t m l) := by
  have hrecord : ∀ p, m.record p = s.memory.record p := fun p => by rw [Memory.record, hthreads, Memory.record]
  refine hi.set hlock ?_ (fun p _ _ => hrecord p) ?_ ?_ htied ?_ hzero
  · rw [Memory.keys, hthreads]
    exact hi.nodup
  · exact fun p ht hl => absurd (howns.trans ht) hl
  · exact fun p hl => .inl (howns ▸ hl)
  · intro p
    rw [hrunning, hi.running]
    constructor
    · rintro ⟨u, hu, hown⟩
      have hut : u ≠ t := by
        rintro rfl
        exact hpc hu
      exact .inl ⟨u, hut, hu, hown⟩
    · rintro (⟨u, -, hu⟩ | ⟨hk, -⟩)
      · exact ⟨u, hu⟩
      · exact absurd hk hpc'

/-- The thread in the section moves: it alone can run Kotlin. -/
theorem Inv.act (hi : Inv s)
    (ht : (s.locals t).pc.phase.inSection = true) (hlock : Exclusive (s.set t m l).lock) (hnodup : m.keys.Nodup)
    (hothers : ∀ p, (s.locals t).owns ≠ some p → l.owns ≠ some p → m.record p = s.memory.record p)
    (hleft : ∀ p, (s.locals t).owns = some p → l.owns ≠ some p → m.record p = none)
    (hnew : ∀ p, l.owns = some p → (s.locals t).owns = some p ∨ ∀ u, (s.locals u).owns ≠ some p)
    (htied : Tied m t l) (hrunning : ∀ p, m.running = some p ↔ l.pc = .kotlin ∧ l.owns = some p) (hzero : t ≠ 0) :
    Inv (s.set t m l) := by
  refine hi.set hlock hnodup hothers hleft hnew htied (fun p => ?_) hzero
  rw [hrunning]
  constructor
  · exact .inr
  · rintro (⟨u, hut, hu, -⟩ | hl)
    · exact absurd (hi.only ht hu) hut
    · exact hl

section Lock

variable {s : State} {t : Tid} {m : Memory} {l : Local}

theorem Inv.keepLock (hi : Inv s) (hword : m.word = s.memory.word) (hphase : (s.locals t).pc.phase = l.pc.phase) :
    Exclusive (s.set t m l).lock := by
  have hsame : (s.set t m l).lock = s.lock := by
    rw [State.lock_set, hword, ← hphase]
    exact congrArg _ (Function.update_eq_self t s.lock.phase)
  rw [hsame]
  exact hi.lock

theorem Inv.beginLock (hi : Inv s) (hword : m.word = s.memory.word) (hphase : (s.locals t).pc.phase = .idle)
    (hpc : l.pc.phase = .locking .swap) : Exclusive (s.set t m l).lock := by
  rw [State.lock_set, hword, hpc]
  exact hi.lock.step (.begin hphase)

theorem Inv.leaveLock (hi : Inv s) (hword : m.word = s.memory.word) (hphase : (s.locals t).pc.phase = .holding)
    (hpc : l.pc.phase = .unlocking .subtract) : Exclusive (s.set t m l).lock := by
  rw [State.lock_set, hword, hpc]
  exact hi.lock.step (.leave hphase)

end Lock

/-- A record carries the number of the thread that it belongs to, once that runs. -/
theorem Inv.tid (hi : Inv s) (hr : s.memory.record p = some r)
    (hzero : r.tid ≠ 0) : (s.locals r.tid).owns = some p := by
  obtain ⟨u, hu⟩ := hi.owned p r hr
  obtain ⟨st, -, hst⟩ := (hi.tied u).stands
  have hthread : st.thread = some p := hst.owns.symm.trans hu
  cases st with
  | detached => cases hthread
  | unstarted q =>
    obtain rfl := Option.some.inj hthread
    obtain ⟨r', handle, hr', -, htid, -⟩ := hst
    obtain rfl := Option.some.inj (hr.symm.trans hr')
    exact absurd htid hzero
  | outside q =>
    obtain rfl := Option.some.inj hthread
    obtain ⟨r', frames, hr', -, htid, -⟩ := hst
    obtain rfl := Option.some.inj (hr.symm.trans hr')
    rwa [htid]
  | inside q =>
    obtain rfl := Option.some.inj hthread
    obtain ⟨r', hr', -, htid, -⟩ := hst
    obtain rfl := Option.some.inj (hr.symm.trans hr')
    rwa [htid]

theorem Inv.threadOf_none (hi : Inv s) (hzero : t ≠ 0) (hown : (s.locals t).owns = none) :
    s.memory.threadOf t = none := by
  rw [Memory.threadOf, Option.map_eq_none_iff, List.find?_eq_none]
  intro e he htid
  have hr : s.memory.record e.1 = some e.2 := Lookups.lookup_of_mem hi.nodup he
  have ht : e.2.tid = t := of_decide_eq_true htid
  have howner := hi.tid hr (by rwa [ht])
  rw [ht, hown] at howner
  cases howner

theorem Inv.threadOf_some (hi : Inv s) (hzero : t ≠ 0)
    (hown : (s.locals t).owns = some p) (hr : s.memory.record p = some r) (htid : r.tid = t) :
    s.memory.threadOf t = some p := by
  rw [Memory.threadOf]
  cases hf : s.memory.threads.find? (·.2.tid = t) with
  | none =>
    have h := List.find?_eq_none.mp hf (p, r) (Lookups.mem_of_lookup hr)
    exact absurd (decide_eq_true htid) h
  | some e =>
    have hr' : s.memory.record e.1 = some e.2 := Lookups.lookup_of_mem hi.nodup (List.mem_of_find?_eq_some hf)
    have ht : e.2.tid = t := by simpa using List.find?_some hf
    have howner := hi.tid hr' (by rwa [ht])
    rw [ht, hown] at howner
    exact howner.symm

/-! ### Steps -/

section Steps

variable {s : State} {t : Tid}

/-- A thread that moves is one. -/
theorem Inv.ne_zero (hi : Inv s) (h : (s.locals t).pc ≠ .absent) : t ≠ 0 := by
  rintro rfl
  exact h hi.zero

theorem Inv.stands (hi : Inv s) {pc : Pc} (h : (s.locals t).pc = pc) :
    ∃ st, pc.admits st ∧ Stands s.memory t (s.locals t) st := by
  rw [← h]
  exact (hi.tied t).stands

theorem Inv.inside (hi : Inv s) (h : (s.locals t).pc = .kotlin) :
    ∃ p r, s.memory.running = some p ∧ (s.locals t).owns = some p ∧ s.memory.record p = some r ∧
      r.released = false ∧ r.tid = t ∧
      Nested p (s.locals t).base r.stackBottom (s.locals t).limit (s.locals t).frames := by
  obtain ⟨st, ⟨p, rfl⟩, hst⟩ := hi.stands h
  have howns : (s.locals t).owns = some p := hst.owns
  obtain ⟨r, hr, rest⟩ := hst
  exact ⟨p, r, (hi.running p).mpr ⟨t, h, howns⟩, howns, hr, rest⟩

theorem Inv.lockStep (hi : Inv s) {at_ : Locking} {entry : Entry} (h : (s.locals t).pc = .locking at_ entry) :
    Inv (s.set t { s.memory with word := (at_.next s.memory.word).2 }
      { s.locals t with pc := ((at_.next s.memory.word).1.map (.locking · entry)).getD (.locked entry) }) := by
  have hphase : (((at_.next s.memory.word).1.map (Pc.locking · entry)).getD (.locked entry)).phase =
      ((at_.next s.memory.word).1.map .locking).getD .holding := by
    cases (at_.next s.memory.word).1 <;> rfl
  have hentry : ∀ st, (Pc.locking at_ entry).admits st →
      (((at_.next s.memory.word).1.map (Pc.locking · entry)).getD (.locked entry)).admits st := by
    cases (at_.next s.memory.word).1 <;> exact fun _ h => h
  have hkotlin : ((at_.next s.memory.word).1.map (Pc.locking · entry)).getD (.locked entry) ≠ .kotlin := by
    cases (at_.next s.memory.word).1 <;> simp
  have hsame : (((at_.next s.memory.word).1.map (Pc.locking · entry)).getD (.locked entry)).entering = some entry := by
    cases (at_.next s.memory.word).1 <;> rfl
  refine hi.pass ?_ rfl rfl rfl ?_ (by simp [h]) hkotlin (hi.ne_zero (by simp [h]))
  · rw [State.lock_set, hphase]
    exact hi.lock.step (.lock (congrArg Pc.phase h))
  · obtain ⟨st, hadmits, hst⟩ := hi.stands h
    refine ⟨⟨st, hentry st hadmits, ?_⟩, fun address bottom he sp hsp => ?_⟩
    · cases st <;> exact hst
    · rw [hsame] at he
      refine (hi.tied t).below address bottom ?_ sp hsp
      rw [h]
      exact he

theorem Inv.unlockStep (hi : Inv s) {at_ : Unlocking} {exit : Exit} (h : (s.locals t).pc = .unlocking at_ exit) :
    Inv (s.set t { s.memory with word := (at_.next s.memory.word).2 }
      { s.locals t with pc := ((at_.next s.memory.word).1.map (.unlocking · exit)).getD exit.pc }) := by
  have hphase : (((at_.next s.memory.word).1.map (Pc.unlocking · exit)).getD exit.pc).phase =
      ((at_.next s.memory.word).1.map .unlocking).getD .idle := by
    cases (at_.next s.memory.word).1 <;> cases exit <;> rfl
  have hexit : ∀ st, (Pc.unlocking at_ exit).admits st →
      (((at_.next s.memory.word).1.map (Pc.unlocking · exit)).getD exit.pc).admits st := by
    cases (at_.next s.memory.word).1 <;> cases exit <;> exact fun _ h => h
  have hkotlin : ((at_.next s.memory.word).1.map (Pc.unlocking · exit)).getD exit.pc ≠ .kotlin := by
    cases (at_.next s.memory.word).1 <;> cases exit <;> simp [Exit.pc]
  have hentry : (((at_.next s.memory.word).1.map (Pc.unlocking · exit)).getD exit.pc).entering = none := by
    cases (at_.next s.memory.word).1 <;> cases exit <;> rfl
  refine hi.pass ?_ rfl rfl rfl ?_ (by simp [h]) hkotlin (hi.ne_zero (by simp [h]))
  · rw [State.lock_set, hphase]
    exact hi.lock.step (.unlock (congrArg Pc.phase h))
  · obtain ⟨st, hadmits, hst⟩ := hi.stands h
    refine ⟨⟨st, hexit st hadmits, ?_⟩, fun address bottom he => ?_⟩
    · cases st <;> exact hst
    · rw [hentry] at he
      cases he

/-- A thread goes to the lock. -/
theorem Inv.toLock (hi : Inv s) {entry : Entry} (hphase : (s.locals t).pc.phase = .idle)
    (hadmits : ∀ st, (s.locals t).pc.admits st → Stands s.memory t (s.locals t) st → entry.admits st)
    (hbelow : ∀ address bottom, entry = .callbackEnter address bottom →
      ∀ sp, (s.locals t).waitingSp = some sp → address < sp)
    (habsent : (s.locals t).pc ≠ .absent) : Inv (s.goto t (.locking .swap entry)) := by
  have hkotlin : (s.locals t).pc ≠ .kotlin := fun h => by rw [h] at hphase; cases hphase
  refine hi.pass (hi.beginLock rfl hphase rfl) rfl rfl rfl ?_ hkotlin (by simp) (hi.ne_zero habsent)
  obtain ⟨st, hpc, hst⟩ := (hi.tied t).stands
  refine ⟨⟨st, hadmits st hpc hst, ?_⟩, fun address bottom he => hbelow address bottom (Option.some.inj he)⟩
  cases st <;> exact hst

theorem Inv.nativeEnter (hi : Inv s) {sp : ℕ} {thread : Ptr} {join : Option Ptr}
    (h : (s.locals t).pc = .kotlin) (hsp : sp ≤ (s.locals t).limit)
    (henter : s.memory.nativeEnter registers sp = (some thread, m)) :
    Inv (s.set t m
      { s.locals t with
        pc := .unlocking .subtract ((join.map .join).getD .foreign)
        frames := .native thread registers sp s.memory.pending :: (s.locals t).frames }) := by
  obtain ⟨p, r, hrun, howns, hr, hreleased, htid, hnested⟩ := hi.inside h
  rw [Memory.nativeEnter, hrun, Prod.mk.injEq, Option.some.injEq] at henter
  obtain ⟨rfl, rfl⟩ := henter
  have hrecord := Memory.record_modify_release hr (fun r => { r with registers, savedSp := sp }) s.memory.pending
  refine hi.act (by rw [h]; rfl) (hi.leaveLock rfl (by rw [h]; rfl) rfl) ?_ ?_ ?_ ?_ ?_ ?_ (hi.ne_zero (by simp [h]))
  · rw [Memory.keys_release, Memory.keys_modify]
    exact hi.nodup
  · intro q hq _
    refine (hrecord q).trans (if_neg ?_)
    rintro rfl
    exact hq howns
  · intro q hq hl
    exact absurd (howns.symm.trans hq) hl
  · intro q hq
    exact .inl (howns.trans hq)
  · refine ⟨⟨.outside p, ?_, _, _, (hrecord p).trans (if_pos rfl), rfl, htid, rfl, hnested.mono hsp⟩, ?_⟩
    · cases join with
      | none => exact .inr ⟨p, rfl⟩
      | some handle => exact ⟨p, rfl⟩
    · intro address bottom he
      cases he
  · intro q
    exact iff_of_false (fun hq => by cases hq) fun hq => by cases hq.1

theorem Inv.nativeLeave (hi : Inv s) {thread q : Ptr} {joined : Option Ptr} {sp : ℕ}
    {pending : Option Ref} (h : (s.locals t).pc = .locked (.nativeLeave thread joined))
    (hframes : (s.locals t).frames = .native q registers sp pending :: frames) :
    Inv (s.set t
      { s.memory.acquire thread with handles := (s.memory.acquire thread).handles.filter (some ·.1 ≠ joined) }
      { s.locals t with pc := .kotlin, frames, limit := sp }) := by
  obtain ⟨st, rfl, hst⟩ := hi.stands h
  have howns : (s.locals t).owns = some thread := hst.owns
  obtain ⟨r, frames', hr, -, htid, hframes', hnested⟩ := hst
  rw [hframes, List.cons.injEq, Frame.native.injEq] at hframes'
  obtain ⟨⟨rfl, rfl, rfl, rfl⟩, rfl⟩ := hframes'
  let inside : Local := { s.locals t with pc := .kotlin, frames, limit := r.savedSp }
  have hinside : Nested q inside.base r.stackBottom inside.limit inside.frames := hnested
  have hrecord : ∀ p, (s.memory.acquire q).record p =
      if p = q then some { r with released := false, pending := none } else s.memory.record p := by
    intro p
    rw [Memory.record_acquire, hr]
    rfl
  have howns' : inside.owns = some q := hinside.owns
  refine hi.act (by rw [h]; rfl) (hi.keepLock rfl (by rw [h]; rfl)) ?_ ?_ ?_ ?_ ?_ ?_ (hi.ne_zero (by simp [h]))
  · exact (congrArg List.Nodup (Memory.keys_acquire s.memory q)).mpr hi.nodup
  · intro p hp _
    refine (hrecord p).trans (if_neg ?_)
    rintro rfl
    exact hp howns
  · intro p hp hl
    exact absurd (howns'.trans (howns.symm.trans hp)) hl
  · intro p hp
    exact .inl (howns.trans (howns'.symm.trans hp))
  · exact ⟨⟨.inside q, ⟨q, rfl⟩, _, (hrecord q).trans (if_pos rfl), rfl, htid, hinside⟩, fun _ _ he => by cases he⟩
  · exact fun p => ⟨fun hp => ⟨rfl, howns'.trans hp⟩, fun hp => howns'.symm.trans hp.2⟩

theorem Inv.raise (hi : Inv s) (pending : Option Ref) (h : (s.locals t).pc = .kotlin) :
    Inv (s.set t { s.memory with pending } (s.locals t)) := by
  refine hi.act (by rw [h]; rfl) (hi.keepLock rfl rfl) hi.nodup (fun _ _ _ => rfl) ?_ (fun _ hp => .inl hp) ?_ ?_
    (hi.ne_zero (by simp [h]))
  · exact fun p hp hl => absurd hp hl
  · exact (hi.tied t).congr fun _ _ => rfl
  · intro p
    obtain ⟨q, r, hrun, howns, -⟩ := hi.inside h
    rw [howns]
    exact ⟨fun hp => ⟨h, hrun.symm.trans hp⟩, fun hp => hrun.trans hp.2⟩

theorem Inv.callbackLeave (hi : Inv s) {entry : KThreadEntry} {address : ℕ}
    (h : (s.locals t).pc = .kotlin) (hframes : (s.locals t).frames = .callback entry address :: frames) :
    Inv (s.set t (s.memory.callbackLeave entry)
      { s.locals t with pc := .unlocking .subtract .foreign, frames }) := by
  obtain ⟨p, r, hrun, howns, hr, -, htid, hnested⟩ := hi.inside h
  have hthread : entry.thread = p := by
    rw [Local.owns, hframes] at howns
    exact Option.some.inj howns
  have hsection : (s.locals t).pc.phase.inSection = true := by rw [h]; rfl
  have hzero := hi.ne_zero (t := t) (by simp [h])
  rw [hframes] at hnested
  rw [Memory.callbackLeave, hthread]
  cases hnested with
  | attached hbase _ hattached _ _ =>
    -- the thread leaves the registry
    rw [if_pos hattached]
    have hrecord := Memory.record_threadRemove hi.nodup p
    refine hi.act hsection (hi.leaveLock rfl (by rw [h]; rfl) rfl) ?_ ?_ ?_ ?_ ?_ ?_ hzero
    · exact Lookups.nodup_eraseP p hi.nodup
    · intro q hq _
      refine (hrecord q).trans (if_neg ?_)
      rintro rfl
      exact hq howns
    · intro q hq _
      obtain rfl := Option.some.inj (howns.symm.trans hq)
      exact (hrecord p).trans (if_pos rfl)
    · intro q hq
      rw [Local.owns] at hq
      exact absurd (hbase.symm.trans hq) (by simp)
    · exact ⟨⟨.detached, .inl rfl, rfl, hbase⟩, fun _ _ he => by cases he⟩
    · intro q
      exact iff_of_false (fun hq => by cases hq) fun hq => by cases hq.1
  | callback hthread' hattached haddress habove hsp hrest =>
    -- the record describes the Kotlin frame that waits again
    rename_i sp' rest
    rw [hattached, if_neg Bool.false_ne_true]
    have hrecord := Memory.record_modify_release hr
      (fun r => { r with registers := entry.outerRegisters, savedSp := entry.outerSp }) entry.outerPending
    refine hi.act hsection (hi.leaveLock rfl (by rw [h]; rfl) rfl) ?_ ?_ ?_ ?_ ?_ ?_ hzero
    · exact (congrArg List.Nodup (Memory.keys_modify_release _ s.memory p _)).mpr hi.nodup
    · intro q hq _
      refine (hrecord q).trans (if_neg ?_)
      rintro rfl
      exact hq howns
    · intro q hq hl
      exact absurd (howns.symm.trans hq) hl
    · intro q hq
      exact .inl (howns.trans hq)
    · refine ⟨⟨.outside p, .inr ⟨p, rfl⟩, _, rest, (hrecord p).trans (if_pos rfl), rfl, htid, ?_, ?_⟩,
        fun _ _ he => by cases he⟩
      · rw [hsp]
      · rw [hsp]
        exact hrest
    · intro q
      exact iff_of_false (fun hq => by cases hq) fun hq => by cases hq.1

theorem Inv.nobody (hi : Inv s) (h : s.memory.record p = none) (u : Tid) : (s.locals u).owns ≠ some p := by
  intro hu
  obtain ⟨st, -, hst⟩ := (hi.tied u).stands
  have hthread : st.thread = some p := hst.owns.symm.trans hu
  have hsome : ∃ r, s.memory.record p = some r := by
    cases st with
    | detached => cases hthread
    | unstarted q =>
      obtain rfl := Option.some.inj hthread
      obtain ⟨r, _, hr, -⟩ := hst
      exact ⟨r, hr⟩
    | outside q =>
      obtain rfl := Option.some.inj hthread
      obtain ⟨r, _, hr, -⟩ := hst
      exact ⟨r, hr⟩
    | inside q =>
      obtain rfl := Option.some.inj hthread
      obtain ⟨r, hr, -⟩ := hst
      exact ⟨r, hr⟩
  obtain ⟨r, hr⟩ := hsome
  rw [h] at hr
  cases hr

theorem Inv.callbackEnter (hi : Inv s) {address stackBottom : ℕ} {entry : KThreadEntry} {new : Ptr}
    (h : (s.locals t).pc = .locked (.callbackEnter address stackBottom)) (hnew : s.memory.record new = none)
    (henter : s.memory.callbackEnter t new stackBottom = (entry, m)) :
    Inv (s.set t m
      { s.locals t with
        pc := .kotlin
        frames := .callback entry address :: (s.locals t).frames
        limit := if entry.attached then min address stackBottom else address }) := by
  have hzero := hi.ne_zero (t := t) (by simp [h])
  have hsection : (s.locals t).pc.phase.inSection = true := by rw [h]; rfl
  obtain ⟨st, hadmits, hst⟩ := hi.stands h
  rcases hadmits with rfl | ⟨p, rfl⟩
  · -- a thread that the runtime has not seen
    have howns : (s.locals t).owns = none := hst.owns
    obtain ⟨hframes, hbase⟩ := hst
    rw [Memory.callbackEnter, hi.threadOf_none hzero howns] at henter
    obtain ⟨rfl, rfl⟩ := Prod.mk.inj henter
    let attach : KThread → KThread := fun r => { r with number := s.memory.numbered, released := false }
    have hrecord := fun q => Memory.record_threadNew attach s.memory new q stackBottom t
    have hkeys := Memory.keys_threadNew attach s.memory new stackBottom t
    rw [hframes]
    refine hi.act hsection (hi.keepLock rfl (by rw [h]; rfl)) ?_ ?_ ?_ ?_ ?_ ?_ hzero
    · refine (congrArg List.Nodup hkeys).mpr ?_
      exact List.nodup_cons.mpr ⟨Memory.not_mem_keys hnew, hi.nodup⟩
    · intro q _ hl
      refine (hrecord q).trans (if_neg ?_)
      rintro rfl
      exact hl rfl
    · intro q hq _
      rw [howns] at hq
      cases hq
    · intro q hq
      obtain rfl := Option.some.inj hq
      exact .inr (hi.nobody hnew)
    · refine ⟨⟨.inside new, ⟨new, rfl⟩, _, (hrecord new).trans (if_pos rfl), rfl, rfl, ?_⟩, fun _ _ he => by cases he⟩
      exact .attached hbase rfl rfl (min_le_left _ _) (min_le_right _ _)
    · exact fun q => ⟨fun hq => ⟨rfl, hq⟩, fun hq => hq.2⟩
  · -- a callback on a thread whose Kotlin frames wait
    have howns : (s.locals t).owns = some p := hst.owns
    obtain ⟨r, frames, hr, -, htid, hframes, hnested⟩ := hst
    rw [Memory.callbackEnter, hi.threadOf_some hzero howns hr htid] at henter
    dsimp only at henter
    rw [hr] at henter
    obtain ⟨rfl, rfl⟩ := Prod.mk.inj henter
    let reenter : KThread → KThread := fun r => { r with pending := none, released := false }
    have hrecord := fun q => Memory.record_modify reenter s.memory p q
    have hkeys := Memory.keys_modify reenter s.memory p
    rw [hr] at hrecord
    have haddress : address < r.savedSp := by
      refine (hi.tied t).below address stackBottom (by rw [h]; rfl) r.savedSp ?_
      rw [Local.waitingSp, hframes]
    refine hi.act hsection (hi.keepLock rfl (by rw [h]; rfl)) ?_ ?_ ?_ ?_ ?_ ?_ hzero
    · exact (congrArg List.Nodup hkeys).mpr hi.nodup
    · intro q hq _
      refine (hrecord q).trans (if_neg ?_)
      rintro rfl
      exact hq howns
    · intro q hq hl
      exact absurd (howns.symm.trans hq) hl
    · intro q hq
      exact .inl (howns.trans hq)
    · refine ⟨⟨.inside p, ⟨p, rfl⟩, _, (hrecord p).trans (if_pos rfl), rfl, htid, ?_⟩, fun _ _ he => by cases he⟩
      rw [hframes]
      exact .callback rfl rfl le_rfl haddress rfl hnested
    · exact fun q => ⟨fun hq => ⟨rfl, hq⟩, fun hq => hq.2⟩

theorem Inv.threadStart (hi : Inv s) {u : Tid} {thread handle : Ptr} (routine : Ptr) (argument : Option Ref)
    (h : (s.locals t).pc = .kotlin) (hu : (s.locals u).pc = .absent) (hzero : u ≠ 0)
    (hnew : s.memory.record thread = none) :
    Inv (s.set u (s.memory.threadStart thread handle routine argument)
      ⟨.locking .swap (.threadMain thread), .started thread handle argument, [], 0⟩) := by
  obtain ⟨p, r, hrun, howns, hr, -⟩ := hi.inside h
  obtain ⟨st, rfl, hst⟩ := hi.stands hu
  have hnone : (s.locals u).owns = none := hst.owns
  have hp : p ≠ thread := by
    rintro rfl
    rw [hnew] at hr
    cases hr
  let start : KThread → KThread := fun r =>
    { r with released := true, startRoutine := routine, startArgument := argument, number := s.memory.numbered }
  have hrecord := fun q => Memory.record_threadNew start s.memory thread q 0 0
  have hkeys := Memory.keys_threadNew start s.memory thread 0 0
  refine hi.set (hi.beginLock rfl (by rw [hu]; rfl) rfl) ?_ ?_ ?_ ?_ ?_ ?_ hzero
  · refine (congrArg List.Nodup hkeys).mpr ?_
    exact List.nodup_cons.mpr ⟨Memory.not_mem_keys hnew, hi.nodup⟩
  · intro q _ hl
    refine (hrecord q).trans (if_neg ?_)
    rintro rfl
    exact hl rfl
  · intro q hq _
    rw [hnone] at hq
    cases hq
  · intro q hq
    obtain rfl := Option.some.inj hq
    exact .inr (hi.nobody hnew)
  · refine ⟨⟨.unstarted thread, rfl, _, handle, (hrecord thread).trans (if_pos rfl), rfl, rfl, rfl, rfl⟩, ?_⟩
    intro address bottom he
    cases he
  · intro q
    have hrunning : (s.memory.threadStart thread handle routine argument).running = s.memory.running := rfl
    rw [hrunning, hi.running]
    constructor
    · rintro ⟨v, hv, hown⟩
      have hvu : v ≠ u := by
        rintro rfl
        rw [hu] at hv
        cases hv
      exact .inl ⟨v, hvu, hv, hown⟩
    · rintro (⟨v, -, hv⟩ | ⟨hk, -⟩)
      · exact ⟨v, hv⟩
      · cases hk

theorem Inv.threadMain (hi : Inv s) {thread : Ptr} (bottom : ℕ) (h : (s.locals t).pc = .locked (.threadMain thread)) :
    Inv (s.set t (s.memory.threadMain thread t bottom).2 { s.locals t with pc := .kotlin, limit := bottom }) := by
  obtain ⟨st, rfl, hst⟩ := hi.stands h
  have howns : (s.locals t).owns = some thread := hst.owns
  obtain ⟨r, handle, hr, -, -, hbase, hframes⟩ := hst
  let main : KThread → KThread := fun r =>
    { r with tid := t, stackBottom := bottom, released := false, startArgument := none }
  have hrecord := fun q => Memory.record_modify main s.memory thread q
  have hkeys := Memory.keys_modify main s.memory thread
  rw [hr] at hrecord
  refine hi.act (by rw [h]; rfl) (hi.keepLock rfl (by rw [h]; rfl)) ?_ ?_ ?_ ?_ ?_ ?_ (hi.ne_zero (by simp [h]))
  · exact (congrArg List.Nodup hkeys).mpr hi.nodup
  · intro q hq _
    refine (hrecord q).trans (if_neg ?_)
    rintro rfl
    exact hq howns
  · intro q hq hl
    exact absurd hq hl
  · exact fun q hq => .inl hq
  · refine ⟨⟨.inside thread, ⟨thread, rfl⟩, _, (hrecord thread).trans (if_pos rfl), rfl, rfl, ?_⟩,
      fun _ _ he => by cases he⟩
    rw [hframes]
    exact .base (by rw [hbase]; rfl) le_rfl
  · intro q
    exact ⟨fun hq => ⟨rfl, howns.trans hq⟩, fun hq => howns.symm.trans hq.2⟩

theorem Inv.threadEnd (hi : Inv s) {thread handle : Ptr} {argument : Option Ref} (h : (s.locals t).pc = .kotlin)
    (hbase : (s.locals t).base = .started thread handle argument) (hframes : (s.locals t).frames = []) :
    Inv (s.set t (s.memory.threadEnd thread)
      { s.locals t with pc := .unlocking .subtract .threadEnd, base := .ended handle }) := by
  have howns : (s.locals t).owns = some thread := by
    rw [Local.owns, hframes, hbase]
    rfl
  have hgone : Local.owns { s.locals t with pc := .unlocking .subtract .threadEnd, base := .ended handle } = none := by
    rw [Local.owns, hframes]
    rfl
  have hrecord := Memory.record_threadRemove hi.nodup thread
  refine hi.act (by rw [h]; rfl) (hi.leaveLock rfl (by rw [h]; rfl) rfl) ?_ ?_ ?_ ?_ ?_ ?_ (hi.ne_zero (by simp [h]))
  · exact Lookups.nodup_eraseP thread hi.nodup
  · intro q hq _
    refine (hrecord q).trans (if_neg ?_)
    rintro rfl
    exact hq howns
  · intro q hq _
    obtain rfl := Option.some.inj (howns.symm.trans hq)
    exact (hrecord thread).trans (if_pos rfl)
  · intro q hq
    rw [hgone] at hq
    cases hq
  · exact ⟨⟨.detached, rfl, hframes, rfl⟩, fun _ _ he => by cases he⟩
  · intro q
    exact iff_of_false (fun hq => by cases hq) fun hq => by cases hq.1

/-- A thread without a record comes or goes. -/
theorem Inv.comes (hi : Inv s) {pc : Pc} (hthreads : m.threads = s.memory.threads)
    (hrunning : m.running = s.memory.running) (hword : m.word = s.memory.word)
    (hpc : (s.locals t).pc = .absent ∨ (s.locals t).pc = .foreign ∨ (s.locals t).pc = .ending)
    (hpc' : pc = .absent ∨ pc = .foreign) (hzero : t ≠ 0)
    (hnone : (s.locals t).owns = none) : Inv (s.set t m ⟨pc, .foreign, [], 0⟩) := by
  have hphase : (s.locals t).pc.phase = pc.phase := by
    rcases hpc with h | h | h <;> rcases hpc' with rfl | rfl <;> rw [h] <;> rfl
  refine hi.pass (hi.keepLock hword hphase) hthreads hrunning hnone.symm ?_ ?_ ?_ hzero
  · refine ⟨⟨.detached, ?_, rfl, rfl⟩, ?_⟩
    · rcases hpc' with rfl | rfl
      · rfl
      · exact .inl rfl
    · intro address bottom he
      rcases hpc' with rfl | rfl <;> cases he
  · rcases hpc with h | h | h <;> simp [h]
  · rcases hpc' with rfl | rfl <;> simp

theorem Pc.inside_of_admits {pc : Pc} (h : pc.admits (.inside p)) : pc = .kotlin := by
  have hentry : ∀ entry : Entry, ¬ entry.admits (.inside p) := by
    intro entry he
    cases entry <;> simp [Entry.admits] at he
  cases pc with
  | kotlin => rfl
  | locking _ entry => exact absurd h (hentry entry)
  | locked entry => exact absurd h (hentry entry)
  | unlocking _ exit => cases exit <;> simp [Pc.admits] at h
  | _ => simp [Pc.admits] at h

/-- A record that is not the runner's is released, and belongs to a thread that waits or has not run. -/
theorem Inv.waits (hi : Inv s) (hr : s.memory.record p = some r)
    (hrun : s.memory.running ≠ some p) : r.released = true ∧ ∃ u, (s.locals u).owns = some p ∧
      (Stands s.memory u (s.locals u) (.unstarted p) ∨ Stands s.memory u (s.locals u) (.outside p)) := by
  obtain ⟨u, hu⟩ := hi.owned p r hr
  obtain ⟨st, hadmits, hst⟩ := (hi.tied u).stands
  have hthread : st.thread = some p := hst.owns.symm.trans hu
  cases st with
  | detached => cases hthread
  | unstarted q =>
    obtain rfl := Option.some.inj hthread
    have hstands := hst
    obtain ⟨r', handle, hr', hreleased, -⟩ := hst
    obtain rfl := Option.some.inj (hr.symm.trans hr')
    exact ⟨hreleased, u, hu, .inl hstands⟩
  | outside q =>
    obtain rfl := Option.some.inj hthread
    have hstands := hst
    obtain ⟨r', frames, hr', hreleased, -⟩ := hst
    obtain rfl := Option.some.inj (hr.symm.trans hr')
    exact ⟨hreleased, u, hu, .inr hstands⟩
  | inside q =>
    obtain rfl := Option.some.inj hthread
    exact absurd ((hi.running q).mpr ⟨u, Pc.inside_of_admits hadmits, hu⟩) hrun

/-- A scan of released records is refused nowhere, and hands over what each of them keeps. -/
theorem scanReleased_ok {running : Option Ptr} {threads : List (Ptr × KThread)}
    (h : ∀ e ∈ threads, running ≠ some e.1 → e.2.released = true) :
    ∃ scans, scanReleased running threads = .ok scans ∧ ∀ e ∈ threads, running ≠ some e.1 →
      (∀ i, .word (e.2.registers i) ∈ scans) ∧ .reference e.2.pending ∈ scans ∧
        .reference e.2.startArgument ∈ scans ∧ .range e.2.savedSp e.2.stackBottom ∈ scans := by
  induction threads with
  | nil => exact ⟨[], rfl, nofun⟩
  | cons e threads ih =>
    obtain ⟨scans, hscan, hall⟩ := ih fun e he => h e (List.mem_cons_of_mem _ he)
    by_cases hrun : running = some e.1
    · refine ⟨scans, by rw [scanReleased, if_pos hrun, hscan], ?_⟩
      intro e' he' hrun'
      rcases List.mem_cons.mp he' with rfl | he'
      · exact absurd hrun hrun'
      · exact hall e' he' hrun'
    · have hreleased : e.2.released ≠ false := by simp [h e List.mem_cons_self hrun]
      refine ⟨_, by rw [scanReleased, if_neg hrun, if_neg hreleased, hscan]; rfl, ?_⟩
      intro e' he' hrun'
      rcases List.mem_cons.mp he' with rfl | he'
      · simp only [List.mem_append, List.mem_ofFn]
        exact ⟨fun i => .inl (.inl ⟨i, rfl⟩), by simp, by simp, by simp⟩
      · obtain ⟨hwords, hrest⟩ := hall e' he' hrun'
        simp only [List.mem_append]
        exact ⟨fun i => .inr (hwords i), .inr hrest.1, .inr hrest.2.1, .inr hrest.2.2⟩

theorem Inv.scan_ok (hi : Inv s) : ∃ scans, scanReleased s.memory.running s.memory.threads = .ok scans ∧
    ∀ e ∈ s.memory.threads, s.memory.running ≠ some e.1 →
      (∀ i, .word (e.2.registers i) ∈ scans) ∧ .reference e.2.pending ∈ scans ∧
        .reference e.2.startArgument ∈ scans ∧ .range e.2.savedSp e.2.stackBottom ∈ scans :=
  scanReleased_ok fun _ he hrun => (hi.waits (Lookups.lookup_of_mem hi.nodup he) hrun).1

theorem Inv.ends (hi : Inv s) {ending : Option Ending} (h : ending ≠ some (.failed scanFailure)) :
    Inv { s with ending } :=
  ⟨hi.lock, hi.nodup, hi.tied, hi.unique, hi.owned, hi.running, hi.zero, h⟩

theorem Inv.step (hi : Inv s) {s' : State} (h : Step t s s') : Inv s' := by
  cases h with
  | lock h => exact hi.lockStep h
  | unlock h => exact hi.unlockStep h
  | raise pending h => exact hi.raise pending h
  | collect _ _ => exact hi
  | collectFails _ hscan =>
    obtain ⟨scans, hok, -⟩ := hi.scan_ok
    rw [hok] at hscan
    cases hscan
  | nativeEnter registers join h hsp henter => exact hi.nativeEnter h hsp henter
  | foreignReturns h hframes =>
    refine hi.toLock (by rw [h]; rfl) (fun st hadmits hst => ?_) nofun (by simp [h])
    rw [h] at hadmits
    exact hst.outside hadmits hframes
  | joined h _ hframes =>
    refine hi.toLock (by rw [h]; rfl) (fun st hadmits hst => ?_) nofun (by simp [h])
    rw [h] at hadmits
    exact hst.outside (.inr hadmits) hframes
  | nativeLeave h hframes => exact hi.nativeLeave h hframes
  | calledBack address stackBottom h haddress =>
    refine hi.toLock (by rw [h]; rfl) (fun st hst _ => ?_) ?_ (by simp [h])
    · rwa [h] at hst
    · rintro _ _ he sp hsp
      obtain ⟨rfl, rfl⟩ := Entry.callbackEnter.inj he
      exact haddress sp hsp
  | callbackEnter new h hnew henter => exact hi.callbackEnter h hnew henter
  | callbackLeave h hframes _ => exact hi.callbackLeave h hframes
  | callbackFails _ _ _ => exact hi.ends (by simp)
  | threadStart routine argument h hu hzero hnew _ => exact hi.threadStart routine argument h hu hzero hnew
  | threadStartFails _ => exact hi.ends (by simp [scanFailure])
  | threadMain bottom h => exact hi.threadMain bottom h
  | threadEnd h hbase hframes _ => exact hi.threadEnd h hbase hframes
  | threadFails _ _ _ _ => exact hi.ends (by simp)
  | threadExits h _ =>
    obtain ⟨st, rfl, hst⟩ := hi.stands h
    exact hi.comes rfl rfl rfl (.inr (.inr h)) (.inl rfl) (hi.ne_zero (by simp [h])) hst.owns
  | appear h hzero =>
    obtain ⟨st, rfl, hst⟩ := hi.stands h
    exact hi.comes rfl rfl rfl (.inl h) (.inr rfl) hzero hst.owns
  | disappear h hbase hframes =>
    refine hi.comes rfl rfl rfl (.inr (.inl h)) (.inl rfl) (hi.ne_zero (by simp [h])) ?_
    rw [Local.owns, hframes, hbase]
    rfl

end Steps

theorem inv_initial (ht : t ≠ 0) (thread : Ptr) (bottom : ℕ) : Inv (initial t thread bottom) := by
  have hself : (initial t thread bottom).locals t = ⟨.kotlin, .main thread, [], bottom⟩ := if_pos rfl
  have hother : ∀ u, u ≠ t → (initial t thread bottom).locals u = ⟨.absent, .foreign, [], 0⟩ := fun u hu => if_neg hu
  have honly : ∀ u p, ((initial t thread bottom).locals u).owns = some p → u = t ∧ p = thread := by
    intro u p hp
    by_cases hu : u = t
    · rw [hu, hself] at hp
      exact ⟨hu, (Option.some.inj hp).symm⟩
    · rw [hother u hu] at hp
      cases hp
  have hrecord : ∀ q, (initial t thread bottom).memory.record q = if q = thread then
      some { KThread.zeroed with stackBottom := bottom, tid := t, number := mainNumber } else none :=
    fun q => Memory.record_threadNew _ _ thread q bottom t
  constructor
  · have hsection : ∀ u, ((initial t thread bottom).lock.phase u).inSection = true → u = t := by
      intro u hu
      by_contra hut
      have hidle : (initial t thread bottom).lock.phase u = .idle :=
        congrArg (·.pc.phase) (hother u hut)
      rw [hidle] at hu
      cases hu
    constructor
    · intro u v hu hv
      rw [hsection u hu, hsection v hv]
    · exact fun u _ => Nat.one_ne_zero
  · exact List.nodup_singleton _
  · intro u
    by_cases hu : u = t
    · rw [hu, hself]
      exact ⟨⟨.inside thread, ⟨thread, rfl⟩, _, (hrecord thread).trans (if_pos rfl), rfl, rfl, .base rfl le_rfl⟩,
        fun _ _ he => by cases he⟩
    · rw [hother u hu]
      exact ⟨⟨.detached, rfl, rfl, rfl⟩, fun _ _ he => by cases he⟩
  · intro u v p hu hv
    rw [(honly u p hu).1, (honly v p hv).1]
  · intro p r hr
    rw [hrecord] at hr
    split at hr
    · next hp => exact ⟨t, by rw [hself, hp]; rfl⟩
    · cases hr
  · intro p
    constructor
    · intro hp
      obtain rfl := Option.some.inj hp
      exact ⟨t, by rw [hself], by rw [hself]; rfl⟩
    · rintro ⟨u, -, hu⟩
      exact congrArg some (honly u p hu).2.symm
  · rw [hother 0 ht.symm]
  · exact nofun

theorem reachable_inv (h : Reachable s) : Inv s := by
  induction h with
  | start ht thread bottom => exact inv_initial ht thread bottom
  | step _ _ h ih => exact ih.step h

/-! ### The protocol -/

/-- Between taking the lock and giving it back. -/
def InSection (s : State) (t : Tid) : Prop := (s.locals t).pc.phase.inSection = true

/-- What the Kotlin frames that wait below others left: their registers, stack pointer and exception. -/
def Local.waiting (l : Local) : List (Registers × ℕ × Option Ref) :=
  l.frames.filterMap fun
    | .native _ registers sp pending => some (registers, sp, pending)
    | .callback _ _ => none

/-- What each Kotlin frame that waits left is in the record, or in a callback's entry that lies between the
recorded stack pointer and the bottom of the stack. -/
def Recorded (r : KThread) (l : Local) : Prop :=
  ∀ frame ∈ l.waiting, frame = (r.registers, r.savedSp, r.pending) ∨
    ∃ entry address, .callback entry address ∈ l.frames ∧ r.savedSp ≤ address ∧ address < r.stackBottom ∧
      frame = (entry.outerRegisters, entry.outerSp, entry.outerPending)

theorem Nested.held {base : Base} {bottom sp : ℕ} (h : Nested p base bottom sp frames) :
    ∀ thread registers sp' pending, .native thread registers sp' pending ∈ frames →
      ∃ entry address, .callback entry address ∈ frames ∧ sp ≤ address ∧ address < bottom ∧
        (registers, sp', pending) = (entry.outerRegisters, entry.outerSp, entry.outerPending) := by
  induction h with
  | base _ _ => exact fun _ _ _ _ h => by cases h
  | attached _ _ _ _ _ => exact fun _ _ _ _ h => by simp at h
  | callback hthread hattached haddress habove hsp hrest ih =>
    rename_i sp sp' address entry frames
    intro thread registers sp'' pending h
    rcases List.mem_cons.mp h with h | h
    · cases h
    · rcases List.mem_cons.mp h with h | h
      · obtain ⟨-, rfl, rfl, rfl⟩ := Frame.native.inj h
        exact ⟨entry, address, List.mem_cons_self, haddress, habove.trans_le hrest.le_bottom, by rw [hsp]⟩
      · obtain ⟨entry', address', hmem, hle, hlt, heq⟩ := ih thread registers sp'' pending h
        refine ⟨entry', address', ?_, by omega, hlt, heq⟩
        exact List.mem_cons_of_mem _ (List.mem_cons_of_mem _ hmem)

theorem Stands.recorded (hr : m.record p = some r)
    (h : Stands m t l (.unstarted p) ∨ Stands m t l (.outside p)) : Recorded r l := by
  rintro ⟨registers, sp, pending⟩ hframe
  obtain ⟨frame, hmem, hframe⟩ := List.mem_filterMap.mp hframe
  cases frame with
  | callback entry address => cases hframe
  | native thread registers' sp' pending' =>
    obtain ⟨rfl, rfl, rfl⟩ : registers' = registers ∧ sp' = sp ∧ pending' = pending := by simpa using hframe
    rcases h with ⟨r', handle, -, -, -, -, hframes⟩ | ⟨r', frames, hr', -, -, hframes, hnested⟩
    · rw [hframes] at hmem
      cases hmem
    · obtain rfl := Option.some.inj (hr.symm.trans hr')
      rw [hframes] at hmem
      rcases List.mem_cons.mp hmem with heq | hmem
      · obtain ⟨-, rfl, rfl, rfl⟩ := Frame.native.inj heq
        exact .inl rfl
      · obtain ⟨entry, address, hentry, hle, hlt, heq⟩ := hnested.held thread registers' sp' pending' hmem
        refine .inr ⟨entry, address, ?_, hle, hlt, heq⟩
        rw [hframes]
        exact List.mem_cons_of_mem _ hentry

/-- A thread that was started and has not taken its argument yet. -/
def Unstarted (l : Local) (thread : Ptr) : Prop := l.pc.entering = some (.threadMain thread)

structure Protocol (s : State) : Prop where
  /-- One thread at most is between taking the lock and giving it back. -/
  oneRunner : ∀ t u, InSection s t → InSection s u → t = u
  /-- The thread that runs Kotlin is the one that `kt_running` names. -/
  named : ∀ p, s.memory.running = some p ↔ ∃ t, (s.locals t).pc = .kotlin ∧ (s.locals t).owns = some p
  runnerAttached : ∀ t, (s.locals t).pc = .kotlin → ∃ p r, (s.locals t).owns = some p ∧ (p, r) ∈ s.memory.threads
  /-- Every other attached thread is released, and what its waiting Kotlin frames left is recorded. -/
  released : ∀ p r, (p, r) ∈ s.memory.threads → s.memory.running ≠ some p →
    r.released = true ∧ ∃ u, (s.locals u).owns = some p ∧ Recorded r (s.locals u)
  /-- A scan fails nowhere, and is handed what every other attached thread keeps. -/
  scanned : ∃ scans, scanReleased s.memory.running s.memory.threads = .ok scans ∧
    ∀ p r, (p, r) ∈ s.memory.threads → s.memory.running ≠ some p →
      (∀ i, .word (r.registers i) ∈ scans) ∧ .reference r.pending ∈ scans ∧ .range r.savedSp r.stackBottom ∈ scans
  noFailure : s.ending ≠ some (.failed scanFailure)
  /-- A thread gets back the exception that it had when it let go. -/
  pendingBack : ∀ t thread joined, (s.locals t).pc = .locked (.nativeLeave thread joined) →
    ∃ registers sp pending frames, (s.locals t).frames = .native thread registers sp pending :: frames ∧
      (s.memory.acquire thread).pending = pending
  /-- The argument of a thread is a root until the thread runs. -/
  argumentRoot : ∀ t thread, Unstarted (s.locals t) thread → ∃ handle argument scans,
    (s.locals t).base = .started thread handle argument ∧
      (s.memory.threadMain thread t 0).1 = argument ∧
      scanReleased s.memory.running s.memory.threads = .ok scans ∧ .reference argument ∈ scans
  /-- Only attached threads have records, one each. -/
  attached : ∀ p r, (p, r) ∈ s.memory.threads → ∃ t, (s.locals t).owns = some p ∧ (s.locals t).pc ≠ .absent ∧
    (s.locals t).pc ≠ .ending ∧ ∀ u, (s.locals u).owns = some p → u = t

theorem mutator_protocol {s : State} (h : Reachable s) : Protocol s := by
  have hi := reachable_inv h
  have hrecord : ∀ {p r}, (p, r) ∈ s.memory.threads → s.memory.record p = some r :=
    fun hmem => Lookups.lookup_of_mem hi.nodup hmem
  obtain ⟨scans, hscan, hall⟩ := hi.scan_ok
  refine ⟨fun t u => hi.lock.unique t u, hi.running, ?_, ?_, ⟨scans, hscan, ?_⟩, hi.noFailure, ?_, ?_, ?_⟩
  · intro t ht
    obtain ⟨p, r, -, howns, hr, -⟩ := hi.inside ht
    exact ⟨p, r, howns, Lookups.mem_of_lookup hr⟩
  · intro p r hmem hrun
    obtain ⟨hreleased, u, hu, hst⟩ := hi.waits (hrecord hmem) hrun
    exact ⟨hreleased, u, hu, Stands.recorded (hrecord hmem) hst⟩
  · intro p r hmem hrun
    obtain ⟨hwords, hpending, -, hrange⟩ := hall _ hmem hrun
    exact ⟨hwords, hpending, hrange⟩
  · intro t thread joined ht
    obtain ⟨st, rfl, hst⟩ := hi.stands ht
    obtain ⟨r, frames, hr, -, -, hframes, -⟩ := hst
    refine ⟨_, _, _, frames, hframes, ?_⟩
    change (s.memory.record thread).bind (·.pending) = r.pending
    rw [hr]
    rfl
  · intro t thread ht
    obtain ⟨st, hadmits, hst⟩ := (hi.tied t).stands
    have hunstarted : st = .unstarted thread := Pc.entry_admits ht hadmits
    subst hunstarted
    have hown : (s.locals t).owns = some thread := hst.owns
    obtain ⟨r, handle, hr, -, -, hbase, -⟩ := hst
    have hrun : s.memory.running ≠ some thread := by
      intro hrun
      obtain ⟨u, hu, howns⟩ := (hi.running thread).mp hrun
      obtain rfl := hi.unique u t thread howns hown
      rw [Unstarted, hu] at ht
      cases ht
    refine ⟨handle, r.startArgument, scans, hbase, ?_, hscan, ?_⟩
    · rw [Memory.threadMain, hr]
      rfl
    · exact (hall _ (Lookups.mem_of_lookup hr) hrun).2.2.1
  · intro p r hmem
    obtain ⟨t, ht⟩ := hi.owned p r (hrecord hmem)
    obtain ⟨st, hadmits, hst⟩ := (hi.tied t).stands
    have hdetached : st ≠ .detached := by
      rintro rfl
      have hnone := hst.owns.symm.trans ht
      cases hnone
    refine ⟨t, ht, fun hpc => ?_, fun hpc => ?_, fun u hu => hi.unique u t p hu ht⟩
    · rw [hpc] at hadmits
      exact hdetached hadmits
    · rw [hpc] at hadmits
      exact hdetached hadmits

/-- The first thread, away in foreign code. -/
def mainAway : State :=
  (initial 1 64 5000).set 1 ((initial 1 64 5000).memory.nativeEnter (fun _ => 7) 4000).2
    ⟨.unlocking .subtract .foreign, .main 64, [.native 64 (fun _ => 7) 4000 none], 5000⟩

theorem mainAway_protocol : Protocol mainAway :=
  mutator_protocol (.step (.start Nat.one_ne_zero 64 5000) rfl (.nativeEnter (fun _ => 7) none rfl (by decide) rfl))

end Krusty.Native.Threads
