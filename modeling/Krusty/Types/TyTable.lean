import Mathlib.Logic.Function.Basic
import Mathlib.Algebra.Order.Ring.Nat

/-! The table that gives every distinct type one id, and the threads that use it at once. -/
namespace Krusty.Types.TyTable

/-- A type is its id in the table. -/
abbrev Ty := ℕ

/-- A qualified name, by its id. -/
abbrev TypeName := ℕ

structure FnSig where
  params : List Ty
  ret : Ty
  contextCount : ℕ
  hasReceiver : Bool
  suspend : Bool
  deriving DecidableEq

/-- One layer of a type, with its component types by value. -/
inductive TyKind where
  | unit
  | obj (name : TypeName) (arguments : List Ty)
  | null
  | nothing
  | error
  | pending
  | function (signature : FnSig)
  | nullable (ty : Ty)
  | platformNullable (ty : Ty)
  | mutabilityFlexible (ty : Ty)
  | inProjection (ty : Ty)
  | outProjection (ty : Ty)
  | starProjection (ty : Ty)
  | rawProjection (ty : Ty)
  | tyParam (name : List Char) (bound : Ty)
  | var (name : List Char) (bound : Ty)
  | definitelyNotNull (ty : Ty)
  | intersection (types : List Ty)
  deriving DecidableEq

/-- The names of the built-in classifiers among the reserved kinds, from `kotlin/Boolean` to `kotlin/String`. -/
def builtinNames : List TypeName := [2, 3, 4, 5, 6, 7, 8, 9, 10, 11, 12, 13, 14]

/-- The kinds of the reserved ids, in id order. -/
def reservedKinds : List TyKind :=
  [.unit, .null, .nothing, .error, .pending] ++ builtinNames.map fun name => .obj name []

def reserved : ℕ := reservedKinds.length

theorem nodup_reservedKinds : reservedKinds.Nodup := by decide

/-! ### Slots -/

def u32Max : ℕ := 2 ^ 32 - 1

def firstSegmentBits : ℕ := 12

def segments : ℕ := 32 - firstSegmentBits + 1

def segmentSize (segment : ℕ) : ℕ := 2 ^ (firstSegmentBits + segment)

/-- The zero bits of a 64-bit number above its highest one. -/
def leadingZeros (n : ℕ) : ℕ := if n = 0 then 64 else 63 - n.log2

def slotPosition (id : ℕ) : ℕ × ℕ :=
  let biased := id + 2 ^ firstSegmentBits
  let top := 64 - 1 - leadingZeros biased
  (top - firstSegmentBits, biased - 2 ^ top)

section Positions

/-- A number by its highest bit and the rest. -/
theorem log2_eq_iff {n bits segment offset : ℕ} (hn : 2 ^ bits ≤ n) :
    (n.log2 - bits, n - 2 ^ n.log2) = (segment, offset) ↔
      n = 2 ^ (bits + segment) + offset ∧ offset < 2 ^ (bits + segment) := by
  have hne : n ≠ 0 := ((Nat.two_pow_pos bits).trans_le hn).ne'
  have hbits : bits ≤ n.log2 := (Nat.le_log2 hne).mpr hn
  have hself : 2 ^ n.log2 ≤ n := Nat.log2_self_le hne
  have hlt : n < 2 ^ n.log2 * 2 := Nat.lt_log2_self
  rw [Prod.mk.injEq]
  constructor
  · rintro ⟨hsegment, hoffset⟩
    have hlog : bits + segment = n.log2 := by omega
    rw [hlog]
    generalize 2 ^ n.log2 = power at hself hlt hoffset ⊢
    omega
  · rintro ⟨hsum, hoffset⟩
    have hlower : 2 ^ (bits + segment) ≤ n := by
      rw [hsum]
      exact Nat.le_add_right ..
    have hupper : n < 2 ^ (bits + segment + 1) := by
      rw [Nat.pow_succ]
      generalize 2 ^ (bits + segment) = power at hsum hoffset ⊢
      omega
    have hge := (Nat.le_log2 hne).mpr hlower
    have hle := (Nat.log2_lt hne).mpr hupper
    have hlog : n.log2 = bits + segment := by omega
    rw [hlog]
    exact ⟨Nat.add_sub_cancel_left .., by rw [hsum, Nat.add_sub_cancel_left]⟩

variable {id id' segment offset : ℕ}

/-- The one description of an id's slot: the ids before those of its segment fill the earlier segments. -/
theorem slotPosition_eq_iff (hid : id ≤ u32Max) : slotPosition id = (segment, offset) ↔
    id + segmentSize 0 = segmentSize segment + offset ∧ offset < segmentSize segment := by
  have hfirst : segmentSize 0 = 2 ^ firstSegmentBits := rfl
  have hpos : 0 < segmentSize 0 := by decide
  have hmax : id + segmentSize 0 < 2 ^ 64 := by
    have hbound : u32Max + segmentSize 0 < 2 ^ 64 := by decide
    exact (Nat.add_le_add_right hid _).trans_lt hbound
  have hne : id + segmentSize 0 ≠ 0 := by omega
  have hlog : (id + segmentSize 0).log2 < 64 := (Nat.log2_lt hne).mpr hmax
  have htop : 64 - 1 - leadingZeros (id + segmentSize 0) = (id + segmentSize 0).log2 := by
    rw [leadingZeros, if_neg hne]
    omega
  rw [slotPosition, ← hfirst, htop]
  exact log2_eq_iff (Nat.le_add_left ..)

theorem slotPosition_lt (hid : id ≤ u32Max) :
    (slotPosition id).1 < segments ∧ (slotPosition id).2 < segmentSize (slotPosition id).1 := by
  cases hslot : slotPosition id with
  | mk segment offset =>
  obtain ⟨hsum, hoffset⟩ := (slotPosition_eq_iff hid).mp hslot
  refine ⟨?_, hoffset⟩
  by_contra hsegment
  have hbits : firstSegmentBits + segments ≤ firstSegmentBits + segment := by omega
  have hsize : segmentSize segments ≤ segmentSize segment := Nat.pow_le_pow_right (by decide) hbits
  have hlast : u32Max + segmentSize 0 < segmentSize segments := by decide
  omega

theorem slotPosition_injective (hid : id ≤ u32Max) (hid' : id' ≤ u32Max) (h : slotPosition id = slotPosition id') :
    id = id' := by
  have hleft := ((slotPosition_eq_iff hid).mp rfl).1
  have hright := ((slotPosition_eq_iff hid').mp h.symm).1
  omega

/-- The slots that ids have: those of every segment but the last, and as many of the last as of the first. -/
def HasId (segment offset : ℕ) : Prop :=
  segment < segments ∧ offset < segmentSize segment ∧ (segment + 1 = segments → offset < segmentSize 0)

theorem exists_slotPosition : (∃ id ≤ u32Max, slotPosition id = (segment, offset)) ↔ HasId segment offset := by
  have hlast : segmentSize 20 = u32Max + 1 := by decide
  have hcount : segments = 21 := rfl
  constructor
  · rintro ⟨id, hid, hslot⟩
    obtain ⟨hsum, hoffset⟩ := (slotPosition_eq_iff hid).mp hslot
    have hin := slotPosition_lt hid
    rw [hslot] at hin
    refine ⟨hin.1, hoffset, fun hend => ?_⟩
    obtain rfl : segment = 20 := by omega
    omega
  · rintro ⟨hsegment, hoffset, hend⟩
    have hstart : segmentSize 0 ≤ segmentSize segment := Nat.pow_le_pow_right (by decide) (by omega)
    have hid : segmentSize segment + offset - segmentSize 0 ≤ u32Max := by
      by_cases hlastSegment : segment = 20
      · subst hlastSegment
        have hwithin := hend rfl
        omega
      · have hsize : segmentSize (segment + 1) ≤ segmentSize 20 := Nat.pow_le_pow_right (by decide) (by omega)
        have hdouble : segmentSize (segment + 1) = segmentSize segment * 2 := Nat.pow_succ ..
        omega
    have hsum : segmentSize segment + offset - segmentSize 0 + segmentSize 0 = segmentSize segment + offset := by omega
    exact ⟨_, hid, (slotPosition_eq_iff hid).mpr ⟨hsum, hoffset⟩⟩

end Positions

/-! ### The table and its threads -/

inductive Panic where
  /-- A lock's holder panicked before. -/
  | poisoned
  /-- The type table is full. -/
  | full
  /-- A type id is published once. -/
  | publishedTwice
  /-- Type ids come from `Ty::intern`. -/
  | unknown
  deriving DecidableEq

/-- Where a thread is in `Ty::intern` or in `Ty::kind`. -/
inductive Local where
  | idle
  | interning (kind : TyKind)
  | missed (kind : TyKind)
  /-- It holds its shard's lock to read. -/
  | reading (kind : TyKind)
  | looked (kind : TyKind) (answer : Option Ty)
  | absent (kind : TyKind)
  /-- It holds its shard's lock to write, as in the next six places. -/
  | locked (kind : TyKind)
  | allocating (kind : TyKind)
  | checking (kind : TyKind) (id : Ty)
  | opening (kind : TyKind) (id : Ty)
  | publishing (kind : TyKind) (id : Ty)
  | inserting (kind : TyKind) (id : Ty)
  | unlocking (kind : TyKind) (id : Ty)
  | remembering (kind : TyKind) (id : Ty)
  | asking (ty : Ty)
  | indexing (ty : Ty)
  | panicked (why : Panic)
  deriving DecidableEq

structure RwLock (Thread : Type) where
  writer : Option Thread
  readers : List Thread
  poisoned : Bool

/-- What the threads share. -/
structure Table (Thread : Type) where
  /-- The shards' maps. -/
  ids : ℕ → TyKind → Option Ty
  locks : ℕ → RwLock Thread
  /-- How many ids have been taken, the reserved ones included: the counter is this modulo `2 ^ 32`. -/
  next : ℕ
  /-- The segments that exist. -/
  published : ℕ → Bool
  slots : ℕ × ℕ → Option TyKind

structure State (Thread : Type) where
  table : Table Thread
  /-- Each thread's table of the kinds it interned recently. -/
  recent : Thread → ℕ → Option (TyKind × Ty)
  threads : Thread → Local
  /-- What the calls of `Ty::intern` have returned, by any thread. -/
  returned : List (TyKind × Ty)
  /-- What the calls of `Ty::kind` have returned, by any thread. -/
  answered : List (Ty × TyKind)

def shards : ℕ := 64

def recentBits : ℕ := 12

section Machine

variable {Thread : Type} [DecidableEq Thread] (kindHash : TyKind → UInt64)

def shard (kind : TyKind) : ℕ := (kindHash kind).toNat % shards

/-- A kind's entry in the table of recent kinds: the top bits of its hash. -/
def recentEntry (kind : TyKind) : ℕ := (kindHash kind).toNat >>> (64 - recentBits)

def insertId (ids : ℕ → TyKind → Option Ty) (kind : TyKind) (id : Ty) : ℕ → TyKind → Option Ty :=
  Function.update ids (shard kindHash kind) (Function.update (ids (shard kindHash kind)) kind (some id))

namespace Table

variable (T : Table Thread)

def init : Table Thread where
  ids := reservedKinds.zipIdx.foldl (fun ids entry => insertId kindHash ids entry.1 entry.2) fun _ _ => none
  locks _ := ⟨none, [], false⟩
  next := reserved
  published _ := false
  slots _ := none

def lock (kind : TyKind) : RwLock Thread := T.locks (shard kindHash kind)

def setLock (kind : TyKind) (lock : RwLock Thread) : Table Thread :=
  { T with locks := Function.update T.locks (shard kindHash kind) lock }

/-- `next.fetch_add(1)`. -/
def take : Table Thread := { T with next := T.next + 1 }

/-- The segment of an id's slot exists. -/
def openSegment (id : Ty) : Table Thread := { T with published := Function.update T.published (slotPosition id).1 true }

def set (id : Ty) (kind : TyKind) : Table Thread :=
  { T with slots := Function.update T.slots (slotPosition id) (some kind) }

def insert (kind : TyKind) (id : Ty) : Table Thread := { T with ids := insertId kindHash T.ids kind id }

/-- What a shard's map says of a kind. -/
def interned (kind : TyKind) : Option Ty := T.ids (shard kindHash kind) kind

/-- `Ty::kind`, when no thread acts meanwhile. -/
def kind (ty : Ty) : Option TyKind :=
  if ty < reserved then reservedKinds[ty]?
  else if T.published (slotPosition ty).1 then T.slots (slotPosition ty)
  else none

end Table

def State.init : State Thread where
  table := .init kindHash
  recent _ _ := none
  threads _ := .idle
  returned := []
  answered := []

/-- One atomic action of a thread. -/
inductive Event where
  | intern (kind : TyKind)
  | kind (ty : Ty)
  /-- The next action of the call; `alive` says whether the thread's table of recent kinds can be reached. -/
  | step (alive : Bool)

namespace State

variable (s : State Thread) (t : Thread)

/-- A thread goes on, having left the table so. -/
def act (T : Table Thread) (l : Local) : State Thread :=
  { s with table := T, threads := Function.update s.threads t l }

def goto (l : Local) : State Thread := s.act t s.table l

/-- `Ty::intern` returns. -/
def returns (kind : TyKind) (id : Ty) : State Thread :=
  { s.goto t .idle with returned := s.returned ++ [(kind, id)] }

/-- `Ty::kind` returns. -/
def answers (ty : Ty) (kind : TyKind) : State Thread :=
  { s.goto t .idle with answered := s.answered ++ [(ty, kind)] }

/-- An entry of the thread's table of recent kinds is written, if it can be reached. -/
def remember (alive : Bool) (kind : TyKind) (id : Ty) : State Thread :=
  if alive then
    { s with
      recent := Function.update s.recent t
        (Function.update (s.recent t) (recentEntry kindHash kind) (some (kind, id))) }
  else s

/-- A panic while a shard is held to write releases its lock and poisons it. -/
def panics (kind : TyKind) (why : Panic) : State Thread :=
  s.act t (s.table.setLock kindHash kind { (s.table.lock kindHash kind) with writer := none, poisoned := true })
    (.panicked why)

/-- The next action of a call. -/
def advance (alive : Bool) : Local → Option (State Thread)
  | .idle | .panicked _ => none
  | .interning kind => some <|
    match if alive then s.recent t (recentEntry kindHash kind) else none with
    | some (seen, id) => if seen = kind then s.returns t kind id else s.goto t (.missed kind)
    | none => s.goto t (.missed kind)
  | .missed kind =>
    let lock := s.table.lock kindHash kind
    if lock.writer.isSome then none
    else if lock.poisoned then some (s.goto t (.panicked .poisoned))
    else some (s.act t (s.table.setLock kindHash kind { lock with readers := t :: lock.readers }) (.reading kind))
  | .reading kind => some (s.goto t (.looked kind (s.table.interned kindHash kind)))
  | .looked kind answer =>
    let lock := s.table.lock kindHash kind
    some (s.act t (s.table.setLock kindHash kind { lock with readers := lock.readers.erase t })
      (answer.elim (.absent kind) (.remembering kind)))
  | .absent kind =>
    let lock := s.table.lock kindHash kind
    if lock.writer.isSome ∨ lock.readers ≠ [] then none
    else if lock.poisoned then some (s.goto t (.panicked .poisoned))
    else some (s.act t (s.table.setLock kindHash kind { lock with writer := some t }) (.locked kind))
  | .locked kind => some (s.goto t ((s.table.interned kindHash kind).elim (.allocating kind) (.unlocking kind)))
  | .allocating kind => some (s.act t s.table.take (.checking kind (s.table.next % 2 ^ 32)))
  | .checking kind id =>
    some (if id = u32Max then s.panics kindHash t kind .full else s.goto t (.opening kind id))
  | .opening kind id => some (s.act t (s.table.openSegment id) (.publishing kind id))
  | .publishing kind id =>
    some (if (s.table.slots (slotPosition id)).isSome then s.panics kindHash t kind .publishedTwice
      else s.act t (s.table.set id kind) (.inserting kind id))
  | .inserting kind id => some (s.act t (s.table.insert kindHash kind id) (.unlocking kind id))
  | .unlocking kind id =>
    some (s.act t (s.table.setLock kindHash kind { (s.table.lock kindHash kind) with writer := none })
      (.remembering kind id))
  | .remembering kind id => some ((s.remember kindHash t alive kind id).returns t kind id)
  | .asking ty => some <|
    if ty < reserved then
      match reservedKinds[ty]? with
      | some kind => s.answers t ty kind
      | none => s.goto t (.panicked .unknown)
    else s.goto t (if s.table.published (slotPosition ty).1 then .indexing ty else .panicked .unknown)
  | .indexing ty => some <|
    match s.table.slots (slotPosition ty) with
    | some kind => s.answers t ty kind
    | none => s.goto t (.panicked .unknown)

/-- One action of one thread, when it is possible. `Ty::kind` is asked of ids that were handed out. -/
def step (e : Thread × Event) : Option (State Thread) :=
  match e.2 with
  | .intern kind => if s.threads e.1 = .idle then some (s.goto e.1 (.interning kind)) else none
  | .kind ty =>
    if s.threads e.1 = .idle ∧ (ty < reserved ∨ ty ∈ s.returned.map Prod.snd) then some (s.goto e.1 (.asking ty))
    else none
  | .step alive => s.advance kindHash e.1 alive (s.threads e.1)

end State

end Machine

end Krusty.Types.TyTable
