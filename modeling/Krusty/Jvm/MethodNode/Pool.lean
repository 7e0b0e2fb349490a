import Krusty.Jvm.MethodNode.Nodes
import Mathlib.Logic.Function.Basic

/-! Resolving a body's constant-pool operands to their symbolic form. -/
namespace Krusty.Jvm

structure MalformedCode where
  offset : ℕ
  reason : String
  deriving DecidableEq

/-- A pool entry as a reader sees it, its references still pool indices. -/
inductive PoolEntry where
  | utf8 (text : String)
  | utf8Units (units : List UInt16)
  | integer (value : Int32)
  | float (bits : UInt32)
  | long (value : Int64)
  | double (bits : UInt64)
  | cls (name : UInt16)
  | string (value : UInt16)
  | nameAndType (name desc : UInt16)
  | fieldref (cls signature : UInt16)
  | methodref (cls signature : UInt16)
  | interfaceMethodref (cls signature : UInt16)
  | methodHandle (kind : UInt8) (member : UInt16)
  | methodType (desc : UInt16)
  | invokeDynamic (bootstrap signature : UInt16)
  deriving DecidableEq

/-- A constant pool and its class's `BootstrapMethods`. Pool indices are 1-based. -/
structure ConstantPoolView where
  entry : UInt16 → Option PoolEntry
  bootstrapMethod : UInt16 → Option (UInt16 × List UInt16)
  entry_zero : entry 0 = none

/-- A pool being decoded against, with the position error reports name. -/
structure SourcePool where
  pool : ConstantPoolView
  pos : ℕ

namespace SourcePool

variable (p : SourcePool)

def fail {α : Type} (reason : String) : Except MalformedCode α := .error ⟨p.pos, reason⟩

def utf8 (index : UInt16) : Except MalformedCode String :=
  match p.pool.entry index with
  | some (.utf8 text) => .ok text
  | _ => p.fail "expected a Utf8 constant"

def cls (index : UInt16) : Except MalformedCode String :=
  match p.pool.entry index with
  | some (.cls name) => p.utf8 name
  | _ => p.fail "expected a Class constant"

def nameAndType (index : UInt16) : Except MalformedCode (String × String) :=
  match p.pool.entry index with
  | some (.nameAndType name desc) => do
    let name ← p.utf8 name
    let desc ← p.utf8 desc
    .ok (name, desc)
  | _ => p.fail "expected a NameAndType constant"

/-- A field or method reference: owner, name, descriptor, and whether it is an
`InterfaceMethodref`. -/
def member (index : UInt16) : Except MalformedCode (String × String × String × Bool) := do
  let (owner, signature, interface) ← match p.pool.entry index with
    | some (.fieldref c s) | some (.methodref c s) => .ok (c, s, false)
    | some (.interfaceMethodref c s) => .ok (c, s, true)
    | _ => p.fail "expected a member reference"
  let (name, desc) ← p.nameAndType signature
  let owner ← p.cls owner
  .ok (owner, name, desc, interface)

def field (index : UInt16) : Except MalformedCode (String × String × String) :=
  match p.pool.entry index with
  | some (.fieldref _ _) => do
    let (owner, name, desc, _) ← p.member index
    .ok (owner, name, desc)
  | _ => p.fail "expected a Fieldref constant"

def method (index : UInt16) : Except MalformedCode (String × String × String × Bool) :=
  match p.pool.entry index with
  | some (.methodref _ _) | some (.interfaceMethodref _ _) => p.member index
  | _ => p.fail "expected a method reference"

def handle (index : UInt16) : Except MalformedCode Handle :=
  match p.pool.entry index with
  | some (.methodHandle kind member) => do
    let (owner, name, desc, interface) ← p.member member
    .ok { kind, owner, name, desc, interface }
  | _ => p.fail "expected a MethodHandle constant"

def string (index : UInt16) : Except MalformedCode KtString :=
  match p.pool.entry index with
  | some (.utf8 text) => .ok (.ofText text)
  | some (.utf8Units units) => .ok (.ofUnits units)
  | _ => p.fail "malformed String constant"

def constant (index : UInt16) : Except MalformedCode Constant :=
  match p.pool.entry index with
  | some (.integer value) => .ok (.int value)
  | some (.float bits) => .ok (.float bits)
  | some (.long value) => .ok (.long value)
  | some (.double bits) => .ok (.double bits)
  | some (.string value) => .string <$> p.string value
  | some (.cls _) => .cls <$> p.cls index
  | some (.methodType desc) => .methodType <$> p.utf8 desc
  | some (.methodHandle _ _) => .handle <$> p.handle index
  | _ => p.fail "expected a loadable constant"

def invokeDynamic {L : Type} (index : UInt16) : Except MalformedCode (Insn L) :=
  match p.pool.entry index with
  | some (.invokeDynamic bootstrap signature) => do
    let (name, desc) ← p.nameAndType signature
    match p.pool.bootstrapMethod bootstrap with
    | none => p.fail "bootstrap method index out of range"
    | some (handle, arguments) =>
      let handle ← p.handle handle
      let arguments ← arguments.mapM p.constant
      .ok (.invokeDynamic name desc handle arguments)
  | _ => p.fail "expected an InvokeDynamic constant"

theorem cls_zero (name : String) : p.cls 0 ≠ .ok name := by
  simp [cls, p.pool.entry_zero, fail]

end SourcePool

end Krusty.Jvm

/-! The constant pool a class is written with: interning, and what an interned index names. -/
namespace Krusty.Jvm

/-- The pool under construction. `slotEntries` holds the entry of each slot by `slot - 1`; a `long` or
`double` takes two slots, the second of which names no entry. -/
structure ConstPool where
  entries : List PoolEntry
  dedup : PoolEntry → Option UInt16
  utf8Index : String → Option UInt16
  slotEntries : List UInt32

namespace ConstPool

def empty : ConstPool := ⟨[], fun _ => none, fun _ => none, []⟩

def unusableSlot : UInt32 := 4294967295

variable (cp : ConstPool)

def slotCount : UInt16 := UInt16.ofNat cp.slotEntries.length

def entryAt (idx : UInt16) : Option PoolEntry :=
  if idx.toNat = 0 then none
  else do
    let entry ← cp.slotEntries[idx.toNat - 1]?
    cp.entries[entry.toNat]?

/-- The index an entry already has. Texts have an index of their own. -/
def lookup : PoolEntry → Option UInt16
  | .utf8 text => cp.utf8Index text
  | c => cp.dedup c

def isWide : PoolEntry → Bool
  | .long _ | .double _ => true
  | _ => false

/-- The pool with `c` in the next free slot. -/
def push (c : PoolEntry) : ConstPool :=
  let idx := cp.slotCount + 1
  { entries := cp.entries ++ [c]
    slotEntries := cp.slotEntries ++ UInt32.ofNat cp.entries.length ::
      (if isWide c then [unusableSlot] else [])
    utf8Index := match c with
      | .utf8 text => Function.update cp.utf8Index text (some idx)
      | _ => cp.utf8Index
    dedup := match c with
      | .utf8 _ => cp.dedup
      | c => Function.update cp.dedup c (some idx) }

def intern (c : PoolEntry) : UInt16 × ConstPool :=
  match cp.lookup c with
  | some index => (index, cp)
  | none => (cp.slotCount + 1, cp.push c)

def utf8 (text : String) : UInt16 × ConstPool := cp.intern (.utf8 text)

/-- A `CONSTANT_Class` carries the JVM's name of a class, so `spelling` (`classfile_internal_name`) maps
a built-in's Kotlin name and a nested class's dots on the way in. -/
def cls (spelling : String → String) (internalName : String) : UInt16 × ConstPool :=
  let (utf8, cp) := cp.utf8 (spelling internalName)
  cp.intern (.cls utf8)

/-- The internal name of the `CONSTANT_Class` at `idx`. -/
def className (idx : UInt16) : Option String :=
  match cp.entryAt idx with
  | some (.cls utf8) =>
    match cp.entryAt utf8 with
    | some (.utf8 name) => some name
    | _ => none
  | _ => none

/-- What the index maps answer is what stands there, and the class-file format can count the slots. -/
structure Sound : Prop where
  slots : cp.slotEntries.length < 65536
  entries : cp.entries.length ≤ cp.slotEntries.length
  lookup : ∀ c idx, cp.lookup c = some idx → cp.entryAt idx = some c

/-- A pool that still answers every index as `cp` does. -/
structure Extends (cp' : ConstPool) : Prop where
  slots : cp.slotEntries.length ≤ cp'.slotEntries.length
  entryAt : ∀ idx c, cp.entryAt idx = some c → cp'.entryAt idx = some c

theorem sound_empty : empty.Sound where
  slots := by simp [empty]
  entries := by simp [empty]
  lookup := by
    intro c idx h
    cases c <;> cases h

variable {cp} {cp' cp'' : ConstPool} {c : PoolEntry}

theorem Extends.refl : cp.Extends cp := ⟨le_rfl, fun _ _ h => h⟩

theorem Extends.trans (h : cp.Extends cp') (h' : cp'.Extends cp'') : cp.Extends cp'' :=
  ⟨h.slots.trans h'.slots, fun idx c hc => h'.entryAt idx c (h.entryAt idx c hc)⟩

variable {idx : UInt16}

theorem className_some {name : String} : cp.className idx = some name ↔
      ∃ utf8, cp.entryAt idx = some (.cls utf8) ∧ cp.entryAt utf8 = some (.utf8 name) := by
  unfold className
  constructor
  · intro h
    split at h
    · rename_i utf8 hc
      split at h
      · rename_i text ht
        cases h
        exact ⟨utf8, hc, ht⟩
      · cases h
    · cases h
  · rintro ⟨utf8, hc, ht⟩
    rw [hc]
    simp only [ht]

theorem Extends.className {name : String} (h : cp.Extends cp')
    (hn : cp.className idx = some name) : cp'.className idx = some name := by
  obtain ⟨utf8, hc, ht⟩ := className_some.mp hn
  exact className_some.mpr ⟨utf8, h.entryAt _ _ hc, h.entryAt _ _ ht⟩

theorem push_slots (cp : ConstPool) (c : PoolEntry) :
    cp.slotEntries.length < (cp.push c).slotEntries.length := by
  simp [push]

theorem entryAt_some : cp.entryAt idx = some c ↔ idx.toNat ≠ 0 ∧
      ∃ entry, cp.slotEntries[idx.toNat - 1]? = some entry ∧ cp.entries[entry.toNat]? = some c := by
  unfold entryAt
  split_ifs with h0
  · simp [h0]
  · simp [h0, Option.bind_eq_some_iff]

theorem getElem?_append_of_some {α : Type} {xs ys : List α} {i : ℕ} {x : α} (h : xs[i]? = some x) :
    (xs ++ ys)[i]? = some x := by
  obtain ⟨hi, -⟩ := List.getElem?_eq_some_iff.mp h
  rw [List.getElem?_append_left hi, h]

theorem extends_push : cp.Extends (cp.push c) where
  slots := (push_slots cp c).le
  entryAt := by
    intro idx d hd
    obtain ⟨h0, entry, hs, he⟩ := entryAt_some.mp hd
    exact entryAt_some.mpr ⟨h0, entry, getElem?_append_of_some hs, getElem?_append_of_some he⟩

/-- The slot handed out holds the entry, as long as the format can count it. -/
theorem push_entryAt (h : cp.Sound) (hfits : (cp.push c).slotEntries.length < 65536) :
    (cp.push c).entryAt (cp.slotCount + 1) = some c := by
  have hlen := push_slots cp c
  have hidx : (cp.slotCount + 1).toNat = cp.slotEntries.length + 1 := by
    rw [UInt16.toNat_add, slotCount, UInt16.toNat_ofNat']
    simp only [UInt16.toNat_one]
    omega
  have hentry : (UInt32.ofNat cp.entries.length).toNat = cp.entries.length := by
    have := h.entries
    rw [UInt32.toNat_ofNat']
    omega
  refine entryAt_some.mpr ⟨by omega, UInt32.ofNat cp.entries.length, ?_, ?_⟩
  · simp [hidx, push]
  · simp [hentry, push]

theorem push_lookup {d : PoolEntry} (h : (cp.push c).lookup d = some idx) :
    (d = c ∧ idx = cp.slotCount + 1) ∨ cp.lookup d = some idx := by
  by_cases hd : d = c
  · subst hd
    left
    cases d <;> simp_all [push, lookup]
  · right
    cases d <;> cases c <;> simp_all [push, lookup, Function.update_apply]

theorem sound_push (h : cp.Sound) (hfits : (cp.push c).slotEntries.length < 65536) :
    (cp.push c).Sound where
  slots := hfits
  entries := by
    have := h.entries
    have := push_slots cp c
    simp only [push, List.length_append, List.length_cons, List.length_nil] at *
    omega
  lookup := by
    intro d idx hd
    obtain ⟨rfl, rfl⟩ | hd := push_lookup hd
    · exact push_entryAt h hfits
    · exact extends_push.entryAt _ _ (h.lookup d idx hd)

/-- What interning does: the pool still answers as before, and the index names the entry. -/
theorem intern_spec (cp : ConstPool) (c : PoolEntry) :
    cp.Extends (cp.intern c).2 ∧ (cp.Sound → (cp.intern c).2.slotEntries.length < 65536 →
      (cp.intern c).2.Sound ∧ (cp.intern c).2.entryAt (cp.intern c).1 = some c) := by
  unfold intern
  cases hl : cp.lookup c with
  | some index => exact ⟨.refl, fun h _ => ⟨h, h.lookup c index hl⟩⟩
  | none => exact ⟨extends_push, fun h hfits => ⟨sound_push h hfits, push_entryAt h hfits⟩⟩

/-- What interning a class does: the index names the class under its class-file spelling. -/
theorem cls_spec (cp : ConstPool) (spelling : String → String) (name : String) :
    cp.Extends (cp.cls spelling name).2 ∧
      (cp.Sound → (cp.cls spelling name).2.slotEntries.length < 65536 →
        (cp.cls spelling name).2.Sound ∧
          (cp.cls spelling name).2.className (cp.cls spelling name).1 = some (spelling name)) := by
  obtain ⟨hext, htext⟩ := intern_spec cp (.utf8 (spelling name))
  obtain ⟨hext', hcls⟩ := intern_spec (cp.utf8 (spelling name)).2 (.cls (cp.utf8 (spelling name)).1)
  refine ⟨hext.trans hext', ?_⟩
  intro h hfits
  obtain ⟨hsound, hutf8⟩ := htext h (hext'.slots.trans_lt hfits)
  obtain ⟨hsound', hentry⟩ := hcls hsound hfits
  exact ⟨hsound', className_some.mpr ⟨_, hentry, hext'.entryAt _ _ hutf8⟩⟩

end ConstPool

end Krusty.Jvm
