import Krusty.Lib.Varint

/-! The `StackMapTable` attribute as JVMS 4.7.4 reads it: frame entries, and the frames they stand for. -/
namespace Krusty.Jvm.StackMapTable

open Transcode

/-- A `verification_type_info`: an object names its class by pool index, an uninitialized object the
offset of its `new`. -/
inductive TypeInfo where
  | top
  | integer
  | float
  | double
  | long
  | null
  | uninitializedThis
  | object (cls : UInt16)
  | uninitialized (offset : UInt16)
  deriving DecidableEq

/-- A `stack_map_frame`, with `offset_delta` read out of whichever form carries it. -/
inductive Entry (τ : Type) where
  | same (delta : ℕ)
  | sameLocals1StackItem (delta : ℕ) (stack : τ)
  | chop (absent delta : ℕ)
  | append (delta : ℕ) (locals : List τ)
  | full (delta : ℕ) (locals stack : List τ)
  deriving DecidableEq

/-- A frame an entry stands for, its locals with one entry for a `long` or `double`. -/
structure Frame (τ : Type) where
  offset : ℕ
  locals : List τ
  stack : List τ
  deriving DecidableEq

section Parse

def takeType (bytes : List UInt8) : Option (TypeInfo × List UInt8) := do
  let (tag, rest) ← takeU1 bytes
  match tag with
  | 0 => return (.top, rest)
  | 1 => return (.integer, rest)
  | 2 => return (.float, rest)
  | 3 => return (.double, rest)
  | 4 => return (.long, rest)
  | 5 => return (.null, rest)
  | 6 => return (.uninitializedThis, rest)
  | 7 => do
    let (cls, rest) ← takeU2 rest
    return (.object cls, rest)
  | 8 => do
    let (offset, rest) ← takeU2 rest
    return (.uninitialized offset, rest)
  | _ => none

/-- One entry, by the ranges of its `frame_type`; 128 to 246 are reserved. -/
def takeEntry (bytes : List UInt8) : Option (Entry TypeInfo × List UInt8) := do
  let (frameType, rest) ← takeU1 bytes
  let kind := frameType.toNat
  if kind < 64 then
    return (.same kind, rest)
  else if kind < 128 then do
    let (stack, rest) ← takeType rest
    return (.sameLocals1StackItem (kind - 64) stack, rest)
  else if kind < 247 then
    none
  else do
    let (delta, rest) ← takeU2 rest
    if kind = 247 then do
      let (stack, rest) ← takeType rest
      return (.sameLocals1StackItem delta.toNat stack, rest)
    else if kind < 251 then
      return (.chop (251 - kind) delta.toNat, rest)
    else if kind = 251 then
      return (.same delta.toNat, rest)
    else if kind < 255 then do
      let (locals, rest) ← takeMany takeType (kind - 251) rest
      return (.append delta.toNat locals, rest)
    else do
      let (count, rest) ← takeU2 rest
      let (locals, rest) ← takeMany takeType count.toNat rest
      let (count, rest) ← takeU2 rest
      let (stack, rest) ← takeMany takeType count.toNat rest
      return (.full delta.toNat locals stack, rest)

/-- The entries of a whole attribute body, which ends with the last of them. -/
def parse (bytes : List UInt8) : Option (List (Entry TypeInfo)) := do
  let (count, rest) ← takeU2 bytes
  match ← takeMany takeEntry count.toNat rest with
  | (entries, []) => return entries
  | _ => none

end Parse

section Meaning

variable {τ σ : Type}

def Entry.delta : Entry τ → ℕ
  | .same delta => delta
  | .sameLocals1StackItem delta _ => delta
  | .chop _ delta => delta
  | .append delta _ => delta
  | .full delta _ _ => delta

/-- The first entry's delta is its offset; a later one counts from one past the entry before. -/
def Entry.offset (previous : Option ℕ) (entry : Entry τ) : ℕ :=
  match previous with
  | none => entry.delta
  | some previous => previous + entry.delta + 1

/-- The locals an entry leaves, given those of the entry before. -/
def Entry.locals (previous : List τ) : Entry τ → Option (List τ)
  | .same _ | .sameLocals1StackItem _ _ => some previous
  | .chop absent _ =>
    if absent ≤ previous.length then some (previous.take (previous.length - absent)) else none
  | .append _ locals => some (previous ++ locals)
  | .full _ locals _ => some locals

def Entry.stack : Entry τ → List τ
  | .sameLocals1StackItem _ stack => [stack]
  | .full _ _ stack => stack
  | _ => []

/-- The frames of a run of entries, each read against the one before it. -/
def frames (locals : List τ) (previous : Option ℕ) : List (Entry τ) → Option (List (Frame τ))
  | [] => some []
  | entry :: entries => do
    let locals ← entry.locals locals
    let offset := entry.offset previous
    let rest ← frames locals (some offset) entries
    return ⟨offset, locals, entry.stack⟩ :: rest

/-- An entry with each of its types replaced by what it names. -/
def Entry.mapM (f : τ → Option σ) : Entry τ → Option (Entry σ)
  | .same delta => some (.same delta)
  | .sameLocals1StackItem delta stack => (f stack).map (.sameLocals1StackItem delta)
  | .chop absent delta => some (.chop absent delta)
  | .append delta locals => (locals.mapM f).map (.append delta)
  | .full delta locals stack => do
    let locals ← locals.mapM f
    let stack ← stack.mapM f
    return .full delta locals stack

/-- The frames a table means to a method entered with `entry`, where `name` says what a type of the
table names. -/
def decode (name : TypeInfo → Option τ) (entry : List τ) (bytes : List UInt8) :
    Option (List (Frame τ)) := do
  let entries ← parse bytes
  let entries ← entries.mapM (Entry.mapM name)
  frames entry none entries

end Meaning

section Written

variable {rest : List UInt8} {kind : UInt8}

theorem takeEntry_same (h : kind.toNat < 64) : takeEntry (kind :: rest) = some (.same kind.toNat, rest) := by
  simp [takeEntry, h]

theorem takeEntry_sameExtended (delta : UInt16) :
    takeEntry (251 :: (Bytes.u2Bytes delta ++ rest)) = some (.same delta.toNat, rest) := by
  simp [takeEntry]

variable {bytes : List UInt8}

theorem takeEntry_sameLocals1 {stack : TypeInfo}
    (h : 64 ≤ kind.toNat) (h' : kind.toNat < 128) (hs : takeType bytes = some (stack, rest)) :
    takeEntry (kind :: bytes) = some (.sameLocals1StackItem (kind.toNat - 64) stack, rest) := by
  simp [takeEntry, h.not_gt, h', hs]

theorem takeEntry_sameLocals1Extended (delta : UInt16) {stack : TypeInfo}
    (hs : takeType bytes = some (stack, rest)) :
    takeEntry (247 :: (Bytes.u2Bytes delta ++ bytes)) =
      some (.sameLocals1StackItem delta.toNat stack, rest) := by
  simp [takeEntry, hs]

theorem takeEntry_chop (delta : UInt16) (h : 248 ≤ kind.toNat) (h' : kind.toNat < 251) :
    takeEntry (kind :: (Bytes.u2Bytes delta ++ rest)) =
      some (.chop (251 - kind.toNat) delta.toNat, rest) := by
  have h64 : ¬ kind.toNat < 64 := by omega
  have h128 : ¬ kind.toNat < 128 := by omega
  have h247 : ¬ kind.toNat < 247 := by omega
  have hne : kind.toNat ≠ 247 := by omega
  simp [takeEntry, h64, h128, h247, hne, h']

theorem takeEntry_append (delta : UInt16) {locals : List TypeInfo}
    (h : 252 ≤ kind.toNat) (h' : kind.toNat < 255)
    (hl : takeMany takeType (kind.toNat - 251) bytes = some (locals, rest)) :
    takeEntry (kind :: (Bytes.u2Bytes delta ++ bytes)) = some (.append delta.toNat locals, rest) := by
  have h64 : ¬ kind.toNat < 64 := by omega
  have h128 : ¬ kind.toNat < 128 := by omega
  have h247 : ¬ kind.toNat < 247 := by omega
  have hne : kind.toNat ≠ 247 := by omega
  have h251 : ¬ kind.toNat < 251 := by omega
  have hne' : kind.toNat ≠ 251 := by omega
  simp [takeEntry, h64, h128, h247, hne, h251, hne', h', hl]

theorem takeEntry_full (delta count count' : UInt16) {bytes bytes' rest' : List UInt8}
    {locals stack : List TypeInfo}
    (hl : takeMany takeType count.toNat bytes = some (locals, Bytes.u2Bytes count' ++ bytes'))
    (hs : takeMany takeType count'.toNat bytes' = some (stack, rest')) :
    takeEntry (255 :: (Bytes.u2Bytes delta ++ (Bytes.u2Bytes count ++ bytes))) =
      some (.full delta.toNat locals stack, rest') := by
  simp [takeEntry, hl, hs]

end Written

end Krusty.Jvm.StackMapTable
