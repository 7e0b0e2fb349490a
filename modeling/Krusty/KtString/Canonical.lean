import Krusty.Lib.Utf16

/-! The value of a Kotlin `String` constant: a sequence of UTF-16 code units. -/
namespace Krusty

open Utf16

inductive Repr where
  | empty
  | text (s : String)
  | units (us : List UInt16)
deriving DecidableEq

/-- Text is not empty, and units are held only where no string has them. -/
def Repr.Canonical : Repr → Prop
  | .empty => True
  | .text s => s ≠ ""
  | .units us => toString? us = none

/-- A Kotlin string; two are equal when they are held alike. -/
structure KtString where
  repr : Repr
  canonical : repr.Canonical
deriving DecidableEq

namespace KtString

def new : KtString := ⟨.empty, trivial⟩

instance : Inhabited KtString := ⟨new⟩

/-- `From<String>`, and `From<&str>` of a copy. -/
def ofString (text : String) : KtString :=
  if h : text = "" then new else ⟨.text text, h⟩

/-- The value of `units`, as text when they are well formed. -/
def fromUnits (units : List UInt16) : KtString :=
  match h : toString? units with
  | some text => ofString text
  | none => ⟨.units units, h⟩

/-- The string that the value is, unless a surrogate is unpaired. -/
def asStr (self : KtString) : Option String :=
  match self.repr with
  | .empty => some ""
  | .text text => some text
  | .units _ => none

def units (self : KtString) : List UInt16 :=
  match self.repr with
  | .empty => encode ""
  | .text text => encode text
  | .units units => units

def lenUtf16 (self : KtString) : ℕ :=
  match self.repr with
  | .empty => 0
  | .text text => (encode text).length
  | .units units => units.length

def isEmpty (self : KtString) : Bool :=
  match self.repr with
  | .empty => true
  | .text text => text.isEmpty
  | .units units => units.isEmpty

/-- The unit of a one-unit value. -/
def singleUnit (self : KtString) : Option UInt16 := do
  let first ← self.units.head?
  if self.units.tail.head?.isNone then some first else none

end KtString

/-- A value under construction, which is never the empty marker. -/
structure KtStringBuf where
  repr : Repr
  not_empty : repr ≠ .empty

namespace KtStringBuf

def new : KtStringBuf := ⟨.text "", nofun⟩

/-- The capacity sets only how much memory is reserved. -/
def withCapacity (_bytes : ℕ) : KtStringBuf := ⟨.text "", nofun⟩

def push (self : KtStringBuf) (c : Char) : KtStringBuf :=
  match h : self.repr with
  | .text text => ⟨.text (text.push c), nofun⟩
  | .units units => ⟨.units (units ++ Utf16.units c), nofun⟩
  | .empty => absurd h self.not_empty

def pushStr (self : KtStringBuf) (s : String) : KtStringBuf :=
  match h : self.repr with
  | .text text => ⟨.text (text ++ s), nofun⟩
  | .units units => ⟨.units (units ++ encode s), nofun⟩
  | .empty => absurd h self.not_empty

/-- The units of what is buffered, which the buffer holds from now on. -/
def degrade (self : KtStringBuf) : List UInt16 :=
  match h : self.repr with
  | .text text => encode text
  | .units units => units
  | .empty => absurd h self.not_empty

def pushUnit (self : KtStringBuf) (unit : UInt16) : KtStringBuf :=
  match ofUnit unit with
  | some c => self.push c
  | none => ⟨.units (self.degrade ++ [unit]), nofun⟩

def pushKt (self : KtStringBuf) (other : KtString) : KtStringBuf :=
  match other.asStr with
  | some text => self.pushStr text
  | none => ⟨.units (self.degrade ++ other.units), nofun⟩

def finish (self : KtStringBuf) : KtString :=
  match self.repr with
  | .empty => .new
  | .text text => .ofString text
  | .units units => .fromUnits units

end KtStringBuf

end Krusty

/-! Each sequence of code units has one value, however it was built. -/
namespace Krusty

open Utf16

@[simp] theorem encode_empty : encode "" = [] := rfl

theorem encode_append (s t : String) : encode (s ++ t) = encode s ++ encode t := by
  rw [encode, String.toList_append, List.flatMap_append]
  rfl

theorem encode_push (s : String) (c : Char) : encode (s.push c) = encode s ++ units c := by
  rw [encode, String.toList_push, List.flatMap_append, List.flatMap_singleton]
  rfl

theorem encode_eq_nil {s : String} : encode s = [] ↔ s = "" := by
  rw [← encode_empty]
  exact encode_injective.eq_iff

theorem toString?_encode (s : String) : toString? (encode s) = some s := toString?_eq_some_iff.mpr rfl

namespace KtString

theorem units_ofString (text : String) : (ofString text).units = encode text := by
  unfold ofString
  split_ifs with h
  · rw [h]
    rfl
  · rfl

theorem units_fromUnits (us : List UInt16) : (fromUnits us).units = us := by
  unfold fromUnits
  split
  · next text h =>
    rw [units_ofString]
    exact toString?_eq_some_iff.mp h
  · rfl

/-- The string form, if there is one, is that of the units. -/
theorem asStr_eq (self : KtString) : self.asStr = toString? self.units := by
  obtain ⟨repr, hcanonical⟩ := self
  cases repr with
  | empty => exact (toString?_encode "").symm
  | text text => exact (toString?_encode text).symm
  | units us => exact hcanonical.symm

theorem asStr_eq_some {self : KtString} {text : String} : self.asStr = some text ↔ self.units = encode text := by
  rw [asStr_eq, toString?_eq_some_iff, eq_comm]

theorem isSome_asStr (self : KtString) : self.asStr.isSome ↔ WellFormed self.units := by
  rw [asStr_eq, isSome_toString?]

/-- How a value is held is read off its units. -/
theorem fromUnits_units (self : KtString) : fromUnits self.units = self := by
  have hstr := self.asStr_eq
  unfold fromUnits
  split
  · next text h =>
    obtain ⟨repr, hcanonical⟩ := self
    rw [h] at hstr
    cases repr with
    | empty =>
      have hempty : text = "" := (Option.some.inj hstr).symm
      rw [hempty]
      rfl
    | text text' =>
      have htext : text = text' := (Option.some.inj hstr).symm
      subst htext
      exact dif_neg hcanonical
    | units us => cases hstr
  · next h =>
    obtain ⟨repr, hcanonical⟩ := self
    rw [h] at hstr
    cases repr with
    | units us => rfl
    | _ => cases hstr

theorem units_injective : Function.Injective units := by
  intro a b h
  rw [← fromUnits_units a, ← fromUnits_units b, h]

theorem lenUtf16_eq (self : KtString) : self.lenUtf16 = self.units.length := by
  unfold lenUtf16 units
  cases self.repr <;> rfl

theorem isEmpty_iff (self : KtString) : self.isEmpty = true ↔ self.units = [] := by
  unfold isEmpty units
  cases self.repr with
  | empty => simp
  | text text => rw [String.isEmpty_iff, encode_eq_nil]
  | units us => exact List.isEmpty_iff

theorem singleUnit_eq_some {self : KtString} {u : UInt16} : self.singleUnit = some u ↔ self.units = [u] := by
  unfold singleUnit
  cases self.units with
  | nil => simp
  | cons first rest => cases rest <;> simp

end KtString

namespace KtStringBuf

/-- The units pushed so far. -/
def units (self : KtStringBuf) : List UInt16 := self.degrade

theorem units_push (self : KtStringBuf) (c : Char) : (self.push c).units = self.units ++ Utf16.units c := by
  obtain ⟨repr, hrepr⟩ := self
  cases repr with
  | empty => exact absurd rfl hrepr
  | text text => exact encode_push text c
  | units us => rfl

theorem units_pushStr (self : KtStringBuf) (s : String) : (self.pushStr s).units = self.units ++ encode s := by
  obtain ⟨repr, hrepr⟩ := self
  cases repr with
  | empty => exact absurd rfl hrepr
  | text text => exact encode_append text s
  | units us => rfl

theorem units_pushUnit (self : KtStringBuf) (u : UInt16) : (self.pushUnit u).units = self.units ++ [u] := by
  unfold pushUnit
  cases h : ofUnit u with
  | some c =>
    dsimp only
    rw [units_push, (ofUnit_eq_some h).1]
  | none => rfl

theorem units_pushKt (self : KtStringBuf) (other : KtString) :
    (self.pushKt other).units = self.units ++ other.units := by
  unfold pushKt
  cases h : other.asStr with
  | some text =>
    dsimp only
    rw [units_pushStr, KtString.asStr_eq_some.mp h]
  | none => rfl

theorem units_finish (self : KtStringBuf) : self.finish.units = self.units := by
  obtain ⟨repr, hrepr⟩ := self
  cases repr with
  | empty => exact absurd rfl hrepr
  | text text => exact KtString.units_ofString text
  | units us => exact KtString.units_fromUnits us

/-- What is pushed onto a buffer. -/
inductive Piece where
  | char (c : Char)
  | str (s : String)
  | unit (u : UInt16)
  | kt (value : KtString)

def Piece.units : Piece → List UInt16
  | .char c => Utf16.units c
  | .str s => encode s
  | .unit u => [u]
  | .kt value => value.units

def apply (self : KtStringBuf) : Piece → KtStringBuf
  | .char c => self.push c
  | .str s => self.pushStr s
  | .unit u => self.pushUnit u
  | .kt value => self.pushKt value

theorem units_apply (self : KtStringBuf) (piece : Piece) : (self.apply piece).units = self.units ++ piece.units := by
  cases piece with
  | char c => exact units_push self c
  | str s => exact units_pushStr self s
  | unit u => exact units_pushUnit self u
  | kt value => exact units_pushKt self value

theorem units_run (self : KtStringBuf) (pieces : List Piece) :
    (pieces.foldl apply self).units = self.units ++ pieces.flatMap Piece.units := by
  induction pieces generalizing self with
  | nil => simp
  | cons piece pieces ih => rw [List.foldl_cons, ih, units_apply, List.flatMap_cons, List.append_assoc]

end KtStringBuf

/-- A buffer finishes with the units pushed onto it, and a value is nothing but its units. -/
theorem KtString.canonical_units :
    (∀ pieces : List KtStringBuf.Piece,
      (pieces.foldl KtStringBuf.apply .new).finish.units = pieces.flatMap KtStringBuf.Piece.units) ∧
    (∀ units, (fromUnits units).units = units) ∧ (∀ text, (ofString text).units = encode text) ∧ new.units = [] ∧
    ∀ a : KtString, (∀ b, a = b ↔ a.units = b.units) ∧ (a.asStr.isSome ↔ WellFormed a.units) ∧
      (∀ text, a.asStr = some text ↔ a.units = encode text) ∧ a.lenUtf16 = a.units.length ∧
      (a.isEmpty ↔ a.units = []) ∧ ∀ u, a.singleUnit = some u ↔ a.units = [u] := by
  refine ⟨?_, units_fromUnits, units_ofString, rfl, ?_⟩
  · intro pieces
    rw [KtStringBuf.units_finish, KtStringBuf.units_run]
    rfl
  · intro a
    exact ⟨fun b => units_injective.eq_iff.symm, a.isSome_asStr, fun text => asStr_eq_some, a.lenUtf16_eq,
      a.isEmpty_iff, fun u => singleUnit_eq_some⟩

/-- A pair completed by two pushes is text. -/
example : ([.unit 0xd83d, .unit 0xde00].foldl KtStringBuf.apply .new).finish.asStr = some "😀" := by decide

end Krusty
