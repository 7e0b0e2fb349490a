import Krusty.Lib.SortedSets
import Krusty.Lib.Strings
import Krusty.Wasm.Execution
import Mathlib

/-! Interface members, their implementations, and the stubs, tables and tests written from them. -/
namespace Krusty.Wasm

instance instLinearOrderUInt32 : LinearOrder UInt32 where
  le_refl := UInt32.le_refl
  le_trans _ _ _ := UInt32.le_trans
  le_antisymm _ _ := UInt32.le_antisymm
  le_total := UInt32.le_total
  lt_iff_le_not_ge a b := by
    rw [UInt32.lt_iff_toNat_lt, UInt32.le_iff_toNat_le, UInt32.le_iff_toNat_le]
    exact lt_iff_le_not_ge
  toDecidableLE := inferInstance
  toDecidableEq := inferInstance
  toDecidableLT := inferInstance

instance instLawfulBEqUInt32 : LawfulBEq UInt32 := inferInstance

abbrev TypeName := List Char

abbrev MemberRef := ℕ

abbrev ClassRef := ℕ

structure Member where
  params : List ValType
  results : List ValType
  ty : UInt32
  stub : Option UInt32
  implementations : List (ClassRef × UInt32)

def Member.classes (member : Member) : List ClassRef := member.implementations.map (·.1)

structure ClassRecord where
  ancestors : List UInt32
  itable : UInt32
  interfaces : List TypeName

def ClassRecord.structure_ (self : ClassRecord) : UInt32 := self.ancestors.headD 0

structure InterfaceDispatch where
  members : List Member
  numbered : List ((List Char × UInt32) × MemberRef)
  classes : List ClassRecord
  tests : List (TypeName × UInt32)

/-- The types of the object model that the stubs and tables name. -/
structure ObjectRoot where
  itable : UInt32
  anyTable : UInt32
  object : UInt32

def ITABLE_FIELD : UInt32 := 3

def REFERENCE : ValType := .ref true .eq

inductive Fault where
  | error (text : String)
  | panic
deriving DecidableEq

/-- How a stub reaches the implementations of its member. -/
inductive Shape where
  | unreachable
  | direct (function : UInt32)
  | tested (structure_ thenTo otherwise : UInt32)
  | table (index : ℕ)
deriving DecidableEq

namespace InterfaceDispatch

def empty : InterfaceDispatch := ⟨[], [], [], []⟩

/-! ### Recording -/

/-- The member of a number of a module, carried as given. -/
def number (self : InterfaceDispatch) (m : Module) (moduleName : List Char) (number : UInt32)
    (params results : List ValType) : Except Fault (MemberRef × InterfaceDispatch × Module) :=
  match self.numbered.find? fun known => known.1 = (moduleName, number) with
  | some (_, member) =>
    match self.members[member]? with
    | some known =>
      if known.params ≠ params ∨ known.results ≠ results then .error (.error "an interface member carried two ways")
      else .ok (member, self, m)
    | none => .error .panic
  | none =>
    let member := self.members.length
    let (ty, m) := m.funcType params results
    .ok (member, { self with
      members := self.members ++ [⟨params, results, ty, none, []⟩]
      numbered := self.numbered ++ [((moduleName, number), member)] }, m)

/-- The stub a call through a member goes to, declared by the first call. -/
def stub (self : InterfaceDispatch) (m : Module) (member : MemberRef) :
    Except Fault (UInt32 × InterfaceDispatch × Module) :=
  match self.members[member]? with
  | none => .error .panic
  | some known =>
    match known.stub with
    | some stub => .ok (stub, self, m)
    | none =>
      let (stub, m) := m.declare
      .ok (stub, { self with members := self.members.set member { known with stub := some stub } }, m)

/-- A class with instances, and the global its dispatch table reads its interface table from. -/
def class_ (self : InterfaceDispatch) (m : Module) (itableType : UInt32) (ancestors : List UInt32) :
    (ClassRef × UInt32) × InterfaceDispatch × Module :=
  let (itable, m) := m.constantGlobal (.nullable itableType) [.refNull (.concrete itableType)]
  ((self.classes.length, itable), { self with classes := self.classes ++ [⟨ancestors, itable, []⟩] }, m)

def implement (self : InterfaceDispatch) (cls : ClassRef) (member : MemberRef) (function : UInt32) :
    Except Fault InterfaceDispatch :=
  match self.members[member]? with
  | none => .error .panic
  | some known =>
    match known.implementations.find? fun implementation => implementation.1 = cls with
    | some (_, recorded) =>
      if recorded ≠ function then .error (.error "a class implementing one interface member twice") else .ok self
    | none =>
      let implementations := known.implementations ++ [(cls, function)]
      .ok { self with members := self.members.set member { known with implementations } }

def instanceOf (self : InterfaceDispatch) (cls : ClassRef) (interface : TypeName) : Except Fault InterfaceDispatch :=
  match self.classes[cls]? with
  | none => .error .panic
  | some known =>
    if interface ∈ known.interfaces then .ok self
    else .ok { self with classes := self.classes.set cls { known with interfaces := known.interfaces ++ [interface] } }

/-- The `is` function of an interface, declared when it is first asked for. -/
def test (self : InterfaceDispatch) (m : Module) (interface : TypeName) : UInt32 × InterfaceDispatch × Module :=
  match self.tests.find? fun known => known.1 = interface with
  | some (_, function) => (function, self, m)
  | none =>
    let (function, m) := m.declare
    (function, { self with tests := self.tests ++ [(interface, function)] }, m)

/-! ### Shapes -/

def ancestorsOf (self : InterfaceDispatch) (cls : ClassRef) : List UInt32 :=
  match self.classes[cls]? with
  | some known => known.ancestors
  | none => []

/-- The classes for which a function implements the member. -/
def implementors (member : Member) (function : UInt32) : List ClassRef :=
  (member.implementations.filter fun implementation => implementation.2 = function).map (·.1)

/-- A struct that every class of one function is a subtype of and no class of the other. -/
def separating (self : InterfaceDispatch) (member : Member) (thenTo otherwise : UInt32) : Option UInt32 :=
  match implementors member thenTo with
  | [] => none
  | seed :: _ =>
    (self.ancestorsOf seed).find? fun structure_ =>
      (implementors member thenTo).all (fun cls => structure_ ∈ self.ancestorsOf cls) &&
        (implementors member otherwise).all fun cls => structure_ ∉ self.ancestorsOf cls

/-- The stub shape that needs no interface table, if the member has one. -/
def shape (self : InterfaceDispatch) (member : Member) : Option Shape :=
  match SortedSets.unique ((member.implementations.map (·.2)).mergeSort (· ≤ ·)) with
  | [] => some .unreachable
  | [only] => some (.direct only)
  | [first, second] =>
    ((self.separating member first second).map fun structure_ => .tested structure_ first second).or
      ((self.separating member second first).map fun structure_ => .tested structure_ second first)
  | _ => none

/-! ### Interface tables -/

abbrev Tables := ClassRef → List (Option UInt32)

/-- Whether an index holds no function in the tables of the classes. -/
def Free (tables : Tables) (classes : List ClassRef) (index : ℕ) : Prop :=
  ∀ cls ∈ classes, ∀ function, (tables cls)[index]? ≠ some (some function)

instance (table : List (Option UInt32)) (index : ℕ) : Decidable (∀ function, table[index]? ≠ some (some function)) :=
  match h : table[index]? with
  | some (some function) => isFalse fun hfree => hfree function rfl
  | some none => isTrue fun _ hsome => by cases hsome
  | none => isTrue fun _ hsome => by cases hsome

instance (tables : Tables) (classes : List ClassRef) (index : ℕ) : Decidable (Free tables classes index) :=
  inferInstanceAs (Decidable (∀ cls ∈ classes, ∀ function, (tables cls)[index]? ≠ some (some function)))

theorem exists_free (tables : Tables) (classes : List ClassRef) : ∃ index, Free tables classes index := by
  obtain ⟨index, h⟩ := Infinite.exists_notMem_finset (classes.flatMap fun cls => List.range (tables cls).length).toFinset
  refine ⟨index, fun cls hcls function hfunction => h ?_⟩
  rw [List.mem_toFinset, List.mem_flatMap]
  exact ⟨cls, hcls, List.mem_range.mpr (List.getElem?_eq_some_iff.mp hfunction).1⟩

/-- The lowest index free in every table. -/
def freeIndex (tables : Tables) (classes : List ClassRef) : ℕ := Nat.find (exists_free tables classes)

/-- A function at an index of a table, which is lengthened where it has to be. -/
def enter (table : List (Option UInt32)) (index : ℕ) (function : UInt32) : List (Option UInt32) :=
  (table ++ List.replicate (index + 1 - table.length) none).set index (some function)

def enterAll (tables : Tables) (index : ℕ) (implementations : List (ClassRef × UInt32)) : Tables :=
  implementations.foldl
    (fun tables implementation =>
      Function.update tables implementation.1 (enter (tables implementation.1) index implementation.2)) tables

/-- A called member with its stub and shape. -/
structure Placed where
  stub : UInt32
  member : Member
  shape : Shape

/-- The shapes of the called members in order, and the tables they fill. -/
def placeAll (self : InterfaceDispatch) : List Member → Tables → List Placed × Tables
  | [], tables => ([], tables)
  | member :: rest, tables =>
    match member.stub with
    | none => self.placeAll rest tables
    | some stub =>
      match self.shape member with
      | some shape =>
        let (placed, tables) := self.placeAll rest tables
        (⟨stub, member, shape⟩ :: placed, tables)
      | none =>
        let index := freeIndex tables member.classes
        let (placed, tables) := self.placeAll rest (enterAll tables index member.implementations)
        (⟨stub, member, .table index⟩ :: placed, tables)

/-! ### Code -/

/-- Every parameter of a stub. -/
def forward (member : Member) : Code := (List.range member.params.length).map fun index => .localGet (UInt32.ofNat index)

def stubBody (member : Member) (shape : Shape) (objects : ObjectRoot) : Except Fault Code :=
  match shape with
  | .unreachable => .ok [.unreachable]
  | .direct function => .ok (forward member ++ [.call function])
  | .tested structure_ thenTo otherwise => do
    let result ← match member.results with
      | [] => .ok BlockType.empty
      | [value] => .ok (.value value)
      | _ => .error .panic
    return [.localGet 0, .refTest false (.concrete structure_), .if_ result] ++ forward member ++ [.call thenTo, .else_] ++
      forward member ++ [.call otherwise, .end_]
  | .table index =>
    .ok (forward member ++ [.localGet 0, .refCast false (.concrete objects.object), .structGet objects.object 0,
      .structGet objects.anyTable ITABLE_FIELD, .i32Const (UInt32.ofNat index).toInt32, .arrayGet objects.itable,
      .refCast false (.concrete member.ty), .callRef member.ty])

/-- The classes recorded as instances of an interface. -/
def instancesOf (self : InterfaceDispatch) (interface : TypeName) : List ClassRecord :=
  self.classes.filter fun cls => interface ∈ cls.interfaces

/-- The structs that an `is` function tests, but for a subtype of another. -/
def testedStructs (implementors : List ClassRecord) : List ClassRecord → List UInt32 → List UInt32
  | [], tested => tested
  | cls :: rest, tested =>
    let covered := implementors.any fun other => other.structure_ ∈ cls.ancestors.tail
    if covered ∨ cls.structure_ ∈ tested then testedStructs implementors rest tested
    else testedStructs implementors rest (tested ++ [cls.structure_])

def testBody (self : InterfaceDispatch) (interface : TypeName) : Code :=
  let implementors := self.instancesOf interface
  .i32Const 0 :: (testedStructs implementors implementors []).flatMap fun structure_ =>
    [.localGet 0, .refTest false (.concrete structure_), .op OR32]

def entryInit : Option UInt32 → Instr
  | some function => .refFunc function
  | none => .refNull .func

/-- The constant expression of a class's interface table. -/
def tableInit (entries : List (Option UInt32)) (objects : ObjectRoot) : Code :=
  entries.map entryInit ++ [.arrayNewFixed objects.itable (UInt32.ofNat entries.length)]

/-! ### The module finished -/

def defineStub (objects : ObjectRoot) (m : Module) (placed : Placed) : Except Fault Module := do
  let code ← stubBody placed.member placed.shape objects
  match m.define placed.stub ⟨placed.member.ty, [], code⟩ with
  | some m => .ok m
  | none => .error .panic

def writeTable (objects : ObjectRoot) (m : Module) (table : ClassRecord × List (Option UInt32)) : Except Fault Module :=
  match table.2 with
  | [] => .ok m
  | entries =>
    let m := (entries.filterMap id).foldl Module.referenceFunction m
    match m.setConstantInit table.1.itable (tableInit entries objects) with
    | some m => .ok m
    | none => .error .panic

def defineTest (self : InterfaceDispatch) (ty : UInt32) (m : Module) (test : TypeName × UInt32) : Except Fault Module :=
  match m.define test.2 ⟨ty, [], self.testBody test.1⟩ with
  | some m => .ok m
  | none => .error .panic

def classTables (self : InterfaceDispatch) (tables : Tables) : List (ClassRecord × List (Option UInt32)) :=
  self.classes.zipIdx.map fun (cls, index) => (cls, tables index)

/-- Every stub, interface table and `is` function, written from what the program recorded. -/
def finalize (self : InterfaceDispatch) (m : Module) (objects : ObjectRoot) : Except Fault Module := do
  let (placed, tables) := self.placeAll self.members fun _ => []
  let m ← placed.foldlM (defineStub objects) m
  let m ← (self.classTables tables).foldlM (writeTable objects) m
  let (ty, m) := m.funcType [REFERENCE] [.i32]
  self.tests.foldlM (self.defineTest ty) m

end InterfaceDispatch

end Krusty.Wasm
