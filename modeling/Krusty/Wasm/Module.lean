import Mathlib.Data.List.Basic
import Mathlib.Tactic.Common

/-! A WebAssembly module under construction. -/
namespace Krusty.Wasm

/-- A heap type: a type the module declares, or one of the abstract ones. -/
inductive HeapType where
  | concrete (index : UInt32)
  | none
  | eq
  | func
deriving DecidableEq

inductive ValType where
  | i32
  | i64
  | f32
  | f64
  | ref (nullable : Bool) (heap : HeapType)
deriving DecidableEq

namespace ValType

def reference (index : UInt32) : ValType := .ref false (.concrete index)

def nullable (index : UInt32) : ValType := .ref true (.concrete index)

end ValType

/-- What a struct field or array element holds: a value, or a packed integer. -/
inductive StorageType where
  | val (value : ValType)
  | i16
deriving DecidableEq

structure FieldType where
  storage : StorageType
  isMutable : Bool
deriving DecidableEq

inductive CompositeType where
  | func (params results : List ValType)
  | struct (fields : List FieldType)
  | array (element : FieldType)
deriving DecidableEq

/-- A type's structure, the type it is declared a subtype of, and whether it may have subtypes. -/
structure SubType where
  composite : CompositeType
  supertype : Option UInt32
  isOpen : Bool
deriving DecidableEq

/-- A type nothing extends and that extends nothing. -/
def SubType.plain (composite : CompositeType) : SubType := ⟨composite, none, false⟩

/-- The result of a structured control instruction. -/
inductive BlockType where
  | empty
  | value (value : ValType)
deriving DecidableEq

/-- What one method of `Code` appends. -/
inductive Instr where
  | op (opcode : UInt8)
  | truncSat (opcode : UInt8)
  | block (ty : BlockType)
  | loop_ (ty : BlockType)
  | if_ (ty : BlockType)
  | tryTable (ty : BlockType) (tag handler : UInt32)
  | throw (tag : UInt32)
  | else_
  | end_
  | br (depth : UInt32)
  | brIf (depth : UInt32)
  | unreachable
  | return_
  | call (function : UInt32)
  | drop_
  | localGet (index : UInt32)
  | localSet (index : UInt32)
  | localTee (index : UInt32)
  | globalGet (index : UInt32)
  | globalSet (index : UInt32)
  | i32Store8 (offset : UInt32)
  | i32Store (offset : UInt32)
  | i32Const (value : Int32)
  | i64Const (value : Int64)
  | f32Const (bits : UInt32)
  | f64Const (bits : UInt64)
  | refNull (heap : HeapType)
  | refIsNull
  | refEq
  | refAsNonNull
  | refFunc (function : UInt32)
  | callRef (ty : UInt32)
  | refTest (nullable : Bool) (heap : HeapType)
  | refCast (nullable : Bool) (heap : HeapType)
  | structSet (ty field : UInt32)
  | structNew (ty : UInt32)
  | structNewDefault (ty : UInt32)
  | structGet (ty field : UInt32)
  | arrayNewDefault (ty : UInt32)
  | arrayNewFixed (ty length : UInt32)
  | arrayNewData (ty segment : UInt32)
  | arrayGet (ty : UInt32)
  | arrayGetU (ty : UInt32)
  | arraySet (ty : UInt32)
  | arrayLen
  | arrayCopy (destination source : UInt32)
deriving DecidableEq

abbrev Code := List Instr

structure Function where
  ty : UInt32
  locals : List ValType
  code : Code
deriving DecidableEq

structure FunctionImport where
  module : List Char
  name : List Char
  ty : UInt32
deriving DecidableEq

structure Global where
  ty : ValType
  isMutable : Bool
  init : Option Code
deriving DecidableEq

structure Module where
  types : List SubType
  imports : List FunctionImport
  functions : List (Option Function)
  memoryPages : Option UInt32
  exports : List (List Char × UInt32)
  globals : List Global
  tags : List UInt32
  referenced : List UInt32
  data : List UInt8

namespace Module

def empty : Module := ⟨[], [], [], none, [], [], [], [], []⟩

/-- The index of a type, which is declared if it is new. -/
def declareType (self : Module) (ty : CompositeType) : UInt32 × Module :=
  match self.types.findIdx? (· = .plain ty) with
  | some index => (UInt32.ofNat index, self)
  | none => (UInt32.ofNat self.types.length, { self with types := self.types ++ [.plain ty] })

/-- Whether an index is that of an open type declared so far. -/
def isOpenType (self : Module) (index : UInt32) : Bool :=
  match self.types[index.toNat]? with
  | some known => known.isOpen
  | none => false

/-- A new type. Nothing is returned where its supertype is not an open type declared earlier. -/
def subtype (self : Module) (ty : SubType) : Option (UInt32 × Module) :=
  if ty.supertype.all self.isOpenType then
    some (UInt32.ofNat self.types.length, { self with types := self.types ++ [ty] })
  else none

def funcType (self : Module) (params results : List ValType) : UInt32 × Module :=
  self.declareType (.func params results)

def exceptionTag (self : Module) (payload : List ValType) : UInt32 × Module :=
  let (ty, self) := self.funcType payload []
  (UInt32.ofNat self.tags.length, { self with tags := self.tags ++ [ty] })

/-- An imported function. Nothing is returned once a function is declared. -/
def importFunction (self : Module) (imported : FunctionImport) : Option (UInt32 × Module) :=
  if self.functions = [] then
    some (UInt32.ofNat self.imports.length, { self with imports := self.imports ++ [imported] })
  else none

/-- The index of a function whose body is supplied later. -/
def declare (self : Module) : UInt32 × Module :=
  (UInt32.ofNat (self.imports.length + self.functions.length), { self with functions := self.functions ++ [none] })

/-- The body of a declared function. Nothing is returned where it has one. -/
def define (self : Module) (index : UInt32) (function : Function) : Option Module :=
  if index.toNat < self.imports.length then none
  else match self.functions[index.toNat - self.imports.length]? with
    | some none => some { self with functions := self.functions.set (index.toNat - self.imports.length) (some function) }
    | _ => none

def memory (self : Module) (pages : UInt32) : Module := { self with memoryPages := some pages }

/-- A mutable global, which starts as its type's default value. -/
def global (self : Module) (ty : ValType) : UInt32 × Module :=
  (UInt32.ofNat self.globals.length, { self with globals := self.globals ++ [⟨ty, true, none⟩] })

def constantGlobal (self : Module) (ty : ValType) (init : Code) : UInt32 × Module :=
  (UInt32.ofNat self.globals.length, { self with globals := self.globals ++ [⟨ty, false, some init⟩] })

def setConstantInit (self : Module) (index : UInt32) (init : Code) : Option Module :=
  match self.globals[index.toNat]? with
  | some known =>
    if known.isMutable then none
    else some { self with globals := self.globals.set index.toNat { known with init := some init } }
  | none => none

def referenceFunction (self : Module) (function : UInt32) : Module :=
  if function ∈ self.referenced then self else { self with referenced := self.referenced ++ [function] }

def exportFunction (self : Module) (name : List Char) (index : UInt32) : Module :=
  { self with exports := self.exports ++ [(name, index)] }

/-- Bytes appended to the data segment, and the offset they start at. -/
def addData (self : Module) (bytes : List UInt8) : UInt32 × Module :=
  (UInt32.ofNat self.data.length, { self with data := self.data ++ bytes })

end Module

end Krusty.Wasm
