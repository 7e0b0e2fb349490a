import Krusty.Wasm.Encode.Instructions

/-! A module written as its sections, and the sections read in the order of the grammar. -/
namespace Krusty.Wasm

open Parsing

/-! ### Sections written -/

def HEADER : List UInt8 := [0x00, 0x61, 0x73, 0x6d, 1, 0, 0, 0]

def section_ (id : UInt8) (body : List UInt8) : List UInt8 := id :: (count body.length ++ body)

def FunctionImport.encode (self : FunctionImport) : List UInt8 :=
  Wasm.name self.module ++ (Wasm.name self.name ++ (0x00 :: index self.ty))

/-- The expression of a type's default value. -/
def defaultInit : ValType → Code
  | .i32 => [.i32Const 0]
  | .i64 => [.i64Const 0]
  | .f32 => [.f32Const 0]
  | .f64 => [.f64Const 0]
  | .ref _ heap => [.refNull heap]

def Global.initCode (self : Global) : Code := self.init.getD (defaultInit self.ty)

def Global.encode (self : Global) : List UInt8 :=
  self.ty.encode ++ (mutability self.isMutable ++ (self.initCode.encode ++ [0x0b]))

/-- Locals of one type in a row, as their number and type. -/
def runs (locals : List ValType) : List (UInt32 × ValType) :=
  locals.foldl (fun runs local_ =>
    match runs.getLast? with
    | some (count, ty) => if ty = local_ then runs.dropLast ++ [(count + 1, ty)] else runs ++ [(1, local_)]
    | none => runs ++ [(1, local_)]) []

def run (self : UInt32 × ValType) : List UInt8 := index self.1 ++ self.2.encode

def Function.entry (self : Function) : List UInt8 := vector run (runs self.locals) ++ (self.code.encode ++ [0x0b])

def Function.encode (self : Function) : List UInt8 := count self.entry.length ++ self.entry

namespace Module

def memorySection (self : Module) : List UInt8 :=
  match self.memoryPages with
  | some pages => section_ 5 (uleb 1 ++ (0x00 :: index pages))
  | none => []

def tagSection (self : Module) : List UInt8 :=
  if self.tags = [] then [] else section_ 13 (vector (fun ty => 0x00 :: index ty) self.tags)

def globalSection (self : Module) : List UInt8 :=
  if self.globals = [] then [] else section_ 6 (vector Global.encode self.globals)

def exportFunctions (self : Module) : List UInt8 :=
  self.exports.flatMap fun (export_, function) => name export_ ++ (0x00 :: index function)

def MEMORY : List Char := ['m', 'e', 'm', 'o', 'r', 'y']

def exportSection (self : Module) : List UInt8 :=
  match self.memoryPages with
  | some _ => section_ 7 (count (self.exports.length + 1) ++ (self.exportFunctions ++ (name MEMORY ++ (0x02 :: uleb 0))))
  | none => section_ 7 (count self.exports.length ++ self.exportFunctions)

def elementSection (self : Module) : List UInt8 :=
  if self.referenced = [] then [] else section_ 9 (uleb 1 ++ (uleb 3 ++ (0x00 :: vector index self.referenced)))

/-- The bytes of a module. Nothing is returned where a declared function is not defined. -/
def encode (self : Module) : Option (List UInt8) := do
  let functions ← self.functions.mapM id
  return HEADER ++ (section_ 1 (uleb 1 ++ (0x4e :: vector SubType.encode self.types)) ++
    (section_ 2 (vector FunctionImport.encode self.imports) ++
    (section_ 3 (vector (fun function => index function.ty) functions) ++
    (self.memorySection ++ (self.tagSection ++ (self.globalSection ++ (self.exportSection ++ (self.elementSection ++
    (section_ 12 (uleb 1) ++
    (section_ 10 (vector Function.encode functions) ++
    section_ 11 (uleb 1 ++ (0x01 :: vector (fun b => [b]) self.data))))))))))))

end Module

/-! ### Sections read -/

inductive ExternIndex where
  | function (index : UInt32)
  | memory (index : UInt32)
deriving DecidableEq

structure GlobalEntry where
  ty : ValType
  isMutable : Bool
  init : Code
deriving DecidableEq

structure CodeEntry where
  locals : List ValType
  code : Code
deriving DecidableEq

/-- What the sections of a module hold: recursion groups, and the entries of every other section in order. -/
structure Contents where
  types : List (List SubType)
  imports : List FunctionImport
  functions : List UInt32
  memories : List UInt32
  tags : List UInt32
  globals : List GlobalEntry
  exports : List (List Char × ExternIndex)
  elements : List (List UInt32)
  dataCount : Option ℕ
  codes : List CodeEntry
  data : List (List UInt8)
deriving DecidableEq

/-- An item after a byte that says what it is. -/
def tagged {α : Type} (b : UInt8) (p : Parser α) : Parser α := do
  if (← next) = b then p else failure

def functionImport : Parser FunctionImport := do
  let module ← utf8
  let name ← utf8
  let ty ← tagged 0x00 u32
  return ⟨module, name, ty⟩

def globalEntry : Parser GlobalEntry := do
  let ty ← valType
  let isMutable ← isMutable
  let init ← expr
  return ⟨ty, isMutable, init⟩

def exportEntry : Parser (List Char × ExternIndex) := do
  let name ← utf8
  match ← next with
  | 0x00 => (fun i => (name, .function i)) <$> u32
  | 0x02 => (fun i => (name, .memory i)) <$> u32
  | _ => failure

/-- A declarative segment of functions. -/
def elementSegment : Parser (List UInt32) := do
  if (← size) = 3 then tagged 0x00 (vec u32) else failure

/-- The locals that runs stand for. -/
def expand (runs : List (UInt32 × ValType)) : List ValType := runs.flatMap fun run => List.replicate run.1.toNat run.2

def localRun : Parser (UInt32 × ValType) := do
  let count ← u32
  let ty ← valType
  return (count, ty)

def functionBody : Parser CodeEntry := do
  let runs ← vec localRun
  let code ← expr
  if (runs.map (·.1.toNat)).sum < LIMIT then return ⟨expand runs, code⟩ else failure

def codeEntry : Parser CodeEntry := do
  sized (← size) functionBody

/-- A passive segment. -/
def dataSegment : Parser (List UInt8) := do
  if (← size) = 1 then vec next else failure

/-- A section, or what its absence stands for. -/
def optionalSection {α : Type} (id : UInt8) (p : Parser α) (absent : α) : Parser α
  | b :: rest => if b = id then (size >>= fun n => sized n p) rest else some (absent, b :: rest)
  | [] => some (absent, [])

def header : Parser Unit := do
  if (← take 8) = HEADER then return () else failure

/-- The sections in the order of the grammar. -/
def contents : Parser Contents := do
  header
  let types ← optionalSection 1 (vec recType) []
  let imports ← optionalSection 2 (vec functionImport) []
  let functions ← optionalSection 3 (vec u32) []
  let memories ← optionalSection 5 (vec (tagged 0x00 u32)) []
  let tags ← optionalSection 13 (vec (tagged 0x00 u32)) []
  let globals ← optionalSection 6 (vec globalEntry) []
  let exports ← optionalSection 7 (vec exportEntry) []
  let elements ← optionalSection 9 (vec elementSegment) []
  let dataCount ← optionalSection 12 (some <$> size) none
  let codes ← optionalSection 10 (vec codeEntry) []
  let data ← optionalSection 11 (vec dataSegment) []
  return ⟨types, imports, functions, memories, tags, globals, exports, elements, dataCount, codes, data⟩

/-- The contents of a whole module: a body for every function, as many data segments as announced. -/
def decode (bytes : List UInt8) : Option Contents := do
  let read ← whole contents bytes
  if read.functions.length = read.codes.length ∧ read.dataCount.all (· = read.data.length) then return read else none

end Krusty.Wasm
