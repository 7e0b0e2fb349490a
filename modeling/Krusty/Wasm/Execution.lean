import Krusty.Wasm.Module

/-! What the instructions of dispatch code do: no loops, branches or mutation. -/
namespace Krusty.Wasm

inductive Value where
  | i32 (value : UInt32)
  | null
  | func (index : UInt32)
  | struct (ty : UInt32) (fields : List Value)
  | array (ty : UInt32) (elements : List Value)

namespace Module

def supertype? (self : Module) (ty : UInt32) : Option UInt32 := (self.types[ty.toNat]?).bind (·.supertype)

/-- Whether a type is another or is declared, in some steps, a subtype of it. A supertype is declared earlier. -/
def isSubtype (self : Module) (a b : UInt32) : Bool :=
  a = b || match self.supertype? a with
    | some parent => if parent.toNat < a.toNat then isSubtype self parent b else false
    | none => false
termination_by a.toNat

/-- The body slot of a function index: an import has none. -/
def slot? (self : Module) (index : UInt32) : Option (Option Function) :=
  if index.toNat < self.imports.length then none else self.functions[index.toNat - self.imports.length]?

def functionType? (self : Module) (index : UInt32) : Option UInt32 :=
  match self.imports[index.toNat]? with
  | some imported => some imported.ty
  | none => (self.slot? index).bind fun function => function.map (·.ty)

def arity? (self : Module) (ty : UInt32) : Option ℕ :=
  match self.types[ty.toNat]? with
  | some ⟨.func params _, _, _⟩ => some params.length
  | _ => none

def isOf (self : Module) (nullable : Bool) (heap : HeapType) : Value → Bool
  | .i32 _ => false
  | .null => nullable
  | .func index =>
    match heap with
    | .func => true
    | .concrete ty =>
      match self.functionType? index with
      | some known => self.isSubtype known ty
      | none => false
    | _ => false
  | .struct known _ | .array known _ =>
    match heap with
    | .eq => true
    | .concrete ty => self.isSubtype known ty
    | _ => false

end Module

/-- Whether instructions are run, or passed over up to an `else` or `end` of this depth. -/
inductive Mode where
  | running
  | toElse (depth : ℕ)
  | toEnd (depth : ℕ)
deriving DecidableEq

/-- The operands, the last on top, and the calls made, the first in front. -/
structure State where
  mode : Mode
  stack : List Value
  calls : List (UInt32 × List Value)

def State.push (self : State) (value : Value) : State := { self with stack := value :: self.stack }

/-- `i32.or`. -/
def OR32 : UInt8 := 0x72

section Machine

variable (m : Module) (invoke : UInt32 → List Value → Option (List Value)) (args : List Value)

/-- A call of a function with as many operands as its type takes. -/
def callWith (function ty : UInt32) (stack : List Value) (calls : List (UInt32 × List Value)) : Option State := do
  let count ← m.arity? ty
  if stack.length < count then none
  else
    let operands := (stack.take count).reverse
    let results ← invoke function operands
    return ⟨.running, results.reverse ++ stack.drop count, calls ++ [(function, operands)]⟩

/-- An instruction run. Nothing is returned where it traps, and for instructions that dispatch code has none of. -/
def execute (s : State) : Instr → Option State
  | .localGet index => (args[index.toNat]?).map s.push
  | .i32Const value => some (s.push (.i32 value.toUInt32))
  | .refNull _ => some (s.push .null)
  | .refFunc function => some (s.push (.func function))
  | .unreachable => none
  | .else_ => some { s with mode := .toEnd 0 }
  | .end_ => some s
  | .if_ _ =>
    match s.stack with
    | .i32 condition :: stack => some { s with mode := if condition = 0 then .toElse 0 else .running, stack }
    | _ => none
  | .op opcode =>
    match s.stack with
    | .i32 right :: .i32 left :: stack => if opcode = OR32 then some { s with stack := .i32 (left ||| right) :: stack } else none
    | _ => none
  | .refTest nullable heap =>
    match s.stack with
    | value :: stack => some { s with stack := .i32 (if m.isOf nullable heap value then 1 else 0) :: stack }
    | _ => none
  | .refCast nullable heap =>
    match s.stack with
    | value :: _ => if m.isOf nullable heap value then some s else none
    | _ => none
  | .structGet ty field =>
    match s.stack with
    | .struct known fields :: stack =>
      if m.isSubtype known ty then (fields[field.toNat]?).map fun value => { s with stack := value :: stack } else none
    | _ => none
  | .arrayGet ty =>
    match s.stack with
    | .i32 index :: .array known elements :: stack =>
      if m.isSubtype known ty then (elements[index.toNat]?).map fun value => { s with stack := value :: stack } else none
    | _ => none
  | .arrayNewFixed ty length =>
    if s.stack.length < length.toNat then none
    else some { s with stack := .array ty (s.stack.take length.toNat).reverse :: s.stack.drop length.toNat }
  | .call function => (m.functionType? function).bind fun ty => callWith m invoke function ty s.stack s.calls
  | .callRef ty =>
    match s.stack with
    | .func function :: stack => callWith m invoke function ty stack s.calls
    | _ => none
  | _ => none

/-- An instruction run or passed over. -/
def stepInstr (s : State) (instr : Instr) : Option State :=
  match s.mode, instr with
  | .running, instr => execute m invoke args s instr
  | .toElse depth, .block _ | .toElse depth, .loop_ _ | .toElse depth, .if_ _ | .toElse depth, .tryTable .. =>
    some { s with mode := .toElse (depth + 1) }
  | .toElse depth, .else_ => some { s with mode := if depth = 0 then .running else .toElse depth }
  | .toElse depth, .end_ => some { s with mode := if depth = 0 then .running else .toElse (depth - 1) }
  | .toElse _, _ => some s
  | .toEnd depth, .block _ | .toEnd depth, .loop_ _ | .toEnd depth, .if_ _ | .toEnd depth, .tryTable .. =>
    some { s with mode := .toEnd (depth + 1) }
  | .toEnd depth, .end_ => some { s with mode := if depth = 0 then .running else .toEnd (depth - 1) }
  | .toEnd _, _ => some s

def runCode (code : Code) (s : State) : Option State := code.foldlM (stepInstr m invoke args) s

/-- What a function's body leaves and the calls it makes. -/
def runFunction (index : UInt32) : Option (List Value × List (UInt32 × List Value)) := do
  let slot ← m.slot? index
  let function ← slot
  let s ← runCode m invoke args function.code ⟨.running, [], []⟩
  return (s.stack.reverse, s.calls)

end Machine

/-- The value of a constant global. -/
def globalValue (m : Module) (index : UInt32) : Option Value := do
  let known ← m.globals[index.toNat]?
  let init ← known.init
  let s ← runCode m (fun _ _ => none) [] init ⟨.running, [], []⟩
  s.stack.head?

section Runs

variable {m : Module} {invoke : UInt32 → List Value → Option (List Value)} {args : List Value} {s s' : State}

@[simp] theorem runCode_nil : runCode m invoke args [] s = some s := rfl

theorem runCode_cons (instr : Instr) (code : Code) :
    runCode m invoke args (instr :: code) s = (stepInstr m invoke args s instr).bind (runCode m invoke args code) := rfl

theorem runCode_append (front rest : Code) :
    runCode m invoke args (front ++ rest) s = (runCode m invoke args front s).bind (runCode m invoke args rest) :=
  List.foldlM_append

theorem stepInstr_running (instr : Instr) {stack : List Value} {calls : List (UInt32 × List Value)} :
    stepInstr m invoke args ⟨.running, stack, calls⟩ instr = execute m invoke args ⟨.running, stack, calls⟩ instr := rfl

/-! What one instruction does, an equation for each instruction that the stubs use. -/

section Execute

variable {mode : Mode} {stack : List Value} {calls : List (UInt32 × List Value)} {value : Value}

theorem execute_localGet (index : UInt32) :
    execute m invoke args s (.localGet index) = (args[index.toNat]?).map s.push := rfl

theorem execute_i32Const (value : Int32) :
    execute m invoke args s (.i32Const value) = some (s.push (.i32 value.toUInt32)) := rfl

theorem execute_or (left right : UInt32) :
    execute m invoke args ⟨mode, .i32 right :: .i32 left :: stack, calls⟩ (.op OR32) =
      some ⟨mode, .i32 (left ||| right) :: stack, calls⟩ := rfl

theorem execute_refTest (nullable : Bool) (heap : HeapType) :
    execute m invoke args ⟨mode, value :: stack, calls⟩ (.refTest nullable heap) =
      some ⟨mode, .i32 (if m.isOf nullable heap value then 1 else 0) :: stack, calls⟩ := rfl

theorem execute_refCast (nullable : Bool) (heap : HeapType) :
    execute m invoke args ⟨mode, value :: stack, calls⟩ (.refCast nullable heap) =
      if m.isOf nullable heap value then some ⟨mode, value :: stack, calls⟩ else none := rfl

theorem execute_structGet (ty field known : UInt32) (fields : List Value) :
    execute m invoke args ⟨mode, .struct known fields :: stack, calls⟩ (.structGet ty field) =
      if m.isSubtype known ty then (fields[field.toNat]?).map fun value => ⟨mode, value :: stack, calls⟩ else none := rfl

theorem execute_arrayGet (ty index known : UInt32) (elements : List Value) :
    execute m invoke args ⟨mode, .i32 index :: .array known elements :: stack, calls⟩ (.arrayGet ty) =
      if m.isSubtype known ty then (elements[index.toNat]?).map fun value => ⟨mode, value :: stack, calls⟩ else none := rfl

theorem execute_arrayNewFixed (ty length : UInt32) :
    execute m invoke args ⟨mode, stack, calls⟩ (.arrayNewFixed ty length) =
      if stack.length < length.toNat then none
      else some ⟨mode, .array ty (stack.take length.toNat).reverse :: stack.drop length.toNat, calls⟩ := rfl

theorem execute_call (function : UInt32) :
    execute m invoke args s (.call function) =
      (m.functionType? function).bind fun ty => callWith m invoke function ty s.stack s.calls := rfl

theorem execute_callRef (ty function : UInt32) :
    execute m invoke args ⟨mode, .func function :: stack, calls⟩ (.callRef ty) =
      callWith m invoke function ty stack calls := rfl

end Execute

end Runs

/-! ### Subtypes -/

section Subtypes

variable {m : Module} {a b c : UInt32}

theorem isSubtype_self (m : Module) (a : UInt32) : m.isSubtype a a = true := by
  rw [Module.isSubtype, decide_eq_true rfl, Bool.true_or]

end Subtypes

end Krusty.Wasm
