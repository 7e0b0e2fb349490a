import Krusty.Jvm.Execution
import Krusty.Jvm.Opcodes

/-! The machine of the class-file format: typed values on an operand stack and in local slots. What an
instruction does beyond its frame is a parameter. -/
namespace Krusty.Jvm

/-- References are abstract, and `none` is `null`. -/
inductive StackValue (R : Type) where
  | int (value : Int32)
  | float (bits : UInt32)
  | long (value : Int64)
  | double (bits : UInt64)
  | ref (target : Option R)

inductive Kind where
  | int
  | float
  | long
  | double
  | ref
  deriving DecidableEq

namespace StackValue

variable {R : Type}

def kind : StackValue R → Kind
  | int _ => .int
  | float _ => .float
  | long _ => .long
  | double _ => .double
  | ref _ => .ref

end StackValue

def Kind.isWide : Kind → Bool
  | long | double => true
  | _ => false

def StackValue.isWide {R : Type} (v : StackValue R) : Bool := v.kind.isWide

/-- What a local slot holds: nothing yet, a value, or the second word of the wide value below it. -/
inductive LocalSlot (R : Type) where
  | unset
  | value (v : StackValue R)
  | second

/-- The operand stack, its top first, and the world outside the frame. -/
structure Operands (R W : Type) where
  stack : List (StackValue R)
  world : W

structure Frame (R W : Type) extends Operands R W where
  locals : ℕ → LocalSlot R

def Effect.map {S T X O : Type} (f : S → T) : Effect S X O → Effect T X O
  | next s => .next (f s)
  | branch k s => .branch k (f s)
  | throws x s => .throws x (f s)
  | returns o => .returns o
  | stuck => .stuck

/-- The opcode's kind among the five that follow `first` in the order of the format. -/
def kindFrom (first op : UInt8) : Option Kind :=
  if op = first then some .int
  else if op = first + 1 then some .long
  else if op = first + 2 then some .float
  else if op = first + 3 then some .double
  else if op = first + 4 then some .ref
  else none

/-- The kind `iload`…`aload` load. -/
def loadKind : UInt8 → Option Kind := kindFrom iload

/-- The kind `istore`…`astore` store. -/
def storeKind : UInt8 → Option Kind := kindFrom istore

/-- The constant `aconst_null`…`dconst_1` push. -/
def constantOp {R : Type} (op : UInt8) : Option (StackValue R) :=
  if op = 0x01 then some (.ref none)
  else if opRange 0x02 0x08 op then some (.int (op.toUInt32.toInt32 - 3))
  else if op = 0x09 then some (.long 0)
  else if op = 0x0a then some (.long 1)
  else if op = 0x0b then some (.float 0)
  else if op = 0x0c then some (.float 0x3f800000)
  else if op = 0x0d then some (.float 0x40000000)
  else if op = 0x0e then some (.double 0)
  else if op = 0x0f then some (.double 0x3ff0000000000000)
  else none

/-- What `pop`…`swap` make of the stack; `none` where a word would be split from its pair. -/
def shuffle {R : Type} (op : UInt8) (stack : List (StackValue R)) : Option (List (StackValue R)) :=
  match stack with
  | [] => none
  | a :: rest =>
    if a.isWide then
      if op = 0x58 then some rest
      else if op = 0x5c then some (a :: a :: rest)
      else match rest with
        | [] => none
        | b :: rest =>
          if op = 0x5d then if b.isWide then none else some (a :: b :: a :: rest)
          else if op = 0x5e then
            if b.isWide then some (a :: b :: a :: rest)
            else match rest with
              | c :: rest => if c.isWide then none else some (a :: b :: c :: a :: rest)
              | [] => none
          else none
    else if op = 0x57 then some rest
    else if op = 0x59 then some (a :: a :: rest)
    else match rest with
      | [] => none
      | b :: rest =>
        if b.isWide then if op = 0x5b then some (a :: b :: a :: rest) else none
        else if op = 0x58 then some rest
        else if op = 0x5a then some (a :: b :: a :: rest)
        else if op = 0x5c then some (a :: b :: a :: b :: rest)
        else if op = 0x5f then some (b :: a :: rest)
        else match rest with
          | [] => none
          | c :: rest =>
            if op = 0x5b then if c.isWide then none else some (a :: b :: c :: a :: rest)
            else if op = 0x5d then if c.isWide then none else some (a :: b :: c :: a :: b :: rest)
            else if op = 0x5e then
              if c.isWide then some (a :: b :: c :: a :: b :: rest)
              else match rest with
                | d :: rest => if d.isWide then none else some (a :: b :: c :: d :: a :: b :: rest)
                | [] => none
            else none

/-- Comparison number `k` of `if<cond>` and `if_icmp<cond>`: `eq`, `ne`, `lt`, `ge`, `gt`, `le`. -/
def compares (k : UInt8) (a b : Int32) : Bool :=
  if k = 0 then a == b
  else if k = 1 then a != b
  else if k = 2 then decide (a < b)
  else if k = 3 then decide (b ≤ a)
  else if k = 4 then decide (b < a)
  else decide (a ≤ b)

/-- `kotlin.jvm.internal.Intrinsics.compare` of two ints. -/
def intrinsicsCompare (a b : Int32) : Int32 := if a < b then -1 else if a = b then 0 else 1

/-- The field `Unit.INSTANCE`. -/
def isUnitInstance (op : UInt8) (owner name desc : String) : Bool :=
  op = getstatic && owner = "kotlin/Unit" && name = "INSTANCE" && desc = "Lkotlin/Unit;"

/-- `Intrinsics.compare(Int, Int)`. -/
def isIntCompare (op : UInt8) (owner name desc : String) : Bool :=
  op = invokestatic && owner = "kotlin/jvm/internal/Intrinsics" && name = "compare" && desc = "(II)I"

/-- The world a frame runs in: the references behind constants, the instructions that do more than
move values, and exceptions. -/
structure Env (R W X O V : Type) where
  constant : Constant → R
  unit : R
  exec : Insn Unit → Operands R W → Effect (Operands R W) X O
  catches : Option String → X → W → Bool
  /-- The reference a handler finds on its stack. -/
  thrown : X → R
  uncaught : X → W → O
  view : W → V
  falls : ∀ {insn : Insn LabelId} {s s' : Operands R W}, exec insn.shape s = .next s' → insn.fallsThrough

namespace Operands

variable {R W X O : Type}

def push (v : StackValue R) (s : Operands R W) : Operands R W := { s with stack := v :: s.stack }

/-- The stack becomes what an instruction made of it. -/
def settle (s : Operands R W) : Option (List (StackValue R)) → Effect (Operands R W) X O
  | some stack => .next { s with stack }
  | none => .stuck

/-- A conditional jump that leaves `rest` on the stack. -/
def jump (s : Operands R W) (taken : Bool) (rest : List (StackValue R)) : Effect (Operands R W) X O :=
  if taken then .branch 0 { s with stack := rest } else .next { s with stack := rest }

end Operands

namespace Env

variable {R W X O V : Type} (env : Env R W X O V)

/-- The value `ldc` pushes. -/
def loaded : Constant → StackValue R
  | .int value => .int value
  | .float bits => .float bits
  | .long value => .long value
  | .double bits => .double bits
  | constant => .ref (some (env.constant constant))

/-- An instruction that leaves the locals alone. -/
def operate (insn : Insn Unit) (s : Operands R W) : Effect (Operands R W) X O :=
  match insn with
  | .op op =>
    if op = nop then .next s
    else match constantOp op with
      | some v => .next (s.push v)
      | none =>
        if opRange 0x57 0x5f op then s.settle (shuffle op s.stack)
        else if op = i2l then
          match s.stack with
          | .int a :: rest => .next { s with stack := .long a.toInt64 :: rest }
          | _ => .stuck
        else env.exec (.op op) s
  | .int op operand => if op = 0x10 ∨ op = 0x11 then .next (s.push (.int operand)) else env.exec (.int op operand) s
  | .ldc constant => .next (s.push (env.loaded constant))
  | .field op owner name desc =>
    if isUnitInstance op owner name desc then .next (s.push (.ref (some env.unit)))
    else env.exec (.field op owner name desc) s
  | .method op owner name desc interface =>
    if isIntCompare op owner name desc then
      match s.stack with
      | .int b :: .int a :: rest => .next { s with stack := .int (intrinsicsCompare a b) :: rest }
      | _ => .stuck
    else env.exec (.method op owner name desc interface) s
  | .jump op target =>
    if op = gotoOp then .branch 0 s
    else if op = jsr then .stuck
    else if opRange ifeq ifle op then
      match s.stack with
      | .int a :: rest => s.jump (compares (op - ifeq) a 0) rest
      | _ => .stuck
    else if opRange ifIcmpeq ifIcmple op then
      match s.stack with
      | .int b :: .int a :: rest => s.jump (compares (op - ifIcmpeq) a b) rest
      | _ => .stuck
    else env.exec (.jump op target) s
  | insn => env.exec insn s

end Env

namespace Frame

variable {R W X O V : Type}

/-- The value a load of `kind` finds; a wide one has its second word above it. -/
def load (f : Frame R W) (kind : Kind) (slot : ℕ) : Option (StackValue R) :=
  match f.locals slot with
  | .value v =>
    if v.kind = kind then
      if kind.isWide then
        match f.locals (slot + 1) with
        | .second => some v
        | _ => none
      else some v
    else none
  | _ => none

/-- The locals after a store. -/
def store (v : StackValue R) (slot : ℕ) (locals : ℕ → LocalSlot R) : ℕ → LocalSlot R := fun i =>
  if i = slot then .value v else if v.isWide ∧ i = slot + 1 then .second else locals i

/-- A load, a store or an `iinc`; nothing else touches the locals. -/
def execute (env : Env R W X O V) (insn : Insn Unit) (f : Frame R W) : Effect (Frame R W) X O :=
  match insn with
  | .var op slot =>
    match loadKind op with
    | some kind =>
      match f.load kind slot.toNat with
      | some v => .next { f with toOperands := f.toOperands.push v }
      | none => .stuck
    | none =>
      match storeKind op, f.stack with
      | some kind, v :: rest =>
        if v.kind = kind then .next { f with stack := rest, locals := store v slot.toNat f.locals } else .stuck
      | _, _ => .stuck
  | .iinc slot delta =>
    match f.locals slot.toNat with
    | .value (.int a) => .next { f with locals := store (.int (a + delta.toInt32)) slot.toNat f.locals }
    | _ => .stuck
  | insn => (env.operate insn f.toOperands).map fun s => { f with toOperands := s }

variable {env : Env R W X O V} {f f' : Frame R W}

theorem map_eq_next {S T : Type} {g : S → T} {effect : Effect S X O} {t : T}
    (h : effect.map g = .next t) : ∃ s, effect = .next s ∧ g s = t := by
  cases effect with
  | next s =>
    cases h
    exact ⟨s, rfl, rfl⟩
  | branch k s => cases h
  | throws x s => cases h
  | returns o => cases h
  | stuck => cases h

end Frame

section Falls

variable {R W X O V : Type} {env : Env R W X O V}

theorem constantOp_le {op : UInt8} {v : StackValue R} (h : constantOp op = some v) : op ≤ 0x0f := by
  unfold constantOp at h
  split_ifs at h with hnull hint
  · rw [hnull]
    decide
  · rw [opRange, Bool.and_eq_true, decide_eq_true_eq, decide_eq_true_eq] at hint
    exact UInt8.le_trans hint.2 (by decide)
  all_goals
    subst op
    decide

theorem falls_of_lt {op : UInt8} (h : op < ireturn) : (Insn.op op : Insn LabelId).fallsThrough := by
  have hne : op ≠ athrow := by
    rintro rfl
    exact absurd h (by decide)
  have hrange : opRange ireturn returnOp op = false := by
    rw [opRange, Bool.and_eq_false_iff]
    exact .inl (decide_eq_false (UInt8.not_le.mpr h))
  simp [Insn.fallsThrough, hne, hrange]

theorem operate_falls {insn : Insn LabelId} {s s' : Operands R W}
    (h : env.operate insn.shape s = .next s') : insn.fallsThrough := by
  cases insn with
  | op op =>
    cases hv : constantOp (R := R) op with
    | some v => exact falls_of_lt (UInt8.lt_of_le_of_lt (constantOp_le hv) (by decide))
    | none =>
      simp only [Insn.shape, Insn.map, Env.operate, hv] at h
      split_ifs at h with hnop hshuffle hi2l
      · exact falls_of_lt (hnop ▸ by decide)
      · rw [opRange, Bool.and_eq_true, decide_eq_true_eq, decide_eq_true_eq] at hshuffle
        exact falls_of_lt (UInt8.lt_of_le_of_lt hshuffle.2 (by decide))
      · exact falls_of_lt (hi2l ▸ by decide)
      · exact env.falls h
  | jump op target =>
    simp only [Insn.shape, Insn.map, Env.operate] at h
    split_ifs at h with hgoto hjsr <;> simp [Insn.fallsThrough, hgoto, hjsr]
  | tableSwitch low high default labels => exact env.falls h
  | lookupSwitch default keys labels => exact env.falls h
  | _ => rfl

theorem execute_falls {insn : Insn LabelId} {f f' : Frame R W}
    (h : f.execute env insn.shape = .next f') : insn.fallsThrough := by
  have hoperate : ∀ insn : Insn LabelId,
      (env.operate insn.shape f.toOperands).map (fun s => { f with toOperands := s }) = .next f' →
        insn.fallsThrough := by
    intro insn h
    obtain ⟨s, hs, -⟩ := Frame.map_eq_next h
    exact operate_falls hs
  cases insn with
  | var op slot => rfl
  | iinc slot delta => rfl
  | _ => exact hoperate _ h

end Falls

/-- The machine whose states are frames. -/
def Env.machine {R W X O V : Type} (env : Env R W X O V) : Machine (Frame R W) X O V where
  exec insn f := f.execute env insn
  catches type x f := env.catches type x f.world
  enter x f := { f with stack := [.ref (some (env.thrown x))] }
  uncaught x f := env.uncaught x f.world
  view f := env.view f.world
  exec_nop _ := rfl
  exec_goto _ := rfl
  falls := execute_falls

end Krusty.Jvm
