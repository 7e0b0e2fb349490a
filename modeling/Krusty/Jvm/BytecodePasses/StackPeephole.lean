import Krusty.Jvm.FrameMachine
import Krusty.Jvm.BytecodePasses.RedundantNops
import Krusty.Jvm.StraightLine

/-! kotlinc's `StackPeepholeOptimizationsTransformer`: local rewrites of a value pushed only to be discarded or
reordered, repeated until none applies. -/
namespace Krusty.Jvm.BytecodePasses.StackPeephole

open Retaining

def iconst0 : UInt8 := 0x03
def iconst1 : UInt8 := 0x04
def lconst0 : UInt8 := 0x09
def lconst1 : UInt8 := 0x0a
def lload : UInt8 := 0x16
def fload : UInt8 := 0x17
def dload : UInt8 := 0x18
def aload : UInt8 := 0x19
def pop : UInt8 := 0x57
def pop2 : UInt8 := 0x58
def dup : UInt8 := 0x59
def dupX1 : UInt8 := 0x5a
def dup2 : UInt8 := 0x5c
def swap : UInt8 := 0x5f

/-- A pure push of one word. The opcodes are kotlinc's range, `aconst_null` through `fconst_2`. -/
def purePushOfSize1 : Insn LabelId → Bool
  | .op op => opRange 0x01 0x0d op
  | .int op _ => op == 0x10 || op == 0x11
  | .ldc constant => !constant.isWide
  | .var op _ => op == iload || op == fload || op == aload
  | .field op owner name desc => isUnitInstance op owner name desc
  | _ => false

def purePushOfSize2 : Insn LabelId → Bool
  | .op op => op == lconst0 || op == lconst1 || op == 0x0e || op == 0x0f
  | .ldc constant => constant.isWide
  | .var op _ => op == lload || op == dload
  | _ => false

def eliminatedByPop (insn : Insn LabelId) : Bool := purePushOfSize1 insn || insn == .op dup

def eliminatedByPop2 (insn : Insn LabelId) : Bool := purePushOfSize2 insn || insn == .op dup2

def compareInt : Insn LabelId → Bool
  | .method op owner name desc _ => isIntCompare op owner name desc
  | _ => false

/-- The labels a branch, switch or handler reaches: kotlinc's merge nodes. -/
def mergePoints (method : MethodNode) : List LabelId :=
  method.tryCatchBlocks.map TryCatchBlock.handler ++ method.instructions.flatMap Insn.jumpTargets

/-- The previous meaningful node: `nop`s, line numbers and labels no branch reaches are skipped; a label a
branch or handler reaches stops the search. -/
def previousMeaningful (nodes : List Node) (merges : List LabelId) : ℕ → Option ℕ
  | 0 => none
  | before + 1 =>
    match nodes[before]? with
    | some (.label label) => if label ∈ merges then none else previousMeaningful nodes merges before
    | some (.line _ _) => previousMeaningful nodes merges before
    | some (.insn insn) => if insn = .op nop then previousMeaningful nodes merges before else some before
    | none => none

/-- `none` is unreachable: the search finds only instructions. -/
def insnAt (nodes : List Node) (i : ℕ) : Option (Insn LabelId) :=
  match nodes[i]? with
  | some (.insn insn) => some insn
  | _ => none

section Rules

variable (nodes : List Node) (merges : List LabelId) (i : ℕ)

/-- `if<cond>` after `Intrinsics.compare` compares the inputs itself. -/
def onZeroJump (op : UInt8) (target : LabelId) : Option (List (ℕ × Insn LabelId)) := do
  let compared ← previousMeaningful nodes merges i
  let compare ← insnAt nodes compared
  if compareInt compare then some [(compared, .jump (op - ifeq + ifIcmpeq) target), (i, .op nop)] else none

/-- `if_icmp<cond>` against an explicit zero after `Intrinsics.compare` compares the inputs itself. -/
def onIntJump : Option (List (ℕ × Insn LabelId)) := do
  let zeroAt ← previousMeaningful nodes merges i
  let constant ← insnAt nodes zeroAt
  if constant ≠ .op iconst0 then none
  else do
    let compared ← previousMeaningful nodes merges zeroAt
    let compare ← insnAt nodes compared
    if compareInt compare then some [(compared, .op nop), (zeroAt, .op nop)] else none

def onPop : Option (List (ℕ × Insn LabelId)) := do
  let pushed ← previousMeaningful nodes merges i
  let push ← insnAt nodes pushed
  if eliminatedByPop push then some [(pushed, .op nop), (i, .op nop)]
  else if push = .op dupX1 then some [(pushed, .op swap), (i, .op nop)]
  else none

def onSwap : Option (List (ℕ × Insn LabelId)) := do
  let second ← previousMeaningful nodes merges i
  let first ← previousMeaningful nodes merges second
  let a ← insnAt nodes first
  let b ← insnAt nodes second
  if purePushOfSize1 a && purePushOfSize1 b then some [(i, .op nop), (first, b), (second, a)] else none

def onI2l : Option (List (ℕ × Insn LabelId)) := do
  let constant ← previousMeaningful nodes merges i
  let int ← insnAt nodes constant
  if int = .op iconst0 then some [(constant, .op lconst0), (i, .op nop)]
  else if int = .op iconst1 then some [(constant, .op lconst1), (i, .op nop)]
  else none

def onPop2 : Option (List (ℕ × Insn LabelId)) := do
  let pushed ← previousMeaningful nodes merges i
  let push ← insnAt nodes pushed
  if eliminatedByPop2 push then some [(pushed, .op nop), (i, .op nop)]
  else do
    let below ← previousMeaningful nodes merges pushed
    let push' ← insnAt nodes below
    if eliminatedByPop push && eliminatedByPop push' then
      some [(below, .op nop), (pushed, .op nop), (i, .op nop)]
    else none

/-- What the rules write when the loop comes to a node, if one applies. -/
def rewrite : Option (List (ℕ × Insn LabelId)) :=
  match nodes[i]? with
  | some (.insn (.jump op target)) =>
    if opRange ifeq ifle op then onZeroJump nodes merges i op target
    else if opRange ifIcmpeq ifIcmple op then onIntJump nodes merges i
    else none
  | some (.insn (.op op)) =>
    if op = pop then onPop nodes merges i
    else if op = swap then onSwap nodes merges i
    else if op = i2l then onI2l nodes merges i
    else if op = pop2 then onPop2 nodes merges i
    else none
  | _ => none

end Rules

/-- The nodes as rewritten so far, the places that became `nop`s, and whether this round changed any. -/
structure Round where
  nodes : List Node
  madeNops : List ℕ
  again : Bool

def Round.set (round : Round) (change : ℕ × Insn LabelId) : Round :=
  { round with
    nodes := round.nodes.set change.1 (.insn change.2)
    madeNops := if change.2 = .op nop then round.madeNops.insert change.1 else round.madeNops }

def visit (merges : List LabelId) (round : Round) (i : ℕ) : Round :=
  match rewrite round.nodes merges i with
  | some changes => { changes.foldl Round.set round with again := true }
  | none => round

def sweep (merges : List LabelId) (nodes : List Node) (madeNops : List ℕ) : Round :=
  (List.range nodes.length).foldl (visit merges) ⟨nodes, madeNops, false⟩

/-- Rounds until one changes nothing; `none` when `rounds` of them do not get there. -/
def settle (merges : List LabelId) : ℕ → Bool → List Node → List ℕ → Option (List Node × List ℕ × Bool)
  | 0, _, _, _ => none
  | rounds + 1, changed, nodes, madeNops =>
    let round := sweep merges nodes madeNops
    if round.again then settle merges rounds true round.nodes round.madeNops
    else some (round.nodes, round.madeNops, changed)

/-- Apply kotlinc's peephole rules; `true` when anything changed. Of the `nop`s made those go that nothing
requires. -/
def optimize (method : MethodNode) : Option (MethodNode × Bool) := do
  let (nodes, madeNops, changed) ←
    settle (mergePoints method) (method.nodes.length + 1) false method.nodes []
  if !changed then return (method, false)
  else
    let required ← RedundantNops.requiredNops { method with nodes }
    let removed := madeNops.filter fun k => RedundantNops.isNopAt nodes k && decide (k ∉ required)
    return ({ method with nodes := retain (fun k => decide (k ∉ removed)) nodes }, true)

end Krusty.Jvm.BytecodePasses.StackPeephole

/-! What each peephole rule puts for what, and that it stands for it. -/
namespace Krusty.Jvm.BytecodePasses.StackPeephole

/-- The instructions a rule looks at, and what is left of them but for the `nop`s. -/
inductive Rule : List (Insn LabelId) → List (Insn LabelId) → Prop
  | compareZero {compare : Insn LabelId} {op : UInt8} {target : LabelId} (hcompare : compareInt compare)
      (hop : opRange ifeq ifle op) : Rule [compare, .jump op target] [.jump (op - ifeq + ifIcmpeq) target]
  | compareConst {compare : Insn LabelId} {op : UInt8} {target : LabelId} (hcompare : compareInt compare)
      (hop : opRange ifIcmpeq ifIcmple op) : Rule [compare, .op iconst0, .jump op target] [.jump op target]
  | discard {push : Insn LabelId} (hpush : eliminatedByPop push) : Rule [push, .op pop] []
  | dupX1 : Rule [.op dupX1, .op pop] [.op swap]
  | exchange {a b : Insn LabelId} (ha : purePushOfSize1 a) (hb : purePushOfSize1 b) : Rule [a, b, .op swap] [b, a]
  | widenZero : Rule [.op iconst0, .op i2l] [.op lconst0]
  | widenOne : Rule [.op iconst1, .op i2l] [.op lconst1]
  | discardWide {push : Insn LabelId} (hpush : eliminatedByPop2 push) : Rule [push, .op pop2] []
  | discardBoth {push push' : Insn LabelId} (hpush : eliminatedByPop push) (hpush' : eliminatedByPop push')
      (hnarrow : eliminatedByPop2 push' = false) : Rule [push, push', .op pop2] []

/-- What the opcodes of one family have in common, case by case. -/
theorem opcode_families (op : UInt8) :
    (opRange 0x01 0x0f op → op = 0x01 ∨ opRange 0x02 0x08 op ∨ op = 0x09 ∨ op = 0x0a ∨ op = 0x0b ∨ op = 0x0c ∨
      op = 0x0d ∨ op = 0x0e ∨ op = 0x0f) ∧
    (opRange 0x02 0x08 op → purePushOfSize2 (.op op) = false) ∧
    (purePushOfSize1 (.op op) ∨ purePushOfSize2 (.op op) → opRange 0x01 0x0f op) ∧
    (purePushOfSize1 (.var op 0) ∨ purePushOfSize2 (.var op 0) → loadKind op ≠ none) ∧
    (opRange 0x57 0x5f op → op ≠ nop ∧ ¬ op ≤ 0x0f) ∧
    (opRange ifeq ifle op → op ≠ gotoOp ∧ op ≠ jsr ∧ opRange ifIcmpeq ifIcmple (op - ifeq + ifIcmpeq) ∧
      op - ifeq + ifIcmpeq - ifIcmpeq = op - ifeq) ∧
    (opRange ifIcmpeq ifIcmple op → op ≠ gotoOp ∧ op ≠ jsr ∧ ¬ opRange ifeq ifle op) := by
  and_intros
  all_goals
    revert op
    exact forall_opcode (by decide +kernel)

variable {op : UInt8}

section Effects

variable {R W X O V : Type} (env : Env R W X O V) (f : Jvm.Frame R W)

def pushing (v : StackValue R) : Jvm.Frame R W := { f with toOperands := f.toOperands.push v }

/-- The value a pure push puts on the stack. -/
def pushed : Insn LabelId → Option (StackValue R)
  | .op op => constantOp op
  | .int _ operand => some (.int operand)
  | .ldc constant => some (env.loaded constant)
  | .var op slot => (loadKind op).bind fun kind => f.load kind slot.toNat
  | .field _ _ _ _ => some (.ref (some env.unit))
  | _ => none

theorem constantOp_ne_none (h : opRange 0x01 0x0f op) : ∃ v : StackValue R, constantOp op = some v := by
  have hop := (opcode_families op).1 h
  unfold constantOp
  split_ifs <;> first | exact ⟨_, rfl⟩ | simp_all

variable {f} {v : StackValue R}

variable (f) in
theorem execute_constant (h : constantOp op = some v) :
    f.execute env (.op op : Insn LabelId).shape = .next (pushing f v) := by
  have hnop : op ≠ nop := by
    rintro rfl
    cases h
  change (env.operate (.op op) f.toOperands).map _ = _
  simp only [Env.operate, if_neg hnop, h]
  rfl

variable {insn : Insn LabelId}

theorem execute_push (h : purePushOfSize1 insn ∨ purePushOfSize2 insn) :
    f.execute env insn.shape = match pushed env f insn with
      | some v => .next (pushing f v)
      | none => .stuck := by
  cases insn with
  | op op =>
    obtain ⟨v, hv⟩ := constantOp_ne_none (R := R) ((opcode_families op).2.2.1 h)
    simp only [pushed, hv, execute_constant env f hv]
  | int op operand =>
    have hop : op = 0x10 ∨ op = 0x11 := by simpa [purePushOfSize1, purePushOfSize2] using h
    change (env.operate (.int op operand) f.toOperands).map _ = _
    simp only [Env.operate, if_pos hop]
    rfl
  | ldc constant => rfl
  | var op slot =>
    cases hload : loadKind op with
    | none =>
      exact absurd hload ((opcode_families op).2.2.2.1 h)
    | some kind =>
      change f.execute env (.var op slot) = _
      simp only [Jvm.Frame.execute, pushed, hload, Option.bind_some]
      cases f.load kind slot.toNat <;> rfl
  | field op owner name desc =>
    have hunit : isUnitInstance op owner name desc := by simpa [purePushOfSize1, purePushOfSize2] using h
    change (env.operate (.field op owner name desc) f.toOperands).map _ = _
    simp only [Env.operate, if_pos hunit]
    rfl
  | _ => simp [purePushOfSize1, purePushOfSize2] at h

/-- What a pure push pushes depends on the locals alone. -/
theorem pushed_withOperands (s : Operands R W) (insn : Insn LabelId) :
    pushed env { f with toOperands := s } insn = pushed env f insn := by
  cases insn <;> rfl

variable (f) in
theorem execute_shuffle (op : UInt8) (h : opRange 0x57 0x5f op) :
    f.execute env (.op op : Insn LabelId).shape = match shuffle op f.stack with
      | some stack => .next { f with stack }
      | none => .stuck := by
  have hop := (opcode_families op).2.2.2.2.1 h
  have hconstant : constantOp (R := R) op = none := by
    by_contra hsome
    obtain ⟨v, hv⟩ := Option.ne_none_iff_exists'.mp hsome
    exact hop.2 (constantOp_le hv)
  change (env.operate (.op op) f.toOperands).map _ = _
  simp only [Env.operate, if_neg hop.1, hconstant, if_pos h, Operands.settle]
  cases shuffle op f.stack <;> rfl

theorem execute_compare (h : compareInt insn) : f.execute env insn.shape = match f.stack with
      | .int b :: .int a :: rest => .next { f with stack := .int (intrinsicsCompare a b) :: rest }
      | _ => .stuck := by
  cases insn with
  | method op owner name desc interface =>
    change (env.operate (.method op owner name desc interface) f.toOperands).map _ = _
    simp only [Env.operate, if_pos (show isIntCompare op owner name desc from h)]
    split <;> (try split) <;> simp_all [Effect.map]
  | _ => cases h

theorem execute_zeroJump (target : LabelId) (h : opRange ifeq ifle op) :
    f.execute env (.jump op target : Insn LabelId).shape = match f.stack with
      | .int a :: rest => if compares (op - ifeq) a 0 then .branch 0 { f with stack := rest }
        else .next { f with stack := rest }
      | _ => .stuck := by
  have hop := (opcode_families op).2.2.2.2.2.1 h
  change (env.operate (.jump op ()) f.toOperands).map _ = _
  simp only [Env.operate, if_neg hop.1, if_neg hop.2.1, if_pos h]
  split <;> (try split) <;> simp_all [Effect.map, Operands.jump, apply_ite]

theorem execute_intJump (target : LabelId) (h : opRange ifIcmpeq ifIcmple op) :
    f.execute env (.jump op target : Insn LabelId).shape = match f.stack with
      | .int b :: .int a :: rest => if compares (op - ifIcmpeq) a b then .branch 0 { f with stack := rest }
        else .next { f with stack := rest }
      | _ => .stuck := by
  have hop := (opcode_families op).2.2.2.2.2.2 h
  change (env.operate (.jump op ()) f.toOperands).map _ = _
  simp only [Env.operate, if_neg hop.1, if_neg hop.2.1, if_neg hop.2.2, if_pos h]
  split <;> (try split) <;> simp_all [Effect.map, Operands.jump, apply_ite]

/-- A comparison with zero of what `Intrinsics.compare` returns is the comparison of its arguments. -/
theorem compares_intrinsicsCompare (k : UInt8) (a b : Int32) :
    compares k (intrinsicsCompare a b) 0 = compares k a b := by
  have heq : a = b ↔ a.toInt = b.toInt := Int32.toInt_inj.symm
  rcases Int.lt_trichotomy a.toInt b.toInt with h | h | h
  · have hcompare : intrinsicsCompare a b = -1 := by
      rw [intrinsicsCompare, if_pos (Int32.lt_iff_toInt_lt.mpr h)]
    rw [hcompare]
    simp [compares, Int32.lt_iff_toInt_lt, Int32.le_iff_toInt_le, heq, beq_eq_decide, bne, h, h.ne, h.le,
      h.not_gt, h.not_ge]
  · obtain rfl := heq.mpr h
    have hcompare : intrinsicsCompare a a = 0 := by
      rw [intrinsicsCompare, if_neg Int32.lt_irrefl, if_pos rfl]
    rw [hcompare]
    simp [compares]
  · have hcompare : intrinsicsCompare a b = 1 := by
      rw [intrinsicsCompare, if_neg fun hlt => (Int32.lt_iff_toInt_lt.mp hlt).not_gt h,
        if_neg fun hab => h.ne' (heq.mp hab)]
    rw [hcompare]
    simp [compares, Int32.lt_iff_toInt_lt, Int32.le_iff_toInt_le, heq, beq_eq_decide, bne, h, h.ne', h.le,
      h.not_gt, h.not_ge]

section Shuffles

variable {a b : StackValue R} {rest : List (StackValue R)}

theorem shuffle_pop : shuffle pop (a :: rest) = if a.isWide then none else some rest := by
  cases h : a.isWide <;> cases rest <;> simp [shuffle, h, pop]

theorem shuffle_dup : shuffle dup (a :: rest) = if a.isWide then none else some (a :: a :: rest) := by
  cases h : a.isWide <;> cases rest <;> simp [shuffle, h, dup]

theorem shuffle_pop2_wide (h : a.isWide) : shuffle pop2 (a :: rest) = some rest := by
  simp [shuffle, h, pop2]

theorem shuffle_pop2 (h : a.isWide = false) :
    shuffle pop2 (a :: b :: rest) = if b.isWide then none else some rest := by
  cases h' : b.isWide <;> simp [shuffle, h, h', pop2]

theorem shuffle_dup2_wide (h : a.isWide) : shuffle dup2 (a :: rest) = some (a :: a :: rest) := by
  simp [shuffle, h, dup2]

theorem shuffle_dup2 (h : a.isWide = false) :
    shuffle dup2 (a :: b :: rest) = if b.isWide then none else some (a :: b :: a :: b :: rest) := by
  cases h' : b.isWide <;> simp [shuffle, h, h', dup2]

theorem shuffle_swap : shuffle swap (a :: b :: rest) =
    if a.isWide || b.isWide then none else some (b :: a :: rest) := by
  cases h : a.isWide <;> cases h' : b.isWide <;> simp [shuffle, h, h', swap]

theorem shuffle_dupX1 : shuffle dupX1 (a :: b :: rest) =
    if a.isWide || b.isWide then none else some (a :: b :: a :: rest) := by
  cases h : a.isWide <;> cases h' : b.isWide <;> simp [shuffle, h, h', dupX1]

theorem shuffle_single (h : op = swap ∨ op = dupX1) : shuffle op [a] = none := by
  rcases h with rfl | rfl <;> cases h : a.isWide <;> simp [shuffle, h, swap, dupX1]

end Shuffles

theorem load_kind {kind : Kind} {slot : ℕ} (h : f.load kind slot = some v) : v.kind = kind := by
  unfold Jvm.Frame.load at h
  split at h
  · split_ifs at h with hkind
    · split at h <;> cases h
      exact hkind
    · cases h
      exact hkind
  · cases h

theorem constantOp_isWide (h : constantOp op = some v) : v.isWide = purePushOfSize2 (.op op) := by
  unfold constantOp at h
  split_ifs at h with hnull hrange
  · subst hnull
    cases h
    rfl
  · cases h
    exact ((opcode_families op).2.1 hrange).symm
  all_goals
    subst op
    cases h
    rfl

theorem loadKind_isWide {kind : Kind} {slot : UInt16} (h : loadKind op = some kind) :
    kind.isWide = purePushOfSize2 (.var op slot) := by
  unfold loadKind kindFrom at h
  split_ifs at h
  all_goals
    subst op
    cases h
    rfl

theorem loaded_isWide (constant : Constant) : (env.loaded constant).isWide = constant.isWide := by
  cases constant <;> rfl

/-- A pure push is of the size the code takes it for, but for `lconst` among those of one word. -/
theorem pushed_isWide (h : purePushOfSize1 insn ∨ purePushOfSize2 insn)
    (hpushed : pushed env f insn = some v) : v.isWide = purePushOfSize2 insn := by
  cases insn with
  | op op => exact constantOp_isWide hpushed
  | int op operand =>
    cases hpushed
    rfl
  | ldc constant =>
    cases hpushed
    exact loaded_isWide env constant
  | var op slot =>
    obtain ⟨kind, hkind, hload⟩ := Option.bind_eq_some_iff.mp hpushed
    rw [StackValue.isWide, load_kind hload]
    exact loadKind_isWide hkind
  | field op owner name desc =>
    cases hpushed
    rfl
  | _ => cases hpushed

/-- A push the `pop` rules drop puts one value on the stack, a narrow one unless `pop2` drops it too. -/
theorem execute_eliminatedByPop (h : eliminatedByPop insn) :
    f.execute env insn.shape = .stuck ∨ ∃ v, f.execute env insn.shape = .next (pushing f v) ∧
      (eliminatedByPop2 insn = false → v.isWide = false) := by
  rw [eliminatedByPop, Bool.or_eq_true, beq_iff_eq] at h
  rcases h with h | rfl
  · rw [execute_push env (.inl h)]
    cases hpushed : pushed env f insn with
    | none => exact .inl rfl
    | some v =>
      refine .inr ⟨v, rfl, fun hnarrow => ?_⟩
      rw [pushed_isWide env (.inl h) hpushed]
      exact (Bool.or_eq_false_iff.mp hnarrow).1
  · rw [execute_shuffle env f dup (by decide)]
    cases hstack : f.stack with
    | nil => exact .inl rfl
    | cons a rest =>
      rw [shuffle_dup]
      cases hwide : a.isWide with
      | true => exact .inl rfl
      | false =>
        refine .inr ⟨a, ?_, fun _ => hwide⟩
        simp [pushing, Operands.push, hstack]

/-- What a push the `pop2` rule drops puts on the stack is two words. -/
theorem execute_eliminatedByPop2 (h : eliminatedByPop2 insn) :
    f.execute env insn.shape = .stuck ∨ ∃ stack, f.execute env insn.shape = .next { f with stack } ∧
      shuffle pop2 stack = some f.stack := by
  rw [eliminatedByPop2, Bool.or_eq_true, beq_iff_eq] at h
  rcases h with h | rfl
  · rw [execute_push env (.inr h)]
    cases hpushed : pushed env f insn with
    | none => exact .inl rfl
    | some v =>
      have hwide := pushed_isWide env (.inr h) hpushed
      exact .inr ⟨v :: f.stack, rfl, shuffle_pop2_wide (hwide.trans h)⟩
  · rw [execute_shuffle env f dup2 (by decide)]
    cases hstack : f.stack with
    | nil => exact .inl rfl
    | cons a rest =>
      cases hwide : a.isWide with
      | true =>
        rw [shuffle_dup2_wide hwide]
        exact .inr ⟨_, rfl, shuffle_pop2_wide hwide⟩
      | false =>
        cases rest with
        | nil =>
          left
          simp [shuffle, hwide, dup2]
        | cons b rest =>
          rw [shuffle_dup2 hwide]
          cases hwide' : b.isWide with
          | true => exact .inl rfl
          | false =>
            refine .inr ⟨_, rfl, ?_⟩
            rw [shuffle_pop2 hwide, hwide']
            rfl

end Effects

section Stands

variable {R W X O V : Type} (env : Env R W X O V)

variable {env} {f : Jvm.Frame R W}

theorem line_jump {target : LabelId} {rest : List Node} {f' : Jvm.Frame R W}
    (h : f.execute env (.jump op target : Insn LabelId).shape = .branch 0 f') :
    Line env.machine (.insn (.jump op target) :: rest) f (.jumps (some target) f') := by
  have hline : Line env.machine (.insn (.jump op target) :: rest) f
      (.jumps (Insn.jump op target).jumpTargets[0]? f') := .branch h
  exact hline

theorem stands_compareZero {compare : Insn LabelId} (target : LabelId) (hcompare : compareInt compare)
    (hop : opRange ifeq ifle op) : Stands env.machine [.insn compare, .insn (.jump op target)]
      [.insn (.jump (op - ifeq + ifIcmpeq) target)] := by
  intro f
  have hop' := ((opcode_families op).2.2.2.2.2.1 hop).2.2
  have hexec := execute_compare env (f := f) hcompare
  have hint := execute_intJump env (f := f) target hop'.1
  rw [hop'.2] at hint
  split at hexec
  case h_1 b a rest hstack =>
    rw [hstack] at hint
    have hjump := execute_zeroJump env (f := { f with stack := .int (intrinsicsCompare a b) :: rest }) target hop
    dsimp only at hint hjump
    rw [compares_intrinsicsCompare] at hjump
    right
    cases hholds : compares (op - ifeq) a b with
    | true =>
      rw [hholds] at hint hjump
      exact ⟨.jumps (some target) { f with stack := rest }, .next hexec rfl (line_jump hjump), line_jump hint⟩
    | false =>
      rw [hholds] at hint hjump
      exact ⟨.falls { f with stack := rest }, .next hexec rfl (.next hjump rfl (.nil _)), .next hint rfl (.nil _)⟩
  case h_2 => exact .inl (.stuck hexec)

theorem stands_compareConst {compare : Insn LabelId} (target : LabelId) (hcompare : compareInt compare)
    (hop : opRange ifIcmpeq ifIcmple op) :
    Stands env.machine [.insn compare, .insn (.op iconst0), .insn (.jump op target)] [.insn (.jump op target)] := by
  intro f
  have hexec := execute_compare env (f := f) hcompare
  have hint := execute_intJump env (f := f) target hop
  split at hexec
  case h_1 b a rest hstack =>
    rw [hstack] at hint
    have hzero := execute_constant env { f with stack := .int (intrinsicsCompare a b) :: rest }
      (show constantOp iconst0 = some (.int 0) from rfl)
    have hjump := execute_intJump env
      (f := pushing { f with stack := .int (intrinsicsCompare a b) :: rest } (.int 0)) target hop
    dsimp only [pushing, Operands.push] at hint hjump
    rw [compares_intrinsicsCompare] at hjump
    right
    cases hholds : compares (op - ifIcmpeq) a b with
    | true =>
      rw [hholds] at hint hjump
      exact ⟨.jumps (some target) { f with stack := rest }, .next hexec rfl (.next hzero rfl (line_jump hjump)),
        line_jump hint⟩
    | false =>
      rw [hholds] at hint hjump
      exact ⟨.falls { f with stack := rest }, .next hexec rfl (.next hzero rfl (.next hjump rfl (.nil _))),
        .next hint rfl (.nil _)⟩
  case h_2 => exact .inl (.stuck hexec)

theorem stands_discard {push : Insn LabelId} (hpush : eliminatedByPop push) :
    Stands env.machine [.insn push, .insn (.op pop)] [] := by
  intro f
  obtain hstuck | ⟨v, hnext, -⟩ := execute_eliminatedByPop env (f := f) hpush
  · exact .inl (.stuck hstuck)
  · have hpop := execute_shuffle env (pushing f v) pop (by decide)
    dsimp only [pushing, Operands.push] at hpop
    rw [shuffle_pop] at hpop
    cases hwide : v.isWide with
    | true =>
      rw [hwide] at hpop
      exact .inl (.next hnext (.stuck hpop))
    | false =>
      rw [hwide] at hpop
      exact .inr ⟨.falls f, .next hnext rfl (.next hpop rfl (.nil _)), .nil f⟩

theorem stands_discardWide {push : Insn LabelId} (hpush : eliminatedByPop2 push) :
    Stands env.machine [.insn push, .insn (.op pop2)] [] := by
  intro f
  obtain hstuck | ⟨stack, hnext, hshuffle⟩ := execute_eliminatedByPop2 env (f := f) hpush
  · exact .inl (.stuck hstuck)
  · have hpop := execute_shuffle env { f with stack } pop2 (by decide)
    dsimp only at hpop
    rw [hshuffle] at hpop
    exact .inr ⟨.falls f, .next hnext rfl (.next hpop rfl (.nil _)), .nil f⟩

theorem stands_discardBoth {push push' : Insn LabelId} (hpush : eliminatedByPop push) (hpush' : eliminatedByPop push')
    (hnarrow : eliminatedByPop2 push' = false) :
    Stands env.machine [.insn push, .insn push', .insn (.op pop2)] [] := by
  intro f
  obtain hstuck | ⟨v, hnext, -⟩ := execute_eliminatedByPop env (f := f) hpush
  · exact .inl (.stuck hstuck)
  obtain hstuck | ⟨v', hnext', hv'⟩ := execute_eliminatedByPop env (f := pushing f v) hpush'
  · exact .inl (.next hnext (.stuck hstuck))
  have hpop := execute_shuffle env (pushing (pushing f v) v') pop2 (by decide)
  dsimp only [pushing, Operands.push] at hpop
  rw [shuffle_pop2 (hv' hnarrow)] at hpop
  cases hwide : v.isWide with
  | true =>
    rw [hwide] at hpop
    exact .inl (.next hnext (.next hnext' (.stuck hpop)))
  | false =>
    rw [hwide] at hpop
    exact .inr ⟨.falls f, .next hnext rfl (.next hnext' rfl (.next hpop rfl (.nil _))), .nil f⟩

theorem stands_dupX1 : Stands env.machine [.insn (.op dupX1), .insn (.op pop)] [.insn (.op swap)] := by
  intro f
  have hdup := execute_shuffle env f dupX1 (by decide)
  have hswap := execute_shuffle env f swap (by decide)
  match hstack : f.stack with
  | [] =>
    rw [hstack] at hdup
    exact .inl (.stuck hdup)
  | [a] =>
    rw [hstack, shuffle_single (.inr rfl)] at hdup
    exact .inl (.stuck hdup)
  | a :: b :: rest =>
    rw [hstack, shuffle_dupX1] at hdup
    rw [hstack, shuffle_swap] at hswap
    cases hwide : a.isWide || b.isWide with
    | true =>
      rw [hwide] at hdup
      exact .inl (.stuck hdup)
    | false =>
      rw [hwide] at hdup hswap
      have hpop := execute_shuffle env { f with stack := a :: b :: a :: rest } pop (by decide)
      dsimp only at hpop
      rw [shuffle_pop, (Bool.or_eq_false_iff.mp hwide).1] at hpop
      exact .inr ⟨.falls { f with stack := b :: a :: rest }, .next hdup rfl (.next hpop rfl (.nil _)),
        .next hswap rfl (.nil _)⟩

theorem stands_exchange {a b : Insn LabelId} (ha : purePushOfSize1 a) (hb : purePushOfSize1 b) :
    Stands env.machine [.insn a, .insn b, .insn (.op swap)] [.insn b, .insn a] := by
  intro f
  have hfirst := execute_push env (f := f) (.inl ha)
  cases hv : pushed env f a with
  | none =>
    rw [hv] at hfirst
    exact .inl (.stuck hfirst)
  | some v =>
    rw [hv] at hfirst
    have hsecond := execute_push env (f := pushing f v) (.inl hb)
    have hfirst' := execute_push env (f := f) (.inl hb)
    rw [show pushed env (pushing f v) b = pushed env f b from pushed_withOperands env _ b] at hsecond
    cases hw : pushed env f b with
    | none =>
      rw [hw] at hsecond
      exact .inl (.next hfirst (.stuck hsecond))
    | some w =>
      rw [hw] at hsecond hfirst'
      have hsecond' := execute_push env (f := pushing f w) (.inl ha)
      rw [show pushed env (pushing f w) a = pushed env f a from pushed_withOperands env _ a, hv] at hsecond'
      have hswap := execute_shuffle env (pushing (pushing f v) w) swap (by decide)
      dsimp only [pushing, Operands.push] at hswap
      rw [shuffle_swap] at hswap
      cases hwide : w.isWide || v.isWide with
      | true =>
        rw [hwide] at hswap
        exact .inl (.next hfirst (.next hsecond (.stuck hswap)))
      | false =>
        rw [hwide] at hswap
        exact .inr ⟨.falls (pushing (pushing f w) v),
          .next hfirst rfl (.next hsecond rfl (.next hswap rfl (.nil _))),
          .next hfirst' rfl (.next hsecond' rfl (.nil _))⟩

variable (env) in
theorem execute_i2l (a : Int32) : (pushing f (.int a)).execute env (.op i2l : Insn LabelId).shape =
    .next (pushing f (.long a.toInt64)) := rfl

theorem stands_widen {int long : UInt8} {a : Int32} (hint : constantOp (R := R) int = some (.int a))
    (hlong : constantOp (R := R) long = some (.long a.toInt64)) :
    Stands env.machine [.insn (.op int), .insn (.op i2l)] [.insn (.op long)] := by
  intro f
  exact .inr ⟨.falls (pushing f (.long a.toInt64)),
    .next (execute_constant env f hint) rfl (.next (execute_i2l env a) rfl (.nil _)),
    .next (execute_constant env f hlong) rfl (.nil _)⟩

/-- What a rule leaves does what was there, wherever that is not stuck. -/
theorem Rule.stands {insns insns' : List (Insn LabelId)} (h : Rule insns insns') :
    Stands env.machine (insns.map .insn) (insns'.map .insn) := by
  cases h with
  | compareZero hcompare hop => exact stands_compareZero _ hcompare hop
  | compareConst hcompare hop => exact stands_compareConst _ hcompare hop
  | discard hpush => exact stands_discard hpush
  | dupX1 => exact stands_dupX1
  | exchange ha hb => exact stands_exchange ha hb
  | widenZero => exact stands_widen (a := 0) rfl rfl
  | widenOne => exact stands_widen (a := 1) rfl rfl
  | discardWide hpush => exact stands_discardWide hpush
  | discardBoth hpush hpush' hnarrow => exact stands_discardBoth hpush hpush' hnarrow

end Stands

end Krusty.Jvm.BytecodePasses.StackPeephole
