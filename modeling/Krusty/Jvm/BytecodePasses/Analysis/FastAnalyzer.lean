import Krusty.Jvm.MethodNode.Nodes
import Krusty.Jvm.Descriptors

/-! kotlinc's `FastMethodAnalyzer`: the forward analyzer the bytecode passes run their interpreters with. -/
namespace Krusty.Jvm.BytecodePasses

structure AnalyzerError where
  index : ℕ
  message : String
  deriving DecidableEq

/-- How an analysis ends without frames: an error it reports, or a panic on a malformed body. -/
inductive Halt where
  | panic
  | error (error : AnalyzerError)
  deriving DecidableEq

structure AnalyzerOptions where
  pruneExceptionEdges : Bool
  fastHandlers : Bool
  fastMerge : Bool
  inIndexOrder : Bool

/-- The state before one instruction: locals by slot, the operand stack bottom-first, and the method's
return value (`none` for `void`). -/
structure Frame (V : Type) where
  locals : List V
  stack : List V
  returnValue : Option V
  deriving DecidableEq

/-- What the analyzer asks of an interpreter. -/
structure Interpreter (V : Type) where
  newValue : Option String → Option V
  newEmptyValue : V
  newParameterValue : ℕ → String → V
  newExceptionValue : String → V
  mergeLocal : V → V → V
  mergeStack : V → V → V

/-- How a frame executes the instruction at a node. -/
abbrev Executor (V : Type) := ℕ → Insn LabelId → Frame V → Except AnalyzerError (Frame V)

/-- What the analysis knows of one node. -/
inductive Entry (V : Type) where
  | unreached
  /-- A path reaches the node, and the analysis did not keep its frame. -/
  | reached
  | recorded (locals stack : List V)
  deriving DecidableEq

/-- The nodes waiting to be visited: a stack with its top first, or a min-heap by node index. -/
inductive Queue where
  | stack (items : List ℕ)
  | ordered (items : List ℕ)

namespace Queue

def new (inIndexOrder : Bool) : Queue := if inIndexOrder then .ordered [] else .stack []

def items : Queue → List ℕ
  | .stack items | .ordered items => items

def push (index : ℕ) : Queue → Queue
  | .stack items => .stack (index :: items)
  | .ordered items => .ordered (index :: items)

def pop : Queue → Option (ℕ × Queue)
  | .stack [] => none
  | .stack (index :: items) => some (index, .stack items)
  | .ordered items => items.min?.map fun index => (index, .ordered (items.erase index))

def lowest (queue : Queue) : Option ℕ := queue.items.min?

def isOrdered : Queue → Bool
  | .ordered _ => true
  | .stack _ => false

end Queue

/-- A protected range by node index. -/
structure Range where
  start : ℕ
  stop : ℕ
  handler : ℕ
  catchType : String

section Method

variable (method : MethodNode) (options : AnalyzerOptions)

def usesSubroutines : Bool :=
  method.nodes.any fun
    | .insn insn => opcode insn == jsr || opcode insn == ret
    | _ => false

/-- A block's labels, looked up as the handlers are listed; `none` is a panic. -/
def rangeOf (block : TryCatchBlock) : Option Range := do
  let handler ← method.position block.handler
  let start ← method.position block.start
  let catchType := block.catchType.getD "java/lang/Throwable"
  if options.fastHandlers then
    return ⟨start, start, handler, catchType⟩
  else do
    let stop ← method.position block.stop
    if start ≤ stop then return ⟨start, stop, handler, catchType⟩ else none

/-- The handlers a node reaches, with the type each catches. -/
def handlersAt (ranges : List Range) (index : ℕ) : List (ℕ × String) :=
  ranges.filterMap fun range =>
    if options.fastHandlers then
      if index = range.start then some (range.handler, range.catchType) else none
    else
      match method.nodes[index]? with
      | some (.insn _) =>
        if range.start ≤ index ∧ index < range.stop then some (range.handler, range.catchType) else none
      | _ => none

def tcbStart (ranges : List Range) (index : ℕ) : Bool := ranges.any fun range => range.start + 1 == index

/-- Jump and switch targets and handler entries; `none` is a panic. -/
def mergeNodes : Option (List ℕ) := do
  let targets ← (method.instructions.flatMap Insn.jumpTargets).mapM method.position
  let handlers ← method.tryCatchBlocks.mapM fun block => method.position block.handler
  return targets ++ handlers

/-- The labels of a jump in the order kotlinc visits them: a table switch's cases reversed, after its
default. -/
def visitOrder : Insn LabelId → List LabelId
  | .tableSwitch _ _ default labels => default :: labels.reverse
  | insn => insn.jumpTargets

/-- Where control goes after `insn`, in the order kotlinc's analyzer queues the edges. -/
def successors (insn : Insn LabelId) (index : ℕ) : Option (List ℕ) := do
  let targets ← (visitOrder insn).mapM method.position
  return (if insn.fallsThrough then [index + 1] else []) ++ targets

variable {V : Type} (I : Interpreter V)

def accStatic : UInt16 := 0x0008

def argumentLocals : List String → List V → List V
  | [], locals => locals
  | argument :: arguments, locals =>
    let locals := locals ++ [I.newParameterValue locals.length argument]
    argumentLocals arguments (if descriptorSize argument = 2 then locals ++ [I.newEmptyValue] else locals)

def entryFrame (owner : String) : Except AnalyzerError (Frame V) :=
  let malformed : AnalyzerError := ⟨0, "malformed method descriptor " ++ method.desc⟩
  match returnType method.desc with
  | none => .error malformed
  | some ret =>
    match argumentTypes method.desc with
    | none => .error malformed
    | some arguments =>
      let receiver :=
        if method.access &&& accStatic = 0 then [I.newParameterValue 0 (ofInternalName owner)] else []
      let locals := argumentLocals I arguments receiver
      if locals.length > method.maxLocals.toNat then
        .error ⟨0, "the parameters exceed max_locals"⟩
      else
        .ok ⟨locals ++ List.replicate (method.maxLocals.toNat - locals.length) I.newEmptyValue, [],
          I.newValue (some ret)⟩

end Method

/-- The frames and the queue of a walk. `kept` says which nodes' frames the caller reads. -/
structure Worklist (V : Type) where
  count : ℕ
  frames : ℕ → Entry V
  queued : ℕ → Bool
  queue : Queue
  mergeNodes : List ℕ
  fastMerge : Bool

section Store

variable {V : Type} [DecidableEq V] (I : Interpreter V)

/-- Each value met with the one arriving beside it. -/
def meetAll (merge : V → V → V) : List V → List V → List V
  | mine :: rest, theirs :: arriving => merge mine theirs :: meetAll merge rest arriving
  | rest, _ => rest

namespace Worklist

variable (w : Worklist V)

def isRecorded (index : ℕ) : Bool :=
  match w.frames index with
  | .recorded _ _ => true
  | _ => false

def record (index : ℕ) (state : Frame V) : Worklist V :=
  { w with frames := Function.update w.frames index (.recorded state.locals state.stack) }

def markReached (index : ℕ) : Worklist V :=
  match w.frames index with
  | .unreached => { w with frames := Function.update w.frames index .reached }
  | _ => w

/-- Replace the frame before a node; `true` when it differs. -/
def replace (index : ℕ) (locals stack : List V) (state : Frame V) : Worklist V × Bool :=
  if locals = state.locals ∧ stack = state.stack then (w, false) else (w.record index state, true)

/-- Meet the frame before a node with an edge arriving; `true` when anything changed. -/
def merge (index : ℕ) (locals stack : List V) (state : Frame V) : Except String (Worklist V × Bool) :=
  if stack.length ≠ state.stack.length then .error "incompatible stack heights"
  else
    let met := meetAll I.mergeLocal locals state.locals
    let metStack := meetAll I.mergeStack stack state.stack
    .ok (w.record index ⟨met, metStack, state.returnValue⟩,
      decide (met ≠ locals) || decide (metStack ≠ stack))

def enqueue (index : ℕ) : Worklist V :=
  { w with queued := Function.update w.queued index true, queue := w.queue.push index }

def continuesTo (dest : ℕ) : Bool :=
  w.queue.isOrdered && decide (dest < w.count) && decide (dest ∉ w.mergeNodes) && !w.queued dest

def installUnqueued (dest : ℕ) (state : Frame V) : Worklist V × Bool :=
  match w.frames dest with
  | .recorded locals stack => w.replace dest locals stack state
  | _ => (w.record dest state, true)

/-- Record `state` as the frame before `dest`, queueing it when that changes what is known there. -/
def install (origin dest : ℕ) (state : Frame V) : Except Halt (Worklist V) := do
  if w.count ≤ dest then
    throw (.error ⟨origin, "execution falls off the end of the method"⟩)
  let (w, changed) ← match w.frames dest with
    | .recorded locals stack =>
      if w.fastMerge then pure (w, false)
      else if dest ∉ w.mergeNodes then pure (w.replace dest locals stack state)
      else match w.merge I dest locals stack state with
        | .ok merged => pure merged
        | .error message => throw (.error ⟨dest, message⟩)
    | _ => pure (w.record dest state, true)
  return if changed && !w.queued dest then w.enqueue dest else w

def installAll (origin : ℕ) (edges : List (ℕ × Frame V)) : Except Halt (Worklist V) :=
  edges.foldlM (fun w edge => w.install I origin edge.1 edge.2) w

end Worklist

end Store

section Walk

variable {V : Type} [DecidableEq V] (method : MethodNode) (options : AnalyzerOptions) (I : Interpreter V)
  (execute : Executor V) (keep : ℕ → Node → Bool) (ranges : List Range)

/-- The walk between two nodes: at a node whose frame is `scratch`, or about to take one off the queue. -/
structure Walk (V : Type) where
  work : Worklist V
  scratch : Frame V
  index : Option ℕ

def kept (index : ℕ) : Bool :=
  match method.nodes[index]? with
  | some node => keep index node
  | none => false

/-- What a node does with the frame before it: the frame after it, whether it falls through in line,
and the nodes its other edges lead to. -/
def leave (index : ℕ) (scratch : Frame V) : Except Halt (Frame V × Option ℕ × List ℕ) :=
  match method.nodes[index]? with
  | some (.insn insn) =>
    if opcode insn = nop then .ok (scratch, some (index + 1), [])
    else if opcode insn = returnOp then .ok (scratch, none, [])
    else
      match execute index insn scratch with
      | .error e => .error (.error e)
      | .ok scratch =>
        if insn.fallsThrough && !insn.isBranch then .ok (scratch, some (index + 1), [])
        else
          match successors method insn index with
          | none => .error .panic
          | some targets => .ok (scratch, none, targets)
  | some _ => .ok (scratch, some (index + 1), [])
  | none => .error .panic

/-- Whether a node's handlers see the frame before it. -/
def reachesHandlers (index : ℕ) : Bool :=
  (!options.pruneExceptionEdges ||
    (match method.nodes[index]? with
      | some (.insn insn) => opRange istore astore (opcode insn) || opcode insn == iincOp
      | _ => false) ||
    tcbStart ranges index) &&
    !(handlersAt method options ranges index).isEmpty

/-- The edges to a node's handlers, each with the frame before the node and the caught value. -/
def handlerEdges (index : ℕ) (frame : Frame V) : List (ℕ × Frame V) :=
  if reachesHandlers method options ranges index then
    (handlersAt method options ranges index).map fun (handler, catchType) =>
      (handler, { frame with stack := [I.newExceptionValue catchType] })
  else []

/-- Falling through to `dest`: carried on in line when the queue would hand `dest` out next anyway. -/
def fallInto (w : Worklist V) (index dest : ℕ) (scratch : Frame V) :
    Except Halt (Worklist V × Option ℕ) :=
  if w.continuesTo dest then
    if w.isRecorded dest || kept method keep dest then
      let (w, changed) := w.installUnqueued dest scratch
      .ok (w, if changed then some dest else none)
    else .ok (w.markReached dest, some dest)
  else do
    let w ← w.install I index dest scratch
    return (w, none)

/-- The fall-through edge, if control has one. -/
def goOn (w : Worklist V) (index : ℕ) (fallThrough : Option ℕ) (scratch : Frame V) :
    Except Halt (Worklist V × Option ℕ) :=
  match fallThrough with
  | some dest => fallInto method I keep w index dest scratch
  | none => .ok (w, none)

/-- After a node: go on to `next` unless something below it is queued, then queue it as well. -/
def advance (w : Worklist V) (scratch : Frame V) (next : Option ℕ) : Walk V :=
  match next with
  | none => ⟨w, scratch, none⟩
  | some dest =>
    if w.queue.lowest.all fun lowest => decide (dest < lowest) then ⟨w, scratch, some dest⟩
    else
      let w := if w.isRecorded dest then w else w.record dest scratch
      ⟨w.enqueue dest, scratch, none⟩

def visit (w : Worklist V) (index : ℕ) (before : Frame V) : Except Halt (Walk V) := do
  let (scratch, fallThrough, targets) ← leave method execute index before
  let w ← w.installAll I index (targets.map fun target => (target, scratch))
  let (w, next) ← goOn method I keep w index fallThrough scratch
  let w ← w.installAll I index (handlerEdges method options I ranges index before)
  return advance w scratch next

/-- One step: visit the node the walk is at, or take the next one off the queue; `none` when done. -/
def step (walk : Walk V) : Except Halt (Option (Walk V)) :=
  match walk.index with
  | some index => (visit method options I execute keep ranges walk.work index walk.scratch).map some
  | none =>
    match walk.work.queue.pop with
    | none => .ok none
    | some (head, queue) =>
      let work := { walk.work with queue := queue, queued := Function.update walk.work.queued head false }
      match work.frames head with
      | .recorded locals stack => .ok (some ⟨work, { walk.scratch with locals, stack }, some head⟩)
      | _ => .error .panic

/-- The walk to its end; `none` when `fuel` steps do not finish it. -/
def run : ℕ → Walk V → Option (Except Halt (Worklist V))
  | 0, _ => none
  | fuel + 1, walk =>
    match step method options I execute keep ranges walk with
    | .error halt => some (.error halt)
    | .ok none => some (.ok walk.work)
    | .ok (some walk) => run fuel walk

end Walk

section Analyze

variable {V : Type} [DecidableEq V] (I : Interpreter V) (execute : Executor V)

/-- An empty store of `count` nodes. -/
def newWorklist (count : ℕ) (options : AnalyzerOptions) (merge : List ℕ) : Worklist V where
  count := count
  frames := fun _ => .unreached
  queued := fun _ => false
  queue := .new (options.inIndexOrder && !options.fastMerge)
  mergeNodes := merge
  fastMerge := options.fastMerge

/-- The frame before every reachable node `keep` accepts, each merge node and each node the walk had to
queue; every other reached node is only marked. -/
def analyzeKept (fuel : ℕ) (method : MethodNode) (owner : String) (options : AnalyzerOptions)
    (keep : ℕ → Node → Bool) : Option (Except Halt (Worklist V)) :=
  let count := method.nodes.length
  if count = 0 then some (.ok (newWorklist 0 options []))
  else if usesSubroutines method then some (.error (.error ⟨0, "subroutines are not supported"⟩))
  else
    match method.tryCatchBlocks.mapM (rangeOf method options) with
    | none => some (.error .panic)
    | some ranges =>
      match entryFrame method I owner with
      | .error e => some (.error (.error e))
      | .ok entry =>
        match mergeNodes method with
        | none => some (.error .panic)
        | some merge =>
          match (newWorklist count options merge).install I 0 0 entry with
          | .error halt => some (.error halt)
          | .ok work => run method options I execute keep ranges fuel ⟨work, entry, none⟩

/-- The analysis that keeps every frame. -/
def analyzeWith (fuel : ℕ) (method : MethodNode) (owner : String) (options : AnalyzerOptions) :
    Option (Except Halt (Worklist V)) :=
  analyzeKept I execute fuel method owner options fun _ _ => true

end Analyze

end Krusty.Jvm.BytecodePasses
