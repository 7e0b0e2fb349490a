import Krusty.Jvm.BytecodePasses.ReversePostOrder
import Mathlib.Data.Finset.Sort

/-! Which stores of a method are temporaries, and which loads read each. -/
namespace Krusty.Jvm.BytecodePasses.Temporaries

inductive Kind where
  | int
  | long
  | float
  | double
  | reference
  deriving DecidableEq

namespace Kind

def ofOffset (offset : UInt8) : Kind :=
  if offset = 0 then int else if offset = 1 then long else if offset = 2 then float
  else if offset = 3 then double else reference

def words : Kind → ℕ
  | long | double => 2
  | _ => 1

end Kind

inductive VarOp where
  | load (kind : Kind) (slot : ℕ)
  | store (kind : Kind) (slot : ℕ)
  | iinc (slot : ℕ)
  deriving DecidableEq

def iload : UInt8 := 0x15
def aload : UInt8 := 0x19

def varOp : Insn LabelId → Option VarOp
  | .var op slot =>
    if opRange iload aload op then some (.load (.ofOffset (op - iload)) slot.toNat)
    else if opRange istore astore op then some (.store (.ofOffset (op - istore)) slot.toNat)
    else none
  | .iinc slot _ => some (.iinc slot.toNat)
  | _ => none

/-- A `goto`, a return or `athrow`: an instruction nothing after it is reached from. -/
def isTerminator : Insn LabelId → Bool
  | .jump op _ => op == gotoOp
  | .op op => opRange ireturn returnOp op || op == athrow
  | _ => false

/-- A local's value at a program point: which temporary stores it may hold, a dirty value's by an index
into the sets of the analysis. -/
inductive Held where
  | unknown
  | store (store : ℕ)
  | dirty (set : ℕ)
  deriving DecidableEq

/-- The store sets dirty values name. A set never changes once added. -/
abbrev DirtySets := List (Finset ℕ)

namespace DirtySets

variable (sets : DirtySets)

def getSet (set : ℕ) : Finset ℕ := sets.getD set ∅

def add (stores : Finset ℕ) : DirtySets × Held := (sets ++ [stores], .dirty sets.length)

/-- Whether `held` may hold `store`. -/
def holds (held : Held) (store : ℕ) : Bool :=
  match held with
  | .unknown => false
  | .store own => own == store
  | .dirty set => decide (store ∈ sets.getSet set)

def mark (held : Held) (dirty : Finset ℕ) : Finset ℕ :=
  match held with
  | .unknown => dirty
  | .store store => insert store dirty
  | .dirty set => dirty ∪ sets.getSet set

/-- Mark what the slots of `named` may hold dirty. -/
def markNamed (state : List Held) (named : List ℕ) (dirty : Finset ℕ) : Finset ℕ :=
  named.foldl (fun dirty slot =>
    match state[slot]? with
    | some held => sets.mark held dirty
    | none => dirty) dirty

/-- Whether the dirty value `held` already holds every store of `other`. -/
def covers (held other : Held) : Bool :=
  match held with
  | .dirty _ =>
    match other with
    | .unknown => true
    | .store store => sets.holds held store
    | .dirty set => decide (∀ store ∈ sets.getSet set, sets.holds held store)
  | _ => false

/-- Join `other` into `held`; whether it changed. -/
def absorb (held other : Held) : DirtySets × Held × Bool :=
  if held = other then (sets, held, false)
  else if sets.covers held other then (sets, held, false)
  else
    match held, other with
    | .unknown, .dirty _ => (sets, other, true)
    | _, _ =>
      let (sets, held) := sets.add (sets.mark other (sets.mark held ∅))
      (sets, held, true)

/-- Join the values from `slot` on, each replaced first where an override names its slot. -/
def absorbAll (overrides : List (ℕ × Held)) :
    DirtySets → ℕ → List Held → List Held → DirtySets × List Held × Bool
  | sets, slot, held :: current, base :: rest =>
    let incoming := ((overrides.find? fun override => override.1 == slot).map Prod.snd).getD base
    let (sets, held, changed) := sets.absorb held incoming
    let (sets, current, more) := absorbAll overrides sets (slot + 1) current rest
    (sets, held :: current, changed || more)
  | sets, _, current, _ => (sets, current, false)

def override (base : List Held) (overrides : List (ℕ × Held)) : List Held :=
  overrides.foldl (fun incoming override => incoming.set override.1 override.2) base

/-- Join the state `base` with `overrides` applied into `current`; whether `current` changed. -/
def joinInto (current : Option (List Held)) (base : List Held) (overrides : List (ℕ × Held)) :
    DirtySets × List Held × Bool :=
  match current with
  | none => (sets, override base overrides, true)
  | some current => absorbAll overrides sets 0 current base

end DirtySets

/-- Why there is no answer: the body is outside what the analysis models, or names a label it never
places. -/
inductive Refusal where
  | declined
  | panic
  deriving DecidableEq

abbrev Found := List (ℕ × List ℕ)

/-- What the fixpoint reads: the graph, the stores that may be temporaries and the slots a named local
starts in at an instruction. -/
structure Task where
  graph : InstructionGraph
  candidate : ℕ → Bool
  namedStarts : ℕ → List ℕ
  width : ℕ

/-- A named local: the instructions of its range and its slot. -/
structure Named where
  start : ℕ
  stop : ℕ
  slot : ℕ

section Candidates

variable (g : InstructionGraph) (method : MethodNode)

def opAt (index : ℕ) : Option VarOp := (g.insn index).bind varOp

def storesTo (index slot : ℕ) : Bool :=
  match opAt g index with
  | some (.store _ s) => s == slot
  | _ => false

def isStore (index : ℕ) : Bool :=
  match opAt g index with
  | some (.store _ _) => true
  | _ => false

def keptLabels : List LabelId :=
  method.nodes.flatMap (fun
    | .insn insn => insn.jumpTargets
    | .line _ start => [start]
    | .label _ => []) ++
  method.tryCatchBlocks.flatMap (fun block => [block.start, block.stop, block.handler]) ++
  method.localVariables.flatMap fun entry => [entry.start, entry.stop]

def labelled (index : ℕ) : Bool := (g.labelsBefore index).any fun label => decide (label ∈ keptLabels method)

/-- One past the last word an instruction names. -/
def slotEnd (index : ℕ) : ℕ :=
  match opAt g index with
  | some (.load kind slot) | some (.store kind slot) => slot + kind.words
  | some (.iinc slot) => slot + 1
  | none => 0

def slotCount : ℕ := ((List.range g.len).map (slotEnd g)).foldl max 0

/-- The locals named in the method, but for those whose range starts after the last instruction. -/
def namedLocals : Option (List Named) := do
  let named ← method.localVariables.mapM fun entry => do
    let start ← g.labelAt entry.start
    let stop ← g.labelAt entry.stop
    return (⟨start, stop, entry.slot.toNat⟩ : Named)
  return named.filter fun entry => decide (entry.start < g.len)

/-- Walk backward from a range's start to the store that initializes it. -/
def excludeInitializer (slot : ℕ) : ℕ → (ℕ → Bool) → (ℕ → Bool)
  | 0, candidate => candidate
  | index + 1, candidate =>
    if storesTo g index slot then Function.update candidate index false
    else if labelled g method index || ((g.insn index).any isTerminator) then candidate
    else excludeInitializer slot index candidate

/-- A named local's stores are not temporaries: those in its range, and its initializer. -/
def excludeNamed (candidate : ℕ → Bool) (entry : Named) : ℕ → Bool :=
  excludeInitializer g method entry.slot entry.start fun index =>
    if entry.start ≤ index ∧ index < entry.stop ∧ storesTo g index entry.slot then false
    else candidate index

/-- The stores right before a protected range are not temporaries. -/
def excludeBefore : ℕ → (ℕ → Bool) → (ℕ → Bool)
  | 0, candidate => candidate
  | index + 1, candidate =>
    if isStore g index then excludeBefore index (Function.update candidate index false) else candidate

/-- Nor is a handler's catch store, which has to be there. -/
def excludeCatch (candidate : ℕ → Bool) (block : TryCatchBlock) : Option (ℕ → Bool) := do
  let catchStore ← g.labelAt block.handler
  let start ← g.labelAt block.start
  if g.len ≤ catchStore then none
  else
    match opAt g catchStore with
    | some (.store .reference _) => excludeBefore g start (Function.update candidate catchStore false)
    | _ => none

def analysisLimit : ℕ := 50 * 1024 * 1024

def analysisWithinLimit (instructions slots candidates : ℕ) : Bool :=
  decide (instructions * slots * max candidates 1 ≤ analysisLimit)

/-- Everything the analysis settles before its fixpoint. -/
def prepare (method : MethodNode) : Except Refusal Task :=
  match InstructionGraph.build method with
  | none => .error .declined
  | some g =>
    if (List.range g.len).any fun index => decide (2 ^ 16 - 1 < slotEnd g index) then .error .declined
    else
      match namedLocals g method with
      | none => .error .panic
      | some named =>
        match method.tryCatchBlocks.foldlM (excludeCatch g) (named.foldl (excludeNamed g method) (isStore g)) with
        | none => .error .declined
        | some candidate =>
          let width := max (slotCount g) 1
          let count := ((List.range g.len).filter fun index => candidate index).length
          if analysisWithinLimit g.len width count then
            .ok ⟨g, candidate,
              fun index => (named.filter fun entry => entry.start == index).map Named.slot, width⟩
          else .error .declined

end Candidates

/-- The fixpoint between two steps. -/
structure Fixpoint where
  before : ℕ → Option (List Held)
  pending : ℕ → Bool
  sets : DirtySets
  loads : ℕ → Finset ℕ
  dirty : Finset ℕ

namespace Fixpoint

def initial (width : ℕ) : Fixpoint where
  before := Function.update (fun _ => none) 0 (some (List.replicate width .unknown))
  pending := Function.update (fun _ => false) 0 true
  sets := []
  loads := fun _ => ∅
  dirty := ∅

/-- Join what an edge brings into the state of `target`. -/
def flowInto (s : Fixpoint) (target : ℕ) (base : List Held) (overrides : List (ℕ × Held)) : Fixpoint :=
  let (sets, joined, changed) := s.sets.joinInto (s.before target) base overrides
  { s with
    before := Function.update s.before target (some joined)
    pending := if changed then Function.update s.pending target true else s.pending
    sets := sets }

variable (task : Task)

def opAt (index : ℕ) : Option VarOp := Temporaries.opAt task.graph index

/-- The slots an instruction replaces. -/
def overridesAt (index : ℕ) : List (ℕ × Held) :=
  match opAt task index with
  | some (.store kind slot) =>
    let held := if task.candidate index then Held.store index else .unknown
    (slot, held) :: if kind.words = 2 then [(slot + 1, .unknown)] else []
  | some (.iinc slot) => [(slot, .unknown)]
  | _ => []

/-- What an instruction makes of the loads and the dirty stores, entered with `state`. -/
def record (s : Fixpoint) (index : ℕ) (state : List Held) : Fixpoint :=
  let dirty := s.sets.markNamed state (task.namedStarts index) s.dirty
  match opAt task index with
  | some (.load _ slot) =>
    match state.getD slot .unknown with
    | .store store => { s with dirty, loads := Function.update s.loads store (insert index (s.loads store)) }
    | .dirty set => { s with dirty := s.sets.mark (.dirty set) dirty }
    | .unknown => { s with dirty }
  | some (.iinc slot) => { s with dirty := s.sets.mark (state.getD slot .unknown) dirty }
  | _ => { s with dirty }

/-- The edges out of an instruction: along an exceptional one the handler sees the locals as they stood
before it as well as after. -/
def edgesAt (index : ℕ) : List (ℕ × List (ℕ × Held)) :=
  (task.graph.normal index).map (fun target => (target, overridesAt task index)) ++
  (task.graph.exceptional index).flatMap fun handler =>
    [(handler, []), (handler, overridesAt task index)]

/-- One instruction: what it records, then its edges, those back to it last. -/
def stepAt (s : Fixpoint) (index : ℕ) (state : List Held) : Fixpoint :=
  let s := record task s index state
  let edges := (edgesAt task index).filter fun edge => decide (edge.1 ≤ task.graph.len)
  let s := (edges.filter fun edge => edge.1 != index).foldl
    (fun s edge => s.flowInto edge.1 state edge.2) s
  (edges.filter fun edge => edge.1 == index).foldl
    (fun s edge => s.flowInto index (DirtySets.override state edge.2) []) s

/-- A pending instruction is stepped; `true` when one was. -/
def visit (acc : Fixpoint × Bool) (index : ℕ) : Fixpoint × Bool :=
  if task.graph.len ≤ index || !acc.1.pending index then acc
  else
    let s := { acc.1 with pending := Function.update acc.1.pending index false }
    match s.before index with
    | none => (s, acc.2)
    | some state => (stepAt task s index state, true)

/-- Rounds over the pending instructions, until one steps none; `none` when `fuel` rounds do not end. -/
def settle (order : List ℕ) : ℕ → Fixpoint → Option Fixpoint
  | 0, _ => none
  | fuel + 1, s =>
    let (s, stepped) := order.foldl (visit task) (s, false)
    if stepped then settle order fuel s else some s

/-- Every candidate reached and not dirty, with the loads that read it. -/
def temporaries (s : Fixpoint) : Found :=
  ((List.range task.graph.len).filter fun index =>
    task.candidate index && decide (index ∉ s.dirty) && (s.before index).isSome).map
    fun index => (index, (s.loads index).sort (· ≤ ·))

end Fixpoint

/-- Every temporary store of `method` with the loads that read it, by instruction number, in store order;
`none` when `fuel` rounds do not suffice. -/
def analyze (fuel : ℕ) (method : MethodNode) : Option (Except Refusal Found) :=
  match prepare method with
  | .error refusal => some (.error refusal)
  | .ok task => do
    let order ← task.graph.reversePostOrder fuel
    let s ← Fixpoint.settle task order fuel (.initial task.width)
    return .ok (s.temporaries task)

end Krusty.Jvm.BytecodePasses.Temporaries
