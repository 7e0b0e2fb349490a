import Krusty.Lib.Refinement
import Krusty.Lib.Pieces
import Krusty.Jvm.BytecodePasses.Analysis.FastAnalyzer

/-! The frames an analysis keeps, side by side in one buffer. `none` is a panic. -/
namespace Krusty.Jvm.BytecodePasses

open Regions

namespace Frames

/-- Where a node's frame sits: its locals, its operand stack, and room for a deeper stack. -/
structure Slot where
  start : ℕ
  locals : ℕ
  stack : ℕ
  room : ℕ
  deriving DecidableEq

/-- What the analysis knows of one node. -/
inductive Entry where
  | unreached
  | reached
  | recorded (slot : Slot)
  deriving DecidableEq

end Frames

/-- Each recorded frame's locals, followed by its operand stack, bottom first. -/
structure Frames (V : Type) where
  values : List V
  slots : List Frames.Entry

/-- How two values meet, with the state `S` of the interpreter. -/
structure Meet (S V : Type) where
  mergeLocal : V → V → S → V × S
  mergeStack : V → V → S → V × S

namespace Frames

variable {S V : Type}

def new (count : ℕ) : Frames V := ⟨[], List.replicate count .unreached⟩

variable (frames : Frames V)

def len : ℕ := frames.slots.length

def read (start length : ℕ) : Option (List V) :=
  if start + length ≤ frames.values.length then some (slice frames.values start length) else none

def view (slot : Slot) : Option (List V × List V) := do
  let locals ← frames.read slot.start slot.locals
  let stack ← frames.read (slot.start + slot.locals) slot.stack
  return (locals, stack)

/-- The locals and the stack before a node, if any path reaches it. -/
def get (index : ℕ) : Option (Option (List V × List V)) :=
  match frames.slots[index]? with
  | none | some .unreached => some none
  | some .reached => none
  | some (.recorded slot) => (frames.view slot).map some

def isRecorded (index : ℕ) : Option Bool :=
  frames.slots[index]?.map fun
    | .recorded _ => true
    | _ => false

def isReached (index : ℕ) : Option Bool := frames.slots[index]?.map fun entry => entry != .unreached

def setSlot (index : ℕ) (entry : Entry) : Option (Frames V) :=
  if index < frames.slots.length then some { frames with slots := frames.slots.set index entry } else none

def markReached (index : ℕ) : Option (Frames V) :=
  match frames.slots[index]? with
  | none => none
  | some .unreached => frames.setSlot index .reached
  | some _ => some frames

def copyInto (index : ℕ) (frame : Frame V) : Option (Frame V) := do
  let view ← frames.get index
  let (locals, stack) ← view
  return { frame with locals, stack }

def record (index : ℕ) (state : Frame V) : Option (Frames V) :=
  let values := frames.values ++ state.locals ++ state.stack
  setSlot { frames with values } index
    (.recorded ⟨frames.values.length, state.locals.length, state.stack.length, state.stack.length⟩)

variable [BEq V]

/-- `true` when the frame there differs from `state`. -/
def replace (index : ℕ) (state : Frame V) : Option (Bool × Frames V) := do
  let view ← frames.get index
  let (locals, stack) ← view
  if locals == state.locals && stack == state.stack then return (false, frames)
  else
    match frames.slots[index]? with
    | some (.recorded slot) =>
      if slot.locals ≠ state.locals.length ∨ slot.room < state.stack.length then do
        let frames ← frames.record index state
        return (true, frames)
      else if slot.start + slot.locals + state.stack.length ≤ frames.values.length then do
        let values := overwrite frames.values slot.start (state.locals ++ state.stack)
        let frames ← setSlot { frames with values } index (.recorded { slot with stack := state.stack.length })
        return (true, frames)
      else none
    | _ => none

/-- Each value met with the one arriving beside it, and whether any changed. -/
def meetInto (meet : V → V → S → V × S) : List V → List V → S → (List V × Bool) × S
  | mine :: rest, theirs :: arriving, s =>
    let (met, s) := meet mine theirs s
    let ((rest, changed), s) := meetInto meet rest arriving s
    if met != mine then ((met :: rest, true), s) else ((mine :: rest, changed), s)
  | rest, _, s => ((rest, false), s)

/-- `true` when anything changed. -/
def merge (meet : Meet S V) (index : ℕ) (state : Frame V) (s : S) :
    Option (Except String Bool × Frames V × S) :=
  match frames.slots[index]? with
  | some (.recorded slot) =>
    if slot.stack ≠ state.stack.length then some (.error "incompatible stack heights", frames, s)
    else do
      let locals ← frames.read slot.start slot.locals
      let stack ← frames.read (slot.start + slot.locals) slot.stack
      let ((locals, changed), s) := meetInto meet.mergeLocal locals state.locals s
      let ((stack, changedStack), s) := meetInto meet.mergeStack stack state.stack s
      let values := overwrite frames.values slot.start (locals ++ stack)
      return (.ok (changed || changedStack), { frames with values }, s)
  | _ => none

/-- What an analysis may ask of a store. -/
inductive Op (V : Type) where
  | record (index : ℕ) (state : Frame V)
  | replace (index : ℕ) (state : Frame V)
  | merge (index : ℕ) (state : Frame V)
  | markReached (index : ℕ)
  | get (index : ℕ)
  | copyInto (index : ℕ) (frame : Frame V)
  | isRecorded (index : ℕ)
  | isReached (index : ℕ)
  | len

/-- The node whose frame an operation may change. -/
def Op.target : Op V → Option ℕ
  | record index _ | replace index _ | merge index _ | markReached index => some index
  | _ => none

inductive Answer (V : Type) where
  | done
  | changed (changed : Bool)
  | error (message : String)
  | frame (frame : Option (List V × List V))
  | copied (frame : Frame V)
  | holds (answer : Bool)
  | number (n : ℕ)

def Answer.ofMerge : Except String Bool → Answer V
  | .ok differs => .changed differs
  | .error text => .error text

def apply (meet : Meet S V) : Frames V × S → Op V → Option (Answer V × Frames V × S)
  | (frames, s), .record index state => (frames.record index state).map fun frames => (.done, frames, s)
  | (frames, s), .replace index state =>
    (frames.replace index state).map fun (changed, frames) => (.changed changed, frames, s)
  | (frames, s), .merge index state =>
    (frames.merge meet index state s).map fun (result, rest) => (.ofMerge result, rest)
  | (frames, s), .markReached index => (frames.markReached index).map fun frames => (.done, frames, s)
  | (frames, s), .get index => (frames.get index).map fun frame => (.frame frame, frames, s)
  | (frames, s), .copyInto index frame => (frames.copyInto index frame).map fun frame => (.copied frame, frames, s)
  | (frames, s), .isRecorded index => (frames.isRecorded index).map fun answer => (.holds answer, frames, s)
  | (frames, s), .isReached index => (frames.isReached index).map fun answer => (.holds answer, frames, s)
  | (frames, s), .len => some (.number frames.len, frames, s)

/-- The answers to operations in order, with the store and the interpreter's state after them. -/
def run (meet : Meet S V) : Frames V × S → List (Op V) → Option (List (Answer V) × Frames V × S) :=
  Refinement.run (apply meet)

end Frames

end Krusty.Jvm.BytecodePasses
