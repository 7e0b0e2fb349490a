import Mathlib.Data.Finset.Max
import Mathlib.Data.Fintype.Basic
import Mathlib.Logic.Relation

/-! Running a plan's steps on worker threads, under every interleaving of the scheduling loop and the
workers. -/
namespace Krusty.Toolchain

/-- A plan: its steps by number, and the steps each waits for. -/
structure Plan where
  count : ℕ
  waits : Fin count → List (Fin count)

/-- No step waits for itself, however indirectly. -/
def Plan.Acyclic (plan : Plan) : Prop :=
  ∀ step, ¬ Relation.TransGen (fun dependency step => dependency ∈ plan.waits step) step step

/-- What a worker sends back: a begun step's result, `None` from a step the gate refused, or the payload
of a panic. -/
inductive Reply where
  | done (succeeded : Bool)
  | refused
  | panicked
  deriving DecidableEq

/-- How far a step has got. -/
inductive Phase where
  | waiting
  /-- Its thread has been spawned and has not asked the gate. -/
  | spawned
  | refused
  | begun
  /-- It recorded its failure. -/
  | failed
  /-- It panicked, and the panic is not recorded yet. -/
  | unwinding
  | panicked
  /-- Its reply is in the channel. -/
  | reported (reply : Reply)
  /-- The scheduling loop has taken its reply. -/
  | collected (reply : Reply)
  deriving DecidableEq

/-- Where the scheduling loop is. -/
inductive Loop where
  /-- About to test `running < jobs && !gate.stopped()`. -/
  | filling
  /-- The test passed. -/
  | picking
  | receiving
  | returned
  /-- A worker's panic was resumed. -/
  | unwound
  deriving DecidableEq

structure State (plan : Plan) where
  remaining : Fin plan.count → ℕ
  ready : Finset (Fin plan.count)
  running : ℕ
  /-- The gate's flag. -/
  stopped : Bool
  phase : Fin plan.count → Phase
  channel : List (Fin plan.count × Reply)
  loop : Loop

/-- One atomic action of the scheduling loop or of a worker. -/
inductive Event (plan : Plan) where
  | test
  | pick
  | receive
  /-- `gate.begin()` returns true. -/
  | begin (step : Fin plan.count)
  /-- `gate.begin()` returns false. -/
  | refuse (step : Fin plan.count)
  /-- `gate.fail()` by the step's work. -/
  | fail (step : Fin plan.count)
  | panic (step : Fin plan.count)
  /-- `gate.fail()` after a caught panic. -/
  | recordPanic (step : Fin plan.count)
  /-- The work returns without having failed, and its result is sent. -/
  | finish (step : Fin plan.count)
  /-- Any other reply is sent. -/
  | report (step : Fin plan.count)
  deriving DecidableEq

namespace Event

variable {plan : Plan}

/-- The event records a failure at the gate. -/
def recordsFailure : Event plan → Bool
  | .fail _ | .recordPanic _ => true
  | _ => false

/-- The event is a step going wrong. -/
def goesWrong : Event plan → Bool
  | .fail _ | .panic _ => true
  | _ => false

end Event

section Machine

variable {plan : Plan} (jobs : ℕ)

/-- The steps to release once `step` is done: one entry for each time it is waited for. -/
def Plan.dependents (plan : Plan) (step : Fin plan.count) : List (Fin plan.count) :=
  (List.finRange plan.count).flatMap fun dependent =>
    ((plan.waits dependent).filter (· = step)).map fun _ => dependent

def State.init (plan : Plan) : State plan where
  remaining := fun step => (plan.waits step).length
  ready := Finset.univ.filter fun step => (plan.waits step).length = 0
  running := 0
  stopped := false
  phase := fun _ => .waiting
  channel := []
  loop := .filling

namespace State

variable (s : State plan)

/-- Past the `while`: `break` when nothing runs, else wait for a reply. -/
def leave : State plan := { s with loop := if s.running = 0 then .returned else .receiving }

def setPhase (step : Fin plan.count) (phase : Phase) : State plan :=
  { s with phase := Function.update s.phase step phase }

/-- A worker's last action. -/
def send (step : Fin plan.count) (reply : Reply) : State plan :=
  { s.setPhase step (.reported reply) with channel := s.channel ++ [(step, reply)] }

/-- One wait fewer for a dependent, which becomes ready with its last. -/
def release (dependent : Fin plan.count) : State plan :=
  let left := s.remaining dependent - 1
  { s with
    remaining := Function.update s.remaining dependent left
    ready := if left = 0 then insert dependent s.ready else s.ready }

def releaseAll (dependents : List (Fin plan.count)) : State plan := dependents.foldl release s

/-- The loop takes the first reply of the channel. -/
def collect (step : Fin plan.count) (reply : Reply) (rest : List (Fin plan.count × Reply)) : State plan :=
  let s := { s.setPhase step (.collected reply) with channel := rest, running := s.running - 1 }
  match reply with
  | .panicked => { s with loop := .unwound }
  | .refused => { s with loop := .filling }
  | .done _ => { s.releaseAll (plan.dependents step) with loop := .filling }

/-- One event, when it is possible. -/
def next : Event plan → Option (State plan)
  | .test =>
    if s.loop = .filling then
      some (if s.running < jobs ∧ s.stopped = false then { s with loop := .picking } else s.leave)
    else none
  | .pick =>
    if s.loop = .picking then
      match s.ready.min with
      | none => some s.leave
      | some step => some { s.setPhase step .spawned with
          ready := s.ready.erase step, running := s.running + 1, loop := .filling }
    else none
  | .receive =>
    if s.loop = .receiving then
      match s.channel with
      | [] => none
      | (step, reply) :: rest => some (s.collect step reply rest)
    else none
  | .begin step =>
    if s.phase step = .spawned ∧ s.stopped = false then some (s.setPhase step .begun) else none
  | .refuse step =>
    if s.phase step = .spawned ∧ s.stopped = true then some (s.setPhase step .refused) else none
  | .fail step =>
    if s.phase step = .begun then some { s.setPhase step .failed with stopped := true } else none
  | .panic step =>
    if s.phase step = .spawned ∨ s.phase step = .begun ∨ s.phase step = .failed then
      some (s.setPhase step .unwinding)
    else none
  | .recordPanic step =>
    if s.phase step = .unwinding then some { s.setPhase step .panicked with stopped := true } else none
  | .finish step => if s.phase step = .begun then some (s.send step (.done true)) else none
  | .report step =>
    match s.phase step with
    | .failed => some (s.send step (.done false))
    | .refused => some (s.send step .refused)
    | .panicked => some (s.send step .panicked)
    | _ => none

end State

end Machine

end Krusty.Toolchain
