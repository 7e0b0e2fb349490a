import Krusty.Lib.Interference
import Krusty.Lib.Refinement
import Mathlib

/-! The output queue of the language server: the frames it stages, the writer thread that hands them to the
client, and the calls of the server. -/
namespace Krusty.Lsp.Output

open Interference

abbrev Frame := List UInt8

inductive ErrorKind where
  | brokenPipe
  | timedOut

structure Failure where
  kind : ErrorKind
  message : String

def brokenPipe (message : String) : Failure := { kind := .brokenPipe, message }

/-- What `spawn_limited` is given: the frames that the channel holds, the bytes that may be unsent, and the
milliseconds that a shutdown waits. -/
structure Limits where
  channelFrames : ℕ
  stagedLimit : ℕ
  drainGrace : ℕ

/-! ### The state -/

/-- What the server's thread owns. The handle `join` and the receiver `done` are taken together. -/
structure Queue where
  current : Frame
  pending : List Frame
  failed : Option String
  tx : Bool
  join : Bool

/-- Where the writer thread is. Its receiver is gone once it has `ended` or `panicked`. -/
inductive Phase where
  | waiting
  | writing
  | written
  | failing (message : String)
  | leaving
  | finished
  | ended
  | panicked
  deriving DecidableEq

def Phase.gone : Phase → Bool
  | .ended | .panicked => true
  | _ => false

/-- The server's queue, what it shares with the writer, what the writer has in its hand, and what the client
was handed. That the counter went below zero is recorded, and so are the accepted frames. -/
structure State where
  queue : Queue
  channel : List Frame
  held : ℕ
  writerError : Option String
  done : Bool
  phase : Phase
  hand : Frame
  sent : ℕ
  output : List UInt8
  accepted : List Frame
  underflowed : Bool

def State.initial : State where
  queue := { current := [], pending := [], failed := none, tx := true, join := true }
  channel := []
  held := 0
  writerError := none
  done := false
  phase := .waiting
  hand := []
  sent := 0
  output := []
  accepted := []
  underflowed := false

/-- `held.fetch_sub(len)`. -/
def State.release (s : State) (len : ℕ) : State :=
  { s with held := s.held - len, underflowed := s.underflowed || decide (s.held < len) }

/-! ### The writer thread -/

/-- What the writer may do next: `put n` is one write of `n` bytes to the client. -/
inductive WriterMove where
  | receive
  | closed
  | put (n : ℕ)
  | flush
  | fail (message : String)
  | count
  | record
  | signal
  | leave
  | panic

def State.writer (s : State) (move : WriterMove) : Option State :=
  match move, s.phase with
  | .receive, .waiting =>
    match s.channel with
    | [] => none
    | frame :: rest => some { s with channel := rest, hand := frame, sent := 0, phase := .writing }
  | .closed, .waiting => if s.channel.isEmpty && !s.queue.tx then some { s with phase := .leaving } else none
  | .put n, .writing =>
    if 0 < n ∧ s.sent + n ≤ s.hand.length then
      some { s with output := s.output ++ (s.hand.drop s.sent).take n, sent := s.sent + n }
    else none
  | .flush, .writing => if s.sent = s.hand.length then some { s with phase := .written } else none
  -- `write_all` or `flush` fails, after any number of bytes
  | .fail message, .writing => some { s with phase := .failing message }
  | .count, .written => some { s.release s.hand.length with hand := [], sent := 0, phase := .waiting }
  | .record, .failing message => some { s with writerError := some message, phase := .leaving }
  | .signal, .leaving => some { s with done := true, phase := .finished }
  | .leave, .finished => some { s with phase := .ended }
  | .panic, .writing => some { s with phase := .panicked }
  | _, _ => none

/-! ### The server's thread -/

inductive Sent where
  | nothing
  | sent
  | full
  | disconnected (message : String)

/-- What the server's thread does in one step: it reads or changes what it owns, or it reaches for something
shared, with the changes of its own that belong to that. -/
inductive Access where
  | queue
  | update (f : Queue → Queue)
  | writerError
  | reserve (frame : Frame)
  | trySend
  | held
  | clock
  | received
  | joined

def Access.Answer : Access → Type
  | .queue => Queue
  | .writerError => Option String
  | .trySend => Sent
  | .held => ℕ
  | .reserve _ | .clock | .received => Bool
  | .update _ | .joined => Unit

/-- The loop of `accept`. It decides by the value that its last load or exchange saw, so it is one step. -/
def State.reserve (limits : Limits) (frame : Frame) (s : State) : Bool × State :=
  if limits.stagedLimit < s.held + frame.length then (false, s)
  else
    (true, { s with
      held := s.held + frame.length
      queue := { s.queue with pending := s.queue.pending ++ [frame] }
      accepted := s.accepted ++ [frame] })

/-- One round of the loop of `pump`. The writer does nothing more once its receiver is gone, so what follows
a disconnection belongs to the same step. -/
def State.trySend (limits : Limits) (s : State) : Sent × State :=
  match s.queue.pending with
  | [] => (.nothing, s)
  | frame :: rest =>
    if s.phase.gone then
      let message := s.writerError.getD "stdout closed"
      (.disconnected message,
        { s.release frame.length with queue := { s.queue with failed := some message } })
    else if s.channel.length < max limits.channelFrames 1 then
      (.sent, { s with queue := { s.queue with pending := rest }, channel := s.channel ++ [frame] })
    else (.full, s)

/-- The writer's end can be told: it sent `done`, or dropped the sender of it. -/
def State.signalled (s : State) : Bool := s.done || s.phase.gone

/-- The answer to a step and the state after it, or none while it has to wait. Whether the deadline has
passed is anyone's guess. -/
def State.access (limits : Limits) (beforeDeadline : Bool) : (a : Access) → State → Option (a.Answer × State)
  | .queue, s => some (s.queue, s)
  | .update f, s => some ((), { s with queue := f s.queue })
  | .writerError, s => some (s.writerError, s)
  | .reserve frame, s => some (s.reserve limits frame)
  | .trySend, s => some (s.trySend limits)
  | .held, s => some (s.held, s)
  | .clock, s => some (beforeDeadline, s)
  | .received, s => some (s.signalled, s)
  | .joined, s => if s.phase.gone then some ((), s) else none

abbrev Calls := Program Access Access.Answer

def ownQueue : Calls Queue := Program.perform Access.queue

def update (f : Queue → Queue) : Calls Unit := Program.perform (Access.update f)

def loadError : Calls (Option String) := Program.perform Access.writerError

def reserve (frame : Frame) : Calls Bool := Program.perform (Access.reserve frame)

def trySend : Calls Sent := Program.perform Access.trySend

def loadHeld : Calls ℕ := Program.perform Access.held

def beforeDeadline : Calls Bool := Program.perform Access.clock

def receiveDone : Calls Bool := Program.perform Access.received

def joinWriter : Calls Unit := Program.perform Access.joined

def fail (message : String) : Calls (Except Failure Unit) := do
  update fun q => { q with failed := some message }
  return .error (brokenPipe message)

def pollWriterFailure : Calls (Except Failure Unit) := do
  match (← ownQueue).failed with
  | some message => return .error (brokenPipe message)
  | none =>
    match ← loadError with
    | some message => fail message
    | none => return .ok ()

def accept (limits : Limits) (frame : Frame) : Calls (Except Failure Unit) := do
  match ← pollWriterFailure with
  | .error e => return .error e
  | .ok () =>
    if limits.stagedLimit < frame.length then fail "stdout frame exceeds the transport budget"
    else if ← reserve frame then return .ok ()
    else fail "stdout queue exceeded the transport budget"

/-- The loop of `pump`, over the frames that were pending when it began. -/
def handOn : ℕ → Calls (Except Failure Unit)
  | 0 => return .ok ()
  | n + 1 => do
    match ← trySend with
    | .sent => handOn n
    | .nothing | .full => return .ok ()
    | .disconnected message => return .error (brokenPipe message)

def pump : Calls (Except Failure Unit) := do
  let q ← ownQueue
  if q.tx then handOn q.pending.length else return .error (brokenPipe "stdout closed")

def isIdle : Calls (Except Failure Bool) := do
  match ← pollWriterFailure with
  | .error e => return .error e
  | .ok () =>
    match ← pump with
    | .error e => return .error e
    | .ok () =>
      match ← pollWriterFailure with
      | .error e => return .error e
      | .ok () =>
        let q ← ownQueue
        let held ← loadHeld
        return .ok (q.current.isEmpty && q.pending.isEmpty && held == 0)

def write (buf : List UInt8) : Calls (Except Failure ℕ) := do
  match ← pollWriterFailure with
  | .error e => return .error e
  | .ok () =>
    update fun q => { q with current := q.current ++ buf }
    return .ok buf.length

/-- What `flush` does between its two pumps. -/
def acceptCurrent (limits : Limits) : Calls (Except Failure Unit) := do
  let q ← ownQueue
  if q.current.isEmpty then return .ok ()
  else do
    update fun q => { q with current := [] }
    accept limits q.current

def flush (limits : Limits) : Calls (Except Failure Unit) := do
  match ← pollWriterFailure with
  | .error e => return .error e
  | .ok () =>
    match ← pump with
    | .error e => return .error e
    | .ok () =>
      let accepted ← acceptCurrent limits
      let pumped ← pump
      match ← pollWriterFailure with
      | .error e => return .error e
      | .ok () =>
        match accepted with
        | .error e => return .error e
        | .ok () => return pumped

/-- The flush that a shutdown begins with. -/
def lastFlush (limits : Limits) : Calls (Except Failure Unit) := do
  if (← ownQueue).tx then flush limits else return .ok ()

/-- The loop of `shutdown`. Each round sleeps for a millisecond, so the grace bounds the rounds. -/
def drain : ℕ → Except Failure Unit → Calls (Except Failure Unit)
  | 0, flushed => return flushed
  | _ + 1, .error e => return .error e
  | n + 1, .ok () => do
    if (← ownQueue).pending.isEmpty then return .ok ()
    else if ← beforeDeadline then drain n (← pump)
    else return .ok ()

/-- What `shutdown` does once it has the handle of the writer. -/
def awaitWriter (flushed : Except Failure Unit) : Calls (Except Failure Unit) := do
  if ← receiveDone then do
    joinWriter
    match ← pollWriterFailure with
    | .error e => return .error e
    | .ok () => return flushed
  else return .error { kind := .timedOut, message := "stdout writer did not finish" }

def shutdown (limits : Limits) : Calls (Except Failure Unit) := do
  let flushed ← lastFlush limits
  let flushed ← drain limits.drainGrace flushed
  update fun q => { q with tx := false }
  if (← ownQueue).join then do
    update fun q => { q with join := false }
    awaitWriter flushed
  else return flushed

/-! ### Both threads -/

inductive Call where
  | write (buf : List UInt8)
  | flush
  | isIdle
  | shutdown

inductive Reply where
  | wrote (result : Except Failure ℕ)
  | flushed (result : Except Failure Unit)
  | idle (result : Except Failure Bool)
  | down (result : Except Failure Unit)

def program (limits : Limits) : Call → Calls Reply
  | .write buf => Reply.wrote <$> write buf
  | .flush => Reply.flushed <$> flush limits
  | .isIdle => Reply.idle <$> isIdle
  | .shutdown => Reply.down <$> shutdown limits

/-- The state, the rest of the call in progress, and the answers to the calls before it. -/
structure Server where
  state : State
  running : Option (Calls Reply)
  replies : List Reply

def Server.initial : Server := { state := .initial, running := none, replies := [] }

inductive Event where
  | begin (call : Call)
  | turn (beforeDeadline : Bool)
  | reply
  | writer (move : WriterMove)

/-- Either thread takes a step, whenever it can. -/
def Server.step (limits : Limits) (c : Server) (event : Event) : Option Server :=
  match event, c.running with
  | .begin call, none => some { c with running := some (program limits call) }
  | .turn beforeDeadline, some (.call a next) =>
    (c.state.access limits beforeDeadline a).map fun r => { c with state := r.2, running := some (next r.1) }
  | .reply, some (.done r) => some { c with running := none, replies := r :: c.replies }
  | .writer move, _ => (c.state.writer move).map fun s => { c with state := s }
  | _, _ => none

/-- The call in progress answers so. -/
def Server.Answers (c : Server) (r : Reply) : Prop := c.running = some (.done r)

/-- The client was handed every accepted frame. -/
def State.AllWritten (s : State) : Prop := s.output = s.accepted.flatten

end Krusty.Lsp.Output
