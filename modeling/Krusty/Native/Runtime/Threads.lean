import Krusty.Lib.FutexLock
import Mathlib

/-! The threads that run Kotlin, and the mutator lock they share. -/
namespace Krusty.Native.Threads

open Futex

/-- How many callee-saved registers a released thread records. -/
def savedRegisters : ℕ := 12

abbrev Registers := Fin savedRegisters → ℕ

/-- A heap reference that is not null. -/
abbrev Ref := ℕ

/-- The address of a mapping: a thread's record or a handle. -/
abbrev Ptr := ℕ

/-- A kernel thread, by its number, which is not 0. -/
abbrev Tid := ℕ

/-- The record of an attached thread. -/
structure KThread where
  registers : Registers
  savedSp : ℕ
  stackBottom : ℕ
  pending : Option Ref
  tid : Tid
  released : Bool
  startRoutine : Ptr
  startArgument : Option Ref
  number : ℕ

def KThread.zeroed : KThread where
  registers _ := 0
  savedSp := 0
  stackBottom := 0
  pending := none
  tid := 0
  released := false
  startRoutine := 0
  startArgument := none
  number := 0

/-- What a callback keeps on its own frame between entering Kotlin and leaving it. -/
structure KThreadEntry where
  thread : Ptr
  attached : Bool
  outerRegisters : Registers
  outerSp : ℕ
  outerPending : Option Ref

/-- What the threads share. The records stand in the registry's order. -/
structure Memory where
  word : ℕ
  running : Option Ptr
  pending : Option Ref
  threads : List (Ptr × KThread)
  numbered : ℕ
  /-- The word of each handle that the kernel clears when the thread ends. -/
  handles : List (Ptr × ℕ)

/-! ### The registry -/

def mainNumber : ℕ := 2 ^ 32 - 1

namespace Memory

def record (m : Memory) (thread : Ptr) : Option KThread := m.threads.lookup thread

/-- Assignments through a pointer to a record. -/
def modify (m : Memory) (thread : Ptr) (f : KThread → KThread) : Memory :=
  { m with threads := m.threads.map fun e => if e.1 = thread then (e.1, f e.2) else e }

/-- A record in a mapping of its own, which is filled with zeros. -/
def threadNew (m : Memory) (thread : Ptr) (stackBottom : ℕ) (tid : Tid) : Memory :=
  { m with threads := (thread, { KThread.zeroed with stackBottom, tid }) :: m.threads }

def threadRemove (m : Memory) (thread : Ptr) : Memory := { m with threads := m.threads.eraseP (·.1 = thread) }

def threadOf (m : Memory) (tid : Tid) : Option Ptr := (m.threads.find? (·.2.tid = tid)).map (·.1)

/-- The number of the next thread that is numbered. -/
def nextNumber (m : Memory) : ℕ × Memory := (m.numbered, { m with numbered := (m.numbered + 1) % 2 ^ 32 })

/-! ### The holder -/

/-- `kt_acquire`, once the lock is taken. -/
def acquire (m : Memory) (thread : Ptr) : Memory :=
  { m with running := some thread, pending := (m.record thread).bind (·.pending) }.modify thread
    fun r => { r with released := false, pending := none }

/-- `kt_release`, up to `kt_unlock`. -/
def release (m : Memory) (thread : Ptr) : Memory :=
  { m with pending := none, running := none }.modify thread fun r => { r with pending := m.pending, released := true }

/-- `kt_native_enter`, up to `kt_unlock`: the thread it answers, and the memory. -/
def nativeEnter (m : Memory) (registers : Registers) (sp : ℕ) : Option Ptr × Memory :=
  match m.running with
  | none => (none, m)
  | some thread => (some thread, (m.modify thread fun r => { r with registers, savedSp := sp }).release thread)

/-- `kt_callback_enter`, once the lock is taken: a thread that the runtime has not seen gets a new record. -/
def callbackEnter (m : Memory) (tid : Tid) (new : Ptr) (stackBottom : ℕ) : KThreadEntry × Memory :=
  match m.threadOf tid with
  | none =>
    let (number, m) := (m.threadNew new stackBottom tid).nextNumber
    ({ thread := new, attached := true, outerRegisters := fun _ => 0, outerSp := 0, outerPending := none },
      { m.modify new (fun r => { r with number, released := false }) with running := some new, pending := none })
  | some thread =>
    let outer := m.record thread
    ({ thread, attached := false, outerRegisters := (outer.map (·.registers)).getD fun _ => 0,
       outerSp := (outer.map (·.savedSp)).getD 0, outerPending := outer.bind (·.pending) },
      { m.modify thread (fun r => { r with pending := none, released := false }) with
        running := some thread, pending := none })

/-- `kt_callback_leave`, once no exception is in flight and up to `kt_unlock`. -/
def callbackLeave (m : Memory) (entry : KThreadEntry) : Memory :=
  if entry.attached then { m.threadRemove entry.thread with running := none }
  else
    { m.modify entry.thread (fun r => { r with registers := entry.outerRegisters, savedSp := entry.outerSp }) with
      pending := entry.outerPending }.release entry.thread

/-- `kt_thread_start`: the record of the new thread, and its handle. -/
def threadStart (m : Memory) (thread handle routine : Ptr) (argument : Option Ref) : Memory :=
  let (number, m) := (m.threadNew thread 0 0).nextNumber
  { m.modify thread (fun r => { r with released := true, startRoutine := routine, startArgument := argument, number })
    with handles := (handle, 1) :: m.handles }

/-- `kt_thread_main`, once the lock is taken: what the routine is given, and the memory. -/
def threadMain (m : Memory) (thread : Ptr) (tid : Tid) (bottom : ℕ) : Option Ref × Memory :=
  ((m.record thread).bind (·.startArgument),
    { m.modify thread (fun r => { r with tid, stackBottom := bottom, released := false, startArgument := none }) with
      running := some thread, pending := none })

/-- `kt_thread_main`, after the routine, once no exception is in flight and up to `kt_unlock`. -/
def threadEnd (m : Memory) (thread : Ptr) : Memory := { m.threadRemove thread with running := none }

end Memory

/-! ### Roots -/

/-- What a collection is handed to scan. -/
inductive Scan where
  | word (w : ℕ)
  | reference (r : Option Ref)
  | range (low high : ℕ)
  deriving DecidableEq

/-- How the process ends. -/
inductive Ending where
  | failed (text : String)
  | uncaught (thread : String)
  deriving DecidableEq

def scanFailure : String := "krusty: a collection while another thread runs Kotlin\n"

/-- `kt_threads_scan_released`. -/
def scanReleased (running : Option Ptr) : List (Ptr × KThread) → Except String (List Scan)
  | [] => .ok []
  | (thread, r) :: threads =>
    if running = some thread then scanReleased running threads
    else if r.released = false then .error scanFailure
    else do
      let scans ← scanReleased running threads
      return (List.ofFn fun i => .word (r.registers i)) ++
        [.reference r.pending, .reference r.startArgument, .range r.savedSp r.stackBottom] ++ scans

/-- The name that an uncaught exception is reported on. -/
def threadName (r : Option KThread) : String :=
  let number := (r.map (·.number)).getD 0
  if number = mainNumber then "main" else "Thread-" ++ toString number

/-! ### One thread -/

/-- What stands below the first frame of a thread: who created it. A thread that the runtime starts has its
record, its handle and its argument. -/
inductive Base where
  | main (thread : Ptr)
  | started (thread handle : Ptr) (argument : Option Ref)
  | foreign
  | ended (handle : Ptr)

/-- A call between Kotlin and foreign code that has not returned: a Kotlin frame that waits for the foreign
code it called, with what it left, or a foreign frame that waits for a callback, with its entry at an
address. -/
inductive Frame where
  | native (thread : Ptr) (registers : Registers) (sp : ℕ) (pending : Option Ref)
  | callback (entry : KThreadEntry) (address : ℕ)

/-- Why a thread takes the lock, and where it goes on. -/
inductive Entry where
  | nativeLeave (thread : Ptr) (joined : Option Ptr)
  | callbackEnter (address stackBottom : ℕ)
  | threadMain (thread : Ptr)

/-- Where a thread goes on when it has given the lock back. -/
inductive Exit where
  | foreign
  | join (handle : Ptr)
  | threadEnd

inductive Pc where
  | absent
  | foreign
  | kotlin
  | locking (at_ : Locking) (entry : Entry)
  | locked (entry : Entry)
  | unlocking (at_ : Unlocking) (exit : Exit)
  | joining (handle : Ptr)
  | ending

def Exit.pc : Exit → Pc
  | .foreign => .foreign
  | .join handle => .joining handle
  | .threadEnd => .ending

/-- A thread: where it is, the calls that have not returned, innermost first, and the lowest address of its
stack that is in use. -/
structure Local where
  pc : Pc
  base : Base
  frames : List Frame
  limit : ℕ

structure State where
  memory : Memory
  locals : Tid → Local
  ending : Option Ending

namespace State

def set (s : State) (t : Tid) (m : Memory) (l : Local) : State :=
  { s with memory := m, locals := Function.update s.locals t l }

/-- A thread changes its own place only. -/
def goto (s : State) (t : Tid) (pc : Pc) : State := s.set t s.memory { s.locals t with pc }

end State

/-- After `kt_runtime_init` by the thread that starts the program. -/
def initial (t : Tid) (thread : Ptr) (bottom : ℕ) : State where
  memory :=
    let taken : Memory :=
      { word := 1, running := some thread, pending := none, threads := [], numbered := 0, handles := [] }
    (taken.threadNew thread bottom t).modify thread fun r => { r with number := mainNumber }
  locals u := if u = t then ⟨.kotlin, .main thread, [], bottom⟩ else ⟨.absent, .foreign, [], 0⟩
  ending := none

/-- The stack pointer that the innermost waiting Kotlin frame left, if one waits. -/
def Local.waitingSp (l : Local) : Option ℕ :=
  match l.frames with
  | .native _ _ sp _ :: _ => some sp
  | _ => none

/-- One step of one thread. What stands between two operations on the lock's word is one step: only the thread
that holds the lock runs it, and it touches what the lock protects. -/
inductive Step (t : Tid) (s : State) : State → Prop
  /-- A step of `kt_lock`. -/
  | lock {at_ : Locking} {entry : Entry} (h : (s.locals t).pc = .locking at_ entry) :
    Step t s (s.set t { s.memory with word := (at_.next s.memory.word).2 }
      { s.locals t with pc := ((at_.next s.memory.word).1.map (.locking · entry)).getD (.locked entry) })
  /-- A step of `kt_unlock`. -/
  | unlock {at_ : Unlocking} {exit : Exit} (h : (s.locals t).pc = .unlocking at_ exit) :
    Step t s (s.set t { s.memory with word := (at_.next s.memory.word).2 }
      { s.locals t with pc := ((at_.next s.memory.word).1.map (.unlocking · exit)).getD exit.pc })
  /-- Kotlin raises or catches an exception, or makes a heap reference its own. -/
  | raise (pending : Option Ref) (h : (s.locals t).pc = .kotlin) :
    Step t s (s.set t { s.memory with pending } (s.locals t))
  /-- Kotlin collects. -/
  | collect (h : (s.locals t).pc = .kotlin) {scans : List Scan}
    (hscan : scanReleased s.memory.running s.memory.threads = .ok scans) : Step t s s
  | collectFails (h : (s.locals t).pc = .kotlin) {text : String}
    (hscan : scanReleased s.memory.running s.memory.threads = .error text) :
    Step t s { s with ending := some (.failed text) }
  /-- Kotlin calls foreign code, or waits for a thread to end: the frame lies at or above the stack pointer. -/
  | nativeEnter (registers : Registers) {sp : ℕ} {thread : Ptr} {m : Memory} (join : Option Ptr)
    (h : (s.locals t).pc = .kotlin) (hsp : sp ≤ (s.locals t).limit)
    (henter : s.memory.nativeEnter registers sp = (some thread, m)) :
    Step t s (s.set t m
      { s.locals t with
        pc := .unlocking .subtract ((join.map .join).getD .foreign)
        frames := .native thread registers sp s.memory.pending :: (s.locals t).frames })
  /-- The foreign code that Kotlin called returns. -/
  | foreignReturns {thread : Ptr} {registers : Registers} {sp : ℕ} {pending : Option Ref} {frames : List Frame}
    (h : (s.locals t).pc = .foreign) (hframes : (s.locals t).frames = .native thread registers sp pending :: frames) :
    Step t s (s.goto t (.locking .swap (.nativeLeave thread none)))
  /-- The thread waited for has ended. -/
  | joined {handle thread : Ptr} {registers : Registers} {sp : ℕ} {pending : Option Ref} {frames : List Frame}
    (h : (s.locals t).pc = .joining handle) (hended : s.memory.handles.lookup handle = some 0)
    (hframes : (s.locals t).frames = .native thread registers sp pending :: frames) :
    Step t s (s.goto t (.locking .swap (.nativeLeave thread (some handle))))
  | nativeLeave {thread q : Ptr} {joined : Option Ptr} {registers : Registers} {sp : ℕ} {pending : Option Ref}
    {frames : List Frame} (h : (s.locals t).pc = .locked (.nativeLeave thread joined))
    (hframes : (s.locals t).frames = .native q registers sp pending :: frames) :
    Step t s (s.set t
      { s.memory.acquire thread with handles := (s.memory.acquire thread).handles.filter (some ·.1 ≠ joined) }
      { s.locals t with pc := .kotlin, frames, limit := sp })
  /-- Foreign code calls Kotlin: the entry lies below the frame of the Kotlin code that waits. -/
  | calledBack (address stackBottom : ℕ) (h : (s.locals t).pc = .foreign)
    (haddress : ∀ sp, (s.locals t).waitingSp = some sp → address < sp) :
    Step t s (s.goto t (.locking .swap (.callbackEnter address stackBottom)))
  | callbackEnter {address stackBottom : ℕ} {entry : KThreadEntry} {m : Memory} (new : Ptr)
    (h : (s.locals t).pc = .locked (.callbackEnter address stackBottom)) (hnew : s.memory.record new = none)
    (henter : s.memory.callbackEnter t new stackBottom = (entry, m)) :
    Step t s (s.set t m
      { s.locals t with
        pc := .kotlin
        frames := .callback entry address :: (s.locals t).frames
        limit := if entry.attached then min address stackBottom else address })
  | callbackLeave {entry : KThreadEntry} {address : ℕ} {frames : List Frame} (h : (s.locals t).pc = .kotlin)
    (hframes : (s.locals t).frames = .callback entry address :: frames) (hpending : s.memory.pending = none) :
    Step t s (s.set t (s.memory.callbackLeave entry)
      { s.locals t with pc := .unlocking .subtract .foreign, frames })
  | callbackFails {entry : KThreadEntry} {address : ℕ} {frames : List Frame} {e : Ref}
    (h : (s.locals t).pc = .kotlin) (hframes : (s.locals t).frames = .callback entry address :: frames)
    (hpending : s.memory.pending = some e) :
    Step t s { s with ending := some (.uncaught (threadName (s.memory.record entry.thread))) }
  /-- Kotlin starts a thread, which is not there yet, on mappings that are new. -/
  | threadStart {u : Tid} {thread handle : Ptr} (routine : Ptr) (argument : Option Ref)
    (h : (s.locals t).pc = .kotlin) (hu : (s.locals u).pc = .absent) (hzero : u ≠ 0)
    (hnew : s.memory.record thread = none) (hhandle : s.memory.handles.lookup handle = none) :
    Step t s (s.set u (s.memory.threadStart thread handle routine argument)
      ⟨.locking .swap (.threadMain thread), .started thread handle argument, [], 0⟩)
  | threadStartFails (h : (s.locals t).pc = .kotlin) :
    Step t s { s with ending := some (.failed "krusty: could not start a thread\n") }
  | threadMain {thread : Ptr} (bottom : ℕ) (h : (s.locals t).pc = .locked (.threadMain thread)) :
    Step t s (s.set t (s.memory.threadMain thread t bottom).2 { s.locals t with pc := .kotlin, limit := bottom })
  | threadEnd {thread handle : Ptr} {argument : Option Ref} (h : (s.locals t).pc = .kotlin)
    (hbase : (s.locals t).base = .started thread handle argument) (hframes : (s.locals t).frames = [])
    (hpending : s.memory.pending = none) :
    Step t s (s.set t (s.memory.threadEnd thread)
      { s.locals t with pc := .unlocking .subtract .threadEnd, base := .ended handle })
  | threadFails {thread handle : Ptr} {argument : Option Ref} {e : Ref} (h : (s.locals t).pc = .kotlin)
    (hbase : (s.locals t).base = .started thread handle argument) (hframes : (s.locals t).frames = [])
    (hpending : s.memory.pending = some e) :
    Step t s { s with ending := some (.uncaught (threadName (s.memory.record thread))) }
  /-- The kernel ends the thread, and clears the word of its handle. -/
  | threadExits {handle : Ptr} (h : (s.locals t).pc = .ending) (hbase : (s.locals t).base = .ended handle) :
    Step t s (s.set t
      { s.memory with handles := s.memory.handles.map fun e => if e.1 = handle then (e.1, 0) else e }
      ⟨.absent, .foreign, [], 0⟩)
  /-- A thread that foreign code creates, and the end of one. -/
  | appear (h : (s.locals t).pc = .absent) (hzero : t ≠ 0) : Step t s (s.set t s.memory ⟨.foreign, .foreign, [], 0⟩)
  | disappear (h : (s.locals t).pc = .foreign) (hbase : (s.locals t).base = .foreign)
    (hframes : (s.locals t).frames = []) : Step t s (s.set t s.memory ⟨.absent, .foreign, [], 0⟩)

/-- What any interleaving of the threads' steps comes to, until the process ends. -/
inductive Reachable : State → Prop
  | start {t : Tid} (ht : t ≠ 0) (thread : Ptr) (bottom : ℕ) : Reachable (initial t thread bottom)
  | step {s s' : State} {t : Tid} (hs : Reachable s) (hrunning : s.ending = none) (h : Step t s s') : Reachable s'

end Krusty.Native.Threads
