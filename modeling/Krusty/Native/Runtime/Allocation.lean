import Mathlib

/-! The collected heap: chunks of slots by size class, allocation from them, and the sweep that frees slots. -/
namespace Krusty.Native.Gc

abbrev Address := ℕ

/-! ### Heap geometry -/

def pageBytes : ℕ := 4096

def chunkBytes : ℕ := 64 * 1024

def minCollectBytes : ℕ := 4 * 1024 * 1024

def sizeClasses : List ℕ := [16, 32, 48, 64, 96, 128, 192, 256, 384, 512, 768, 1024, 1536, 2048]

def classCount : ℕ := sizeClasses.length

def largestClass : ℕ := 2048

/-- `sizeof(KObjectHeader)`, one pointer. -/
def objectHeaderBytes : ℕ := 8

/-- `sizeof(KChunk)` with its padding. -/
def chunkHeaderBytes : ℕ := 88

/-- A chunk. Its address is its identity, and its marks are clear outside a collection. -/
structure KChunk where
  objects : Address
  allocated : ℕ → Bool
  /-- The first slot to reuse, or 0. Each holds the address of the next in its first word. -/
  freeList : Address
  mappedBytes : ℕ
  objectSize : ℕ
  slotMagic : ℕ
  objectCount : ℕ
  highWater : ℕ
  live : ℕ
  large : Bool

/-- The heap without the cursors: the chunks by address, the lists through `next_in_class` and
`next_in_heap` with their heads first, and the words of the slots. -/
structure Heap where
  chunk : Address → Option KChunk
  classChunks : ℕ → List Address
  allChunks : List Address
  memory : Address → ℕ
  heapBytes : ℕ
  allocatedSinceCollect : ℕ
  nextCollectAt : ℕ

/-- What a call finds outside the heap: the address the kernel maps next, the bottom of the running stack, and
the slots that marking reaches from the roots. -/
structure Environment where
  mapped : Address
  stackBottom : Address
  marked : Address → ℕ → Bool

def classFor (size : ℕ) : ℕ :=
  if largestClass < size then classCount
  else
    let granules := (size + 15) / 16
    if granules ≤ 4 then granules - 1
    else
      let below := granules - 1
      let top := Nat.log2 below
      2 * top + below / 2 ^ (top - 1) % 2

def slotOf (chunk : KChunk) (offset : ℕ) : ℕ :=
  if chunk.large then 0 else offset / 16 * chunk.slotMagic / 2 ^ 32

/-! ### Allocation -/

def setChunk (heap : Heap) (address : Address) (chunk : KChunk) : Heap :=
  { heap with chunk := Function.update heap.chunk address (some chunk) }

def roundUp (n unit : ℕ) : ℕ := (n + unit - 1) / unit * unit

/-- A zeroed chunk where the kernel mapped it, at the head of all chunks. -/
def newChunk (mapped : Address) (heap : Heap) (objectSize objectCount : ℕ) (large : Bool) : Heap :=
  let header := roundUp (chunkHeaderBytes + 2 * ((objectCount + 63) / 64) * 8) 16
  let total := roundUp (header + objectSize * objectCount) pageBytes
  let chunk : KChunk :=
    { objects := mapped + header
      allocated := fun _ => false
      freeList := 0
      mappedBytes := total
      objectSize := objectSize
      slotMagic := if large then 0 else (2 ^ 32 + objectSize / 16 - 1) / (objectSize / 16)
      objectCount := objectCount
      highWater := 0
      live := 0
      large := large }
  { setChunk heap mapped chunk with
    allChunks := mapped :: heap.allChunks
    memory := fun address => if mapped ≤ address ∧ address < mapped + total then 0 else heap.memory address
    heapBytes := heap.heapBytes + total }

/-- A slot of a chunk and the chunk without it: a slot to reuse first, else one never handed out. -/
def takeFrom (memory : Address → ℕ) (chunk : KChunk) : Option (Address × KChunk) :=
  if chunk.freeList ≠ 0 then
    let object := chunk.freeList
    let index := slotOf chunk (object - chunk.objects)
    some (object, { chunk with
      freeList := memory object, allocated := Function.update chunk.allocated index true, live := chunk.live + 1 })
  else if chunk.highWater < chunk.objectCount then
    let index := chunk.highWater
    some (chunk.objects + index * chunk.objectSize, { chunk with
      highWater := chunk.highWater + 1, allocated := Function.update chunk.allocated index true,
      live := chunk.live + 1 })
  else none

/-- A taken slot cleared and stamped with its type. -/
def initializeObject (heap : Heap) (object objectSize type : ℕ) : Heap :=
  { heap with
    allocatedSinceCollect := heap.allocatedSinceCollect + objectSize
    memory := fun address =>
      if address = object then type
      else if object < address ∧ address < object + objectSize then 0
      else heap.memory address }

/-- The first of the chunks in a list that has a slot, with the slot and the chunk without it. -/
def firstWithRoom (heap : Heap) (chunks : List Address) : Option (Address × Address × KChunk) :=
  chunks.findSome? fun address => do
    let (object, chunk) ← takeFrom heap.memory (← heap.chunk address)
    some (address, object, chunk)

/-! ### Collection -/

/-- Dead slots go on the reuse list in order, each linked to the one before it. -/
def threadDead (chunk : KChunk) (memory : Address → ℕ) (dead : List ℕ) : (Address → ℕ) × Address :=
  dead.foldl (fun state index =>
    let object := chunk.objects + index * chunk.objectSize
    (Function.update state.1 object state.2, object)) (memory, chunk.freeList)

def sweepChunk (marked : ℕ → Bool) (memory : Address → ℕ) (chunk : KChunk) : (Address → ℕ) × KChunk :=
  let bits := (chunk.highWater + 63) / 64 * 64
  let survivors := (List.range bits).filter fun index => chunk.allocated index && marked index
  let dead := (List.range bits).filter fun index => chunk.allocated index && !marked index
  let threaded := threadDead chunk memory dead
  (threaded.1, { chunk with
    allocated := fun index => if index < bits then chunk.allocated index && marked index else chunk.allocated index
    freeList := threaded.2
    live := survivors.length })

/-- One chunk of the sweep, with the bytes of the survivors so far: a dead large object's chunk is unmapped. -/
def sweepStep (marked : Address → ℕ → Bool) (state : Heap × ℕ) (address : Address) : Heap × ℕ :=
  match state.1.chunk address with
  | none => state
  | some chunk =>
    let swept := sweepChunk (marked address) state.1.memory chunk
    let liveBytes := state.2 + swept.2.live * chunk.objectSize
    if chunk.large && swept.2.live == 0 then
      ({ state.1 with
        memory := swept.1
        chunk := Function.update state.1.chunk address none
        heapBytes := state.1.heapBytes - chunk.mappedBytes }, liveBytes)
    else
      ({ state.1 with
        memory := swept.1
        chunk := Function.update state.1.chunk address (some swept.2)
        allChunks := state.1.allChunks ++ [address] }, liveBytes)

def sweep (marked : Address → ℕ → Bool) (heap : Heap) : Heap × ℕ :=
  heap.allChunks.foldl (sweepStep marked) ({ heap with allChunks := [] }, 0)

/-- A collection of the heap, which ends the process when no stack was recorded. -/
def collectHeap (environment : Environment) (heap : Heap) : Option Heap :=
  if environment.stackBottom = 0 then none
  else
    let swept := sweep environment.marked heap
    some { swept.1 with
      allocatedSinceCollect := 0
      nextCollectAt := if minCollectBytes < swept.2 then swept.2 else minCollectBytes }

/-! ### The allocator with cursors -/

/-- The heap and the chunk where each class's next allocation starts looking. -/
structure Collector where
  heap : Heap
  cursor : ℕ → Option Address

def gcCollect (environment : Environment) (collector : Collector) : Option Collector := do
  let heap ← collectHeap environment collector.heap
  some ⟨heap, fun index => (heap.classChunks index).head?⟩

/-- The chunks of a class from one of them on. -/
def chunksFrom (chunks : List Address) : Option Address → List Address
  | none => []
  | some address => chunks.dropWhile (· ≠ address)

/-- The first slot of the chunk the kernel mapped, its object initialized. -/
def takeMapped (environment : Environment) (heap : Heap) (objectSize type : ℕ) : Option (Address × Heap) := do
  let (object, chunk) ← takeFrom heap.memory (← heap.chunk environment.mapped)
  some (object, initializeObject (setChunk heap environment.mapped chunk) object objectSize type)

/-- A new chunk at the head of its class. -/
def newClassChunk (environment : Environment) (heap : Heap) (index objectSize : ℕ) : Heap :=
  let mapped := newChunk environment.mapped heap objectSize (chunkBytes / objectSize) false
  { mapped with
    classChunks := Function.update heap.classChunks index (environment.mapped :: heap.classChunks index) }

/-- The chunk of one large object. A size that would wrap when rounded is out of memory. -/
def allocateLarge (environment : Environment) (heap : Heap) (type size : ℕ) : Option (Address × Heap) :=
  if 2 ^ 32 - 1 - 15 < size then none
  else
    let objectSize := (size + 15) / 16 * 16
    takeMapped environment (newChunk environment.mapped heap objectSize 1 true) objectSize type

/-- The collection a slow allocation starts with when one is due. -/
def prepare (environment : Environment) (collector : Collector) : Option Collector :=
  if collector.heap.nextCollectAt ≤ collector.heap.allocatedSinceCollect then gcCollect environment collector
  else some collector

/-- The rest of a slow allocation: the first chunk from the cursor on with room, or a new one. -/
def allocateFromCursor (environment : Environment) (type size : ℕ) (collector : Collector) :
    Option (Address × Collector) :=
  let heap := collector.heap
  let index := classFor size
  if index < classCount then
    let objectSize := sizeClasses.getD index 0
    match firstWithRoom heap (chunksFrom (heap.classChunks index) (collector.cursor index)) with
    | some (address, object, chunk) =>
      some (object, ⟨initializeObject (setChunk heap address chunk) object objectSize type,
        Function.update collector.cursor index (some address)⟩)
    | none => do
      let (object, heap) ← takeMapped environment (newClassChunk environment heap index objectSize) objectSize type
      some (object, ⟨heap, Function.update collector.cursor index (some environment.mapped)⟩)
  else do
    let (object, heap) ← allocateLarge environment heap type size
    some (object, { collector with heap := heap })

def gcAllocateSlow (environment : Environment) (type size : ℕ) (collector : Collector) :
    Option (Address × Collector) := do
  let size := if size < objectHeaderBytes then objectHeaderBytes else size
  allocateFromCursor environment type size (← prepare environment collector)

def gcAllocate (environment : Environment) (type size : ℕ) (collector : Collector) :
    Option (Address × Collector) :=
  let slow := gcAllocateSlow environment type size collector
  let heap := collector.heap
  if size ≤ largestClass ∧ heap.allocatedSinceCollect < heap.nextCollectAt then
    let index := classFor (if size < objectHeaderBytes then objectHeaderBytes else size)
    match collector.cursor index with
    | none => slow
    | some address =>
      match heap.chunk address with
      | none => slow
      | some chunk =>
        match takeFrom heap.memory chunk with
        | none => slow
        | some (object, taken) =>
          some (object, { collector with
            heap := initializeObject (setChunk heap address taken) object chunk.objectSize type })
  else slow

/-! ### The plain allocator -/

/-- The heap an allocation starts from: collected when a collection is due. -/
def collectWhenDue (environment : Environment) (heap : Heap) : Option Heap :=
  if heap.nextCollectAt ≤ heap.allocatedSinceCollect then collectHeap environment heap else some heap

/-- The first chunk of the class with room, or a new one. -/
def allocateFromHead (environment : Environment) (type size : ℕ) (heap : Heap) : Option (Address × Heap) :=
  let index := classFor size
  if index < classCount then
    let objectSize := sizeClasses.getD index 0
    match firstWithRoom heap (heap.classChunks index) with
    | some (address, object, chunk) =>
      some (object, initializeObject (setChunk heap address chunk) object objectSize type)
    | none => takeMapped environment (newClassChunk environment heap index objectSize) objectSize type
  else allocateLarge environment heap type size

/-- Collects when due, then walks the class's chunks from the head for the first with room. -/
def plainAllocate (environment : Environment) (type size : ℕ) (heap : Heap) : Option (Address × Heap) := do
  allocateFromHead environment type (max size objectHeaderBytes) (← collectWhenDue environment heap)

end Krusty.Native.Gc
