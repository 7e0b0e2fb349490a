import Krusty.Native.Runtime.Allocation

/-! The chunks before a class's cursor are full, so an allocation that starts at the cursor finds what one from
the head would. -/
namespace Krusty.Native.Gc

/-! ### Slots -/

def IsFull (chunk : KChunk) : Prop := chunk.freeList = 0 ∧ chunk.objectCount ≤ chunk.highWater

theorem takeFrom_eq_none_iff (memory : Address → ℕ) (chunk : KChunk) :
    takeFrom memory chunk = none ↔ IsFull chunk := by
  unfold takeFrom IsFull
  by_cases hfree : chunk.freeList = 0
  · by_cases hroom : chunk.highWater < chunk.objectCount
    · simp [hfree, hroom]
    · simp [hfree, hroom, not_lt.mp hroom]
  · simp [hfree]

variable {object : Address}

theorem takeFrom_kept {memory : Address → ℕ} {chunk taken : KChunk}
    (h : takeFrom memory chunk = some (object, taken)) :
    taken.large = chunk.large ∧ taken.objectSize = chunk.objectSize := by
  unfold takeFrom at h
  split at h
  · obtain ⟨-, rfl⟩ := Prod.mk.inj (Option.some.inj h)
    exact ⟨rfl, rfl⟩
  · split at h
    · obtain ⟨-, rfl⟩ := Prod.mk.inj (Option.some.inj h)
      exact ⟨rfl, rfl⟩
    · cases h

/-- A chunk that is mapped and has no slot left. -/
def FullAt (heap : Heap) (address : Address) : Prop := ∃ chunk, heap.chunk address = some chunk ∧ IsFull chunk

def roomAt (heap : Heap) (address : Address) : Option (Address × Address × KChunk) := do
  let (object, chunk) ← takeFrom heap.memory (← heap.chunk address)
  some (address, object, chunk)

theorem firstWithRoom_eq (heap : Heap) (chunks : List Address) :
    firstWithRoom heap chunks = chunks.findSome? (roomAt heap) := rfl

variable {heap : Heap}

theorem roomAt_eq_none_of_full {address : Address} (h : FullAt heap address) : roomAt heap address = none := by
  obtain ⟨chunk, hchunk, hfull⟩ := h
  simp [roomAt, hchunk, (takeFrom_eq_none_iff heap.memory chunk).mpr hfull]

theorem roomAt_eq_some_iff {address found object : Address} {taken : KChunk} :
    roomAt heap address = some (found, object, taken) ↔
      found = address ∧ ∃ chunk, heap.chunk address = some chunk ∧
        takeFrom heap.memory chunk = some (object, taken) := by
  unfold roomAt
  cases hchunk : heap.chunk address with
  | none => simp
  | some chunk =>
    cases htake : takeFrom heap.memory chunk with
    | none => simp [htake]
    | some pair =>
      simp only [Option.bind_eq_bind, Option.bind_some, htake, Option.some.injEq, Prod.mk.injEq,
        exists_eq_left']
      constructor
      · rintro ⟨rfl, rfl, rfl⟩
        exact ⟨rfl, rfl⟩
      · rintro ⟨rfl, rfl⟩
        exact ⟨rfl, rfl, rfl⟩

theorem full_of_roomAt_eq_none {address : Address} {chunk : KChunk}
    (hchunk : heap.chunk address = some chunk) (h : roomAt heap address = none) : FullAt heap address := by
  refine ⟨chunk, hchunk, (takeFrom_eq_none_iff heap.memory chunk).mp ?_⟩
  cases htake : takeFrom heap.memory chunk with
  | none => rfl
  | some pair => simp [roomAt, hchunk, htake] at h

/-! ### Cursors -/

/-- A cursor splits its class's chunks: the ones before it are full, and only an empty list has none. -/
def CursorSound (heap : Heap) (chunks : List Address) (cursor : Option Address) : Prop :=
  ∃ before after, chunks = before ++ after ∧ cursor = after.head? ∧ (after = [] → before = []) ∧
    ∀ address ∈ before, FullAt heap address

theorem cursorSound_head (heap : Heap) (chunks : List Address) : CursorSound heap chunks chunks.head? :=
  ⟨[], chunks, rfl, rfl, fun _ => rfl, fun _ h => by cases h⟩

theorem chunksFrom_append {before after : List Address} (hnodup : (before ++ after).Nodup)
    (hnone : after = [] → before = []) : chunksFrom (before ++ after) after.head? = after := by
  cases after with
  | nil => rw [hnone rfl]; rfl
  | cons address after =>
    have hnot : ∀ other ∈ before, other ≠ address := fun other hother heq =>
      List.disjoint_of_nodup_append hnodup hother (heq ▸ List.mem_cons_self)
    simp only [List.head?_cons, chunksFrom]
    rw [List.dropWhile_append_of_pos (by simpa using hnot)]
    simp

variable {cursor : Option Address}

/-- The search from a sound cursor finds what the search from the head does. -/
theorem firstWithRoom_chunksFrom {chunks : List Address}
    (hnodup : chunks.Nodup) (h : CursorSound heap chunks cursor) :
    firstWithRoom heap (chunksFrom chunks cursor) = firstWithRoom heap chunks := by
  obtain ⟨before, after, rfl, rfl, hnone, hfull⟩ := h
  have hbefore : before.findSome? (roomAt heap) = none :=
    List.findSome?_eq_none_iff.mpr fun address haddress => roomAt_eq_none_of_full (hfull address haddress)
  rw [chunksFrom_append hnodup hnone, firstWithRoom_eq, firstWithRoom_eq, List.findSome?_append, hbefore]
  rfl

/-- A chunk of small objects of one size. -/
def SmallAt (heap : Heap) (address : Address) (objectSize : ℕ) : Prop :=
  ∃ chunk, heap.chunk address = some chunk ∧ chunk.large = false ∧ chunk.objectSize = objectSize

/-- What every reachable state has. -/
structure Sound (collector : Collector) : Prop where
  cursors : ∀ index, CursorSound collector.heap (collector.heap.classChunks index) (collector.cursor index)
  nodup : ∀ index, (collector.heap.classChunks index).Nodup
  small : ∀ index, ∀ address ∈ collector.heap.classChunks index,
    SmallAt collector.heap address (sizeClasses.getD index 0)

/-! ### The fast path -/

theorem classFor_lt {size : ℕ} (h : size ≤ largestClass) : classFor size < classCount := by
  have hgranules : (size + 15) / 16 ≤ 128 := by
    unfold largestClass at h
    omega
  have hclass : ∀ granules ≤ 128, (if granules ≤ 4 then granules - 1
      else 2 * Nat.log2 (granules - 1) + (granules - 1) / 2 ^ (Nat.log2 (granules - 1) - 1) % 2) <
      classCount := by
    decide
  unfold classFor
  rw [if_neg (not_lt.mpr h)]
  exact hclass _ hgranules

theorem size_eq_max (size : ℕ) :
    (if size < objectHeaderBytes then objectHeaderBytes else size) = max size objectHeaderBytes := by
  split <;> omega

variable {collector : Collector}

/-- The fast path hands out the slot the slow path would, and leaves the cursor where it is. -/
theorem gcAllocate_eq_slow (h : Sound collector) (environment : Environment) (type size : ℕ) :
    gcAllocate environment type size collector = gcAllocateSlow environment type size collector := by
  unfold gcAllocate
  dsimp only
  rw [size_eq_max]
  split
  · rename_i hfast
    obtain ⟨hsize, hdue⟩ := hfast
    have hindex : classFor (max size objectHeaderBytes) < classCount :=
      classFor_lt (max_le hsize (by decide))
    cases hcursor : collector.cursor (classFor (max size objectHeaderBytes)) with
    | none => rfl
    | some address =>
      dsimp only
      cases hchunk : collector.heap.chunk address with
      | none => rfl
      | some chunk =>
        dsimp only
        cases htake : takeFrom collector.heap.memory chunk with
        | none => rfl
        | some pair =>
          obtain ⟨object, taken⟩ := pair
          obtain ⟨before, after, hlist, hhead, hnone, hfull⟩ := h.cursors (classFor (max size objectHeaderBytes))
          rw [hcursor] at hhead
          obtain ⟨rest, rfl⟩ := List.head?_eq_some_iff.mp hhead.symm
          have hmem : address ∈ collector.heap.classChunks (classFor (max size objectHeaderBytes)) := by
            rw [hlist]
            exact List.mem_append_right before List.mem_cons_self
          obtain ⟨chunk', hchunk', -, hobjectSize⟩ := h.small _ address hmem
          rw [hchunk] at hchunk'
          obtain rfl := Option.some.inj hchunk'
          have hfrom : chunksFrom (collector.heap.classChunks (classFor (max size objectHeaderBytes)))
              (some address) = address :: rest := by
            have hnodup := h.nodup (classFor (max size objectHeaderBytes))
            rw [hlist] at hnodup ⊢
            exact chunksFrom_append hnodup hnone
          have hroom : roomAt collector.heap address = some (address, object, taken) :=
            roomAt_eq_some_iff.mpr ⟨rfl, chunk, hchunk, htake⟩
          have hfirst : firstWithRoom collector.heap (address :: rest) = some (address, object, taken) := by
            rw [firstWithRoom_eq, List.findSome?_cons, hroom]
          have hcursors : Function.update collector.cursor (classFor (max size objectHeaderBytes))
              (some address) = collector.cursor := by
            rw [← hcursor]
            exact Function.update_eq_self _ _
          unfold gcAllocateSlow prepare allocateFromCursor
          rw [size_eq_max, if_neg (not_le.mpr hdue)]
          simp only [Option.bind_eq_bind, Option.bind_some, hindex, if_true, hcursor, hfrom, hfirst, hobjectSize,
            hcursors]
  · rfl

/-! ### The plain allocator -/

theorem prepare_heap (environment : Environment) (collector : Collector) :
    (prepare environment collector).map (·.heap) = collectWhenDue environment collector.heap := by
  unfold prepare collectWhenDue
  split
  · unfold gcCollect
    cases collectHeap environment collector.heap <;> rfl
  · rfl

variable {environment : Environment}

/-- The search of the prepared state finds what the search from the head does. -/
theorem firstWithRoom_prepare {collector prepared : Collector} (h : Sound collector)
    (hprepared : prepare environment collector = some prepared) (index : ℕ) :
    firstWithRoom prepared.heap (chunksFrom (prepared.heap.classChunks index) (prepared.cursor index)) =
      firstWithRoom prepared.heap (prepared.heap.classChunks index) := by
  unfold prepare at hprepared
  split at hprepared
  · unfold gcCollect at hprepared
    cases hheap : collectHeap environment collector.heap with
    | none => simp [hheap] at hprepared
    | some heap =>
      rw [hheap] at hprepared
      obtain rfl := Option.some.inj hprepared
      dsimp only
      cases heap.classChunks index with
      | nil => rfl
      | cons address chunks => simp [chunksFrom]
  · obtain rfl := Option.some.inj hprepared
    exact firstWithRoom_chunksFrom (h.nodup index) (h.cursors index)

variable {type size : ℕ}

/-- Where the searches agree, the allocations do. -/
theorem allocateFromCursor_heap (h : firstWithRoom collector.heap
        (chunksFrom (collector.heap.classChunks (classFor size)) (collector.cursor (classFor size))) =
      firstWithRoom collector.heap (collector.heap.classChunks (classFor size))) :
    (allocateFromCursor environment type size collector).map (fun result => (result.1, result.2.heap)) =
      allocateFromHead environment type size collector.heap := by
  unfold allocateFromCursor allocateFromHead
  dsimp only
  rw [h]
  split
  · cases firstWithRoom collector.heap (collector.heap.classChunks (classFor size)) with
    | some found => rfl
    | none =>
      dsimp only
      cases takeMapped environment (newClassChunk environment collector.heap (classFor size)
        (sizeClasses.getD (classFor size) 0)) (sizeClasses.getD (classFor size) 0) type <;> rfl
  · cases allocateLarge environment collector.heap type size <;> rfl

theorem gcAllocate_heap (h : Sound collector) (environment : Environment) (type size : ℕ) :
    (gcAllocate environment type size collector).map (fun result => (result.1, result.2.heap)) =
      plainAllocate environment type size collector.heap := by
  rw [gcAllocate_eq_slow h, gcAllocateSlow, plainAllocate, size_eq_max, ← prepare_heap]
  cases hprepared : prepare environment collector with
  | none => rfl
  | some prepared => exact allocateFromCursor_heap (firstWithRoom_prepare h hprepared _)

/-! ### What a step keeps -/

/-- Full chunks stay full, and chunks of small objects stay. -/
structure Extends (heap heap' : Heap) : Prop where
  full : ∀ address, FullAt heap address → FullAt heap' address
  small : ∀ address objectSize, SmallAt heap address objectSize → SmallAt heap' address objectSize

theorem Extends.trans {heap heap' heap'' : Heap} (h : Extends heap heap') (h' : Extends heap' heap'') :
    Extends heap heap'' where
  full address hfull := h'.full address (h.full address hfull)
  small address objectSize hsmall := h'.small address objectSize (h.small address objectSize hsmall)

/-- A slot is only taken from a chunk that is not full. -/
theorem extends_place {address object : Address} {chunk taken : KChunk}
    (hchunk : heap.chunk address = some chunk) (htake : takeFrom heap.memory chunk = some (object, taken))
    (objectSize type : ℕ) :
    Extends heap (initializeObject (setChunk heap address taken) object objectSize type) where
  full other hfull := by
    obtain ⟨full, hother, hisFull⟩ := hfull
    have hne : other ≠ address := by
      rintro rfl
      rw [hchunk] at hother
      obtain rfl := Option.some.inj hother
      rw [(takeFrom_eq_none_iff heap.memory chunk).mpr hisFull] at htake
      cases htake
    refine ⟨full, ?_, hisFull⟩
    simpa [initializeObject, setChunk, hne] using hother
  small other objectSize' hsmall := by
    obtain ⟨small, hother, hlarge, hsize⟩ := hsmall
    by_cases heq : other = address
    · subst heq
      rw [hchunk] at hother
      obtain rfl := Option.some.inj hother
      obtain ⟨hlarge', hsize'⟩ := takeFrom_kept htake
      exact ⟨taken, by simp [initializeObject, setChunk], hlarge'.trans hlarge, hsize'.trans hsize⟩
    · exact ⟨small, by simpa [initializeObject, setChunk, heq] using hother, hlarge, hsize⟩

theorem chunk_newChunk {mapped other : Address} {objectSize objectCount : ℕ} {large : Bool}
    (h : other ≠ mapped) : (newChunk mapped heap objectSize objectCount large).chunk other = heap.chunk other := by
  simp [newChunk, setChunk, h]

theorem extends_newChunk {mapped : Address} (hfresh : heap.chunk mapped = none)
    (objectSize objectCount : ℕ) (large : Bool) : Extends heap (newChunk mapped heap objectSize objectCount large) where
  full other hfull := by
    obtain ⟨full, hother, hisFull⟩ := hfull
    have hne : other ≠ mapped := by
      rintro rfl
      rw [hfresh] at hother
      cases hother
    exact ⟨full, (chunk_newChunk hne).trans hother, hisFull⟩
  small other objectSize' hsmall := by
    obtain ⟨small, hother, hrest⟩ := hsmall
    have hne : other ≠ mapped := by
      rintro rfl
      rw [hfresh] at hother
      cases hother
    exact ⟨small, (chunk_newChunk hne).trans hother, hrest⟩

theorem takeMapped_extends {heap heap' : Heap} {objectSize type : ℕ}
    (h : takeMapped environment heap objectSize type = some (object, heap')) :
    Extends heap heap' ∧ heap'.classChunks = heap.classChunks := by
  unfold takeMapped at h
  cases hchunk : heap.chunk environment.mapped with
  | none => simp [hchunk] at h
  | some chunk =>
    cases htake : takeFrom heap.memory chunk with
    | none => simp [hchunk, htake] at h
    | some pair =>
      simp only [hchunk, htake, Option.bind_eq_bind, Option.bind_some, Option.some.injEq, Prod.mk.injEq] at h
      obtain ⟨-, rfl⟩ := h
      exact ⟨extends_place hchunk htake objectSize type, rfl⟩

theorem CursorSound.extend {heap heap' : Heap} {chunks : List Address}
    (h : CursorSound heap chunks cursor) (hextends : Extends heap heap') : CursorSound heap' chunks cursor := by
  obtain ⟨before, after, hchunks, hcursor, hnone, hfull⟩ := h
  exact ⟨before, after, hchunks, hcursor, hnone, fun address haddress => hextends.full address (hfull address haddress)⟩

theorem Sound.extend (h : Sound collector) {heap' : Heap}
    (hextends : Extends collector.heap heap') (hclass : heap'.classChunks = collector.heap.classChunks) :
    Sound { collector with heap := heap' } where
  cursors index := by
    dsimp only
    rw [hclass]
    exact (h.cursors index).extend hextends
  nodup index := by
    dsimp only
    rw [hclass]
    exact h.nodup index
  small index address haddress := by
    dsimp only at haddress
    rw [hclass] at haddress
    exact hextends.small address _ (h.small index address haddress)

theorem Sound.setCursor (h : Sound collector) {index : ℕ}
    (hcursor : CursorSound collector.heap (collector.heap.classChunks index) cursor) :
    Sound { collector with cursor := Function.update collector.cursor index cursor } where
  cursors index' := by
    by_cases heq : index' = index
    · subst heq
      simpa using hcursor
    · simpa [heq] using h.cursors index'
  nodup := h.nodup
  small := h.small

/-- The cursor moves over chunks the search found full. -/
theorem cursorSound_found (h : Sound collector) {index : ℕ} {address object : Address} {taken : KChunk}
    (hfirst : firstWithRoom collector.heap (chunksFrom (collector.heap.classChunks index) (collector.cursor index)) =
      some (address, object, taken)) :
    CursorSound collector.heap (collector.heap.classChunks index) (some address) ∧
      ∃ chunk, collector.heap.chunk address = some chunk ∧
        takeFrom collector.heap.memory chunk = some (object, taken) := by
  rw [firstWithRoom_chunksFrom (h.nodup index) (h.cursors index), firstWithRoom_eq,
    List.findSome?_eq_some_iff] at hfirst
  obtain ⟨skipped, found, rest, hlist, hroom, hskipped⟩ := hfirst
  obtain ⟨rfl, chunk, hchunk, htake⟩ := roomAt_eq_some_iff.mp hroom
  refine ⟨⟨skipped, address :: rest, hlist, rfl, fun hnil => absurd hnil (List.cons_ne_nil _ _),
    fun other hother => ?_⟩, chunk, hchunk, htake⟩
  have hmem : other ∈ collector.heap.classChunks index := by
    rw [hlist]
    exact List.mem_append_left _ hother
  obtain ⟨small, hsmall, -⟩ := h.small index other hmem
  exact full_of_roomAt_eq_none hsmall (hskipped other hother)

theorem sound_newClassChunk (h : Sound collector)
    (hfresh : collector.heap.chunk environment.mapped = none) (index : ℕ) :
    Sound ⟨newClassChunk environment collector.heap index (sizeClasses.getD index 0),
      Function.update collector.cursor index (some environment.mapped)⟩ := by
  have hextends : Extends collector.heap
      (newClassChunk environment collector.heap index (sizeClasses.getD index 0)) :=
    have hnew := extends_newChunk hfresh (sizeClasses.getD index 0) (chunkBytes / sizeClasses.getD index 0) false
    ⟨hnew.full, hnew.small⟩
  have hunmapped : ∀ index', environment.mapped ∉ collector.heap.classChunks index' := fun index' hmem => by
    obtain ⟨small, hsmall, -⟩ := h.small index' _ hmem
    rw [hfresh] at hsmall
    cases hsmall
  have hclass : (newClassChunk environment collector.heap index (sizeClasses.getD index 0)).classChunks =
      Function.update collector.heap.classChunks index
        (environment.mapped :: collector.heap.classChunks index) := rfl
  constructor
  case cursors =>
    intro index'
    dsimp only
    rw [hclass]
    by_cases heq : index' = index
    · subst heq
      simpa using cursorSound_head _ (environment.mapped :: collector.heap.classChunks index')
    · simpa [heq] using (h.cursors index').extend hextends
  case nodup =>
    intro index'
    dsimp only
    rw [hclass]
    by_cases heq : index' = index
    · subst heq
      simpa using ⟨hunmapped index', h.nodup index'⟩
    · simpa [heq] using h.nodup index'
  case small =>
    intro index' address haddress
    dsimp only at haddress
    rw [hclass] at haddress
    by_cases heq : index' = index
    · subst heq
      rw [Function.update_self, List.mem_cons] at haddress
      rcases haddress with rfl | haddress
      · exact ⟨_, Function.update_self _ _ _, rfl, rfl⟩
      · exact hextends.small address _ (h.small index' address haddress)
    · rw [Function.update_of_ne heq] at haddress
      exact hextends.small address _ (h.small index' address haddress)

variable {collector collector' : Collector}

theorem sound_allocateFromCursor (h : Sound collector)
    (hfresh : collector.heap.chunk environment.mapped = none)
    (hallocate : allocateFromCursor environment type size collector = some (object, collector')) :
    Sound collector' := by
  unfold allocateFromCursor at hallocate
  dsimp only at hallocate
  split at hallocate
  · cases hfirst : firstWithRoom collector.heap (chunksFrom (collector.heap.classChunks (classFor size))
        (collector.cursor (classFor size))) with
    | some found =>
      obtain ⟨address, object', taken⟩ := found
      rw [hfirst] at hallocate
      obtain ⟨-, rfl⟩ := Prod.mk.inj (Option.some.inj hallocate)
      obtain ⟨hcursor, chunk, hchunk, htake⟩ := cursorSound_found h hfirst
      exact (h.setCursor hcursor).extend (extends_place hchunk htake _ type) rfl
    | none =>
      rw [hfirst] at hallocate
      obtain ⟨taken, htaken, heq⟩ := Option.bind_eq_some_iff.mp hallocate
      obtain ⟨-, rfl⟩ := Prod.mk.inj (Option.some.inj heq)
      obtain ⟨hextends, hclass⟩ := takeMapped_extends htaken
      exact (sound_newClassChunk h hfresh (classFor size)).extend hextends hclass
  · obtain ⟨taken, htaken, heq⟩ := Option.bind_eq_some_iff.mp hallocate
    obtain ⟨-, rfl⟩ := Prod.mk.inj (Option.some.inj heq)
    unfold allocateLarge at htaken
    split at htaken
    · cases htaken
    · obtain ⟨hextends, hclass⟩ := takeMapped_extends htaken
      exact h.extend ((extends_newChunk hfresh _ 1 true).trans hextends) hclass

/-! ### Collections -/

theorem sweepStep_keeps {marked : Address → ℕ → Bool} {state : Heap × ℕ} {swept address : Address}
    {objectSize : ℕ} (h : SmallAt state.1 address objectSize) :
    SmallAt (sweepStep marked state swept).1 address objectSize := by
  obtain ⟨small, hsmall, hlarge, hsize⟩ := h
  unfold sweepStep
  cases hchunk : state.1.chunk swept with
  | none => exact ⟨small, hsmall, hlarge, hsize⟩
  | some chunk =>
    dsimp only
    by_cases heq : address = swept
    · subst heq
      rw [hchunk] at hsmall
      obtain rfl := Option.some.inj hsmall
      rw [hlarge]
      exact ⟨_, Function.update_self _ _ _, hlarge, hsize⟩
    · split
      · exact ⟨small, by simpa [heq] using hsmall, hlarge, hsize⟩
      · exact ⟨small, by simpa [heq] using hsmall, hlarge, hsize⟩

theorem sweepStep_classChunks (marked : Address → ℕ → Bool) (state : Heap × ℕ) (address : Address) :
    (sweepStep marked state address).1.classChunks = state.1.classChunks := by
  unfold sweepStep
  cases state.1.chunk address with
  | none => rfl
  | some chunk =>
    dsimp only
    split <;> rfl

/-- A sweep unmaps chunks of large objects only. -/
theorem sweep_keeps (marked : Address → ℕ → Bool) (chunks : List Address) (state : Heap × ℕ) :
    (chunks.foldl (sweepStep marked) state).1.classChunks = state.1.classChunks ∧
      ∀ address objectSize, SmallAt state.1 address objectSize →
        SmallAt (chunks.foldl (sweepStep marked) state).1 address objectSize := by
  induction chunks generalizing state with
  | nil => exact ⟨rfl, fun _ _ h => h⟩
  | cons swept chunks ih =>
    obtain ⟨hclass, hsmall⟩ := ih (sweepStep marked state swept)
    exact ⟨hclass.trans (sweepStep_classChunks marked state swept),
      fun address objectSize h => hsmall address objectSize (sweepStep_keeps h)⟩

theorem sound_gcCollect (h : Sound collector)
    (hcollect : gcCollect environment collector = some collector') : Sound collector' := by
  unfold gcCollect at hcollect
  obtain ⟨heap, hheap, heq⟩ := Option.bind_eq_some_iff.mp hcollect
  obtain rfl := Option.some.inj heq
  unfold collectHeap at hheap
  split at hheap
  · cases hheap
  · obtain rfl := Option.some.inj hheap
    obtain ⟨hclass, hsmall⟩ := sweep_keeps environment.marked collector.heap.allChunks
      ({ collector.heap with allChunks := [] }, 0)
    constructor
    case cursors => exact fun index => cursorSound_head _ _
    case nodup =>
      intro index
      exact (congrFun hclass index).symm ▸ h.nodup index
    case small =>
      intro index address haddress
      have hmem : address ∈ collector.heap.classChunks index := (congrFun hclass index) ▸ haddress
      exact hsmall address _ (h.small index address hmem)

theorem sound_prepare (h : Sound collector)
    (hprepare : prepare environment collector = some collector') : Sound collector' := by
  unfold prepare at hprepare
  split at hprepare
  · exact sound_gcCollect h hprepare
  · exact Option.some.inj hprepare ▸ h

/-! ### Runs -/

/-- A program before its first allocation. -/
def initial : Collector where
  heap :=
    { chunk := fun _ => none
      classChunks := fun _ => []
      allChunks := []
      memory := fun _ => 0
      heapBytes := 0
      allocatedSinceCollect := 0
      nextCollectAt := minCollectBytes }
  cursor _ := none

/-- The states of runs: allocations, where the kernel maps what is not mapped yet, collections the program
asks for, and any writes to the objects. -/
inductive Reachable : Collector → Prop
  | start : Reachable initial
  | allocate {collector collector' : Collector} {environment : Environment} {type size : ℕ} {object : Address}
    (h : Reachable collector)
    (hmapped : ∀ prepared, prepare environment collector = some prepared →
      prepared.heap.chunk environment.mapped = none)
    (hallocate : gcAllocate environment type size collector = some (object, collector')) : Reachable collector'
  | collect {collector collector' : Collector} {environment : Environment} (h : Reachable collector)
    (hcollect : gcCollect environment collector = some collector') : Reachable collector'
  | write {collector : Collector} (h : Reachable collector) (memory : Address → ℕ) :
    Reachable { collector with heap := { collector.heap with memory := memory } }

theorem sound_gcAllocate (h : Sound collector)
    (hmapped : ∀ prepared, prepare environment collector = some prepared →
      prepared.heap.chunk environment.mapped = none)
    (hallocate : gcAllocate environment type size collector = some (object, collector')) : Sound collector' := by
  rw [gcAllocate_eq_slow h] at hallocate
  obtain ⟨prepared, hprepare, hrest⟩ := Option.bind_eq_some_iff.mp hallocate
  exact sound_allocateFromCursor (sound_prepare h hprepare) (hmapped prepared hprepare) hrest

theorem sound_of_reachable (h : Reachable collector) : Sound collector := by
  induction h with
  | start =>
    constructor
    case cursors => exact fun index => cursorSound_head _ []
    case nodup => exact fun index => List.nodup_nil
    case small => exact fun index address haddress => by cases haddress
  | allocate h hmapped hallocate ih => exact sound_gcAllocate ih hmapped hallocate
  | collect h hcollect ih => exact sound_gcCollect ih hcollect
  | write h memory ih => exact ih.extend ⟨fun _ hfull => hfull, fun _ _ hsmall => hsmall⟩ rfl

theorem allocateFromCursor_allChunks (hindex : classFor size < classCount)
    (hallocate : allocateFromCursor environment type size collector = some (object, collector'))
    (hchunks : collector'.heap.allChunks ≠ collector.heap.allChunks) :
    firstWithRoom collector.heap
      (chunksFrom (collector.heap.classChunks (classFor size)) (collector.cursor (classFor size))) = none := by
  unfold allocateFromCursor at hallocate
  dsimp only at hallocate
  rw [if_pos hindex] at hallocate
  cases hfirst : firstWithRoom collector.heap (chunksFrom (collector.heap.classChunks (classFor size))
      (collector.cursor (classFor size))) with
  | none => rfl
  | some found =>
    rw [hfirst] at hallocate
    obtain ⟨-, rfl⟩ := Prod.mk.inj (Option.some.inj hallocate)
    exact absurd rfl hchunks

end Krusty.Native.Gc
