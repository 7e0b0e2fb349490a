import Krusty.Jvm.BytecodePasses.Analysis.FrameStore

/-! A frame store holds what a map from nodes to frames holds. -/
namespace Krusty.Jvm.BytecodePasses

open Regions Frames Refinement

/-- A frame of its own for each of `count` nodes. -/
structure PlainFrames (V : Type) where
  count : ℕ
  entries : ℕ → Entry V

namespace PlainFrames

variable {S V : Type}

def new (count : ℕ) : PlainFrames V := ⟨count, fun _ => .unreached⟩

variable (plain : PlainFrames V)

def set (index : ℕ) (entry : Entry V) : PlainFrames V :=
  { plain with entries := Function.update plain.entries index entry }

def get (index : ℕ) : Option (Option (List V × List V)) :=
  match plain.entries index with
  | .unreached => some none
  | .reached => none
  | .recorded locals stack => some (some (locals, stack))

/-- What holds of the entry of a node there is. -/
def ask (index : ℕ) (p : Entry V → Bool) : Option Bool :=
  if index < plain.count then some (p (plain.entries index)) else none

def markReached (index : ℕ) : Option (PlainFrames V) :=
  if index < plain.count then
    match plain.entries index with
    | .unreached => some (plain.set index .reached)
    | _ => some plain
  else none

def copyInto (index : ℕ) (frame : Frame V) : Option (Frame V) := do
  let view ← plain.get index
  let (locals, stack) ← view
  return { frame with locals, stack }

def record (index : ℕ) (state : Frame V) : Option (PlainFrames V) :=
  if index < plain.count then some (plain.set index (.recorded state.locals state.stack)) else none

variable [BEq V]

def replace (index : ℕ) (state : Frame V) : Option (Bool × PlainFrames V) :=
  match plain.entries index with
  | .recorded locals stack =>
    if locals == state.locals && stack == state.stack then some (false, plain)
    else some (true, plain.set index (.recorded state.locals state.stack))
  | _ => none

/-- Each value met with the one arriving beside it. -/
def meetAll (meet : V → V → S → V × S) : List V → List V → S → List V × S
  | mine :: rest, theirs :: arriving, s =>
    let (met, s) := meet mine theirs s
    let (rest, s) := meetAll meet rest arriving s
    ((if met == mine then mine else met) :: rest, s)
  | rest, _, s => (rest, s)

/-- `true` when the frame differs afterwards. -/
def merge (meet : Meet S V) (index : ℕ) (state : Frame V) (s : S) :
    Option (Except String Bool × PlainFrames V × S) :=
  match plain.entries index with
  | .recorded locals stack =>
    if stack.length ≠ state.stack.length then some (.error "incompatible stack heights", plain, s)
    else
      let (metLocals, s) := meetAll meet.mergeLocal locals state.locals s
      let (metStack, s) := meetAll meet.mergeStack stack state.stack s
      some (.ok (!(metLocals == locals && metStack == stack)), plain.set index (.recorded metLocals metStack), s)
  | _ => none

def apply (meet : Meet S V) : PlainFrames V × S → Op V → Option (Answer V × PlainFrames V × S)
  | (plain, s), .record index state => (plain.record index state).map fun plain => (.done, plain, s)
  | (plain, s), .replace index state =>
    (plain.replace index state).map fun (changed, plain) => (.changed changed, plain, s)
  | (plain, s), .merge index state =>
    (plain.merge meet index state s).map fun (result, rest) => (.ofMerge result, rest)
  | (plain, s), .markReached index => (plain.markReached index).map fun plain => (.done, plain, s)
  | (plain, s), .get index => (plain.get index).map fun frame => (.frame frame, plain, s)
  | (plain, s), .copyInto index frame => (plain.copyInto index frame).map fun frame => (.copied frame, plain, s)
  | (plain, s), .isRecorded index => (plain.ask index fun
      | .recorded _ _ => true
      | _ => false).map fun answer => (.holds answer, plain, s)
  | (plain, s), .isReached index => (plain.ask index fun
      | .unreached => false
      | _ => true).map fun answer => (.holds answer, plain, s)
  | (plain, s), .len => some (.number plain.count, plain, s)

def run (meet : Meet S V) : PlainFrames V × S → List (Op V) → Option (List (Answer V) × PlainFrames V × S) :=
  Refinement.run (apply meet)

end PlainFrames

namespace Frames

variable {S V : Type} {frames frames' : Frames V} {plain : PlainFrames V} {index other : ℕ} {values : List V}
  {slot : Slot} {locals stack : List V}

@[simp] theorem entries_set_self (plain : PlainFrames V) (index : ℕ) (entry : BytecodePasses.Entry V) :
    (plain.set index entry).entries index = entry := Function.update_self ..

theorem entries_set_of_ne (plain : PlainFrames V) {j : ℕ} (h : j ≠ index) (entry : BytecodePasses.Entry V) :
    (plain.set index entry).entries j = plain.entries j := Function.update_of_ne h ..

/-- What a slot of the buffer holds. -/
structure Holds (values : List V) (slot : Slot) (locals stack : List V) : Prop where
  localsLength : slot.locals = locals.length
  stackLength : slot.stack = stack.length
  room : stack.length ≤ slot.room
  inside : slot.start + slot.locals + slot.room ≤ values.length
  content : slice values slot.start (locals.length + stack.length) = locals ++ stack

/-- The buffer's side of an entry. -/
inductive Shows (values : List V) : Frames.Entry → BytecodePasses.Entry V → Prop
  | unreached : Shows values .unreached .unreached
  | reached : Shows values .reached .reached
  | recorded {slot : Slot} {locals stack : List V} (h : Holds values slot locals stack) :
    Shows values (.recorded slot) (.recorded locals stack)

def Slot.Apart (a b : Slot) : Prop := a.start + a.locals + a.room ≤ b.start ∨ b.start + b.locals + b.room ≤ a.start

theorem Slot.Apart.symm {a b : Slot} (h : a.Apart b) : b.Apart a := Or.symm h

/-- The store keeps each node's frame of the map, in regions of their own. -/
structure Stores (frames : Frames V) (plain : PlainFrames V) : Prop where
  count : frames.slots.length = plain.count
  entries : ∀ index entry, frames.slots[index]? = some entry → Shows frames.values entry (plain.entries index)
  beyond : ∀ index, plain.count ≤ index → plain.entries index = .unreached
  apart : ∀ (i j : ℕ) (a b : Slot), i ≠ j → frames.slots[i]? = some (.recorded a) → frames.slots[j]? = some (.recorded b) →
    a.Apart b

/-- One node's entry changes; the others keep what they hold. -/
theorem Stores.set {entry : Frames.Entry} {plainEntry : BytecodePasses.Entry V} (h : frames.Stores plain)
    (hindex : index < plain.count) (hnew : Shows values entry plainEntry)
    (hkept : ∀ j slot locals stack, j ≠ index → frames.slots[j]? = some (.recorded slot) →
      Holds frames.values slot locals stack → Holds values slot locals stack)
    (hapart : ∀ slot, entry = .recorded slot → ∀ j b, j ≠ index → frames.slots[j]? = some (.recorded b) →
      slot.Apart b) :
    Stores ⟨values, frames.slots.set index entry⟩ (plain.set index plainEntry) := by
  have hat : (frames.slots.set index entry)[index]? = some entry := List.getElem?_set_self (h.count ▸ hindex)
  have hother : ∀ {j}, j ≠ index → (frames.slots.set index entry)[j]? = frames.slots[j]? := fun hj =>
    List.getElem?_set_ne (Ne.symm hj)
  constructor
  case count => exact (List.length_set ..).trans h.count
  case entries =>
    intro j e hj
    by_cases hji : j = index
    · subst hji
      rw [hat] at hj
      cases hj
      rw [entries_set_self]
      exact hnew
    · rw [hother hji] at hj
      rw [entries_set_of_ne plain hji]
      have hshows := h.entries j e hj
      generalize plain.entries j = known at hshows ⊢
      cases hshows with
      | unreached => exact .unreached
      | reached => exact .reached
      | recorded hholds => exact .recorded (hkept j _ _ _ hji hj hholds)
  case beyond =>
    intro j hj
    have hji : j ≠ index := by
      rintro rfl
      exact absurd hindex (Nat.not_lt.mpr hj)
    rw [entries_set_of_ne plain hji]
    exact h.beyond j hj
  case apart =>
    intro i j a b hij ha hb
    by_cases hi : i = index
    · subst hi
      rw [hat] at ha
      cases ha
      rw [hother (Ne.symm hij)] at hb
      exact hapart a rfl j b (Ne.symm hij) hb
    · rw [hother hi] at ha
      by_cases hj : j = index
      · subst hj
        rw [hat] at hb
        cases hb
        exact (hapart b rfl i a hi ha).symm
      · rw [hother hj] at hb
        exact h.apart i j a b hij ha hb

theorem Holds.read (h : Holds frames.values slot locals stack) :
    frames.read slot.start slot.locals = some locals ∧
      frames.read (slot.start + slot.locals) slot.stack = some stack := by
  have hinside := h.inside
  have hroom := h.room
  rw [h.localsLength] at hinside
  have hcontent := h.content
  rw [slice_add] at hcontent
  obtain ⟨hlocals, hstack⟩ := List.append_inj hcontent (length_slice (by omega))
  rw [h.localsLength, h.stackLength, Frames.read, if_pos (by omega), Frames.read, if_pos (by omega), hlocals, hstack]
  exact ⟨rfl, rfl⟩

theorem Holds.view (h : Holds frames.values slot locals stack) : frames.view slot = some (locals, stack) := by
  rw [Frames.view, h.read.1, h.read.2]
  rfl

/-- Reading a frame back. -/
theorem Stores.get (h : frames.Stores plain) (index : ℕ) : frames.get index = plain.get index := by
  rw [Frames.get, PlainFrames.get]
  cases hslot : frames.slots[index]? with
  | none => rw [h.beyond index (h.count ▸ List.getElem?_eq_none_iff.mp hslot)]
  | some entry =>
    have hshows := h.entries index entry hslot
    cases hentry : plain.entries index <;> rw [hentry] at hshows <;> cases hshows
    · rfl
    · rfl
    · rename_i hholds
      simp only [hholds.view, Option.map_some]

/-- The slot a recorded frame is kept in. -/
theorem Stores.exists_slot (h : frames.Stores plain) (hentry : plain.entries index = .recorded locals stack) :
    ∃ slot, frames.slots[index]? = some (.recorded slot) ∧ Holds frames.values slot locals stack := by
  cases hslot : frames.slots[index]? with
  | none =>
    rw [h.beyond index (h.count ▸ List.getElem?_eq_none_iff.mp hslot)] at hentry
    cases hentry
  | some entry =>
    have hshows := h.entries index entry hslot
    rw [hentry] at hshows
    cases hshows with
    | recorded hholds => exact ⟨_, rfl, hholds⟩

theorem Stores.exists_frame (h : frames.Stores plain) (hslot : frames.slots[index]? = some (.recorded slot)) :
    ∃ locals stack, plain.entries index = .recorded locals stack ∧ Holds frames.values slot locals stack := by
  have hshows := h.entries index _ hslot
  cases hentry : plain.entries index <;> rw [hentry] at hshows <;> cases hshows
  rename_i hholds
  exact ⟨_, _, rfl, hholds⟩

/-- A frame at the end of the buffer. -/
theorem Stores.record (h : frames.Stores plain) (hindex : index < plain.count) (state : Frame V) :
    ∃ frames', frames.record index state = some frames' ∧
      frames'.Stores (plain.set index (.recorded state.locals state.stack)) := by
  refine ⟨_, if_pos (h.count ▸ hindex), h.set hindex (.recorded ?_) ?_ ?_⟩
  · constructor
    case localsLength => rfl
    case stackLength => rfl
    case room => exact le_rfl
    case inside => simp only [List.length_append]; omega
    case content => rw [List.append_assoc, ← List.length_append, slice_append_right]
  · intro j slot locals stack hj hslot hholds
    have hinside := hholds.inside
    have hroom := hholds.room
    have hlocals := hholds.localsLength
    refine ⟨hlocals, hholds.stackLength, hroom, ?_, ?_⟩
    · simp only [List.length_append]
      omega
    · rw [List.append_assoc, slice_append (by omega)]
      exact hholds.content
  · intro slot hslot j b hj hb
    cases hslot
    obtain ⟨locals, stack, -, hholds⟩ := h.exists_frame hb
    exact .inr hholds.inside

/-- A frame written over the one a slot holds, within its room. -/
theorem Stores.overwrite (h : frames.Stores plain) (hslot : frames.slots[index]? = some (.recorded slot))
    (locals stack : List V) (hlocals : slot.locals = locals.length) (hroom : stack.length ≤ slot.room) :
    Stores ⟨Regions.overwrite frames.values slot.start (locals ++ stack),
      frames.slots.set index (.recorded { slot with stack := stack.length })⟩
      (plain.set index (.recorded locals stack)) := by
  obtain ⟨locals', stack', -, hholds⟩ := h.exists_frame hslot
  have hinside := hholds.inside
  have hindex : index < plain.count := h.count ▸ (List.getElem?_eq_some_iff.mp hslot).1
  have hfit : slot.start + (locals ++ stack).length ≤ frames.values.length := by
    rw [List.length_append]
    omega
  refine h.set hindex (.recorded ?_) ?_ ?_
  · refine ⟨hlocals, rfl, hroom, ?_, ?_⟩
    · rw [length_overwrite hfit]
      exact hinside
    · rw [← List.length_append, slice_overwrite hfit]
  · intro j b locals'' stack'' hj hb hholds'
    have hinside' := hholds'.inside
    have hroom' := hholds'.room
    have hlocals' := hholds'.localsLength
    refine ⟨hlocals', hholds'.stackLength, hroom', ?_, ?_⟩
    · rw [length_overwrite hfit]
      exact hinside'
    · rw [slice_overwrite_of_disjoint hfit]
      · exact hholds'.content
      · have hapart := h.apart index j slot b (Ne.symm hj) hslot hb
        rw [Slot.Apart] at hapart
        rw [List.length_append]
        omega
  · intro slot' hslot' j b hj hb
    cases hslot'
    exact h.apart index j slot b (Ne.symm hj) hslot hb

theorem Stores.index_lt (h : frames.Stores plain) (hentry : plain.entries index ≠ .unreached) :
    index < plain.count := by
  by_contra hle
  exact hentry (h.beyond index (Nat.le_of_not_lt hle))

theorem Stores.markReached (h : frames.Stores plain) (index : ℕ) :
    Option.Rel Stores (frames.markReached index) (plain.markReached index) := by
  rw [Frames.markReached, PlainFrames.markReached]
  by_cases hindex : index < plain.count
  · have hlt : index < frames.slots.length := h.count ▸ hindex
    rw [if_pos hindex, List.getElem?_eq_getElem hlt]
    have hshows := h.entries index _ (List.getElem?_eq_getElem hlt)
    cases hentry : plain.entries index <;> rw [hentry] at hshows <;> generalize frames.slots[index] = known at hshows ⊢ <;>
      cases hshows
    · have hkept : ∀ (j : ℕ) slot locals stack, j ≠ index → frames.slots[j]? = some (.recorded slot) →
          Holds frames.values slot locals stack → Holds frames.values slot locals stack := by
        intro j slot locals stack hj hslot hholds
        exact hholds
      simp only [setSlot, if_pos hlt]
      exact .some (h.set hindex .reached hkept (by simp))
    · exact .some h
    · exact .some h
  · have hle : frames.slots.length ≤ index := h.count ▸ Nat.le_of_not_lt hindex
    rw [if_neg hindex, List.getElem?_eq_none hle]
    exact .none

theorem Stores.copyInto (h : frames.Stores plain) (index : ℕ) (frame : Frame V) :
    frames.copyInto index frame = plain.copyInto index frame := by
  rw [Frames.copyInto, PlainFrames.copyInto, h.get]

theorem Stores.ask (h : frames.Stores plain) {p : Frames.Entry → Bool} {q : BytecodePasses.Entry V → Bool}
    (hpq : ∀ {entry known}, Shows frames.values entry known → p entry = q known) (index : ℕ) :
    frames.slots[index]?.map p = plain.ask index q := by
  rw [PlainFrames.ask]
  by_cases hindex : index < plain.count
  · have hlt : index < frames.slots.length := h.count ▸ hindex
    rw [if_pos hindex, List.getElem?_eq_getElem hlt, Option.map_some,
      hpq (h.entries index _ (List.getElem?_eq_getElem hlt))]
  · have hle : frames.slots.length ≤ index := h.count ▸ Nat.le_of_not_lt hindex
    rw [if_neg hindex, List.getElem?_eq_none hle, Option.map_none]

section Meets

variable [BEq V]

theorem length_meetAll (meet : V → V → S → V × S) (mine theirs : List V) (s : S) :
    (PlainFrames.meetAll meet mine theirs s).1.length = mine.length := by
  induction mine generalizing theirs s with
  | nil => rfl
  | cons m mine ih =>
    cases theirs with
    | nil => rfl
    | cons t theirs =>
      change _ + 1 = _ + 1
      rw [ih]

variable [ReflBEq V]

/-- The flag tells whether the values differ afterwards. -/
theorem meetInto_eq (meet : V → V → S → V × S) (mine theirs : List V) (s : S) :
    meetInto meet mine theirs s =
      (((PlainFrames.meetAll meet mine theirs s).1, !((PlainFrames.meetAll meet mine theirs s).1 == mine)),
        (PlainFrames.meetAll meet mine theirs s).2) := by
  induction mine generalizing theirs s with
  | nil => rfl
  | cons m mine ih =>
    cases theirs with
    | nil => simp [meetInto, PlainFrames.meetAll]
    | cons t theirs =>
      simp only [meetInto, PlainFrames.meetAll, ih]
      cases hmet : (meet m t s).1 == m <;> simp [hmet, bne, List.cons_beq_cons]

/-- The values are the same exactly when they do not differ. -/
theorem meetAll_beq_iff (meet : V → V → S → V × S) (mine theirs : List V) (s : S) :
    ((PlainFrames.meetAll meet mine theirs s).1 == mine) = true ↔
      (PlainFrames.meetAll meet mine theirs s).1 = mine := by
  refine ⟨fun h => ?_, fun h => by rw [h]; exact BEq.rfl⟩
  induction mine generalizing theirs s with
  | nil => rfl
  | cons m mine ih =>
    cases theirs with
    | nil => rfl
    | cons t theirs =>
      simp only [PlainFrames.meetAll, List.cons_beq_cons, Bool.and_eq_true] at h ⊢
      obtain ⟨hmet, hrest⟩ := h
      rw [ih _ _ hrest]
      cases hm : (meet m t s).1 == m with
      | true => rw [if_pos rfl]
      | false =>
        rw [hm, if_neg Bool.false_ne_true] at hmet
        rw [hm] at hmet
        cases hmet

/-- A store keeps a map, and the interpreter is in the same state. -/
def Keeps (a : Frames V × S) (b : PlainFrames V × S) : Prop := a.1.Stores b.1 ∧ a.2 = b.2

omit [ReflBEq V] in
theorem Stores.replace (h : frames.Stores plain) (index : ℕ) (state : Frame V) :
    Option.Rel (Agree Stores) (frames.replace index state) (plain.replace index state) := by
  rw [Frames.replace, h.get, PlainFrames.get, PlainFrames.replace]
  cases hentry : plain.entries index with
  | unreached => exact .none
  | reached => exact .none
  | recorded locals stack =>
    obtain ⟨slot, hslot, hholds⟩ := h.exists_slot hentry
    have hindex : index < plain.count := h.index_lt (by rw [hentry]; exact fun h => by cases h)
    dsimp only [Option.bind_eq_bind, Option.bind_some]
    cases hsame : locals == state.locals && stack == state.stack with
    | true => exact .some ⟨rfl, h⟩
    | false =>
      rw [if_neg Bool.false_ne_true, if_neg Bool.false_ne_true, hslot]
      dsimp only
      split_ifs with hmove hfit
      · obtain ⟨frames', hframes', hstores⟩ := h.record hindex state
        rw [hframes']
        exact .some ⟨rfl, hstores⟩
      · rw [not_or, not_not, Nat.not_lt] at hmove
        have hlt : index < frames.slots.length := h.count ▸ hindex
        rw [setSlot, if_pos hlt]
        exact .some ⟨rfl, h.overwrite hslot _ _ hmove.1 hmove.2⟩
      · rw [not_or, not_not, Nat.not_lt] at hmove
        have hinside := hholds.inside
        omega

theorem Stores.merge (h : frames.Stores plain) (meet : Meet S V) (index : ℕ) (state : Frame V) (s : S) :
    Option.Rel (Agree Keeps) (frames.merge meet index state s) (plain.merge meet index state s) := by
  rw [Frames.merge, PlainFrames.merge]
  cases hslot : frames.slots[index]? with
  | none =>
    rw [h.beyond index (h.count ▸ List.getElem?_eq_none_iff.mp hslot)]
    exact .none
  | some entry =>
    have hshows := h.entries index entry hslot
    cases hentry : plain.entries index <;> rw [hentry] at hshows <;> cases hshows
    · exact .none
    · exact .none
    · rename_i locals stack slot hholds
      dsimp only
      rw [hholds.stackLength]
      split_ifs with hheights
      · exact .some ⟨rfl, h, rfl⟩
      · have hread := hholds.read
        rw [hholds.stackLength] at hread
        simp only [hread.1, hread.2, Option.bind_eq_bind, Option.bind_some, meetInto_eq]
        refine .some ⟨?_, ?_, rfl⟩
        · simp [Bool.not_and]
        · have hlocals : slot.locals = (PlainFrames.meetAll meet.mergeLocal locals state.locals s).1.length := by
            rw [length_meetAll, hholds.localsLength]
          have hstores := h.overwrite hslot _ (PlainFrames.meetAll meet.mergeStack stack state.stack
            (PlainFrames.meetAll meet.mergeLocal locals state.locals s).2).1 hlocals
            (by rw [length_meetAll]; exact hholds.room)
          rw [length_meetAll, ← hholds.stackLength] at hstores
          obtain ⟨hlt, hat⟩ := List.getElem?_eq_some_iff.mp hslot
          have hsame : frames.slots.set index (.recorded slot) = frames.slots := by
            rw [← hat, List.set_getElem_self]
          rwa [hsame] at hstores

/-- One operation. -/
theorem Stores.apply (h : frames.Stores plain) (meet : Meet S V) (s : S) (op : Op V) :
    Option.Rel (Agree Keeps) (Frames.apply meet (frames, s) op) (PlainFrames.apply meet (plain, s) op) := by
  have hread : ∀ {α : Type} {x y : Option α} {f : α → Answer V}, x = y →
      Option.Rel (Agree Keeps) (x.map fun a => (f a, frames, s)) (y.map fun a => (f a, plain, s)) := by
    rintro α x - f rfl
    cases x with
    | none => exact .none
    | some a => exact .some ⟨rfl, h, rfl⟩
  cases op with
  | record index state =>
    rw [Frames.apply, PlainFrames.apply, PlainFrames.record]
    by_cases hindex : index < plain.count
    · obtain ⟨frames', hframes', hstores⟩ := h.record hindex state
      rw [hframes', if_pos hindex]
      exact .some ⟨rfl, hstores, rfl⟩
    · have hrecord : frames.record index state = none := if_neg (h.count ▸ hindex)
      rw [hrecord, if_neg hindex]
      exact .none
  | replace index state =>
    exact rel_map (fun hagree => ⟨congrArg Answer.changed hagree.1, hagree.2, rfl⟩) (h.replace index state)
  | merge index state =>
    exact rel_map (fun hagree => ⟨congrArg Answer.ofMerge hagree.1, hagree.2⟩) (h.merge meet index state s)
  | markReached index => exact rel_map (fun hstores => ⟨rfl, hstores, rfl⟩) (h.markReached index)
  | get index => exact hread (h.get index)
  | copyInto index frame => exact hread (h.copyInto index frame)
  | isRecorded index =>
    refine hread (h.ask (fun hshows => ?_) index)
    cases hshows <;> rfl
  | isReached index =>
    refine hread (h.ask (fun hshows => ?_) index)
    cases hshows <;> rfl
  | len => exact .some ⟨congrArg Answer.number h.count, h, rfl⟩

omit [BEq V] [ReflBEq V] in
theorem stores_new (count : ℕ) : Stores (new count : Frames V) (PlainFrames.new count) where
  count := List.length_replicate ..
  entries := by
    intro index entry hentry
    rw [List.eq_of_mem_replicate (List.mem_of_getElem? hentry)]
    exact .unreached
  beyond _ _ := rfl
  apart := by
    intro i j a b hij ha hb
    cases List.eq_of_mem_replicate (List.mem_of_getElem? ha)

theorem run_agree (meet : Meet S V) (count : ℕ) (s : S) (ops : List (Op V)) :
    Option.Rel (Agree Keeps) (Frames.run meet (new count, s) ops)
      (PlainFrames.run meet (PlainFrames.new count, s) ops) := by
  refine run_rel (fun {a b} op h => ?_) (R := Keeps) ⟨stores_new count, rfl⟩ ops
  obtain ⟨frames, s⟩ := a
  obtain ⟨plain, s'⟩ := b
  obtain ⟨hstores, rfl⟩ := h
  exact hstores.apply meet s op

/-- A meet tells that it changed a frame exactly when it did. -/
theorem Stores.merge_changed (h : frames.Stores plain) {meet : Meet S V} {state : Frame V} {s s' : S}
    {changed : Bool} (hmerge : frames.merge meet index state s = some (.ok changed, frames', s')) :
    changed = true ↔ frames'.get index ≠ frames.get index := by
  have hrel := h.merge meet index state s
  rw [hmerge, PlainFrames.merge] at hrel
  rw [h.get, PlainFrames.get]
  cases hentry : plain.entries index with
  | unreached =>
    rw [hentry] at hrel
    cases hrel
  | reached =>
    rw [hentry] at hrel
    cases hrel
  | recorded locals stack =>
    rw [hentry] at hrel
    dsimp only at hrel
    split_ifs at hrel with hheights
    · cases hrel with
      | some hagree => cases hagree.1
    · cases hrel with
      | some hagree =>
        obtain ⟨hchanged, hstores, -⟩ := hagree
        cases hchanged
        rw [hstores.get, PlainFrames.get, entries_set_self, Bool.not_eq_true', Bool.and_eq_false_iff, ne_eq,
          Option.some.injEq, Option.some.injEq, Prod.mk.injEq, not_and_or]
        rw [← Bool.not_eq_true, ← Bool.not_eq_true, meetAll_beq_iff, meetAll_beq_iff]

omit [ReflBEq V] in
/-- An operation on one node leaves the frames of the others. -/
theorem entries_apply {meet : Meet S V} {s : S} {op : Op V} {b : Answer V × PlainFrames V × S}
    (h : PlainFrames.apply meet (plain, s) op = some b) (hother : op.target ≠ some other) :
    b.2.1.entries other = plain.entries other := by
  have hsame : ∀ {α : Type} {x : Option α} {f : α → Answer V}, x.map (fun a => (f a, plain, s)) = some b →
      b.2.1.entries other = plain.entries other := by
    intro α x f hx
    obtain ⟨a, -, rfl⟩ := Option.map_eq_some_iff.mp hx
    rfl
  have hset : ∀ {index : ℕ} (entry : BytecodePasses.Entry V), some index ≠ some other →
      (plain.set index entry).entries other = plain.entries other := fun entry hne =>
    entries_set_of_ne plain (fun h => hne (congrArg some h.symm)) entry
  cases op with
  | record index state =>
    obtain ⟨after, hafter, rfl⟩ := Option.map_eq_some_iff.mp h
    rw [PlainFrames.record] at hafter
    split_ifs at hafter
    cases hafter
    exact hset _ hother
  | replace index state =>
    obtain ⟨after, hafter, rfl⟩ := Option.map_eq_some_iff.mp h
    rw [PlainFrames.replace] at hafter
    split at hafter
    · split_ifs at hafter <;> cases hafter
      · rfl
      · exact hset _ hother
    · cases hafter
  | merge index state =>
    obtain ⟨after, hafter, rfl⟩ := Option.map_eq_some_iff.mp h
    rw [PlainFrames.merge] at hafter
    split at hafter
    · dsimp only at hafter
      split_ifs at hafter <;> cases hafter
      · rfl
      · exact hset _ hother
    · cases hafter
  | markReached index =>
    obtain ⟨after, hafter, rfl⟩ := Option.map_eq_some_iff.mp h
    rw [PlainFrames.markReached] at hafter
    split_ifs at hafter
    split at hafter <;> cases hafter
    · exact hset _ hother
    · rfl
  | get index => exact hsame h
  | copyInto index frame => exact hsame h
  | isRecorded index => exact hsame h
  | isReached index => exact hsame h
  | len => exact hsame (x := some plain.count) h

/-- A store answers every sequence of operations as a map of frames does and holds the same frames
afterwards; an operation on one node leaves the other frames, and a meet tells whether it changed one. -/
theorem run_readsBack (meet : Meet S V) (count : ℕ) (s : S) (ops : List (Op V)) :
    Option.Rel (Agree fun a b => (∀ index, a.1.get index = b.1.get index) ∧ a.2 = b.2)
      (Frames.run meet (new count, s) ops) (PlainFrames.run meet (PlainFrames.new count, s) ops) ∧
    ∀ a, Frames.run meet (new count, s) ops = some a →
      (∀ op b, Frames.apply meet a.2 op = some b → ∀ other, op.target ≠ some other →
        b.2.1.get other = a.2.1.get other) ∧
      ∀ index state changed b, Frames.apply meet a.2 (.merge index state) = some (.changed changed, b) →
        (changed = true ↔ b.1.get index ≠ a.2.1.get index) := by
  have hagree := run_agree meet count s ops
  constructor
  · cases hframes : Frames.run meet (new count, s) ops <;>
      cases hplain : PlainFrames.run meet (PlainFrames.new count, s) ops <;>
      rw [hframes, hplain] at hagree <;> cases hagree
    · exact .none
    · rename_i h
      exact .some ⟨h.1, h.2.1.get, h.2.2⟩
  · rintro ⟨answers, frames, s'⟩ ha
    rw [ha] at hagree
    cases hplain : PlainFrames.run meet (PlainFrames.new count, s) ops <;> rw [hplain] at hagree <;> cases hagree
    rename_i plain h
    have hstores : frames.Stores plain.2.1 := h.2.1
    constructor
    · intro op b hb other hother
      have hop := hstores.apply meet s' op
      rw [hb] at hop
      cases hafter : PlainFrames.apply meet (plain.2.1, s') op <;> rw [hafter] at hop <;> cases hop
      rename_i hop
      rw [hop.2.1.get, hstores.get, PlainFrames.get, PlainFrames.get, entries_apply hafter hother]
    · rintro index state changed ⟨frames', s''⟩ hb
      obtain ⟨⟨result, rest⟩, hmerge, heq⟩ := Option.map_eq_some_iff.mp hb
      cases result with
      | error text => cases heq
      | ok differs =>
        cases heq
        exact hstores.merge_changed hmerge

/-- The first frame outgrows its room, and the second stays. -/
theorem run_readsBack_grown :
    let meet : Meet Unit ℕ := ⟨fun a b s => (max a b, s), fun a b s => (max a b, s)⟩
    let ops : List (Op ℕ) := [.record 0 ⟨[1], [2], none⟩, .record 1 ⟨[3], [], none⟩, .replace 0 ⟨[1], [2, 4], none⟩]
    Option.Rel (Agree fun a b => (∀ index, a.1.get index = b.1.get index) ∧ a.2 = b.2)
      (Frames.run meet (new 2, ()) ops) (PlainFrames.run meet (PlainFrames.new 2, ()) ops) ∧
    (Frames.run meet (new 2, ()) ops).map (fun a => a.2.1.get 1) = some (some (some ([3], []))) :=
  ⟨(run_readsBack _ 2 () _).1, rfl⟩

end Meets

end Frames

end Krusty.Jvm.BytecodePasses
