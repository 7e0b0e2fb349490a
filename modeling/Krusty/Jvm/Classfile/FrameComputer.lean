import Krusty.Jvm.Classfile.StackMaps
import Krusty.Jvm.BytecodePasses.Analysis.FrameOrder

/-! How ASM's frames meet at a block: `java/lang/Object` is every pair's common superclass. -/
namespace Krusty.Jvm.FrameComputer

open Joins Ascending
open BytecodePasses (JoinLaws Below)

def object : String := "java/lang/Object"

/-- The array dimension of a name, and whether its innermost element is a reference. -/
def arrayShape (name : String) : ℕ × Bool :=
  let dim := (name.toList.takeWhile (· = '[')).length
  (dim, dim = 0 || name.toList[dim]? = some 'L')

/-- `Object`, or its array of `dim` dimensions. -/
def objectArray (dim : ℕ) : String :=
  if dim = 0 then object else String.ofList (List.replicate dim '[' ++ ("L" ++ object ++ ";").toList)

def mergeReferences (a b : String) : String :=
  let (aDim, aRef) := arrayShape a
  let (bDim, bRef) := arrayShape b
  let dim :=
    if aDim = bDim ∧ aRef = bRef then
      -- equal dimensions of different primitive elements meet one dimension lower
      if aRef then aDim else aDim - 1
    else
      let aEff := if aRef then aDim else aDim - 1
      let bEff := if bRef then bDim else bDim - 1
      min aEff bEff
  objectArray dim

/-- What two different types meet at. -/
def merged : VerificationType → VerificationType → VerificationType
  | .null, .reference name => .reference name
  | .reference name, .null => .reference name
  | .reference a, .reference b => .reference (mergeReferences a b)
  | _, _ => .top

/-- `dst` after `src` merged into it, and whether it changed. -/
def mergeOne (dst src : VerificationType) : VerificationType × Bool :=
  if dst = src then (dst, false)
  else if merged dst src = dst then (dst, false)
  else (merged dst src, true)

def resize (locals : List VerificationType) (length : ℕ) : List VerificationType :=
  locals ++ List.replicate (length - locals.length) .top

/-- Slot-indexed `arriving` locals merged into `existing`, the shorter padded with `top`. -/
def mergeInto (existing arriving : List VerificationType) : List VerificationType × Bool :=
  let length := max existing.length arriving.length
  let merged := (resize existing length).mapIdx fun index slot => mergeOne slot (arriving[index]?.getD .top)
  (merged.map Prod.fst, decide (existing.length < length) || merged.any Prod.snd)

def mergeValues : List VerificationType → List VerificationType → List VerificationType × Bool
  | mine :: existing, theirs :: arriving =>
    let (mine, changed) := mergeOne mine theirs
    let (rest, changes) := mergeValues existing arriving
    (mine :: rest, changed || changes)
  | existing, _ => (existing, false)

/-- One local per slot, and the stack bottom-first. -/
@[ext] structure FrameState where
  locals : List VerificationType
  stack : List VerificationType
  deriving DecidableEq

/-- A block's input once `arriving` reached it, and whether it changed; `none` declines the body for
stacks of different heights. -/
def arrive (input : Option FrameState) (arriving : FrameState) : Option (FrameState × Bool) :=
  match input with
  | none => some (arriving, true)
  | some existing =>
    if existing.stack.length ≠ arriving.stack.length then none
    else
      let (locals, a) := mergeInto existing.locals arriving.locals
      let (stack, s) := mergeValues existing.stack arriving.stack
      some (⟨locals, stack⟩, a || s)

/-- A block's input after each of `arrivals` in turn. -/
def arriveAll (input : Option FrameState) : List FrameState → Option (Option FrameState)
  | [] => some input
  | arriving :: arrivals => do
    let (state, _) ← arrive input arriving
    arriveAll (some state) arrivals

section Values

def meet (a b : VerificationType) : VerificationType := (mergeOne a b).1

/-- A primitive array counts one dimension less: its elements are not references. -/
def effective (name : String) : ℕ := if (arrayShape name).2 then (arrayShape name).1 else (arrayShape name).1 - 1

theorem arrayShape_objectArray (dim : ℕ) : arrayShape (objectArray dim) = (dim, true) := by
  unfold objectArray
  split_ifs with h
  · rw [h]
    decide
  · have htake : (List.takeWhile (· = '[') (List.replicate dim '[' ++ ("L" ++ object ++ ";").toList)) =
        List.replicate dim '[' := by
      induction dim with
      | zero => decide
      | succ dim ih =>
        rw [List.replicate_succ, List.cons_append, List.takeWhile_cons_of_pos (by decide)]
        by_cases hdim : dim = 0
        · rw [hdim]
          decide
        · rw [ih hdim]
    have hat : (List.replicate dim '[' ++ ("L" ++ object ++ ";").toList)[dim]? = some 'L' := by
      rw [List.getElem?_append_right (by simp)]
      simp only [List.length_replicate, Nat.sub_self]
      decide
    simp only [arrayShape, String.toList_ofList, htake, List.length_replicate, hat]
    simp

/-- Names by their array depth: `Object`'s arrays are the canonical ones. -/
def depths : Depths String where
  depth := effective
  canonical := objectArray
  depth_canonical dim := by rw [effective, arrayShape_objectArray, if_pos rfl]

theorem mergeReferences_eq (a b : String) :
    mergeReferences a b = objectArray (min (effective a) (effective b)) := by
  unfold mergeReferences effective
  obtain ⟨aDim, aRef⟩ := arrayShape a
  obtain ⟨bDim, bRef⟩ := arrayShape b
  by_cases hsame : aDim = bDim ∧ aRef = bRef
  · obtain ⟨hdim, href⟩ := hsame
    simp only [hdim, href, and_self, if_true, min_self]
  · simp only [hsame, if_false]

/-- The type a name stands for, `null` without one. -/
def ofName : Option String → VerificationType
  | none => .null
  | some name => .reference name

/-- Types that merge below `top` only with one another: the references with `null`, any other type alone. -/
def block : VerificationType → VerificationType
  | .reference _ => .null
  | value => value

@[simp] theorem meet_self (a : VerificationType) : meet a a = a := by simp [meet, mergeOne]

/-- A merge reports a change exactly when the type differs after it. -/
theorem mergeOne_changed_iff (dst src : VerificationType) :
    (mergeOne dst src).2 = true ↔ meet dst src ≠ dst := by
  unfold meet mergeOne
  split_ifs with hsame hmerged
  · simp
  · simp
  · simpa using hmerged

/-- References meet at `Object`'s array of the lower depth, and `null` at what it meets. -/
theorem meet_ofName (x y : Option String) :
    meet (ofName x) (ofName y) = ofName (Option.merge depths.meet x y) := by
  cases x with
  | none =>
    cases y with
    | none => rw [meet_self, Option.merge_none_left]
    | some b => simp [meet, mergeOne, merged, ofName]
  | some a =>
    cases y with
    | none => simp [meet, mergeOne, merged, ofName]
    | some b =>
      by_cases h : a = b
      · rw [h, meet_self, Option.merge_some_some, Depths.meet_self]
      · have hname : Option.merge depths.meet (some a) (some b) = some (mergeReferences a b) := by
          rw [Option.merge_some_some, Depths.meet_of_ne _ h, mergeReferences_eq]
          rfl
        rw [hname]
        simp only [ofName, meet, mergeOne, merged, VerificationType.reference.injEq, h, if_false]
        split_ifs with hmerged
        · rw [hmerged]
        · rfl

theorem meet_of_block_ne {a b : VerificationType} (h : block a ≠ block b) : meet a b = .top := by
  have hne : a ≠ b := fun heq => h (by rw [heq])
  unfold meet mergeOne
  rw [if_neg hne]
  cases a <;> cases b <;> simp_all [block, merged]

/-- Types of one block are equal, or both of names. -/
theorem block_cases {a b : VerificationType} (h : block a = block b) :
    a = b ∨ ∃ x y, a = ofName x ∧ b = ofName y := by
  cases a with
  | null =>
    cases b with
    | null => exact .inl rfl
    | reference name => exact .inr ⟨none, some name, rfl, rfl⟩
    | _ => cases h
  | reference name =>
    cases b with
    | null => exact .inr ⟨some name, none, rfl, rfl⟩
    | reference name' => exact .inr ⟨some name, some name', rfl, rfl⟩
    | _ => cases h
  | _ => cases b <;> simp_all [block]

theorem block_ofName (x : Option String) : block (ofName x) = .null := by cases x <;> rfl

/-- A type of the block of names is a name's. -/
theorem exists_ofName {a : VerificationType} (h : block a = .null) : ∃ x, a = ofName x := by
  cases a with
  | null => exact ⟨none, rfl⟩
  | reference name => exact ⟨some name, rfl⟩
  | _ => cases h

theorem blocks : Blocks meet block .top where
  apart _ _ h := meet_of_block_ne h
  within a b h := by
    obtain rfl | ⟨x, y, rfl, rfl⟩ := block_cases h
    · rw [meet_self]
    · rw [meet_ofName, block_ofName, block_ofName]
  alone a h := by cases a <;> simp_all [block]
  idem := meet_self
  comm a b h := by
    obtain rfl | ⟨x, y, rfl, rfl⟩ := block_cases h
    · rfl
    · rw [meet_ofName, meet_ofName, @Std.Commutative.comm _ (Option.merge depths.meet) _]
  assoc a b c hab hbc := by
    obtain rfl | ⟨x, y, rfl, rfl⟩ := block_cases hab
    · obtain rfl | ⟨x, y, rfl, rfl⟩ := block_cases hbc
      · rw [meet_self]
      · simp only [meet_ofName]
        rw [@Std.Associative.assoc _ (Option.merge depths.meet) _]
    · obtain ⟨z, rfl⟩ := exists_ofName (hbc.symm.trans (block_ofName y))
      simp only [meet_ofName]
      rw [@Std.Associative.assoc _ (Option.merge depths.meet) _]

theorem joinLaws : JoinLaws meet := ⟨meet_self, blocks.merge_comm, blocks.merge_assoc⟩

instance meetAssociative : Std.Associative meet := ⟨blocks.merge_assoc⟩
instance meetCommutative : Std.Commutative meet := ⟨blocks.merge_comm⟩
instance meetIdempotent : Std.IdempotentOp meet := ⟨meet_self⟩

/-- How far a type is from `top`; `null` takes the name of what it meets, so it is above them all. -/
def rank : VerificationType → ℕ ×ₗ ℕ
  | .top => toLex (0, 0)
  | .null => toLex (1, 0)
  | .reference name => toLex (0, depths.rank name + 1)
  | _ => toLex (0, 1)

theorem rank_reference_lt_null (name : String) : rank (.reference name) < rank .null :=
  Prod.Lex.toLex_lt_toLex.mpr (.inl Nat.zero_lt_one)

theorem rank_top_lt {a : VerificationType} (h : a ≠ .top) : rank .top < rank a := by
  cases a with
  | top => exact absurd rfl h
  | null => exact Prod.Lex.toLex_lt_toLex.mpr (.inl Nat.zero_lt_one)
  | reference name => exact Prod.Lex.toLex_lt_toLex.mpr (.inr ⟨rfl, Nat.succ_pos _⟩)
  | _ => exact Prod.Lex.toLex_lt_toLex.mpr (.inr ⟨rfl, Nat.zero_lt_one⟩)

theorem meet_falls (a b : VerificationType) : meet a b = a ∨ rank (meet a b) < rank a := by
  by_cases hblock : block a = block b
  · obtain rfl | ⟨x, y, rfl, rfl⟩ := block_cases hblock
    · exact .inl (meet_self a)
    · rw [meet_ofName]
      cases x with
      | none =>
        cases y with
        | none => exact .inl rfl
        | some b => exact .inr (rank_reference_lt_null b)
      | some a =>
        cases y with
        | none => exact .inl rfl
        | some b =>
          rw [Option.merge_some_some]
          obtain hkept | hfell := depths.meet_falls a b
          · left
            rw [hkept]
          · right
            exact Prod.Lex.toLex_lt_toLex.mpr (.inr ⟨rfl, Nat.succ_lt_succ hfell⟩)
  · rw [meet_of_block_ne hblock]
    by_cases htop : a = .top
    · exact .inl htop.symm
    · exact .inr (rank_top_lt htop)

theorem finiteHeight : FiniteHeight (Below meet) := finiteHeight_of_falls rank meet_falls

end Values

section Locals

/-- The type of a slot; a slot past the end is unassigned. -/
def slotAt (locals : List VerificationType) (slot : ℕ) : VerificationType := locals[slot]?.getD .top

/-- Locals of one length with the same slots are the same. -/
theorem locals_ext {a b : List VerificationType} (hlength : a.length = b.length)
    (hslots : ∀ i, slotAt a i = slotAt b i) : a = b := by
  apply List.ext_getElem hlength
  intro i ha hb
  have hslot := hslots i
  rwa [slotAt, slotAt, List.getElem?_eq_getElem ha, List.getElem?_eq_getElem hb] at hslot

theorem length_resize {locals : List VerificationType} {length : ℕ} (h : locals.length ≤ length) :
    (resize locals length).length = length := by
  rw [resize, List.length_append, List.length_replicate]
  omega

@[simp] theorem slotAt_resize (locals : List VerificationType) (length i : ℕ) :
    slotAt (resize locals length) i = slotAt locals i := by
  unfold slotAt resize
  by_cases h : i < locals.length
  · rw [List.getElem?_append_left h]
  · rw [List.getElem?_append_right (not_lt.mp h), List.getElem?_eq_none (not_lt.mp h), List.getElem?_replicate]
    split_ifs <;> rfl

variable (existing arriving : List VerificationType)

theorem mergeInto_fst : (mergeInto existing arriving).1 =
    (resize existing (max existing.length arriving.length)).mapIdx fun index slot =>
      meet slot (slotAt arriving index) := by
  apply List.ext_getElem
  · simp only [mergeInto, List.length_map, List.length_mapIdx]
  · intro i hleft hright
    simp only [mergeInto, List.getElem_map, List.getElem_mapIdx]
    rfl

@[simp] theorem length_mergeInto :
    (mergeInto existing arriving).1.length = max existing.length arriving.length := by
  rw [mergeInto_fst, List.length_mapIdx, length_resize (le_max_left _ _)]

/-- Locals merge slot by slot. -/
theorem slotAt_mergeInto (i : ℕ) :
    slotAt (mergeInto existing arriving).1 i = meet (slotAt existing i) (slotAt arriving i) := by
  have hresize := slotAt_resize existing (max existing.length arriving.length) i
  have hlength : (resize existing (max existing.length arriving.length)).length =
      max existing.length arriving.length := length_resize (le_max_left _ _)
  rw [mergeInto_fst, ← hresize]
  by_cases h : i < max existing.length arriving.length
  · have hin : i < (resize existing (max existing.length arriving.length)).length := by rwa [hlength]
    simp only [slotAt, List.getElem?_mapIdx, List.getElem?_eq_getElem hin, Option.map_some, Option.getD_some]
  · have hout : (resize existing (max existing.length arriving.length))[i]? = none :=
      List.getElem?_eq_none (by omega)
    have harriving : arriving[i]? = none := List.getElem?_eq_none (by omega)
    simp only [slotAt, List.getElem?_mapIdx, hout, harriving, Option.map_none, Option.getD_none, meet_self]

/-- The locals' flag says whether they differ after the merge. -/
theorem mergeInto_changed_iff :
    (mergeInto existing arriving).2 = true ↔ (mergeInto existing arriving).1 ≠ existing := by
  by_cases hgrown : existing.length < max existing.length arriving.length
  · have hne : (mergeInto existing arriving).1 ≠ existing := by
      intro heq
      have hlength := length_mergeInto existing arriving
      rw [heq] at hlength
      omega
    have hflag : (mergeInto existing arriving).2 = true := by
      simp only [mergeInto, decide_eq_true hgrown, Bool.true_or]
    exact ⟨fun _ => hne, fun _ => hflag⟩
  · have hmax : max existing.length arriving.length = existing.length := by omega
    have hsame : resize existing existing.length = existing := by simp [resize]
    have hfst : (mergeInto existing arriving).1 = existing ↔
        ∀ i, meet (slotAt existing i) (slotAt arriving i) = slotAt existing i := by
      constructor
      · intro heq i
        rw [← slotAt_mergeInto, heq]
      · intro hslots
        apply locals_ext (by rw [length_mergeInto, hmax])
        intro i
        rw [slotAt_mergeInto, hslots]
    have hflag : (mergeInto existing arriving).2 = true ↔
        ∃ i, meet (slotAt existing i) (slotAt arriving i) ≠ slotAt existing i := by
      simp only [mergeInto, hmax, hsame, lt_irrefl, decide_false, Bool.false_or, List.any_eq_true,
        List.mem_mapIdx]
      constructor
      · rintro ⟨_, ⟨i, hi, rfl⟩, hchanged⟩
        refine ⟨i, ?_⟩
        rw [mergeOne_changed_iff] at hchanged
        rwa [slotAt, List.getElem?_eq_getElem hi]
      · rintro ⟨i, hne⟩
        by_cases hi : i < existing.length
        · refine ⟨_, ⟨i, hi, rfl⟩, ?_⟩
          rw [mergeOne_changed_iff]
          rwa [slotAt, List.getElem?_eq_getElem hi] at hne
        · have hnone : existing[i]? = none := List.getElem?_eq_none (not_lt.mp hi)
          have harriving : arriving[i]? = none := List.getElem?_eq_none (by omega)
          simp [slotAt, hnone, harriving] at hne
    rw [hflag, ne_eq, hfst, not_forall]

end Locals

section Stacks

/-- Stacks of one height merge entry by entry. -/
theorem mergeValues_fst {existing arriving : List VerificationType} (h : existing.length = arriving.length) :
    (mergeValues existing arriving).1 = List.zipWith meet existing arriving := by
  induction existing generalizing arriving with
  | nil =>
    cases arriving with
    | nil => rfl
    | cons => cases h
  | cons mine existing ih =>
    cases arriving with
    | nil => cases h
    | cons theirs arriving =>
      have htail := ih (Nat.succ.inj h)
      rw [List.zipWith_cons_cons, ← htail]
      rfl

/-- The stack's flag says whether it differs after the merge. -/
theorem mergeValues_changed_iff (existing arriving : List VerificationType) :
    (mergeValues existing arriving).2 = true ↔ (mergeValues existing arriving).1 ≠ existing := by
  induction existing generalizing arriving with
  | nil => simp [mergeValues]
  | cons mine existing ih =>
    cases arriving with
    | nil => simp [mergeValues]
    | cons theirs arriving =>
      have htail := ih arriving
      have hhead := mergeOne_changed_iff mine theirs
      unfold meet at hhead
      simp only [mergeValues, Bool.or_eq_true, hhead, htail, ne_eq, List.cons.injEq]
      tauto

end Stacks

section Frames

theorem arrive_of_height {existing arriving : FrameState} (h : existing.stack.length = arriving.stack.length) :
    arrive (some existing) arriving =
      some (⟨(mergeInto existing.locals arriving.locals).1, (mergeValues existing.stack arriving.stack).1⟩,
        (mergeInto existing.locals arriving.locals).2 || (mergeValues existing.stack arriving.stack).2) :=
  if_neg (not_not.mpr h)

theorem arrive_of_height_ne {existing arriving : FrameState}
    (h : existing.stack.length ≠ arriving.stack.length) : arrive (some existing) arriving = none := if_pos h

def mergeLocals (a b : List VerificationType) : List VerificationType := (mergeInto a b).1

instance mergeLocalsAssociative : Std.Associative mergeLocals where
  assoc a b c := by
    apply locals_ext
    · simp only [mergeLocals, length_mergeInto, max_assoc]
    · intro i
      simp only [mergeLocals, slotAt_mergeInto, joinLaws.assoc]

instance mergeLocalsCommutative : Std.Commutative mergeLocals where
  comm a b := by
    apply locals_ext
    · simp only [mergeLocals, length_mergeInto, max_comm]
    · intro i
      simp only [mergeLocals, slotAt_mergeInto]
      exact joinLaws.comm _ _

instance mergeLocalsIdempotent : Std.IdempotentOp mergeLocals where
  idempotent a := by
    apply locals_ext
    · simp only [mergeLocals, length_mergeInto, max_self]
    · intro i
      simp only [mergeLocals, slotAt_mergeInto, meet_self]

/-- Frames merged; stacks of different heights do not merge. -/
def join := pairJoin mergeLocals (zipJoin meet)

instance joinAssociative : Std.Associative join := inferInstanceAs (Std.Associative (pairJoin _ _))
instance joinCommutative : Std.Commutative join := inferInstanceAs (Std.Commutative (pairJoin _ _))
instance joinIdempotent : Std.IdempotentOp join := inferInstanceAs (Std.IdempotentOp (pairJoin _ _))

/-- A frame among the frames that may decline. -/
def FrameState.parts (f : FrameState) : List VerificationType × Option (List VerificationType) :=
  (f.locals, some f.stack)

/-- The input merged parts stand for; none declines the body. -/
def ofParts (parts : List VerificationType × Option (List VerificationType)) : Option (Option FrameState) :=
  parts.2.map fun stack => some ⟨parts.1, stack⟩

theorem join_declined (locals : List VerificationType) (rest : List FrameState) :
    ofParts ((rest.map FrameState.parts).foldl join (locals, none)) = none := by
  induction rest generalizing locals with
  | nil => rfl
  | cons g rest ih => exact ih (mergeLocals locals g.locals)

/-- What a block holds after arrivals is the join of them all. -/
theorem arriveAll_some (existing : FrameState) (arrivals : List FrameState) :
    arriveAll (some existing) arrivals =
      ofParts ((arrivals.map FrameState.parts).foldl join existing.parts) := by
  induction arrivals generalizing existing with
  | nil => rfl
  | cons arriving arrivals ih =>
    rw [List.map_cons, List.foldl_cons, arriveAll]
    by_cases h : existing.stack.length = arriving.stack.length
    · have hjoin : join existing.parts arriving.parts =
          FrameState.parts ⟨(mergeInto existing.locals arriving.locals).1,
            (mergeValues existing.stack arriving.stack).1⟩ := by
        rw [mergeValues_fst h]
        simp only [join, pairJoin, FrameState.parts, zipJoin_of_length meet h]
        rfl
      rw [arrive_of_height h, hjoin]
      exact ih _
    · have hjoin : join existing.parts arriving.parts = (mergeLocals existing.locals arriving.locals, none) := by
        simp only [join, pairJoin, FrameState.parts, zipJoin_of_length_ne meet h]
      rw [arrive_of_height_ne h, hjoin, join_declined]
      rfl

/-- Arrivals leave the same input, or decline the body alike, in any order and however often each comes. -/
theorem arriveAll_eq_of_mem_iff (input : Option FrameState) {arrivals arrivals' : List FrameState}
    (h : ∀ f, f ∈ arrivals ↔ f ∈ arrivals') : arriveAll input arrivals = arriveAll input arrivals' := by
  have hparts : ∀ p, p ∈ arrivals.map FrameState.parts ↔ p ∈ arrivals'.map FrameState.parts := by
    intro p
    simp only [List.mem_map, h]
  cases input with
  | some existing =>
    rw [arriveAll_some, arriveAll_some]
    congr 1
    apply foldl_eq_of_mem_iff
    intro p
    rw [List.mem_cons, List.mem_cons, hparts]
  | none =>
    cases arrivals with
    | nil =>
      have hnil : arrivals' = [] := List.eq_nil_iff_forall_not_mem.mpr fun f hf => by simpa using (h f).mpr hf
      rw [hnil]
    | cons first rest =>
      cases arrivals' with
      | nil => simpa using (h first).mp (List.mem_cons_self ..)
      | cons first' rest' =>
        change arriveAll (some first) rest = arriveAll (some first') rest'
        rw [arriveAll_some, arriveAll_some]
        congr 1
        exact foldl_eq_of_mem_iff join hparts

/-- An arrival reports a change exactly when it leaves another frame. -/
theorem arrive_changed_iff {existing arriving result : FrameState} {changed : Bool}
    (h : arrive (some existing) arriving = some (result, changed)) : changed = true ↔ result ≠ existing := by
  have hlocals := mergeInto_changed_iff existing.locals arriving.locals
  have hstack := mergeValues_changed_iff existing.stack arriving.stack
  by_cases hheight : existing.stack.length = arriving.stack.length
  swap
  · rw [arrive_of_height_ne hheight] at h
    cases h
  rw [arrive_of_height hheight, Option.some.injEq, Prod.mk.injEq] at h
  obtain ⟨rfl, rfl⟩ := h
  rw [Bool.or_eq_true, hlocals, hstack, ne_eq, ne_eq, ne_eq, FrameState.ext_iff]
  tauto

/-- `g` is `f` changed by an arrival, in a method of at most `maxLocals` locals. -/
def Raised (maxLocals : ℕ) (g f : FrameState) : Prop :=
  f.locals.length ≤ maxLocals ∧ ∃ arriving : FrameState, arriving.locals.length ≤ maxLocals ∧
    arrive (some f) arriving = some (g, true)

/-- Locals of any length, by their slots up to `maxLocals`. -/
def slots (maxLocals : ℕ) (locals : List VerificationType) : List VerificationType :=
  (List.range maxLocals).map (slotAt locals)

theorem slots_injective {maxLocals : ℕ} {a b : List VerificationType} (ha : a.length ≤ maxLocals)
    (hlength : a.length = b.length) (h : slots maxLocals a = slots maxLocals b) : a = b := by
  apply locals_ext hlength
  intro i
  by_cases hi : i < maxLocals
  · exact List.map_inj_left.mp h i (List.mem_range.mpr hi)
  · rw [slotAt, slotAt, List.getElem?_eq_none (by omega), List.getElem?_eq_none (by omega)]

/-- Lengths that only grow, up to a bound. -/
theorem finiteHeight_bounded (bound : ℕ) : FiniteHeight fun a b : ℕ => a ≤ b ∧ b ≤ bound := by
  have hsub : ∀ a b : ℕ, Above (fun a b : ℕ => a ≤ b ∧ b ≤ bound) a b → bound - a < bound - b := by
    rintro a b ⟨⟨hle, hbound⟩, hne⟩
    omega
  exact Subrelation.wf (fun {a b} h => hsub a b h) (InvImage.wf (bound - ·) Nat.lt_wfRel.wf)

/-- A frame's length, slots and stack, which only rise. -/
def heights (maxLocals : ℕ) (f : FrameState) : ℕ × List VerificationType × List VerificationType :=
  (f.locals.length, slots maxLocals f.locals, f.stack)

def HeightsLe (maxLocals : ℕ) :
    ℕ × List VerificationType × List VerificationType → ℕ × List VerificationType × List VerificationType → Prop :=
  PairLe (fun a b => a ≤ b ∧ b ≤ maxLocals) (PairLe (List.Forall₂ (Below meet)) (List.Forall₂ (Below meet)))

theorem slots_below (maxLocals : ℕ) (existing arriving : List VerificationType) :
    List.Forall₂ (Below meet) (slots maxLocals existing) (slots maxLocals (mergeInto existing arriving).1) := by
  unfold slots
  rw [List.forall₂_map_left_iff, List.forall₂_map_right_iff, List.forall₂_same]
  intro i _
  rw [slotAt_mergeInto]
  exact joinLaws.below_left _ _

theorem stack_below {existing arriving : List VerificationType} (h : existing.length = arriving.length) :
    List.Forall₂ (Below meet) existing (List.zipWith meet existing arriving) := by
  induction existing generalizing arriving with
  | nil => exact .nil
  | cons mine existing ih =>
    cases arriving with
    | nil => cases h
    | cons theirs arriving => exact .cons (joinLaws.below_left mine theirs) (ih (Nat.succ.inj h))

/-- A changing arrival raises a length, a slot or a stack entry. -/
theorem heights_above {maxLocals : ℕ} {g f : FrameState} (h : Raised maxLocals g f) :
    Above (HeightsLe maxLocals) (heights maxLocals g) (heights maxLocals f) := by
  obtain ⟨hf, arriving, harriving, harrive⟩ := h
  have hne : g ≠ f := (arrive_changed_iff harrive).mp rfl
  by_cases hstack : f.stack.length = arriving.stack.length
  swap
  · rw [arrive_of_height_ne hstack] at harrive
    cases harrive
  rw [arrive_of_height hstack, Option.some.injEq, Prod.mk.injEq] at harrive
  obtain ⟨rfl, -⟩ := harrive
  have hlength := length_mergeInto f.locals arriving.locals
  have hgrows : f.locals.length ≤ (mergeInto f.locals arriving.locals).1.length := by omega
  have hbound : (mergeInto f.locals arriving.locals).1.length ≤ maxLocals := by omega
  have hstacks : List.Forall₂ (Below meet) f.stack (mergeValues f.stack arriving.stack).1 := by
    rw [mergeValues_fst hstack]
    exact stack_below hstack
  refine ⟨⟨⟨hgrows, hbound⟩, slots_below maxLocals _ _, hstacks⟩, ?_⟩
  intro heq
  have hlen := congrArg Prod.fst heq
  have hslots := congrArg (fun key => key.2.1) heq
  have hsame := congrArg (fun key => key.2.2) heq
  exact hne (FrameState.ext (slots_injective hbound hlen hslots) hsame)

/-- No frame is changed forever, however the arrivals come. -/
theorem wellFounded_raised (maxLocals : ℕ) : WellFounded (Raised maxLocals) := by
  have hvalues : FiniteHeight (List.Forall₂ (Below meet)) := finiteHeight_forall₂ finiteHeight
  have hheight : FiniteHeight (HeightsLe maxLocals) :=
    finiteHeight_pair (finiteHeight_bounded maxLocals) (finiteHeight_pair hvalues hvalues)
  exact Subrelation.wf (fun {g f} h => heights_above h) (InvImage.wf (heights maxLocals) hheight)

end Frames

end Krusty.Jvm.FrameComputer
