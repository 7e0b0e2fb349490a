import Krusty.Jvm.Classfile.FrameComputer
import Krusty.Jvm.BytecodePasses.Analysis.BasicValues

/-! The merges of basic values and of frame types are joins, so frames do not depend on the order of a
node's predecessors. -/
namespace Krusty.Jvm.BytecodePasses

open Joins Ascending

namespace BasicValue

/-- The dimensions of a descriptor whose elements are references. -/
def effective : List Char → ℕ
  | '[' :: rest => if isReferenceDescriptor rest then effective rest + 1 else 0
  | _ => 0

/-- The dimensions `mergeReferences` keeps of what two descriptors share. -/
def sharedDepth (common : ℕ × List Char × List Char) : ℕ :=
  if common.1 = 0 then 0
  else if !isReferenceDescriptor common.2.1 || !isReferenceDescriptor common.2.2 then common.1 - 1
  else common.1

theorem commonDimensions_pos {a b : List Char} (h : (commonDimensions a b).1 ≠ 0) :
    isReferenceDescriptor a = true ∧ isReferenceDescriptor b = true := by
  by_cases hboth : ∃ a' b', a = '[' :: a' ∧ b = '[' :: b'
  · obtain ⟨a', b', rfl, rfl⟩ := hboth
    exact ⟨rfl, rfl⟩
  · rw [commonDimensions_of_not fun a' b' ha hb => hboth ⟨a', b', ha, hb⟩] at h
    exact absurd rfl h

theorem commonDimensions_zero {a b : List Char} (h : (commonDimensions a b).1 = 0) :
    commonDimensions a b = (0, a, b) ∧ min (effective a) (effective b) = 0 := by
  by_cases hboth : ∃ a' b', a = '[' :: a' ∧ b = '[' :: b'
  · obtain ⟨a', b', rfl, rfl⟩ := hboth
    cases h
  · have hnot : ∀ a' b', a = '[' :: a' → b = '[' :: b' → False := fun a' b' ha hb => hboth ⟨a', b', ha, hb⟩
    refine ⟨commonDimensions_of_not hnot, ?_⟩
    by_cases ha : ∃ rest, a = '[' :: rest
    · obtain ⟨a, rfl⟩ := ha
      have hb : effective b = 0 := by
        unfold effective
        split
        · exact absurd rfl (hnot _ _ rfl)
        · rfl
      rw [hb, Nat.min_zero]
    · have hzero : effective a = 0 := by
        unfold effective
        split
        · exact absurd ⟨_, rfl⟩ ha
        · rfl
      rw [hzero, Nat.zero_min]

/-- What two descriptors share keeps the lower of their dimensions of references. -/
theorem sharedDepth_commonDimensions (a b : List Char) :
    sharedDepth (commonDimensions a b) = min (effective a) (effective b) := by
  fun_induction commonDimensions a b with
  | case1 a b dims a' b' heq ih =>
    rw [heq] at ih
    simp only [effective]
    by_cases hdims : dims = 0
    · have hzero := commonDimensions_zero (a := a) (b := b) (by rw [heq]; exact hdims)
      rw [heq, Prod.mk.injEq, Prod.mk.injEq] at hzero
      obtain ⟨⟨-, rfl, rfl⟩, hmin⟩ := hzero
      cases ha : isReferenceDescriptor a' with
      | false => simp [sharedDepth, ha, hdims]
      | true =>
        cases hb : isReferenceDescriptor b' with
        | false => simp [sharedDepth, hb, hdims]
        | true => simp [sharedDepth, ha, hb, hdims, hmin]
    · obtain ⟨ha, hb⟩ := commonDimensions_pos (a := a) (b := b) (by rw [heq]; exact hdims)
      simp only [sharedDepth, hdims, if_false] at ih
      simp only [sharedDepth, ha, hb, if_true, Nat.succ_ne_zero, if_false]
      have hmin : min (effective a + 1) (effective b + 1) = min (effective a) (effective b) + 1 := by omega
      rw [hmin, ← ih]
      split_ifs <;> omega
  | case2 a b h =>
    have hzero : (commonDimensions a b).1 = 0 := by rw [commonDimensions_of_not h]
    rw [(commonDimensions_zero hzero).2]
    rfl

/-- The descriptor of `Object`'s array of some dimensions. -/
def objectArray (dimensions : ℕ) : String :=
  String.ofList (List.replicate dimensions '[' ++ objectDescriptor.toList)

theorem effective_objectArray (dimensions : ℕ) : effective (objectArray dimensions).toList = dimensions := by
  have href : ∀ n, isReferenceDescriptor (List.replicate n '[' ++ objectDescriptor.toList) = true := by
    intro n
    cases n with
    | zero => decide
    | succ n => rfl
  rw [objectArray, String.toList_ofList]
  induction dimensions with
  | zero => decide
  | succ n ih => rw [List.replicate_succ, List.cons_append, effective, if_pos (href n), ih]

/-- Descriptors by their dimensions: `Object`'s arrays are the canonical ones. -/
def depths : Depths String where
  depth descriptor := effective descriptor.toList
  canonical := objectArray
  depth_canonical := effective_objectArray

theorem mergeReferences_eq (a b : String) :
    mergeReferences a b = reference (objectArray (min (effective a.toList) (effective b.toList))) := by
  rw [← sharedDepth_commonDimensions]
  unfold mergeReferences sharedDepth
  dsimp only
  split_ifs with hzero <;> rfl

/-- The value a descriptor stands for, `null` without one. -/
def ofName : Option String → BasicValue
  | none => null
  | some descriptor => reference descriptor

/-- Values that merge to one of them: the references with `null`, what `istore` stores, any other alone. -/
def block : BasicValue → BasicValue
  | reference _ => null
  | boolean | char | byte | short => int
  | value => value

@[simp] theorem merge_self (a : BasicValue) : merge a a = a := if_pos rfl

theorem merge_of_block_ne {a b : BasicValue} (h : block a ≠ block b) : merge a b = uninitialized := by
  have hne : a ≠ b := fun heq => h (by rw [heq])
  unfold merge
  rw [if_neg hne]
  cases a <;> cases b <;> simp_all [block, isReference, isIntStorable]

theorem merge_ofName (x y : Option String) :
    merge (ofName x) (ofName y) = ofName (Option.merge depths.meet x y) := by
  cases x with
  | none =>
    cases y with
    | none => rw [merge_self, Option.merge_none_left]
    | some b => simp [merge, ofName, isReference]
  | some a =>
    cases y with
    | none => simp [merge, ofName, isReference]
    | some b =>
      by_cases h : a = b
      · rw [h, merge_self, Option.merge_some_some, Depths.meet_self]
      · have hmeet : merge (reference a) (reference b) = mergeReferences b a := by
          simp [merge, isReference, descriptor, h]
        rw [Option.merge_some_some, Depths.meet_of_ne _ h, ofName, ofName, hmeet, mergeReferences_eq, Nat.min_comm]
        rfl

/-- Different values `istore` stores meet at `int`. -/
theorem merge_of_int {a b : BasicValue} (ha : block a = int) (hb : block b = int) :
    merge a b = if a = b then a else int := by
  by_cases h : a = b
  · rw [h, merge_self, if_pos rfl]
  · rw [if_neg h]
    unfold merge
    rw [if_neg h]
    cases a <;> cases b <;> simp_all [block, isReference, isIntStorable]

/-- Values of one block are equal, or both of names, or both integers. -/
theorem block_cases {a b : BasicValue} (h : block a = block b) :
    a = b ∨ (∃ x y, a = ofName x ∧ b = ofName y) ∨ (block a = int ∧ block b = int) := by
  cases a with
  | null =>
    cases b with
    | null => exact .inl rfl
    | reference descriptor => exact .inr (.inl ⟨none, some descriptor, rfl, rfl⟩)
    | _ => cases h
  | reference descriptor =>
    cases b with
    | null => exact .inr (.inl ⟨some descriptor, none, rfl, rfl⟩)
    | reference descriptor' => exact .inr (.inl ⟨some descriptor, some descriptor', rfl, rfl⟩)
    | _ => cases h
  | int | boolean | char | byte | short => exact .inr (.inr ⟨rfl, h.symm.trans rfl⟩)
  | _ => cases b <;> simp_all [block]

@[simp] theorem block_ofName (x : Option String) : block (ofName x) = null := by cases x <;> rfl

theorem exists_ofName {a : BasicValue} (h : block a = null) : ∃ x, a = ofName x := by
  cases a with
  | null => exact ⟨none, rfl⟩
  | reference descriptor => exact ⟨some descriptor, rfl⟩
  | _ => cases h

/-- What merges with `int` below it is a join. -/
theorem merge_int_assoc {a b c : BasicValue} (ha : block a = int) (hb : block b = int) (hc : block c = int) :
    merge (merge a b) c = merge a (merge b c) := by
  have hint : block int = int := rfl
  by_cases hab : a = b
  · by_cases hbc : b = c
    · rw [hab, hbc, merge_self, merge_self]
    · rw [hab, merge_self, merge_of_int hb hc, if_neg hbc, merge_of_int hb hint]
      split_ifs with heq
      · exact heq.symm
      · rfl
  · rw [merge_of_int ha hb, if_neg hab, merge_of_int hint hc, merge_of_int hb hc]
    have hsame : (if int = c then int else int) = int := by split_ifs <;> rfl
    rw [hsame]
    by_cases hbc : b = c
    · rw [if_pos hbc, merge_of_int ha hb, if_neg hab]
    · rw [if_neg hbc, merge_of_int ha hint]
      split_ifs with heq
      · exact heq.symm
      · rfl

theorem blocks : Blocks merge block uninitialized where
  apart _ _ h := merge_of_block_ne h
  within a b h := by
    obtain rfl | ⟨x, y, rfl, rfl⟩ | ⟨ha, hb⟩ := block_cases h
    · rw [merge_self]
    · rw [merge_ofName, block_ofName, block_ofName]
    · rw [merge_of_int ha hb]
      split_ifs
      · rfl
      · exact ha.symm
  alone a h := by cases a <;> simp_all [block]
  idem := merge_self
  comm a b h := by
    obtain rfl | ⟨x, y, rfl, rfl⟩ | ⟨ha, hb⟩ := block_cases h
    · rfl
    · rw [merge_ofName, merge_ofName, @Std.Commutative.comm _ (Option.merge depths.meet) _]
    · rw [merge_of_int ha hb, merge_of_int hb ha]
      by_cases hab : a = b
      · rw [hab]
      · rw [if_neg hab, if_neg (Ne.symm hab)]
  assoc a b c hab hbc := by
    obtain rfl | ⟨x, y, rfl, rfl⟩ | ⟨ha, hb⟩ := block_cases hab
    · obtain rfl | ⟨x, y, rfl, rfl⟩ | ⟨ha, hc⟩ := block_cases hbc
      · rw [merge_self]
      · simp only [merge_ofName]
        rw [@Std.Associative.assoc _ (Option.merge depths.meet) _]
      · exact merge_int_assoc ha ha hc
    · obtain ⟨z, rfl⟩ := exists_ofName (hbc.symm.trans (block_ofName y))
      simp only [merge_ofName]
      rw [@Std.Associative.assoc _ (Option.merge depths.meet) _]
    · exact merge_int_assoc ha hb (hbc.symm.trans hb)

theorem joinLaws : JoinLaws merge := ⟨merge_self, blocks.merge_comm, blocks.merge_assoc⟩

instance mergeCommutative : Std.Commutative merge := ⟨blocks.merge_comm⟩

/-- How far a value is from one that holds nothing; `null` is above every descriptor. -/
def rank : BasicValue → ℕ ×ₗ ℕ
  | uninitialized => toLex (0, 0)
  | null => toLex (1, 0)
  | reference descriptor => toLex (0, depths.rank descriptor + 1)
  | boolean | char | byte | short => toLex (0, 2)
  | _ => toLex (0, 1)

theorem rank_uninitialized_lt {a : BasicValue} (h : a ≠ uninitialized) : rank uninitialized < rank a := by
  cases a with
  | uninitialized => exact absurd rfl h
  | null => exact Prod.Lex.toLex_lt_toLex.mpr (.inl Nat.zero_lt_one)
  | reference descriptor => exact Prod.Lex.toLex_lt_toLex.mpr (.inr ⟨rfl, Nat.succ_pos _⟩)
  | _ => exact Prod.Lex.toLex_lt_toLex.mpr (.inr ⟨rfl, by decide⟩)

theorem rank_int_lt {a : BasicValue} (hblock : block a = int) (h : a ≠ int) : rank int < rank a := by
  cases a with
  | int => exact absurd rfl h
  | boolean | char | byte | short => exact Prod.Lex.toLex_lt_toLex.mpr (.inr ⟨rfl, by decide⟩)
  | _ => cases hblock

theorem merge_falls (a b : BasicValue) : merge a b = a ∨ rank (merge a b) < rank a := by
  by_cases hblock : block a = block b
  · obtain rfl | ⟨x, y, rfl, rfl⟩ | ⟨ha, hb⟩ := block_cases hblock
    · exact .inl (merge_self a)
    · rw [merge_ofName]
      cases x with
      | none =>
        cases y with
        | none => exact .inl rfl
        | some b => exact .inr (Prod.Lex.toLex_lt_toLex.mpr (.inl Nat.zero_lt_one))
      | some a =>
        cases y with
        | none => exact .inl rfl
        | some b =>
          rw [Option.merge_some_some]
          obtain hkept | hfell := depths.meet_falls a b
          · left
            rw [hkept]
          · right
            exact Prod.Lex.toLex_lt_toLex.mpr (.inr ⟨rfl, Nat.succ_lt_succ hfell⟩)
    · rw [merge_of_int ha hb]
      by_cases hab : a = b
      · rw [if_pos hab]
        exact .inl rfl
      · rw [if_neg hab]
        by_cases hint : a = int
        · exact .inl hint.symm
        · exact .inr (rank_int_lt ha hint)
  · rw [merge_of_block_ne hblock]
    by_cases hnone : a = uninitialized
    · exact .inl hnone.symm
    · exact .inr (rank_uninitialized_lt hnone)

theorem finiteHeight : FiniteHeight (Below merge) := finiteHeight_of_falls rank merge_falls

end BasicValue

section Arrivals

variable {V : Type} [DecidableEq V] {I : Interpreter V}

omit [DecidableEq V] in
theorem meetAll_eq_zipWith (merge : V → V → V) {mine theirs : List V} (h : mine.length = theirs.length) :
    meetAll merge mine theirs = List.zipWith merge mine theirs := by
  induction mine generalizing theirs with
  | nil =>
    cases theirs with
    | nil => rfl
    | cons => cases h
  | cons x mine ih =>
    cases theirs with
    | nil => cases h
    | cons y theirs => rw [meetAll, ih (Nat.succ.inj h), List.zipWith_cons_cons]

/-- Locals and stack, either of which may fail to merge. -/
abbrev Parts (V : Type) := Option (List V) × Option (List V)

def Frame.parts (f : Frame V) : Parts V := (some f.locals, some f.stack)

variable (I) in
def joinParts : Parts V → Parts V → Parts V := pairJoin (zipJoin I.mergeLocal) (zipJoin I.mergeStack)

/-- What a node holds of merged parts: a frame, or stacks of different heights. -/
def ofParts (dest : ℕ) : Parts V → Except Halt (Entry V)
  | (some locals, some stack) => .ok (.recorded locals stack)
  | _ => .error (.error ⟨dest, "incompatible stack heights"⟩)

/-- A node where edges of one analysis meet. -/
structure Worklist.Meets (w : Worklist V) (dest : ℕ) : Prop where
  inside : dest < w.count
  isMerge : dest ∈ w.mergeNodes
  merges : w.fastMerge = false

omit [DecidableEq V] in
theorem Worklist.Meets.of_same {w w' : Worklist V} {dest : ℕ} (h : w.Meets dest) (hcount : w'.count = w.count)
    (hnodes : w'.mergeNodes = w.mergeNodes) (hfast : w'.fastMerge = w.fastMerge) : w'.Meets dest :=
  ⟨by rw [hcount]; exact h.inside, by rw [hnodes]; exact h.isMerge, by rw [hfast]; exact h.merges⟩

variable {w : Worklist V}

/-- An edge that reaches a node first leaves its frame there. -/
theorem install_first {dest : ℕ} (h : w.Meets dest) (origin : ℕ) (state : Frame V)
    (hfirst : ∀ locals stack, w.frames dest ≠ .recorded locals stack) :
    ∃ w', w.install I origin dest state = .ok w' ∧ w'.Meets dest ∧
      w'.frames dest = .recorded state.locals state.stack := by
  have hinside := not_le.mpr h.inside
  have hrecord : (w.record dest state).frames dest = .recorded state.locals state.stack := by
    simp [Worklist.record]
  have hinstall : w.install I origin dest state =
      .ok (if !w.queued dest then (w.record dest state).enqueue dest else w.record dest state) := by
    unfold Worklist.install
    simp only [hinside, if_false]
    cases hframes : w.frames dest with
    | recorded locals stack => exact absurd hframes (hfirst locals stack)
    | _ => rfl
  refine ⟨_, hinstall, ?_, ?_⟩
  · split_ifs <;> exact h.of_same rfl rfl rfl
  · split_ifs <;> exact hrecord

/-- An edge that reaches a node with a frame merges into it, or its stack has another height. -/
theorem install_merges {dest : ℕ} (h : w.Meets dest) (origin : ℕ) (state : Frame V)
    {locals stack : List V} (hframes : w.frames dest = .recorded locals stack)
    (hlocals : locals.length = state.locals.length) :
    stack.length = state.stack.length ∧
        (∃ w', w.install I origin dest state = .ok w' ∧ w'.Meets dest ∧
          w'.frames dest = .recorded (List.zipWith I.mergeLocal locals state.locals)
            (List.zipWith I.mergeStack stack state.stack)) ∨
      stack.length ≠ state.stack.length ∧
        w.install I origin dest state = .error (.error ⟨dest, "incompatible stack heights"⟩) := by
  have hinside := not_le.mpr h.inside
  by_cases hstack : stack.length = state.stack.length
  · left
    refine ⟨hstack, ?_⟩
    have hmerge := meetAll_eq_zipWith I.mergeLocal hlocals
    have hmergeStack := meetAll_eq_zipWith I.mergeStack hstack
    have hinstall : ∃ changed : Bool, w.install I origin dest state =
        .ok (if changed && !w.queued dest
          then (w.record dest ⟨List.zipWith I.mergeLocal locals state.locals,
            List.zipWith I.mergeStack stack state.stack, state.returnValue⟩).enqueue dest
          else w.record dest ⟨List.zipWith I.mergeLocal locals state.locals,
            List.zipWith I.mergeStack stack state.stack, state.returnValue⟩) := by
      unfold Worklist.install Worklist.merge
      simp only [hinside, if_false, hframes, h.merges, h.isMerge, not_true_eq_false, hstack, ne_eq,
        Bool.false_eq_true, hmerge, hmergeStack]
      exact ⟨_, rfl⟩
    obtain ⟨changed, hinstall⟩ := hinstall
    refine ⟨_, hinstall, ?_, ?_⟩
    · split_ifs <;> exact h.of_same rfl rfl rfl
    · split_ifs <;> simp [Worklist.enqueue, Worklist.record]
  · right
    refine ⟨hstack, ?_⟩
    unfold Worklist.install Worklist.merge
    simp only [hinside, if_false, hframes, h.merges, h.isMerge, not_true_eq_false, hstack, ne_eq,
      Bool.false_eq_true, not_false_eq_true, if_true]
    rfl

omit [DecidableEq V] in
theorem joinParts_declined (dest : ℕ) (locals : Option (List V)) (rest : List (Frame V)) :
    ofParts dest ((rest.map Frame.parts).foldl (joinParts I) (locals, none)) =
      .error (.error ⟨dest, "incompatible stack heights"⟩) := by
  induction rest generalizing locals with
  | nil => cases locals <;> rfl
  | cons g rest ih => exact ih _

/-- What a node holds after edges is the join of their frames with the one it held. -/
theorem installAll_recorded {dest : ℕ} (h : w.Meets dest) (origin : ℕ) (arrivals : List (Frame V))
    {locals stack : List V} (hframes : w.frames dest = .recorded locals stack)
    (hlocals : ∀ state ∈ arrivals, state.locals.length = locals.length) :
    (w.installAll I origin (arrivals.map (Prod.mk dest))).map (·.frames dest) =
      ofParts dest ((arrivals.map Frame.parts).foldl (joinParts I) (some locals, some stack)) := by
  induction arrivals generalizing w locals stack with
  | nil =>
    simp only [Worklist.installAll, List.map_nil, List.foldlM_nil, List.foldl_nil, ofParts, ← hframes]
    rfl
  | cons state arrivals ih =>
    have hlength := (hlocals state (List.mem_cons_self ..)).symm
    have hunfold : ∀ w : Worklist V, w.installAll I origin ((state :: arrivals).map (Prod.mk dest)) =
        (w.install I origin dest state).bind fun w => w.installAll I origin (arrivals.map (Prod.mk dest)) :=
      fun _ => rfl
    rw [hunfold, List.map_cons, List.foldl_cons]
    obtain ⟨hstack, w', hinstall, hmeets, hmet⟩ | ⟨hstack, hinstall⟩ :=
      install_merges (I := I) h origin state hframes hlength
    · have hjoin : joinParts I (some locals, some stack) state.parts =
          (some (List.zipWith I.mergeLocal locals state.locals),
            some (List.zipWith I.mergeStack stack state.stack)) := by
        simp only [joinParts, pairJoin, Frame.parts, zipJoin_of_length _ hlength, zipJoin_of_length _ hstack]
      rw [hinstall, hjoin]
      apply ih hmeets hmet
      intro g hg
      rw [List.length_zipWith, ← hlength, Nat.min_self]
      exact hlocals g (List.mem_cons_of_mem _ hg)
    · have hjoin : joinParts I (some locals, some stack) state.parts =
          (some (List.zipWith I.mergeLocal locals state.locals), none) := by
        simp only [joinParts, pairJoin, Frame.parts, zipJoin_of_length _ hlength, zipJoin_of_length_ne _ hstack]
      rw [hinstall, hjoin, joinParts_declined]
      rfl

/-- Frames of one method: each holds `locals` local values. -/
def OfMethod (locals : ℕ) (frames : List (Frame V)) : Prop := ∀ frame ∈ frames, frame.locals.length = locals

/-- What the node holds has `locals` local values too, if it holds a frame. -/
def Entry.OfMethod (locals : ℕ) (entry : Entry V) : Prop :=
  ∀ values stack, entry = .recorded values stack → values.length = locals

/-- Edges leave the same frame at a node, or fail alike, in any order and however often each comes. -/
theorem installAll_eq_of_mem_iff [Std.Associative I.mergeLocal] [Std.Commutative I.mergeLocal]
    [Std.IdempotentOp I.mergeLocal] [Std.Associative I.mergeStack] [Std.Commutative I.mergeStack]
    [Std.IdempotentOp I.mergeStack] {dest locals : ℕ} (h : w.Meets dest) (origin : ℕ)
    {arrivals arrivals' : List (Frame V)} (hentry : (w.frames dest).OfMethod locals)
    (harrivals : OfMethod locals arrivals) (hmem : ∀ f, f ∈ arrivals ↔ f ∈ arrivals') :
    (w.installAll I origin (arrivals.map (Prod.mk dest))).map (·.frames dest) =
      (w.installAll I origin (arrivals'.map (Prod.mk dest))).map (·.frames dest) := by
  have harrivals' : OfMethod locals arrivals' := fun f hf => harrivals f ((hmem f).mpr hf)
  have : Std.Associative (joinParts I) := inferInstanceAs (Std.Associative (pairJoin _ _))
  have : Std.Commutative (joinParts I) := inferInstanceAs (Std.Commutative (pairJoin _ _))
  have : Std.IdempotentOp (joinParts I) := inferInstanceAs (Std.IdempotentOp (pairJoin _ _))
  have hparts : ∀ p, p ∈ arrivals.map Frame.parts ↔ p ∈ arrivals'.map Frame.parts := by
    intro p
    simp only [List.mem_map, hmem]
  by_cases hrecorded : ∃ values stack, w.frames dest = .recorded values stack
  · obtain ⟨values, stack, hframes⟩ := hrecorded
    have hvalues := hentry values stack hframes
    rw [installAll_recorded h origin arrivals hframes fun f hf => (harrivals f hf).trans hvalues.symm,
      installAll_recorded h origin arrivals' hframes fun f hf => (harrivals' f hf).trans hvalues.symm]
    congr 1
    apply foldl_eq_of_mem_iff
    intro p
    rw [List.mem_cons, List.mem_cons, hparts]
  · have hfirst : ∀ values stack, w.frames dest ≠ .recorded values stack :=
      fun values stack heq => hrecorded ⟨values, stack, heq⟩
    -- the first edge leaves its frame, and the rest merge into it
    have hcons : ∀ (first : Frame V) (rest : List (Frame V)), OfMethod locals (first :: rest) →
        (w.installAll I origin ((first :: rest).map (Prod.mk dest))).map (·.frames dest) =
          ofParts dest ((rest.map Frame.parts).foldl (joinParts I) first.parts) := by
      intro first rest hlocals
      obtain ⟨w', hinstall, hmeets, hframes⟩ := install_first (I := I) h origin first hfirst
      have hunfold : w.installAll I origin ((first :: rest).map (Prod.mk dest)) =
          (w.install I origin dest first).bind fun w => w.installAll I origin (rest.map (Prod.mk dest)) := rfl
      have hlength := hlocals first (List.mem_cons_self ..)
      rw [hunfold, hinstall]
      exact installAll_recorded hmeets origin rest hframes
        fun f hf => (hlocals f (List.mem_cons_of_mem _ hf)).trans hlength.symm
    cases arrivals with
    | nil =>
      have hnil : arrivals' = [] :=
        List.eq_nil_iff_forall_not_mem.mpr fun f hf => by simpa using (hmem f).mpr hf
      rw [hnil]
    | cons first rest =>
      cases arrivals' with
      | nil => simpa using (hmem first).mp (List.mem_cons_self ..)
      | cons first' rest' =>
        rw [hcons first rest harrivals, hcons first' rest' harrivals']
        congr 1
        exact foldl_eq_of_mem_iff (joinParts I) hparts

end Arrivals

/-- The basic interpreter's merges are joins of finite height. -/
theorem basicInterpreter_lattice : Interpreter.Lattice basicInterpreter.toInterpreter where
  local_laws := BasicValue.joinLaws
  stack_laws := BasicValue.joinLaws
  local_height := BasicValue.finiteHeight
  stack_height := BasicValue.finiteHeight

/-- A merge that is a join under a top that absorbs, where nothing is raised forever. -/
structure MergeLattice {V : Type} (merge : V → V → V) (top : V) : Prop where
  laws : JoinLaws merge
  top_merge : ∀ v, merge top v = top
  merge_top : ∀ v, merge v top = top
  height : FiniteHeight (Below merge)

theorem BasicValue.mergeLattice : MergeLattice BasicValue.merge .uninitialized where
  laws := BasicValue.joinLaws
  top_merge := BasicValue.blocks.top_merge
  merge_top := BasicValue.blocks.merge_top
  height := BasicValue.finiteHeight

theorem verificationType_mergeLattice : MergeLattice FrameComputer.meet .top where
  laws := FrameComputer.joinLaws
  top_merge := FrameComputer.blocks.top_merge
  merge_top := FrameComputer.blocks.merge_top
  height := FrameComputer.finiteHeight

/-- Basic values arrive at a node in any order. -/
theorem basic_installAll_eq {w : Worklist BasicValue} {dest locals : ℕ} (h : w.Meets dest) (origin : ℕ)
    {arrivals arrivals' : List (Frame BasicValue)} (hentry : (w.frames dest).OfMethod locals)
    (harrivals : OfMethod locals arrivals) (hmem : ∀ f, f ∈ arrivals ↔ f ∈ arrivals') :
    (w.installAll basicInterpreter.toInterpreter origin (arrivals.map (Prod.mk dest))).map (·.frames dest) =
      (w.installAll basicInterpreter.toInterpreter origin (arrivals'.map (Prod.mk dest))).map (·.frames dest) := by
  have hassoc : Std.Associative basicInterpreter.mergeLocal := ⟨BasicValue.blocks.merge_assoc⟩
  have hcomm : Std.Commutative basicInterpreter.mergeLocal := ⟨BasicValue.blocks.merge_comm⟩
  have hidem : Std.IdempotentOp basicInterpreter.mergeLocal := ⟨BasicValue.merge_self⟩
  have : Std.Associative basicInterpreter.mergeStack := hassoc
  have : Std.Commutative basicInterpreter.mergeStack := hcomm
  have : Std.IdempotentOp basicInterpreter.mergeStack := hidem
  exact installAll_eq_of_mem_iff h origin hentry harrivals hmem

/-- The types of the frame computer and the basic values of the analyzer merge as joins with an absorbing
top and finite ascents, and frames merged of them do not depend on the order of predecessors, nor rise
forever. -/
theorem frame_merges_are_joins :
    (MergeLattice FrameComputer.meet .top ∧
      (∀ input arrivals arrivals', (∀ f, f ∈ arrivals ↔ f ∈ arrivals') →
        FrameComputer.arriveAll input arrivals = FrameComputer.arriveAll input arrivals') ∧
      ∀ maxLocals, WellFounded (FrameComputer.Raised maxLocals)) ∧
    (MergeLattice BasicValue.merge .uninitialized ∧
      (∀ (w : Worklist BasicValue) (dest locals origin : ℕ) (arrivals arrivals' : List (Frame BasicValue)),
        w.Meets dest → (w.frames dest).OfMethod locals → OfMethod locals arrivals →
        (∀ f, f ∈ arrivals ↔ f ∈ arrivals') →
        (w.installAll basicInterpreter.toInterpreter origin (arrivals.map (Prod.mk dest))).map (·.frames dest) =
          (w.installAll basicInterpreter.toInterpreter origin (arrivals'.map (Prod.mk dest))).map (·.frames dest)) ∧
      FiniteHeight (Frame.Le basicInterpreter.toInterpreter)) := by
  refine ⟨⟨verificationType_mergeLattice, ?_, FrameComputer.wellFounded_raised⟩, BasicValue.mergeLattice, ?_,
    basicInterpreter_lattice.finiteHeight⟩
  · intro input arrivals arrivals' hmem
    exact FrameComputer.arriveAll_eq_of_mem_iff input hmem
  · intro w dest locals origin arrivals arrivals' h hentry harrivals hmem
    exact basic_installAll_eq h origin hentry harrivals hmem

end Krusty.Jvm.BytecodePasses
