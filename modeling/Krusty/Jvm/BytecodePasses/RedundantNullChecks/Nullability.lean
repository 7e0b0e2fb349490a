import Krusty.Jvm.BytecodePasses.Analysis.BasicValues
import Krusty.Jvm.BytecodePasses.RedundantBoxing.Candidates
import Krusty.Jvm.BytecodePasses.Analysis.Cycles

/-! kotlinc's `NullabilityInterpreter`: the basic interpreter's values, except that a value known to be or not
to be `null` says so. -/
namespace Krusty.Jvm.BytecodePasses.RedundantNullChecks

open RedundantBoxing (ValueClasses isBoxing isIteratorCall)

inductive NullValue where
  /-- Whether it is `null` is not known. -/
  | basic (value : BasicValue)
  /-- Known not to be `null`, by its descriptor. -/
  | notNull (descriptor : String)
  /-- Known to be `null`. -/
  | null
  /-- The iterator of a progression, by its descriptor. -/
  | progressionIterator (descriptor : String)
  deriving DecidableEq

namespace NullValue

def descriptor : NullValue → Option String
  | basic value => value.descriptor
  | notNull descriptor | progressionIterator descriptor => some descriptor
  | null => some objectDescriptor

/-- The value as the basic interpreter sees it: a reference of its type. -/
def toBasic : NullValue → BasicValue
  | basic value => value
  | notNull descriptor | progressionIterator descriptor => .reference descriptor
  | null => .reference objectDescriptor

def isReference : NullValue → Bool
  | basic value => value.isReference
  | _ => true

def size : NullValue → ℕ
  | basic value => value.size
  | _ => 1

/-- The value of a type just made. -/
def ofMade (value : BasicValue) : NullValue := notNull (value.descriptor.getD objectDescriptor)

/-- The basic value of a descriptor, or none. -/
def plain (descriptor : String) : BasicValue := (BasicValue.ofDescriptor descriptor).getD .uninitialized

/-- The meet of a value of known nullability and a value of another kind: two references meet at their common
type even when it is the same type. -/
def mergeUnequal (v w : NullValue) : BasicValue :=
  if v = basic .uninitialized ∨ w = basic .uninitialized ∨ !v.isReference ∨ !w.isReference then .uninitialized
  else
    match v.descriptor, w.descriptor with
    | some vType, some wType =>
      if v = basic .null then plain wType
      else if w = basic .null then plain vType
      else BasicValue.mergeReferences wType vType
    | _, _ => .uninitialized

def merge (v w : NullValue) : NullValue :=
  match v, w with
  | null, null => null
  | null, _ | _, null => basic (.reference objectDescriptor)
  | progressionIterator a, progressionIterator b => if a = b then v else notNull objectDescriptor
  | notNull _, progressionIterator _ | progressionIterator _, notNull _ => notNull objectDescriptor
  | notNull a, notNull b => if a = b then v else notNull objectDescriptor
  | basic a, basic b => basic (a.merge b)
  | _, _ => basic (mergeUnequal v w)

end NullValue

/-- The instructions whose meaning comes from where they stand, by node index. -/
structure Placements where
  /-- `aconst_null`s right after a reified `typeOf` marker. -/
  typeOfPlaceholders : List ℕ
  /-- `checkcast`s right after a reified `as?` marker. -/
  reifiedSafeCasts : List ℕ
  /-- The assumptions that a value is not `null`. -/
  asNotNull : List ℕ

def isUnitInstance : Insn LabelId → Bool
  | .field op owner name _ => op == getstatic && owner == "kotlin/Unit" && name == "INSTANCE"
  | _ => false

/-- An interface call of `next` on a progression's iterator. -/
def isNextOfProgressionIterator (insn : Insn LabelId) (values : List NullValue) : Bool :=
  match values, insn with
  | .progressionIterator _ :: _, .method op _ name _ _ => op == invokeinterface && name == "next"
  | _, _ => false

section Interpreter

variable (valueClasses : ValueClasses) (placements : Placements)

def newOperation (index : ℕ) (insn : Insn LabelId) : Except AnalyzerError NullValue := do
  let value ← BasicInterpreter.newOperation index insn
  let op := opcode insn
  if op = aconstNull ∧ index ∉ placements.typeOfPlaceholders then return .null
  else if op = newOp then return .ofMade value
  else if op = ldcOp ∧ value.isReference then return .ofMade value
  else if isUnitInstance insn then return .ofMade value
  else return .basic value

def unaryOperation (index : ℕ) (insn : Insn LabelId) (value : NullValue) :
    Except AnalyzerError (Option NullValue) := do
  let result ← BasicInterpreter.unaryOperation index insn value.toBasic
  let op := opcode insn
  if op = newarray ∨ op = anewarray then return result.map .ofMade
  else if op = checkcast then
    if index ∈ placements.reifiedSafeCasts then
      return (result.bind fun cast => cast.descriptor.bind BasicValue.ofDescriptor).map .basic
    else return some value
  else return result.map .basic

def binaryOperation (index : ℕ) (insn : Insn LabelId) (first second : NullValue) :
    Except AnalyzerError (Option NullValue) := do
  let result ← BasicInterpreter.binaryOperation index insn first.toBasic second.toBasic
  return result.map .basic

def naryOperation (index : ℕ) (insn : Insn LabelId) (values : List NullValue) :
    Except AnalyzerError (Option NullValue) := do
  match ← BasicInterpreter.naryOperation index insn (values.map NullValue.toBasic) with
  | none => return none
  | some result =>
    if isBoxing valueClasses insn then return some (.ofMade result)
    else
      let iterator :=
        if isIteratorCall insn then
          (values.head?.bind NullValue.descriptor).bind RedundantBoxing.progressionIterator
        else none
      match iterator with
      | some iterator => return some (.progressionIterator iterator)
      | none =>
        if isNextOfProgressionIterator insn values then return some (.ofMade result)
        else if index ∈ placements.asNotNull then
          match values.head?.bind NullValue.descriptor with
          | some operand => return some (.notNull operand)
          | none => throw ⟨index, "a non-null assumption about a slot holding no value"⟩
        else return some (.basic result)

/-- kotlinc's `NullabilityInterpreter`. -/
def nullabilityInterpreter : Operations NullValue where
  newValue ty := (BasicInterpreter.newValue ty).map .basic
  newEmptyValue := .basic .uninitialized
  -- a parameter's type is not void
  newParameterValue _ desc := .basic ((BasicValue.ofDescriptor desc).getD .uninitialized)
  newExceptionValue cls := .basic (.ofClass cls)
  mergeLocal := .merge
  mergeStack := .merge
  size := NullValue.size
  newOperation := newOperation placements
  copyOperation _ _ value := .ok value
  unaryOperation := unaryOperation placements
  binaryOperation := binaryOperation
  ternaryOperation _ _ _ _ _ := .ok none
  naryOperation := naryOperation valueClasses placements
  returnOperation _ _ _ _ := .ok ()

end Interpreter

end Krusty.Jvm.BytecodePasses.RedundantNullChecks

/-! When the nullability analysis ends. -/
namespace Krusty.Jvm.BytecodePasses.RedundantNullChecks

open RedundantBoxing (ValueClasses)

/-- How many array dimensions a descriptor begins with. -/
def dimensions : List Char → ℕ
  | '[' :: rest => dimensions rest + 1
  | _ => 0

/-- How far a basic value other than `null` is from one that holds nothing. -/
def heightOf : BasicValue → ℕ
  | .uninitialized => 0
  | .int | .float | .long | .double => 2
  | .boolean | .char | .byte | .short => 3
  | .null => 0
  | .reference descriptor =>
    let depth := dimensions descriptor.toList
    if .reference descriptor = BasicValue.arrayOfObject depth then 2 * depth + 1 else 2 * depth + 2

/-- The rank of a value: a basic `null` takes the type of what it meets, so it is above every other. -/
def rank : NullValue → ℕ ×ₗ ℕ
  | .basic .null => toLex (1, 0)
  | .basic value => toLex (0, heightOf value)
  | .null => toLex (0, 2)
  | .notNull descriptor =>
    if descriptor = objectDescriptor then toLex (0, 2) else toLex (0, 2 * dimensions descriptor.toList + 4)
  | .progressionIterator descriptor => toLex (0, 2 * dimensions descriptor.toList + 4)

theorem commonDimensions_le (a b : List Char) :
    (BasicValue.commonDimensions a b).1 ≤ dimensions a ∧ (BasicValue.commonDimensions a b).1 ≤ dimensions b := by
  fun_induction BasicValue.commonDimensions a b with
  | case1 a b dims a' b' heq ih =>
    rw [heq] at ih
    simp only [dimensions]
    omega
  | case2 a b h =>
    exact ⟨Nat.zero_le _, Nat.zero_le _⟩

theorem dimensions_arrayOfObject (depth : ℕ) :
    ∃ descriptor, BasicValue.arrayOfObject depth = .reference descriptor ∧
      dimensions descriptor.toList = depth := by
  refine ⟨_, rfl, ?_⟩
  rw [String.toList_ofList]
  induction depth with
  | zero => rfl
  | succ depth ih =>
    rw [List.replicate_succ, List.cons_append, dimensions, ih]

theorem heightOf_arrayOfObject (depth : ℕ) : heightOf (BasicValue.arrayOfObject depth) = 2 * depth + 1 := by
  obtain ⟨descriptor, heq, hdims⟩ := dimensions_arrayOfObject depth
  rw [heq]
  simp only [heightOf, hdims, ← heq, if_true]

/-- Two reference types meet at an array of `Object` of no more dimensions than either has. -/
theorem mergeReferences_spec (a b : String) : ∃ depth, BasicValue.mergeReferences a b =
    BasicValue.arrayOfObject depth ∧ depth ≤ dimensions a.toList ∧ depth ≤ dimensions b.toList := by
  have hle := commonDimensions_le a.toList b.toList
  unfold BasicValue.mergeReferences
  generalize BasicValue.commonDimensions a.toList b.toList = common at hle ⊢
  obtain ⟨depth, restA, restB⟩ := common
  dsimp only at hle ⊢
  split_ifs with hzero hrest
  · exact ⟨0, by decide, Nat.zero_le _, Nat.zero_le _⟩
  · exact ⟨depth - 1, rfl, by omega, by omega⟩
  · exact ⟨depth, rfl, hle⟩

variable {value : BasicValue}

theorem rank_basic (h : value ≠ .null) : rank (.basic value) = toLex (0, heightOf value) := by
  cases value with
  | null => exact absurd rfl h
  | _ => rfl

theorem rank_lt {height height' : ℕ} (h : height < height') :
    (toLex (0, height) : ℕ ×ₗ ℕ) < toLex (0, height') :=
  Prod.Lex.toLex_lt_toLex.mpr (.inr ⟨rfl, h⟩)

/-- Every value of a type is below the basic `null`. -/
theorem rank_lt_null (h : value ≠ .null) : rank (.basic value) < rank (.basic .null) := by
  rw [rank_basic h]
  exact Prod.Lex.toLex_lt_toLex.mpr (.inl Nat.zero_lt_one)

theorem rank_arrayOfObject (depth : ℕ) :
    rank (.basic (BasicValue.arrayOfObject depth)) = toLex (0, 2 * depth + 1) := by
  rw [← heightOf_arrayOfObject]
  rfl

theorem arrayOfObject_zero : BasicValue.arrayOfObject 0 = .reference objectDescriptor := by decide

theorem heightOf_object : heightOf (.reference objectDescriptor) = 1 := by
  rw [← arrayOfObject_zero, heightOf_arrayOfObject]

/-- A reference is at least as high as the array of `Object` of its dimensions, and higher unless it is
that array. -/
theorem heightOf_reference (descriptor : String) :
    BasicValue.reference descriptor = BasicValue.arrayOfObject (dimensions descriptor.toList) ∧
        heightOf (.reference descriptor) = 2 * dimensions descriptor.toList + 1 ∨
      heightOf (.reference descriptor) = 2 * dimensions descriptor.toList + 2 := by
  unfold heightOf
  dsimp only
  split_ifs with h
  · exact .inl ⟨h, rfl⟩
  · exact .inr rfl

theorem plain_spec (descriptor : String) : NullValue.plain descriptor ≠ .null ∧
    heightOf (NullValue.plain descriptor) ≤ 2 * dimensions descriptor.toList + 3 := by
  unfold NullValue.plain BasicValue.ofDescriptor
  have href := heightOf_reference descriptor
  split <;> simp only [Option.getD_some, Option.getD_none, heightOf, ne_eq, reduceCtorEq, not_false_eq_true,
    true_and] at href ⊢ <;> omega

variable {descriptor : String}

/-- A reference that meets another type, or the known `null`, falls to an array of `Object`. -/
theorem reference_falls {depth : ℕ} (hle : depth ≤ dimensions descriptor.toList) :
    BasicValue.arrayOfObject depth = .reference descriptor ∨
      rank (.basic (BasicValue.arrayOfObject depth)) < rank (.basic (.reference descriptor)) := by
  rw [rank_arrayOfObject, rank_basic (by simp)]
  obtain ⟨hsame, hheight⟩ | hheight := heightOf_reference descriptor
  · by_cases heq : depth = dimensions descriptor.toList
    · left
      rw [heq, hsame]
    · right
      rw [hheight]
      exact rank_lt (by omega)
  · right
    rw [hheight]
    exact rank_lt (by omega)

theorem basic_falls_to_nothing (value : BasicValue) :
    .uninitialized = value ∨ rank (.basic .uninitialized) < rank (.basic value) := by
  cases value with
  | uninitialized => exact .inl rfl
  | null => exact .inr (rank_lt_null (by simp))
  | reference descriptor =>
    right
    apply rank_lt
    obtain ⟨-, hheight⟩ | hheight := heightOf_reference descriptor <;> rw [hheight] <;>
      simp only [heightOf] <;> omega
  | _ => exact .inr (rank_lt (by decide))

/-- The basic interpreter's meet is the value it met or one of lower rank. -/
theorem merge_basic_falls (a b : BasicValue) :
    a.merge b = a ∨ rank (.basic (a.merge b)) < rank (.basic a) := by
  unfold BasicValue.merge
  by_cases heq : a = b
  · rw [if_pos heq]
    exact .inl rfl
  by_cases hnone : a = .uninitialized ∨ b = .uninitialized
  · rw [if_neg heq, if_pos hnone]
    exact basic_falls_to_nothing a
  rw [if_neg heq, if_neg hnone]
  by_cases href : (a.isReference && b.isReference) = true
  · rw [if_pos href]
    by_cases ha : a = .null
    · rw [if_pos ha, ha]
      exact .inr (rank_lt_null fun hb => heq (ha.trans hb.symm))
    rw [if_neg ha]
    by_cases hb : b = .null
    · rw [if_pos hb]
      exact .inl rfl
    rw [if_neg hb]
    cases a with
    | reference descriptor =>
      obtain ⟨depth, hmeet, -, hle⟩ :=
        mergeReferences_spec (b.descriptor.getD objectDescriptor) descriptor
      have hfalls := reference_falls hle
      rwa [← hmeet] at hfalls
    | null => exact absurd rfl ha
    | _ => cases href
  rw [if_neg href]
  by_cases hint : (a.isIntStorable && b.isIntStorable) = true
  · rw [if_pos hint]
    cases a with
    | int => exact .inl rfl
    | boolean | char | byte | short => exact .inr (rank_lt (by decide))
    | _ => cases hint
  · rw [if_neg hint]
    exact basic_falls_to_nothing a

/-- Anything a slot holds falls to `Object`. -/
theorem object_falls (h : value ≠ .uninitialized) : BasicValue.arrayOfObject 0 = value ∨
      rank (.basic (BasicValue.arrayOfObject 0)) < rank (.basic value) := by
  cases value with
  | uninitialized => exact absurd rfl h
  | null => exact .inr (rank_lt_null (by simp [BasicValue.arrayOfObject]))
  | reference descriptor => exact reference_falls (Nat.zero_le _)
  | _ =>
    right
    rw [rank_arrayOfObject]
    exact rank_lt (by decide)

theorem plain_object : NullValue.plain objectDescriptor = .reference objectDescriptor := by decide

theorem dimensions_object : dimensions objectDescriptor.toList = 0 := by decide

/-- What a value of a known type meets when it does not stay: nothing, its own type, or an array of
`Object` of no more dimensions. -/
theorem mergeUnequal_value {v : NullValue} (a : BasicValue)
    (hv : v = .notNull descriptor ∨ v = .progressionIterator descriptor) :
    NullValue.mergeUnequal v (.basic a) = .uninitialized ∨
      NullValue.mergeUnequal v (.basic a) = NullValue.plain descriptor ∨
      ∃ depth ≤ dimensions descriptor.toList,
        NullValue.mergeUnequal v (.basic a) = BasicValue.arrayOfObject depth := by
  have hdesc : v.descriptor = some descriptor := by
    obtain rfl | rfl := hv <;> rfl
  have hnull : v ≠ .basic .null := by
    obtain rfl | rfl := hv <;> simp
  unfold NullValue.mergeUnequal
  by_cases hnone : v = .basic .uninitialized ∨ NullValue.basic a = .basic .uninitialized ∨
      (!v.isReference) = true ∨ (!(NullValue.basic a).isReference) = true
  · exact .inl (if_pos hnone)
  right
  rw [if_neg hnone, hdesc]
  cases hother : (NullValue.basic a).descriptor with
  | none =>
    cases a with
    | uninitialized => exact absurd (.inr (.inl rfl)) hnone
    | _ => cases hother
  | some other =>
    dsimp only
    rw [if_neg hnull]
    split_ifs
    · exact .inl rfl
    · obtain ⟨depth, hmeet, -, hle⟩ := mergeReferences_spec other descriptor
      exact .inr ⟨depth, hle, hmeet⟩

theorem mergeUnequal_falls {v : NullValue} (a : BasicValue)
    (hv : v = .notNull descriptor ∨ v = .progressionIterator descriptor) :
    rank (.basic (NullValue.mergeUnequal v (.basic a))) < rank v := by
  -- a type other than `Object` leaves room for every value of its own
  have hroom : ∀ value, value ≠ .null → heightOf value ≤ 2 * dimensions descriptor.toList + 3 →
      (descriptor = objectDescriptor → heightOf value ≤ 1) → rank (.basic value) < rank v := by
    intro value hvalue hle hobject
    rw [rank_basic hvalue]
    obtain rfl | rfl := hv
    · simp only [rank]
      split_ifs with hd
      · exact rank_lt (by have := hobject hd; omega)
      · exact rank_lt (by omega)
    · exact rank_lt (by omega)
  obtain hmeet | hmeet | ⟨depth, hle, hmeet⟩ := mergeUnequal_value a hv
  · rw [hmeet]
    exact hroom _ (by simp) (Nat.zero_le _) fun _ => Nat.zero_le _
  · rw [hmeet]
    apply hroom _ (plain_spec descriptor).1 (plain_spec descriptor).2
    rintro rfl
    rw [plain_object, heightOf_object]
  · rw [hmeet]
    refine hroom _ (by simp [BasicValue.arrayOfObject]) ?_ ?_
    · rw [heightOf_arrayOfObject]
      omega
    · rintro rfl
      rw [dimensions_object] at hle
      rw [heightOf_arrayOfObject]
      omega

/-- A basic value that meets one of known nullability. -/
theorem basic_meets_known {w : NullValue} (a : BasicValue)
    (hw : w = .notNull descriptor ∨ w = .progressionIterator descriptor) :
    NullValue.mergeUnequal (.basic a) w = a ∨
      rank (.basic (NullValue.mergeUnequal (.basic a) w)) < rank (.basic a) := by
  have hdesc : w.descriptor = some descriptor := by
    obtain rfl | rfl := hw <;> rfl
  have hknown : w ≠ .basic .null ∧ w ≠ .basic .uninitialized ∧ w.isReference = true := by
    obtain rfl | rfl := hw <;> simp [NullValue.isReference]
  unfold NullValue.mergeUnequal
  by_cases hnone : NullValue.basic a = .basic .uninitialized ∨ w = .basic .uninitialized ∨
      (!(NullValue.basic a).isReference) = true ∨ (!w.isReference) = true
  · rw [if_pos hnone]
    exact basic_falls_to_nothing a
  rw [if_neg hnone, hdesc]
  simp only [not_or] at hnone
  cases a with
  | uninitialized => exact absurd rfl hnone.1
  | null =>
    right
    simp only [NullValue.descriptor, BasicValue.descriptor, if_true]
    exact rank_lt_null (plain_spec descriptor).1
  | reference own =>
    simp only [NullValue.descriptor, BasicValue.descriptor, NullValue.basic.injEq, reduceCtorEq, if_false,
      hknown.1]
    obtain ⟨depth, hmeet, -, hle⟩ := mergeReferences_spec descriptor own
    rw [hmeet]
    exact reference_falls hle
  | _ => exact absurd rfl hnone.2.2.1

/-- A meet is the value it met or one of lower rank, but for a slot that holds nothing: a known `null`
gives it a type. -/
theorem merge_falls {v w : NullValue} (h : ¬ (v = .basic .uninitialized ∧ w = .null)) :
    v.merge w = v ∨ rank (v.merge w) < rank v := by
  cases v with
  | null =>
    cases w with
    | null => exact .inl rfl
    | _ =>
      right
      change rank (.basic (.reference objectDescriptor)) < rank .null
      rw [rank_basic (by simp), heightOf_object]
      exact rank_lt (by omega)
  | notNull descriptor =>
    cases w with
    | null =>
      right
      change rank (.basic (.reference objectDescriptor)) < rank (.notNull descriptor)
      rw [rank_basic (by simp), heightOf_object]
      simp only [rank]
      split_ifs <;> exact rank_lt (by omega)
    | notNull other =>
      simp only [NullValue.merge]
      split_ifs with heq
      · exact .inl rfl
      by_cases hobject : descriptor = objectDescriptor
      · exact .inl (by rw [hobject])
      right
      simp only [rank, if_true, hobject, if_false]
      exact rank_lt (by omega)
    | progressionIterator other =>
      by_cases hobject : descriptor = objectDescriptor
      · exact .inl (by rw [hobject]; rfl)
      right
      simp only [NullValue.merge, rank, if_true, hobject, if_false]
      exact rank_lt (by omega)
    | basic a => exact .inr (mergeUnequal_falls a (.inl rfl))
  | progressionIterator descriptor =>
    have hobject : rank (.notNull objectDescriptor) < rank (.progressionIterator descriptor) := by
      simp only [rank, if_true]
      exact rank_lt (by omega)
    cases w with
    | null =>
      right
      change rank (.basic (.reference objectDescriptor)) < rank (.progressionIterator descriptor)
      rw [rank_basic (by simp), heightOf_object]
      exact rank_lt (by omega)
    | notNull other => exact .inr hobject
    | progressionIterator other =>
      simp only [NullValue.merge]
      split_ifs with heq
      · exact .inl rfl
      · exact .inr hobject
    | basic a => exact .inr (mergeUnequal_falls a (.inr rfl))
  | basic a =>
    cases w with
    | null =>
      change NullValue.basic (.reference objectDescriptor) = .basic a ∨
        rank (.basic (.reference objectDescriptor)) < rank (.basic a)
      rw [← arrayOfObject_zero]
      exact (object_falls fun hnone => h ⟨by rw [hnone], rfl⟩).imp_left (congrArg _)
    | notNull descriptor =>
      exact (basic_meets_known a (.inl rfl)).imp_left (congrArg _)
    | progressionIterator descriptor =>
      exact (basic_meets_known a (.inr rfl)).imp_left (congrArg _)
    | basic b => exact (merge_basic_falls a b).imp_left (congrArg _)

section Analysis

def isInstanceOfOrNullCheck (insn : Insn LabelId) : Bool :=
  opcode insn == instanceof || opcode insn == ifnull || opcode insn == ifnonnull

/-- The nodes whose operand the pass reads, in a body without `Intrinsics` calls. -/
def readsOperand (_index : ℕ) : Node → Bool
  | .insn insn => isInstanceOfOrNullCheck insn
  | _ => false

/-- The nullability analysis ends when no step of it meets a slot that holds nothing with a known `null`. -/
theorem nullability_ends (valueClasses : ValueClasses) (placements : Placements) (method : MethodNode)
    (owner : String) (keep : ℕ → Node → Bool) (inIndexOrder : Bool)
    (h : ¬ Meeting (nullabilityInterpreter valueClasses placements).toInterpreter method
      (exactOptions inIndexOrder) (nullabilityInterpreter valueClasses placements).execute keep owner
      (.basic .uninitialized) .null) :
    ∃ fuel, (analyzeKept (nullabilityInterpreter valueClasses placements).toInterpreter
      (nullabilityInterpreter valueClasses placements).execute fuel method owner
      (exactOptions inIndexOrder) keep).isSome := by
  apply analyzeKept_ends rank
  intro mine theirs hmeeting
  have hfalls : mine.merge theirs = mine ∨ rank (mine.merge theirs) < rank mine := by
    apply merge_falls
    rintro ⟨rfl, rfl⟩
    exact h hmeeting
  exact ⟨hfalls, hfalls⟩

/-- `aconst_null; astore 0; L0: goto L0`. -/
def nullLoop : MethodNode where
  access := 8
  name := "f"
  desc := "()V"
  nodes := [.insn (.op aconstNull), .insn (.var astore 0), .label ⟨0⟩, .insn (.jump gotoOp ⟨0⟩)]
  tryCatchBlocks := []
  localVariables := []
  maxStack := 1
  maxLocals := 1
  labelCount := 1

def noPlacements : Placements := ⟨[], [], []⟩

theorem nullability_ends_nullLoop : ∃ fuel,
    (analyzeKept (nullabilityInterpreter (fun _ => none) noPlacements).toInterpreter
      (nullabilityInterpreter (fun _ => none) noPlacements).execute fuel nullLoop "A" (exactOptions true)
      readsOperand).isSome := by
  have hbegins : (firstWalk (nullabilityInterpreter (fun _ => none) noPlacements).toInterpreter nullLoop
      (exactOptions true) "A").isSome := by decide +kernel
  apply nullability_ends
  apply not_meeting (n := 20) (Option.some_get hbegins).symm
  · decide +kernel
  · decide +kernel

/-- Two handlers store an int and `null` in slot 0 and jump to `L0`, whose own code stores in slot 1 and
is guarded by both. -/
def endless : MethodNode where
  access := 8
  name := "f"
  desc := "()V"
  nodes := [.insn (.op aconstNull), .insn (.jump ifnull ⟨0⟩), .label ⟨0⟩, .insn (.op 0x03),
    .insn (.var istore 1), .label ⟨1⟩, .insn (.op aconstNull), .insn (.var astore 1), .insn (.op returnOp),
    .label ⟨2⟩, .label ⟨3⟩, .insn (.op popOp), .insn (.op 0x03), .insn (.var istore 0),
    .insn (.jump gotoOp ⟨0⟩), .label ⟨4⟩, .insn (.op popOp), .insn (.op aconstNull), .insn (.var astore 0),
    .insn (.jump gotoOp ⟨0⟩)]
  tryCatchBlocks := [⟨⟨1⟩, ⟨2⟩, ⟨3⟩, some "java/lang/Exception"⟩, ⟨⟨1⟩, ⟨2⟩, ⟨4⟩, none⟩]
  localVariables := []
  maxStack := 1
  maxLocals := 2
  labelCount := 5

theorem nullability_endless : ¬ ∃ fuel,
    (analyzeKept (nullabilityInterpreter (fun _ => none) noPlacements).toInterpreter
      (nullabilityInterpreter (fun _ => none) noPlacements).execute fuel endless "A" (exactOptions true)
      readsOperand).isSome := by
  have hbegins : (firstWalk (nullabilityInterpreter (fun _ => none) noPlacements).toInterpreter endless
      (exactOptions true) "A").isSome := by decide +kernel
  intro hends
  obtain ⟨fuel, hends⟩ := hends
  have hnone : analyzeKept (nullabilityInterpreter (fun _ => none) noPlacements).toInterpreter
      (nullabilityInterpreter (fun _ => none) noPlacements).execute fuel endless "A" (exactOptions true)
      readsOperand = none := by
    apply analyzeKept_cycle (n := 22) (m := 34) (by decide) rfl (Option.some_get hbegins).symm
    · decide +kernel
    · decide +kernel
  rw [hnone] at hends
  cases hends

end Analysis

end Krusty.Jvm.BytecodePasses.RedundantNullChecks
