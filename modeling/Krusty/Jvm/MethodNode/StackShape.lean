import Krusty.Lib.Results
import Krusty.Jvm.Descriptors
import Krusty.Jvm.BytecodePasses.Coroutines.Markers
import Mathlib.Algebra.BigOperators.Group.List.Basic

/-! The operand stack at each instruction, by value category. -/
namespace Krusty.Jvm.StackShape

open BytecodePasses.Coroutines (isInlineMarker)

/-- Which load, store and pop opcodes move a stack value. -/
inductive Category where
  | int
  | float
  | long
  | double
  | reference
  deriving DecidableEq

def Category.words : Category → ℕ
  | .long | .double => 2
  | _ => 1

/-- The category of a field descriptor, or of a parameter or return type. -/
def Category.ofDescriptor (desc : List Char) : Category :=
  match desc.head? with
  | some 'J' => .long
  | some 'D' => .double
  | some 'F' => .float
  | some 'I' | some 'Z' | some 'B' | some 'C' | some 'S' => .int
  | _ => .reference

/-- The values on the operand stack, its top first. -/
abbrev Shape := List Category

def words (shape : Shape) : ℕ := (shape.map Category.words).sum

inductive ShapeError where
  /-- More values popped than the stack holds. -/
  | underflow (index : ℕ)
  /-- A manipulation that would split a two-word value. -/
  | splitsWideValue (index : ℕ)
  /-- Two paths reach the node with different stacks. -/
  | mismatch (index : ℕ)
  | malformedDescriptor (index : ℕ)
  /-- `jsr` and `ret`. -/
  | subroutine (index : ℕ)
  | unplacedLabel (label : LabelId)
  /-- A closing inline marker that nothing opens. -/
  | unpairedInlineMarker (index : ℕ)
  deriving DecidableEq

def methodCategories (desc : String) : Option (List Category × Option Category) := do
  let (parameters, result) ← parseMethodDescriptor desc
  return (parameters.map .ofDescriptor, if result = ['V'] then none else some (.ofDescriptor result))

section Signature

/-- What an instruction pops, its last operand last, and pushes. -/
structure Signature where
  pops : List Category
  pushes : List Category

open Category

/-- The categories of the four arithmetic types, and of the five that have loads and stores. -/
def arithmetic (base op : UInt8) : Category :=
  match (op - base) % 4 with
  | 0 => int
  | 1 => long
  | 2 => float
  | _ => double

/-- `none` is an index out of range. -/
def stored (base op : UInt8) : Option Category := [int, long, float, double, reference][(op - base).toNat]?

/-- Elements of arrays: `byte`, `char` and `short` are ints. -/
def element (base op : UInt8) : Category := (stored base op).getD int

/-- From and to what an opcode from `i2l` on converts. -/
def conversion (op : UInt8) : Category × Category :=
  [(int, long), (int, float), (int, double), (long, int), (long, float), (long, double), (float, int),
    (float, long), (float, double), (double, int), (double, long), (double, float)].getD (op - i2l).toNat (int, int)

/-- The signature of an instruction; an error is one that cannot be read, and `none` inside stands for the
manipulations, which move values by word. The outer `none` is a panic. -/
def signature {L : Type} (insn : Insn L) : Option (Except Unit (Option Signature)) :=
  let pure (pops pushes : List Category) : Option (Except Unit (Option Signature)) := some (.ok (some ⟨pops, pushes⟩))
  let intOrLong (op : UInt8) : Category := if op % 2 = 0 then int else long
  match insn with
  | .op op =>
    if op = nop then pure [] []
    else if op = aconstNull then pure [] [reference]
    else if opRange iconstM1 iconst5 op then pure [] [int]
    else if op = lconst0 ∨ op = lconst1 then pure [] [long]
    else if opRange fconst0 fconst2 op then pure [] [float]
    else if op = dconst0 ∨ op = dconst1 then pure [] [double]
    else if opRange iaload saload op then pure [reference, int] [element iaload op]
    else if opRange iastore sastore op then pure [reference, int, element iastore op] []
    else if opRange popOp swapOp op then some (.ok none)
    else if opRange iadd drem op then pure [arithmetic iadd op, arithmetic iadd op] [arithmetic iadd op]
    else if opRange ineg dneg op then pure [arithmetic ineg op] [arithmetic ineg op]
    else if opRange ishl 0x7d op then pure [intOrLong op, int] [intOrLong op]
    else if opRange 0x7e lxor op then pure [intOrLong op, intOrLong op] [intOrLong op]
    else if opRange i2l i2s op then pure [(conversion op).1] [(conversion op).2]
    else if op = lcmp then pure [long, long] [int]
    else if op = 0x95 ∨ op = 0x96 then pure [float, float] [int]
    else if op = 0x97 ∨ op = dcmpg then pure [double, double] [int]
    else if op = ireturn then pure [int] []
    else if op = 0xad then pure [long] []
    else if op = 0xae then pure [float] []
    else if op = 0xaf then pure [double] []
    else if op = areturn then pure [reference] []
    else if op = returnOp then pure [] []
    else if op = arraylength then pure [reference] [int]
    else if op = athrow ∨ op = monitorenter ∨ op = monitorexit then pure [reference] []
    else some (.error ())
  | .int op _ => if op = newarray then pure [int] [reference] else pure [] [int]
  | .var op _ =>
    if op = ret then some (.error ())
    else if op ≤ aload then
      if op < iload then none else (stored iload op).bind fun value => pure [] [value]
    else if op < istore then none
    else (stored istore op).bind fun value => pure [value] []
  | .iinc _ _ => pure [] []
  | .type op _ =>
    if op = newOp then pure [] [reference]
    else if op = instanceof then pure [reference] [int]
    else if op = anewarray then pure [int] [reference]
    else pure [reference] [reference]
  | .field op _ _ desc =>
    let value := ofDescriptor desc.toList
    if op = getstatic then pure [] [value]
    else if op = putstatic then pure [value] []
    else if op = getfield then pure [reference] [value]
    else pure [reference, value] []
  | .method op _ _ desc _ =>
    match methodCategories desc with
    | none => some (.error ())
    | some (pops, result) => pure (if op = invokestatic then pops else reference :: pops) result.toList
  | .invokeDynamic _ desc _ _ =>
    match methodCategories desc with
    | none => some (.error ())
    | some (pops, result) => pure pops result.toList
  | .jump op _ =>
    if op = gotoOp then pure [] []
    else if op = jsr then some (.error ())
    else if opRange ifIcmpeq ifAcmpne op then
      let kind := if 0xa5 ≤ op then reference else int
      pure [kind, kind] []
    else pure [if op = ifnull ∨ op = ifnonnull then reference else int] []
  | .ldc constant =>
    pure [] [match constant with
      | .int _ => int
      | .float _ => float
      | .long _ => long
      | .double _ => double
      | _ => reference]
  | .tableSwitch _ _ _ _ | .lookupSwitch _ _ _ => pure [int] []
  | .multiANewArray _ dims => pure (List.replicate dims.toNat int) [reference]

/-- The words a manipulation adds. -/
def manipulationDelta (op : UInt8) : ℤ :=
  if op = popOp then -1
  else if op = pop2Op then -2
  else if op = dupOp ∨ op = dupX1Op ∨ op = dupX2Op then 1
  else if op = dup2Op ∨ op = dup2X1Op ∨ op = dup2X2Op then 2
  else 0

/-- The words an instruction adds to the operand stack, negative when it removes more than it pushes. The
outer `none` is a panic. -/
def wordDelta {L : Type} (insn : Insn L) : Option (Option ℤ) :=
  (signature insn).map fun
    | .error () => none
    | .ok (some s) => some ((words s.pushes : ℤ) - words s.pops)
    | .ok none => some (match insn with
      | .op op => manipulationDelta op
      | _ => 0)

end Signature

/-- Whether control never continues to the next node. -/
def isTerminal {L : Type} : Insn L → Bool
  | .op op => opRange ireturn returnOp op || op == athrow
  | .jump op _ => op == gotoOp
  | .tableSwitch _ _ _ _ | .lookupSwitch _ _ _ => true
  | _ => false

section Manipulate

variable (index : ℕ)

/-- Take values off the top until `count` words are removed. -/
def takeWords : ℕ → Shape → Except ShapeError (Shape × Shape)
  | 0, shape => .ok ([], shape)
  | _ + 1, [] => .error (.underflow index)
  | count + 1, value :: shape =>
    if count + 1 < value.words then .error (.splitsWideValue index)
    else do
      let (taken, rest) ← takeWords (count + 1 - value.words) shape
      return (value :: taken, rest)

def discard (count : ℕ) (shape : Shape) : Except ShapeError Shape := do
  let (_, rest) ← takeWords index count shape
  return rest

def duplicate (count : ℕ) (shape : Shape) : Except ShapeError Shape := do
  let (top, rest) ← takeWords index count shape
  return top ++ top ++ rest

/-- Duplicate the top words below the ones under them. -/
def duplicateUnder (topWords underWords : ℕ) (shape : Shape) : Except ShapeError Shape := do
  let (top, rest) ← takeWords index topWords shape
  let (under, rest) ← takeWords index underWords rest
  return top ++ under ++ top ++ rest

def exchange (shape : Shape) : Except ShapeError Shape := do
  let (top, rest) ← takeWords index 1 shape
  let (under, rest) ← takeWords index 1 rest
  return under ++ top ++ rest

/-- `pop` to `swap`, which move values by word. -/
def manipulate (op : UInt8) : Shape → Except ShapeError Shape :=
  if op = popOp then discard index 1
  else if op = pop2Op then discard index 2
  else if op = dupOp then duplicate index 1
  else if op = dup2Op then duplicate index 2
  else if op = dupX1Op then duplicateUnder index 1 1
  else if op = dupX2Op then duplicateUnder index 1 2
  else if op = dup2X1Op then duplicateUnder index 2 1
  else if op = dup2X2Op then duplicateUnder index 2 2
  else exchange index

/-- The stack an instruction leaves, its inline marker aside; an error of `none` is a panic. -/
def transfer (insn : Insn LabelId) (shape : Shape) : Except (Option ShapeError) Shape :=
  match signature insn with
  | none => .error none
  | some (.ok (some s)) =>
    if shape.length < s.pops.length then .error (some (.underflow index))
    else .ok (s.pushes.reverse ++ shape.drop s.pops.length)
  | some (.ok none) =>
    match insn with
    | .op op => (manipulate index op shape).mapError some
    | _ => .error none
  | some (.error ()) =>
    match insn with
    | .jump op _ => .error (some (if op = jsr then .subroutine index else .malformedDescriptor index))
    | .var op _ => .error (some (if op = ret then .subroutine index else .malformedDescriptor index))
    | _ => .error (some (.malformedDescriptor index))

end Manipulate

section Brackets

/-- One side of a bracket of inline markers. -/
inductive InlineCallBracket where
  | opens
  | closes

def isBeforeInlineMarker (node : Node) : Bool :=
  isInlineMarker ["beforeInlineCall"] node || isInlineMarker ["beforeInlineCallWithReservedLocals"] node

def isAfterInlineMarker : Node → Bool := isInlineMarker ["afterInlineCall"]

def bracketSide (node : Node) : Option InlineCallBracket :=
  if isBeforeInlineMarker node then some .opens
  else if isAfterInlineMarker node then some .closes
  else none

/-- The opening marker of each closing one, by nesting; `unclosed` are the markers open so far. -/
def pairFrom (unclosed : List ℕ) (index : ℕ) : List (Option InlineCallBracket) → List (Option ℕ)
  | [] => []
  | some .opens :: sides => none :: pairFrom (index :: unclosed) (index + 1) sides
  | some .closes :: sides => unclosed.head? :: pairFrom unclosed.tail (index + 1) sides
  | none :: sides => none :: pairFrom unclosed (index + 1) sides

variable (method : MethodNode)

def opening (index : ℕ) : Option ℕ := (pairFrom [] 0 (method.nodes.map bracketSide))[index]?.join

/-- An opening marker clears the stack, and a closing one puts the stack from before its opening marker back
under what is on it. -/
def follow (index : ℕ) (shape : Shape) (beforeOpening : ℕ → Option Shape) : Except ShapeError Shape :=
  match method.nodes[index]?.bind bracketSide with
  | none => .ok shape
  | some .opens => .ok []
  | some .closes =>
    match (opening method index).bind beforeOpening with
    | some under => .ok (shape ++ under)
    | none => .error (.unpairedInlineMarker index)

end Brackets

section Shapes

variable (method : MethodNode)

/-- Where a label stands, among the labels the method has given out. -/
def placeOf (label : LabelId) : Except ShapeError ℕ :=
  if label.index < method.labelCount then
    match method.position label with
    | some index => .ok index
    | none => .error (.unplacedLabel label)
  else .error (.unplacedLabel label)

def rangeOf (block : TryCatchBlock) : Except ShapeError (ℕ × ℕ × ℕ) := do
  let start ← placeOf method block.start
  let stop ← placeOf method block.stop
  let handler ← placeOf method block.handler
  return (start, stop, handler)

/-- The shapes found so far, and the nodes whose successors are still to be entered. -/
structure Shaping where
  shapes : List (Option Shape)
  work : List ℕ

def Shaping.known (state : Shaping) (index : ℕ) : Option Shape := state.shapes[index]?.join

/-- Control comes to a node with a shape. Past the last node it leaves the body. -/
def enter (state : Shaping) (index : ℕ) (shape : Shape) : Except ShapeError Shaping :=
  if method.nodes.length ≤ index then .ok state
  else
    match state.known index with
    | some known => if known = shape then .ok state else .error (.mismatch index)
    | none => .ok ⟨state.shapes.set index (some shape), index :: state.work⟩

/-- Enter each place in turn, stopping at one that is not placed. -/
def enterAll (shape : Shape) (state : Shaping) (places : List (Except ShapeError ℕ)) : Except ShapeError Shaping :=
  places.foldlM (fun state place => do enter method state (← place) shape) state

/-- Where a node passes control to. -/
def placesOf (index : ℕ) : Node → List (Except ShapeError ℕ)
  | .insn insn => insn.jumpTargets.map (placeOf method) ++ if isTerminal insn then [] else [.ok (index + 1)]
  | _ => [.ok (index + 1)]

def handlersAt (ranges : List (ℕ × ℕ × ℕ)) (index : ℕ) : List (Except ShapeError ℕ) :=
  (ranges.filter fun range => range.1 ≤ index ∧ index < range.2.1).map fun range => .ok range.2.2

/-- The stack after a node, inline markers followed. -/
def shapeAfter (index : ℕ) (node : Node) (shape : Shape) (beforeOpening : ℕ → Option Shape) :
    Except (Option ShapeError) Shape :=
  match node with
  | .insn insn => do
    let shape ← transfer index insn shape
    (follow method index shape beforeOpening).mapError some
  | _ => .ok shape

/-- Enter the handlers and the successors of a node. -/
def visit (ranges : List (ℕ × ℕ × ℕ)) (state : Shaping) (index : ℕ) : Except (Option ShapeError) Shaping := do
  let shape := (state.known index).getD []
  let state ← (enterAll method [.reference] state (handlersAt ranges index)).mapError some
  match method.nodes[index]? with
  | none => .error none
  | some node =>
    let shape ← shapeAfter method index node shape state.known
    (enterAll method shape state (placesOf method index node)).mapError some

/-- Visit nodes until none is left; `none` when `fuel` nodes do not empty the work. -/
def shapeFrom (ranges : List (ℕ × ℕ × ℕ)) : ℕ → Shaping → Option (Except (Option ShapeError) (List (Option Shape)))
  | _, ⟨shapes, []⟩ => some (.ok shapes)
  | 0, ⟨_, _ :: _⟩ => none
  | fuel + 1, ⟨shapes, index :: work⟩ =>
    match visit method ranges ⟨shapes, work⟩ index with
    | .error e => some (.error e)
    | .ok state => shapeFrom ranges fuel state

/-- The stack before each node, or `none` for a node no path reaches. Handlers start with the caught exception
alone. Each node is visited once. -/
def stackShapes : Option (Except (Option ShapeError) (List (Option Shape))) :=
  match method.tryCatchBlocks.mapM (rangeOf method) with
  | .error e => some (.error (some e))
  | .ok ranges =>
    match enter method ⟨List.replicate method.nodes.length none, []⟩ 0 [] with
    | .error e => some (.error (some e))
    | .ok state => shapeFrom method ranges method.nodes.length state

end Shapes

section Words

variable {index : ℕ} {insn : Insn LabelId} {shape shape' : Shape}

@[simp] theorem words_nil : words [] = 0 := rfl

@[simp] theorem words_append (top rest : Shape) : words (top ++ rest) = words top + words rest := by
  simp [words]

@[simp] theorem words_reverse (shape : Shape) : words shape.reverse = words shape := by
  simp [words, List.sum_reverse]

theorem words_cons (value : Category) (rest : Shape) : words (value :: rest) = value.words + words rest := rfl

/-- The values taken have the words asked for. -/
theorem takeWords_ok {count : ℕ} {taken rest : Shape} (h : takeWords index count shape = .ok (taken, rest)) :
    shape = taken ++ rest ∧ words taken = count := by
  induction shape generalizing count taken with
  | nil =>
    cases count with
    | zero =>
      cases h
      exact ⟨rfl, rfl⟩
    | succ count => cases h
  | cons value shape ih =>
    cases count with
    | zero =>
      cases h
      exact ⟨rfl, rfl⟩
    | succ count =>
      rw [takeWords] at h
      split_ifs at h with hwide
      obtain ⟨⟨taken', rest'⟩, htaken, heq⟩ := Results.bind_ok h
      cases heq
      obtain ⟨rfl, hwords⟩ := ih htaken
      refine ⟨rfl, ?_⟩
      rw [words_cons, hwords]
      omega

theorem words_discard {count : ℕ} (h : discard index count shape = .ok shape') :
    words shape = words shape' + count := by
  obtain ⟨⟨top, rest⟩, htop, heq⟩ := Results.bind_ok h
  cases heq
  obtain ⟨rfl, hwords⟩ := takeWords_ok htop
  rw [words_append, hwords, add_comm]

theorem words_duplicate {count : ℕ} (h : duplicate index count shape = .ok shape') :
    words shape' = words shape + count := by
  obtain ⟨⟨top, rest⟩, htop, heq⟩ := Results.bind_ok h
  cases heq
  obtain ⟨rfl, hwords⟩ := takeWords_ok htop
  simp only [words_append, hwords]
  omega

theorem words_duplicateUnder {topWords underWords : ℕ}
    (h : duplicateUnder index topWords underWords shape = .ok shape') : words shape' = words shape + topWords := by
  obtain ⟨⟨top, rest⟩, htop, h⟩ := Results.bind_ok h
  obtain ⟨⟨under, rest'⟩, hunder, heq⟩ := Results.bind_ok h
  cases heq
  obtain ⟨rfl, hwords⟩ := takeWords_ok htop
  obtain ⟨rfl, hwords'⟩ := takeWords_ok hunder
  simp only [words_append, hwords, hwords']
  omega

theorem words_exchange (h : exchange index shape = .ok shape') : words shape' = words shape := by
  obtain ⟨⟨top, rest⟩, htop, h⟩ := Results.bind_ok h
  obtain ⟨⟨under, rest'⟩, hunder, heq⟩ := Results.bind_ok h
  cases heq
  obtain ⟨rfl, hwords⟩ := takeWords_ok htop
  obtain ⟨rfl, hwords'⟩ := takeWords_ok hunder
  simp only [words_append, hwords, hwords']
  omega

/-- A manipulation moves as many words as the table of word deltas says. -/
theorem words_manipulate {op : UInt8} (h : manipulate index op shape = .ok shape') :
    (words shape' : ℤ) = words shape + manipulationDelta op := by
  unfold manipulate at h
  unfold manipulationDelta
  split_ifs at h with hpop hpop2 hdup hdup2 hdupX1 hdupX2 hdup2X1 hdup2X2
  · subst hpop
    have hwords := words_discard h
    rw [if_pos rfl]
    omega
  · subst hpop2
    have hwords := words_discard h
    rw [if_neg hpop, if_pos rfl]
    omega
  · subst hdup
    rw [words_duplicate h]
    rfl
  · subst hdup2
    rw [words_duplicate h]
    rfl
  · subst hdupX1
    rw [words_duplicateUnder h]
    rfl
  · subst hdupX2
    rw [words_duplicateUnder h]
    rfl
  · subst hdup2X1
    rw [words_duplicateUnder h]
    rfl
  · subst hdup2X2
    rw [words_duplicateUnder h]
    rfl
  · simp [words_exchange h, *]

/-- The values an instruction of known signature pops have together the words it pops. -/
def PopsFit (insn : Insn LabelId) (shape : Shape) : Prop :=
  ∀ s, signature insn = some (.ok (some s)) → words (shape.take s.pops.length) = words s.pops

/-- An instruction that leaves a stack has a word delta, and the stack differs by it just when the values
popped have the words popped. -/
theorem words_transfer (h : transfer index insn shape = .ok shape') : ∃ delta,
    wordDelta insn = some (some delta) ∧ ((words shape' : ℤ) = words shape + delta ↔ PopsFit insn shape) := by
  unfold transfer at h
  cases hsignature : signature insn with
  | none =>
    rw [hsignature] at h
    cases h
  | some result =>
    rw [hsignature] at h
    cases result with
    | error e => cases insn <;> cases h
    | ok signed =>
      cases signed with
      | none =>
        cases insn with
        | op op =>
          refine ⟨manipulationDelta op, by unfold wordDelta; rw [hsignature]; rfl, iff_of_true ?_ ?_⟩
          · cases hm : manipulate index op shape with
            | error e =>
              simp only [hm] at h
              cases h
            | ok after =>
              simp only [hm] at h
              cases h
              exact words_manipulate hm
          · intro s hs
            rw [hsignature] at hs
            cases hs
        | _ => cases h
      | some s =>
        dsimp only at h
        split_ifs at h with hlength
        cases h
        refine ⟨(words s.pushes : ℤ) - words s.pops, by unfold wordDelta; rw [hsignature]; rfl, ?_⟩
        have hsplit : words shape = words (shape.take s.pops.length) + words (shape.drop s.pops.length) := by
          rw [← words_append, List.take_append_drop]
        have hfit : PopsFit insn shape ↔ words (shape.take s.pops.length) = words s.pops := by
          unfold PopsFit
          rw [hsignature]
          simp
        rw [hfit, words_append, words_reverse, hsplit]
        push_cast
        omega

end Words

end Krusty.Jvm.StackShape
