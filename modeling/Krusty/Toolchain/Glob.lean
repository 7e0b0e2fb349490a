import Krusty.Lib.Results
import Krusty.Lib.Utf16

/-! Module globs: compiling a pattern into tokens, and the backtracking search that matches them. -/
namespace Krusty.Toolchain.Globs

structure Class where
  negated : Bool
  /-- Inclusive ranges; a single character is a one-character range. -/
  ranges : List (UInt16 × UInt16)
  deriving DecidableEq

def Class.matches (c : Class) (unit : UInt16) : Bool :=
  unit ≠ 0x2f && (c.ranges.any fun r => r.1 ≤ unit && unit ≤ r.2) != c.negated

inductive Token where
  | literal (unit : UInt16)
  /-- `*`: any run of characters other than `/`. -/
  | withinSegment
  /-- `**`: any run of characters. -/
  | acrossSegments
  /-- `?`: one character other than `/`. -/
  | oneCharacter
  | cls (c : Class)
  /-- One of the alternatives. -/
  | group (alternatives : List (List Token))

structure GlobError where
  description : String
  /-- UTF-16 index of the offending character. -/
  index : Option ℕ
  pattern : String

/-- The compiler: the units from its index on, and where the first empty class closed. -/
structure Compiler where
  pattern : String
  rest : List UInt16
  index : ℕ
  emptyClass : Option ℕ

namespace Compiler

def eol : UInt16 := 0

def new (pattern : String) : Compiler :=
  { pattern, rest := Utf16.encode pattern, index := 0, emptyClass := none }

def error (c : Compiler) (description : String) (index : ℕ) : GlobError :=
  { description, index := some index, pattern := c.pattern }

def peek (c : Compiler) : UInt16 := c.rest.headD eol

/-- The compiler after some units. -/
def forward (c : Compiler) (n : ℕ) : Compiler := { c with rest := c.rest.drop n, index := c.index + n }

/-- The loop of `cls`: the ranges through the closing `]`, and the units after it with their index. -/
def classLoop (c : Compiler) : List UInt16 → ℕ → List (UInt16 × UInt16) → Option UInt16 →
    Except GlobError (List (UInt16 × UInt16) × List UInt16 × ℕ)
  | [], index, _, _ => .error (c.error "Missing ']" (index - 1))
  | unit :: rest, index, ranges, rangeStart =>
    if unit = 0x5d then .ok (ranges, rest, index + 1)
    else if unit = 0x2f then .error (c.error "Explicit 'name separator' in class" index)
    else if unit = 0x2d then
      match rangeStart with
      | none => .error (c.error "Invalid range" index)
      | some low =>
        match rest with
        | [] => .error (c.error "Missing ']" (index + 1))
        | high :: rest =>
          -- a trailing `-` is literal
          if high = eol then .error (c.error "Missing ']" (index + 1))
          else if high = 0x5d then .ok (ranges ++ [(0x2d, 0x2d)], rest, index + 2)
          else if high < low then .error (c.error "Invalid range" (index - 1))
          else classLoop c rest (index + 2) (ranges.dropLast ++ [(low, high)]) none
    else classLoop c rest (index + 1) (ranges ++ [(unit, unit)]) (some unit)

/-- What stands before the loop: whether the class is negated, the ranges it starts with, and the units
consumed. A leading `^` is a literal caret, a leading `-` a literal dash. -/
def classHead (c : Compiler) : Bool × List (UInt16 × UInt16) × ℕ :=
  if c.peek = 0x5e then (false, [(0x5e, 0x5e)], 1)
  else
    let negated : Bool := c.peek = 0x21
    let skipped := if negated then 1 else 0
    if (c.forward skipped).peek = 0x2d then (negated, [(0x2d, 0x2d)], skipped + 1)
    else (negated, [], skipped)

/-- The class after `[`, through its closing `]`. -/
def cls (c : Compiler) : Except GlobError (Class × Compiler) := do
  let (negated, start, skipped) := c.classHead
  let (ranges, rest, index) ← c.classLoop (c.rest.drop skipped) (c.index + skipped) start none
  let emptyClass := if ranges = [] ∧ c.emptyClass = none then some (index - 1) else c.emptyClass
  return ({ negated, ranges }, { c with rest, index, emptyClass })

theorem classLoop_length {c : Compiler} {l rest : List UInt16} {i index : ℕ}
    {ranges out : List (UInt16 × UInt16)} {start : Option UInt16}
    (h : c.classLoop l i ranges start = .ok (out, rest, index)) : rest.length < l.length := by
  fun_induction classLoop c l i ranges start with
  | case1 | case3 | case4 | case5 | case6 | case8 => cases h
  | case2 =>
    cases h
    simp
  | case7 =>
    cases h
    simp only [List.length_cons]
    omega
  | case9 =>
    rename_i ih
    have hlt := ih h
    simp only [List.length_cons]
    omega
  | case10 =>
    rename_i ih
    have hlt := ih h
    simp only [List.length_cons]
    omega

theorem cls_length {c c' : Compiler} {k : Class} (h : c.cls = .ok (k, c')) :
    c'.rest.length < c.rest.length := by
  unfold cls at h
  dsimp only at h
  obtain ⟨⟨ranges, rest, index⟩, hloop, hdone⟩ := Results.bind_ok h
  cases hdone
  have hlt := classLoop_length hloop
  rw [List.length_drop] at hlt
  dsimp only
  omega

end Compiler

/-- What has been compiled: the tokens so far, and the alternatives of the open group with the one being
built. -/
structure Building where
  top : List Token
  group : Option (List (List Token) × List Token)

def Building.push (b : Building) (token : Token) : Building :=
  match b.group with
  | some (alternatives, current) => { b with group := some (alternatives, current ++ [token]) }
  | none => { b with top := b.top ++ [token] }

namespace Compiler

/-- The token a unit begins, the compiler having passed the unit. -/
def token (c : Compiler) (unit : UInt16) : Except GlobError (Token × Compiler) :=
  if unit = 0x5c then
    match c.rest with
    | [] => .error (c.error "No character to escape" (c.index - 1))
    | escaped :: _ => .ok (.literal escaped, c.forward 1)
  else if unit = 0x5b then do
    let (k, c) ← c.cls
    return (.cls k, c)
  else if unit = 0x2a then
    if c.peek = 0x2a then .ok (.acrossSegments, c.forward 1) else .ok (.withinSegment, c)
  else if unit = 0x3f then .ok (.oneCharacter, c)
  else .ok (.literal unit, c)

/-- One turn of the loop of `compile`, the compiler having passed the unit. -/
def turn (c : Compiler) (b : Building) (unit : UInt16) : Except GlobError (Compiler × Building) :=
  if unit = 0x7b then
    if b.group.isSome then .error (c.error "Cannot nest groups" (c.index - 1))
    else .ok (c, { b with group := some ([], []) })
  else if unit = 0x7d then
    match b.group with
    | some (alternatives, current) =>
      .ok (c, { top := b.top ++ [.group (alternatives ++ [current])], group := none })
    | none => .ok (c, b.push (.literal unit))
  else if unit = 0x2c then
    match b.group with
    | some (alternatives, current) => .ok (c, { b with group := some (alternatives ++ [current], []) })
    | none => .ok (c, b.push (.literal unit))
  else do
    let (token, c) ← c.token unit
    return (c, b.push token)

theorem token_length {c c' : Compiler} {unit : UInt16} {token : Token}
    (h : c.token unit = .ok (token, c')) : c'.rest.length ≤ c.rest.length := by
  unfold Compiler.token at h
  split_ifs at h
  · split at h
    · cases h
    · cases h
      simp only [forward, List.length_drop]
      omega
  · obtain ⟨⟨k, c₁⟩, hcls, hdone⟩ := Results.bind_ok h
    cases hdone
    exact (cls_length hcls).le
  · cases h
    simp only [forward, List.length_drop]
    omega
  · cases h
    exact le_refl _
  · cases h
    exact le_refl _
  · cases h
    exact le_refl _

theorem turn_length {c c' : Compiler} {b b' : Building} {unit : UInt16}
    (h : c.turn b unit = .ok (c', b')) : c'.rest.length ≤ c.rest.length := by
  unfold turn at h
  split_ifs at h
  · cases h
    exact le_refl _
  · split at h <;> cases h <;> exact le_refl _
  · split at h <;> cases h <;> exact le_refl _
  · obtain ⟨⟨token, c₁⟩, htoken, hdone⟩ := Results.bind_ok h
    cases hdone
    exact token_length htoken

/-- The end of `compile`. -/
def finish (c : Compiler) (b : Building) : Except GlobError (List Token) :=
  if b.group.isSome then .error (c.error "Missing '\x7d" (c.index - 1))
  else match c.emptyClass with
    | some index => .error (c.error
        "Empty character class (krusty-toolchain refuses it; the JDK reports a regex error)" index)
    | none => .ok b.top

/-- The loop of `compile`. -/
def compileLoop (c : Compiler) (b : Building) : Except GlobError (List Token) :=
  match _hrest : c.rest with
  | [] => c.finish b
  | unit :: _ =>
    match _hturn : (c.forward 1).turn b unit with
    | .error e => .error e
    | .ok (c', b') => compileLoop c' b'
termination_by c.rest.length
decreasing_by
  have hle := turn_length _hturn
  simp only [forward, List.length_drop, _hrest, List.length_cons] at hle ⊢
  omega

end Compiler

structure Glob where
  tokens : List Token

/-- Compile a pattern, without normalizing it first. -/
def Glob.compile (pattern : String) : Except GlobError Glob := do
  let tokens ← (Compiler.new pattern).compileLoop { top := [], group := none }
  return { tokens }

/-! ## Matching -/

/-- The loop over the ends of a `*`. -/
def withinSegment (continueAt : List UInt16 → Option Bool) : List UInt16 → Option Bool
  | [] => continueAt []
  | unit :: rest => do
    if ← continueAt (unit :: rest) then return true
    if unit ≠ 0x2f then withinSegment continueAt rest else return false

/-- Match the concatenation of some frames against the text from a position on, a group's alternative as a
new frame ahead of the rest. `none` when the search goes deeper than `depth` calls. -/
def matchFrames : ℕ → List (List Token) → List UInt16 → Option Bool
  | 0, _, _ => none
  | _ + 1, [], text => some text.isEmpty
  | depth + 1, [] :: rest, text => matchFrames depth rest text
  | depth + 1, (token :: tail) :: rest, text =>
    let continueAt := fun next => matchFrames depth (tail :: rest) next
    match token with
    | .literal unit =>
      match text with
      | current :: next => if current = unit then continueAt next else some false
      | [] => some false
    | .oneCharacter =>
      match text with
      | current :: next => if current ≠ 0x2f then continueAt next else some false
      | [] => some false
    | .cls c =>
      match text with
      | current :: next => if c.matches current then continueAt next else some false
      | [] => some false
    | .withinSegment => withinSegment continueAt text
    | .acrossSegments => text.tails.anyM continueAt
    | .group alternatives =>
      alternatives.anyM fun alternative => matchFrames depth (alternative :: tail :: rest) text

/-- Whether a `/`-separated relative path matches. -/
def Glob.matches (glob : Glob) (depth : ℕ) (path : String) : Option Bool :=
  matchFrames depth [glob.tokens] (Utf16.encode path)

end Krusty.Toolchain.Globs
