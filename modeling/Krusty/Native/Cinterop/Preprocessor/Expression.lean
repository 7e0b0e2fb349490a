import Mathlib.Data.List.DropRight
import Mathlib.Algebra.Order.Ring.Nat

/-! `#if` expressions, parsed and evaluated in one go by precedence climbing. -/
namespace Krusty.Native.Cinterop.Preprocessor

inductive Kind
  | identifier | number | charLiteral | stringLiteral | punctuator | other | fileEnd
  deriving DecidableEq

structure Location where
  file : String
  line : ℕ
  deriving DecidableEq

def punctuators : List String :=
  ["%:%:", "...", "<<=", ">>=", "->", "++", "--", "<<", ">>", "<=", ">=", "==", "!=", "&&", "||",
    "*=", "/=", "%=", "+=", "-=", "&=", "^=", "|=", "##", "<:", ":>", "<%", "%>", "%:", "[", "]",
    "(", ")", "\x7b", "\x7d", ".", "&", "*", "+", "-", "~", "!", "/", "%", "<", ">", "^", "|", "?", ":",
    ";", "=", ",", "#"]

structure Token where
  kind : Kind
  text : String
  location : Location
  /-- The lexer spells nothing else like a punctuator. -/
  spelled : text ∈ punctuators → kind = .punctuator

def Token.is (token : Token) (text : String) : Bool :=
  token.text == text && (token.kind == .punctuator || token.kind == .identifier)

structure PreprocessError where
  file : String
  line : ℕ
  message : String
  deriving DecidableEq

def errorAt (token : Token) (message : String) : PreprocessError :=
  ⟨token.location.file, token.location.line, message⟩

structure Value where
  bits : BitVec 64
  unsigned : Bool
  deriving DecidableEq

section Literals

/-- `char::to_digit` -/
def toDigit (radix : ℕ) (c : Char) : Option ℕ :=
  let digit :=
    if c.isDigit then c.toNat - '0'.toNat
    else if c.isAlpha then c.toLower.toNat - 'a'.toNat + 10
    else radix
  if digit < radix then some digit else none

/-- `u64::from_str_radix` -/
def fromStrRadix (radix : ℕ) (text : List Char) : Option (BitVec 64) := do
  let digits := if text.head? = some '+' then text.tail else text
  if digits = [] then none
  else
    let value ← digits.foldlM (fun value c => (toDigit radix c).map (value * radix + ·)) 0
    if value < 2 ^ 64 then some (BitVec.ofNat 64 value) else none

def isSuffix (c : Char) : Bool := c == 'u' || c == 'l' || c == 'z'

/-- An integer constant's value, and whether its type is unsigned. -/
def integerLiteral (text : String) : Option Value := do
  let lower := (text.toList.filter (· ≠ '\'')).map Char.toLower
  let digits := lower.rdropWhile isSuffix
  -- the split leaves only suffix letters here, so the source's check of them never fails
  let suffix := lower.rtakeWhile isSuffix
  let (radix, body) :=
    if ['0', 'x'] <+: digits then (16, digits.drop 2)
    else if ['0', 'b'] <+: digits then (2, digits.drop 2)
    else if 1 < digits.length ∧ digits.head? = some '0' then (8, digits.drop 1)
    else (10, digits)
  if body = [] then
    if digits = ['0'] then some ⟨0, suffix.contains 'u'⟩ else none
  else
    let value ← fromStrRadix radix body
    some ⟨value, suffix.contains 'u' || decide (2 ^ 63 - 1 < value.toNat)⟩

/-- A character constant's value, for the escapes headers use. The quotes are the token's first and its last. -/
def charLiteral (text : String) : Option (BitVec 64) :=
  match (text.toList.dropWhile (· ≠ '\'')).tail.dropLast with
  | [] => none
  | '\\' :: escape =>
    match escape with
    | [] => none
    | 'n' :: _ => some 10
    | 't' :: _ => some 9
    | 'r' :: _ => some 13
    | 'x' :: digits => fromStrRadix 16 digits
    | 'a' :: _ => some 7
    | 'b' :: _ => some 8
    | 'f' :: _ => some 12
    | 'v' :: _ => some 11
    | 'e' :: _ => some 27
    | c :: digits => if '0' ≤ c ∧ c ≤ '7' then fromStrRadix 8 (c :: digits) else some (BitVec.ofNat 64 c.toNat)
  | c :: _ => some (BitVec.ofNat 64 c.toNat)

example : integerLiteral "0x7fUL" = some ⟨127, true⟩ := by decide +kernel

end Literals

def precedence (operator : String) : Option ℕ :=
  match operator with
  | "," => some 0
  | "||" => some 1
  | "&&" => some 2
  | "|" => some 3
  | "^" => some 4
  | "&" => some 5
  | "==" | "!=" => some 6
  | "<" | ">" | "<=" | ">=" => some 7
  | "<<" | ">>" => some 8
  | "+" | "-" => some 9
  | "*" | "/" | "%" => some 10
  | _ => none

section Parsing

/-- A value read, and the tokens after it, fewer than a bound. -/
structure Parsed (bound : ℕ) where
  value : Value
  rest : List Token
  shorter : rest.length < bound

def Parsed.map {bound : ℕ} (f : Value → Value) (parsed : Parsed bound) : Parsed (bound + 1) :=
  ⟨f parsed.value, parsed.rest, Nat.lt_succ_of_lt parsed.shorter⟩

variable (directive : Token)

/-- Errors name the next token, and past the last one the directive. -/
def error (tokens : List Token) (message : String) : PreprocessError :=
  errorAt (tokens.head?.getD directive) message

/-- What is left after a given token. -/
def eat (text : String) : (tokens : List Token) → Option { rest : List Token // rest.length < tokens.length }
  | [] => none
  | token :: rest => if token.is text then some ⟨rest, Nat.lt_succ_self _⟩ else none

/-- `wrapping_shl` and `wrapping_shr` take a `u32`, of which they use six bits. -/
def shiftCount (r : BitVec 64) : ℕ := (r.setWidth 32).toNat % 64

/-- An operator applied to two values. An operand that is not evaluated has a type all the same. -/
def apply (operator : String) (left right : Value) (evaluate : Bool) (rest : List Token) : Except PreprocessError Value :=
  let unsigned := left.unsigned || right.unsigned
  let l := left.bits
  let r := right.bits
  let boolean (value : Bool) : Value := ⟨if value then 1 else 0, false⟩
  let arithmetic (bits : BitVec 64) : Value := ⟨bits, unsigned⟩
  if !evaluate then
    match operator with
    | "<" | ">" | "<=" | ">=" | "==" | "!=" | "&&" | "||" => .ok (boolean false)
    | "<<" | ">>" => .ok ⟨0, left.unsigned⟩
    | "," => .ok right
    | "*" | "/" | "%" | "+" | "-" | "&" | "^" | "|" => .ok (arithmetic 0)
    | _ => .error (error directive rest s!"unexpected operator '{operator}'")
  else
    match operator with
    | "*" => .ok (arithmetic (l * r))
    | "/" =>
      if r = 0 then .error (error directive rest "division by zero in preprocessor expression")
      else .ok (arithmetic (if unsigned then l / r else l.sdiv r))
    | "%" =>
      if r = 0 then .error (error directive rest "division by zero in preprocessor expression")
      else .ok (arithmetic (if unsigned then l % r else l.srem r))
    | "+" => .ok (arithmetic (l + r))
    | "-" => .ok (arithmetic (l - r))
    | "<<" => .ok ⟨l <<< shiftCount r, left.unsigned⟩
    | ">>" => .ok ⟨if left.unsigned then l >>> shiftCount r else l.sshiftRight (shiftCount r), left.unsigned⟩
    | "<" => .ok (boolean (if unsigned then l.ult r else l.slt r))
    | ">" => .ok (boolean (if unsigned then r.ult l else r.slt l))
    | "<=" => .ok (boolean (if unsigned then l.ule r else l.sle r))
    | ">=" => .ok (boolean (if unsigned then r.ule l else r.sle l))
    | "==" => .ok (boolean (l == r))
    | "!=" => .ok (boolean (l != r))
    | "&" => .ok (arithmetic (l &&& r))
    | "^" => .ok (arithmetic (l ^^^ r))
    | "|" => .ok (arithmetic (l ||| r))
    | "&&" => .ok (boolean (l != 0 && r != 0))
    | "||" => .ok (boolean (l != 0 || r != 0))
    | "," => .ok right
    | _ => .error (error directive rest s!"unexpected operator '{operator}'")

/-- Whether C evaluates the right operand when it evaluates the operator. -/
def evaluatesRight (operator : String) (left : Value) : Bool :=
  match operator with
  | "&&" => left.bits != 0
  | "||" => left.bits == 0
  | _ => true

mutual

/-- A conditional expression. Only the branch that C selects is evaluated. -/
def conditional (evaluate : Bool) (tokens : List Token) : Except PreprocessError (Parsed tokens.length) := do
  let condition ← binary 0 evaluate tokens
  match eat "?" condition.rest with
  | none => return condition
  | some branches =>
    have hbranches : branches.1.length < tokens.length := branches.2.trans condition.shorter
    let chosen ← conditional (evaluate && condition.value.bits != 0) branches.1
    match eat ":" chosen.rest with
    | none => throw (error directive chosen.rest "expected ':' in conditional expression")
    | some alternative =>
      have halternative : alternative.1.length < tokens.length := alternative.2.trans (chosen.shorter.trans hbranches)
      let otherwise ← conditional (evaluate && condition.value.bits == 0) alternative.1
      let unsigned := chosen.value.unsigned || otherwise.value.unsigned
      let bits :=
        if !evaluate then 0 else if condition.value.bits != 0 then chosen.value.bits else otherwise.value.bits
      return ⟨⟨bits, unsigned⟩, otherwise.rest, otherwise.shorter.trans halternative⟩
termination_by (tokens.length, 2)
decreasing_by
  · exact Prod.Lex.right _ (by omega)
  · exact Prod.Lex.left _ _ hbranches
  · exact Prod.Lex.left _ _ halternative

def binary (minPrecedence : ℕ) (evaluate : Bool) (tokens : List Token) :
    Except PreprocessError (Parsed tokens.length) := do
  let left ← unary evaluate tokens
  let done ← loop minPrecedence evaluate left.value left.rest
  return ⟨done.value, done.rest, Nat.lt_of_lt_of_le done.shorter left.shorter⟩
termination_by (tokens.length, 1)
decreasing_by
  · exact Prod.Lex.right _ (by omega)
  · exact Prod.Lex.left _ _ left.shorter

/-- The loop of `binary`, from a left operand on. -/
def loop (minPrecedence : ℕ) (evaluate : Bool) (left : Value) (tokens : List Token) :
    Except PreprocessError (Parsed (tokens.length + 1)) :=
  match tokens with
  | [] => return ⟨left, [], Nat.zero_lt_one⟩
  | operator :: rest =>
    match precedence operator.text with
    | none => return ⟨left, operator :: rest, Nat.lt_succ_self _⟩
    | some p =>
      if p < minPrecedence then return ⟨left, operator :: rest, Nat.lt_succ_self _⟩
      else do
        let right ← binary (p + 1) (evaluate && evaluatesRight operator.text left) rest
        let combined ← apply directive operator.text left right.value evaluate right.rest
        let done ← loop minPrecedence evaluate combined right.rest
        return ⟨done.value, done.rest, Nat.lt_succ_of_lt (Nat.lt_of_lt_of_le done.shorter right.shorter) |>.trans
          (Nat.lt_succ_self _)⟩
termination_by (tokens.length, 0)
decreasing_by
  · exact Prod.Lex.left _ _ (Nat.lt_succ_self _)
  · exact Prod.Lex.left _ _ (Nat.lt_succ_of_lt right.shorter)

def unary (evaluate : Bool) (tokens : List Token) : Except PreprocessError (Parsed tokens.length) :=
  match tokens with
  | [] => throw (error directive [] "expected value in expression")
  | token :: rest =>
    if token.text = "(" then do
      let inner ← conditional evaluate rest
      match eat ")" inner.rest with
      | none => throw (error directive inner.rest "expected ')' in preprocessor expression")
      | some after => return ⟨inner.value, after.1, Nat.lt_succ_of_lt (after.2.trans inner.shorter)⟩
    else if token.text = "+" then return (← unary evaluate rest).map id
    else if token.text = "-" then return (← unary evaluate rest).map fun value => { value with bits := -value.bits }
    else if token.text = "~" then return (← unary evaluate rest).map fun value => { value with bits := ~~~value.bits }
    else if token.text = "!" then
      return (← unary evaluate rest).map fun value => ⟨if value.bits = 0 then 1 else 0, false⟩
    else if token.kind = .number then
      match integerLiteral token.text with
      | some value => return ⟨value, rest, Nat.lt_succ_self _⟩
      | none => throw (errorAt token s!"invalid integer '{token.text}'")
    else if token.kind = .charLiteral then
      return ⟨⟨(charLiteral token.text).getD 0, false⟩, rest, Nat.lt_succ_self _⟩
    else throw (errorAt token s!"invalid token '{token.text}' in preprocessor expression")
termination_by (tokens.length, 0)
decreasing_by
  all_goals exact Prod.Lex.left _ _ (Nat.lt_succ_self _)

end

/-- The value of a whole line, as `condition` asks for it. -/
def evaluate (tokens : List Token) : Except PreprocessError Value := do
  let parsed ← conditional directive true tokens
  match parsed.rest with
  | [] => return parsed.value
  | token :: _ =>
    throw (errorAt token "token is not a valid binary operator in a preprocessor subexpression")

end Parsing

end Krusty.Native.Cinterop.Preprocessor
