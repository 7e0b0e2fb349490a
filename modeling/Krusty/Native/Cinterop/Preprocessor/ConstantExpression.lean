import Krusty.Native.Cinterop.Preprocessor.Expression

/-! C's integer constant expressions: the grammar's derivations, and the value that a parse tree has. -/
namespace Krusty.Native.Cinterop.Preprocessor

inductive UnaryOperator
  | plus | minus | complement | not

inductive BinaryOperator
  | or | and | bitOr | bitXor | bitAnd | eq | ne | lt | gt | le | ge | shl | shr | add | sub | mul | div | mod

inductive ConstantExpression
  | constant (value : Value)
  | unary (operator : UnaryOperator) (operand : ConstantExpression)
  | binary (operator : BinaryOperator) (left right : ConstantExpression)
  | conditional (condition chosen otherwise : ConstantExpression)

section Grammar

def UnaryOperator.text : UnaryOperator → String
  | plus => "+"
  | minus => "-"
  | complement => "~"
  | not => "!"

namespace BinaryOperator

def text : BinaryOperator → String
  | or => "||"
  | and => "&&"
  | bitOr => "|"
  | bitXor => "^"
  | bitAnd => "&"
  | eq => "=="
  | ne => "!="
  | lt => "<"
  | gt => ">"
  | le => "<="
  | ge => ">="
  | shl => "<<"
  | shr => ">>"
  | add => "+"
  | sub => "-"
  | mul => "*"
  | div => "/"
  | mod => "%"

/-- From logical OR, the loosest, to multiplication. -/
def level : BinaryOperator → ℕ
  | or => 1
  | and => 2
  | bitOr => 3
  | bitXor => 4
  | bitAnd => 5
  | eq | ne => 6
  | lt | gt | le | ge => 7
  | shl | shr => 8
  | add | sub => 9
  | mul | div | mod => 10

end BinaryOperator

/-- The value of a token that is a constant: a number that is read as an integer, or a character constant. -/
def Token.constant (token : Token) : Option Value :=
  match token.kind with
  | .number => integerLiteral token.text
  | .charLiteral => some ⟨(charLiteral token.text).getD 0, false⟩
  | _ => none

/-- The level of a unary expression, tighter than all binary ones. -/
abbrev unaryLevel : ℕ := 11

/-- The productions of a conditional expression (0), of the binary expressions from OR (1) to multiplication (10), and of
a unary expression (11). Binary operators associate to the left, the conditional one to the right. -/
inductive Derives : ℕ → List Token → ConstantExpression → Prop
  | constant {token value} (h : token.constant = some value) : Derives unaryLevel [token] (.constant value)
  | parentheses {left right tokens e} (hleft : left.text = "(") (h : Derives 0 tokens e) (hright : right.text = ")") :
      Derives unaryLevel (left :: (tokens ++ [right])) e
  | unary {token tokens e} (operator : UnaryOperator) (htext : token.text = operator.text)
      (h : Derives unaryLevel tokens e) : Derives unaryLevel (token :: tokens) (.unary operator e)
  | binary {token left right l r} (operator : BinaryOperator) (hleft : Derives operator.level left l)
      (htext : token.text = operator.text) (hright : Derives (operator.level + 1) right r) :
      Derives operator.level (left ++ token :: right) (.binary operator l r)
  | conditional {question colon condition chosen otherwise c t e} (hc : Derives 1 condition c)
      (hquestion : question.text = "?") (ht : Derives 0 chosen t) (hcolon : colon.text = ":")
      (he : Derives 0 otherwise e) :
      Derives 0 (condition ++ question :: (chosen ++ colon :: otherwise)) (.conditional c t e)
  | tighter {level tokens e} (h : Derives (level + 1) tokens e) : Derives level tokens e

theorem Derives.mono {k level : ℕ} {tokens : List Token} {e : ConstantExpression} (h : Derives level tokens e)
    (hle : k ≤ level) : Derives k tokens e := by
  induction hle with
  | refl => exact h
  | step _ ih => exact ih h.tighter

end Grammar

section Values

/-- Whether the type of a result is unsigned: the common type of the operands, but truth values are signed, and a shift
is of its left operand's type. -/
def BinaryOperator.unsigned (operator : BinaryOperator) (left right : Bool) : Bool :=
  match operator with
  | or | and | eq | ne | lt | gt | le | ge => false
  | shl | shr => left
  | _ => left || right

/-- Whether the type of an expression is unsigned. -/
def ConstantExpression.unsigned : ConstantExpression → Bool
  | constant value => value.unsigned
  | unary .not _ => false
  | unary _ e => e.unsigned
  | binary operator l r => operator.unsigned l.unsigned r.unsigned
  | conditional _ t e => t.unsigned || e.unsigned

/-- The number that sixty-four bits are in a type. -/
def denote (unsigned : Bool) (bits : BitVec 64) : ℤ := if unsigned then bits.toNat else bits.toInt

def truth (p : Prop) [Decidable p] : BitVec 64 := if p then 1 else 0

def UnaryOperator.value (operator : UnaryOperator) (unsigned : Bool) (a : BitVec 64) : BitVec 64 :=
  match operator with
  | plus => a
  | minus => BitVec.ofInt 64 (-denote unsigned a)
  | complement => ~~~a
  | not => truth (denote unsigned a = 0)

/-- An operator on operands of given types: the numbers they are in their common type, and the result wrapped. -/
def BinaryOperator.value (operator : BinaryOperator) (signs : Bool × Bool) (a b : BitVec 64) : Option (BitVec 64) :=
  let l := denote (signs.1 || signs.2) a
  let r := denote (signs.1 || signs.2) b
  match operator with
  | or => some (truth (l ≠ 0 ∨ r ≠ 0))
  | and => some (truth (l ≠ 0 ∧ r ≠ 0))
  | bitOr => some (a ||| b)
  | bitXor => some (a ^^^ b)
  | bitAnd => some (a &&& b)
  | eq => some (truth (l = r))
  | ne => some (truth (l ≠ r))
  | lt => some (truth (l < r))
  | gt => some (truth (r < l))
  | le => some (truth (l ≤ r))
  | ge => some (truth (r ≤ l))
  | shl => some (BitVec.ofInt 64 (denote signs.1 a * 2 ^ (b.toNat % 64)))
  | shr => some (BitVec.ofInt 64 (denote signs.1 a / 2 ^ (b.toNat % 64)))
  | add => some (BitVec.ofInt 64 (l + r))
  | sub => some (BitVec.ofInt 64 (l - r))
  | mul => some (BitVec.ofInt 64 (l * r))
  | div => if r = 0 then none else some (BitVec.ofInt 64 (l.tdiv r))
  | mod => if r = 0 then none else some (BitVec.ofInt 64 (l.tmod r))

/-- The value of an expression; there is none when a division by zero is evaluated. -/
def ConstantExpression.value : ConstantExpression → Option (BitVec 64)
  | constant value => some value.bits
  | unary operator e => e.value.map (operator.value e.unsigned)
  | binary .or l r => do
    let a ← l.value
    if a ≠ 0 then some 1 else r.value.bind (BinaryOperator.or.value (l.unsigned, r.unsigned) a)
  | binary .and l r => do
    let a ← l.value
    if a = 0 then some 0 else r.value.bind (BinaryOperator.and.value (l.unsigned, r.unsigned) a)
  | binary operator l r => do
    let a ← l.value
    let b ← r.value
    operator.value (l.unsigned, r.unsigned) a b
  | conditional c t e => do
    let a ← c.value
    if a ≠ 0 then t.value else e.value

end Values

end Krusty.Native.Cinterop.Preprocessor
