import Krusty.Native.Cinterop.Preprocessor.ConstantExpression

/-! The machine's operators compute what the numbers they stand for have as values. -/
namespace Krusty.Native.Cinterop.Preprocessor

variable {unsigned : Bool} {a b : BitVec 64} {n : ℕ}

section Numbers

@[simp] theorem ofInt_denote : BitVec.ofInt 64 (denote unsigned a) = a := by
  cases unsigned with
  | false => exact BitVec.ofInt_toInt
  | true =>
    change BitVec.ofInt 64 ((a.toNat : ℕ) : ℤ) = a
    rw [BitVec.ofInt_natCast, BitVec.ofNat_toNat, BitVec.setWidth_eq]

theorem denote_inj : denote unsigned a = denote unsigned b ↔ a = b := by
  constructor
  · intro h
    have hbits := congrArg (BitVec.ofInt 64) h
    rwa [ofInt_denote, ofInt_denote] at hbits
  · intro h
    rw [h]

@[simp] theorem denote_zero : denote unsigned 0 = 0 := by cases unsigned <;> rfl

theorem denote_eq_zero : denote unsigned a = 0 ↔ a = 0 := by
  rw [← @denote_zero unsigned, denote_inj]

theorem denote_lt : denote unsigned a < denote unsigned b ↔ (if unsigned then a.ult b else a.slt b) = true := by
  cases unsigned with
  | false => exact BitVec.slt_iff_toInt_lt.symm
  | true =>
    change ((a.toNat : ℕ) : ℤ) < (b.toNat : ℕ) ↔ a.ult b = true
    rw [BitVec.ult_iff_lt, BitVec.lt_def]
    exact Int.ofNat_lt

theorem denote_le : denote unsigned a ≤ denote unsigned b ↔ (if unsigned then a.ule b else a.sle b) = true := by
  cases unsigned with
  | false => exact BitVec.sle_iff_toInt_le.symm
  | true =>
    change ((a.toNat : ℕ) : ℤ) ≤ (b.toNat : ℕ) ↔ a.ule b = true
    rw [BitVec.ule_iff_le, BitVec.le_def]
    exact Int.ofNat_le

theorem ofInt_add : BitVec.ofInt 64 (denote unsigned a + denote unsigned b) = a + b := by
  rw [BitVec.ofInt_add, ofInt_denote, ofInt_denote]

theorem ofInt_mul : BitVec.ofInt 64 (denote unsigned a * denote unsigned b) = a * b := by
  rw [BitVec.ofInt_mul, ofInt_denote, ofInt_denote]

theorem ofInt_neg : BitVec.ofInt 64 (-denote unsigned a) = -a := by
  rw [BitVec.ofInt_neg, ofInt_denote]

theorem ofInt_sub : BitVec.ofInt 64 (denote unsigned a - denote unsigned b) = a - b := by
  rw [Int.sub_eq_add_neg, BitVec.ofInt_add, ofInt_neg, ofInt_denote, BitVec.sub_eq_add_neg]

theorem ofInt_toNat (a : BitVec 64) : BitVec.ofInt 64 ((a.toNat : ℕ) : ℤ) = a := @ofInt_denote true a

theorem ofInt_tdiv : BitVec.ofInt 64 ((denote unsigned a).tdiv (denote unsigned b)) =
    if unsigned then a / b else a.sdiv b := by
  cases unsigned with
  | false =>
    apply BitVec.eq_of_toInt_eq
    change (BitVec.ofInt 64 (a.toInt.tdiv b.toInt)).toInt = (a.sdiv b).toInt
    rw [BitVec.toInt_ofInt, BitVec.toInt_sdiv]
  | true =>
    change BitVec.ofInt 64 ((a.toNat / b.toNat : ℕ) : ℤ) = a / b
    rw [← BitVec.toNat_udiv, ofInt_toNat]

theorem ofInt_tmod : BitVec.ofInt 64 ((denote unsigned a).tmod (denote unsigned b)) =
    if unsigned then a % b else a.srem b := by
  cases unsigned with
  | false =>
    change BitVec.ofInt 64 (a.toInt.tmod b.toInt) = a.srem b
    rw [← BitVec.toInt_srem, BitVec.ofInt_toInt]
  | true =>
    change BitVec.ofInt 64 ((a.toNat % b.toNat : ℕ) : ℤ) = a % b
    rw [← BitVec.toNat_umod, ofInt_toNat]

theorem ofInt_shiftLeft : BitVec.ofInt 64 (denote unsigned a * 2 ^ n) = a <<< n := by
  have hpow : BitVec.ofInt 64 (2 ^ n) = BitVec.twoPow 64 n := by
    have hcast : (2 : ℤ) ^ n = ((2 ^ n : ℕ) : ℤ) := by push_cast; rfl
    apply BitVec.eq_of_toNat_eq
    rw [hcast, BitVec.ofInt_natCast, BitVec.toNat_ofNat, BitVec.toNat_twoPow]
  rw [BitVec.ofInt_mul, ofInt_denote, hpow, BitVec.shiftLeft_eq_mul_twoPow]

theorem ofInt_shiftRight : BitVec.ofInt 64 (denote unsigned a / 2 ^ n) =
    if unsigned then a >>> n else a.sshiftRight n := by
  have hcast : (2 : ℤ) ^ n = ((2 ^ n : ℕ) : ℤ) := by push_cast; rfl
  rw [hcast]
  cases unsigned with
  | false =>
    change BitVec.ofInt 64 (a.toInt / ((2 ^ n : ℕ) : ℤ)) = a.sshiftRight n
    rw [← Int.shiftRight_eq_div_pow, ← BitVec.toInt_sshiftRight, BitVec.ofInt_toInt]
  | true =>
    change BitVec.ofInt 64 ((a.toNat / 2 ^ n : ℕ) : ℤ) = a >>> n
    rw [← Nat.shiftRight_eq_div_pow, ← BitVec.toNat_ushiftRight, ofInt_toNat]

theorem shiftCount_eq : shiftCount a = a.toNat % 64 := by
  rw [shiftCount, BitVec.toNat_setWidth, Nat.mod_mod_of_dvd _ (by decide)]

end Numbers

section Application

variable {evaluate : Bool} {directive : Token} {rest : List Token} {left right : Value} {l r : ConstantExpression}

abbrev divisionByZero : String := "division by zero in preprocessor expression"

theorem apply_unevaluated (operator : BinaryOperator) : apply directive operator.text left right false rest =
    .ok ⟨0, operator.unsigned left.unsigned right.unsigned⟩ := by
  cases operator <;> rfl

theorem apply_evaluated (operator : BinaryOperator) : apply directive operator.text left right true rest =
    (operator.value (left.unsigned, right.unsigned) left.bits right.bits).elim
      (.error (error directive rest divisionByZero))
      fun bits => .ok ⟨bits, operator.unsigned left.unsigned right.unsigned⟩ := by
  have htruth (p : Prop) [Decidable p] (b : Bool) (h : p ↔ b = true) : truth p = if b then 1 else 0 := if_congr h rfl rfl
  cases operator with
  | or =>
    simp only [BinaryOperator.value]
    rw [htruth _ (left.bits != 0 || right.bits != 0) (by simp [denote_eq_zero])]
    rfl
  | and =>
    simp only [BinaryOperator.value]
    rw [htruth _ (left.bits != 0 && right.bits != 0) (by simp [denote_eq_zero])]
    rfl
  | eq =>
    simp only [BinaryOperator.value]
    rw [htruth _ (left.bits == right.bits) (by simp [denote_inj])]
    rfl
  | ne =>
    simp only [BinaryOperator.value]
    rw [htruth _ (left.bits != right.bits) (by simp [denote_inj])]
    rfl
  | lt | gt =>
    simp only [BinaryOperator.value]
    rw [htruth _ _ denote_lt]
    rfl
  | le | ge =>
    simp only [BinaryOperator.value]
    rw [htruth _ _ denote_le]
    rfl
  | shl =>
    simp only [BinaryOperator.value]
    rw [ofInt_shiftLeft, ← shiftCount_eq]
    rfl
  | shr =>
    simp only [BinaryOperator.value]
    rw [ofInt_shiftRight, ← shiftCount_eq]
    rfl
  | add =>
    simp only [BinaryOperator.value]
    rw [ofInt_add]
    rfl
  | sub =>
    simp only [BinaryOperator.value]
    rw [ofInt_sub]
    rfl
  | mul =>
    simp only [BinaryOperator.value]
    rw [ofInt_mul]
    rfl
  | div =>
    simp only [BinaryOperator.value]
    rw [ofInt_tdiv, if_congr denote_eq_zero rfl rfl]
    change (if right.bits = 0 then _ else _) = _
    by_cases hzero : right.bits = 0
    · rw [if_pos hzero, if_pos hzero]
      rfl
    · rw [if_neg hzero, if_neg hzero]
      rfl
  | mod =>
    simp only [BinaryOperator.value]
    rw [ofInt_tmod, if_congr denote_eq_zero rfl rfl]
    change (if right.bits = 0 then _ else _) = _
    by_cases hzero : right.bits = 0
    · rw [if_pos hzero, if_pos hzero]
      rfl
    · rw [if_neg hzero, if_neg hzero]
      rfl
  | bitOr | bitXor | bitAnd => rfl

/-- A value of the type of an expression, and where it was evaluated, of its value. -/
structure Agrees (evaluate : Bool) (e : ConstantExpression) (value : Value) : Prop where
  unsigned : value.unsigned = e.unsigned
  bits : evaluate = true → e.value = some value.bits

/-- A result for an expression: it goes on with a value that agrees, or it was evaluated and divides by zero. -/
def Outcome {α : Type} (evaluate : Bool) (e : ConstantExpression) (k : Value → Except PreprocessError α)
    (result : Except PreprocessError α) : Prop :=
  (∃ value, Agrees evaluate e value ∧ result = k value) ∨
    evaluate = true ∧ e.value = none ∧ ∃ failure, result = .error failure ∧ failure.message = divisionByZero

variable {operator : BinaryOperator}

/-- Whether or not the right operand is evaluated, an operator's value is that of its operands' bits. -/
theorem value_binary (hl : l.value = some left.bits)
    (hr : evaluatesRight operator.text left = true → r.value = some right.bits) :
    (ConstantExpression.binary operator l r).value =
      operator.value (l.unsigned, r.unsigned) left.bits right.bits := by
  cases operator with
  | or =>
    change l.value.bind (fun a => if a ≠ 0 then some 1 else r.value.bind _) = _
    rw [hl, Option.bind_some]
    by_cases hzero : left.bits = 0
    · rw [if_neg (not_not_intro hzero), hr (by simpa [evaluatesRight, BinaryOperator.text] using hzero)]
      rfl
    · rw [if_pos hzero]
      have htrue : denote (l.unsigned || r.unsigned) left.bits ≠ 0 ∨ denote (l.unsigned || r.unsigned) right.bits ≠ 0 :=
        .inl (mt denote_eq_zero.mp hzero)
      exact congrArg some (if_pos htrue).symm
  | and =>
    change l.value.bind (fun a => if a = 0 then some 0 else r.value.bind _) = _
    rw [hl, Option.bind_some]
    by_cases hzero : left.bits = 0
    · rw [if_pos hzero]
      have hfalse : ¬(denote (l.unsigned || r.unsigned) left.bits ≠ 0 ∧
          denote (l.unsigned || r.unsigned) right.bits ≠ 0) := fun h => h.1 (denote_eq_zero.mpr hzero)
      exact congrArg some (if_neg hfalse).symm
    · rw [if_neg hzero, hr (by simpa [evaluatesRight, BinaryOperator.text] using hzero)]
      rfl
  | _ =>
    have hright := hr rfl
    change l.value.bind (fun a => r.value.bind _) = _
    rw [hl, hright]
    rfl

theorem value_binary_left (hl : l.value = none) : (ConstantExpression.binary operator l r).value = none := by
  cases operator <;> simp [ConstantExpression.value, hl]

theorem value_binary_right (hl : l.value = some left.bits)
    (heval : evaluatesRight operator.text left = true) (hr : r.value = none) :
    (ConstantExpression.binary operator l r).value = none := by
  cases operator with
  | or =>
    have hzero : left.bits = 0 := by simpa [evaluatesRight, BinaryOperator.text] using heval
    simp [ConstantExpression.value, hl, hr, hzero]
  | and =>
    have hzero : left.bits ≠ 0 := by simpa [evaluatesRight, BinaryOperator.text] using heval
    simpa [ConstantExpression.value, hl, hr] using hzero
  | _ => simp [ConstantExpression.value, hl, hr]

section Outcome

variable {α β : Type} {e e' : ConstantExpression} {evaluate' : Bool} {k : Value → Except PreprocessError α}
  {k' : Value → Except PreprocessError β} {result : Except PreprocessError α}

/-- What follows an operand decides the whole, unless the operand's own division by zero does. -/
theorem Outcome.bind {f : α → Except PreprocessError β} (h : Outcome evaluate e k result)
    (hnone : evaluate = true → e.value = none → evaluate' = true ∧ e'.value = none)
    (hsome : ∀ value, Agrees evaluate e value → Outcome evaluate' e' k' (k value >>= f)) :
    Outcome evaluate' e' k' (result >>= f) := by
  rcases h with ⟨value, hagrees, rfl⟩ | ⟨heval, hvalue, failure, rfl, hmessage⟩
  · exact hsome value hagrees
  · have hfails := hnone heval hvalue
    exact .inr ⟨hfails.1, hfails.2, failure, rfl, hmessage⟩

theorem Outcome.trans {k' : Value → Except PreprocessError α} (h : Outcome evaluate e k result)
    (hnone : evaluate = true → e.value = none → evaluate' = true ∧ e'.value = none)
    (hsome : ∀ value, Agrees evaluate e value → Outcome evaluate' e' k' (k value)) : Outcome evaluate' e' k' result := by
  rcases h with ⟨value, hagrees, rfl⟩ | ⟨heval, hvalue, hfailure⟩
  · exact hsome value hagrees
  · have hfails := hnone heval hvalue
    exact .inr ⟨hfails.1, hfails.2, hfailure⟩

end Outcome

theorem apply_outcome (operator : BinaryOperator) (hl : Agrees evaluate l left)
    (hr : Agrees (evaluate && evaluatesRight operator.text left) r right) :
    Outcome evaluate (.binary operator l r) .ok (apply directive operator.text left right evaluate rest) := by
  cases evaluate with
  | false =>
    refine .inl ⟨_, ⟨?_, fun h => by cases h⟩, apply_unevaluated operator⟩
    rw [hl.unsigned, hr.unsigned]
    rfl
  | true =>
    have hvalue := value_binary (hl.bits rfl) hr.bits
    rw [apply_evaluated, hl.unsigned, hr.unsigned, ← hvalue]
    cases hbits : (ConstantExpression.binary operator l r).value with
    | none => exact .inr ⟨rfl, hbits, _, rfl, rfl⟩
    | some bits => exact .inl ⟨_, ⟨rfl, fun _ => hbits⟩, rfl⟩

/-- A unary operator on a value. -/
def UnaryOperator.result (operator : UnaryOperator) (value : Value) : Value :=
  match operator with
  | plus => value
  | minus => { value with bits := -value.bits }
  | complement => { value with bits := ~~~value.bits }
  | not => ⟨if value.bits = 0 then 1 else 0, false⟩

theorem Agrees.unary (operator : UnaryOperator) (h : Agrees evaluate l left) :
    Agrees evaluate (.unary operator l) (operator.result left) := by
  constructor
  · cases operator with
    | not => rfl
    | _ => exact h.unsigned
  · intro heval
    have hvalue : (ConstantExpression.unary operator l).value = some (operator.value l.unsigned left.bits) := by
      rw [ConstantExpression.value, h.bits heval]
      rfl
    rw [hvalue]
    cases operator with
    | plus | complement => rfl
    | minus => exact congrArg some ofInt_neg
    | not => exact congrArg some (if_congr denote_eq_zero rfl rfl)

theorem value_conditional {c t e : ConstantExpression} (hc : c.value = some a) :
    (ConstantExpression.conditional c t e).value = if a ≠ 0 then t.value else e.value := by
  rw [ConstantExpression.value, hc]
  rfl

theorem Agrees.conditional {condition chosen otherwise : Value} {c t e : ConstantExpression} (hc : Agrees evaluate c condition)
    (ht : Agrees (evaluate && condition.bits != 0) t chosen) (he : Agrees (evaluate && condition.bits == 0) e otherwise) :
    Agrees evaluate (.conditional c t e)
      ⟨if !evaluate then 0 else if condition.bits != 0 then chosen.bits else otherwise.bits,
        chosen.unsigned || otherwise.unsigned⟩ := by
  constructor
  · rw [ht.unsigned, he.unsigned]
    rfl
  · intro heval
    rw [value_conditional (hc.bits heval)]
    by_cases hzero : condition.bits = 0
    · rw [if_neg (not_not_intro hzero), he.bits (by simp [heval, hzero])]
      simp [heval, hzero]
    · have hne : (condition.bits != 0) = true := bne_iff_ne.mpr hzero
      rw [if_pos hzero, ht.bits (by rw [heval, hne]; rfl), heval, hne]
      rfl

end Application

end Krusty.Native.Cinterop.Preprocessor
