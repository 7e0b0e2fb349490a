import Krusty.Native.Cinterop.Preprocessor.Operators

/-! The precedence-climbing evaluator gives an expression of C the value that its parse tree has, and rejects all else. -/
namespace Krusty.Native.Cinterop.Preprocessor

variable {directive : Token} {evaluate : Bool} {tokens rest : List Token} {value left : Value} {m p : ℕ}

variable {token : Token}

section Equations

/-- The value read and the tokens after it, without their bound. -/
def out {bound : ℕ} (result : Except PreprocessError (Parsed bound)) : Except PreprocessError (Value × List Token) :=
  result.map fun parsed => (parsed.value, parsed.rest)

theorem out_shorter {bound : ℕ} {result : Except PreprocessError (Parsed bound)} (h : out result = .ok (value, rest)) :
    rest.length < bound := by
  cases result with
  | error failure => cases h
  | ok parsed =>
    cases h
    exact parsed.shorter

theorem binary_eq : out (binary directive m evaluate tokens) =
    (out (unary directive evaluate tokens) >>= fun left => out (loop directive m evaluate left.1 left.2)) := by
  rw [binary]
  cases unary directive evaluate tokens with
  | error failure => rfl
  | ok left =>
    change out (loop directive m evaluate left.value left.rest >>= _) = out (loop directive m evaluate left.value left.rest)
    cases loop directive m evaluate left.value left.rest <;> rfl

/-- The tokens do not go on with an operator of a given precedence or a tighter one. -/
def Below (m : ℕ) (tokens : List Token) : Prop :=
  ∀ token ∈ tokens.head?, ∀ p, precedence token.text = some p → p < m

theorem Below.mono {n : ℕ} (h : Below m tokens) (hle : m ≤ n) : Below n tokens :=
  fun token htoken p hp => (h token htoken p hp).trans_le hle

theorem loop_stop (h : Below m tokens) : out (loop directive m evaluate left tokens) = .ok (left, tokens) := by
  rw [loop.eq_def]
  cases tokens with
  | nil => rfl
  | cons operator rest =>
    cases hp : precedence operator.text with
    | none => simp [hp, out]; rfl
    | some p => simp [hp, h operator rfl p hp, out]; rfl

theorem loop_step {operator : Token} (hp : precedence operator.text = some p) (hle : m ≤ p) :
    out (loop directive m evaluate left (operator :: rest)) =
      (out (binary directive (p + 1) (evaluate && evaluatesRight operator.text left) rest) >>= fun right =>
        apply directive operator.text left right.1 evaluate right.2 >>= fun combined =>
          out (loop directive m evaluate combined right.2)) := by
  rw [loop.eq_def]
  simp only [hp, Nat.not_lt.mpr hle, if_false]
  cases binary directive (p + 1) (evaluate && evaluatesRight operator.text left) rest with
  | error failure => rfl
  | ok right =>
    change out (apply directive operator.text left right.value evaluate right.rest >>= _) =
      (apply directive operator.text left right.value evaluate right.rest >>= _)
    cases apply directive operator.text left right.value evaluate right.rest with
    | error failure => rfl
    | ok combined =>
      change out (loop directive m evaluate combined right.rest >>= _) = out (loop directive m evaluate combined right.rest)
      cases loop directive m evaluate combined right.rest <;> rfl

theorem eat_eq_some {text : String} (htext : text ∈ punctuators) :
    (eat text tokens).map Subtype.val = some rest ↔ ∃ token, tokens = token :: rest ∧ token.text = text := by
  cases tokens with
  | nil => simp [eat]
  | cons token tokens =>
    have his : token.is text = true ↔ token.text = text := by
      constructor
      · intro h
        exact beq_iff_eq.mp (Bool.and_eq_true_iff.mp h).1
      · intro h
        have hkind := token.spelled (h ▸ htext)
        simp [Token.is, h, hkind]
    by_cases htoken : token.text = text
    · simp [eat, his, htoken]
    · simp [eat, his, htoken]

theorem conditional_eq : out (conditional directive evaluate tokens) =
    (out (binary directive 0 evaluate tokens) >>= fun condition =>
      ((eat "?" condition.2).map Subtype.val).elim (.ok condition) fun branches =>
        out (conditional directive (evaluate && condition.1.bits != 0) branches) >>= fun chosen =>
          ((eat ":" chosen.2).map Subtype.val).elim
            (.error (error directive chosen.2 "expected ':' in conditional expression")) fun alternative =>
            out (conditional directive (evaluate && condition.1.bits == 0) alternative) >>= fun otherwise =>
              .ok (⟨if !evaluate then 0 else if condition.1.bits != 0 then chosen.1.bits else otherwise.1.bits,
                chosen.1.unsigned || otherwise.1.unsigned⟩, otherwise.2)) := by
  rw [conditional.eq_def]
  cases binary directive 0 evaluate tokens with
  | error failure => rfl
  | ok condition =>
    simp only [out, Except.map, bind, Except.bind]
    cases eat "?" condition.rest with
    | none => rfl
    | some branches =>
      simp only [Option.map_some, Option.elim_some]
      cases conditional directive (evaluate && condition.value.bits != 0) branches.1 with
      | error failure => rfl
      | ok chosen =>
        simp only
        cases eat ":" chosen.rest with
        | none => rfl
        | some alternative =>
          simp only [Option.map_some, Option.elim_some]
          cases conditional directive (evaluate && condition.value.bits == 0) alternative.1 <;> rfl

theorem unary_parentheses (htext : token.text = "(") : out (unary directive evaluate (token :: rest)) =
      (out (conditional directive evaluate rest) >>= fun inner =>
        ((eat ")" inner.2).map Subtype.val).elim
          (.error (error directive inner.2 "expected ')' in preprocessor expression")) fun after => .ok (inner.1, after)) := by
  rw [unary.eq_def]
  simp only [htext, if_true]
  cases conditional directive evaluate rest with
  | error failure => rfl
  | ok inner =>
    simp only [out, Except.map, bind, Except.bind]
    cases eat ")" inner.rest <;> rfl

theorem unary_operator (operator : UnaryOperator) (htext : token.text = operator.text) :
    out (unary directive evaluate (token :: rest)) =
      (out (unary directive evaluate rest) >>= fun operand => .ok (operator.result operand.1, operand.2)) := by
  rw [unary.eq_def]
  cases operator <;> simp only [htext, UnaryOperator.text] <;> cases unary directive evaluate rest <;> rfl

theorem unary_leaf (hoperator : ∀ operator : UnaryOperator, token.text ≠ operator.text)
    (hparenthesis : token.text ≠ "(") :
    ∃ failure, out (unary directive evaluate (token :: rest)) =
      token.constant.elim (.error failure) fun value => .ok (value, rest) := by
  have hplus := hoperator .plus
  have hminus := hoperator .minus
  have hcomplement := hoperator .complement
  have hnot := hoperator .not
  simp only [UnaryOperator.text] at hplus hminus hcomplement hnot
  rw [unary.eq_def]
  simp only [hparenthesis, hplus, hminus, hcomplement, hnot, if_false]
  cases hkind : token.kind with
  | number =>
    cases hliteral : integerLiteral token.text with
    | none => exact ⟨_, by simp [Token.constant, hkind, hliteral]; rfl⟩
    | some value => exact ⟨errorAt token "", by simp [Token.constant, hkind, hliteral]; rfl⟩
  | charLiteral => exact ⟨errorAt token "", by simp [Token.constant, hkind]; rfl⟩
  | _ => exact ⟨_, by simp [Token.constant, hkind]; rfl⟩

end Equations

section Completeness

variable {e : ConstantExpression} {xs : List Token} {level : ℕ}

theorem precedence_text (operator : BinaryOperator) : precedence operator.text = some operator.level := by
  cases operator <;> rfl

/-- Nothing that follows could go on with an expression. -/
def Ends (tokens : List Token) : Prop :=
  ∀ token ∈ tokens.head?, precedence token.text = none ∧ token.text ≠ "?"

theorem Ends.below (h : Ends tokens) : Below 0 tokens := by
  intro token htoken p hp
  rw [(h token htoken).1] at hp
  cases hp

theorem Ends.cons (hprecedence : precedence token.text = none) (htext : token.text ≠ "?") :
    Ends (token :: rest) := by
  intro t ht
  cases ht
  exact ⟨hprecedence, htext⟩

theorem Below.cons (h : ∀ p, precedence token.text = some p → p < m) : Below m (token :: rest) := by
  intro t ht
  cases ht
  exact h

theorem Ends.eat (h : Ends tokens) : (eat "?" tokens).map Subtype.val = none := by
  rw [Option.eq_none_iff_forall_ne_some]
  intro rest hrest
  obtain ⟨token, rfl, htext⟩ := (eat_eq_some (by decide)).mp hrest
  exact (h token rfl).2 htext

/-- How each function of the evaluator reads an expression of a level off the front of the tokens. -/
structure Complete (directive : Token) (level : ℕ) (xs : List Token) (e : ConstantExpression) : Prop where
  unary : level = unaryLevel → ∀ evaluate rest, Outcome evaluate e (fun value => .ok (value, rest))
    (out (Preprocessor.unary directive evaluate (xs ++ rest)))
  binary : 1 ≤ level → ∀ evaluate m rest, m ≤ level → Below (level + 1) rest →
    Outcome evaluate e (fun value => out (loop directive m evaluate value rest))
      (out (Preprocessor.binary directive m evaluate (xs ++ rest)))
  conditional : level = 0 → ∀ evaluate rest, Ends rest → Outcome evaluate e (fun value => .ok (value, rest))
    (out (Preprocessor.conditional directive evaluate (xs ++ rest)))

theorem Complete.of_unary (h : ∀ evaluate rest, Outcome evaluate e (fun value => .ok (value, rest))
    (out (Preprocessor.unary directive evaluate (xs ++ rest)))) : Complete directive unaryLevel xs e := by
  refine ⟨fun _ => h, fun _ evaluate m rest hle hbelow => ?_, fun hlevel => by cases hlevel⟩
  rw [binary_eq]
  exact (h evaluate rest).bind (fun heval hvalue => ⟨heval, hvalue⟩) fun value hagrees => .inl ⟨value, hagrees, rfl⟩

theorem Complete.tighter (h : Complete directive (level + 1) xs e) (hlevel : level + 1 ≤ unaryLevel) :
    Complete directive level xs e := by
  refine ⟨fun heq => by omega, fun hle evaluate m rest hm hbelow => ?_, fun hzero evaluate rest hends => ?_⟩
  · exact h.binary (by omega) evaluate m rest (by omega) (hbelow.mono (by omega))
  · rw [conditional_eq]
    have hbinary := h.binary (by omega) evaluate 0 rest (by omega) (hends.below.mono (by omega))
    refine hbinary.bind (fun heval hvalue => ⟨heval, hvalue⟩) fun value hagrees => .inl ⟨value, hagrees, ?_⟩
    rw [loop_stop hends.below]
    change ((eat "?" rest).map Subtype.val).elim _ _ = _
    rw [hends.eat]
    rfl

theorem Complete.binary_operator {operator : BinaryOperator} {ys : List Token} {l r : ConstantExpression}
    (hl : Complete directive operator.level xs l) (htext : token.text = operator.text)
    (hr : Complete directive (operator.level + 1) ys r) :
    Complete directive operator.level (xs ++ token :: ys) (.binary operator l r) := by
  have hlevel : 1 ≤ operator.level ∧ operator.level < unaryLevel := by cases operator <;> decide
  have hprecedence : precedence token.text = some operator.level := by
    rw [htext]
    exact precedence_text operator
  refine ⟨fun heq => by omega, fun _ evaluate m rest hm hbelow => ?_, fun hzero => by omega⟩
  rw [List.append_assoc, List.cons_append]
  have hfirst := hl.binary hlevel.1 evaluate m (token :: (ys ++ rest)) hm (Below.cons fun p hp => by
    rw [hprecedence] at hp
    cases hp
    omega)
  refine hfirst.trans (fun heval hvalue => ⟨heval, value_binary_left hvalue⟩) fun left hleft => ?_
  rw [loop_step hprecedence hm]
  have hsecond := hr.binary (by omega) (evaluate && evaluatesRight token.text left) (operator.level + 1) rest le_rfl
    (hbelow.mono (by omega))
  refine hsecond.bind (fun heval hvalue => ?_) fun right hright => ?_
  · have hboth := Bool.and_eq_true_iff.mp heval
    rw [htext] at hboth
    exact ⟨hboth.1, value_binary_right (hleft.bits hboth.1) hboth.2 hvalue⟩
  · rw [loop_stop hbelow]
    rw [htext] at hright ⊢
    have happly := @apply_outcome evaluate directive rest left right l r operator hleft hright
    exact happly.bind (fun heval hvalue => ⟨heval, hvalue⟩) fun value hagrees => .inl ⟨value, hagrees, rfl⟩

theorem Complete.conditional_operator {question colon : Token} {ys zs : List Token} {c t : ConstantExpression}
    (hc : Complete directive 1 xs c) (hquestion : question.text = "?") (ht : Complete directive 0 ys t)
    (hcolon : colon.text = ":") (he : Complete directive 0 zs e) :
    Complete directive 0 (xs ++ question :: (ys ++ colon :: zs)) (.conditional c t e) := by
  refine ⟨fun heq => (by cases heq), fun hle => by omega, fun _ evaluate rest hends => ?_⟩
  have hafter (tokens : List Token) (m : ℕ) : Below m (question :: tokens) := Below.cons fun p hp => by
    rw [hquestion] at hp
    cases hp
  rw [List.append_assoc, List.cons_append, List.append_assoc, List.cons_append, conditional_eq]
  have hcondition := hc.binary le_rfl evaluate 0 (question :: (ys ++ colon :: (zs ++ rest))) (by omega) (hafter _ _)
  refine hcondition.bind (fun heval hvalue => ⟨heval, ?_⟩) fun condition hcond => ?_
  · rw [ConstantExpression.value, hvalue]
    rfl
  rw [loop_stop (hafter _ _)]
  change Outcome _ _ _ (((eat "?" (question :: _)).map Subtype.val).elim _ _)
  rw [(eat_eq_some (by decide)).mpr ⟨question, rfl, hquestion⟩, Option.elim_some]
  have hchosen := ht.conditional rfl (evaluate && condition.bits != 0) (colon :: (zs ++ rest))
    (Ends.cons (by rw [hcolon]; rfl) (by rw [hcolon]; decide))
  refine hchosen.bind (fun heval hvalue => ?_) fun chosen hchosen => ?_
  · have hboth := Bool.and_eq_true_iff.mp heval
    rw [value_conditional (hcond.bits hboth.1), if_pos (by simpa using hboth.2)]
    exact ⟨hboth.1, hvalue⟩
  change Outcome _ _ _ (((eat ":" (colon :: _)).map Subtype.val).elim _ _)
  rw [(eat_eq_some (by decide)).mpr ⟨colon, rfl, hcolon⟩, Option.elim_some]
  have hotherwise := he.conditional rfl (evaluate && condition.bits == 0) rest hends
  refine hotherwise.bind (fun heval hvalue => ?_) fun otherwise hotherwise =>
    .inl ⟨_, hcond.conditional hchosen hotherwise, rfl⟩
  have hboth := Bool.and_eq_true_iff.mp heval
  rw [value_conditional (hcond.bits hboth.1), if_neg (by simpa using hboth.2)]
  exact ⟨hboth.1, hvalue⟩

theorem Token.spelled_of_constant (h : token.constant = some value) : token.text ∉ punctuators := by
  intro htext
  rw [Token.constant, token.spelled htext] at h
  cases h

theorem UnaryOperator.text_mem (operator : UnaryOperator) : operator.text ∈ punctuators := by
  cases operator <;> decide

theorem Derives.level_le (h : Derives level xs e) : level ≤ unaryLevel := by
  induction h with
  | constant | parentheses | unary => exact le_rfl
  | binary operator => cases operator <;> decide
  | conditional => exact Nat.zero_le _
  | tighter _ ih => omega

theorem Derives.complete (h : Derives level xs e) : Complete directive level xs e := by
  induction h with
  | constant h =>
    apply Complete.of_unary
    intro evaluate rest
    have hspelled := Token.spelled_of_constant h
    obtain ⟨failure, hleaf⟩ := @unary_leaf directive evaluate rest _
      (fun operator htext => hspelled (htext ▸ operator.text_mem)) (fun htext => hspelled (htext ▸ by decide))
    rw [List.singleton_append, hleaf, h]
    exact .inl ⟨_, ⟨rfl, fun _ => rfl⟩, rfl⟩
  | @parentheses left right tokens e hleft _ hright ih =>
    apply Complete.of_unary
    intro evaluate rest
    rw [List.cons_append, List.append_assoc, List.singleton_append, unary_parentheses hleft]
    have hends : Ends (right :: rest) := Ends.cons (by rw [hright]; rfl) (by rw [hright]; decide)
    have hinner := ih.conditional rfl evaluate _ hends
    refine hinner.bind (fun heval hvalue => ⟨heval, hvalue⟩) fun value hagrees => .inl ⟨value, hagrees, ?_⟩
    change ((eat ")" _).map Subtype.val).elim _ _ = _
    rw [(eat_eq_some (by decide)).mpr ⟨_, rfl, hright⟩, Option.elim_some]
  | unary operator htext _ ih =>
    apply Complete.of_unary
    intro evaluate rest
    rw [List.cons_append, unary_operator operator htext]
    refine (ih.unary rfl evaluate rest).bind (fun heval hvalue => ⟨heval, ?_⟩) fun value hagrees =>
      .inl ⟨_, hagrees.unary operator, rfl⟩
    rw [ConstantExpression.value, hvalue]
    rfl
  | binary operator _ htext _ ihl ihr => exact ihl.binary_operator htext ihr
  | conditional _ hquestion _ hcolon _ ihc iht ihe => exact ihc.conditional_operator hquestion iht hcolon ihe
  | tighter h ih => exact ih.tighter h.level_le

end Completeness

section Soundness

/-- Without the comma operator, which no constant expression has. -/
def CommaFree (tokens : List Token) : Prop := ∀ token ∈ tokens, token.text ≠ ","

/-- With tokens read before, those up to the rest are an expression of a level, and the value agrees with it. -/
def Reads (evaluate : Bool) (level : ℕ) (before tokens : List Token) (value : Value) (rest : List Token) : Prop :=
  ∃ xs e, tokens = xs ++ rest ∧ Derives level (before ++ xs) e ∧ Agrees evaluate e value

/-- What each function of the evaluator has read, when it accepts. -/
structure Sound (directive : Token) (tokens : List Token) : Prop where
  unary : ∀ {evaluate value rest}, out (Preprocessor.unary directive evaluate tokens) = .ok (value, rest) →
    Reads evaluate unaryLevel [] tokens value rest
  loop : ∀ {evaluate m left value rest xs e level},
    out (Preprocessor.loop directive m evaluate left tokens) = .ok (value, rest) → Derives level xs e →
    Agrees evaluate e left → max 1 m ≤ level → Below (level + 1) tokens →
    Reads evaluate (max 1 m) xs tokens value rest ∧ Below m rest
  binary : ∀ {evaluate m value rest}, m ≤ unaryLevel →
    out (Preprocessor.binary directive m evaluate tokens) = .ok (value, rest) →
    Reads evaluate (max 1 m) [] tokens value rest ∧ Below m rest
  conditional : ∀ {evaluate value rest},
    out (Preprocessor.conditional directive evaluate tokens) = .ok (value, rest) → Reads evaluate 0 [] tokens value rest

theorem bind_ok {α β : Type} {x : Except PreprocessError α} {f : α → Except PreprocessError β} {b : β}
    (h : x >>= f = .ok b) : ∃ a, x = .ok a ∧ f a = .ok b := by
  cases x with
  | error failure => cases h
  | ok a => exact ⟨a, rfl, h⟩

/-- The operators of binary expressions, as precedence finds them. -/
theorem exists_operator {text : String} (hp : precedence text = some p) (hcomma : text ≠ ",") :
    ∃ operator : BinaryOperator, operator.text = text ∧ operator.level = p := by
  unfold precedence at hp
  split at hp
  · contradiction
  · exact ⟨.or, rfl, Option.some.inj hp⟩
  · exact ⟨.and, rfl, Option.some.inj hp⟩
  · exact ⟨.bitOr, rfl, Option.some.inj hp⟩
  · exact ⟨.bitXor, rfl, Option.some.inj hp⟩
  · exact ⟨.bitAnd, rfl, Option.some.inj hp⟩
  · exact ⟨.eq, rfl, Option.some.inj hp⟩
  · exact ⟨.ne, rfl, Option.some.inj hp⟩
  · exact ⟨.lt, rfl, Option.some.inj hp⟩
  · exact ⟨.gt, rfl, Option.some.inj hp⟩
  · exact ⟨.le, rfl, Option.some.inj hp⟩
  · exact ⟨.ge, rfl, Option.some.inj hp⟩
  · exact ⟨.shl, rfl, Option.some.inj hp⟩
  · exact ⟨.shr, rfl, Option.some.inj hp⟩
  · exact ⟨.add, rfl, Option.some.inj hp⟩
  · exact ⟨.sub, rfl, Option.some.inj hp⟩
  · exact ⟨.mul, rfl, Option.some.inj hp⟩
  · exact ⟨.div, rfl, Option.some.inj hp⟩
  · exact ⟨.mod, rfl, Option.some.inj hp⟩
  · cases hp

theorem CommaFree.suffix {xs ys : List Token} (h : CommaFree (xs ++ ys)) : CommaFree ys :=
  fun token htoken => h token (List.mem_append_right _ htoken)

theorem CommaFree.tail (h : CommaFree (token :: rest)) : CommaFree rest :=
  fun t ht => h t (List.mem_cons_of_mem _ ht)

section Steps

variable (hfree : CommaFree tokens)
  (ih : ∀ tokens' : List Token, tokens'.length < tokens.length → CommaFree tokens' → Sound directive tokens')

include hfree ih

theorem unary_sound (h : out (unary directive evaluate tokens) = .ok (value, rest)) :
    Reads evaluate unaryLevel [] tokens value rest := by
  cases tokens with
  | nil =>
    rw [unary.eq_def] at h
    cases h
  | cons token tail =>
    have htail := ih tail (Nat.lt_succ_self _) hfree.tail
    by_cases hparenthesis : token.text = "("
    · rw [unary_parentheses hparenthesis] at h
      obtain ⟨inner, hinner, h⟩ := bind_ok h
      obtain ⟨xs, e, hxs, hderives, hagrees⟩ := htail.conditional hinner
      cases hclose : (eat ")" inner.2).map Subtype.val with
      | none =>
        rw [hclose] at h
        cases h
      | some after =>
        rw [hclose] at h
        cases h
        obtain ⟨right, hright, htext⟩ := (eat_eq_some (by decide)).mp hclose
        refine ⟨_, e, ?_, .parentheses hparenthesis hderives htext, hagrees⟩
        rw [hxs, hright]
        simp
    · by_cases hunary : ∃ operator : UnaryOperator, token.text = operator.text
      · obtain ⟨operator, htext⟩ := hunary
        rw [unary_operator operator htext] at h
        obtain ⟨operand, hoperand, h⟩ := bind_ok h
        cases h
        obtain ⟨xs, e, hxs, hderives, hagrees⟩ := htail.unary hoperand
        exact ⟨token :: xs, _, by rw [hxs]; rfl, .unary operator htext hderives, hagrees.unary operator⟩
      · obtain ⟨failure, hleaf⟩ := @unary_leaf directive evaluate tail token (not_exists.mp hunary) hparenthesis
        rw [hleaf] at h
        cases hconstant : token.constant with
        | none =>
          rw [hconstant] at h
          cases h
        | some literal =>
          rw [hconstant] at h
          cases h
          exact ⟨[token], _, rfl, .constant hconstant, rfl, fun _ => rfl⟩

theorem loop_sound {xs : List Token} {e : ConstantExpression} {level : ℕ}
    (h : out (loop directive m evaluate left tokens) = .ok (value, rest)) (hderives : Derives level xs e)
    (hagrees : Agrees evaluate e left) (hlevel : max 1 m ≤ level) (hbelow : Below (level + 1) tokens) :
    Reads evaluate (max 1 m) xs tokens value rest ∧ Below m rest := by
  by_cases hstop : Below m tokens
  · rw [loop_stop hstop] at h
    cases h
    exact ⟨⟨[], e, rfl, by rw [List.append_nil]; exact hderives.mono hlevel, hagrees⟩, hstop⟩
  · obtain ⟨token, htoken, p, hp, hle⟩ : ∃ token ∈ tokens.head?, ∃ p, precedence token.text = some p ∧ m ≤ p := by
      simpa [Below] using hstop
    obtain ⟨tail, rfl⟩ := List.head?_eq_some_iff.mp htoken
    have hcomma := hfree token List.mem_cons_self
    obtain ⟨operator, htext, rfl⟩ := exists_operator hp hcomma
    have hbounds : 1 ≤ operator.level ∧ operator.level < unaryLevel := by cases operator <;> decide
    have hnext : operator.level < level + 1 := hbelow token rfl _ hp
    rw [loop_step hp hle] at h
    obtain ⟨right, hright, hright'⟩ := bind_ok h
    obtain ⟨combined, hcombined, hloop⟩ := bind_ok hright'
    obtain ⟨⟨ys, r, htokens, hr, hragrees⟩, hrest⟩ := (ih tail (Nat.lt_succ_self _) hfree.tail).binary (by omega) hright
    rw [max_eq_right (by omega), List.nil_append] at hr
    rw [← htext] at hragrees hcombined
    have hwhole : Derives operator.level (xs ++ token :: ys) (.binary operator e r) :=
      .binary operator (hderives.mono (by omega)) htext.symm hr
    have hboth : Agrees evaluate (.binary operator e r) combined := by
      rcases @apply_outcome evaluate directive right.2 left right.1 e r operator hagrees hragrees with
        ⟨combined', hagrees', happly⟩ | ⟨-, -, failure, happly, -⟩
      · rw [happly] at hcombined
        cases hcombined
        exact hagrees'
      · rw [happly] at hcombined
        cases hcombined
    have hshorter : right.2.length < (token :: tail).length := Nat.lt_succ_of_lt (out_shorter hright)
    obtain ⟨⟨zs, e', hzs, hderives', hagrees'⟩, hend⟩ :=
      (ih right.2 hshorter (htokens ▸ hfree.tail).suffix).loop hloop hwhole hboth (by omega) hrest
    refine ⟨⟨token :: (ys ++ zs), e', ?_, ?_, hagrees'⟩, hend⟩
    · rw [htokens, hzs, List.cons_append, List.append_assoc]
    · simpa using hderives'

theorem binary_sound (hm : m ≤ unaryLevel) (h : out (binary directive m evaluate tokens) = .ok (value, rest)) :
    Reads evaluate (max 1 m) [] tokens value rest ∧ Below m rest := by
  rw [binary_eq] at h
  obtain ⟨left, hleft, hloop⟩ := bind_ok h
  obtain ⟨xs, e, htokens, hderives, hagrees⟩ := unary_sound hfree ih hleft
  have hbelow : Below (unaryLevel + 1) left.2 := by
    intro token htoken p hp
    unfold precedence at hp
    split at hp <;> cases hp <;> decide
  obtain ⟨⟨ys, e', hys, hderives', hagrees'⟩, hend⟩ :=
    (ih left.2 (out_shorter hleft) (htokens ▸ hfree).suffix).loop hloop hderives hagrees (max_le (by decide) hm) hbelow
  exact ⟨⟨xs ++ ys, e', by rw [htokens, hys, List.append_assoc], hderives', hagrees'⟩, hend⟩

theorem conditional_sound (h : out (conditional directive evaluate tokens) = .ok (value, rest)) :
    Reads evaluate 0 [] tokens value rest := by
  rw [conditional_eq] at h
  obtain ⟨condition, hcondition, h₁⟩ := bind_ok h
  obtain ⟨⟨xs, c, htokens, hc, hcagrees⟩, -⟩ := binary_sound hfree ih (Nat.zero_le _) hcondition
  replace hc : Derives 1 xs c := hc
  cases hquestion : (eat "?" condition.2).map Subtype.val with
  | none =>
    rw [hquestion] at h₁
    cases h₁
    exact ⟨xs, c, htokens, hc.mono (Nat.zero_le _), hcagrees⟩
  | some branches =>
    rw [hquestion] at h₁
    obtain ⟨question, hq, hqtext⟩ := (eat_eq_some (by decide)).mp hquestion
    obtain ⟨chosen, hchosen, h₂⟩ := bind_ok h₁
    have hbranches : CommaFree (question :: branches) := hq ▸ (htokens ▸ hfree).suffix
    have hlength : (question :: branches).length ≤ tokens.length := by
      rw [htokens, hq, List.length_append]
      exact Nat.le_add_left _ _
    obtain ⟨ys, t, hys, ht, htagrees⟩ := (ih branches hlength hbranches.tail).conditional hchosen
    cases hcolon : (eat ":" chosen.2).map Subtype.val with
    | none =>
      rw [hcolon] at h₂
      cases h₂
    | some alternative =>
      rw [hcolon] at h₂
      obtain ⟨colon, hcol, hctext⟩ := (eat_eq_some (by decide)).mp hcolon
      obtain ⟨otherwise, hotherwise, h₃⟩ := bind_ok h₂
      cases h₃
      have halternative : CommaFree (colon :: alternative) := hcol ▸ (hys ▸ hbranches.tail).suffix
      have hlength' : alternative.length < tokens.length := by
        rw [List.length_cons, hys, hcol, List.length_append, List.length_cons] at hlength
        omega
      obtain ⟨zs, e, hzs, he, heagrees⟩ := (ih alternative hlength' halternative.tail).conditional hotherwise
      have hwhole := Derives.conditional hc hqtext ht hctext he
      refine ⟨_, _, ?_, hwhole, hcagrees.conditional htagrees heagrees⟩
      rw [htokens, hq, hys, hcol, hzs]
      simp

end Steps

/-- What the evaluator accepts is an expression, with a value that agrees. -/
theorem sound (hfree : CommaFree tokens) : Sound directive tokens := by
  induction hn : tokens.length using Nat.strong_induction_on generalizing tokens with
  | _ n ihn =>
    have ih (tokens' : List Token) (hlt : tokens'.length < tokens.length) (hfree' : CommaFree tokens') :
        Sound directive tokens' := ihn tokens'.length (hn ▸ hlt) hfree' rfl
    exact ⟨unary_sound hfree ih, loop_sound hfree ih, binary_sound hfree ih, conditional_sound hfree ih⟩

end Soundness

theorem evaluate_eq : Preprocessor.evaluate directive tokens =
    (out (conditional directive true tokens) >>= fun read => read.2.head?.elim (.ok read.1) fun token =>
      .error (errorAt token "token is not a valid binary operator in a preprocessor subexpression")) := by
  rw [Preprocessor.evaluate]
  cases conditional directive true tokens with
  | error failure => rfl
  | ok parsed =>
    simp only [out, Except.map, bind, Except.bind]
    cases parsed.rest <;> rfl

end Krusty.Native.Cinterop.Preprocessor
