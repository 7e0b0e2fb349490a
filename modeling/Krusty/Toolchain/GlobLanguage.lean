import Krusty.Lib.Searches
import Krusty.Toolchain.Glob

/-! The language that a glob denotes: the grammar of patterns, the words of their tokens, and the compiler
and the matcher against both. -/
namespace Krusty.Toolchain.Globs

open Searches

/-! ## Tokens -/

/-- A unit that a path segment may hold. -/
def InSegment (unit : UInt16) : Prop := unit ≠ 0x2f

instance : DecidablePred InSegment := fun unit => inferInstanceAs (Decidable (unit ≠ 0x2f))

/-- A unit that a class stands for. -/
def Class.Holds (c : Class) (unit : UInt16) : Prop :=
  InSegment unit ∧ (c.negated = false ↔ ∃ r ∈ c.ranges, r.1 ≤ unit ∧ unit ≤ r.2)

mutual

def Token.language : Token → Language UInt16
  | .literal unit => letter (· = unit)
  | .withinSegment => letters InSegment
  | .acrossSegments => ⊤
  | .oneCharacter => letter InSegment
  | .cls c => letter c.Holds
  | .group alternatives => alternativesLanguage alternatives

/-- Tokens in a row. -/
def sequenceLanguage : List Token → Language UInt16
  | [] => 1
  | token :: tokens => token.language * sequenceLanguage tokens

def alternativesLanguage : List (List Token) → Language UInt16
  | [] => 0
  | alternative :: alternatives => sequenceLanguage alternative + alternativesLanguage alternatives

end

def framesLanguage (frames : List (List Token)) : Language UInt16 := (frames.map sequenceLanguage).prod

mutual

/-- How deep the search for a token goes. -/
def Token.weight : Token → ℕ
  | .group alternatives => 1 + alternativesWeight alternatives
  | _ => 1

def sequenceWeight : List Token → ℕ
  | [] => 0
  | token :: tokens => token.weight + sequenceWeight tokens

def alternativesWeight : List (List Token) → ℕ
  | [] => 0
  | alternative :: alternatives => 1 + sequenceWeight alternative + alternativesWeight alternatives

end

def framesWeight (frames : List (List Token)) : ℕ := (frames.map fun frame => 1 + sequenceWeight frame).sum

variable {alternatives : List (List Token)}

theorem mem_alternativesLanguage {w : List UInt16} :
    w ∈ alternativesLanguage alternatives ↔ ∃ a ∈ alternatives, w ∈ sequenceLanguage a := by
  induction alternatives with
  | nil =>
    unfold alternativesLanguage
    simp
  | cons a alternatives ih =>
    unfold alternativesLanguage
    rw [Language.mem_add, ih]
    simp

theorem alternative_weight {a : List Token} (h : a ∈ alternatives) :
    1 + sequenceWeight a ≤ alternativesWeight alternatives := by
  induction alternatives with
  | nil => cases h
  | cons b alternatives ih =>
    unfold alternativesWeight
    rcases List.mem_cons.mp h with rfl | h
    · omega
    · have hle := ih h
      omega

theorem Token.weight_pos (token : Token) : 1 ≤ token.weight := by
  cases token <;> simp [Token.weight]

theorem Class.matches_iff (c : Class) (unit : UInt16) : c.matches unit = true ↔ c.Holds unit := by
  unfold Class.matches Class.Holds InSegment
  cases c.negated <;> simp

/-! ## The matcher -/

theorem framesLanguage_cons (token : Token) (tail : List Token) (rest : List (List Token)) :
    framesLanguage ((token :: tail) :: rest) = token.language * framesLanguage (tail :: rest) := by
  unfold framesLanguage
  rw [List.map_cons, List.prod_cons, sequenceLanguage, List.map_cons, List.prod_cons, mul_assoc]

theorem framesLanguage_nil_cons (rest : List (List Token)) :
    framesLanguage ([] :: rest) = framesLanguage rest := by
  unfold framesLanguage
  rw [List.map_cons, List.prod_cons, sequenceLanguage, one_mul]

theorem mem_framesLanguage_group {tail : List Token} {rest : List (List Token)} {text : List UInt16} :
    text ∈ framesLanguage ((.group alternatives :: tail) :: rest) ↔
      ∃ a ∈ alternatives, text ∈ framesLanguage (a :: tail :: rest) := by
  rw [framesLanguage_cons, Token.language, Language.mem_mul]
  have hcons (a : List Token) : framesLanguage (a :: tail :: rest) =
      sequenceLanguage a * framesLanguage (tail :: rest) := by
    unfold framesLanguage
    rw [List.map_cons, List.prod_cons]
  simp only [hcons, Language.mem_mul, mem_alternativesLanguage]
  constructor
  · rintro ⟨v, ⟨a, ha, hv⟩, w, hw, rfl⟩
    exact ⟨a, ha, v, hv, w, hw, rfl⟩
  · rintro ⟨a, ha, v, hv, w, hw, rfl⟩
    exact ⟨v, ⟨a, ha, hv⟩, w, hw, rfl⟩

theorem withinSegment_decides {continueAt : List UInt16 → Option Bool} {L : Language UInt16}
    (h : ∀ next, Decides (continueAt next) (next ∈ L)) (text : List UInt16) :
    Decides (withinSegment continueAt text) (text ∈ letters InSegment * L) := by
  induction text with
  | nil =>
    unfold withinSegment
    exact (h []).iff nil_mem_run_mul.symm
  | cons unit rest ih =>
    have hstep := (h (unit :: rest)).orElse fun _ => Decides.ite (c := InSegment unit) fun _ => ih
    exact hstep.iff cons_mem_run_mul.symm

/-- A token that takes one unit of some kind. -/
theorem oneUnit_decides {p : UInt16 → Prop} [DecidablePred p] {continueAt : List UInt16 → Option Bool}
    {L : Language UInt16} (h : ∀ next, Decides (continueAt next) (next ∈ L)) (text : List UInt16) :
    Decides (match text with
      | current :: next => if p current then continueAt next else some false
      | [] => some false) (text ∈ letter p * L) := by
  cases text with
  | nil => exact decides_false nil_notMem_mul
  | cons current next =>
    have hstep := Decides.ite (c := p current) fun _ => h next
    exact hstep.iff cons_mem_mul.symm

/-- The search ends, within a depth that only the frames bound, and accepts their language. -/
theorem matchFrames_decides (depth : ℕ) (frames : List (List Token)) (text : List UInt16)
    (hdepth : framesWeight frames < depth) :
    Decides (matchFrames depth frames text) (text ∈ framesLanguage frames) := by
  induction depth generalizing frames text with
  | zero => omega
  | succ depth ih =>
    match frames with
    | [] =>
      refine ⟨text.isEmpty, rfl, ?_⟩
      unfold framesLanguage
      rw [List.map_nil, List.prod_nil, Language.mem_one, List.isEmpty_iff]
    | [] :: rest =>
      rw [framesLanguage_nil_cons]
      refine ih rest text ?_
      unfold framesWeight at hdepth ⊢
      rw [List.map_cons, List.sum_cons] at hdepth
      omega
    | (token :: tail) :: rest =>
      have hweight : framesWeight ((token :: tail) :: rest) = token.weight + framesWeight (tail :: rest) := by
        unfold framesWeight
        simp only [List.map_cons, List.sum_cons, sequenceWeight]
        omega
      have hpos := token.weight_pos
      have hnext : ∀ next, Decides (matchFrames depth (tail :: rest) next) (next ∈ framesLanguage (tail :: rest)) :=
        fun next => ih (tail :: rest) next (by omega)
      unfold matchFrames
      cases token with
      | literal unit =>
        rw [framesLanguage_cons, Token.language]
        exact oneUnit_decides hnext text
      | oneCharacter =>
        rw [framesLanguage_cons, Token.language]
        exact oneUnit_decides hnext text
      | cls c =>
        rw [framesLanguage_cons, Token.language]
        have hholds : c.Holds = fun unit => c.matches unit = true :=
          funext fun unit => propext (c.matches_iff unit).symm
        rw [hholds]
        exact oneUnit_decides hnext text
      | withinSegment =>
        rw [framesLanguage_cons, Token.language]
        exact withinSegment_decides hnext text
      | acrossSegments =>
        rw [framesLanguage_cons, Token.language]
        exact (Decides.anyM fun next _ => hnext next).iff mem_top_mul.symm
      | group alternatives =>
        refine Decides.iff (Decides.anyM fun a ha => ?_) mem_framesLanguage_group.symm
        refine ih (a :: tail :: rest) text ?_
        have hle := alternative_weight ha
        rw [hweight, Token.weight] at hdepth
        unfold framesWeight at hdepth ⊢
        simp only [List.map_cons, List.sum_cons] at hdepth ⊢
        omega

/-! ## The grammar -/

/-- A unit that stands for itself in a class. -/
def Plain (unit : UInt16) : Prop := unit ≠ 0x5d ∧ unit ≠ 0x2f ∧ unit ≠ 0x2d

/-- The ranges that units spell up to a class's `]`, and the units after it. -/
inductive SpellsRanges : List UInt16 → List (UInt16 × UInt16) → List UInt16 → Prop
  | close (rest : List UInt16) : SpellsRanges (0x5d :: rest) [] rest
  | single {unit : UInt16} {text rest : List UInt16} {ranges : List (UInt16 × UInt16)} (hunit : Plain unit)
    (htail : SpellsRanges text ranges rest) : SpellsRanges (unit :: text) ((unit, unit) :: ranges) rest
  | range {low high : UInt16} {text rest : List UInt16} {ranges : List (UInt16 × UInt16)} (hlow : Plain low)
    (hclose : high ≠ 0x5d) (hnul : high ≠ 0) (hle : low ≤ high) (htail : SpellsRanges text ranges rest) :
    SpellsRanges (low :: 0x2d :: high :: text) ((low, high) :: ranges) rest
  | dash {low : UInt16} (hlow : Plain low) (rest : List UInt16) :
    SpellsRanges (low :: 0x2d :: 0x5d :: rest) [(low, low), (0x2d, 0x2d)] rest

/-- The class that units spell after a `[`, and the units after its `]`. A leading caret is a literal one, a
leading exclamation mark negates, and a dash before the ranges stands for itself. -/
inductive SpellsClass : List UInt16 → Class → List UInt16 → Prop
  | caret {text rest : List UInt16} {ranges : List (UInt16 × UInt16)} (h : SpellsRanges text ranges rest) :
    SpellsClass (0x5e :: text) { negated := false, ranges := (0x5e, 0x5e) :: ranges } rest
  | dash {text rest : List UInt16} {ranges : List (UInt16 × UInt16)} (h : SpellsRanges text ranges rest) :
    SpellsClass (0x2d :: text) { negated := false, ranges := (0x2d, 0x2d) :: ranges } rest
  | negatedDash {text rest : List UInt16} {ranges : List (UInt16 × UInt16)}
    (h : SpellsRanges text ranges rest) :
    SpellsClass (0x21 :: 0x2d :: text) { negated := true, ranges := (0x2d, 0x2d) :: ranges } rest
  | plain {text rest : List UInt16} {ranges : List (UInt16 × UInt16)} (hcaret : text.head? ≠ some 0x5e)
    (hmark : text.head? ≠ some 0x21) (h : SpellsRanges text ranges rest) (hne : ranges ≠ []) :
    SpellsClass text { negated := false, ranges } rest
  | negated {text rest : List UInt16} {ranges : List (UInt16 × UInt16)} (h : SpellsRanges text ranges rest)
    (hne : ranges ≠ []) : SpellsClass (0x21 :: text) { negated := true, ranges } rest

/-- A unit that stands for itself wherever it stands outside a class. -/
def Ordinary (unit : UInt16) : Prop :=
  unit ≠ 0x5c ∧ unit ≠ 0x5b ∧ unit ≠ 0x2a ∧ unit ≠ 0x3f ∧ unit ≠ 0x7b ∧ unit ≠ 0x7d ∧ unit ≠ 0x2c

/-- The token that units spell in front, and the units after it. -/
inductive SpellsToken : List UInt16 → Token → List UInt16 → Prop
  | escape (unit : UInt16) (rest : List UInt16) : SpellsToken (0x5c :: unit :: rest) (.literal unit) rest
  | cls {text rest : List UInt16} {c : Class} (h : SpellsClass text c rest) :
    SpellsToken (0x5b :: text) (.cls c) rest
  | across (rest : List UInt16) : SpellsToken (0x2a :: 0x2a :: rest) .acrossSegments rest
  | within {rest : List UInt16} (h : rest.head? ≠ some 0x2a) : SpellsToken (0x2a :: rest) .withinSegment rest
  | one (rest : List UInt16) : SpellsToken (0x3f :: rest) .oneCharacter rest
  | literal {unit : UInt16} (h : Ordinary unit) (rest : List UInt16) :
    SpellsToken (unit :: rest) (.literal unit) rest

/-- The alternatives that units spell up to a group's brace, the first of them apart, and the units after
the brace. -/
inductive SpellsGroup : List UInt16 → List Token → List (List Token) → List UInt16 → Prop
  | close (rest : List UInt16) : SpellsGroup (0x7d :: rest) [] [] rest
  | comma {text rest : List UInt16} {first : List Token} {others : List (List Token)}
    (h : SpellsGroup text first others rest) : SpellsGroup (0x2c :: text) [] (first :: others) rest
  | token {text mid rest : List UInt16} {token : Token} {first : List Token} {others : List (List Token)}
    (htoken : SpellsToken text token mid) (h : SpellsGroup mid first others rest) :
    SpellsGroup text (token :: first) others rest

/-- The tokens that a pattern spells. Outside a group a comma or a closing brace stands for itself. -/
inductive Spells : List UInt16 → List Token → Prop
  | nil : Spells [] []
  | token {text rest : List UInt16} {token : Token} {tokens : List Token}
    (htoken : SpellsToken text token rest) (h : Spells rest tokens) : Spells text (token :: tokens)
  | stray {unit : UInt16} {rest : List UInt16} {tokens : List Token} (hunit : unit = 0x7d ∨ unit = 0x2c)
    (h : Spells rest tokens) : Spells (unit :: rest) (.literal unit :: tokens)
  | group {text rest : List UInt16} {first : List Token} {others : List (List Token)} {tokens : List Token}
    (hgroup : SpellsGroup text first others rest) (h : Spells rest tokens) :
    Spells (0x7b :: text) (.group (first :: others) :: tokens)

/-! ## The compiler -/

namespace Compiler

variable {c c' : Compiler} {ranges : List (UInt16 × UInt16)}

theorem classLoop_start {l : List UInt16} (hl : l.head? ≠ some 0x2d) {i : ℕ} (start : Option UInt16) :
    c.classLoop l i ranges start = c.classLoop l i ranges none := by
  cases l with
  | nil => rfl
  | cons unit rest =>
    have hne : unit ≠ 0x2d := by simpa using hl
    unfold classLoop
    simp only [hne, if_false]

variable {l rest : List UInt16}

theorem head_of_spellsRanges (h : SpellsRanges l ranges rest) : l.head? ≠ some 0x2d := by
  cases h with
  | close => simp
  | single hunit => simpa using hunit.2.2
  | range hlow => simpa using hlow.2.2
  | dash hlow => simpa using hlow.2.2

theorem classLoop_of_spells (h : SpellsRanges l ranges rest) (i : ℕ) (before : List (UInt16 × UInt16)) :
    ∃ index, c.classLoop l i before none = .ok (before ++ ranges, rest, index) := by
  induction h generalizing i before with
  | close rest => exact ⟨i + 1, by simp [classLoop]⟩
  | @single unit text rest ranges hunit htail ih =>
    obtain ⟨index, hindex⟩ := ih (i + 1) (before ++ [(unit, unit)])
    refine ⟨index, ?_⟩
    rw [classLoop, if_neg hunit.1, if_neg hunit.2.1, if_neg hunit.2.2,
      classLoop_start (head_of_spellsRanges htail), hindex, List.append_assoc]
    rfl
  | @range low high text rest ranges hlow hclose hnul hle htail ih =>
    obtain ⟨index, hindex⟩ := ih (i + 1 + 2) (before ++ [(low, high)])
    refine ⟨index, ?_⟩
    have hnot : ¬ high < low := by simpa using hle
    rw [classLoop, if_neg hlow.1, if_neg hlow.2.1, if_neg hlow.2.2, classLoop]
    simp only [hclose, hnul, hnot, eol, if_false, List.dropLast_concat]
    rw [if_neg (by decide), if_neg (by decide), if_pos trivial, hindex, List.append_assoc]
    rfl
  | @dash low hlow rest =>
    refine ⟨i + 1 + 2, ?_⟩
    rw [classLoop, if_neg hlow.1, if_neg hlow.2.1, if_neg hlow.2.2, classLoop]
    simp [eol]

/-- What the loop has read: a unit that may start a range is still open to it. -/
theorem spells_of_classLoop {i index : ℕ} {before out : List (UInt16 × UInt16)}
    {start : Option UInt16} (h : c.classLoop l i before start = .ok (out, rest, index)) :
    (start = none → ∃ ranges, SpellsRanges l ranges rest ∧ out = before ++ ranges) ∧
    ∀ low front, start = some low → Plain low → before = front ++ [(low, low)] →
      ∃ ranges, SpellsRanges (low :: l) ranges rest ∧ out = front ++ ranges := by
  fun_induction classLoop c l i before start with
  | case1 | case3 | case4 | case5 | case6 | case8 => cases h
  | case2 =>
    cases h
    refine ⟨fun _ => ⟨[], .close _, by simp⟩, ?_⟩
    rintro low front - hlow rfl
    exact ⟨[(low, low)], .single hlow (.close _), rfl⟩
  | case7 =>
    cases h
    refine ⟨fun hstart => absurd hstart (by simp), ?_⟩
    rintro low front hstart hlow rfl
    cases hstart
    exact ⟨_, .dash hlow _, by simp⟩
  | case9 =>
    rename_i hnul hclose hle _ _ ih
    obtain ⟨ranges, hranges, hout⟩ := (ih h).1 rfl
    refine ⟨fun hstart => absurd hstart (by simp), ?_⟩
    rintro low front hstart hlow rfl
    cases hstart
    refine ⟨_, .range hlow hclose hnul (by simpa using hle) hranges, ?_⟩
    rw [hout, List.dropLast_concat, List.append_assoc]
    rfl
  | case10 =>
    rename_i hclose hslash hdash ih
    obtain ⟨ranges, hranges, hout⟩ := (ih h).2 _ _ rfl ⟨hclose, hslash, hdash⟩ rfl
    refine ⟨fun _ => ⟨ranges, hranges, hout⟩, ?_⟩
    rintro low front - hlow rfl
    refine ⟨_, .single hlow hranges, ?_⟩
    rw [hout, List.append_assoc]
    rfl

variable {unit : UInt16}

theorem peek_eq_iff (hunit : unit ≠ 0) : c.peek = unit ↔ c.rest.head? = some unit := by
  unfold peek eol
  cases c.rest with
  | nil => simpa using hunit.symm
  | cons => simp

/-- The units a class may begin with. -/
theorem classHead_cases (c : Compiler) :
    (∃ text, c.rest = 0x5e :: text ∧ c.classHead = (false, [(0x5e, 0x5e)], 1)) ∨
    (∃ text, c.rest = 0x2d :: text ∧ c.classHead = (false, [(0x2d, 0x2d)], 1)) ∨
    (∃ text, c.rest = 0x21 :: 0x2d :: text ∧ c.classHead = (true, [(0x2d, 0x2d)], 2)) ∨
    (∃ text, c.rest = 0x21 :: text ∧ text.head? ≠ some 0x2d ∧ c.classHead = (true, [], 1)) ∨
    (c.rest.head? ≠ some 0x5e ∧ c.rest.head? ≠ some 0x21 ∧ c.classHead = (false, [], 0)) := by
  obtain ⟨pattern, rest, index, emptyClass⟩ := c
  unfold classHead forward peek eol
  match rest with
  | [] => simp
  | [unit] =>
    by_cases hcaret : unit = 0x5e
    · simp [hcaret]
    · by_cases hmark : unit = 0x21
      · simp [hmark]
      · by_cases hdash : unit = 0x2d <;> simp [hcaret, hmark, hdash]
  | unit :: next :: text =>
    by_cases hcaret : unit = 0x5e
    · simp [hcaret]
    · by_cases hmark : unit = 0x21
      · by_cases hdash : next = 0x2d <;> simp [hmark, hdash]
      · by_cases hdash : unit = 0x2d <;> simp [hcaret, hmark, hdash]

/-- The head and the ranges of a class, put together. -/
theorem cls_ok {negated : Bool} {start : List (UInt16 × UInt16)} {skipped : ℕ}
    (hhead : c.classHead = (negated, start, skipped)) {k : Class} :
    (c.cls = .ok (k, c') ∧ c'.emptyClass = none) → c.emptyClass = none ∧
      ∃ ranges, SpellsRanges (c.rest.drop skipped) ranges c'.rest ∧
        k = { negated, ranges := start ++ ranges } ∧ start ++ ranges ≠ [] := by
  rintro ⟨h, hempty⟩
  unfold cls at h
  rw [hhead] at h
  dsimp only at h
  obtain ⟨⟨out, rest, index⟩, hloop, hdone⟩ := Results.bind_ok h
  cases hdone
  obtain ⟨ranges, hranges, rfl⟩ := (spells_of_classLoop hloop).1 rfl
  dsimp only at hempty
  split_ifs at hempty with hnone
  exact ⟨hempty, ranges, hranges, rfl, fun hnil => hnone ⟨hnil, hempty⟩⟩

variable {rest : List UInt16}

theorem cls_of_ranges {negated : Bool} {start ranges : List (UInt16 × UInt16)} {skipped : ℕ}
    (hhead : c.classHead = (negated, start, skipped))
    (hranges : SpellsRanges (c.rest.drop skipped) ranges rest) (hne : start ++ ranges ≠ [])
    (hempty : c.emptyClass = none) :
    ∃ c', c.cls = .ok ({ negated, ranges := start ++ ranges }, c') ∧ c'.rest = rest ∧ c'.emptyClass = none := by
  obtain ⟨index, hloop⟩ := classLoop_of_spells (c := c) hranges (c.index + skipped) start
  refine ⟨{ c with rest, index, emptyClass := none }, ?_, rfl, rfl⟩
  unfold cls
  rw [hhead]
  dsimp only
  rw [hloop]
  have hkept : (if start ++ ranges = [] ∧ c.emptyClass = none then some (index - 1) else c.emptyClass) = none := by
    rw [if_neg fun hnil => hne hnil.1, hempty]
  simp only [bind, Except.bind, hkept]
  rfl

theorem spellsClass_of_cls {k : Class} (h : c.cls = .ok (k, c')) (hempty : c'.emptyClass = none) :
    c.emptyClass = none ∧ SpellsClass c.rest k c'.rest := by
  rcases classHead_cases c with ⟨text, hrest, hhead⟩ | ⟨text, hrest, hhead⟩ | ⟨text, hrest, hhead⟩ |
    ⟨text, hrest, -, hhead⟩ | ⟨hcaret, hmark, hhead⟩
  all_goals
    obtain ⟨hnone, ranges, hranges, rfl, hne⟩ := cls_ok hhead ⟨h, hempty⟩
    refine ⟨hnone, ?_⟩
  · rw [hrest] at hranges ⊢
    exact .caret hranges
  · rw [hrest] at hranges ⊢
    exact .dash hranges
  · rw [hrest] at hranges ⊢
    exact .negatedDash hranges
  · rw [hrest] at hranges ⊢
    exact .negated hranges hne
  · exact .plain hcaret hmark hranges hne

theorem cls_of_spellsClass {k : Class} (h : SpellsClass c.rest k rest)
    (hempty : c.emptyClass = none) : ∃ c', c.cls = .ok (k, c') ∧ c'.rest = rest ∧ c'.emptyClass = none := by
  generalize hrest : c.rest = text at h
  cases h with
  | caret h =>
    have hhead : c.classHead = (false, [(0x5e, 0x5e)], 1) := by simp [classHead, peek, hrest]
    exact cls_of_ranges hhead (by rwa [hrest]) (by simp) hempty
  | dash h =>
    have hhead : c.classHead = (false, [(0x2d, 0x2d)], 1) := by simp [classHead, peek, forward, hrest]
    exact cls_of_ranges hhead (by rwa [hrest]) (by simp) hempty
  | negatedDash h =>
    have hhead : c.classHead = (true, [(0x2d, 0x2d)], 2) := by simp [classHead, peek, forward, hrest]
    exact cls_of_ranges hhead (by rwa [hrest]) (by simp) hempty
  | plain hcaret hmark h hne =>
    have hdash := head_of_spellsRanges h
    have hhead : c.classHead = (false, [], 0) := by
      rw [← hrest] at hcaret hmark hdash
      rcases classHead_cases c with ⟨_, hr, -⟩ | ⟨_, hr, -⟩ | ⟨_, hr, -⟩ | ⟨_, hr, -, -⟩ | ⟨-, -, hhead⟩
      · simp [hr] at hcaret
      · simp [hr] at hdash
      · simp [hr] at hmark
      · simp [hr] at hmark
      · exact hhead
    exact cls_of_ranges hhead (by rwa [hrest]) hne hempty
  | @negated tail _ _ h hne =>
    have hdash := head_of_spellsRanges h
    have hhead : c.classHead = (true, [], 1) := by
      have hpeek : (c.forward 1).peek ≠ 0x2d := by
        rw [Ne, peek_eq_iff (by decide)]
        simpa [forward, hrest] using hdash
      have hfirst : c.peek = 0x21 := by simp [peek, hrest]
      simp [classHead, hfirst, hpeek]
    exact cls_of_ranges hhead (by rwa [hrest]) hne hempty

variable {token : Token}

theorem spellsToken_of_token (h : c.token unit = .ok (token, c'))
    (hempty : c'.emptyClass = none) (hopen : unit ≠ 0x7b) (hclose : unit ≠ 0x7d) (hcomma : unit ≠ 0x2c) :
    c.emptyClass = none ∧ SpellsToken (unit :: c.rest) token c'.rest := by
  unfold Compiler.token at h
  split_ifs at h with hescape hcls hstar htwo hone
  · subst hescape
    split at h
    · cases h
    · next escaped rest hrest =>
      cases h
      refine ⟨hempty, ?_⟩
      simp only [forward, hrest]
      exact .escape escaped rest
  · subst hcls
    obtain ⟨⟨k, c₁⟩, hk, hdone⟩ := Results.bind_ok h
    cases hdone
    obtain ⟨hnone, hspells⟩ := spellsClass_of_cls hk hempty
    exact ⟨hnone, .cls hspells⟩
  · subst hstar
    cases h
    refine ⟨hempty, ?_⟩
    have hhead := (peek_eq_iff (by decide)).mp htwo
    cases hrest : c.rest with
    | nil => simp [hrest] at hhead
    | cons first rest =>
      rw [hrest] at hhead
      cases hhead
      simp only [forward, hrest]
      exact .across rest
  · subst hstar
    cases h
    exact ⟨hempty, .within fun hhead => htwo ((peek_eq_iff (by decide)).mpr hhead)⟩
  · subst hone
    cases h
    exact ⟨hempty, .one _⟩
  · cases h
    exact ⟨hempty, .literal ⟨hescape, hcls, hstar, hone, hopen, hclose, hcomma⟩ _⟩

theorem token_of_spellsToken (h : SpellsToken (unit :: c.rest) token rest) (hempty : c.emptyClass = none) :
    unit ≠ 0x7b ∧ unit ≠ 0x7d ∧ unit ≠ 0x2c ∧
      ∃ c', c.token unit = .ok (token, c') ∧ c'.rest = rest ∧ c'.emptyClass = none := by
  generalize htext : unit :: c.rest = text at h
  cases h with
  | escape escaped =>
    obtain ⟨rfl, hrest⟩ := List.cons.inj htext
    refine ⟨by decide, by decide, by decide, c.forward 1, ?_, ?_, hempty⟩
    · simp [Compiler.token, hrest]
    · simp [forward, hrest]
  | cls h =>
    obtain ⟨rfl, hrest⟩ := List.cons.inj htext
    obtain ⟨c', hcls, hdone⟩ := cls_of_spellsClass (c := c) (hrest ▸ h) hempty
    refine ⟨by decide, by decide, by decide, c', ?_, hdone⟩
    simp only [Compiler.token, hcls]
    rfl
  | across =>
    obtain ⟨rfl, hrest⟩ := List.cons.inj htext
    refine ⟨by decide, by decide, by decide, c.forward 1, ?_, ?_, hempty⟩
    · simp [Compiler.token, peek, hrest]
    · simp [forward, hrest]
  | within h =>
    obtain ⟨rfl, rfl⟩ := List.cons.inj htext
    have hpeek : ¬ c.peek = 0x2a := fun hpeek => h ((peek_eq_iff (by decide)).mp hpeek)
    refine ⟨by decide, by decide, by decide, c, ?_, rfl, hempty⟩
    simp [Compiler.token, hpeek]
  | one =>
    obtain ⟨rfl, rfl⟩ := List.cons.inj htext
    exact ⟨by decide, by decide, by decide, c, rfl, rfl, hempty⟩
  | literal hordinary =>
    obtain ⟨rfl, rfl⟩ := List.cons.inj htext
    obtain ⟨hescape, hcls, hstar, hone, hopen, hclose, hcomma⟩ := hordinary
    refine ⟨hopen, hclose, hcomma, c, ?_, rfl, hempty⟩
    simp [Compiler.token, hescape, hcls, hstar, hone]

variable {b : Building}

theorem compileLoop_nil (h : c.rest = []) : c.compileLoop b = c.finish b := by
  rw [compileLoop]
  split
  · rfl
  · next h' =>
    rw [h] at h'
    cases h'

theorem compileLoop_cons (h : c.rest = unit :: rest) :
    c.compileLoop b = (c.forward 1).turn b unit >>= fun r => r.1.compileLoop r.2 := by
  rw [compileLoop]
  split
  · next h' =>
    rw [h] at h'
    cases h'
  · next h' =>
    rw [h] at h'
    cases h'
    split
    · next e hturn => rw [hturn]; rfl
    · next hturn => rw [hturn]; rfl

theorem compileLoop_turn {b b' : Building} (h : c.rest = unit :: rest)
    (hturn : (c.forward 1).turn b unit = .ok (c', b')) : c.compileLoop b = c'.compileLoop b' := by
  rw [compileLoop_cons h, hturn]
  rfl

/-- The units still to come make some tokens out of what has been compiled. -/
def Continues (text : List UInt16) (b : Building) (tokens : List Token) : Prop :=
  match b.group with
  | none => ∃ more, Spells text more ∧ tokens = b.top ++ more
  | some (alternatives, current) => ∃ first others rest more, SpellsGroup text first others rest ∧
      Spells rest more ∧ tokens = b.top ++ .group (alternatives ++ (current ++ first) :: others) :: more

variable {tokens : List Token} {text rest : List UInt16}

theorem Continues.push (htoken : SpellsToken text token rest) (h : Continues rest (b.push token) tokens) :
    Continues text b tokens := by
  obtain ⟨top, group⟩ := b
  unfold Continues Building.push at *
  cases group with
  | none =>
    obtain ⟨more, hmore, rfl⟩ := h
    exact ⟨token :: more, .token htoken hmore, by simp⟩
  | some open' =>
    obtain ⟨first, others, after, more, hgroup, hmore, rfl⟩ := h
    exact ⟨token :: first, others, after, more, .token htoken hgroup, hmore, by simp⟩

theorem Continues.stray (hunit : unit = 0x7d ∨ unit = 0x2c) (hb : b.group = none)
    (h : Continues rest (b.push (.literal unit)) tokens) : Continues (unit :: rest) b tokens := by
  obtain ⟨top, group⟩ := b
  subst hb
  unfold Continues Building.push at *
  obtain ⟨more, hmore, rfl⟩ := h
  exact ⟨.literal unit :: more, .stray hunit hmore, by simp⟩

theorem continues_of_turn {b b' : Building}
    (hturn : c.turn b unit = .ok (c', b')) (hempty : c'.emptyClass = none)
    (h : Continues c'.rest b' tokens) : c.emptyClass = none ∧ Continues (unit :: c.rest) b tokens := by
  unfold turn at hturn
  split_ifs at hturn with hopen hsome hclose hcomma
  · subst hopen
    have hnone : b.group = none := by simpa using hsome
    cases hturn
    obtain ⟨first, others, rest, more, hgroup, hmore, rfl⟩ := h
    refine ⟨hempty, ?_⟩
    unfold Continues
    rw [hnone]
    exact ⟨.group (first :: others) :: more, .group hgroup hmore, by simp⟩
  · subst hclose
    split at hturn
    · next alternatives current hgroup =>
      cases hturn
      obtain ⟨more, hmore, rfl⟩ := h
      refine ⟨hempty, ?_⟩
      unfold Continues
      rw [hgroup]
      exact ⟨[], [], _, more, .close _, hmore, by simp⟩
    · next hnone =>
      cases hturn
      exact ⟨hempty, h.stray (.inl rfl) hnone⟩
  · subst hcomma
    split at hturn
    · next alternatives current hgroup =>
      cases hturn
      obtain ⟨first, others, rest, more, hspells, hmore, rfl⟩ := h
      refine ⟨hempty, ?_⟩
      unfold Continues
      rw [hgroup]
      exact ⟨[], first :: others, rest, more, .comma hspells, hmore, by simp⟩
    · next hnone =>
      cases hturn
      exact ⟨hempty, h.stray (.inr rfl) hnone⟩
  · obtain ⟨⟨token, c₁⟩, htoken, hdone⟩ := Results.bind_ok hturn
    cases hdone
    obtain ⟨hnone, hspells⟩ := spellsToken_of_token htoken hempty hopen hclose hcomma
    exact ⟨hnone, h.push hspells⟩

theorem continues_of_compileLoop (h : c.compileLoop b = .ok tokens) :
    c.emptyClass = none ∧ Continues c.rest b tokens := by
  induction hn : c.rest.length using Nat.strong_induction_on generalizing c b with
  | h n ih =>
    cases hrest : c.rest with
    | nil =>
      rw [compileLoop_nil hrest] at h
      unfold finish at h
      split_ifs at h with hsome
      have hnone : b.group = none := by simpa using hsome
      split at h
      · cases h
      · next hempty =>
        cases h
        refine ⟨hempty, ?_⟩
        unfold Continues
        rw [hnone]
        exact ⟨[], .nil, by simp⟩
    | cons unit rest =>
      rw [compileLoop_cons hrest] at h
      obtain ⟨⟨c', b'⟩, hturn, hloop⟩ := Results.bind_ok h
      have hlength := turn_length hturn
      simp only [forward, hrest, List.drop_succ_cons, List.drop_zero] at hlength
      rw [hrest, List.length_cons] at hn
      obtain ⟨hempty, hcontinues⟩ := ih c'.rest.length (by omega) hloop rfl
      obtain ⟨hnone, hdone⟩ := continues_of_turn hturn hempty hcontinues
      simp only [forward, hrest, List.drop_succ_cons, List.drop_zero] at hnone hdone
      exact ⟨hnone, hdone⟩

theorem turn_of_spellsToken (h : SpellsToken (unit :: c.rest) token rest) (hempty : c.emptyClass = none) :
    ∃ c', c.turn b unit = .ok (c', b.push token) ∧ c'.rest = rest ∧ c'.emptyClass = none := by
  obtain ⟨hopen, hclose, hcomma, c', htoken, hdone⟩ := token_of_spellsToken h hempty
  refine ⟨c', ?_, hdone⟩
  unfold turn
  rw [if_neg hopen, if_neg hclose, if_neg hcomma, htoken]
  rfl

/-- A token in front of the compiler is compiled and passed. -/
theorem compileLoop_of_spellsToken
    (h : SpellsToken text token rest) (b : Building) (hrest : c.rest = text) (hempty : c.emptyClass = none) :
    ∃ c' : Compiler, c'.rest = rest ∧ c'.emptyClass = none ∧
      c.compileLoop b = c'.compileLoop (b.push token) := by
  obtain ⟨unit, tail, rfl⟩ : ∃ unit tail, text = unit :: tail := by
    cases h <;> exact ⟨_, _, rfl⟩
  have hforward : (c.forward 1).rest = tail := by simp [forward, hrest]
  obtain ⟨c', hturn, hdone, hnone⟩ := turn_of_spellsToken (c := c.forward 1) (b := b) (hforward ▸ h) hempty
  refine ⟨c', hdone, hnone, ?_⟩
  exact compileLoop_turn hrest hturn

theorem compileLoop_of_spellsGroup {first : List Token} {others : List (List Token)}
    (h : SpellsGroup text first others rest) (top : List Token) (alternatives : List (List Token))
    (current : List Token) (hrest : c.rest = text) (hempty : c.emptyClass = none) :
    ∃ c' : Compiler, c'.rest = rest ∧ c'.emptyClass = none ∧
      c.compileLoop { top, group := some (alternatives, current) } =
        c'.compileLoop { top := top ++ [.group (alternatives ++ (current ++ first) :: others)], group := none } := by
  induction h generalizing c alternatives current with
  | close rest =>
    refine ⟨c.forward 1, by simp [forward, hrest], hempty, ?_⟩
    rw [List.append_nil]
    exact compileLoop_turn hrest rfl
  | @comma text rest first others h ih =>
    have hforward : (c.forward 1).rest = text := by simp [forward, hrest]
    have hturn : (c.forward 1).turn { top, group := some (alternatives, current) } 0x2c =
        .ok (c.forward 1, { top, group := some (alternatives ++ [current], []) }) := rfl
    obtain ⟨c', hdone, hnone, hloop⟩ := ih (alternatives ++ [current]) [] hforward hempty
    refine ⟨c', hdone, hnone, ?_⟩
    rw [compileLoop_turn hrest hturn]
    simpa using hloop
  | @token _ _ _ token first others htoken h ih =>
    obtain ⟨c₁, hrest₁, hempty₁, hstep⟩ := compileLoop_of_spellsToken htoken _ hrest hempty
    obtain ⟨c', hdone, hnone, hloop⟩ := ih alternatives (current ++ [token]) hrest₁ hempty₁
    refine ⟨c', hdone, hnone, ?_⟩
    rw [hstep]
    simpa [Building.push] using hloop

theorem compileLoop_of_spells {text : List UInt16} (h : Spells text tokens)
    (top : List Token) (hrest : c.rest = text) (hempty : c.emptyClass = none) :
    c.compileLoop { top, group := none } = .ok (top ++ tokens) := by
  induction h generalizing c top with
  | nil =>
    rw [compileLoop_nil hrest]
    simp [finish, hempty]
  | @token _ _ token _ htoken h ih =>
    obtain ⟨c₁, hrest₁, hempty₁, hstep⟩ := compileLoop_of_spellsToken htoken _ hrest hempty
    rw [hstep]
    have hpush : Building.push { top, group := none } token = { top := top ++ [token], group := none } := rfl
    rw [hpush, ih (top ++ [token]) hrest₁ hempty₁, List.append_assoc]
    rfl
  | @stray unit rest _ hunit h ih =>
    have hforward : (c.forward 1).rest = rest := by simp [forward, hrest]
    have hturn : (c.forward 1).turn { top, group := none } unit =
        .ok (c.forward 1, { top := top ++ [.literal unit], group := none }) := by
      rcases hunit with rfl | rfl <;> rfl
    rw [compileLoop_turn hrest hturn, ih (top ++ [Token.literal unit]) hforward hempty, List.append_assoc]
    rfl
  | @group text _ _ _ _ hgroup h ih =>
    have hforward : (c.forward 1).rest = text := by simp [forward, hrest]
    have hturn : (c.forward 1).turn { top, group := none } 0x7b =
        .ok (c.forward 1, { top, group := some ([], []) }) := rfl
    obtain ⟨c', hrest', hempty', hloop⟩ := compileLoop_of_spellsGroup hgroup top [] [] hforward hempty
    rw [compileLoop_turn hrest hturn, hloop, ih _ hrest' hempty', List.append_assoc]
    rfl

end Compiler

/-- The compiler accepts the patterns of the grammar, and makes the tokens they spell. -/
theorem compile_eq_ok_iff {pattern : String} {glob : Glob} :
    Glob.compile pattern = .ok glob ↔ Spells (Utf16.encode pattern) glob.tokens := by
  constructor
  · intro h
    obtain ⟨tokens, hloop, hdone⟩ := Results.bind_ok h
    cases hdone
    obtain ⟨-, more, hmore, rfl⟩ := Compiler.continues_of_compileLoop hloop
    simpa [Compiler.new] using hmore
  · intro h
    have hloop := Compiler.compileLoop_of_spells (c := Compiler.new pattern) h [] rfl rfl
    unfold Glob.compile
    rw [hloop]
    rfl

/-- The words that some tokens spelled by a pattern stand for. -/
def patternLanguage (pattern : List UInt16) : Language UInt16 :=
  {w | ∃ tokens, Spells pattern tokens ∧ w ∈ sequenceLanguage tokens}

/-- An accepted pattern spells one row of tokens, and on every path the search ends within a depth that
only the pattern bounds, accepting exactly the paths of the language that the pattern denotes. -/
theorem glob_matches_iff {pattern : String} {glob : Glob} (h : Glob.compile pattern = .ok glob) :
    (∃! tokens, Spells (Utf16.encode pattern) tokens) ∧
    ∃ bound, ∀ depth ≥ bound, ∀ path : String, ∃ accepted,
      glob.matches depth path = some accepted ∧
        (accepted = true ↔ Utf16.encode path ∈ patternLanguage (Utf16.encode pattern)) := by
  have hspells := compile_eq_ok_iff.mp h
  have hunique : ∀ tokens, Spells (Utf16.encode pattern) tokens → tokens = glob.tokens := by
    intro tokens htokens
    have h' := compile_eq_ok_iff.mpr (show Spells _ (Glob.mk tokens).tokens from htokens)
    rw [h] at h'
    cases h'
    rfl
  refine ⟨⟨glob.tokens, hspells, hunique⟩, framesWeight [glob.tokens] + 1, fun depth hdepth path => ?_⟩
  obtain ⟨accepted, hmatches, hiff⟩ :=
    matchFrames_decides depth [glob.tokens] (Utf16.encode path) hdepth
  refine ⟨accepted, hmatches, hiff.trans ?_⟩
  unfold framesLanguage
  rw [List.map_singleton, List.prod_singleton]
  constructor
  · exact fun hmem => ⟨glob.tokens, hspells, hmem⟩
  · rintro ⟨tokens, htokens, hmem⟩
    rwa [hunique tokens htokens] at hmem

theorem glob_matches_iff_sample : ∃ glob, Glob.compile "\x7ba,b\x7d/*" = .ok glob ∧
    ∃ bound, ∀ depth ≥ bound, ∀ path : String, ∃ accepted,
      glob.matches depth path = some accepted ∧
        (accepted = true ↔ Utf16.encode path ∈ patternLanguage (Utf16.encode "\x7ba,b\x7d/*")) := by
  have htext : Utf16.encode "\x7ba,b\x7d/*" = [0x7b, 0x61, 0x2c, 0x62, 0x7d, 0x2f, 0x2a] := by decide
  have hspells : Spells (Utf16.encode "\x7ba,b\x7d/*")
      [.group [[.literal 0x61], [.literal 0x62]], .literal 0x2f, .withinSegment] := by
    have ha : Ordinary 0x61 := by unfold Ordinary; decide
    have hb : Ordinary 0x62 := by unfold Ordinary; decide
    have hslash : Ordinary 0x2f := by unfold Ordinary; decide
    rw [htext]
    refine .group (.token (.literal ha _) (.comma (.token (.literal hb _) (.close _)))) ?_
    exact .token (.literal hslash _) (.token (.within (by decide)) .nil)
  have hcompile := compile_eq_ok_iff.mpr (show Spells _ (Glob.mk _).tokens from hspells)
  exact ⟨_, hcompile, (glob_matches_iff hcompile).2⟩

end Krusty.Toolchain.Globs
