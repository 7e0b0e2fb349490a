import Krusty.Resolve.WhenExhaustiveness

/-! The missing branches are those of the uncovered leaves, where the walk sees every way to a leaf. -/
namespace Krusty.Resolve

open Relation Closure Folds

def exclusionClassifier : FlowExclusion → Option TypeName
  | .classifier classifier => some classifier
  | .singleton classifier => some classifier
  | _ => none

def FlowExclusion.isNull : FlowExclusion → Bool
  | .null => true
  | _ => false

namespace Checker

variable {Scope NarrowPath : Type} (self : Checker Scope NarrowPath)

/-- A sealed subclass of the subject, or a descendant of one. -/
def Below (subclasses : List TypeName) (c : TypeName) : Prop :=
  ∃ d ∈ subclasses, ReflTransGen (Edge self.sealedSubclasses) d c

/-- The condition names `c`: it tests for its type, nullable or not, or is an object of it. -/
def Names (scope : Scope) (condition : ExprId) (c : TypeName) : Prop :=
  match self.expr condition with
  | .is _ ty false => (self.testedType scope ty).nonNull = .obj c
  | .name _ => self.conditionObject condition = some c
  | .member _ _ => self.conditionObject condition = some c
  | _ => False

/-- The condition names `c` other than by a nullable type. -/
def NamesPlainly (scope : Scope) (condition : ExprId) (c : TypeName) : Prop :=
  match self.expr condition with
  | .is _ ty false => self.testedType scope ty = .obj c
  | .name _ => self.conditionObject condition = some c
  | .member _ _ => self.conditionObject condition = some c
  | _ => False

def isNull (condition : ExprId) : Bool :=
  match self.expr condition with
  | .nullLit => true
  | _ => false

section Arms

variable (scope : Scope) (subjectExpression : Option ExprId) (arms : List WhenArm)

/-- A flow exclusion or an arm without a guard names `c`. -/
def Named (c : TypeName) : Prop :=
  (∃ exclusion ∈ self.exclusions scope subjectExpression, exclusionClassifier exclusion = some c) ∨
    ∃ condition ∈ plainConditions arms, self.Names scope condition c

def NamedPlainly (c : TypeName) : Prop :=
  (∃ exclusion ∈ self.exclusions scope subjectExpression, exclusionClassifier exclusion = some c) ∨
    ∃ condition ∈ plainConditions arms, self.NamesPlainly scope condition c

def nullNamed : Bool :=
  (self.exclusions scope subjectExpression).any FlowExclusion.isNull || (plainConditions arms).any self.isNull

/-- A leaf under the subject that is not named, nor is any of its ancestors under the subject. -/
def Uncovered (subclasses : List TypeName) (c : TypeName) : Prop :=
  self.Below subclasses c ∧ self.sealedSubclasses c = [] ∧ ∀ a, self.Below subclasses a →
    ReflTransGen (Edge self.sealedSubclasses) a c → ¬self.Named scope subjectExpression arms a

/-- `missing` is made of the uncovered leaves, each once, and of null where the subject admits it. -/
structure Decides (subject : Ty) (subclasses classes : List TypeName) (missing : List String) : Prop where
  nodup : classes.Nodup
  mem_iff : ∀ c, c ∈ classes ↔ self.Uncovered scope subjectExpression arms subclasses c
  missing_eq : missing = classes.map self.branch ++
    if subject.isNullable && !self.nullNamed scope subjectExpression arms then ["null"] else []
  empty_iff : missing = [] ↔ (∀ c, self.Below subclasses c → self.sealedSubclasses c = [] →
      ∃ a, self.Below subclasses a ∧ ReflTransGen (Edge self.sealedSubclasses) a c ∧
        self.Named scope subjectExpression arms a) ∧
    (subject.isNullable → self.nullNamed scope subjectExpression arms)

/-- The function returns some branches, and these decide the `when`. -/
def Exact (subject : Ty) (subclasses : List TypeName) : Prop :=
  ∃ missing, self.whenSealedMissingBranches scope subjectExpression (some subject) arms = some missing ∧
    self.Decides scope subjectExpression arms subject subclasses (self.uncovered
      (self.coverage scope subjectExpression arms (self.sealedDescendants subclasses)).covered subclasses) missing

/-- The trails from the subject's subclasses whose classifiers no flow exclusion, plain type test or object names. -/
def OpenTrail (subclasses : List TypeName) (n : ℕ) (c : TypeName) : Prop :=
  ∃ d ∈ subclasses, Trail self.sealedSubclasses (self.NamedPlainly scope subjectExpression arms) n d c

/-- No open trail reaches a sealed classifier in sixteen steps, and no leaf on one has a named ancestor, nor is named by
a nullable type. -/
def SeesEveryWay (subclasses : List TypeName) : Prop :=
  (∀ c, self.OpenTrail scope subjectExpression arms subclasses 16 c → self.sealedSubclasses c = []) ∧
    ∀ n c, self.OpenTrail scope subjectExpression arms subclasses n c → self.sealedSubclasses c = [] →
      ∀ a, self.Below subclasses a → ReflTransGen (Edge self.sealedSubclasses) a c →
        ¬self.Named scope subjectExpression arms a

end Arms

variable {self} {scope : Scope} {subjectExpression : Option ExprId} {arms : List WhenArm} {subclasses : List TypeName}
  {c : TypeName}

theorem mem_keys_of_sealedSubclasses (h : self.sealedSubclasses c ≠ []) : c ∈ self.classifiers.keys := by
  by_contra hnot
  have hnone : self.classifiers.lookup c = none := AList.lookup_eq_none.mpr hnot
  rw [sealedSubclasses, resolvedTypeName, hnone] at h
  exact h rfl

theorem mem_sealedDescendants : c ∈ self.sealedDescendants subclasses ↔ self.Below subclasses c := by
  have hfuel : subclasses.reverse.length + edgesLeft self.sealedSubclasses self.classifiers.keys [] ≤
      subclasses.length + (self.classifiers.keys.map fun name => (self.sealedSubclasses name).length).sum := by
    rw [List.length_reverse]
    simp [edgesLeft]
  have hclosed : Closed self.sealedSubclasses [] subclasses.reverse := fun a ha => absurd ha List.not_mem_nil
  rw [sealedDescendants, mem_close (fun a => mem_keys_of_sealedSubclasses) hclosed hfuel]
  simp [Reached, Below]

variable {descendants : List TypeName} {coverage : Coverage}

/-- A classifier is only remembered when it is under the subject. -/
theorem mem_remember {classifier : TypeName} : c ∈ (if descendants.contains classifier then
      { coverage with covered := classifier :: coverage.covered } else coverage).covered ↔
      c ∈ coverage.covered ∨ classifier = c ∧ c ∈ descendants := by
  split_ifs with h
  · have hmem := List.contains_iff_mem.mp h
    rw [List.mem_cons]
    constructor
    · intro hc
      cases hc with
      | inl hc => exact .inr ⟨hc.symm, hc ▸ hmem⟩
      | inr hc => exact .inl hc
    · intro hc
      cases hc with
      | inl hc => exact .inr hc
      | inr hc => exact .inl hc.1.symm
  · have hmem : classifier ∉ descendants := fun hmem => h (List.contains_iff_mem.mpr hmem)
    constructor
    · exact .inl
    · intro hc
      cases hc with
      | inl hc => exact hc
      | inr hc => exact absurd (hc.1 ▸ hc.2) hmem

theorem mem_coverExclusion {exclusion : FlowExclusion} :
    c ∈ (coverExclusion descendants coverage exclusion).covered ↔
      c ∈ coverage.covered ∨ exclusionClassifier exclusion = some c ∧ c ∈ descendants := by
  cases exclusion with
  | classifier classifier =>
    rw [exclusionClassifier, Option.some.injEq]
    exact mem_remember
  | singleton classifier =>
    rw [exclusionClassifier, Option.some.injEq]
    exact mem_remember
  | _ => simp [coverExclusion, exclusionClassifier]

theorem coversNull_coverExclusion {exclusion : FlowExclusion} :
    (coverExclusion descendants coverage exclusion).coversNull = true ↔
      coverage.coversNull = true ∨ exclusion.isNull = true := by
  cases exclusion with
  | classifier classifier =>
    rw [coverExclusion]
    split_ifs <;> simp [FlowExclusion.isNull]
  | singleton classifier =>
    rw [coverExclusion]
    split_ifs <;> simp [FlowExclusion.isNull]
  | _ => simp [coverExclusion, FlowExclusion.isNull]

variable {condition : ExprId}

theorem mem_coverObject : c ∈ (self.coverObject descendants coverage condition).covered ↔
      c ∈ coverage.covered ∨ self.conditionObject condition = some c ∧ c ∈ descendants := by
  rw [coverObject]
  cases self.conditionObject condition with
  | none => simp
  | some object => simpa using mem_remember

theorem coversNull_coverObject :
    (self.coverObject descendants coverage condition).coversNull = coverage.coversNull := by
  rw [coverObject]
  cases self.conditionObject condition with
  | none => rfl
  | some object =>
    dsimp only
    split_ifs <;> rfl

/-- A type test is remembered whatever it names; it matters only under the subject. -/
theorem mem_coverCondition
    (hc : c ∈ descendants) : c ∈ (self.coverCondition scope descendants coverage condition).covered ↔
      c ∈ coverage.covered ∨ self.NamesPlainly scope condition c := by
  rw [coverCondition, NamesPlainly]
  cases self.expr condition with
  | is operand ty negated =>
    cases negated with
    | true => simp
    | false =>
      cases htested : self.testedType scope ty with
      | obj internal =>
        simp only [htested, List.mem_cons, Ty.obj.injEq]
        exact or_comm.trans (or_congr_right eq_comm)
      | _ => simp [htested]
  | name _ => simp [mem_coverObject, hc]
  | member _ _ => simp [mem_coverObject, hc]
  | _ => simp

theorem coversNull_coverCondition :
    (self.coverCondition scope descendants coverage condition).coversNull = true ↔
      coverage.coversNull = true ∨ self.isNull condition = true := by
  rw [coverCondition, isNull]
  cases self.expr condition with
  | is operand ty negated =>
    cases negated with
    | true => simp
    | false => cases htested : self.testedType scope ty <;> simp [htested]
  | name _ => simp [coversNull_coverObject]
  | member _ _ => simp [coversNull_coverObject]
  | _ => simp

theorem mem_coverage (hc : c ∈ descendants) :
    c ∈ (self.coverage scope subjectExpression arms descendants).covered ↔
      self.NamedPlainly scope subjectExpression arms c := by
  have hexclusions := foldl_or (p := fun coverage : Coverage => c ∈ coverage.covered) (f := coverExclusion descendants)
    (fun coverage exclusion => mem_coverExclusion) (self.exclusions scope subjectExpression) ⟨[], false⟩
  have hconditions := foldl_or (p := fun coverage : Coverage => c ∈ coverage.covered)
    (f := self.coverCondition scope descendants) fun coverage condition => mem_coverCondition hc
  rw [coverage, NamedPlainly, hconditions, hexclusions]
  simp [hc]

theorem coversNull_coverage : (self.coverage scope subjectExpression arms descendants).coversNull =
      self.nullNamed scope subjectExpression arms := by
  have hexclusions := foldl_or (p := fun coverage : Coverage => coverage.coversNull = true)
    (f := coverExclusion descendants) (fun coverage exclusion => coversNull_coverExclusion)
    (self.exclusions scope subjectExpression) ⟨[], false⟩
  have hconditions := foldl_or (p := fun coverage : Coverage => coverage.coversNull = true)
    (f := self.coverCondition scope descendants) fun coverage condition => coversNull_coverCondition
  rw [Bool.eq_iff_iff, coverage, nullNamed, hconditions, hexclusions]
  simp

/-! The walk. -/

theorem mem_uncoveredLeaves {covered : List TypeName} {left : ℕ} {a : TypeName} :
    c ∈ self.uncoveredLeaves covered left a ↔
      ∃ n ≤ left, Trail self.sealedSubclasses (· ∈ covered) n a c ∧ (self.sealedSubclasses c = [] ∨ n = left) := by
  induction left generalizing a with
  | zero =>
    rw [uncoveredLeaves]
    constructor
    · intro h
      split_ifs at h with ha
      · cases h
      · have hca : c = a := List.mem_singleton.mp h
        rw [hca]
        exact ⟨0, le_refl 0, .refl fun hmem => ha (List.contains_iff_mem.mpr hmem), .inr rfl⟩
    · intro h
      obtain ⟨n, hn, htrail, -⟩ := h
      cases htrail with
      | refl ha =>
        rw [if_neg fun hmem => ha (List.contains_iff_mem.mp hmem)]
        exact List.mem_singleton_self c
      | head => exact absurd hn (Nat.not_succ_le_zero _)
  | succ left ih =>
    rw [uncoveredLeaves]
    dsimp only
    split_ifs with hcovered hnested
    · constructor
      · intro h
        cases h
      · intro h
        obtain ⟨n, -, htrail, -⟩ := h
        exact absurd (List.contains_iff_mem.mp hcovered) htrail.start
    · have hleaf : self.sealedSubclasses a = [] := List.isEmpty_iff.mp hnested
      have ha : a ∉ covered := fun hmem => hcovered (List.contains_iff_mem.mpr hmem)
      constructor
      · intro h
        have hca : c = a := List.mem_singleton.mp h
        rw [hca]
        exact ⟨0, Nat.zero_le _, .refl ha, .inl hleaf⟩
      · intro h
        obtain ⟨n, -, htrail, -⟩ := h
        cases htrail with
        | refl => exact List.mem_singleton_self c
        | head _ edge _ => exact absurd hleaf (List.ne_nil_of_mem edge)
    · have ha : a ∉ covered := fun hmem => hcovered (List.contains_iff_mem.mpr hmem)
      have hne : self.sealedSubclasses a ≠ [] := fun hnil => hnested (List.isEmpty_iff.mpr hnil)
      rw [List.mem_flatMap]
      constructor
      · intro h
        obtain ⟨b, hb, hc⟩ := h
        obtain ⟨n, hn, htrail, hend⟩ := ih.mp hc
        refine ⟨n + 1, Nat.succ_le_succ hn, .head ha hb htrail, ?_⟩
        cases hend with
        | inl hleaf => exact .inl hleaf
        | inr hlast => exact .inr (congrArg (· + 1) hlast)
      · intro h
        obtain ⟨n, hn, htrail, hend⟩ := h
        cases htrail with
        | refl =>
          cases hend with
          | inl hleaf => exact absurd hleaf hne
          | inr hlast => cases hlast
        | @head n _ b _ _ edge rest =>
          refine ⟨b, edge, ih.mpr ⟨n, Nat.le_of_succ_le_succ hn, rest, ?_⟩⟩
          cases hend with
          | inl hleaf => exact .inl hleaf
          | inr hlast => exact .inr (Nat.succ.inj hlast)

theorem nodup_uncovered {covered : List TypeName} : (self.uncovered covered subclasses).Nodup := by
  have hsorted := List.pairwise_insertionSort (· ≤ ·) (subclasses.flatMap (self.uncoveredLeaves covered 16))
  exact (SortedSets.pairwise_unique hsorted).nodup

theorem mem_uncovered : c ∈ self.uncovered (self.coverage scope subjectExpression arms
      (self.sealedDescendants subclasses)).covered subclasses ↔
    ∃ n ≤ 16, self.OpenTrail scope subjectExpression arms subclasses n c ∧
      (self.sealedSubclasses c = [] ∨ n = 16) := by
  have hsame {d a : TypeName} (hd : d ∈ subclasses) (ha : ReflTransGen (Edge self.sealedSubclasses) d a) :=
    @mem_coverage _ _ self scope subjectExpression arms _ _
      (mem_sealedDescendants.mpr ⟨d, hd, ha⟩)
  rw [uncovered, SortedSets.mem_unique, List.mem_insertionSort, List.mem_flatMap]
  constructor
  · intro h
    obtain ⟨d, hd, hc⟩ := h
    obtain ⟨n, hn, htrail, hend⟩ := mem_uncoveredLeaves.mp hc
    exact ⟨n, hn, ⟨d, hd, htrail.congr fun a ha => hsame hd ha⟩, hend⟩
  · intro h
    obtain ⟨n, hn, ⟨d, hd, htrail⟩, hend⟩ := h
    exact ⟨d, hd, mem_uncoveredLeaves.mpr ⟨n, hn, htrail.congr fun a ha => (hsame hd ha).symm, hend⟩⟩

theorem namedPlainly_named (h : self.NamedPlainly scope subjectExpression arms c) :
    self.Named scope subjectExpression arms c := by
  cases h with
  | inl h => exact .inl h
  | inr h =>
    obtain ⟨condition, hcondition, h⟩ := h
    refine .inr ⟨condition, hcondition, ?_⟩
    rw [NamesPlainly] at h
    rw [Names]
    split at h <;> simp_all [Ty.nonNull]

/-- An uncovered leaf is reached past no named classifier. -/
theorem Uncovered.openTrail (h : self.Uncovered scope subjectExpression arms subclasses c) :
    ∃ n, self.OpenTrail scope subjectExpression arms subclasses n c := by
  obtain ⟨⟨d, hd, hdc⟩, -, hnamed⟩ := h
  have hfree (a : TypeName) (hda : ReflTransGen (Edge self.sealedSubclasses) d a)
      (hac : ReflTransGen (Edge self.sealedSubclasses) a c) : ¬self.NamedPlainly scope subjectExpression arms a :=
    fun hplain => hnamed a ⟨d, hd, hda⟩ hac (namedPlainly_named hplain)
  obtain ⟨n, hn⟩ := exists_trail hdc hfree
  exact ⟨n, d, hd, hn⟩

theorem OpenTrail.through {n m : ℕ} (h : self.OpenTrail scope subjectExpression arms subclasses n c) (hm : m < n) :
    ∃ a, self.OpenTrail scope subjectExpression arms subclasses m a ∧ self.sealedSubclasses a ≠ [] := by
  obtain ⟨d, hd, htrail⟩ := h
  obtain ⟨a, ha, hne⟩ := htrail.through hm
  exact ⟨a, ⟨d, hd, ha⟩, hne⟩

/-- The walk ends at the uncovered leaves, if it is not cut short and every leaf it reaches has no named ancestor. -/
theorem mem_uncovered_iff_uncovered_iff : (∀ c, c ∈ self.uncovered (self.coverage scope subjectExpression arms
      (self.sealedDescendants subclasses)).covered subclasses ↔
        self.Uncovered scope subjectExpression arms subclasses c) ↔
    self.SeesEveryWay scope subjectExpression arms subclasses := by
  constructor
  · intro h
    have hdepth : ∀ c, self.OpenTrail scope subjectExpression arms subclasses 16 c → self.sealedSubclasses c = [] := by
      intro c hc
      exact ((h c).mp (mem_uncovered.mpr ⟨16, le_refl 16, hc, .inr rfl⟩)).2.1
    constructor
    · exact hdepth
    · intro n c hc hleaf
      by_cases hn : n ≤ 16
      · exact ((h c).mp (mem_uncovered.mpr ⟨n, hn, hc, .inl hleaf⟩)).2.2
      · obtain ⟨a, ha, hne⟩ := hc.through (Nat.lt_of_not_le hn)
        exact absurd (hdepth a ha) hne
  · intro h c
    obtain ⟨hdepth, hnamed⟩ := h
    rw [mem_uncovered]
    constructor
    · intro hmem
      obtain ⟨n, -, hc, hend⟩ := hmem
      have hleaf : self.sealedSubclasses c = [] := by
        cases hend with
        | inl hleaf => exact hleaf
        | inr hlast => exact hdepth c (hlast ▸ hc)
      have hbelow : self.Below subclasses c := by
        obtain ⟨d, hd, htrail⟩ := hc
        exact ⟨d, hd, htrail.reaches⟩
      exact ⟨hbelow, hleaf, hnamed n c hc hleaf⟩
    · intro hc
      obtain ⟨n, hn⟩ := hc.openTrail
      have hle : n ≤ 16 := by
        by_contra hlt
        obtain ⟨a, ha, hne⟩ := hn.through (Nat.lt_of_not_le hlt)
        exact hne (hdepth a ha)
      exact ⟨n, hle, hn, .inl hc.2.1⟩

theorem append_null {missing : List String} {nullable named : Bool} :
    (if nullable && !named then missing ++ ["null"] else missing) =
      missing ++ if nullable && !named then ["null"] else [] := by
  split_ifs
  · rfl
  · rw [List.append_nil]

/-- No branch is missing when every leaf and null are named. -/
theorem missing_eq_nil_iff {subject : Ty} {classes : List TypeName}
    (hmem : ∀ c, c ∈ classes ↔ self.Uncovered scope subjectExpression arms subclasses c) :
    (classes.map self.branch ++
      if subject.isNullable && !self.nullNamed scope subjectExpression arms then ["null"] else []) = [] ↔
    (∀ c, self.Below subclasses c → self.sealedSubclasses c = [] →
      ∃ a, self.Below subclasses a ∧ ReflTransGen (Edge self.sealedSubclasses) a c ∧
        self.Named scope subjectExpression arms a) ∧
      (subject.isNullable → self.nullNamed scope subjectExpression arms) := by
  have hclasses : classes = [] ↔ ∀ c, self.Below subclasses c → self.sealedSubclasses c = [] →
      ∃ a, self.Below subclasses a ∧ ReflTransGen (Edge self.sealedSubclasses) a c ∧
        self.Named scope subjectExpression arms a := by
    rw [List.eq_nil_iff_forall_not_mem]
    constructor
    · intro hnone c hbelow hleaf
      by_contra hnamed
      exact hnone c ((hmem c).mpr ⟨hbelow, hleaf, fun a ha hac hname => hnamed ⟨a, ha, hac, hname⟩⟩)
    · intro hall c hc
      obtain ⟨hbelow, hleaf, hnamed⟩ := (hmem c).mp hc
      obtain ⟨a, ha, hac, hname⟩ := hall c hbelow hleaf
      exact hnamed a ha hac hname
  have hnull : (if subject.isNullable && !self.nullNamed scope subjectExpression arms then ["null"] else []) = [] ↔
      (subject.isNullable → self.nullNamed scope subjectExpression arms) := by
    cases subject.isNullable <;> cases self.nullNamed scope subjectExpression arms <;> simp
  rw [List.append_eq_nil_iff, List.map_eq_nil_iff, hclasses, hnull]

/-- A checker of one `when` on a subject that is no path, with the sealed classes `hierarchy` and the arm `is tested`. -/
def ofHierarchy (hierarchy : List (String × List String)) (tested : String) : Checker Unit Unit where
  classifiers := (hierarchy.map fun (name, subclasses) =>
    (⟨⟨name⟩, ⟨.class, subclasses.map TypeName.mk⟩⟩ : Sigma fun _ : TypeName => LibraryType)).toAList
  expr _ := .is ⟨0⟩ ⟨tested, 0, 0⟩ false
  resolvedTypeTys _ := some (.obj ⟨tested⟩)
  exprLowers _ := none
  exprTypes := []
  typeRefTySilent _ _ := .other
  exprAccessPath _ := none
  lookupFlowExclusions _ _ := []

def isArm : WhenArm := ⟨[.predicate ⟨1⟩], none, ⟨2⟩⟩

/-- The leaf `d` is a subclass of `b` and of `c`. -/
def diamond : Checker Unit Unit := ofHierarchy [("a", ["b", "c"]), ("b", ["d"]), ("c", ["d"])] "b"

def chainName (n : ℕ) : String := String.ofList (List.replicate n 'a')

/-- Eighteen sealed classes, each with the next for its subclass, and a leaf, which the arm tests for. -/
def chain : Checker Unit Unit :=
  ofHierarchy ((List.range 18).map fun n => (chainName n, [chainName (n + 1)])) (chainName 18)

example : diamond.whenSealedMissingBranches () none (some (.obj ⟨"a"⟩)) [isArm] = some ["is d"] := by decide

end Checker

end Krusty.Resolve
