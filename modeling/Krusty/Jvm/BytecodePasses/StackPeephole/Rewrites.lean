import Krusty.Jvm.BytecodePasses.StackPeephole

/-! Where in a body a peephole rule applies, and what it makes of the body. -/
namespace Krusty.Jvm.BytecodePasses.StackPeephole

open Simulation

/-- Nodes in which a rule finds `insns`, and the nodes once it has left `insns'` and `nop`s in their places.
What stands between them does nothing and is no merge point. -/
inductive Edited (merges : List LabelId) :
    List (Insn LabelId) → List (Insn LabelId) → List Node → List Node → Prop
  | nil : Edited merges [] [] [] []
  | calm {node : Node} {insns insns' : List (Insn LabelId)} {nodes nodes' : List Node} (idle : node.isIdle)
      (apart : ∀ label, node = .label label → label ∉ merges) (rest : Edited merges insns insns' nodes nodes') :
      Edited merges insns insns' (node :: nodes) (node :: nodes')
  | both {insn insn' : Insn LabelId} {insns insns' : List (Insn LabelId)} {nodes nodes' : List Node}
      (rest : Edited merges insns insns' nodes nodes') :
      Edited merges (insn :: insns) (insn' :: insns') (.insn insn :: nodes) (.insn insn' :: nodes')
  | gone {insn : Insn LabelId} {insns insns' : List (Insn LabelId)} {nodes nodes' : List Node}
      (rest : Edited merges insns insns' nodes nodes') :
      Edited merges (insn :: insns) insns' (.insn insn :: nodes) (.insn (.op nop) :: nodes')

variable {insn : Insn LabelId}

theorem isIdle_insn : (Node.insn insn).isIdle ↔ insn = .op nop := by
  rw [Node.isIdle, Bool.or_eq_true, Node.isNop_iff]
  simp [Node.isInsn]

namespace Edited

variable {merges : List LabelId} {insns insns' : List (Insn LabelId)} {nodes nodes' : List Node}

theorem length (h : Edited merges insns insns' nodes nodes') : nodes.length = nodes'.length := by
  induction h with
  | nil => rfl
  | calm _ _ _ ih | both _ ih | gone _ ih => rw [List.length_cons, List.length_cons, ih]

theorem labels (h : Edited merges insns insns' nodes nodes') (k : ℕ) (label : LabelId) :
    nodes[k]? = some (.label label) ↔ nodes'[k]? = some (.label label) := by
  induction h generalizing k with
  | nil => rfl
  | calm _ _ _ ih | both _ ih | gone _ ih =>
    cases k with
    | zero => simp
    | succ k => exact ih k

theorem apart (h : Edited merges insns insns' nodes nodes') {k : ℕ} {label : LabelId}
    (hk : nodes[k]? = some (.label label)) : label ∉ merges := by
  induction h generalizing k with
  | nil => cases hk
  | calm _ apart _ ih =>
    cases k with
    | zero => exact apart label (Option.some.inj hk)
    | succ k => exact ih hk
  | both _ ih | gone _ ih =>
    cases k with
    | zero => cases hk
    | succ k => exact ih hk

theorem mem_old (h : Edited merges insns insns' nodes nodes') (hinsn : insn ∈ insns) : .insn insn ∈ nodes := by
  induction h with
  | nil => cases hinsn
  | calm _ _ _ ih => exact List.mem_cons_of_mem _ (ih hinsn)
  | both _ ih | gone _ ih =>
    obtain rfl | hinsn := List.mem_cons.mp hinsn
    · exact List.mem_cons_self
    · exact List.mem_cons_of_mem _ (ih hinsn)

theorem mem_new (h : Edited merges insns insns' nodes nodes') (hinsn : .insn insn ∈ nodes') :
    insn ∈ insns' ∨ insn = .op nop := by
  induction h with
  | nil => cases hinsn
  | calm idle _ _ ih =>
    obtain rfl | hinsn := List.mem_cons.mp hinsn
    · right
      simpa [Node.isIdle, Node.isInsn] using idle
    · exact ih hinsn
  | both _ ih =>
    obtain heq | hinsn := List.mem_cons.mp hinsn
    · cases heq
      exact .inl List.mem_cons_self
    · exact (ih hinsn).imp_left (List.mem_cons_of_mem _)
  | gone _ ih =>
    obtain heq | hinsn := List.mem_cons.mp hinsn
    · cases heq
      exact .inr rfl
    · exact ih hinsn

/-- The instructions that are not `nop`s are those of the rule. -/
theorem countP_old (h : Edited merges insns insns' nodes nodes') (hinsns : ∀ insn ∈ insns, insn ≠ .op nop) :
    nodes.countP (fun node => !node.isIdle) = insns.length := by
  induction h with
  | nil => rfl
  | calm idle _ _ ih => rw [List.countP_cons_of_neg (by simp [idle]), ih hinsns]
  | both _ ih | gone _ ih =>
    have hbusy := isIdle_insn.not.mpr (hinsns _ List.mem_cons_self)
    rw [List.countP_cons_of_pos (by simpa using hbusy), List.length_cons,
      ih fun insn hinsn => hinsns insn (List.mem_cons_of_mem _ hinsn)]

theorem countP_new (h : Edited merges insns insns' nodes nodes') :
    nodes'.countP (fun node => !node.isIdle) ≤ insns'.length := by
  induction h with
  | nil => exact le_rfl
  | calm idle _ _ ih => rwa [List.countP_cons_of_neg (by simp [idle])]
  | both _ ih =>
    rw [List.length_cons, List.countP_cons]
    split <;> omega
  | gone _ ih => rwa [List.countP_cons_of_neg (by simp [isIdle_insn.mpr rfl])]

section Line

variable {S X O V : Type} {M : Machine S X O V} {s : S} {e : Exit S}

theorem line_old (h : Edited merges insns insns' nodes nodes') (hline : Line M (insns.map .insn) s e) :
    Line M nodes s e := by
  induction h generalizing s e with
  | nil => exact hline
  | calm idle _ _ ih => exact Line.idle (List.forall_mem_singleton.mpr idle) (ih hline)
  | both _ ih | gone _ ih =>
    cases hline with
    | pass hnode _ => cases hnode
    | next heffect hview hrest => exact .next heffect hview (ih hrest)
    | branch heffect => exact .branch heffect

theorem line_new (h : Edited merges insns insns' nodes nodes') (hline : Line M (insns'.map .insn) s e) :
    Line M nodes' s e := by
  induction h generalizing s e with
  | nil => exact hline
  | calm idle _ _ ih => exact Line.idle (List.forall_mem_singleton.mpr idle) (ih hline)
  | both _ ih =>
    cases hline with
    | pass hnode _ => cases hnode
    | next heffect hview hrest => exact .next heffect hview (ih hrest)
    | branch heffect => exact .branch heffect
  | gone _ ih => exact .next (M.exec_nop s) rfl (ih hline)

theorem blocked_old (h : Edited merges insns insns' nodes nodes') (hblocked : Blocked M (insns.map .insn) s) :
    Blocked M nodes s := by
  induction h generalizing s with
  | nil => exact hblocked
  | calm idle _ _ ih => exact Blocked.idle (List.forall_mem_singleton.mpr idle) (ih hblocked)
  | both _ ih | gone _ ih =>
    cases hblocked with
    | stuck heffect => exact .stuck heffect
    | pass hnode _ => cases hnode
    | next heffect hrest => exact .next heffect (ih hrest)

theorem stands (h : Edited merges insns insns' nodes nodes')
    (hstands : Stands M (insns.map .insn) (insns'.map .insn)) : Stands M nodes nodes' := by
  intro s
  obtain hblocked | ⟨e, hline, hline'⟩ := hstands s
  · exact .inl (h.blocked_old hblocked)
  · exact .inr ⟨e, h.line_old hline, h.line_new hline'⟩

end Line

end Edited

section Search

variable {nodes : List Node} {merges : List LabelId} {i p : ℕ}

/-- What the search for the previous meaningful node passes over. -/
def Calm (merges : List LabelId) (between : List Node) : Prop :=
  ∀ node ∈ between, node.isIdle ∧ ∀ label, node = .label label → label ∉ merges

theorem calm_nil : Calm merges [] := by
  intro node hnode
  cases hnode

theorem Edited.calms {insns insns' : List (Insn LabelId)} {between rest rest' : List Node} (h : Calm merges between)
    (hrest : Edited merges insns insns' rest rest') : Edited merges insns insns' (between ++ rest) (between ++ rest') := by
  induction between with
  | nil => exact hrest
  | cons node between ih =>
    obtain ⟨hidle, hapart⟩ := h node List.mem_cons_self
    exact .calm hidle hapart (ih fun node hnode => h node (List.mem_cons_of_mem _ hnode))

theorem previousMeaningful_spec (h : previousMeaningful nodes merges i = some p) :
    ∃ insn between, nodes.take i = nodes.take p ++ .insn insn :: between ∧ Calm merges between ∧
      nodes[p]? = some (.insn insn) ∧ p < i := by
  induction i with
  | zero => cases h
  | succ i ih =>
    unfold previousMeaningful at h
    have hcalm : ∀ node, nodes[i]? = some node → node.isIdle → (∀ label, node = .label label → label ∉ merges) →
        previousMeaningful nodes merges i = some p → ∃ insn between,
          nodes.take (i + 1) = nodes.take p ++ .insn insn :: between ∧ Calm merges between ∧
            nodes[p]? = some (.insn insn) ∧ p < i + 1 := by
      intro node hnode hidle hapart h
      obtain ⟨insn, between, htake, hbetween, hp, hlt⟩ := ih h
      refine ⟨insn, between ++ [node], ?_, ?_, hp, hlt.trans (Nat.lt_succ_self i)⟩
      · rw [List.take_add_one, htake, hnode]
        simp
      · intro other hother
        obtain hother | hother := List.mem_append.mp hother
        · exact hbetween other hother
        · obtain rfl := List.mem_singleton.mp hother
          exact ⟨hidle, hapart⟩
    split at h
    case h_1 label hnode =>
      split_ifs at h with hmem
      refine hcalm _ hnode rfl (fun other heq => ?_) h
      cases heq
      exact hmem
    case h_2 hnode => exact hcalm _ hnode rfl (fun _ heq => nomatch heq) h
    case h_3 insn hnode =>
      split_ifs at h with hnop
      · subst hnop
        exact hcalm _ hnode rfl (fun _ heq => nomatch heq) h
      · cases h
        refine ⟨insn, [], ?_, calm_nil, hnode, Nat.lt_succ_self _⟩
        rw [List.take_add_one, hnode]
        rfl
    case h_4 => cases h

theorem insnAt_eq_some : insnAt nodes i = some insn ↔ nodes[i]? = some (.insn insn) := by
  unfold insnAt
  split
  · rename_i other hother
    rw [hother]
    simp
  · rename_i hnone
    constructor
    · intro h
      cases h
    · intro h
      exact absurd h (hnone insn)

theorem take_append_drop_insn (h : nodes[i]? = some (.insn insn)) :
    nodes = nodes.take i ++ .insn insn :: nodes.drop (i + 1) := by
  obtain ⟨hlt, hi⟩ := List.getElem?_eq_some_iff.mp h
  rw [← hi, List.getElem_cons_drop, List.take_append_drop]

/-- Two instructions with nothing that counts between them. -/
theorem pair_of_search {y : Insn LabelId} (h : previousMeaningful nodes merges i = some p)
    (hi : nodes[i]? = some (.insn y)) :
    ∃ x before between after, insnAt nodes p = some x ∧
      nodes = before ++ .insn x :: (between ++ .insn y :: after) ∧ before.length = p ∧
      p + between.length + 1 = i ∧ Calm merges between := by
  obtain ⟨x, between, htake, hcalm, hx, hlt⟩ := previousMeaningful_spec h
  have hlen := (List.getElem?_eq_some_iff.mp hi).1
  have hp : (nodes.take p).length = p := by
    rw [List.length_take]
    omega
  refine ⟨x, nodes.take p, between, nodes.drop (i + 1), insnAt_eq_some.mpr hx, ?_, hp, ?_, hcalm⟩
  · conv_lhs => rw [take_append_drop_insn hi, htake]
    simp
  · have hlength := congrArg List.length htake
    rw [List.length_take, List.length_append, hp, List.length_cons] at hlength
    omega

theorem triple_of_search {q : ℕ} {z : Insn LabelId} (h : previousMeaningful nodes merges i = some q)
    (h' : previousMeaningful nodes merges q = some p) (hi : nodes[i]? = some (.insn z)) :
    ∃ x y before between between' after, insnAt nodes p = some x ∧ insnAt nodes q = some y ∧
      nodes = before ++ .insn x :: (between ++ .insn y :: (between' ++ .insn z :: after)) ∧ before.length = p ∧
      p + between.length + 1 = q ∧ q + between'.length + 1 = i ∧ Calm merges between ∧ Calm merges between' := by
  obtain ⟨y, between', htake, hcalm', hy, hlt⟩ := previousMeaningful_spec h
  obtain ⟨x, before, between, after, hx, hnodes, hbefore, hq, hcalm⟩ := pair_of_search h' hy
  have hlen := (List.getElem?_eq_some_iff.mp hi).1
  refine ⟨x, y, before, between, between', nodes.drop (i + 1), hx, insnAt_eq_some.mpr hy, ?_, hbefore, hq, ?_,
    hcalm, hcalm'⟩
  · have hbelow : nodes.take q = before ++ .insn x :: between := by
      conv_lhs => rw [hnodes]
      rw [← List.cons_append, ← List.append_assoc]
      refine List.take_left' ?_
      rw [List.length_append, List.length_cons]
      omega
    conv_lhs => rw [take_append_drop_insn hi, htake, hbelow]
    simp
  · have hlength := congrArg List.length htake
    rw [List.length_take, List.length_append, List.length_take, List.length_cons] at hlength
    omega

end Search

section Sets

variable {before between between' after : List Node} {a b c a' b' c' : Node}

theorem set_first : (before ++ a :: after).set before.length a' = before ++ a' :: after := by
  simp

theorem set_second : (before ++ a :: (between ++ b :: after)).set (before.length + between.length + 1) b' =
    before ++ a :: (between ++ b' :: after) := by
  have heq : before ++ a :: (between ++ b :: after) = (before ++ a :: between) ++ b :: after := by simp
  have hlen : before.length + between.length + 1 = (before ++ a :: between).length := by simp [Nat.add_assoc]
  rw [heq, hlen, set_first]
  simp

theorem set_third : (before ++ a :: (between ++ b :: (between' ++ c :: after))).set
      (before.length + between.length + 1 + between'.length + 1) c' =
    before ++ a :: (between ++ b :: (between' ++ c' :: after)) := by
  have heq : before ++ a :: (between ++ b :: (between' ++ c :: after)) =
      (before ++ a :: between) ++ b :: (between' ++ c :: after) := by simp
  have hlen : before.length + between.length + 1 = (before ++ a :: between).length := by simp [Nat.add_assoc]
  rw [heq, hlen, set_second]
  simp

end Sets

/-- The nodes with the changes made, in order. -/
def applied (nodes : List Node) (changes : List (ℕ × Insn LabelId)) : List Node :=
  changes.foldl (fun nodes change => nodes.set change.1 (.insn change.2)) nodes

/-- `nodes'` is `nodes` after a rule, whose instructions stand from place `first` to place `last`. -/
inductive Rewritten (merges : List LabelId) (nodes nodes' : List Node) (first last : ℕ) : Prop
  | rule {before after stretch stretch' : List Node} {insns insns' : List (Insn LabelId)}
      (old : nodes = before ++ stretch ++ after) (new : nodes' = before ++ stretch' ++ after)
      (hfirst : before.length = first) (hlast : first + stretch.length = last + 1) (rule : Rule insns insns')
      (edited : Edited merges insns insns' stretch stretch')

section Rewrite

variable {nodes before between between' after : List Node} {merges : List LabelId} {i p q : ℕ}
  {changes : List (ℕ × Insn LabelId)} {x x' y y' z : Insn LabelId}

theorem rewritten_pair (hnodes : nodes = before ++ .insn x :: (between ++ .insn y :: after))
    (hp : before.length = p) (hi : p + between.length + 1 = i) {insns' : List (Insn LabelId)} (hrule : Rule [x, y] insns')
    (hedited : Edited merges [x, y] insns' (.insn x :: (between ++ [.insn y])) (.insn x' :: (between ++ [.insn y']))) :
    Rewritten merges nodes (applied nodes [(p, x'), (i, y')]) p i := by
  have hold : nodes = before ++ (.insn x :: (between ++ [.insn y])) ++ after := by simp [hnodes]
  refine .rule hold ?_ hp ?_ hrule hedited
  · subst hp hi hnodes
    simp only [applied, List.foldl_cons, List.foldl_nil, set_first, set_second]
    simp
  · simp only [List.length_cons, List.length_append, List.length_nil]
    omega

theorem rewritten_triple
    (hnodes : nodes = before ++ .insn x :: (between ++ .insn y :: (between' ++ .insn z :: after)))
    (hp : before.length = p) (hq : p + between.length + 1 = q) (hi : q + between'.length + 1 = i)
    {insns' : List (Insn LabelId)} (hrule : Rule [x, y, z] insns') {z' : Insn LabelId}
    (hedited : Edited merges [x, y, z] insns' (.insn x :: (between ++ .insn y :: (between' ++ [.insn z])))
      (.insn x' :: (between ++ .insn y' :: (between' ++ [.insn z'])))) :
    Rewritten merges nodes (applied nodes [(p, x'), (q, y'), (i, z')]) p i := by
  have hold : nodes = before ++ (.insn x :: (between ++ .insn y :: (between' ++ [.insn z]))) ++ after := by
    simp [hnodes]
  refine .rule hold ?_ hp ?_ hrule hedited
  · subst hp hq hi hnodes
    simp only [applied, List.foldl_cons, List.foldl_nil, set_first, set_second, set_third]
    simp
  · simp only [List.length_cons, List.length_append, List.length_nil]
    omega

theorem onZeroJump_spec {op : UInt8} {target : LabelId} (h : onZeroJump nodes merges i op target = some changes)
    (hi : nodes[i]? = some (.insn (.jump op target))) (hop : opRange ifeq ifle op) :
    ∃ first, Rewritten merges nodes (applied nodes changes) first i := by
  simp only [onZeroJump, Option.bind_eq_bind, Option.bind_eq_some_iff] at h
  obtain ⟨p, hsearch, compare, hcompare, h⟩ := h
  split_ifs at h with hint
  obtain ⟨x, before, between, after, hx, hnodes, hp, hq, hcalm⟩ := pair_of_search hsearch hi
  obtain rfl := Option.some.inj (hx.symm.trans hcompare)
  obtain rfl := Option.some.inj h
  exact ⟨p, rewritten_pair hnodes hp hq (.compareZero hint hop) (.both (.calms hcalm (.gone .nil)))⟩

theorem applied_self (hi : nodes[i]? = some (.insn z)) (hp : p ≠ i) (hq : q ≠ i) :
    applied nodes [(p, x'), (q, y'), (i, z)] = applied nodes [(p, x'), (q, y')] := by
  have hkeep : (applied nodes [(p, x'), (q, y')])[i]? = some (.insn z) := by
    simp only [applied, List.foldl_cons, List.foldl_nil]
    rw [List.getElem?_set_ne hq, List.getElem?_set_ne hp, hi]
  change (applied nodes [(p, x'), (q, y')]).set i (.insn z) = _
  obtain ⟨hlt, heq⟩ := List.getElem?_eq_some_iff.mp hkeep
  rw [← heq, List.set_getElem_self]

theorem onIntJump_spec {op : UInt8} {target : LabelId} (h : onIntJump nodes merges i = some changes)
    (hi : nodes[i]? = some (.insn (.jump op target))) (hop : opRange ifIcmpeq ifIcmple op) :
    ∃ first, Rewritten merges nodes (applied nodes changes) first i := by
  simp only [onIntJump, Option.bind_eq_bind, Option.bind_eq_some_iff] at h
  obtain ⟨q, hsearch, constant, hconstant, h⟩ := h
  split_ifs at h with hzero
  rw [Decidable.not_not] at hzero
  simp only [Option.bind_eq_some_iff] at h
  obtain ⟨p, hsearch', compare, hcompare, h⟩ := h
  split_ifs at h with hint
  obtain ⟨x, y, before, between, between', after, hx, hy, hnodes, hp, hq, hlast, hcalm, hcalm'⟩ :=
    triple_of_search hsearch hsearch' hi
  obtain rfl := Option.some.inj (hx.symm.trans hcompare)
  obtain rfl := Option.some.inj (hy.symm.trans hconstant)
  obtain rfl := Option.some.inj h
  subst hzero
  refine ⟨p, ?_⟩
  rw [← applied_self hi (by omega) (by omega)]
  exact rewritten_triple hnodes hp hq hlast (.compareConst hint hop)
    (.gone (.calms hcalm (.gone (.calms hcalm' (.both .nil)))))

theorem onPop_spec (h : onPop nodes merges i = some changes) (hi : nodes[i]? = some (.insn (.op pop))) :
    ∃ first, Rewritten merges nodes (applied nodes changes) first i := by
  simp only [onPop, Option.bind_eq_bind, Option.bind_eq_some_iff] at h
  obtain ⟨p, hsearch, push, hpush, h⟩ := h
  obtain ⟨x, before, between, after, hx, hnodes, hp, hq, hcalm⟩ := pair_of_search hsearch hi
  obtain rfl := Option.some.inj (hx.symm.trans hpush)
  split_ifs at h with hdrop hdup
  · obtain rfl := Option.some.inj h
    exact ⟨p, rewritten_pair hnodes hp hq (.discard hdrop) (.gone (.calms hcalm (.gone .nil)))⟩
  · obtain rfl := Option.some.inj h
    subst hdup
    exact ⟨p, rewritten_pair hnodes hp hq .dupX1 (.both (.calms hcalm (.gone .nil)))⟩

theorem onSwap_spec (h : onSwap nodes merges i = some changes) (hi : nodes[i]? = some (.insn (.op swap))) :
    ∃ first, Rewritten merges nodes (applied nodes changes) first i := by
  simp only [onSwap, Option.bind_eq_bind, Option.bind_eq_some_iff] at h
  obtain ⟨q, hsearch, p, hsearch', a, ha, b, hb, h⟩ := h
  obtain ⟨x, y, before, between, between', after, hx, hy, hnodes, hp, hq, hlast, hcalm, hcalm'⟩ :=
    triple_of_search hsearch hsearch' hi
  obtain rfl := Option.some.inj (hx.symm.trans ha)
  obtain rfl := Option.some.inj (hy.symm.trans hb)
  split_ifs at h with hpure
  obtain rfl := Option.some.inj h
  rw [Bool.and_eq_true] at hpure
  have hcomm : applied nodes [(i, .op nop), (p, y), (q, x)] = applied nodes [(p, y), (q, x), (i, .op nop)] := by
    simp only [applied, List.foldl_cons, List.foldl_nil]
    rw [List.set_comm _ _ (show i ≠ p by omega), List.set_comm _ _ (show i ≠ q by omega)]
  rw [hcomm]
  exact ⟨p, rewritten_triple hnodes hp hq hlast (.exchange hpure.1 hpure.2)
    (.both (.calms hcalm (.both (.calms hcalm' (.gone .nil)))))⟩

theorem onI2l_spec (h : onI2l nodes merges i = some changes) (hi : nodes[i]? = some (.insn (.op i2l))) :
    ∃ first, Rewritten merges nodes (applied nodes changes) first i := by
  simp only [onI2l, Option.bind_eq_bind, Option.bind_eq_some_iff] at h
  obtain ⟨p, hsearch, int, hint, h⟩ := h
  obtain ⟨x, before, between, after, hx, hnodes, hp, hq, hcalm⟩ := pair_of_search hsearch hi
  obtain rfl := Option.some.inj (hx.symm.trans hint)
  split_ifs at h with hzero hone
  · obtain rfl := Option.some.inj h
    subst hzero
    exact ⟨p, rewritten_pair hnodes hp hq .widenZero (.both (.calms hcalm (.gone .nil)))⟩
  · obtain rfl := Option.some.inj h
    subst hone
    exact ⟨p, rewritten_pair hnodes hp hq .widenOne (.both (.calms hcalm (.gone .nil)))⟩

theorem onPop2_spec (h : onPop2 nodes merges i = some changes) (hi : nodes[i]? = some (.insn (.op pop2))) :
    ∃ first, Rewritten merges nodes (applied nodes changes) first i := by
  simp only [onPop2, Option.bind_eq_bind, Option.bind_eq_some_iff] at h
  obtain ⟨q, hsearch, push, hpush, h⟩ := h
  split_ifs at h with hwide
  · obtain ⟨x, before, between, after, hx, hnodes, hp, hq, hcalm⟩ := pair_of_search hsearch hi
    obtain rfl := Option.some.inj (hx.symm.trans hpush)
    obtain rfl := Option.some.inj h
    exact ⟨q, rewritten_pair hnodes hp hq (.discardWide hwide) (.gone (.calms hcalm (.gone .nil)))⟩
  · simp only [Option.bind_eq_some_iff] at h
    obtain ⟨p, hsearch', push', hpush', h⟩ := h
    obtain ⟨x, y, before, between, between', after, hx, hy, hnodes, hp, hq, hlast, hcalm, hcalm'⟩ :=
      triple_of_search hsearch hsearch' hi
    obtain rfl := Option.some.inj (hx.symm.trans hpush')
    obtain rfl := Option.some.inj (hy.symm.trans hpush)
    split_ifs at h with hdrop
    obtain rfl := Option.some.inj h
    rw [Bool.and_eq_true] at hdrop
    exact ⟨p, rewritten_triple hnodes hp hq hlast
      (.discardBoth hdrop.2 hdrop.1 (Bool.eq_false_iff.mpr hwide))
      (.gone (.calms hcalm (.gone (.calms hcalm' (.gone .nil)))))⟩

/-- What the loop writes at a node is what a rule makes of a stretch that ends there. -/
theorem rewrite_spec (h : rewrite nodes merges i = some changes) :
    ∃ first, Rewritten merges nodes (applied nodes changes) first i := by
  unfold rewrite at h
  split at h
  case h_1 op target hi =>
    split_ifs at h with hzero hint
    · exact onZeroJump_spec h hi hzero
    · exact onIntJump_spec h hi hint
  case h_2 op hi =>
    split_ifs at h with hpop hswap hi2l hpop2
    · exact onPop_spec h (hpop ▸ hi)
    · exact onSwap_spec h (hswap ▸ hi)
    · exact onI2l_spec h (hi2l ▸ hi)
    · exact onPop2_spec h (hpop2 ▸ hi)
  case h_3 => cases h

end Rewrite

end Krusty.Jvm.BytecodePasses.StackPeephole
