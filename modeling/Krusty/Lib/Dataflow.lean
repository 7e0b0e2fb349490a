import Krusty.Lib.Results
import Mathlib.Logic.Relation
import Mathlib.Order.RelClasses

/-! Forward dataflow: states flow along the edges of a graph, and each node's state is the join of what
arrives. Nodes are numbers; the order on states is a relation, so that one type may carry several. -/
namespace Dataflow

variable {L : Type}

/-- `h` is the join of the states `p` holds of. -/
def IsJoin (r : L → L → Prop) (p : L → Prop) (h : L) : Prop :=
  (∀ g, p g → r g h) ∧ ∀ u, (∀ g, p g → r g u) → r h u

/-- The state before each node, `none` where nothing arrives. -/
abbrev Assignment (L : Type) := ℕ → Option L

def Assignment.Le (r : L → L → Prop) (s t : Assignment L) : Prop :=
  ∀ n f, s n = some f → ∃ g, t n = some g ∧ r f g

/-- A flow over the nodes below `count`. `out n f` is what leaves `n` entered with `f`: edges to the
targets of `n`, or `none` when `n` cannot be stepped from `f`. A lower state is stepped whenever a higher
one is, to lower states. -/
structure Problem (L : Type) (r : L → L → Prop) where
  count : ℕ
  entry : L
  targets : ℕ → List ℕ
  out : ℕ → L → Option (List (ℕ × L))
  out_targets : ∀ n f es m, out n f = some es → (m ∈ es.map Prod.fst ↔ m ∈ targets n)
  out_mono : ∀ n f g es, r f g → out n g = some es →
    ∃ es', out n f = some es' ∧ List.Forall₂ (fun a b => a.1 = b.1 ∧ r a.2 b.2) es' es

variable {r : L → L → Prop} (P : Problem L r)

/-- A state reaching `m`: the entry state, or one an edge brings from a node's state in `s`. -/
def Arrives (s : Assignment L) (m : ℕ) (g : L) : Prop :=
  (m = 0 ∧ g = P.entry) ∨ ∃ n f es, s n = some f ∧ P.out n f = some es ∧ (m, g) ∈ es

/-- Every assigned node can be stepped. -/
def Steps (s : Assignment L) : Prop := ∀ n f, s n = some f → n < P.count ∧ (P.out n f).isSome

/-- An assignment at least as high as everything that arrives. -/
structure Closed (s : Assignment L) : Prop where
  steps : Steps P s
  above : ∀ m g, Arrives P s m g → ∃ h, s m = some h ∧ r g h

/-- Each node's state is the join over its incoming edges, and it has one just when it has any. -/
structure Solution (s : Assignment L) : Prop where
  steps : Steps P s
  join : ∀ m h, s m = some h → IsJoin r (Arrives P s m) h
  arrives : ∀ m, (s m).isSome ↔ ∃ g, Arrives P s m g

structure LeastSolution (s : Assignment L) : Prop where
  solution : Solution P s
  least : ∀ t, Solution P t → s.Le r t

/-- A node an edge path leads to from node 0. -/
def Reachable (m : ℕ) : Prop := Relation.ReflTransGen (fun n m => m ∈ P.targets n) 0 m

variable {P} {s t : Assignment L}

theorem Assignment.Le.antisymm [IsPartialOrder L r] (hst : s.Le r t) (hts : t.Le r s) : s = t := by
  funext n
  cases hs : s n with
  | none =>
    cases ht : t n with
    | none => rfl
    | some g =>
      obtain ⟨f, hf, -⟩ := hts n g ht
      rw [hs] at hf
      cases hf
  | some f =>
    obtain ⟨g, hg, hfg⟩ := hst n f hs
    obtain ⟨f', hf', hgf⟩ := hts n g hg
    rw [hs] at hf'
    cases hf'
    rw [hg, antisymm_of r hfg hgf]

theorem Assignment.Le.trans [IsPartialOrder L r] {u : Assignment L} (hst : s.Le r t) (htu : t.Le r u) :
    s.Le r u := by
  intro n f hf
  obtain ⟨g, hg, hfg⟩ := hst n f hf
  obtain ⟨k, hk, hgk⟩ := htu n g hg
  exact ⟨k, hk, trans_of r hfg hgk⟩

theorem Solution.closed (h : Solution P s) : Closed P s where
  steps := h.steps
  above := by
    intro m g hg
    obtain ⟨x, hx⟩ := Option.isSome_iff_exists.mp ((h.arrives m).mpr ⟨g, hg⟩)
    exact ⟨x, hx, (h.join m x hx).1 g hg⟩

/-- What an edge brings from a lower state is below what it brings from a higher one. -/
theorem edge_mono {n m : ℕ} {f f' g : L} {es es' : List (ℕ × L)} (hle : r f f')
    (hout : P.out n f = some es) (hout' : P.out n f' = some es') (hmem : (m, g) ∈ es) :
    ∃ g', (m, g') ∈ es' ∧ r g g' := by
  obtain ⟨low, hlow, hall⟩ := P.out_mono n f f' es' hle hout'
  rw [hout] at hlow
  cases hlow
  obtain ⟨⟨m', g'⟩, hmem', hm, hr⟩ := Results.exists_right hall hmem
  cases hm
  exact ⟨g', hmem', hr⟩

/-- A state below a closed assignment's leaves along edges that assignment is above. -/
theorem Closed.edge [IsPartialOrder L r] (h : Closed P s) {n : ℕ} {f x : L} (hx : s n = some x)
    (hle : r f x) : ∃ es, P.out n f = some es ∧ ∀ m g, (m, g) ∈ es → ∃ h, s m = some h ∧ r g h := by
  obtain ⟨-, hsome⟩ := h.steps n x hx
  obtain ⟨high, hhigh⟩ := Option.isSome_iff_exists.mp hsome
  obtain ⟨es, hes, -⟩ := P.out_mono n f x high hle hhigh
  refine ⟨es, hes, ?_⟩
  intro m g hmem
  obtain ⟨g', hg', hr⟩ := edge_mono hle hes hhigh hmem
  obtain ⟨y, hy, hgy⟩ := h.above m g' (.inr ⟨n, x, high, hx, hhigh, hg'⟩)
  exact ⟨y, hy, trans_of r hr hgy⟩

variable {m : ℕ}

section Joins

/-- Two states below a common one have a join. -/
def HasJoins (r : L → L → Prop) : Prop :=
  ∀ a b u, r a u → r b u → ∃ j, IsJoin r (fun g => g = a ∨ g = b) j

theorem exists_join_of_list [IsPartialOrder L r] (hj : HasJoins r) {u : L} :
    ∀ {l : List L}, l ≠ [] → (∀ g ∈ l, r g u) → ∃ j, IsJoin r (· ∈ l) j
  | [a], _, _ => ⟨a, fun g hg => by rw [List.mem_singleton.mp hg]; exact refl_of r a,
      fun _ hu => hu a (by simp)⟩
  | a :: b :: l, _, hu => by
    obtain ⟨j, hub, hlub⟩ := exists_join_of_list hj (l := b :: l) (by simp)
      (fun g hg => hu g (List.mem_cons_of_mem _ hg))
    obtain ⟨k, hkub, hklub⟩ := hj a j u (hu a (by simp))
      (hlub u fun g hg => hu g (List.mem_cons_of_mem _ hg))
    refine ⟨k, ?_, ?_⟩
    · intro g hg
      obtain rfl | hg := List.mem_cons.mp hg
      · exact hkub _ (.inl rfl)
      · exact trans_of r (hub g hg) (hkub j (.inr rfl))
    · intro v hv
      apply hklub v
      rintro g (rfl | rfl)
      · exact hv _ (by simp)
      · exact hlub v fun g hg => hv g (List.mem_cons_of_mem _ hg)

/-- What arrives at a node, as a list. -/
def arrivals (P : Problem L r) (s : Assignment L) (m : ℕ) : List L :=
  (if m = 0 then [P.entry] else []) ++ (List.range P.count).flatMap fun n =>
    (((s n).bind (P.out n)).getD []).filterMap fun e => if e.1 = m then some e.2 else none

theorem mem_arrivals (hs : Steps P s) {g : L} : g ∈ arrivals P s m ↔ Arrives P s m g := by
  unfold arrivals
  rw [List.mem_append, List.mem_flatMap]
  constructor
  · rintro (hentry | ⟨n, -, hedge⟩)
    · split_ifs at hentry with hm
      · exact .inl ⟨hm, List.mem_singleton.mp hentry⟩
      · cases hentry
    · obtain ⟨⟨m', g'⟩, hmem, hif⟩ := List.mem_filterMap.mp hedge
      split_ifs at hif with hm
      cases hif
      cases hm
      cases hsn : s n with
      | none => simp [hsn] at hmem
      | some f =>
        cases hout : P.out n f with
        | none => simp [hsn, hout] at hmem
        | some es =>
          simp only [hsn, Option.bind_some, hout, Option.getD_some] at hmem
          exact .inr ⟨n, f, es, hsn, hout, hmem⟩
  · rintro (⟨rfl, rfl⟩ | ⟨n, f, es, hsn, hout, hmem⟩)
    · exact .inl (by simp)
    · refine .inr ⟨n, List.mem_range.mpr (hs n f hsn).1, ?_⟩
      apply List.mem_filterMap.mpr
      refine ⟨(m, g), ?_, by simp⟩
      simpa [hsn, hout] using hmem

end Joins

/-- A closed assignment lowered at one node, to a state still above what arrives there, is closed. -/
theorem Closed.lower [IsPartialOrder L r] (hs : Closed P s) {h : L} (hm : s m = some h)
    {v : Option L} (hub : ∀ g, Arrives P s m g → ∃ j, v = some j ∧ r g j) (hle : ∀ j, v = some j → r j h) :
    Closed P (Function.update s m v) := by
  have hbelow : ∀ n f, Function.update s m v n = some f → ∃ x, s n = some x ∧ r f x := by
    intro n f hf
    by_cases hn : n = m
    · subst hn
      rw [Function.update_self] at hf
      exact ⟨h, hm, hle f hf⟩
    · rw [Function.update_of_ne hn] at hf
      exact ⟨f, hf, refl_of r f⟩
  have harrives : ∀ k g, Arrives P (Function.update s m v) k g → ∃ g', Arrives P s k g' ∧ r g g' := by
    rintro k g (⟨rfl, rfl⟩ | ⟨n, f, es, hf, hout, hmem⟩)
    · exact ⟨_, .inl ⟨rfl, rfl⟩, refl_of r _⟩
    · obtain ⟨x, hx, hfx⟩ := hbelow n f hf
      obtain ⟨high, hhigh⟩ := Option.isSome_iff_exists.mp (hs.steps n x hx).2
      obtain ⟨g', hg', hr⟩ := edge_mono hfx hout hhigh hmem
      exact ⟨g', .inr ⟨n, x, high, hx, hhigh, hg'⟩, hr⟩
  constructor
  · intro n f hf
    obtain ⟨x, hx, hfx⟩ := hbelow n f hf
    obtain ⟨es, hes, -⟩ := hs.edge hx hfx
    exact ⟨(hs.steps n x hx).1, by rw [hes]; rfl⟩
  · intro k g hg
    obtain ⟨g', hg', hr⟩ := harrives k g hg
    by_cases hk : k = m
    · subst hk
      obtain ⟨j, hv, hgj⟩ := hub g' hg'
      exact ⟨j, by rw [Function.update_self, hv], trans_of r hr hgj⟩
    · obtain ⟨y, hy, hgy⟩ := hs.above k g' hg'
      exact ⟨y, by rw [Function.update_of_ne hk, hy], trans_of r hr hgy⟩

open Classical in
/-- A closed assignment restricted to the reachable nodes is closed. -/
theorem Closed.reachable (h : Closed P s) : Closed P fun n => if Reachable P n then s n else none := by
  have hsub : ∀ n f, (if Reachable P n then s n else none) = some f → Reachable P n ∧ s n = some f := by
    intro n f hf
    split_ifs at hf with hn
    exact ⟨hn, hf⟩
  constructor
  · intro n f hf
    exact h.steps n f (hsub n f hf).2
  · rintro k g (⟨rfl, rfl⟩ | ⟨n, f, es, hf, hout, hmem⟩)
    · have hzero : Reachable P 0 := .refl
      rw [if_pos hzero]
      exact h.above 0 P.entry (.inl ⟨rfl, rfl⟩)
    · obtain ⟨hn, hf⟩ := hsub n f hf
      have hk : k ∈ P.targets n := (P.out_targets n f es k hout).mp (List.mem_map_of_mem hmem)
      have hnext : Reachable P k := .tail hn hk
      rw [if_pos hnext]
      exact h.above k g (.inr ⟨n, f, es, hf, hout, hmem⟩)

/-- What lies below every closed assignment assigns reachable nodes only. -/
theorem reachable_of_least (ht : Closed P t) (hleast : ∀ t, Closed P t → s.Le r t) {h : L}
    (hm : s m = some h) : Reachable P m := by
  obtain ⟨x, hx, -⟩ := hleast _ ht.reachable m h hm
  dsimp only at hx
  split_ifs at hx with hreach
  exact hreach

section Least

variable [IsPartialOrder L r] (hclosed : Closed P s) (hleast : ∀ t, Closed P t → s.Le r t)

include hclosed hleast

/-- Nothing is assigned to a node nothing arrives at. -/
theorem arrives_of_least {h : L} (hm : s m = some h) : ∃ g, Arrives P s m g := by
  by_contra hnone
  have hc : Closed P (Function.update s m none) :=
    hclosed.lower hm (fun g hg => absurd ⟨g, hg⟩ hnone) (by simp)
  obtain ⟨x, hx, -⟩ := hleast _ hc m h hm
  simp at hx

theorem isJoin_of_least (hj : HasJoins r) {h : L} (hm : s m = some h) : IsJoin r (Arrives P s m) h := by
  have hub : ∀ g, Arrives P s m g → r g h := by
    intro g hg
    obtain ⟨y, hy, hgy⟩ := hclosed.above m g hg
    rw [hm] at hy
    cases hy
    exact hgy
  obtain ⟨g, hg⟩ := arrives_of_least hclosed hleast hm
  have hmem : (· ∈ arrivals P s m) = Arrives P s m := funext fun g => propext (mem_arrivals hclosed.steps)
  have hne : arrivals P s m ≠ [] := List.ne_nil_of_mem ((mem_arrivals hclosed.steps).mpr hg)
  obtain ⟨j, hjoin⟩ := exists_join_of_list hj hne fun g hg => hub g ((mem_arrivals hclosed.steps).mp hg)
  rw [hmem] at hjoin
  have hc : Closed P (Function.update s m (some j)) := by
    apply hclosed.lower hm (fun g hg => ⟨j, rfl, hjoin.1 g hg⟩)
    intro j' hj'
    cases hj'
    exact hjoin.2 h hub
  obtain ⟨x, hx, hhx⟩ := hleast _ hc m h hm
  rw [Function.update_self] at hx
  cases hx
  exact ⟨hub, fun u hu => trans_of r hhx (hjoin.2 u hu)⟩

/-- The least closed assignment is the least solution. -/
theorem leastSolution_of_closed (hj : HasJoins r) : LeastSolution P s where
  least := fun t ht => hleast t ht.closed
  solution := {
    steps := hclosed.steps
    join := fun m h hm => isJoin_of_least hclosed hleast hj hm
    arrives := by
      intro m
      constructor
      · intro hm
        obtain ⟨h, hm⟩ := Option.isSome_iff_exists.mp hm
        exact arrives_of_least hclosed hleast hm
      · rintro ⟨g, hg⟩
        obtain ⟨h, hm, -⟩ := hclosed.above m g hg
        rw [hm]
        rfl }

omit [IsPartialOrder L r] in
/-- The least closed assignment assigns exactly the reachable nodes. -/
theorem isSome_iff_reachable : (s m).isSome ↔ Reachable P m := by
  constructor
  · intro hm
    obtain ⟨h, hm⟩ := Option.isSome_iff_exists.mp hm
    exact reachable_of_least hclosed hleast hm
  · intro hm
    induction hm with
    | refl =>
      obtain ⟨h, hh, -⟩ := hclosed.above 0 P.entry (.inl ⟨rfl, rfl⟩)
      rw [hh]
      rfl
    | @tail n k _ hk ih =>
      obtain ⟨f, hf⟩ := Option.isSome_iff_exists.mp ih
      obtain ⟨es, hes⟩ := Option.isSome_iff_exists.mp (hclosed.steps n f hf).2
      obtain ⟨⟨k', g⟩, hmem, rfl⟩ := List.mem_map.mp ((P.out_targets n f es k hes).mpr hk)
      obtain ⟨h, hh, -⟩ := hclosed.above k' g (.inr ⟨n, f, es, hf, hes, hmem⟩)
      rw [hh]
      rfl

end Least

end Dataflow
