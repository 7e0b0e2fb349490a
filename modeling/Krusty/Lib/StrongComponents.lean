import Krusty.Lib.Closure
import Mathlib.Logic.Function.Basic

/-! The strongly connected components of a graph, found by a depth-first walk and by searches against its edges. -/
namespace StrongComponents

open Relation Closure

section Order

variable {α : Type} (next : α → List α)

/-- Each of two nodes leads to the other. -/
def Strong (a b : α) : Prop := ReflTransGen (Edge next) a b ∧ ReflTransGen (Edge next) b a

/-- At each node of an order, the edges of the nodes so far lead to nodes so far or to nodes that lead to it. -/
def Postorder (order : List α) : Prop :=
  ∀ before u after, order = before ++ u :: after → ∀ a, a ∈ before ∨ a = u → ∀ b ∈ next a,
    (b ∈ before ∨ b = u) ∨ ReflTransGen (Edge next) b u

variable {next} {order before after : List α} {a b c u : α}

namespace Strong

theorem refl (a : α) : Strong next a a := ⟨.refl, .refl⟩

theorem symm (h : Strong next a b) : Strong next b a := ⟨h.2, h.1⟩

theorem trans (h : Strong next a b) (h' : Strong next b c) : Strong next a c := ⟨h.1.trans h'.1, h'.2.trans h.2⟩

/-- Two nodes of one component lie on a cycle. -/
theorem cycle (h : Strong next a b) (hne : a ≠ b) : TransGen (Edge next) a a := by
  cases reflTransGen_iff_eq_or_transGen.mp h.1 with
  | inl heq => exact absurd heq.symm hne
  | inr hpath => exact hpath.trans_left h.2

end Strong

/-- A path out of a set leaves it by an edge. -/
theorem exists_exit {s : α → Prop} (ha : s a) (hb : ¬ s b) (h : ReflTransGen (Edge next) a b) :
    ∃ c d, s c ∧ ¬ s d ∧ ReflTransGen (Edge next) a c ∧ d ∈ next c := by
  induction h with
  | refl => exact absurd ha hb
  | @tail c d hpath hedge ih =>
    by_cases hc : s c
    · exact ⟨c, d, hc, hb, hpath, hedge⟩
    · exact ih hc

theorem exists_last {p : α → Prop} {l : List α} (h : ∃ a ∈ l, p a) :
    ∃ before a after, l = before ++ a :: after ∧ p a ∧ ∀ b ∈ after, ¬ p b := by
  induction l with
  | nil =>
    obtain ⟨a, ha, -⟩ := h
    cases ha
  | cons x l ih =>
    by_cases hl : ∃ a ∈ l, p a
    · obtain ⟨before, a, after, hsplit, ha, hafter⟩ := ih hl
      exact ⟨x :: before, a, after, by rw [hsplit, List.cons_append], ha, hafter⟩
    · obtain ⟨a, ha, hpa⟩ := h
      have hax : a = x := (List.mem_cons.mp ha).resolve_right fun hmem => hl ⟨a, hmem, hpa⟩
      exact ⟨[], x, l, rfl, hax ▸ hpa, fun b hb hpb => hl ⟨b, hb, hpb⟩⟩

/-- A node that leads to `u`, and has nobody of its component after `u`, is of the component of `u`. -/
theorem Postorder.strong (hpost : Postorder next order) (hnodup : order.Nodup)
    (hclosed : ∀ a ∈ order, ∀ b ∈ next a, b ∈ order) (horder : order = before ++ u :: after) (ha : a ∈ order)
    (hafter : ∀ b ∈ after, ¬ Strong next a b) (hau : ReflTransGen (Edge next) a u) : Strong next a u := by
  obtain ⟨front, m, back, hsplit, hstrong, hlast⟩ := exists_last ⟨a, ha, Strong.refl a⟩
  by_cases hmu : m = u
  · exact hmu ▸ hstrong
  -- the last of the component comes before `u`, and a path from it to `u` leaves what comes so far
  have hout : ¬ (u ∈ front ∨ u = m) := by
    intro hu
    have hfront : u ∈ front := hu.resolve_right (Ne.symm hmu)
    obtain ⟨first, second, rfl⟩ := List.append_of_mem hfront
    have hsame : before ++ u :: after = first ++ u :: (second ++ m :: back) := by
      rw [← horder, hsplit, List.append_assoc, List.cons_append]
    have hu_before : u ∉ before ∧ u ∉ after := by
      rw [horder, List.nodup_middle, List.nodup_cons, List.mem_append, not_or] at hnodup
      exact hnodup.1
    obtain ⟨-, -, htail⟩ := (List.append_cons_inj_of_notMem hu_before.1 hu_before.2).mp hsame
    refine hafter m ?_ hstrong
    rw [htail]
    exact List.mem_append_right _ List.mem_cons_self
  obtain ⟨c, d, hc, hd, hmc, hcd⟩ := exists_exit (s := fun b => b ∈ front ∨ b = m) (.inr rfl) hout (hstrong.2.trans hau)
  have hback : ReflTransGen (Edge next) d m := (hpost _ _ _ hsplit c hc d hcd).resolve_left hd
  have had : Strong next a d := hstrong.trans ⟨hmc.tail hcd, hback⟩
  have hcorder : c ∈ order := by
    rw [hsplit, List.mem_append, List.mem_cons]
    exact hc.imp_right .inl
  have hdorder := hclosed c hcorder d hcd
  rw [hsplit, List.mem_append, List.mem_cons, ← or_assoc] at hdorder
  exact absurd had (hlast d (hdorder.resolve_left hd))

theorem Postorder.snoc (h : Postorder next order)
    (hu : ∀ a, a ∈ order ∨ a = u → ∀ b ∈ next a, (b ∈ order ∨ b = u) ∨ ReflTransGen (Edge next) b u) :
    Postorder next (order ++ [u]) := by
  intro before v after hsplit
  cases List.eq_nil_or_concat after with
  | inl hnil =>
    rw [hnil] at hsplit
    obtain ⟨rfl, hv⟩ := List.append_inj' hsplit rfl
    cases hv
    exact hu
  | inr hconcat =>
    obtain ⟨rest, w, rfl⟩ := hconcat
    rw [List.concat_eq_append, ← List.cons_append, ← List.append_assoc] at hsplit
    exact h before v rest (List.append_inj' hsplit rfl).1

end Order

/-! ### The walk -/

section Walk

variable {α : Type} [DecidableEq α] (next : α → List α)

/-- What a depth-first walk has seen, what it has finished, and where it is: the nodes on the way to the current
one, which stands first, each with the number of its edges looked at. -/
structure Walk (α : Type) where
  visited : List α
  order : List α
  stack : List (α × ℕ)

/-- The walk looks at an edge of the current node, or finishes it. -/
def Walk.advance (visited order : List α) (current : α) (n : ℕ) (stack : List (α × ℕ)) : Walk α :=
  match (next current)[n]? with
  | some b =>
    if b ∈ visited then ⟨visited, order, (current, n + 1) :: stack⟩
    else ⟨b :: visited, order, (b, 0) :: (current, n + 1) :: stack⟩
  | none => ⟨visited, order ++ [current], stack⟩

/-- Walk until nothing is stacked. -/
def drain : ℕ → Walk α → Option (Walk α)
  | _, ⟨visited, order, []⟩ => some ⟨visited, order, []⟩
  | 0, ⟨_, _, _ :: _⟩ => none
  | fuel + 1, ⟨visited, order, (current, n) :: stack⟩ => drain fuel (Walk.advance next visited order current n stack)

/-- Walk from each root that has not been visited. -/
def finish (fuel : ℕ) (roots : List α) (w : Walk α) : Option (Walk α) :=
  roots.foldlM (fun w root =>
    if root ∈ w.visited then some w else drain next fuel ⟨root :: w.visited, w.order, [(root, 0)]⟩) w

/-- What holds throughout a walk from some roots. -/
structure Walking (roots : List α) (w : Walk α) : Prop where
  mem_visited : ∀ a, a ∈ w.visited ↔ a ∈ w.order ∨ a ∈ w.stack.map Prod.fst
  nodup : (w.order ++ w.stack.map Prod.fst).Nodup
  path : (w.stack.map Prod.fst).Pairwise fun upper lower => ReflTransGen (Edge next) lower upper
  looked : ∀ e ∈ w.stack, ∀ b ∈ (next e.1).take e.2, b ∈ w.visited
  closed : ∀ a ∈ w.order, ∀ b ∈ next a, b ∈ w.visited
  post : Postorder next w.order
  reached : ∀ a ∈ w.visited, ∃ root ∈ roots, ReflTransGen (Edge next) root a

/-- The steps that a walk has to go. -/
def Walk.left (domain : List α) (w : Walk α) : ℕ :=
  edgesLeft (fun a => a :: next a) domain w.visited + (w.stack.map fun e => (next e.1).length - e.2 + 1).sum

variable {next} {roots domain visited order : List α} {current b : α} {n fuel : ℕ} {stack stack' : List (α × ℕ)} {w : Walk α}

namespace Walking

omit [DecidableEq α] in
theorem pop (h : Walking next roots ⟨visited, order, (current, n) :: stack⟩) (hnone : (next current)[n]? = none) :
    Walking next roots ⟨visited, order ++ [current], stack⟩ := by
  have hall : (next current).take n = next current := List.take_of_length_le (List.getElem?_eq_none_iff.mp hnone)
  have hedges : ∀ b ∈ next current, b ∈ visited := by
    have hlooked := h.looked (current, n) List.mem_cons_self
    rwa [hall] at hlooked
  have hmem : ∀ a, a ∈ visited ↔ a ∈ order ∨ a = current ∨ a ∈ stack.map Prod.fst := by
    intro a
    rw [h.mem_visited a, List.map_cons, List.mem_cons]
  have hpath := List.pairwise_cons.mp h.path
  constructor
  · intro a
    rw [hmem, List.mem_append, List.mem_singleton, or_assoc]
  · have hsame : order ++ [current] ++ stack.map Prod.fst = order ++ current :: stack.map Prod.fst := by
      rw [List.append_assoc, List.singleton_append]
    have hnodup : (order ++ current :: stack.map Prod.fst).Nodup := h.nodup
    rwa [← hsame] at hnodup
  · exact hpath.2
  · exact fun e he => h.looked e (List.mem_cons_of_mem _ he)
  · intro a ha
    cases List.mem_append.mp ha with
    | inl ha => exact h.closed a ha
    | inr ha =>
      rw [List.mem_singleton.mp ha]
      exact hedges
  · apply h.post.snoc
    intro a ha b hb
    have hvisited : b ∈ visited := by
      cases ha with
      | inl ha => exact h.closed a ha b hb
      | inr ha => exact hedges b (ha ▸ hb)
    rw [hmem, ← or_assoc] at hvisited
    -- what is stacked below the node that is finished leads to it
    exact hvisited.imp_right fun hstack => hpath.1 b hstack
  · exact h.reached

omit [DecidableEq α] in
/-- The edges looked at may be counted anew. -/
theorem restack (h : Walking next roots ⟨visited, order, stack⟩) (hsame : stack'.map Prod.fst = stack.map Prod.fst)
    (hlooked : ∀ e ∈ stack', ∀ b ∈ (next e.1).take e.2, b ∈ visited) :
    Walking next roots ⟨visited, order, stack'⟩ where
  mem_visited a := by rw [hsame, h.mem_visited a]
  nodup := by
    rw [hsame]
    exact h.nodup
  path := by
    rw [hsame]
    exact h.path
  looked := hlooked
  closed := h.closed
  post := h.post
  reached := h.reached

omit [DecidableEq α] in
theorem push (h : Walking next roots ⟨visited, order, stack⟩) (hb : b ∉ visited)
    (hstack : ∀ a ∈ stack.map Prod.fst, ReflTransGen (Edge next) a b)
    (hroot : ∃ root ∈ roots, ReflTransGen (Edge next) root b) :
    Walking next roots ⟨b :: visited, order, (b, 0) :: stack⟩ where
  mem_visited a := by
    rw [List.mem_cons, h.mem_visited a, List.map_cons, List.mem_cons]
    exact or_left_comm
  nodup := by
    have hnew := hb
    rw [h.mem_visited b, ← List.mem_append] at hnew
    rw [List.map_cons, List.nodup_middle]
    exact List.nodup_cons.mpr ⟨hnew, h.nodup⟩
  path := List.pairwise_cons.mpr ⟨hstack, h.path⟩
  looked e he := by
    cases he with
    | head => exact fun c hc => (by cases hc)
    | tail _ he => exact fun c hc => List.mem_cons_of_mem _ (h.looked e he c hc)
  closed a ha c hc := List.mem_cons_of_mem _ (h.closed a ha c hc)
  post := h.post
  reached a ha := by
    cases ha with
    | head => exact hroot
    | tail _ ha => exact h.reached a ha

theorem advance (h : Walking next roots ⟨visited, order, (current, n) :: stack⟩) :
    Walking next roots (Walk.advance next visited order current n stack) := by
  unfold Walk.advance
  cases hget : (next current)[n]? with
  | none => exact h.pop hget
  | some b =>
    have hedge : Edge next current b := List.mem_of_getElem? hget
    have htake : (next current).take (n + 1) = (next current).take n ++ [b] := by
      rw [List.take_add_one, hget]
      rfl
    have hlooked : ∀ {seen : List α}, b ∈ seen → (∀ a ∈ visited, a ∈ seen) →
        ∀ e ∈ (current, n + 1) :: stack, ∀ c ∈ (next e.1).take e.2, c ∈ seen := by
      intro seen hb hsub e he c hc
      cases he with
      | head =>
        rw [htake, List.mem_append] at hc
        cases hc with
        | inl hc => exact hsub c (h.looked _ List.mem_cons_self c hc)
        | inr hc => exact List.mem_singleton.mp hc ▸ hb
      | tail _ he => exact hsub c (h.looked e (List.mem_cons_of_mem _ he) c hc)
    by_cases hb : b ∈ visited
    · simp only [if_pos hb]
      exact h.restack rfl (hlooked hb fun a ha => ha)
    · simp only [if_neg hb]
      obtain ⟨root, hroot, hpath⟩ := h.reached current ((h.mem_visited current).mpr (.inr List.mem_cons_self))
      have hbelow := List.pairwise_cons.mp h.path
      have hstack : ∀ a ∈ ((current, n) :: stack).map Prod.fst, ReflTransGen (Edge next) a b := by
        intro a ha
        cases ha with
        | head => exact .single hedge
        | tail _ ha => exact (hbelow.1 a ha).tail hedge
      refine (h.push hb hstack ⟨root, hroot, hpath.tail hedge⟩).restack rfl fun e he => ?_
      cases he with
      | head => exact fun c hc => (by cases hc)
      | tail _ he => exact hlooked List.mem_cons_self (fun a ha => List.mem_cons_of_mem _ ha) e he

end Walking

theorem Walk.advance_left (hdomain : ∀ b ∈ next current, b ∈ domain) :
    (Walk.advance next visited order current n stack).left next domain + 1 ≤
      Walk.left next domain ⟨visited, order, (current, n) :: stack⟩ := by
  unfold Walk.advance
  cases hget : (next current)[n]? with
  | none =>
    simp only [Walk.left, List.map_cons, List.sum_cons]
    omega
  | some b =>
    have hlt : n < (next current).length := (List.getElem?_eq_some_iff.mp hget).1
    by_cases hb : b ∈ visited
    · simp only [if_pos hb, Walk.left, List.map_cons, List.sum_cons]
      omega
    · have hnew : edgesLeft (fun a => a :: next a) domain (b :: visited) + (b :: next b).length ≤
          edgesLeft (fun a => a :: next a) domain visited := edgesLeft_cons_lt (hdomain b (List.mem_of_getElem? hget)) hb
      simp only [if_neg hb, Walk.left, List.map_cons, List.sum_cons]
      rw [List.length_cons] at hnew
      omega

theorem Walk.advance_visited (a : α) (ha : a ∈ visited) :
    a ∈ (Walk.advance next visited order current n stack).visited := by
  unfold Walk.advance
  cases (next current)[n]? with
  | none => exact ha
  | some b =>
    by_cases hb : b ∈ visited
    · simp only [if_pos hb, ha]
    · simp only [if_neg hb]
      exact List.mem_cons_of_mem _ ha

theorem drain_walking (hdomain : ∀ a, ∀ b ∈ next a, b ∈ domain) (h : Walking next roots w)
    (hfuel : w.left next domain ≤ fuel) :
    ∃ w', drain next fuel w = some w' ∧ Walking next roots w' ∧ w'.stack = [] ∧ ∀ a ∈ w.visited, a ∈ w'.visited := by
  induction fuel generalizing w with
  | zero =>
    obtain ⟨visited, order, stack⟩ := w
    cases stack with
    | nil => exact ⟨_, rfl, h, rfl, fun a ha => ha⟩
    | cons e stack =>
      simp only [Walk.left, List.map_cons, List.sum_cons] at hfuel
      omega
  | succ fuel ih =>
    obtain ⟨visited, order, stack⟩ := w
    cases stack with
    | nil => exact ⟨_, rfl, h, rfl, fun a ha => ha⟩
    | cons e stack =>
      obtain ⟨current, n⟩ := e
      have hleft := (Walk.advance_left (hdomain current)).trans hfuel
      obtain ⟨w', hw', hwalking, hstack, hsub⟩ := ih h.advance (Nat.le_of_succ_le_succ hleft)
      exact ⟨w', hw', hwalking, hstack, fun a ha => hsub a (Walk.advance_visited a ha)⟩

theorem finish_walking (hdomain : ∀ a, ∀ b ∈ next a, b ∈ domain) (hfuel : edgesLeft (fun a => a :: next a) domain [] ≤ fuel)
    {rest : List α} (hrest : ∀ root ∈ rest, root ∈ roots ∧ root ∈ domain) (h : Walking next roots w) (hstack : w.stack = []) :
    ∃ w', finish next fuel rest w = some w' ∧ Walking next roots w' ∧ w'.stack = [] ∧
      (∀ a ∈ w.visited, a ∈ w'.visited) ∧ ∀ root ∈ rest, root ∈ w'.visited := by
  induction rest generalizing w with
  | nil => exact ⟨w, rfl, h, hstack, fun a ha => ha, fun root hroot => (by cases hroot)⟩
  | cons root rest ih =>
    have hothers : ∀ other ∈ rest, other ∈ roots ∧ other ∈ domain := fun other hother =>
      hrest other (List.mem_cons_of_mem _ hother)
    by_cases hvisited : root ∈ w.visited
    · obtain ⟨w', hw', hwalking, hempty, hsub, hall⟩ := ih hothers h hstack
      refine ⟨w', ?_, hwalking, hempty, hsub, fun other hother => ?_⟩
      · rw [finish, List.foldlM_cons, if_pos hvisited]
        exact hw'
      · cases hother with
        | head => exact hsub root hvisited
        | tail _ hother => exact hall other hother
    · obtain ⟨visited, order, stack⟩ := w
      obtain rfl : stack = [] := hstack
      obtain ⟨hroot, hin⟩ := hrest root List.mem_cons_self
      have hpush := h.push hvisited (fun a ha => (by cases ha)) ⟨root, hroot, .refl⟩
      have hleft : Walk.left next domain ⟨root :: visited, order, [(root, 0)]⟩ ≤ fuel := by
        have hnew : edgesLeft (fun a => a :: next a) domain (root :: visited) + (root :: next root).length ≤
            edgesLeft (fun a => a :: next a) domain visited := edgesLeft_cons_lt hin hvisited
        have hanti : edgesLeft (fun a => a :: next a) domain visited ≤ edgesLeft (fun a => a :: next a) domain [] :=
          edgesLeft_anti (List.nil_subset visited)
        rw [List.length_cons] at hnew
        simp only [Walk.left, List.map_cons, List.map_nil, List.sum_cons, List.sum_nil]
        omega
      obtain ⟨w₁, hw₁, hwalking₁, hempty₁, hsub₁⟩ := drain_walking hdomain hpush hleft
      obtain ⟨w', hw', hwalking, hempty, hsub, hall⟩ := ih hothers hwalking₁ hempty₁
      refine ⟨w', ?_, hwalking, hempty, fun a ha => hsub a (hsub₁ a (List.mem_cons_of_mem _ ha)), fun other hother => ?_⟩
      · rw [finish, List.foldlM_cons, if_neg hvisited, hw₁]
        exact hw'
      · cases hother with
        | head => exact hsub root (hsub₁ root List.mem_cons_self)
        | tail _ hother => exact hall other hother

end Walk

/-! ### The searches -/

section Search

variable {α : Type} [DecidableEq α] (next prev : α → List α)

/-- Each node's component, the components that hold a cycle, and how many there are. -/
structure Components (α : Type) where
  componentOf : α → Option ℕ
  cyclic : List ℕ
  count : ℕ

/-- A node without a component is given one, and stacked. -/
def label (component : ℕ) (front : (α → Option ℕ) × List α) (a : α) : (α → Option ℕ) × List α :=
  if (front.1 a).isSome then front else (Function.update front.1 a (some component), a :: front.2)

/-- The nodes of a component, gathered until nothing is stacked. -/
def gather (component : ℕ) : ℕ → (α → Option ℕ) → List α → List α → Option ((α → Option ℕ) × List α)
  | _, componentOf, members, [] => some (componentOf, members)
  | 0, _, _, _ :: _ => none
  | fuel + 1, componentOf, members, current :: stack =>
    let front := (prev current).foldl (label component) (componentOf, stack)
    gather component fuel front.1 (members ++ [current]) front.2

/-- A node without a component begins one. -/
def collect (fuel : ℕ) (c : Components α) (root : α) : Option (Components α) :=
  if (c.componentOf root).isSome then some c
  else (gather prev c.count fuel (Function.update c.componentOf root (some c.count)) [] [root]).map fun found =>
    ⟨found.1, if 1 < found.2.length ∨ root ∈ next root then c.cyclic ++ [c.count] else c.cyclic, c.count + 1⟩

/-- The components of what the roots lead to. -/
def components (fuel : ℕ) (roots : List α) : Option (Components α) :=
  (finish next fuel roots ⟨[], [], []⟩).bind fun w => w.order.reverse.foldlM (collect next prev fuel) ⟨fun _ => none, [], 0⟩

/-- What holds while the component of `root` is gathered: the nodes taken off the stack and those on it are the ones
that have been added to it. -/
structure Gathering (old : α → Option ℕ) (root : α) (component : ℕ) (componentOf : α → Option ℕ)
    (members stack : List α) : Prop where
  value : ∀ a, componentOf a = if a ∈ members ++ stack then some component else old a
  fresh : ∀ a ∈ members ++ stack, old a = none ∧ ReflTransGen (Edge next) a root
  nodup : (members ++ stack).Nodup
  root_mem : root ∈ members ++ stack

variable {next prev} {old componentOf : α → Option ℕ} {members stack domain : List α} {component fuel : ℕ} {root a : α}

namespace Gathering

theorem isSome_iff (h : Gathering next old root component componentOf members stack) (a : α) :
    (componentOf a).isSome ↔ a ∈ members ++ stack ∨ (old a).isSome := by
  rw [h.value a]
  split_ifs with hmem
  · exact iff_of_true rfl (.inl hmem)
  · exact (or_iff_right hmem).symm

theorem label (h : Gathering next old root component componentOf members stack) (ha : ReflTransGen (Edge next) a root) :
    Gathering next old root component (label component (componentOf, stack) a).1 members
      (label component (componentOf, stack) a).2 := by
  unfold StrongComponents.label
  by_cases hsome : (componentOf a).isSome = true
  · rw [if_pos hsome]
    exact h
  · rw [if_neg hsome]
    have hout := hsome
    rw [h.isSome_iff, not_or] at hout
    have hmem : ∀ b, b ∈ members ++ a :: stack ↔ b = a ∨ b ∈ members ++ stack := by
      intro b
      rw [List.mem_append, List.mem_cons, List.mem_append]
      exact or_left_comm
    constructor
    · intro b
      dsimp only
      rw [Function.update_apply, h.value b]
      by_cases hb : b = a
      · rw [if_pos hb, if_pos ((hmem b).mpr (.inl hb))]
      · have hiff : b ∈ members ++ a :: stack ↔ b ∈ members ++ stack := (hmem b).trans (or_iff_right hb)
        simp only [if_neg hb, hiff]
    · intro b hb
      cases (hmem b).mp hb with
      | inl hba =>
        rw [hba]
        exact ⟨Option.not_isSome_iff_eq_none.mp hout.2, ha⟩
      | inr hb => exact h.fresh b hb
    · rw [List.nodup_middle]
      exact List.nodup_cons.mpr ⟨hout.1, h.nodup⟩
    · exact (hmem root).mpr (.inr h.root_mem)

/-- A node's neighbours are labelled one by one, and all of them are labelled then. -/
theorem labelAll (h : Gathering next old root component componentOf members stack) {targets : List α}
    (htargets : ∀ a ∈ targets, ReflTransGen (Edge next) a root) :
    ∃ componentOf' stack', targets.foldl (StrongComponents.label component) (componentOf, stack) = (componentOf', stack') ∧
      Gathering next old root component componentOf' members stack' ∧ (∀ a ∈ targets, (componentOf' a).isSome) ∧
      ∀ a, (componentOf a).isSome → (componentOf' a).isSome := by
  induction targets generalizing componentOf stack with
  | nil => exact ⟨componentOf, stack, rfl, h, fun a ha => (by cases ha), fun a ha => ha⟩
  | cons b targets ih =>
    obtain ⟨componentOf', stack', hfold, hgathering, hall, hsome⟩ := ih (h.label (htargets b List.mem_cons_self))
      fun a ha => htargets a (List.mem_cons_of_mem _ ha)
    have hfirst : ∀ a, (componentOf a).isSome ∨ a = b →
        ((StrongComponents.label component (componentOf, stack) b).1 a).isSome := by
      intro a ha
      unfold StrongComponents.label
      by_cases hb : (componentOf b).isSome = true
      · rw [if_pos hb]
        cases ha with
        | inl ha => exact ha
        | inr ha => exact ha ▸ hb
      · rw [if_neg hb]
        dsimp only
        rw [Function.update_apply]
        split_ifs with hab
        · rfl
        · exact ha.resolve_right hab
    refine ⟨componentOf', stack', hfold, hgathering, fun a ha => ?_, fun a ha => hsome a (hfirst a (.inl ha))⟩
    cases ha with
    | head => exact hsome b (hfirst b (.inr rfl))
    | tail _ ha => exact hall a ha

end Gathering

/-- What is gathered has all its predecessors labelled. -/
theorem gather_spec (hprev : ∀ a b, a ∈ prev b ↔ b ∈ next a)
    (hdomain : ∀ a, ReflTransGen (Edge next) a root → a ∈ domain) (hfuel : domain.length ≤ fuel + members.length)
    (h : Gathering next old root component componentOf members stack)
    (hclosed : ∀ b ∈ members, ∀ a ∈ prev b, (componentOf a).isSome) :
    ∃ componentOf' members', gather prev component fuel componentOf members stack = some (componentOf', members') ∧
      Gathering next old root component componentOf' members' [] ∧
      ∀ b ∈ members', ∀ a ∈ prev b, (componentOf' a).isSome := by
  induction fuel generalizing componentOf members stack with
  | zero =>
    cases stack with
    | nil => exact ⟨componentOf, members, rfl, h, hclosed⟩
    | cons b stack =>
      have hsub : members ++ b :: stack ⊆ domain := fun a ha => hdomain a (h.fresh a ha).2
      have hle := (List.subperm_of_subset h.nodup hsub).length_le
      rw [List.length_append, List.length_cons] at hle
      omega
  | succ fuel ih =>
    cases stack with
    | nil => exact ⟨componentOf, members, rfl, h, hclosed⟩
    | cons b stack =>
      have hpop : Gathering next old root component componentOf (members ++ [b]) stack := by
        have hsame : members ++ b :: stack = members ++ [b] ++ stack := by rw [List.append_assoc, List.singleton_append]
        exact ⟨hsame ▸ h.value, hsame ▸ h.fresh, hsame ▸ h.nodup, hsame ▸ h.root_mem⟩
      have hb : ReflTransGen (Edge next) b root := (h.fresh b (List.mem_append_right _ List.mem_cons_self)).2
      obtain ⟨componentOf', stack', hfold, hgathering, hall, hsome⟩ := hpop.labelAll fun (a : α) (ha : a ∈ prev b) =>
        .head ((hprev a b).mp ha) hb
      have hclosed' : ∀ c ∈ members ++ [b], ∀ a ∈ prev c, (componentOf' a).isSome := by
        intro c hc a ha
        cases List.mem_append.mp hc with
        | inl hc => exact hsome a (hclosed c hc a ha)
        | inr hc =>
          rw [List.mem_singleton.mp hc] at ha
          exact hall a ha
      have hlength : domain.length ≤ fuel + (members ++ [b]).length := by
        rw [List.length_append, List.length_singleton]
        omega
      obtain ⟨result, members', hresult, hdone⟩ := ih hlength hgathering hclosed'
      refine ⟨result, members', ?_, hdone⟩
      rw [gather]
      simp only [hfold]
      exact hresult

variable (next) in
/-- What holds when the nodes of `done` have been collected, the last of an order that they are. -/
structure Collected (done : List α) (c : Components α) : Prop where
  labelled : ∀ a, (c.componentOf a).isSome ↔ ∃ b ∈ done, Strong next a b
  strong : ∀ {a i}, c.componentOf a = some i → ∀ b, c.componentOf b = some i ↔ Strong next a b
  lt : ∀ {a i}, c.componentOf a = some i → i < c.count
  cyclic : ∀ i, i ∈ c.cyclic ↔ ∃ a, c.componentOf a = some i ∧ TransGen (Edge next) a a

variable {done before order : List α} {c : Components α}

/-- The nodes gathered from a root are those of its component. -/
theorem Collected.mem_iff (hc : Collected next done c) (hprev : ∀ a b, a ∈ prev b ↔ b ∈ next a)
    (hroot : ¬ (c.componentOf root).isSome)
    (hstrong : ∀ a, ReflTransGen (Edge next) a root → (∀ b ∈ done, ¬ Strong next a b) → Strong next a root)
    (h : Gathering next c.componentOf root component componentOf members [])
    (hclosed : ∀ b ∈ members, ∀ a ∈ prev b, (componentOf a).isSome) (a : α) : a ∈ members ↔ Strong next a root := by
  constructor
  · intro ha
    obtain ⟨hnone, hpath⟩ := h.fresh a (List.mem_append_left _ ha)
    refine hstrong a hpath fun b hb hab => ?_
    have hsome := (hc.labelled a).mpr ⟨b, hb, hab⟩
    rw [hnone] at hsome
    cases hsome
  · intro ha
    have hmem := h.root_mem
    rw [List.append_nil] at hmem
    -- back along the path to the root, which stays in the component
    obtain ⟨hpath, hback⟩ := ha
    induction hpath using ReflTransGen.head_induction_on with
    | refl => exact hmem
    | @head a b hedge hrest ih =>
      have hb := ih (hback.tail hedge)
      have hsome := hclosed b hb a ((hprev a b).mpr hedge)
      rw [h.isSome_iff, List.append_nil] at hsome
      refine hsome.resolve_right fun hold => hroot ?_
      obtain ⟨d, hd, had⟩ := (hc.labelled a).mp hold
      have hra : Strong next root a := ⟨hback, .head hedge hrest⟩
      exact (hc.labelled root).mpr ⟨d, hd, hra.trans had⟩

/-- A component has a cycle exactly where it has two members or its root leads to itself. -/
theorem cyclic_iff (hmembers : ∀ a, a ∈ members ↔ Strong next a root) (hnodup : members.Nodup) :
    1 < members.length ∨ root ∈ next root ↔ ∃ a ∈ members, TransGen (Edge next) a a := by
  have hroot : root ∈ members := (hmembers root).mpr (.refl root)
  constructor
  · intro h
    cases h with
    | inr hself => exact ⟨root, hroot, .single hself⟩
    | inl hlength =>
      have hother : ∃ a ∈ members, a ≠ root := by
        by_contra hall
        have heq : ∀ a ∈ members, a = root := fun a ha => by_contra fun hne => hall ⟨a, ha, hne⟩
        have hrepeat := List.eq_replicate_of_mem heq
        rw [hrepeat] at hnodup
        have hle := List.nodup_replicate.mp hnodup
        omega
      obtain ⟨a, ha, hne⟩ := hother
      exact ⟨a, ha, ((hmembers a).mp ha).cycle hne⟩
  · rintro ⟨a, ha, hcycle⟩
    by_contra hnot
    rw [not_or, not_lt] at hnot
    have honly : ∀ b, Strong next b root → b = root := by
      intro b hb
      have hbmem := (hmembers b).mpr hb
      obtain ⟨d, hd⟩ : ∃ d, members = [d] := by
        cases members with
        | nil => cases hroot
        | cons d rest =>
          have hnil : rest = [] := List.eq_nil_of_length_eq_zero (by simpa using hnot.1)
          exact ⟨d, by rw [hnil]⟩
      rw [hd, List.mem_singleton] at hbmem hroot
      rw [hbmem, hroot]
    rw [honly a ((hmembers a).mp ha)] at hcycle
    obtain ⟨d, hedge, hrest⟩ := TransGen.head'_iff.mp hcycle
    have hd := honly d ⟨hrest, .single hedge⟩
    exact hnot.2 (hd ▸ hedge)

/-- One root of an order is collected. -/
theorem Collected.collect (hc : Collected next done c) (hprev : ∀ a b, a ∈ prev b ↔ b ∈ next a)
    (hdomain : ∀ a, ReflTransGen (Edge next) a root → a ∈ domain) (hfuel : domain.length ≤ fuel)
    (hstrong : ∀ a, ReflTransGen (Edge next) a root → (∀ b ∈ done, ¬ Strong next a b) → Strong next a root) :
    ∃ c', collect next prev fuel c root = some c' ∧ Collected next (root :: done) c' := by
  unfold StrongComponents.collect
  by_cases hroot : (c.componentOf root).isSome = true
  · rw [if_pos hroot]
    refine ⟨c, rfl, fun a => ?_, hc.strong, hc.lt, hc.cyclic⟩
    rw [hc.labelled a, List.exists_mem_cons_iff]
    constructor
    · exact .inr
    · intro h
      cases h with
      | inr h => exact h
      | inl h =>
        obtain ⟨b, hb, hstrong⟩ := (hc.labelled root).mp hroot
        exact ⟨b, hb, h.trans hstrong⟩
  · rw [if_neg hroot]
    have hstart : Gathering next c.componentOf root c.count (Function.update c.componentOf root (some c.count)) [] [root] := by
      constructor
      · intro a
        rw [Function.update_apply, List.nil_append]
        simp only [List.mem_singleton]
      · intro a ha
        rw [List.mem_singleton.mp ha]
        exact ⟨Option.not_isSome_iff_eq_none.mp hroot, .refl⟩
      · exact List.nodup_singleton root
      · exact List.mem_singleton_self root
    obtain ⟨componentOf', members, hgather, hdone, hclosed⟩ := gather_spec hprev hdomain hfuel hstart
      fun b hb => (by cases hb)
    have hmembers := hc.mem_iff hprev hroot hstrong hdone hclosed
    have hvalue : ∀ a, componentOf' a = if a ∈ members then some c.count else c.componentOf a := by
      intro a
      rw [hdone.value a, List.append_nil]
    have hnodup := hdone.nodup
    rw [List.append_nil] at hnodup
    refine ⟨⟨componentOf', _, c.count + 1⟩, by rw [hgather]; rfl, ?_, ?_, ?_, ?_⟩
    · intro a
      rw [List.exists_mem_cons_iff, ← hmembers a, ← hc.labelled a, hdone.isSome_iff a, List.append_nil]
    · intro a i hi b
      dsimp only at hi ⊢
      rw [hvalue] at hi ⊢
      by_cases ha : a ∈ members
      · rw [if_pos ha] at hi
        cases hi
        have haroot := (hmembers a).mp ha
        by_cases hb : b ∈ members
        · rw [if_pos hb]
          exact iff_of_true rfl (haroot.trans ((hmembers b).mp hb).symm)
        · rw [if_neg hb]
          refine iff_of_false (fun hlabel => absurd (hc.lt hlabel) (lt_irrefl _)) fun hab => hb ?_
          exact (hmembers b).mpr (hab.symm.trans haroot)
      · rw [if_neg ha] at hi
        by_cases hb : b ∈ members
        · rw [if_pos hb]
          refine iff_of_false (fun hlabel => ?_) fun hab => ha ((hmembers a).mpr (hab.trans ((hmembers b).mp hb)))
          cases hlabel
          exact lt_irrefl _ (hc.lt hi)
        · rw [if_neg hb]
          exact hc.strong hi b
    · intro a i hi
      dsimp only at hi ⊢
      rw [hvalue] at hi
      split_ifs at hi with ha
      · cases hi
        exact Nat.lt_succ_self _
      · exact Nat.lt_succ_of_lt (hc.lt hi)
    · intro i
      dsimp only
      have hnew : (∃ a, componentOf' a = some i ∧ TransGen (Edge next) a a) ↔
          i = c.count ∧ (∃ a ∈ members, TransGen (Edge next) a a) ∨ i ∈ c.cyclic := by
        rw [hc.cyclic i]
        constructor
        · rintro ⟨a, ha, hcycle⟩
          rw [hvalue] at ha
          split_ifs at ha with hmem
          · cases ha
            exact .inl ⟨rfl, a, hmem, hcycle⟩
          · exact .inr ⟨a, ha, hcycle⟩
        · intro h
          cases h with
          | inl h =>
            obtain ⟨rfl, a, ha, hcycle⟩ := h
            exact ⟨a, by rw [hvalue, if_pos ha], hcycle⟩
          | inr h =>
            obtain ⟨a, ha, hcycle⟩ := h
            have hout : a ∉ members := by
              intro hmem
              have hnone := (hdone.fresh a (List.mem_append_left _ hmem)).1
              rw [ha] at hnone
              cases hnone
            exact ⟨a, by rw [hvalue, if_neg hout, ha], hcycle⟩
      rw [hnew, ← cyclic_iff hmembers hnodup]
      split_ifs with hcyclic
      · rw [List.mem_append, List.mem_singleton, or_comm, and_iff_left hcyclic]
      · rw [iff_false_intro (fun h : i = c.count ∧ _ => hcyclic h.2), false_or]

theorem collected_all (hprev : ∀ a b, a ∈ prev b ↔ b ∈ next a) (hdomain : ∀ root ∈ order, ∀ a,
      ReflTransGen (Edge next) a root → a ∈ order) (hpost : Postorder next order) (hnodup : order.Nodup)
    (hclosed : ∀ a ∈ order, ∀ b ∈ next a, b ∈ order) (hfuel : order.length ≤ fuel) {todo : List α}
    (horder : order = todo.reverse ++ done) (hc : Collected next done c) :
    ∃ c', todo.foldlM (StrongComponents.collect next prev fuel) c = some c' ∧ Collected next order c' := by
  induction todo generalizing done c with
  | nil =>
    rw [List.reverse_nil, List.nil_append] at horder
    exact ⟨c, rfl, horder ▸ hc⟩
  | cons root todo ih =>
    have hsplit : order = todo.reverse ++ root :: done := by
      rw [horder, List.reverse_cons, List.append_assoc, List.singleton_append]
    have hroot : root ∈ order := by
      rw [hsplit]
      exact List.mem_append_right _ List.mem_cons_self
    obtain ⟨c₁, hc₁, hcollected⟩ := hc.collect hprev (hdomain root hroot) hfuel fun a ha hdone =>
      hpost.strong hnodup hclosed hsplit (hdomain root hroot a ha) hdone ha
    obtain ⟨c', hc', hall⟩ := ih hsplit hcollected
    refine ⟨c', ?_, hall⟩
    rw [List.foldlM_cons, hc₁]
    exact hc'

/-- Two nodes that the roots lead to are of one component exactly when each leads to the other, and a component is
cyclic exactly when it has a cycle. -/
theorem components_spec {roots : List α} (hprev : ∀ a b, a ∈ prev b ↔ b ∈ next a) (hsources : ∀ a, next a ≠ [] → a ∈ roots)
    (hroots : ∀ root ∈ roots, root ∈ domain) (hdomain : ∀ a, ∀ b ∈ next a, b ∈ domain)
    (hfuel : edgesLeft (fun a => a :: next a) domain [] ≤ fuel) :
    ∃ c, components next prev fuel roots = some c ∧
      (∀ a, (c.componentOf a).isSome ↔ ∃ root ∈ roots, ReflTransGen (Edge next) root a) ∧
      (∀ {a i}, c.componentOf a = some i → ∀ b, c.componentOf b = some i ↔ Strong next a b) ∧
      ∀ i, i ∈ c.cyclic ↔ ∃ a, c.componentOf a = some i ∧ TransGen (Edge next) a a := by
  have hstart : Walking next roots ⟨[], [], []⟩ :=
    ⟨fun a => by simp, List.nodup_nil, List.Pairwise.nil, fun e he => (by cases he), fun a ha => (by cases ha),
      fun before u after h => (by simp at h), fun a ha => (by cases ha)⟩
  obtain ⟨w, hw, hwalking, hstack, -, hvisited⟩ := finish_walking hdomain hfuel
    (fun root hroot => ⟨hroot, hroots root hroot⟩) hstart rfl
  have hmem : ∀ a, a ∈ w.visited ↔ a ∈ w.order := by
    intro a
    rw [hwalking.mem_visited a, hstack]
    exact or_iff_left (by simp)
  have hnodup := hwalking.nodup
  rw [hstack, List.map_nil, List.append_nil] at hnodup
  have hclosed : ∀ a ∈ w.order, ∀ b ∈ next a, b ∈ w.order := fun a ha b hb => (hmem b).mp (hwalking.closed a ha b hb)
  have hbefore : ∀ root ∈ w.order, ∀ a, ReflTransGen (Edge next) a root → a ∈ w.order := by
    intro root hroot a ha
    cases ReflTransGen.cases_head ha with
    | inl heq => exact heq ▸ hroot
    | inr hedge =>
      obtain ⟨b, hab, -⟩ := hedge
      exact (hmem a).mp (hvisited a (hsources a (List.ne_nil_of_mem hab)))
  have hsub : w.order ⊆ domain := by
    intro a ha
    obtain ⟨root, hroot, hpath⟩ := hwalking.reached a ((hmem a).mpr ha)
    cases ReflTransGen.cases_tail hpath with
    | inl heq => exact heq ▸ hroots root hroot
    | inr hedge =>
      obtain ⟨b, -, hba⟩ := hedge
      exact hdomain b a hba
  have hlength : w.order.length ≤ fuel := by
    have hle := (List.subperm_of_subset hnodup hsub).length_le
    have hedges : domain.length ≤ edgesLeft (fun a => a :: next a) domain [] := by
      have hone : (domain.map fun _ => 1).sum = domain.length := by simp
      rw [← hone]
      apply List.sum_le_sum
      intro a _
      simp
    omega
  have hempty : Collected next [] (⟨fun _ => none, [], 0⟩ : Components α) :=
    ⟨fun a => by simp, fun h => (by cases h), fun h => (by cases h), fun i => by simp⟩
  obtain ⟨c, hc, hcollected⟩ := collected_all hprev hbefore hwalking.post hnodup hclosed hlength
    (by rw [List.reverse_reverse, List.append_nil]) hempty
  refine ⟨c, by rw [components, hw]; exact hc, fun a => ?_, hcollected.strong, hcollected.cyclic⟩
  rw [hcollected.labelled a]
  constructor
  · rintro ⟨b, hb, hab⟩
    obtain ⟨root, hroot, hpath⟩ := hwalking.reached b ((hmem b).mpr hb)
    exact ⟨root, hroot, hpath.trans hab.2⟩
  · rintro ⟨root, hroot, hpath⟩
    have horder : root ∈ w.order := (hmem root).mp (hvisited root hroot)
    have ha : a ∈ w.order := by
      induction hpath with
      | refl => exact horder
      | tail _ hedge ih => exact hclosed _ ih _ hedge
    exact ⟨a, ha, .refl a⟩

end Search

end StrongComponents
