import Mathlib.Logic.Relation
import Mathlib.Data.List.Nodup
import Mathlib.Data.Finset.Card

/-! Worklists that mark a node when they stack it, over graphs whose edges may fail to be read. -/
namespace Exploration

open Relation

variable {α ε : Type} [DecidableEq α]

/-- The marked nodes and, of these, the ones on the stack, its top first. -/
structure Front (α : Type) where
  marked : List α
  stack : List α

def Front.start (a : α) : Front α := ⟨[a], [a]⟩

def Front.mark (front : Front α) (a : α) : Front α :=
  if a ∈ front.marked then front else ⟨a :: front.marked, a :: front.stack⟩

/-- Take nodes off the stack, reading the edges of each; `none` when `fuel` nodes do not empty it. -/
def explore (next : α → Except ε (List α)) : ℕ → Front α → Option (Except ε (List α))
  | _, ⟨marked, []⟩ => some (.ok marked)
  | 0, ⟨_, _ :: _⟩ => none
  | fuel + 1, ⟨marked, a :: stack⟩ =>
    match next a with
    | .error e => some (.error e)
    | .ok targets => explore next fuel (targets.foldl Front.mark ⟨marked, stack⟩)

/-- `b` is among the nodes `a` leads to. -/
def Edge (next : α → Except ε (List α)) (a b : α) : Prop := ∃ targets, next a = .ok targets ∧ b ∈ targets

/-- What a front says of a search from `root`, with `pending` nodes yet to be expanded beside the stack. -/
structure Searching (next : α → Except ε (List α)) (root : α) (pending : α → Prop) (front : Front α) :
    Prop where
  root_mem : root ∈ front.marked
  reached : ∀ a ∈ front.marked, ReflTransGen (Edge next) root a
  expanded : ∀ a ∈ front.marked, pending a ∨ a ∈ front.stack ∨
    ∃ targets, next a = .ok targets ∧ ∀ b ∈ targets, b ∈ front.marked
  stacked : ∀ a ∈ front.stack, a ∈ front.marked
  marked_nodup : front.marked.Nodup
  stack_nodup : front.stack.Nodup

/-- How many nodes have left the stack. -/
def Front.left (front : Front α) : ℕ := front.marked.length - front.stack.length

variable {next : α → Except ε (List α)} {root a : α} {front : Front α} {pending : α → Prop}

omit [DecidableEq α] in
theorem searching_start (root : α) : Searching next root (fun _ => False) (.start root) where
  root_mem := List.mem_singleton_self root
  reached := by
    intro b hb
    rw [List.mem_singleton.mp hb]
  expanded := fun b hb => .inr (.inl hb)
  stacked := fun b hb => hb
  marked_nodup := List.nodup_singleton root
  stack_nodup := List.nodup_singleton root

theorem mem_mark {b : α} : b ∈ (front.mark a).marked ↔ b = a ∨ b ∈ front.marked := by
  unfold Front.mark
  split_ifs with ha
  · constructor
    · exact .inr
    · rintro (rfl | hb)
      · exact ha
      · exact hb
  · exact List.mem_cons

theorem mark_left : (front.mark a).left = front.left := by
  unfold Front.mark Front.left
  split_ifs
  · rfl
  · exact Nat.add_sub_add_right ..

theorem Searching.mark (h : Searching next root pending front) (ha : ReflTransGen (Edge next) root a) :
    Searching next root pending (front.mark a) := by
  unfold Front.mark
  split_ifs with hmem
  · exact h
  · constructor
    case root_mem => exact List.mem_cons_of_mem _ h.root_mem
    case reached =>
      intro b hb
      obtain rfl | hb := List.mem_cons.mp hb
      · exact ha
      · exact h.reached b hb
    case expanded =>
      intro b hb
      obtain rfl | hb := List.mem_cons.mp hb
      · exact .inr (.inl (List.mem_cons_self ..))
      · obtain hpending | hstack | ⟨targets, htargets, hall⟩ := h.expanded b hb
        · exact .inl hpending
        · exact .inr (.inl (List.mem_cons_of_mem _ hstack))
        · exact .inr (.inr ⟨targets, htargets, fun c hc => List.mem_cons_of_mem _ (hall c hc)⟩)
    case stacked =>
      intro b hb
      obtain rfl | hb := List.mem_cons.mp hb
      · exact List.mem_cons_self ..
      · exact List.mem_cons_of_mem _ (h.stacked b hb)
    case marked_nodup => exact List.nodup_cons.mpr ⟨hmem, h.marked_nodup⟩
    case stack_nodup => exact List.nodup_cons.mpr ⟨fun hstack => hmem (h.stacked a hstack), h.stack_nodup⟩

/-- A whole batch of targets marked. -/
theorem Searching.markAll (targets : List α) (h : Searching next root pending front)
    (hall : ∀ b ∈ targets, ReflTransGen (Edge next) root b) :
    Searching next root pending (targets.foldl Front.mark front) ∧
      (∀ b, b ∈ (targets.foldl Front.mark front).marked ↔ b ∈ targets ∨ b ∈ front.marked) ∧
      (targets.foldl Front.mark front).left = front.left := by
  induction targets generalizing front with
  | nil => exact ⟨h, by simp, rfl⟩
  | cons b targets ih =>
    obtain ⟨hsearch, hmem, hleft⟩ :=
      ih (h.mark (hall b (List.mem_cons_self ..))) fun c hc => hall c (List.mem_cons_of_mem _ hc)
    refine ⟨hsearch, ?_, hleft.trans mark_left⟩
    intro c
    rw [List.foldl_cons, hmem, mem_mark, List.mem_cons]
    tauto

/-- The top node leaves the stack, and where it leads is marked. -/
theorem Searching.pop {marked stack targets : List α}
    (h : Searching next root (fun _ => False) ⟨marked, a :: stack⟩) (ha : next a = .ok targets) :
    Searching next root (fun _ => False) (targets.foldl Front.mark ⟨marked, stack⟩) ∧
      (targets.foldl Front.mark ⟨marked, stack⟩).left = (⟨marked, a :: stack⟩ : Front α).left + 1 := by
  have hmarked : a ∈ marked := h.stacked a (List.mem_cons_self ..)
  obtain ⟨-, hnodup⟩ := List.nodup_cons.mp h.stack_nodup
  have hshort : Searching next root (fun b => b = a) ⟨marked, stack⟩ := by
    refine ⟨h.root_mem, h.reached, ?_, fun b hb => h.stacked b (List.mem_cons_of_mem _ hb),
      h.marked_nodup, hnodup⟩
    intro b hb
    obtain hno | hstack | hdone := h.expanded b hb
    · exact hno.elim
    · exact (List.mem_cons.mp hstack).imp_right .inl
    · exact .inr (.inr hdone)
  obtain ⟨hsearch, hmem, hleft⟩ := hshort.markAll targets fun b hb =>
    (h.reached a hmarked).tail ⟨targets, ha, hb⟩
  refine ⟨⟨hsearch.root_mem, hsearch.reached, ?_, hsearch.stacked, hsearch.marked_nodup,
    hsearch.stack_nodup⟩, ?_⟩
  · intro b hb
    obtain rfl | hrest := hsearch.expanded b hb
    · exact .inr (.inr ⟨targets, ha, fun c hc => (hmem c).mpr (.inl hc)⟩)
    · exact .inr hrest
  · rw [hleft]
    have hle : (a :: stack).length ≤ marked.length := (h.stack_nodup.subperm h.stacked).length_le
    simp only [Front.left, List.length_cons] at hle ⊢
    omega

/-- The search ends with every node reached, each expanded. -/
structure Explored (next : α → Except ε (List α)) (root : α) (marked : List α) : Prop where
  mem_iff : ∀ a, a ∈ marked ↔ ReflTransGen (Edge next) root a
  expanded : ∀ a ∈ marked, ∃ targets, next a = .ok targets ∧ ∀ b ∈ targets, b ∈ marked

omit [DecidableEq α] in
/-- An empty stack leaves everything reached marked. -/
theorem Searching.explored {marked : List α} (h : Searching next root (fun _ => False) ⟨marked, []⟩) :
    Explored next root marked := by
  have hexpanded : ∀ a ∈ marked, ∃ targets, next a = .ok targets ∧ ∀ b ∈ targets, b ∈ marked := by
    intro a ha
    obtain hno | hstack | hdone := h.expanded a ha
    · exact hno.elim
    · cases hstack
    · exact hdone
  refine ⟨fun a => ⟨h.reached a, fun ha => ?_⟩, hexpanded⟩
  induction ha with
  | refl => exact h.root_mem
  | tail _ hedge ih =>
    obtain ⟨targets, htargets, hmem⟩ := hedge
    obtain ⟨targets', htargets', hall⟩ := hexpanded _ ih
    rw [htargets] at htargets'
    cases htargets'
    exact hall _ hmem

/-- A search in a graph of `bound` nodes ends within as many nodes: everything reached is marked, or the
edges of a reached node cannot be read. -/
theorem Searching.explore {bound fuel : ℕ} (h : Searching next root (fun _ => False) front)
    (hbound : ∀ marked : List α, marked.Nodup → (∀ a ∈ marked, ReflTransGen (Edge next) root a) →
      marked.length ≤ bound) (hfuel : bound ≤ fuel + front.left) :
    (∃ marked, explore next fuel front = some (.ok marked) ∧ Explored next root marked) ∨
      ∃ a e, explore next fuel front = some (.error e) ∧ ReflTransGen (Edge next) root a ∧
        next a = .error e := by
  induction fuel generalizing front with
  | zero =>
    obtain ⟨marked, stack⟩ := front
    cases stack with
    | nil => exact .inl ⟨marked, rfl, h.explored⟩
    | cons a stack =>
      have hlen := hbound marked h.marked_nodup h.reached
      have hpos : 0 < marked.length := List.length_pos_of_mem h.root_mem
      simp only [Front.left, List.length_cons] at hfuel
      omega
  | succ fuel ih =>
    obtain ⟨marked, stack⟩ := front
    cases stack with
    | nil => exact .inl ⟨marked, rfl, h.explored⟩
    | cons a stack =>
      cases ha : next a with
      | error e =>
        right
        exact ⟨a, e, by rw [Exploration.explore, ha], h.reached a (h.stacked a (List.mem_cons_self ..)), ha⟩
      | ok targets =>
        obtain ⟨hsearch, hleft⟩ := h.pop ha
        have hrest := ih hsearch (by omega)
        simpa only [Exploration.explore, ha] using hrest

/-- Searching among the numbers below `count`. -/
theorem explore_lt {next : ℕ → Except ε (List ℕ)} {root count : ℕ}
    (hlt : ∀ n, ReflTransGen (Edge next) root n → n < count) :
    (∃ marked, explore next count (.start root) = some (.ok marked) ∧ Explored next root marked) ∨
      ∃ n e, explore next count (.start root) = some (.error e) ∧ ReflTransGen (Edge next) root n ∧
        next n = .error e := by
  apply (searching_start root).explore _ (Nat.le_add_right count _)
  intro marked hnodup hreached
  have hsub : marked ⊆ List.range count := fun n hn => List.mem_range.mpr (hlt n (hreached n hn))
  have hle := (hnodup.subperm hsub).length_le
  rwa [List.length_range] at hle

end Exploration
