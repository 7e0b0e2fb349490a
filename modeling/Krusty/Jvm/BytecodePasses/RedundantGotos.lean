import Krusty.Lib.Lookups
import Krusty.Jvm.EmptyFlow

/-! kotlinc's `RedundantGotoMethodTransformer`: jumps into a `goto` go where it goes, and a `goto` to the
next instruction becomes a `nop`. -/
namespace Krusty.Jvm.BytecodePasses.RedundantGotos

open Settling

def gotoTarget : Node → Option LabelId
  | .insn (.jump op target) => if op = gotoOp then some target else none
  | _ => none

/-- Each label followed leaves fewer labels not seen. -/
theorem unseen_lt {leadsTo : List (LabelId × LabelId)} {seen : List LabelId} {here next : LabelId}
    (hnext : leadsTo.lookup here = some next) (hseen : here ∉ seen) :
    ((leadsTo.map Prod.fst).filter fun label => label ∉ here :: seen).length <
      ((leadsTo.map Prod.fst).filter fun label => label ∉ seen).length := by
  have hmem : here ∈ leadsTo.map Prod.fst := List.mem_map.mpr ⟨_, Lookups.mem_of_lookup hnext, rfl⟩
  have hfilter : (leadsTo.map Prod.fst).filter (fun label => label ∉ here :: seen) =
      ((leadsTo.map Prod.fst).filter fun label => label ∉ seen).filter fun label => label ≠ here := by
    rw [List.filter_filter]
    refine List.filter_congr fun label _ => ?_
    simp
  rw [hfilter]
  refine List.length_filter_lt_length_iff_exists.mpr ⟨here, ?_, by simp⟩
  exact List.mem_filter.mpr ⟨hmem, by simpa using hseen⟩

/-- Follow the `goto`s from a label until one is resolved already, a label repeats, or none follows.
The second component is the path taken. -/
def chase (leadsTo : List (LabelId × LabelId)) (resolved : List (LabelId × Option LabelId))
    (path seen : List LabelId) (here : LabelId) : Option LabelId × List LabelId :=
  match resolved.lookup here with
  | some result => (result, path)
  | none =>
    if _ : here ∈ seen then (none, path)
    else
      match _ : leadsTo.lookup here with
      | none => (some here, path)
      | some next => chase leadsTo resolved (path ++ [here]) (here :: seen) next
termination_by ((leadsTo.map Prod.fst).filter fun label => label ∉ seen).length
decreasing_by exact unseen_lt ‹_› ‹_›

/-- Where a jump to `label` finally goes; `none` on a cycle. Every label on the way is cached. -/
def finalTarget (label : LabelId) (leadsTo : List (LabelId × LabelId))
    (resolved : List (LabelId × Option LabelId)) : Option LabelId × List (LabelId × Option LabelId) :=
  let (result, path) := chase leadsTo resolved [] [] label
  (result, path.foldl (fun resolved label => (label, result) :: resolved) resolved)

/-- The backward scan: the labels in front of the next instruction that is not a `nop`, that
instruction's target when it is a `goto`, and what the nodes after here have shown. -/
structure Backward where
  run : List LabelId
  pending : Option LabelId
  leadsTo : List (LabelId × LabelId)
  redundant : List ℕ

section Remove

variable (pinned : List LabelId)

def Backward.scan (index : ℕ) (node : Node) (s : Backward) : Backward :=
  match node with
  | .label label =>
    { s with
      run := label :: s.run
      leadsTo := match s.pending with
        | some target => (label, target) :: s.leadsTo
        | none => s.leadsTo }
  | node =>
    match (gotoTarget node).filter (· ∉ pinned) with
    | some target =>
      if target ∈ s.run then { s with pending := some target, redundant := s.redundant ++ [index] }
      else { s with run := [], pending := some target }
    | none => if node.isNop then s else { s with run := [], pending := none }

/-- The scan of `nodes`, the first of them at `index`, from the last one back. -/
def scanFrom : ℕ → List Node → Backward
  | _, [] => ⟨[], none, [], []⟩
  | index, node :: nodes => (scanFrom (index + 1) nodes).scan pinned index node

/-- Thread every jump through the `goto`s its target leads into; `true` when one moved. -/
def thread (leadsTo : List (LabelId × LabelId)) :
    List (LabelId × Option LabelId) → List Node → List Node × Bool
  | _, [] => ([], false)
  | resolved, .insn (.jump op target) :: nodes =>
    if target ∈ pinned then
      let (rest, changed) := thread leadsTo resolved nodes
      (.insn (.jump op target) :: rest, changed)
    else
      let (last, resolved) := finalTarget target leadsTo resolved
      let (rest, changed) := thread leadsTo resolved nodes
      (.insn (.jump op (last.getD target)) :: rest, changed || (last.getD target != target))
  | resolved, node :: nodes =>
    let (rest, changed) := thread leadsTo resolved nodes
    (node :: rest, changed)

/-- Remove the redundant `goto`s of `method` and thread its jumps, leaving jumps to a `pinned` label
alone; `true` when anything changed. -/
def remove (method : MethodNode) : MethodNode × Bool :=
  let s := scanFrom pinned 0 method.nodes
  let (nodes, changed) := thread pinned s.leadsTo [] method.nodes
  ({ method with nodes := s.redundant.foldl (fun nodes index => nodes.set index (.insn (.op nop))) nodes },
    changed || !s.redundant.isEmpty)

end Remove

/-! ### Chains of `goto`s -/

/-- One `goto` along a chain. -/
def follow (leadsTo : List (LabelId × LabelId)) (label : LabelId) : Option LabelId := leadsTo.lookup label

/-- A cached result is where the chain from its label ends, or says that it never does. -/
def Memo (leadsTo : List (LabelId × LabelId)) (resolved : List (LabelId × Option LabelId)) : Prop :=
  ∀ {label result}, resolved.lookup label = some result →
    ∀ last, result = some last ↔ Settles (follow leadsTo) label last

theorem Memo.nil (leadsTo : List (LabelId × LabelId)) : Memo leadsTo [] := by
  intro label result h
  cases h

section Chains

variable {leadsTo : List (LabelId × LabelId)} {resolved : List (LabelId × Option LabelId)}

theorem chase_spec (hmemo : Memo leadsTo resolved) (path seen : List LabelId) (here : LabelId) :
    (∀ label ∈ seen, Relation.TransGen (Step (follow leadsTo)) label here) →
      (∀ label ∈ path, Passes (follow leadsTo) label here) →
      ∀ label, (label = here ∨ label ∈ (chase leadsTo resolved path seen here).2) →
        ∀ last, (chase leadsTo resolved path seen here).1 = some last ↔ Settles (follow leadsTo) label last := by
  induction path, seen, here using chase.induct leadsTo resolved with
  | case1 path seen here result hresolved =>
    intro _ hpath label hlabel last
    have heq : chase leadsTo resolved path seen here = (result, path) := by
      rw [chase, hresolved]
    rw [heq] at hlabel ⊢
    rw [hmemo hresolved]
    rcases hlabel with rfl | hlabel
    · rfl
    · exact (settles_iff_of_passes (hpath label hlabel)).symm
  | case2 path seen here hresolved hmem =>
    intro hseen hpath label hlabel last
    have heq : chase leadsTo resolved path seen here = (none, path) := by
      rw [chase, hresolved]
      simp [hmem]
    have hcycle : ¬ Settles (follow leadsTo) here last := not_settles_of_cycle (hseen here hmem)
    rw [heq] at hlabel ⊢
    rcases hlabel with rfl | hlabel
    · simpa using hcycle
    · rw [settles_iff_of_passes (hpath label hlabel)]
      simpa using hcycle
  | case3 path seen here hresolved hmem hnext =>
    intro _ hpath label hlabel last
    have heq : chase leadsTo resolved path seen here = (some here, path) := by
      rw [chase, hresolved]
      simp only [hmem, dite_false]
      split
      · rfl
      · rename_i next h
        rw [hnext] at h
        cases h
    have hhere : some here = some last ↔ Settles (follow leadsTo) here last := by
      constructor
      · intro h
        cases h
        exact .of_none hnext
      · intro h
        rw [h.eq_of_none hnext]
    rw [heq] at hlabel ⊢
    rcases hlabel with rfl | hlabel
    · exact hhere
    · exact hhere.trans (settles_iff_of_passes (hpath label hlabel)).symm
  | case4 path seen here hresolved hmem next hnext ih =>
    intro hseen hpath label hlabel last
    have heq : chase leadsTo resolved path seen here =
        chase leadsTo resolved (path ++ [here]) (here :: seen) next := by
      rw [chase, hresolved]
      simp only [hmem, dite_false]
      split
      · rename_i h
        rw [hnext] at h
        cases h
      · rename_i next' h
        rw [hnext] at h
        cases h
        rfl
    have hstep : Step (follow leadsTo) here next := hnext
    have hall := ih (by
        intro label hlabel
        rcases List.mem_cons.mp hlabel with rfl | hlabel
        · exact .single hstep
        · exact (hseen label hlabel).tail hstep)
      (by
        intro label hlabel
        rcases List.mem_append.mp hlabel with hlabel | hlabel
        · exact (hpath label hlabel).tail hstep
        · rw [List.mem_singleton.mp hlabel]
          exact .single hstep)
    rw [heq] at hlabel ⊢
    rcases hlabel with rfl | hlabel
    · exact (hall next (.inl rfl) last).trans (settles_iff_of_step hstep).symm
    · exact hall label (.inr hlabel) last

theorem Memo.cons (hmemo : Memo leadsTo resolved) {label : LabelId} {result : Option LabelId}
    (h : ∀ last, result = some last ↔ Settles (follow leadsTo) label last) :
    Memo leadsTo ((label, result) :: resolved) := by
  intro other result' hother
  by_cases heq : other = label
  · rw [Lookups.lookup_cons_of_eq heq] at hother
    cases hother
    exact heq ▸ h
  · rw [Lookups.lookup_cons_of_ne heq] at hother
    exact hmemo hother

theorem Memo.foldl {path : List LabelId} {result : Option LabelId} :
    ∀ {resolved : List (LabelId × Option LabelId)}, Memo leadsTo resolved →
      (∀ label ∈ path, ∀ last, result = some last ↔ Settles (follow leadsTo) label last) →
      Memo leadsTo (path.foldl (fun resolved label => (label, result) :: resolved) resolved) := by
  induction path with
  | nil =>
    intro resolved hmemo _
    exact hmemo
  | cons label path ih =>
    intro resolved hmemo h
    exact ih (hmemo.cons (h label (List.mem_cons_self ..))) fun l hl => h l (List.mem_cons_of_mem _ hl)

/-- Resolving a label finds the end of its chain, and leaves a memo that is still right. -/
theorem finalTarget_spec (hmemo : Memo leadsTo resolved) (label : LabelId) :
    (∀ last, (finalTarget label leadsTo resolved).1 = some last ↔ Settles (follow leadsTo) label last) ∧
      Memo leadsTo (finalTarget label leadsTo resolved).2 := by
  have hspec := chase_spec hmemo [] [] label (by simp) (by simp)
  refine ⟨hspec label (.inl rfl), ?_⟩
  exact hmemo.foldl fun l hl => hspec l (.inr hl)

theorem finalTarget_eq (hmemo : Memo leadsTo resolved) (label : LabelId) :
    (finalTarget label leadsTo resolved).1 = (finalTarget label leadsTo []).1 := by
  refine Option.ext fun last => ?_
  rw [(finalTarget_spec hmemo label).1, (finalTarget_spec (Memo.nil leadsTo) label).1]

end Chains

/-! ### What the backward scan finds -/

variable {target : LabelId} {node : Node}

section Scan

variable {pinned : List LabelId} {method : MethodNode}

/-- A node the scan sees through: a label or a `nop`. -/
def Plain (method : MethodNode) (k : ℕ) : Prop :=
  (∃ label, method.nodes[k]? = some (.label label)) ∨ method.nodes[k]? = some (.insn (.op nop))

/-- A node that does nothing once the redundant `goto`s are gone. -/
def Quiet (method : MethodNode) (redundant : List ℕ) (k : ℕ) : Prop := Plain method k ∨ k ∈ redundant

def GotoAt (method : MethodNode) (k : ℕ) (target : LabelId) : Prop :=
  method.nodes[k]? = some (.insn (.jump gotoOp target))

def LabelAt (method : MethodNode) (k : ℕ) (label : LabelId) : Prop := method.nodes[k]? = some (.label label)

/-- What the scan back to node `p` has established. -/
structure Scanned (method : MethodNode) (p : ℕ) (s : Backward) : Prop where
  run : ∀ label ∈ s.run, ∃ q, p ≤ q ∧ LabelAt method q label ∧ ∀ k, p ≤ k → k < q → Quiet method s.redundant k
  pending : ∀ target, s.pending = some target →
    ∃ q, p ≤ q ∧ GotoAt method q target ∧ ∀ k, p ≤ k → k < q → Plain method k
  leadsTo : ∀ {label target}, follow s.leadsTo label = some target →
    ∃ i q, i ≤ q ∧ LabelAt method i label ∧ GotoAt method q target ∧ ∀ k, i ≤ k → k < q → Plain method k
  redundant : ∀ i ∈ s.redundant, p ≤ i ∧ ∃ target q, GotoAt method i target ∧ LabelAt method q target ∧ i < q ∧
    ∀ k, i < k → k < q → Quiet method s.redundant k

theorem gotoTarget_eq_some (h : gotoTarget node = some target) : node = .insn (.jump gotoOp target) := by
  unfold gotoTarget at h
  split at h
  · split_ifs at h with hop
    rw [hop, Option.some.inj h]
  · cases h

/-- A place the scan knew one node later it still knows, with that node in between. -/
theorem reaches_back {R : ℕ → Prop} {p q : ℕ} (hp : R p) (h : ∀ k, p + 1 ≤ k → k < q → R k) :
    ∀ k, p ≤ k → k < q → R k := by
  intro k hle hlt
  rcases Nat.eq_or_lt_of_le hle with rfl | hlt'
  · exact hp
  · exact h k hlt' hlt

theorem Scanned.nil (method : MethodNode) (p : ℕ) : Scanned method p ⟨[], none, [], []⟩ where
  run label h := by cases h
  pending target h := by cases h
  leadsTo h := by cases h
  redundant i h := by cases h

variable {s : Backward} {p : ℕ}

theorem Scanned.label (h : Scanned method (p + 1) s) {label : LabelId}
    (hp : LabelAt method p label) : Scanned method p (s.scan pinned p (.label label)) := by
  have hplain : Plain method p := .inl ⟨label, hp⟩
  refine ⟨?_, ?_, ?_, ?_⟩
  · intro l hl
    rcases List.mem_cons.mp hl with rfl | hl
    · exact ⟨p, le_rfl, hp, fun k hle hlt => absurd hlt (Nat.not_lt.mpr hle)⟩
    · obtain ⟨q, hle, hq, hquiet⟩ := h.run l hl
      exact ⟨q, by omega, hq, reaches_back (.inl hplain) hquiet⟩
  · intro target htarget
    obtain ⟨q, hle, hq, hall⟩ := h.pending target htarget
    exact ⟨q, by omega, hq, reaches_back hplain hall⟩
  · intro l target hl
    cases hpending : s.pending with
    | none =>
      simp only [Backward.scan, hpending] at hl
      exact h.leadsTo hl
    | some t =>
      simp only [Backward.scan, hpending, follow] at hl
      by_cases heq : l = label
      · rw [Lookups.lookup_cons_of_eq heq] at hl
        cases hl
        obtain ⟨q, hle, hq, hall⟩ := h.pending t hpending
        exact ⟨p, q, by omega, heq ▸ hp, hq, reaches_back hplain hall⟩
      · rw [Lookups.lookup_cons_of_ne heq] at hl
        exact h.leadsTo hl
  · intro i hi
    obtain ⟨hle, hrest⟩ := h.redundant i hi
    exact ⟨by omega, hrest⟩

/-- A node the scan passes over: nothing but where it is changes. -/
theorem Scanned.skip (h : Scanned method (p + 1) s) (hp : Plain method p) : Scanned method p s := by
  refine ⟨?_, ?_, h.leadsTo, ?_⟩
  · intro l hl
    obtain ⟨q, hle, hq, hquiet⟩ := h.run l hl
    exact ⟨q, by omega, hq, reaches_back (.inl hp) hquiet⟩
  · intro target htarget
    obtain ⟨q, hle, hq, hall⟩ := h.pending target htarget
    exact ⟨q, by omega, hq, reaches_back hp hall⟩
  · intro i hi
    obtain ⟨hle, hrest⟩ := h.redundant i hi
    exact ⟨by omega, hrest⟩

/-- A node that ends the run of labels, itself pending when it is a `goto`. -/
theorem Scanned.stop (h : Scanned method (p + 1) s) {pending : Option LabelId}
    (hp : ∀ target, pending = some target → GotoAt method p target) :
    Scanned method p { s with run := [], pending := pending } := by
  refine ⟨by simp, ?_, h.leadsTo, ?_⟩
  · intro target htarget
    exact ⟨p, le_rfl, hp target htarget, fun k hle hlt => absurd hlt (Nat.not_lt.mpr hle)⟩
  · intro i hi
    obtain ⟨hle, hrest⟩ := h.redundant i hi
    exact ⟨by omega, hrest⟩

theorem Quiet.mono {redundant redundant' : List ℕ} {k : ℕ} (h : Quiet method redundant k)
    (hsub : ∀ i ∈ redundant, i ∈ redundant') : Quiet method redundant' k :=
  h.imp_right (hsub k)

/-- A `goto` to a label of the run is redundant, and the run goes on in front of it. -/
theorem Scanned.redundant_goto (h : Scanned method (p + 1) s)
    (hp : GotoAt method p target) (hrun : target ∈ s.run) :
    Scanned method p { s with pending := some target, redundant := s.redundant ++ [p] } := by
  have hsub : ∀ i ∈ s.redundant, i ∈ s.redundant ++ [p] := fun i hi => List.mem_append_left _ hi
  have hself : Quiet method (s.redundant ++ [p]) p := .inr (by simp)
  refine ⟨?_, ?_, h.leadsTo, ?_⟩
  · intro l hl
    obtain ⟨q, hle, hq, hquiet⟩ := h.run l hl
    exact ⟨q, by omega, hq, reaches_back hself fun k hk hkq => (hquiet k hk hkq).mono hsub⟩
  · intro t ht
    cases ht
    exact ⟨p, le_rfl, hp, fun k hle hlt => absurd hlt (Nat.not_lt.mpr hle)⟩
  · intro i hi
    rcases List.mem_append.mp hi with hi | hi
    · obtain ⟨hle, t, q, ht, hq, hlt, hquiet⟩ := h.redundant i hi
      exact ⟨by omega, t, q, ht, hq, hlt, fun k hk hkq => (hquiet k hk hkq).mono hsub⟩
    · obtain rfl := List.mem_singleton.mp hi
      obtain ⟨q, hle, hq, hquiet⟩ := h.run target hrun
      exact ⟨le_rfl, target, q, hp, hq, by omega, fun k hk hkq => (hquiet k hk hkq).mono hsub⟩

theorem Scanned.scan (h : Scanned method (p + 1) s)
    (hp : method.nodes[p]? = some node) : Scanned method p (s.scan pinned p node) := by
  cases node with
  | label label => exact h.label hp
  | line line start => exact h.stop (by simp)
  | insn insn =>
    simp only [Backward.scan]
    split
    · rename_i target htarget
      have hgoto := gotoTarget_eq_some (Option.filter_eq_some_iff.mp htarget).1
      have hp : GotoAt method p target := by rwa [GotoAt, ← hgoto]
      split_ifs with hrun
      · exact h.redundant_goto hp hrun
      · exact h.stop fun t ht => Option.some.inj ht ▸ hp
    · split_ifs with hnop
      · exact h.skip (.inr (Node.isNop_iff.mp hnop ▸ hp))
      · exact h.stop (by simp)

theorem scanFrom_scanned (pinned : List LabelId) (method : MethodNode) :
    ∀ (nodes : List Node) (p : ℕ), (∀ k, nodes[k]? = method.nodes[p + k]?) →
      Scanned method p (scanFrom pinned p nodes) := by
  intro nodes
  induction nodes with
  | nil =>
    intro p _
    exact .nil method p
  | cons node nodes ih =>
    intro p hnodes
    refine (ih (p + 1) ?_).scan ?_
    · intro k
      have hk := hnodes (k + 1)
      rwa [List.getElem?_cons_succ, ← Nat.add_assoc, Nat.add_right_comm] at hk
    · have hp := hnodes 0
      rw [List.getElem?_cons_zero, Nat.add_zero] at hp
      exact hp.symm

theorem scanned (pinned : List LabelId) (method : MethodNode) :
    Scanned method 0 (scanFrom pinned 0 method.nodes) :=
  scanFrom_scanned pinned method method.nodes 0 fun k => by rw [Nat.zero_add]

end Scan

/-! ### The body after the pass -/

/-- Where threading sends a jump. -/
def retarget (pinned : List LabelId) (leadsTo : List (LabelId × LabelId)) (target : LabelId) : LabelId :=
  if target ∈ pinned then target else (finalTarget target leadsTo []).1.getD target

/-- What threading makes of a node. -/
def redirect (pinned : List LabelId) (leadsTo : List (LabelId × LabelId)) : Node → Node
  | .insn (.jump op target) => .insn (.jump op (retarget pinned leadsTo target))
  | node => node

theorem thread_fst {pinned : List LabelId} {leadsTo : List (LabelId × LabelId)} (nodes : List Node) :
    ∀ {resolved : List (LabelId × Option LabelId)}, Memo leadsTo resolved →
      (thread pinned leadsTo resolved nodes).1 = nodes.map (redirect pinned leadsTo) := by
  induction nodes with
  | nil =>
    intro resolved _
    rfl
  | cons node nodes ih =>
    intro resolved hmemo
    cases node with
    | label label => simp [thread, redirect, ih hmemo]
    | line line start => simp [thread, redirect, ih hmemo]
    | insn insn =>
      cases insn with
      | jump op target =>
        by_cases hpinned : target ∈ pinned
        · simp [thread, redirect, retarget, hpinned, ih hmemo]
        · have hrest := ih (finalTarget_spec hmemo target).2
          simp only [thread, hpinned, if_false, List.map_cons, redirect, retarget, hrest, finalTarget_eq hmemo]
      | _ => simp [thread, redirect, ih hmemo]

theorem foldl_set_getElem? {α : Type} (a : α) (indices : List ℕ) (k : ℕ) :
    ∀ xs : List α, (indices.foldl (fun xs i => xs.set i a) xs)[k]? =
      if k ∈ indices then xs[k]?.map fun _ => a else xs[k]? := by
  induction indices with
  | nil => simp
  | cons i indices ih =>
    intro xs
    rw [List.foldl_cons, ih]
    by_cases hk : k = i
    · subst hk
      by_cases hmem : k ∈ indices <;> simp [hmem, List.getElem?_set_self', Function.const_def]
    · simp [hk, List.getElem?_set_ne (Ne.symm hk)]

section After

variable (pinned : List LabelId) (method : MethodNode)

/-- The scan of the whole body. -/
def found : Backward := scanFrom pinned 0 method.nodes

theorem remove_nodes (k : ℕ) :
    (remove pinned method).1.nodes[k]? =
      if k ∈ (found pinned method).redundant then method.nodes[k]?.map fun _ => .insn (.op nop)
      else method.nodes[k]?.map (redirect pinned (found pinned method).leadsTo) := by
  change ((found pinned method).redundant.foldl _ (thread pinned _ [] method.nodes).1)[k]? = _
  rw [foldl_set_getElem?, thread_fst method.nodes (Memo.nil _), List.getElem?_map, Option.map_map]
  rfl

variable {pinned method} {i k : ℕ} {label : LabelId}

theorem not_redundant_of_ne (hi : method.nodes[i]? = some node) (hne : gotoTarget node = none) :
    i ∉ (found pinned method).redundant := by
  intro hmem
  obtain ⟨-, target, -, hgoto, -⟩ := (scanned pinned method).redundant i hmem
  have heq : node = .insn (.jump gotoOp target) := Option.some.inj (hi.symm.trans hgoto)
  rw [heq] at hne
  simp [gotoTarget] at hne

/-- Labels, line numbers and all instructions but jumps stay as they were. -/
theorem remove_node_same (hi : method.nodes[i]? = some node)
    (hne : ∀ op target, node ≠ .insn (.jump op target)) :
    (remove pinned method).1.nodes[i]? = some node := by
  have hgoto : gotoTarget node = none := by
    unfold gotoTarget
    split
    · rename_i op target
      exact absurd rfl (hne op target)
    · rfl
  rw [remove_nodes, if_neg (not_redundant_of_ne hi hgoto), hi, Option.map_some, redirect]
  rintro op target rfl
  exact hne op target rfl

theorem remove_labelAt : LabelAt (remove pinned method).1 i label ↔ LabelAt method i label := by
  refine ⟨fun h => ?_, fun h => remove_node_same h (by simp)⟩
  unfold LabelAt at h ⊢
  rw [remove_nodes] at h
  split_ifs at h
  · obtain ⟨node, -, heq⟩ := Option.map_eq_some_iff.mp h
    cases heq
  · obtain ⟨node, hnode, heq⟩ := Option.map_eq_some_iff.mp h
    rw [hnode]
    unfold redirect at heq
    split at heq
    · cases heq
    · exact congrArg some heq

theorem remove_length : (remove pinned method).1.nodes.length = method.nodes.length := by
  have hlen : ∀ (indices : List ℕ) (xs : List Node),
      (indices.foldl (fun nodes index => nodes.set index (.insn (.op nop))) xs).length = xs.length := by
    intro indices
    induction indices with
    | nil => simp
    | cons i indices ih =>
      intro xs
      rw [List.foldl_cons, ih, List.length_set]
  simp only [remove, hlen, thread_fst method.nodes (Memo.nil _), List.length_map]

variable (pinned) in
theorem remove_position (h : method.WellPlaced) (label : LabelId) :
    method.position label = (remove pinned method).1.position label := by
  have hsame : MethodNode.SameLabels method (remove pinned method).1 := remove_labelAt.symm
  exact hsame.position remove_length.symm h.unique label

/-! ### Where control passes on, before and after -/

theorem LabelAt.position (h : method.WellPlaced) (hi : LabelAt method i label) :
    method.position label = some i :=
  (MethodNode.position_eq_some h.unique).mpr hi

theorem Plain.passOn (h : Plain method i) : method.passOn i = some (i + 1) := by
  rcases h with ⟨label, hi⟩ | hi
  · simp only [MethodNode.passOn, hi]
  · simp [MethodNode.passOn, hi]

theorem GotoAt.passOn (h : GotoAt method i target) : method.passOn i = method.position target := by
  have hi : method.nodes[i]? = some (.insn (.jump gotoOp target)) := h
  simp [MethodNode.passOn, hi]

theorem GotoAt.exists_label (h : method.WellPlaced) (hi : GotoAt method i target) :
    ∃ q, LabelAt method q target := by
  obtain ⟨q, hq⟩ := h.toComplete.exists_target hi (List.mem_singleton_self target)
  exact ⟨q, MethodNode.position_spec hq⟩

/-- A redundant `goto` leads where falling past it does. -/
theorem joins_redundant (h : method.WellPlaced) :
    ∀ i, i ∈ (found pinned method).redundant → Joins method.passOn i (i + 1) := by
  intro i
  -- the `goto`s between this one and its target come later in the body
  induction hn : method.nodes.length - i using Nat.strong_induction_on generalizing i with
  | _ n ih =>
    intro hi
    obtain ⟨-, target, q, hgoto, hq, hlt, hquiet⟩ := (scanned pinned method).redundant i hi
    have hend : q < method.nodes.length := (List.getElem?_eq_some_iff.mp hq).1
    have hjump : Joins method.passOn i q := .of_step (hgoto.passOn.trans (hq.position h))
    have hfall : ∀ d, i + 1 + d ≤ q → Joins method.passOn (i + 1) (i + 1 + d) := by
      intro d
      induction d with
      | zero =>
        intro _
        exact .refl _
      | succ d ihd =>
        intro hle
        have hstep : Joins method.passOn (i + 1 + d) (i + 1 + d + 1) := by
          rcases hquiet (i + 1 + d) (by omega) (by omega) with hplain | hredundant
          · exact .of_step hplain.passOn
          · exact ih _ (by omega) (i + 1 + d) rfl hredundant
        exact (ihd (by omega)).trans hstep
    have hfall := hfall (q - (i + 1)) (by omega)
    rw [show i + 1 + (q - (i + 1)) = q by omega] at hfall
    exact hjump.trans hfall.symm

/-- A link of a chain is a way control passes. -/
theorem passes_follow (h : method.WellPlaced)
    (hfollow : follow (found pinned method).leadsTo label = some target) (hi : LabelAt method i label) :
    ∃ j, LabelAt method j target ∧ Passes method.passOn i j := by
  obtain ⟨i', q, hle, hi', hq, hplain⟩ := (scanned pinned method).leadsTo hfollow
  obtain rfl : i' = i := Option.some.inj ((hi'.position h).symm.trans (hi.position h))
  obtain ⟨j, hj⟩ := hq.exists_label h
  have hfall : ∀ d, i' + d ≤ q → Passes method.passOn i' (i' + d) := by
    intro d
    induction d with
    | zero =>
      intro _
      exact .refl
    | succ d ih =>
      intro hle
      exact (ih (by omega)).tail (hplain (i' + d) (by omega) (by omega)).passOn
  have hfall := hfall (q - i') (by omega)
  rw [Nat.add_sub_cancel' hle] at hfall
  exact ⟨j, hj, hfall.tail (hq.passOn.trans (hj.position h))⟩

variable (pinned) in
theorem passes_chain (h : method.WellPlaced)
    (hchain : Passes (follow (found pinned method).leadsTo) label target) (hi : LabelAt method i label) :
    ∃ j, LabelAt method j target ∧ Passes method.passOn i j := by
  induction hchain with
  | refl => exact ⟨i, hi, .refl⟩
  | tail _ hstep ih =>
    obtain ⟨j, hj, hpass⟩ := ih
    obtain ⟨k, hk, hpass'⟩ := passes_follow h hstep hj
    exact ⟨k, hk, hpass.trans hpass'⟩

variable (pinned) in
/-- A threaded jump goes on along the way its old target led. -/
theorem passes_retarget (h : method.WellPlaced) (hi : LabelAt method i label) :
    ∃ j, LabelAt method j (retarget pinned (found pinned method).leadsTo label) ∧ Passes method.passOn i j := by
  refine passes_chain pinned h ?_ hi
  unfold retarget
  split_ifs
  · exact .refl
  · cases hlast : (finalTarget label (found pinned method).leadsTo []).1 with
    | none => exact .refl
    | some last => exact (((finalTarget_spec (Memo.nil _) label).1 last).mp hlast).1

theorem passOn_redundant (hmem : i ∈ (found pinned method).redundant) :
    (remove pinned method).1.passOn i = some (i + 1) := by
  obtain ⟨-, target, -, hgoto, -⟩ := (scanned pinned method).redundant i hmem
  have hi : method.nodes[i]? = some (.insn (.jump gotoOp target)) := hgoto
  simp [MethodNode.passOn, remove_nodes, hmem, hi]

variable (pinned) in
/-- How control passes on at a node after the pass: past a `goto` that is gone, to where a `goto` was
threaded, or as before. -/
theorem passOn_cases (h : method.WellPlaced) (i : ℕ) :
    (i ∈ (found pinned method).redundant ∧ (remove pinned method).1.passOn i = some (i + 1)) ∨
      (∃ target j k, GotoAt method i target ∧ LabelAt method j target ∧ Passes method.passOn j k ∧
        (remove pinned method).1.passOn i = some k) ∨
      (remove pinned method).1.passOn i = method.passOn i := by
  by_cases hmem : i ∈ (found pinned method).redundant
  · exact .inl ⟨hmem, passOn_redundant hmem⟩
  · refine .inr ?_
    have hnode : (remove pinned method).1.nodes[i]? =
        method.nodes[i]?.map (redirect pinned (found pinned method).leadsTo) := by
      rw [remove_nodes, if_neg hmem]
    cases hi : method.nodes[i]? with
    | none => exact .inr (by simp [MethodNode.passOn, hnode, hi])
    | some node =>
      rw [hi, Option.map_some] at hnode
      by_cases hgoto : ∃ target, node = .insn (.jump gotoOp target)
      · obtain ⟨target, rfl⟩ := hgoto
        have hgoto : GotoAt method i target := hi
        obtain ⟨j, hj⟩ := hgoto.exists_label h
        obtain ⟨k, hk, hpass⟩ := passes_retarget pinned h hj
        have hposition := (remove_position pinned h _).symm.trans (hk.position h)
        exact .inl ⟨target, j, k, hgoto, hj, hpass, by simp [MethodNode.passOn, hnode, redirect, hposition]⟩
      · refine .inr ?_
        unfold MethodNode.passOn
        rw [hnode, hi]
        cases node with
        | insn insn =>
          cases insn with
          | jump op target =>
            have hop : op ≠ gotoOp := fun hop => hgoto ⟨target, by rw [hop]⟩
            simp [redirect, hop]
          | _ => rfl
        | _ => rfl

/-- Passing on in the new body stays on the old body's way. -/
theorem joins_of_step (h : method.WellPlaced) (hstep : (remove pinned method).1.passOn i = some k) :
    Joins method.passOn i k := by
  rcases passOn_cases pinned h i with ⟨hmem, hi⟩ | ⟨target, j, k', hgoto, hj, hpass, hi⟩ | hi
  · obtain rfl := Option.some.inj (hstep.symm.trans hi)
    exact joins_redundant h i hmem
  · obtain rfl := Option.some.inj (hstep.symm.trans hi)
    exact .of_passes (hpass.of_step (hgoto.passOn.trans (hj.position h)))
  · exact .of_step (hi ▸ hstep)

theorem joins_of_passes (h : method.WellPlaced) (hpass : Passes (remove pinned method).1.passOn i k) :
    Joins method.passOn i k := by
  induction hpass with
  | refl => exact .refl _
  | tail _ hstep ih => exact ih.trans (joins_of_step h hstep)

theorem passOn_eq_none (h : method.WellPlaced) :
    (remove pinned method).1.passOn i = none ↔ method.passOn i = none := by
  rcases passOn_cases pinned h i with ⟨hmem, hi⟩ | ⟨target, j, k', hgoto, hj, hpass, hi⟩ | hi
  · obtain ⟨-, target, q, hgoto, hq, -⟩ := (scanned pinned method).redundant i hmem
    rw [hi, hgoto.passOn, hq.position h]
    simp
  · rw [hi, hgoto.passOn, hj.position h]
    simp
  · rw [hi]

/-- From a redundant `goto` the new body falls to the label it jumped to. -/
theorem passes_redundant (h : method.WellPlaced) (hmem : i ∈ (found pinned method).redundant)
    (hk : method.passOn i = some k) : Passes (remove pinned method).1.passOn i k := by
  obtain ⟨-, target, q, hgoto, hq, hlt, hquiet⟩ := (scanned pinned method).redundant i hmem
  obtain rfl := Option.some.inj (hk.symm.trans (hgoto.passOn.trans (hq.position h)))
  have hnext : ∀ j, i ≤ j → j < k → (remove pinned method).1.passOn j = some (j + 1) := by
    intro j hle hlt
    by_cases hj : j ∈ (found pinned method).redundant
    · exact passOn_redundant hj
    · have hplain : Plain method j := by
        rcases Nat.eq_or_lt_of_le hle with rfl | hlt'
        · exact absurd hmem hj
        · exact (hquiet j hlt' hlt).resolve_right hj
      rcases hplain with ⟨label, hl⟩ | hnop
      · exact Plain.passOn (.inl ⟨label, remove_labelAt.mpr hl⟩)
      · exact Plain.passOn (.inr (remove_node_same hnop (by simp)))
  have hfall : ∀ d, i + d ≤ k → Passes (remove pinned method).1.passOn i (i + d) := by
    intro d
    induction d with
    | zero =>
      intro _
      exact .refl
    | succ d ih =>
      intro hle
      exact (ih (by omega)).tail (hnext (i + d) (by omega) (by omega))
  have hfall := hfall (k - i) (by omega)
  rwa [Nat.add_sub_cancel' hlt.le] at hfall

variable (pinned) in
theorem exists_settles (h : method.WellPlaced) {j : ℕ} (hsettles : Settles method.passOn i j) :
    ∃ j', Settles (remove pinned method).1.passOn i j' := by
  obtain ⟨hpass, hj⟩ := hsettles
  -- a threaded jump lands further along the old way, so the claim covers every place on it
  suffices hall : ∀ c, Passes method.passOn i c → ∃ j', Settles (remove pinned method).1.passOn c j' from
    hall i .refl
  induction hpass using Relation.ReflTransGen.head_induction_on with
  | refl =>
    intro c hc
    obtain rfl : j = c := by
      rcases Relation.ReflTransGen.cases_head hc with heq | ⟨d, hd, -⟩
      · exact heq
      · exact absurd hj (by rw [show method.passOn j = some d from hd]; simp)
    exact ⟨j, .of_none ((passOn_eq_none h).mpr hj)⟩
  | @head i k hstep _ ih =>
    intro c hc
    rcases hc.cases hstep with rfl | hc
    · have hforward : ∀ {k' : ℕ}, Passes method.passOn k k' → Passes (remove pinned method).1.passOn i k' →
          ∃ j', Settles (remove pinned method).1.passOn i j' := by
        intro k' hk hpass
        obtain ⟨j', hj'⟩ := ih k' hk
        exact ⟨j', (settles_iff_of_passes hpass).mpr hj'⟩
      rcases passOn_cases pinned h i with ⟨hmem, -⟩ | ⟨target, a, b, hgoto, ha, hpass, hi⟩ | hi
      · exact hforward .refl (passes_redundant h hmem hstep)
      · obtain rfl : k = a := Option.some.inj (hstep.symm.trans (hgoto.passOn.trans (ha.position h)))
        exact hforward hpass (.single hi)
      · exact hforward .refl (.single (hi.trans hstep))
    · exact ih c hc

theorem remove_settles (h : method.WellPlaced) (i : ℕ) :
    MethodNode.Meets method (remove pinned method).1 i i := by
  have hback : ∀ j, Settles (remove pinned method).1.passOn i j → Settles method.passOn i j := by
    intro j hj
    exact (joins_of_passes h hj.1).settles_iff.mpr (.of_none ((passOn_eq_none h).mp hj.2))
  intro j
  refine ⟨fun hj => ?_, hback j⟩
  obtain ⟨j', hj'⟩ := exists_settles pinned h hj
  rwa [hj.unique (hback j' hj')]

variable (pinned) in
/-- An instruction that stops keeps its shape, and each of its targets moves along the old way. -/
theorem remove_targets (h : method.WellPlaced) {insn : Insn LabelId} (hstop : method.passOn i = none)
    (hi : method.nodes[i]? = some (.insn insn)) :
    ∃ insn', (remove pinned method).1.nodes[i]? = some (.insn insn') ∧ insn.shape = insn'.shape ∧
      List.Forall₂ (fun label label' => ∃ p p', method.position label = some p ∧
        (remove pinned method).1.position label' = some p' ∧ Passes method.passOn p p')
        insn.jumpTargets insn'.jumpTargets := by
  by_cases hjump : ∃ op target, insn = .jump op target
  · obtain ⟨op, target, rfl⟩ := hjump
    have hmem : i ∉ (found pinned method).redundant := by
      intro hmem
      obtain ⟨-, t, q, hgoto, hq, -⟩ := (scanned pinned method).redundant i hmem
      rw [hgoto.passOn, hq.position h] at hstop
      cases hstop
    refine ⟨.jump op (retarget pinned (found pinned method).leadsTo target), ?_, rfl, .cons ?_ .nil⟩
    · rw [remove_nodes, if_neg hmem, hi, Option.map_some, redirect]
    · obtain ⟨p, hp⟩ := h.toComplete.exists_target hi (List.mem_singleton_self target)
      obtain ⟨p', hp', hpass⟩ := passes_retarget pinned h (MethodNode.position_spec hp)
      exact ⟨p, p', hp, (remove_position pinned h _).symm.trans (hp'.position h), hpass⟩
  · refine ⟨insn, remove_node_same hi ?_, rfl, List.forall₂_same.mpr fun label hlabel => ?_⟩
    · rintro op target heq
      cases heq
      exact hjump ⟨op, target, rfl⟩
    · obtain ⟨p, hp⟩ := h.toComplete.exists_target hi hlabel
      exact ⟨p, p, hp, (remove_position pinned h _).symm.trans hp, .refl⟩

theorem remove_rejoins (h : method.WellPlaced) {insn : Insn LabelId} (hstop : method.passOn i = none)
    (hi : method.nodes[i]? = some (.insn insn)) :
    ∃ insn', (remove pinned method).1.nodes[i]? = some (.insn insn') ∧
      MethodNode.Rejoins method (remove pinned method).1 insn insn' := by
  obtain ⟨insn', hi', hshape, htargets⟩ := remove_targets pinned h hstop hi
  refine ⟨insn', hi', hshape, fun k => ?_⟩
  by_cases hk : k < insn.jumpTargets.length
  · have hk' : k < insn'.jumpTargets.length := htargets.length_eq ▸ hk
    obtain ⟨p, p', hp, hp', hpass⟩ := htargets.get hk hk'
    rw [List.get_eq_getElem] at hp hp'
    refine .inr ⟨p, p', ?_, ?_, fun j => (settles_iff_of_passes hpass).trans (remove_settles h p' j)⟩
    · rw [List.getElem?_eq_getElem hk, Option.bind_some, hp]
    · rw [List.getElem?_eq_getElem hk', Option.bind_some, hp']
  · have hk' : ¬ k < insn'.jumpTargets.length := htargets.length_eq ▸ hk
    exact .inl (by simp [Nat.le_of_not_lt hk, Nat.le_of_not_lt hk'])

variable (pinned) in
/-- The pass changes nothing but how control passes on. -/
theorem remove_sameFlow (h : method.WellPlaced) : MethodNode.SameFlow method (remove pinned method).1 :=
  .of_forth remove_length.symm (remove_position pinned h) rfl (remove_settles h) (remove_rejoins h)

end After

/-- Two places from which control goes on alike: it stops at the same instruction past every `goto` and
`nop`, or keeps to the same cycle of them. -/
structure GoesOn (before after : MethodNode) (p p' : ℕ) : Prop where
  stops : ∀ j, Settles before.passOn p j ↔ Settles after.passOn p' j
  stays : ∀ k, Passes after.passOn p' k → Joins before.passOn p k

/-- What removing redundant `goto`s keeps of a body. -/
structure Preserves (before after : MethodNode) : Prop where
  /-- Falling through to a node, or jumping to it, leads on as before. -/
  arrives : ∀ i, GoesOn before after i i
  /-- Every instruction that stops is still there, and so does each of its jumps. -/
  jumps : ∀ {i insn}, before.passOn i = none → before.nodes[i]? = some (.insn insn) →
    ∃ insn', after.nodes[i]? = some (.insn insn') ∧ insn.shape = insn'.shape ∧
      List.Forall₂ (fun label label' => ∃ p p', before.position label = some p ∧
        after.position label' = some p' ∧ GoesOn before after p p') insn.jumpTargets insn'.jumpTargets
  blocks : after.tryCatchBlocks = before.tryCatchBlocks
  /-- No range loses or gains a reachable instruction that can throw. -/
  protects : ∀ block i, before.passOn i = none →
    ((before.protects block i ∧ before.Visits i) ↔ (after.protects block i ∧ after.Visits i))
  runs : ∀ {S X O V : Type} (M : Machine S X O V) (s : S),
    Simulation.Same (before.program M) (after.program M) (0, s) (0, s)

/-- The pass keeps where control goes, what can throw, and what every run does; and a chain resolved with
the memo of earlier ones ends where it ends. -/
theorem remove_preserves (pinned : List LabelId) (method : MethodNode) (h : method.WellPlaced) :
    Preserves method (remove pinned method).1 ∧
      ∀ (leadsTo : List (LabelId × LabelId)) (earlier : List LabelId) (label : LabelId),
        let memo := earlier.foldl (fun resolved label => (finalTarget label leadsTo resolved).2) []
        (finalTarget label leadsTo memo).1 = (finalTarget label leadsTo []).1 ∧
          ∀ last, (finalTarget label leadsTo memo).1 = some last ↔ Settles (follow leadsTo) label last := by
  have hflow := remove_sameFlow pinned h
  refine ⟨⟨?_, ?_, rfl, ?_, hflow.same⟩, ?_⟩
  · intro i
    exact ⟨remove_settles h i, fun k hk => joins_of_passes h hk⟩
  · intro i insn hstop hi
    obtain ⟨insn', hi', hshape, htargets⟩ := remove_targets pinned h hstop hi
    refine ⟨insn', hi', hshape, htargets.imp ?_⟩
    rintro label label' ⟨p, p', hp, hp', hpass⟩
    refine ⟨p, p', hp, hp', fun j => (settles_iff_of_passes hpass).trans (remove_settles h p' j), ?_⟩
    intro k hk
    exact (Joins.of_passes hpass).trans (joins_of_passes h hk)
  · intro block i hstop
    rw [hflow.protects block i]
    refine and_congr_right fun _ => ⟨fun hvisits => hflow.visits hvisits (.of_none hstop), fun hvisits => ?_⟩
    exact hflow.symm.visits hvisits (.of_none (hflow.stops_iff.mp hstop))
  · intro leadsTo earlier label
    have hmemo : ∀ (labels : List LabelId) (resolved : List (LabelId × Option LabelId)), Memo leadsTo resolved →
        Memo leadsTo (labels.foldl (fun resolved label => (finalTarget label leadsTo resolved).2) resolved) := by
      intro labels
      induction labels with
      | nil => exact fun _ hresolved => hresolved
      | cons l labels ih => exact fun _ hresolved => ih _ (finalTarget_spec hresolved l).2
    have hearlier : Memo leadsTo _ := hmemo earlier [] (Memo.nil leadsTo)
    exact ⟨finalTarget_eq hearlier label, (finalTarget_spec hearlier label).1⟩

/-- A method whose only `goto` leads to the next instruction. -/
def jumpToNext : MethodNode :=
  { access := 9, name := "f", desc := "(Ljava/lang/Object;)Ljava/lang/Object;"
    nodes := [.insn (.var 0x19 0), .insn (.jump gotoOp ⟨0⟩), .label ⟨0⟩, .insn (.op 0xb0)]
    tryCatchBlocks := [], localVariables := [], maxStack := 1, maxLocals := 1, labelCount := 1 }

theorem remove_preserves_jumpToNext : Preserves jumpToNext (remove [] jumpToNext).1 :=
  (remove_preserves [] jumpToNext ⟨⟨by decide, by decide, by decide⟩, by decide⟩).1

/-- Where a label, a line number or a `goto` passes control on to. -/
def throughGotos (method : MethodNode) (index : ℕ) : Option ℕ :=
  match method.nodes[index]? with
  | some (.insn (.jump op target)) => if op = gotoOp then method.position target else none
  | some (.insn _) => none
  | some _ => some (index + 1)
  | none => none

/-- The `nop` a removed `goto` leaves is an instruction control did not meet before. -/
theorem first_instruction_changes :
    ¬ ∀ (pinned : List LabelId) (method : MethodNode), method.WellPlaced →
      ∀ i j, Settles (throughGotos method) i j ↔ Settles (throughGotos (remove pinned method).1) i j := by
  intro h
  have hbefore : Settles (throughGotos jumpToNext) 1 3 :=
    ⟨.head (show throughGotos jumpToNext 1 = some 2 by decide)
      (.single (show throughGotos jumpToNext 2 = some 3 by decide)), by decide⟩
  have hafter := (h [] jumpToNext ⟨⟨by decide, by decide, by decide⟩, by decide⟩ 1 3).mp hbefore
  have hnop : (remove [] jumpToNext).1.nodes[1]? = some (.insn (.op nop)) := by
    rw [remove_nodes, if_pos (by decide)]
    rfl
  have heq := hafter.eq_of_none (by simp [throughGotos, hnop])
  cases heq

end Krusty.Jvm.BytecodePasses.RedundantGotos
