import Mathlib.Data.Nat.Count
import Krusty.Jvm.FrameMachine

/-! The last step of the optimizer: the slots nothing uses close up. -/
namespace Krusty.Jvm.BytecodePasses.LocalSlots

open Simulation

def lload : UInt8 := 0x16
def dload : UInt8 := 0x18
def lstore : UInt8 := 0x37
def dstore : UInt8 := 0x39

def isWideAccess (op : UInt8) : Bool := op == lload || op == dload || op == lstore || op == dstore

/-- The slots an instruction uses: a wide load or store both words, any other access its own. -/
def touched {L : Type} : Insn L → List UInt16
  | .var op slot => if isWideAccess op then [slot, slot + 1] else [slot]
  | .iinc slot _ => [slot]
  | _ => []

def named (v : LocalVariable) : List UInt16 :=
  if v.desc = "J" ∨ v.desc = "D" then [v.slot, v.slot + 1] else [v.slot]

/-- Each slot some access, some local variable or `fixed` uses. -/
def used (method : MethodNode) (fixed : Finset ℕ) : Finset ℕ :=
  fixed ∪ ((method.instructions.flatMap touched ++ method.localVariables.flatMap named).map UInt16.toNat).toFinset

/-- A used slot's rank among the used ones. -/
def moved (used : Finset ℕ) (slot : ℕ) : ℕ := (used.filter (· < slot)).card

def renumbered (moved : ℕ → ℕ) (slot : UInt16) : UInt16 := .ofNat (moved slot.toNat)

def renumberInsn {L : Type} (moved : ℕ → ℕ) : Insn L → Insn L
  | .var op slot => .var op (renumbered moved slot)
  | .iinc slot delta => .iinc (renumbered moved slot) delta
  | insn => insn

def renumberNode (moved : ℕ → ℕ) : Node → Node
  | .insn insn => .insn (renumberInsn moved insn)
  | node => node

def renumberLocal (moved : ℕ → ℕ) (v : LocalVariable) : LocalVariable := { v with slot := renumbered moved v.slot }

/-- Every access and every local variable renumbered. -/
def renumber (moved : ℕ → ℕ) (method : MethodNode) : MethodNode :=
  { method with
    nodes := method.nodes.map (renumberNode moved)
    localVariables := method.localVariables.map (renumberLocal moved) }

/-- Close the gaps among the slots used; `none` when there is none. -/
def compact (method : MethodNode) (fixed : Finset ℕ) : Option MethodNode :=
  match (used method fixed).max with
  | none => none
  | some highest =>
    if (used method fixed).card = highest + 1 then none
    else some (renumber (moved (used method fixed)) method)

/-- A wide access and a wide local variable leave room for their second word. -/
structure PairsFit (method : MethodNode) : Prop where
  accesses : ∀ op slot, .var op slot ∈ method.instructions → isWideAccess op → slot.toNat + 1 < 2 ^ 16
  locals : ∀ v ∈ method.localVariables, v.desc = "J" ∨ v.desc = "D" → v.slot.toNat + 1 < 2 ^ 16

section Ranks

variable {slots : Finset ℕ} {slot : ℕ}

theorem moved_eq_count : moved slots slot = Nat.count (· ∈ slots) slot := by
  rw [Nat.count_eq_card_filter_range, moved]
  congr 1
  ext k
  simp [and_comm]

theorem moved_le : moved slots slot ≤ slot := by
  rw [moved_eq_count]
  exact Nat.count_le _

theorem strictMonoOn_moved : StrictMonoOn (moved slots) slots := by
  intro slot hslot slot' _ hlt
  rw [moved_eq_count, moved_eq_count]
  exact Nat.count_strict_mono hslot hlt

theorem moved_succ (h : slot ∈ slots) : moved slots (slot + 1) = moved slots slot + 1 := by
  rw [moved_eq_count, moved_eq_count, Nat.count_succ, if_pos h]

/-- A slot with no gap below it stays. -/
theorem moved_eq_self (h : ∀ k < slot, k ∈ slots) : moved slots slot = slot := by
  rw [moved_eq_count]
  exact Nat.count_iff_forall.mpr h

/-- The ranks are the first numbers, one for each slot. -/
theorem image_moved : slots.image (moved slots) = Finset.range slots.card := by
  refine Finset.eq_of_subset_of_card_le ?_ ?_
  · intro rank hrank
    obtain ⟨slot, hslot, rfl⟩ := Finset.mem_image.mp hrank
    rw [Finset.mem_range]
    refine Finset.card_lt_card ⟨Finset.filter_subset _ _, fun hsub => ?_⟩
    exact Nat.lt_irrefl slot (Finset.mem_filter.mp (hsub hslot)).2
  · rw [Finset.card_range, Finset.card_image_of_injOn strictMonoOn_moved.injOn]

end Ranks

variable {slot : UInt16} {insn : Insn LabelId} {op : UInt8}

section Used

variable {method : MethodNode} {fixed : Finset ℕ}

theorem fixed_subset_used : fixed ⊆ used method fixed := Finset.subset_union_left

theorem touched_used (hinsn : insn ∈ method.instructions)
    (h : slot ∈ touched insn) : slot.toNat ∈ used method fixed := by
  refine Finset.mem_union_right _ (List.mem_toFinset.mpr (List.mem_map_of_mem ?_))
  exact List.mem_append_left _ (List.mem_flatMap_of_mem hinsn h)

theorem named_used {v : LocalVariable} (hv : v ∈ method.localVariables) (h : slot ∈ named v) :
    slot.toNat ∈ used method fixed := by
  refine Finset.mem_union_right _ (List.mem_toFinset.mpr (List.mem_map_of_mem ?_))
  exact List.mem_append_right _ (List.mem_flatMap_of_mem hv h)

theorem mem_touched_var {L : Type} : slot ∈ touched (.var op slot : Insn L) := by
  cases h : isWideAccess op <;> simp [touched, h]

theorem mem_named {v : LocalVariable} : v.slot ∈ named v := by
  unfold named
  split <;> exact List.mem_cons_self

theorem toNat_succ (h : slot.toNat + 1 < 2 ^ 16) : (slot + 1).toNat = slot.toNat + 1 := by
  rw [UInt16.toNat_add]
  exact Nat.mod_eq_of_lt h

theorem second_word_used (hfit : PairsFit method)
    (hinsn : .var op slot ∈ method.instructions) (hwide : isWideAccess op) :
    slot.toNat + 1 ∈ used method fixed := by
  rw [← toNat_succ (hfit.accesses op slot hinsn hwide)]
  refine touched_used hinsn ?_
  simp [touched, hwide]

theorem used_lt (hfixed : ∀ slot ∈ fixed, slot < 2 ^ 16) {slot : ℕ} (h : slot ∈ used method fixed) :
    slot < 2 ^ 16 := by
  obtain h | h := Finset.mem_union.mp h
  · exact hfixed slot h
  · obtain ⟨s, -, rfl⟩ := List.mem_map.mp (List.mem_toFinset.mp h)
    exact s.toNat_lt

end Used

section Renumber

variable {method : MethodNode} {fixed : Finset ℕ} {rename : ℕ → ℕ}

theorem renumberInsn_eq_self (h : ∀ slot ∈ touched insn, rename slot.toNat = slot.toNat) :
    renumberInsn rename insn = insn := by
  cases insn with
  | var op slot => simp [renumberInsn, renumbered, h slot mem_touched_var]
  | iinc slot delta => simp [renumberInsn, renumbered, h slot (by simp [touched])]
  | _ => rfl

theorem renumberNode_eq_self {node : Node} (hnode : node ∈ method.nodes)
    (h : ∀ slot ∈ used method fixed, rename slot = slot) : renumberNode rename node = node := by
  cases node with
  | label label => rfl
  | line line start => rfl
  | insn insn =>
    have hinsn : insn ∈ method.instructions := List.mem_filterMap.mpr ⟨_, hnode, rfl⟩
    exact congrArg Node.insn (renumberInsn_eq_self fun slot hslot => h _ (touched_used hinsn hslot))

theorem renumber_eq_self (h : ∀ slot ∈ used method fixed, rename slot = slot) :
    renumber rename method = method := by
  have hnodes : method.nodes.map (renumberNode rename) = method.nodes :=
    (List.map_congr_left fun node hnode => renumberNode_eq_self hnode h).trans (List.map_id _)
  have hlocals : method.localVariables.map (renumberLocal rename) = method.localVariables := by
    refine (List.map_congr_left fun v hv => ?_).trans (List.map_id _)
    rw [renumberLocal, renumbered, h _ (named_used hv mem_named), UInt16.ofNat_toNat]
    rfl
  rw [renumber, hnodes, hlocals]

/-- Where there is no gap every slot is its own rank, so nothing would change. -/
theorem compact_eq : (compact method fixed).getD method = renumber (moved (used method fixed)) method := by
  unfold compact
  split
  case h_1 hmax =>
    have hempty := Finset.max_eq_bot.mp hmax
    have hnone : ∀ slot ∈ used method fixed, moved (used method fixed) slot = slot := by
      intro slot hslot
      rw [hempty] at hslot
      exact absurd hslot (Finset.notMem_empty slot)
    exact (renumber_eq_self hnone).symm
  case h_2 highest hmax =>
    split_ifs with hcard
    · have hsub : used method fixed ⊆ Finset.range (highest + 1) := fun slot hslot =>
        Finset.mem_range_succ_iff.mpr (Finset.le_max_of_eq hslot hmax)
      have hfull := Finset.eq_of_subset_of_card_le hsub (by rw [Finset.card_range, hcard])
      have hstay : ∀ slot ∈ used method fixed, moved (used method fixed) slot = slot := by
        intro slot hslot
        refine moved_eq_self fun k hk => ?_
        rw [hfull, Finset.mem_range] at hslot ⊢
        exact hk.trans hslot
      exact (renumber_eq_self hstay).symm
    · rfl

end Renumber

section Lockstep

variable {R W X O V : Type} {env : Env R W X O V} {slots : Finset ℕ} {rename : ℕ → ℕ} {f f' : Jvm.Frame R W}

/-- Frames with the same operands whose locals agree up to the renaming of `slots`. -/
structure Renamed (slots : Finset ℕ) (rename : ℕ → ℕ) (f f' : Jvm.Frame R W) : Prop where
  operands : f'.toOperands = f.toOperands
  locals : ∀ slot ∈ slots, f'.locals (rename slot) = f.locals slot

/-- What a slot and the renaming owe an access of the kind. -/
structure Accessible (slots : Finset ℕ) (rename : ℕ → ℕ) (kind : Kind) (slot : ℕ) : Prop where
  first : slot ∈ slots
  second : kind.isWide → slot + 1 ∈ slots
  adjacent : kind.isWide → rename (slot + 1) = rename slot + 1

variable {kind : Kind}

theorem Renamed.load {slot : ℕ} (h : Renamed slots rename f f')
    (hslot : Accessible slots rename kind slot) : f'.load kind (rename slot) = f.load kind slot := by
  unfold Jvm.Frame.load
  rw [h.locals slot hslot.first]
  cases hwide : kind.isWide with
  | false => simp
  | true => rw [← hslot.adjacent hwide, h.locals _ (hslot.second hwide)]

theorem Renamed.store {slot : ℕ} (v : StackValue R) (hinj : Set.InjOn rename slots) (h : Renamed slots rename f f')
    (hslot : Accessible slots rename v.kind slot) :
    ∀ s ∈ slots, Jvm.Frame.store v (rename slot) f'.locals (rename s) = Jvm.Frame.store v slot f.locals s := by
  intro s hs
  have hfirst : rename s = rename slot ↔ s = slot := hinj.eq_iff hs hslot.first
  have hsecond : v.isWide = true ∧ rename s = rename slot + 1 ↔ v.isWide = true ∧ s = slot + 1 := by
    refine and_congr_right fun hwide => ?_
    rw [← hslot.adjacent hwide]
    exact hinj.eq_iff hs (hslot.second hwide)
  simp only [Jvm.Frame.store, hfirst, hsecond, h.locals s hs]

/-- Effects alike, in related states. -/
inductive Alike {S T X O : Type} (R : S → T → Prop) : Effect S X O → Effect T X O → Prop
  | next {s : S} {t : T} (h : R s t) : Alike R (.next s) (.next t)
  | branch {k : ℕ} {s : S} {t : T} (h : R s t) : Alike R (.branch k s) (.branch k t)
  | throws {x : X} {s : S} {t : T} (h : R s t) : Alike R (.throws x s) (.throws x t)
  | returns {o : O} : Alike R (.returns o) (.returns o)
  | stuck : Alike R .stuck .stuck

theorem Alike.map {S T U X O : Type} {R : T → U → Prop} {g : S → T} {g' : S → U} (h : ∀ s, R (g s) (g' s)) :
    ∀ effect : Effect S X O, Alike R (effect.map g) (effect.map g')
  | .next s => .next (h s)
  | .branch _ s => .branch (h s)
  | .throws _ s => .throws (h s)
  | .returns _ => .returns
  | .stuck => .stuck

theorem Renamed.withOperands (h : Renamed slots rename f f') (s : Operands R W) :
    Renamed slots rename { f with toOperands := s } { f' with toOperands := s } where
  operands := rfl
  locals := h.locals

theorem Renamed.operate (h : Renamed slots rename f f') (env : Env R W X O V) (insn : Insn LabelId) :
    Alike (Renamed slots rename)
      ((env.operate insn.shape f.toOperands).map fun s => { f with toOperands := s })
      ((env.operate insn.shape f'.toOperands).map fun s => { f' with toOperands := s }) := by
  rw [h.operands]
  exact Alike.map h.withOperands _

theorem kindFrom_wide {first op : UInt8} (h : kindFrom first op = some kind)
    (hwide : kind.isWide) : op = first + 1 ∨ op = first + 3 := by
  unfold kindFrom at h
  split_ifs at h with h0 h1 h2 h3 h4
  · cases h
    cases hwide
  · exact .inl h1
  · cases h
    cases hwide
  · exact .inr h3
  · cases h
    cases hwide

theorem loadKind_wide (h : loadKind op = some kind) (hwide : kind.isWide) : isWideAccess op := by
  obtain rfl | rfl := kindFrom_wide h hwide <;> rfl

theorem storeKind_wide (h : storeKind op = some kind) (hwide : kind.isWide) : isWideAccess op := by
  obtain rfl | rfl := kindFrom_wide h hwide <;> rfl

/-- What the slots and the renaming owe an instruction. -/
structure Serves (slots : Finset ℕ) (rename : ℕ → ℕ) (insn : Insn LabelId) : Prop where
  touched : ∀ slot ∈ touched insn, slot.toNat ∈ slots
  fits : ∀ slot ∈ slots, rename slot < 2 ^ 16
  second : ∀ op slot, insn = .var op slot → isWideAccess op → slot.toNat + 1 ∈ slots
  adjacent : ∀ op slot, insn = .var op slot → isWideAccess op →
    rename (slot.toNat + 1) = rename slot.toNat + 1

theorem Serves.accessible (h : Serves slots rename (.var op slot)) (hwide : kind.isWide → isWideAccess op) :
    Accessible slots rename kind slot.toNat where
  first := h.touched slot mem_touched_var
  second hkind := h.second op slot rfl (hwide hkind)
  adjacent hkind := h.adjacent op slot rfl (hwide hkind)

theorem renumbered_toNat (h : rename slot.toNat < 2 ^ 16) :
    (renumbered rename slot).toNat = rename slot.toNat := UInt16.toNat_ofNat_of_lt h

theorem Renamed.execute_var (hinj : Set.InjOn rename slots)
    (h : Renamed slots rename f f') (hserves : Serves slots rename (.var op slot)) :
    Alike (Renamed slots rename) (f.execute env (.var op slot))
      (f'.execute env (.var op (renumbered rename slot))) := by
  have hslot := hserves.touched slot mem_touched_var
  simp only [Jvm.Frame.execute, renumbered_toNat (hserves.fits _ hslot), h.operands]
  cases hload : loadKind op with
  | some kind =>
    dsimp only
    rw [h.load (hserves.accessible (loadKind_wide hload))]
    cases f.load kind slot.toNat with
    | some v => exact .next (h.withOperands _)
    | none => exact .stuck
  | none =>
    cases hstore : storeKind op with
    | none => exact .stuck
    | some kind =>
      cases hstack : f.stack with
      | nil => exact .stuck
      | cons v rest =>
        dsimp only
        split_ifs with hkind
        · refine .next ⟨rfl, h.store v hinj (hserves.accessible fun hwide => ?_)⟩
          exact storeKind_wide hstore (hkind ▸ hwide)
        · exact .stuck

theorem Renamed.execute_iinc {delta : Int16} (hinj : Set.InjOn rename slots)
    (h : Renamed slots rename f f') (hserves : Serves slots rename (.iinc slot delta)) :
    Alike (Renamed slots rename) (f.execute env (.iinc slot delta))
      (f'.execute env (.iinc (renumbered rename slot) delta)) := by
  have hslot := hserves.touched slot (by simp [LocalSlots.touched])
  simp only [Jvm.Frame.execute, renumbered_toNat (hserves.fits _ hslot), h.locals _ hslot]
  split
  case h_1 a _ =>
    refine .next ⟨h.operands, h.store _ hinj ⟨hslot, ?_, ?_⟩⟩ <;>
      exact fun hwide => nomatch hwide
  case h_2 => exact .stuck

/-- One instruction and its renumbered form. -/
theorem Renamed.execute (hinj : Set.InjOn rename slots)
    (h : Renamed slots rename f f') (hserves : Serves slots rename insn) :
    Alike (Renamed slots rename) (f.execute env insn.shape)
      (f'.execute env (renumberInsn rename insn).shape) := by
  cases insn with
  | var op slot => exact h.execute_var hinj hserves
  | iinc slot delta => exact h.execute_iinc hinj hserves
  | ldc constant => exact h.operate env (.ldc constant)
  | _ => exact h.operate env _

end Lockstep

section Debugged

variable {R W X O V : Type}

/-- The variables in scope at a node, with what their slots hold. -/
def inScope (method : MethodNode) (index : ℕ) (f : Jvm.Frame R W) : List (String × String × LocalSlot R) :=
  (method.localVariables.filter fun v => method.spans v.start v.stop index).map fun v =>
    (v.name, v.desc, f.locals v.slot.toNat)

/-- The body under a debugger, which sees the world and the variables in scope. -/
def debugged (method : MethodNode) (env : Env R W X O V) :
    Program (ℕ × Jvm.Frame R W) (Option O) (V × List (String × String × LocalSlot R)) where
  step := method.advance env.machine
  view := fun a => (env.view a.2.world, inScope method a.1 a.2)

variable {env : Env R W X O V} {method : MethodNode} {slots : Finset ℕ} {rename : ℕ → ℕ} {f f' : Jvm.Frame R W}

theorem position_renumber (label : LabelId) : (renumber rename method).position label = method.position label := by
  unfold MethodNode.position renumber
  dsimp only
  have hlabel : (fun x : Node × ℕ => x.1 == .label label) ∘ Prod.map (renumberNode rename) id =
      fun x : Node × ℕ => x.1 == .label label := by
    funext ⟨node, i⟩
    cases node <;> rfl
  rw [List.zipIdx_map, ← List.map_reverse, List.find?_map, Option.map_map]
  exact congrArg (fun p => Option.map Prod.snd (method.nodes.zipIdx.reverse.find? p)) hlabel

theorem spans_renumber (start stop : LabelId) (index : ℕ) :
    (renumber rename method).spans start stop index = method.spans start stop index := by
  rw [MethodNode.spans, position_renumber, position_renumber]
  rfl

theorem jumpTargets_renumber (insn : Insn LabelId) : (renumberInsn rename insn).jumpTargets = insn.jumpTargets := by
  cases insn <;> rfl

theorem inScope_renumber {index : ℕ} (h : Renamed slots rename f f')
    (hnamed : ∀ v ∈ method.localVariables, v.slot.toNat ∈ slots) (hfits : ∀ slot ∈ slots, rename slot < 2 ^ 16) :
    inScope (renumber rename method) index f' = inScope method index f := by
  have hspans : (fun v : LocalVariable => (renumber rename method).spans v.start v.stop index) ∘
      renumberLocal rename = fun v => method.spans v.start v.stop index := by
    funext v
    exact spans_renumber v.start v.stop index
  have hfilter : (renumber rename method).localVariables.filter
        (fun v => (renumber rename method).spans v.start v.stop index) =
      (method.localVariables.filter fun v => method.spans v.start v.stop index).map (renumberLocal rename) :=
    List.filter_map.trans (congrArg (fun p => (method.localVariables.filter p).map _) hspans)
  rw [inScope, hfilter, List.map_map]
  refine List.map_congr_left fun v hv => ?_
  have hslot := hnamed v (List.mem_filter.mp hv).1
  simp only [Function.comp_apply, renumberLocal, renumbered_toNat (hfits _ hslot), h.locals _ hslot]

theorem catcher_renumber {index : ℕ} {x : X} (h : Renamed slots rename f f') :
    (renumber rename method).catcher env.machine index x f' = method.catcher env.machine index x f := by
  have hworld : f'.world = f.world := congrArg Operands.world h.operands
  unfold MethodNode.catcher MethodNode.protects
  simp only [spans_renumber, Env.machine, hworld]
  rfl

/-- Both bodies at the same node, in frames that agree up to the renaming. -/
def Lockstep (slots : Finset ℕ) (rename : ℕ → ℕ) (a b : ℕ × Jvm.Frame R W) : Prop :=
  b.1 = a.1 ∧ Renamed slots rename a.2 b.2

theorem progress_arrive {a b : ℕ × Jvm.Frame R W} {label : Option LabelId} (h : Renamed slots rename f f')
    (ha : method.advance env.machine a = method.arrive label f)
    (hb : (renumber rename method).advance env.machine b = (renumber rename method).arrive label f') :
    Simulation.Progress (debugged method env) (debugged (renumber rename method) env) (Lockstep slots rename)
      (fun _ _ => (0 : ℕ)) a b := by
  have hposition : label.bind (renumber rename method).position = label.bind method.position := by
    congr 1
    funext label
    exact position_renumber label
  simp only [MethodNode.arrive, hposition] at ha hb
  cases harrive : label.bind method.position with
  | none =>
    rw [harrive] at ha hb
    exact .done ha hb
  | some index =>
    rw [harrive] at ha hb
    exact .both ha hb ⟨rfl, h⟩

theorem progress_insn {index : ℕ} (hinj : Set.InjOn rename slots)
    (hserves : Serves slots rename insn) (h : Renamed slots rename f f')
    (hinsn : method.nodes[index]? = some (.insn insn)) :
    Simulation.Progress (debugged method env) (debugged (renumber rename method) env) (Lockstep slots rename)
      (fun _ _ => (0 : ℕ)) (index, f) (index, f') := by
  have hinsn' : (renumber rename method).nodes[index]? = some (.insn (renumberInsn rename insn)) := by
    simp [renumber, hinsn, renumberNode]
  have ha : method.advance env.machine (index, f) =
      method.proceed env.machine index insn (f.execute env insn.shape) := by
    simp only [MethodNode.advance, hinsn]
    rfl
  have hb : (renumber rename method).advance env.machine (index, f') =
      (renumber rename method).proceed env.machine index (renumberInsn rename insn)
        (f'.execute env (renumberInsn rename insn).shape) := by
    simp only [MethodNode.advance, hinsn']
    rfl
  have halike : Alike (Renamed slots rename) (f.execute env insn.shape)
      (f'.execute env (renumberInsn rename insn).shape) := h.execute hinj hserves
  generalize f.execute env insn.shape = effect at ha halike
  generalize f'.execute env (renumberInsn rename insn).shape = effect' at hb halike
  cases halike with
  | next hnext => exact .both ha hb ⟨rfl, hnext⟩
  | branch hnext =>
    rw [MethodNode.proceed, jumpTargets_renumber] at hb
    exact progress_arrive hnext ha hb
  | @throws x s s' hnext =>
    simp only [MethodNode.proceed, catcher_renumber hnext] at ha hb
    cases hcatcher : method.catcher env.machine index _ _ with
    | none =>
      rw [hcatcher] at ha hb
      have hworld := congrArg Operands.world hnext.operands
      refine .done ha (hb.trans ?_)
      simp only [Env.machine, hworld]
    | some block =>
      rw [hcatcher] at ha hb
      have hworld := congrArg Operands.world hnext.operands
      have henter : Renamed slots rename (env.machine.enter x s) (env.machine.enter x s') := by
        refine ⟨?_, hnext.locals⟩
        simp only [Env.machine, hworld]
      exact progress_arrive henter ha hb
  | returns => exact .done ha hb
  | stuck => exact .done ha hb

theorem lockstep_ranked (hinj : Set.InjOn rename slots)
    (hserves : ∀ insn ∈ method.instructions, Serves slots rename insn)
    (hnamed : ∀ v ∈ method.localVariables, v.slot.toNat ∈ slots) (hfits : ∀ slot ∈ slots, rename slot < 2 ^ 16) :
    Ranked (debugged method env) (debugged (renumber rename method) env) (Lockstep slots rename)
      fun _ _ => (0 : ℕ) where
  view := by
    intro ⟨index, f⟩ ⟨index', f'⟩ ⟨hindex, h⟩
    obtain rfl : index' = index := hindex
    have hworld : f'.world = f.world := congrArg Operands.world h.operands
    exact Prod.ext (congrArg env.view hworld.symm) (inScope_renumber h hnamed hfits).symm
  progress := by
    intro ⟨index, f⟩ ⟨index', f'⟩ ⟨hindex, h⟩
    obtain rfl : index' = index := hindex
    have hnode' : (renumber rename method).nodes[index']? =
        (method.nodes[index']?).map (renumberNode rename) := by
      simp [renumber]
    cases hnode : method.nodes[index']? with
    | none =>
      rw [hnode] at hnode'
      refine .done (o := none) ?_ ?_
      · simp only [debugged, MethodNode.advance, hnode]
      · simp only [debugged, MethodNode.advance, hnode', Option.map_none]
    | some node =>
      rw [hnode] at hnode'
      cases node with
      | insn insn =>
        have hinsn : insn ∈ method.instructions := List.mem_filterMap.mpr ⟨_, List.mem_of_getElem? hnode, rfl⟩
        exact progress_insn hinj (hserves insn hinsn) h hnode
      | label label =>
        have ha : (debugged method env).Goes (index', f) (index' + 1, f) := by
          simp only [Program.Goes, debugged, MethodNode.advance, hnode]
        have hb : (debugged (renumber rename method) env).Goes (index', f') (index' + 1, f') := by
          simp only [Program.Goes, debugged, MethodNode.advance, hnode', Option.map_some, renumberNode]
        exact .both ha hb ⟨rfl, h⟩
      | line line start =>
        have ha : (debugged method env).Goes (index', f) (index' + 1, f) := by
          simp only [Program.Goes, debugged, MethodNode.advance, hnode]
        have hb : (debugged (renumber rename method) env).Goes (index', f') (index' + 1, f') := by
          simp only [Program.Goes, debugged, MethodNode.advance, hnode', Option.map_some, renumberNode]
        exact .both ha hb ⟨rfl, h⟩

end Debugged

/-- `after` is the body with its slots renamed: in order, the first `parameters` left where they are,
pairs kept together, no gap left. Under any debugger it does what the old one does. -/
structure Compacts (method after : MethodNode) (parameters : ℕ) (rename : ℕ → ℕ) : Prop where
  strictMono : StrictMonoOn rename (used method (Finset.range parameters))
  fixed : ∀ slot < parameters, rename slot = slot
  accesses : ∀ op slot, .var op slot ∈ method.instructions → isWideAccess op →
    rename (slot.toNat + 1) = rename slot.toNat + 1
  locals : ∀ v ∈ method.localVariables, v.desc = "J" ∨ v.desc = "D" →
    rename (v.slot.toNat + 1) = rename v.slot.toNat + 1
  closed : (used method (Finset.range parameters)).image rename =
    Finset.range (used method (Finset.range parameters)).card
  renumbers : after = renumber rename method
  behaves : ∀ {R W X O V : Type} (env : Env R W X O V) (index : ℕ) (f : Jvm.Frame R W),
    (∀ slot, parameters ≤ slot → f.locals slot = .unset) →
      Same (debugged method env) (debugged after env) (index, f) (index, f)

section Compact

variable {method : MethodNode} {parameters : ℕ}

theorem moved_parameter {slot : ℕ} (h : slot ≤ parameters) :
    moved (used method (Finset.range parameters)) slot = slot :=
  moved_eq_self fun _ hk => fixed_subset_used (Finset.mem_range.mpr (Nat.lt_of_lt_of_le hk h))

theorem le_moved {slot : ℕ} (h : parameters ≤ slot) :
    parameters ≤ moved (used method (Finset.range parameters)) slot := by
  have hmono : moved (used method (Finset.range parameters)) parameters ≤
      moved (used method (Finset.range parameters)) slot := by
    rw [moved_eq_count, moved_eq_count]
    exact Nat.count_monotone _ h
  rw [moved_parameter le_rfl] at hmono
  exact hmono

/-- On entry only parameters hold anything, and they stay where they are. -/
theorem renamed_entry {R W : Type} {f : Jvm.Frame R W} (h : ∀ slot, parameters ≤ slot → f.locals slot = .unset) :
    Renamed (used method (Finset.range parameters)) (moved (used method (Finset.range parameters))) f f where
  operands := rfl
  locals slot _ := by
    rcases Nat.lt_or_ge slot parameters with hlt | hge
    · rw [moved_parameter hlt.le]
    · rw [h slot hge, h _ (le_moved hge)]

theorem moved_serves (hfit : PairsFit method) (hparameters : parameters ≤ 2 ^ 16)
    (hinsn : insn ∈ method.instructions) : Serves (used method (Finset.range parameters))
      (moved (used method (Finset.range parameters))) insn where
  touched _ hslot := touched_used hinsn hslot
  fits slot hslot := by
    refine Nat.lt_of_le_of_lt moved_le (used_lt (fun slot hslot => ?_) hslot)
    exact Nat.lt_of_lt_of_le (Finset.mem_range.mp hslot) hparameters
  second op slot heq hwide := second_word_used hfit (heq ▸ hinsn) hwide
  adjacent op slot heq _ := moved_succ (touched_used (heq ▸ hinsn) mem_touched_var)

theorem compact_compacts (method : MethodNode) (parameters : UInt16) (hfit : PairsFit method) :
    ∃ rename, Compacts method ((compact method (Finset.range parameters.toNat)).getD method)
      parameters.toNat rename := by
  refine ⟨moved (used method (Finset.range parameters.toNat)), ?_⟩
  have hfits : ∀ slot ∈ used method (Finset.range parameters.toNat), slot < 2 ^ 16 := fun slot =>
    used_lt fun slot hslot => (Finset.mem_range.mp hslot).trans parameters.toNat_lt
  refine ⟨strictMonoOn_moved, fun slot hslot => moved_parameter hslot.le, ?_, ?_, image_moved, compact_eq, ?_⟩
  · intro op slot hinsn _
    exact moved_succ (touched_used hinsn mem_touched_var)
  · intro v hv _
    exact moved_succ (named_used hv mem_named)
  · intro R W X O V env index f hf
    rw [compact_eq]
    refine (lockstep_ranked strictMonoOn_moved.injOn ?_ ?_ ?_).same ⟨rfl, renamed_entry hf⟩
    · exact fun insn hinsn => moved_serves hfit parameters.toNat_lt.le hinsn
    · exact fun v hv => named_used hv mem_named
    · exact fun slot hslot => Nat.lt_of_le_of_lt moved_le (hfits slot hslot)

/-- A `long` stored to slot 5 and loaded from it, with a gap below. -/
def gappedLong : MethodNode where
  access := 0x0009
  name := "f"
  desc := "()J"
  nodes := [.insn (.op 0x09), .insn (.var lstore 5), .insn (.var lload 5), .insn (.op 0xad)]
  tryCatchBlocks := []
  localVariables := []
  maxStack := 2
  maxLocals := 7
  labelCount := 0

theorem compact_compacts_gappedLong : ∃ rename,
    Compacts gappedLong ((compact gappedLong (Finset.range 1)).getD gappedLong) 1 rename :=
  compact_compacts gappedLong 1 ⟨by
    intro op slot h hwide
    simp only [MethodNode.instructions, gappedLong, List.filterMap_cons, List.filterMap_nil, List.mem_cons,
      Insn.var.injEq, reduceCtorEq, List.not_mem_nil, or_false, false_or] at h
    obtain ⟨-, rfl⟩ | ⟨-, rfl⟩ := h <;> decide, fun v hv => nomatch hv⟩

example : (compact gappedLong (Finset.range 1)).map MethodNode.instructions =
    some [.op 0x09, .var lstore 1, .var lload 1, .op 0xad] := by decide

end Compact

end Krusty.Jvm.BytecodePasses.LocalSlots
