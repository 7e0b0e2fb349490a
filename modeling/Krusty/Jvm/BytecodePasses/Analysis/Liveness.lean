import Krusty.Lib.Sweeps
import Krusty.Jvm.BytecodePasses.Analysis.ControlFlowGraph

/-! kotlinc's backward variable liveness: which local slots are read before being written on some path from
each node. -/
namespace Krusty.Jvm.BytecodePasses

open PathLiveness Relation

/-- The slots alive before a node. -/
structure VariableLiveness where
  alive : List Bool
  deriving DecidableEq

namespace VariableLiveness

def new (maxLocals : ℕ) : VariableLiveness := ⟨List.replicate maxLocals false⟩

def isAlive (frame : VariableLiveness) (slot : ℕ) : Bool := frame.alive[slot]?.getD false

/-- The frame grows to hold the slot. -/
def set (frame : VariableLiveness) (slot : ℕ) (alive : Bool) : VariableLiveness :=
  ⟨(frame.alive ++ List.replicate (slot + 1 - frame.alive.length) false).set slot alive⟩

def join (frame successor : VariableLiveness) : VariableLiveness :=
  successor.alive.zipIdx.foldl (fun frame entry => if entry.1 then frame.set entry.2 true else frame) frame

end VariableLiveness

section Analysis

variable (method : MethodNode) (graph : ControlFlowGraph)

/-- The slots alive before some successor; each successor has a frame. -/
def livenessAfter (frames : List VariableLiveness) (index : ℕ) : VariableLiveness :=
  (graph.successors index).foldl (fun frame successor => frames[successor]?.elim frame frame.join)
    (.new method.maxLocals.toNat)

def livenessBefore (frames : List VariableLiveness) (index : ℕ) : VariableLiveness :=
  let frame := livenessAfter method graph frames index
  match method.nodes[index]? with
  | some (.insn (.var op slot)) => frame.set slot.toNat (!opRange istore astore op)
  | some (.insn (.iinc slot _)) => frame.set slot.toNat true
  | _ => frame

/-- One frame per node, swept in reverse node order until nothing changes. A panic is the outer `none`; the
inner one says that `fuel` sweeps did not end. -/
def analyzeLiveness (fuel : ℕ) : Option (Option (List VariableLiveness)) :=
  (ControlFlowGraph.build method true).map fun graph =>
    Sweeps.settle (livenessBefore method graph) (List.range method.nodes.length).reverse fuel
      (List.replicate method.nodes.length (.new method.maxLocals.toNat))

/-- The node reads the slot. Of a `long` or a `double` it is the first. -/
def ReadsSlot (index slot : ℕ) : Prop :=
  ∃ insn, method.nodes[index]? = some (.insn insn) ∧
    ((∃ op s, insn = .var op s ∧ opRange istore astore op = false ∧ slot = s.toNat) ∨
      ∃ s delta, insn = .iinc s delta ∧ slot = s.toNat)

/-- The node writes the slot: a store, of a `long` or a `double` to the first, or an increment. -/
def WritesSlot (index slot : ℕ) : Prop :=
  ∃ insn, method.nodes[index]? = some (.insn insn) ∧
    ((∃ op s, insn = .var op s ∧ opRange istore astore op = true ∧ slot = s.toNat) ∨
      ∃ s delta, insn = .iinc s delta ∧ slot = s.toNat)

/-- Some path of control from the node, normal or exceptional, reaches a read of the slot before a write. -/
def LiveSlot : ℕ → ℕ → Prop := LiveBefore (Steps method) (ReadsSlot method) (WritesSlot method)

end Analysis

namespace VariableLiveness

variable {frame frame' f g h : VariableLiveness} {slot v : ℕ} {alive : Bool}

instance : PartialOrder VariableLiveness where
  le f g := f.alive.length ≤ g.alive.length ∧ ∀ slot, f.isAlive slot = true → g.isAlive slot = true
  le_refl f := ⟨le_rfl, fun _ h => h⟩
  le_trans f g h hfg hgh := ⟨hfg.1.trans hgh.1, fun slot h => hgh.2 slot (hfg.2 slot h)⟩
  le_antisymm := by
    rintro ⟨f⟩ ⟨g⟩ hfg hgf
    have hlength : f.length = g.length := le_antisymm hfg.1 hgf.1
    congr 1
    apply List.ext_getElem hlength
    intro slot hf hg
    have hle := hfg.2 slot
    have hge := hgf.2 slot
    simp only [isAlive, List.getElem?_eq_getElem hf, List.getElem?_eq_getElem hg, Option.getD_some] at hle hge
    exact Bool.eq_iff_iff.mpr ⟨hle, hge⟩

theorem le_def : f ≤ g ↔
    f.alive.length ≤ g.alive.length ∧ ∀ slot, f.isAlive slot = true → g.isAlive slot = true :=
  Iff.rfl

theorem isAlive_lt (h : f.isAlive slot = true) : slot < f.alive.length := by
  by_contra hout
  rw [isAlive, List.getElem?_eq_none (not_lt.mp hout)] at h
  cases h

@[simp] theorem isAlive_new (maxLocals : ℕ) : (new maxLocals).isAlive slot = false := by
  rw [isAlive, new, List.getElem?_replicate]
  split_ifs <;> rfl

@[simp] theorem length_set : (f.set slot alive).alive.length = max f.alive.length (slot + 1) := by
  simp only [set, List.length_set, List.length_append, List.length_replicate]
  omega

@[simp] theorem isAlive_set : (f.set slot alive).isAlive v = if v = slot then alive else f.isAlive v := by
  unfold isAlive set
  by_cases hv : v = slot
  · subst hv
    rw [if_pos rfl, List.getElem?_set_self (by simp; omega)]
    rfl
  · rw [if_neg hv, List.getElem?_set_ne (Ne.symm hv), List.getElem?_append]
    split_ifs with hlt
    · rfl
    · rw [List.getElem?_replicate, List.getElem?_eq_none (not_lt.mp hlt)]
      split_ifs <;> rfl

theorem set_mono (h : f ≤ g) : f.set slot alive ≤ g.set slot alive := by
  rw [le_def, length_set, length_set]
  refine ⟨max_le_max_right _ h.1, ?_⟩
  intro v hv
  rw [isAlive_set] at hv ⊢
  split_ifs at hv ⊢ with heq
  · exact hv
  · exact h.2 v hv

/-- Making a slot alive gives the least frame above with the slot alive. -/
theorem set_true_le_iff : f.set slot true ≤ h ↔ f ≤ h ∧ h.isAlive slot = true := by
  simp only [le_def, length_set, isAlive_set, max_le_iff]
  constructor
  · rintro ⟨⟨hlength, -⟩, halive⟩
    have hslot := halive slot (if_pos rfl)
    refine ⟨⟨hlength, ?_⟩, hslot⟩
    intro v hv
    refine halive v ?_
    split_ifs
    · rfl
    · exact hv
  · rintro ⟨⟨hlength, halive⟩, hslot⟩
    refine ⟨⟨hlength, isAlive_lt hslot⟩, ?_⟩
    intro v hv
    split_ifs at hv with heq
    · rwa [heq]
    · exact halive v hv

/-- The frames above `f` where every slot of `entries` that is marked is alive. -/
theorem foldl_set_le_iff (entries : List (Bool × ℕ)) :
    entries.foldl (fun frame entry => if entry.1 then frame.set entry.2 true else frame) f ≤ h ↔
      f ≤ h ∧ ∀ slot, (true, slot) ∈ entries → h.isAlive slot = true := by
  induction entries generalizing f with
  | nil => simp
  | cons entry entries ih =>
    obtain ⟨alive, slot⟩ := entry
    rw [List.foldl_cons, ih]
    cases alive with
    | false => simp
    | true =>
      rw [if_pos rfl, set_true_le_iff, and_assoc]
      simp [or_imp, forall_and]

theorem isAlive_foldl_set (entries : List (Bool × ℕ)) :
    (entries.foldl (fun frame entry => if entry.1 then frame.set entry.2 true else frame) f).isAlive v = true ↔
      f.isAlive v = true ∨ (true, v) ∈ entries := by
  induction entries generalizing f with
  | nil => simp
  | cons entry entries ih =>
    obtain ⟨alive, slot⟩ := entry
    rw [List.foldl_cons, ih]
    cases alive with
    | false => simp
    | true =>
      rw [if_pos rfl, isAlive_set]
      by_cases hv : v = slot <;> simp [hv]

theorem mem_zipIdx_alive : (true, v) ∈ g.alive.zipIdx ↔ g.isAlive v = true := by
  rw [List.mem_zipIdx_iff_getElem?, isAlive]
  cases g.alive[v]? <;> simp

theorem join_le_iff : f.join g ≤ h ↔ f ≤ h ∧ ∀ slot, g.isAlive slot = true → h.isAlive slot = true := by
  rw [join, foldl_set_le_iff]
  simp only [mem_zipIdx_alive]

@[simp] theorem isAlive_join : (f.join g).isAlive v = true ↔ f.isAlive v = true ∨ g.isAlive v = true := by
  rw [join, isAlive_foldl_set, mem_zipIdx_alive]

/-- How long the frame is, and how many slots are alive in it. -/
def height (f : VariableLiveness) : ℕ :=
  f.alive.length + ((Finset.range f.alive.length).filter fun slot => f.isAlive slot = true).card

theorem height_strictMono : StrictMono height := by
  intro f g hlt
  have hsub : ((Finset.range f.alive.length).filter fun slot => f.isAlive slot = true) ⊆
      (Finset.range g.alive.length).filter fun slot => g.isAlive slot = true := by
    intro slot hslot
    rw [Finset.mem_filter] at hslot ⊢
    have halive := hlt.le.2 slot hslot.2
    exact ⟨Finset.mem_range.mpr (isAlive_lt halive), halive⟩
  have hlength : f.alive.length ≤ g.alive.length := hlt.le.1
  unfold height
  by_cases heq : f.alive.length = g.alive.length
  · have hne : ∃ slot, g.isAlive slot = true ∧ ¬ f.isAlive slot = true := by
      by_contra hno
      push Not at hno
      exact hlt.not_ge ⟨heq.ge, hno⟩
    obtain ⟨slot, hg, hf⟩ := hne
    have hcard := Finset.card_lt_card (Finset.ssubset_iff_of_subset hsub |>.mpr
      ⟨slot, Finset.mem_filter.mpr ⟨Finset.mem_range.mpr (isAlive_lt hg), hg⟩,
        fun hmem => hf (Finset.mem_filter.mp hmem).2⟩)
    omega
  · have hcard := Finset.card_le_card hsub
    omega

theorem height_le (f : VariableLiveness) : f.height ≤ 2 * f.alive.length := by
  have hcard := (Finset.card_filter_le (Finset.range f.alive.length) fun slot => f.isAlive slot = true)
  rw [Finset.card_range] at hcard
  unfold height
  omega

/-- The frame of that length with every slot alive. -/
def full (length : ℕ) : VariableLiveness := ⟨List.replicate length true⟩

theorem le_full_iff {length : ℕ} : f ≤ full length ↔ f.alive.length ≤ length := by
  rw [le_def, full, List.length_replicate]
  constructor
  · exact fun h => h.1
  · intro h
    refine ⟨h, ?_⟩
    intro v hv
    have hlt : v < length := (isAlive_lt hv).trans_le h
    simp [isAlive, hlt]

end VariableLiveness

open VariableLiveness

section Before

variable {method : MethodNode} {graph : ControlFlowGraph} {frames frames' : List VariableLiveness} {index slot : ℕ}

/-- The frame of the node has the slot alive. -/
def AliveAt (frames : List VariableLiveness) (index slot : ℕ) : Prop :=
  ∃ frame, frames[index]? = some frame ∧ frame.isAlive slot = true

theorem livenessAfter_le_iff {h : VariableLiveness} :
    livenessAfter method graph frames index ≤ h ↔ new method.maxLocals.toNat ≤ h ∧
      ∀ target ∈ graph.successors index, ∀ slot, AliveAt frames target slot → h.isAlive slot = true := by
  unfold livenessAfter
  generalize graph.successors index = targets
  generalize new method.maxLocals.toNat = f
  induction targets generalizing f with
  | nil => simp
  | cons target targets ih =>
    rw [List.foldl_cons, ih, List.forall_mem_cons, ← and_assoc]
    refine and_congr_left' ?_
    cases hframe : frames[target]? with
    | none => simp [AliveAt, hframe]
    | some frame =>
      rw [Option.elim_some, join_le_iff]
      simp [AliveAt, hframe]

theorem isAlive_livenessAfter (method : MethodNode) : (livenessAfter method graph frames index).isAlive slot = true ↔
    ∃ target ∈ graph.successors index, AliveAt frames target slot := by
  have hfold : ∀ (targets : List ℕ) (f : VariableLiveness),
      (targets.foldl (fun frame successor => frames[successor]?.elim frame frame.join) f).isAlive slot = true ↔
        f.isAlive slot = true ∨ ∃ target ∈ targets, AliveAt frames target slot := by
    intro targets
    induction targets with
    | nil => simp
    | cons target targets ih =>
      intro f
      rw [List.foldl_cons, ih, List.exists_mem_cons_iff, ← or_assoc]
      refine or_congr_left ?_
      cases hframe : frames[target]? with
      | none => simp [AliveAt, hframe]
      | some frame =>
        rw [Option.elim_some, isAlive_join]
        simp [AliveAt, hframe]
  rw [livenessAfter, hfold, isAlive_new]
  simp

/-- A slot is alive before a node that reads it, and before one that leaves it alone when it is alive after. -/
theorem isAlive_livenessBefore :
    (livenessBefore method graph frames index).isAlive slot = true ↔ ReadsSlot method index slot ∨
      ¬ WritesSlot method index slot ∧ ∃ target ∈ graph.successors index, AliveAt frames target slot := by
  rw [← isAlive_livenessAfter method]
  unfold livenessBefore ReadsSlot WritesSlot
  dsimp only
  split
  · rename_i op s hnode
    rw [isAlive_set, hnode]
    by_cases hslot : slot = s.toNat
    · cases hop : opRange istore astore op <;> simp [hslot, hop]
    · simp [hslot]
  · rename_i s delta hnode
    rw [isAlive_set, hnode]
    by_cases hslot : slot = s.toNat
    · simp [hslot]
    · simp [hslot]
  · rename_i hvar hiinc
    have hno : ¬ ReadsSlot method index slot := by
      rintro ⟨insn, hinsn, ⟨op, s, rfl, -⟩ | ⟨s, delta, rfl, -⟩⟩
      · exact hvar op s hinsn
      · exact hiinc s delta hinsn
    have hno' : ¬ WritesSlot method index slot := by
      rintro ⟨insn, hinsn, ⟨op, s, rfl, -⟩ | ⟨s, delta, rfl, -⟩⟩
      · exact hvar op s hinsn
      · exact hiinc s delta hinsn
    unfold ReadsSlot at hno
    unfold WritesSlot at hno'
    rw [or_iff_right hno, and_iff_right hno']

theorem livenessAfter_mono (h : List.Forall₂ (· ≤ ·) frames frames') :
    livenessAfter method graph frames index ≤ livenessAfter method graph frames' index := by
  have halive : ∀ target slot, AliveAt frames target slot → AliveAt frames' target slot := by
    rintro target slot ⟨frame, hframe, hslot⟩
    obtain ⟨hlt, rfl⟩ := List.getElem?_eq_some_iff.mp hframe
    have hlt' : target < frames'.length := h.length_eq ▸ hlt
    have hle : frames[target] ≤ frames'[target] := List.Forall₂.get h hlt hlt'
    exact ⟨_, List.getElem?_eq_getElem hlt', hle.2 slot hslot⟩
  have habove := livenessAfter_le_iff.mp (le_refl (livenessAfter method graph frames' index))
  rw [livenessAfter_le_iff]
  exact ⟨habove.1, fun target htarget slot hslot => habove.2 target htarget slot (halive target slot hslot)⟩

theorem livenessBefore_mono (h : List.Forall₂ (· ≤ ·) frames frames') :
    livenessBefore method graph frames index ≤ livenessBefore method graph frames' index := by
  unfold livenessBefore
  dsimp only
  split
  · exact set_mono (livenessAfter_mono h)
  · exact set_mono (livenessAfter_mono h)
  · exact livenessAfter_mono h

/-- How long the frame of a node gets. -/
theorem length_livenessBefore :
    (livenessAfter method graph frames index).alive.length ≤
      (livenessBefore method graph frames index).alive.length ∧
      (livenessBefore method graph frames index).alive.length ≤
        max (livenessAfter method graph frames index).alive.length 65536 := by
  unfold livenessBefore
  dsimp only
  split
  · rename_i op s hnode
    have hs := s.toNat_lt
    rw [length_set]
    omega
  · rename_i s delta hnode
    have hs := s.toNat_lt
    rw [length_set]
    omega
  · omega

theorem new_le_livenessBefore : new method.maxLocals.toNat ≤ livenessBefore method graph frames index := by
  have hnew := (livenessAfter_le_iff.mp (le_refl (livenessAfter method graph frames index))).1
  rw [le_def]
  refine ⟨hnew.1.trans length_livenessBefore.1, ?_⟩
  intro slot hslot
  rw [isAlive_new] at hslot
  cases hslot

/-- What holds of every frame of a sweep: it is no longer than slots go, and a slot alive in it is live. -/
def Grounded (method : MethodNode) (graph : ControlFlowGraph) (frames : List VariableLiveness) : Prop :=
  ∀ index frame, frames[index]? = some frame → frame.alive.length ≤ 65536 ∧
    ∀ slot, frame.isAlive slot = true →
      LiveBefore (fun n m => m ∈ graph.successors n) (ReadsSlot method) (WritesSlot method) index slot

theorem Grounded.before (h : Grounded method graph frames) (index : ℕ) :
    (livenessBefore method graph frames index).alive.length ≤ 65536 ∧
      ∀ slot, (livenessBefore method graph frames index).isAlive slot = true →
        LiveBefore (fun n m => m ∈ graph.successors n) (ReadsSlot method) (WritesSlot method) index slot := by
  have hafter : livenessAfter method graph frames index ≤ full 65536 := by
    rw [livenessAfter_le_iff]
    constructor
    · rw [le_full_iff, new, List.length_replicate]
      exact method.maxLocals.toNat_lt.le
    · rintro target - slot ⟨frame, hframe, hslot⟩
      have hle : frame ≤ full 65536 := le_full_iff.mpr (h target frame hframe).1
      exact hle.2 slot hslot
  have hlength := le_full_iff.mp hafter
  constructor
  · exact length_livenessBefore.2.trans (max_le hlength le_rfl)
  · intro slot hslot
    obtain hreads | ⟨hquiet, target, htarget, frame, hframe, halive⟩ := isAlive_livenessBefore.mp hslot
    · exact .of_reads hreads
    · exact .of_steps hquiet htarget ((h target frame hframe).2 slot halive)

theorem climbs_livenessBefore :
    Sweeps.Climbs (livenessBefore method graph) height (2 * 65536) (Grounded method graph) where
  mono _ _ h _ := livenessBefore_mono h
  strict := height_strictMono
  kept := by
    intro frames index h i frame hframe
    rw [List.getElem?_set] at hframe
    split_ifs at hframe with heq
    · subst heq
      rw [← Option.some.inj hframe]
      exact h.before index
    · exact h i frame hframe
  bounded := by
    intro frames index h
    have hlength := (h.before index).1
    have hheight := height_le (livenessBefore method graph frames index)
    omega

end Before

variable {method : MethodNode} {graph : ControlFlowGraph}

theorem ReadsSlot.lt {index slot : ℕ} (h : ReadsSlot method index slot) : index < method.nodes.length := by
  obtain ⟨insn, hinsn, -⟩ := h
  exact (List.getElem?_eq_some_iff.mp hinsn).1

theorem getElem?_new {count maxLocals index : ℕ} {frame : VariableLiveness}
    (h : (List.replicate count (new maxLocals))[index]? = some frame) : frame = new maxLocals :=
  List.eq_of_mem_replicate (List.mem_of_getElem? h)

/-- The sweeps end, and the slots alive before a node are the ones live in the graph. -/
theorem settle_livenessBefore {fuel : ℕ} (hcount : ∀ n m, m ∈ graph.successors n → n < method.nodes.length)
    (hfuel : method.nodes.length * (2 * 65536) < fuel) :
    ∃ frames, Sweeps.settle (livenessBefore method graph) (List.range method.nodes.length).reverse fuel
        (List.replicate method.nodes.length (new method.maxLocals.toNat)) = some frames ∧
      frames.length = method.nodes.length ∧
      ∀ index frame, frames[index]? = some frame → ∀ slot, frame.isAlive slot = true ↔
        LiveBefore (fun n m => m ∈ graph.successors n) (ReadsSlot method) (WritesSlot method) index slot := by
  have hlength : (new method.maxLocals.toNat).alive.length ≤ 65536 := by
    rw [new, List.length_replicate]
    exact method.maxLocals.toNat_lt.le
  have hstart : Sweeps.Kept (livenessBefore method graph) height (2 * 65536) method.nodes.length
      (Grounded method graph) (List.replicate method.nodes.length (new method.maxLocals.toNat)) := by
    constructor
    case length => exact List.length_replicate
    case rising =>
      intro index frame hframe
      obtain rfl := getElem?_new hframe
      exact new_le_livenessBefore
    case bounded =>
      intro frame hframe
      rw [List.eq_of_mem_replicate hframe]
      have hheight := height_le (new method.maxLocals.toNat)
      omega
    case kept =>
      intro index frame hframe
      obtain rfl := getElem?_new hframe
      exact ⟨hlength, fun slot hslot => by simp at hslot⟩
  have horder : ∀ n ∈ (List.range method.nodes.length).reverse, n < method.nodes.length := by simp
  obtain ⟨frames, hframes, hkept, hfixed⟩ :=
    hstart.settle climbs_livenessBefore horder (Nat.lt_add_right _ hfuel)
  refine ⟨frames, hframes, hkept.length, ?_⟩
  intro index frame hframe slot
  constructor
  · exact (hkept.kept index frame hframe).2 slot
  · intro hlive
    have hbefore : ∀ n, n < method.nodes.length → (AliveAt frames n slot ↔
        (livenessBefore method graph frames n).isAlive slot = true) := by
      intro n hn
      rw [AliveAt, hfixed n (by simpa using hn)]
      simp
    have halive : AliveAt frames index slot := by
      refine hlive.backward (AliveAt frames · slot) ?_ ?_
      · exact fun n hreads => (hbefore n hreads.lt).mpr (isAlive_livenessBefore.mpr (.inl hreads))
      · intro n m hquiet hm halive
        exact (hbefore n (hcount n m hm)).mpr (isAlive_livenessBefore.mpr (.inr ⟨hquiet, m, hm, halive⟩))
    obtain ⟨frame', hframe', hslot⟩ := halive
    rw [hframe] at hframe'
    cases hframe'
    exact hslot

/-- Liveness in the graph is liveness by paths of control where control can step, and elsewhere what the node
itself reads. -/
theorem live_successors_iff (hsteps : ∀ n m, m ∈ graph.successors n ↔ Stepped method n ∧ Steps method n m)
    {index slot : ℕ} :
    LiveBefore (fun n m => m ∈ graph.successors n) (ReadsSlot method) (WritesSlot method) index slot ↔
      (Stepped method index ∧ LiveSlot method index slot) ∨ ReadsSlot method index slot := by
  constructor
  · intro h
    refine h.backward (fun n => (Stepped method n ∧ LiveSlot method n slot) ∨ ReadsSlot method n slot)
      (fun n => .inr) ?_
    intro n m hquiet hm hrest
    obtain ⟨hn, hstep⟩ := (hsteps n m).mp hm
    refine .inl ⟨hn, .of_steps hquiet hstep ?_⟩
    obtain ⟨-, hlive⟩ | hreads := hrest
    · exact hlive
    · exact .of_reads hreads
  · rintro (⟨hstepped, hlive⟩ | hreads)
    · refine hlive.backward (fun n => Stepped method n →
        LiveBefore (fun n m => m ∈ graph.successors n) (ReadsSlot method) (WritesSlot method) n slot)
        (fun n hreads _ => .of_reads hreads) ?_ hstepped
      intro n m hquiet hstep hrest hn
      exact .of_steps hquiet ((hsteps n m).mpr ⟨hn, hstep⟩) (hrest (hn.tail hstep))
    · exact .of_reads hreads

/-- Liveness ends on every body whose graph can be built, with a frame for every node: where control can step,
a slot is alive just when some path from the node reads it before writing it, and before a node control
cannot step to, just when that node reads it. -/
theorem analyzeLiveness_exact (method : MethodNode) :
    (¬ Graphable method → ∀ fuel, analyzeLiveness method fuel = none) ∧
    (Graphable method → ∃ frames : List VariableLiveness,
      (∀ fuel, method.nodes.length * 131072 < fuel → analyzeLiveness method fuel = some (some frames)) ∧
      frames.length = method.nodes.length ∧
      ∀ index frame, frames[index]? = some frame → ∀ slot,
        (Stepped method index → (frame.isAlive slot = true ↔ LiveSlot method index slot)) ∧
        (¬ Stepped method index → (frame.isAlive slot = true ↔ ReadsSlot method index slot))) := by
  constructor
  · intro hno fuel
    rw [← build_isSome_iff, Bool.not_eq_true, Option.isSome_eq_false_iff, Option.isNone_iff_eq_none] at hno
    rw [analyzeLiveness, hno, Option.map_none]
  · intro h
    obtain ⟨graph, hgraph⟩ := Option.isSome_iff_exists.mp (build_isSome_iff.mpr h)
    have hsteps : ∀ n m, m ∈ graph.successors n ↔ Stepped method n ∧ Steps method n m :=
      fun n m => mem_successors_iff hgraph
    have hcount : ∀ n m, m ∈ graph.successors n → n < method.nodes.length :=
      fun n m hm => ((hsteps n m).mp hm).2.lt
    obtain ⟨frames, hframes, hlength, halive⟩ := settle_livenessBefore hcount (Nat.lt_succ_self _)
    refine ⟨frames, ?_, hlength, ?_⟩
    · intro fuel hfuel
      rw [analyzeLiveness, hgraph, Option.map_some, Sweeps.settle_mono hframes hfuel]
    · intro index frame hframe slot
      rw [halive index frame hframe slot, live_successors_iff hsteps]
      constructor
      · intro hstepped
        exact ⟨fun h => h.elim And.right .of_reads, fun h => .inl ⟨hstepped, h⟩⟩
      · intro hno
        exact ⟨fun h => h.elim (fun h => (hno h.1).elim) id, .inr⟩

/-- A countdown: the slot is live round the loop, and not after it. -/
def countdown : MethodNode where
  access := 8
  name := "f"
  desc := "(I)V"
  nodes :=
    [.label ⟨0⟩, .insn (.iinc 0 (-1)), .insn (.var 0x15 0), .insn (.jump 0x9a ⟨0⟩), .insn (.op returnOp)]
  tryCatchBlocks := []
  localVariables := []
  maxStack := 1
  maxLocals := 1
  labelCount := 1

theorem analyzeLiveness_exact_countdown : Graphable countdown ∧ ∃ frames : List VariableLiveness,
    analyzeLiveness countdown 1000000 = some (some frames) ∧ frames.length = 5 := by
  have h : Graphable countdown := build_isSome_iff.mp (by decide +kernel)
  obtain ⟨frames, hframes, hlength, -⟩ := (analyzeLiveness_exact countdown).2 h
  exact ⟨h, frames, hframes _ (by decide), hlength⟩

/-- Code after a return that reads its argument. -/
def deadRead : MethodNode where
  access := 8
  name := "f"
  desc := "(I)I"
  nodes := [.insn (.op returnOp), .insn (.op nop), .insn (.var 0x15 0), .insn (.op ireturn)]
  tryCatchBlocks := []
  localVariables := []
  maxStack := 1
  maxLocals := 1
  labelCount := 0

/-- Control cannot come to the `nop`, so its edge to the read is not in the graph. -/
theorem analyzeLiveness_deadRead :
    analyzeLiveness deadRead 3 = some (some [⟨[false]⟩, ⟨[false]⟩, ⟨[true]⟩, ⟨[false]⟩]) ∧
      LiveSlot deadRead 1 0 := by
  refine ⟨by decide +kernel, ?_⟩
  have hstep : Steps deadRead 1 2 := .leads (.falls rfl rfl rfl)
  have hreads : ReadsSlot deadRead 2 0 := ⟨_, rfl, .inl ⟨_, _, rfl, by decide, rfl⟩⟩
  have hquiet : ¬ WritesSlot deadRead 1 0 := by
    rintro ⟨insn, hinsn, h⟩
    cases hinsn
    obtain ⟨_, _, heq, -⟩ | ⟨_, _, heq, -⟩ := h <;> cases heq
  exact .of_steps hquiet hstep (.of_reads hreads)

end Krusty.Jvm.BytecodePasses
