import Krusty.Jvm.MethodNode.LaidOut
import Krusty.Jvm.MethodNode.Reread

/-! Reading, assembling and reading again: the assembled code is the code that was read, moved. -/
namespace Krusty.Jvm
open Bytes Results

/-- The assembled code as the `Code` attribute a reader is given. -/
def AssembledCode.asBody (out : AssembledCode) : CodeAttribute where
  maxStack := out.maxStack
  maxLocals := out.maxLocals
  code := out.code
  handlers := out.exceptionTable.map fun row => ⟨row.1, row.2.1, row.2.2.1, row.2.2.2⟩
  lines := out.lineNumbers
  locals := out.localVariables.map fun l => ⟨l.startPc, l.length, l.slot, l.name, l.desc⟩

def Item.isWidenedCondition : Item → Bool
  | .code (.jump op _ true) => !(op == 0xa7 || op == 0xa8)
  | _ => false

/-- Whether the layout loop ends with a conditional jump widened. -/
def MethodNode.widensCondition {σ : Type} (sink : ConstantSink σ) (fuel : ℕ) (method : MethodNode)
    (s : σ) : Bool :=
  match encodeNodes sink method.nodes (internCatchTypes sink method.tryCatchBlocks s).2 with
  | .error _ => false
  | .ok (items, _) =>
    match layoutLoop method.labelCount fuel items (List.replicate (items.length + 1) 0) with
    | some (.ok (items, _)) => items.any Item.isWidenedCondition
    | _ => false

/-- An instruction with the offset it was read at, the offset it is laid out at, and whether it
is a widened jump. -/
structure Row where
  pc : ℕ
  insn : Insn LabelId
  pos : ℕ
  wide : Bool

section Rows

variable {R : Insn LabelId → Encoded → Prop} {items : List Item}

theorem sizeAt_pos {insn : Insn LabelId} {encoded : Encoded} (h : encoded.Encodes insn)
    (pos : ℕ) : 0 < encoded.sizeAt pos := by
  cases encoded with
  | fixed bytes => exact List.length_pos_iff.mpr h.2
  | jump op target wide =>
    cases wide with
    | false => exact Nat.succ_pos 2
    | true =>
      rw [Encoded.sizeAt]
      split <;> decide
  | tableSwitch low high d ls =>
    rw [Encoded.sizeAt]
    omega
  | lookupSwitch d ks ls =>
    rw [Encoded.sizeAt]
    omega

theorem wide_of_narrowCondition {op : UInt8} {target : LabelId} {encoded : Encoded}
    (h : encoded.Encodes (.jump op target)) (hw : (Item.code encoded).isWide = true)
    (hn : (Item.code encoded).isWidenedCondition = false) : op = 0xa7 ∨ op = 0xa8 := by
  cases encoded with
  | jump op' target' wide =>
    obtain ⟨heq, -⟩ := h
    obtain ⟨rfl, rfl⟩ := Insn.jump.inj heq
    obtain rfl : wide = true := hw
    simpa [Item.isWidenedCondition, or_iff_not_imp_left] using hn
  | fixed _ | tableSwitch _ _ _ _ | lookupSwitch _ _ _ => cases hw

/-- Labels and lines in front of a node list take no room. -/
theorem place_front {front nodes : List Node} (pos : ℕ)
    (hf : ∀ node ∈ front, ∀ insn, node ≠ .insn insn) (h : ItemsFor R (front ++ nodes) items) :
    ∃ items', ItemsFor R nodes items' ∧ endFrom items pos = endFrom items' pos ∧
      (∀ item ∈ items', item ∈ items) ∧
      place (front ++ nodes) items pos =
        front.map (fun node => ⟨node, pos, false⟩) ++ place nodes items' pos := by
  induction front generalizing items with
  | nil => exact ⟨items, h, rfl, fun _ hi => hi, rfl⟩
  | cons node front ih =>
    have hf' : ∀ node ∈ front, ∀ insn, node ≠ .insn insn :=
      fun n hn => hf n (List.mem_cons_of_mem _ hn)
    cases h with
    | label l h =>
      obtain ⟨items', hi, he, hm, hp⟩ := ih hf' h
      refine ⟨items', hi, he, fun i hi => List.mem_cons_of_mem _ (hm i hi), ?_⟩
      exact congrArg (List.cons _) hp
    | line n l h =>
      obtain ⟨items', hi, he, hm, hp⟩ := ih hf' h
      exact ⟨items', hi, he, hm, congrArg (List.cons _) hp⟩
    | insn hr h => exact absurd rfl (hf _ (List.mem_cons_self ..) _)

variable {table : List ℕ} {lines : List (UInt16 × UInt16)} {ending : List Node}

/-- The nodes of a row, placed. -/
def Row.placed (table : List ℕ) (lines : List (UInt16 × UInt16)) (row : Row) : List Placed :=
  (labelNodes table lines row.pc).map (fun node => ⟨node, row.pos, false⟩) ++
    [⟨.insn row.insn, row.pos, row.wide⟩]

theorem labelNodes_ne_insn (table : List ℕ) (lines : List (UInt16 × UInt16)) (pc : ℕ) :
    ∀ node ∈ labelNodes table lines pc, ∀ insn, node ≠ .insn insn := by
  intro node hm insn
  unfold labelNodes at hm
  split_ifs at hm
  · rcases List.mem_cons.mp hm with rfl | hm
    · simp
    · obtain ⟨line, -, rfl⟩ := List.mem_map.mp hm
      simp
  · cases hm

/-- The layout of a node list that was read: each instruction with its label and lines at one
offset, ascending, and the end label at the end. -/
theorem place_rows {insns : List (ℕ × Insn LabelId)} {pos : ℕ}
    (he : ∀ node ∈ ending, ∀ insn, node ≠ .insn insn)
    (h : ItemsFor (fun insn encoded => encoded.Encodes insn)
      ((insns.flatMap fun r => labelNodes table lines r.1 ++ [.insn r.2]) ++ ending) items)
    (hw : ∀ item ∈ items, item.isWidenedCondition = false) :
    ∃ rows : List Row, rows.map (fun row => (row.pc, row.insn)) = insns ∧
      (rows.map Row.pos ++ [endFrom items pos]).Pairwise (· < ·) ∧
      (∀ row ∈ rows, pos ≤ row.pos) ∧
      (∀ row ∈ rows, ∀ op target, row.insn = .jump op target → row.wide = true →
        op = 0xa7 ∨ op = 0xa8) ∧
      place ((insns.flatMap fun r => labelNodes table lines r.1 ++ [.insn r.2]) ++ ending) items
        pos = rows.flatMap (Row.placed table lines) ++
          ending.map fun node => ⟨node, endFrom items pos, false⟩ := by
  induction insns generalizing items pos with
  | nil =>
    have h : ItemsFor (fun insn encoded => encoded.Encodes insn) (ending ++ []) items := by
      simpa using h
    obtain ⟨items', hi, hend, -, hp⟩ := place_front pos he h
    cases hi
    refine ⟨[], rfl, by simp, by simp, by simp, ?_⟩
    rw [List.append_nil] at hp
    rw [hend]
    simpa [place, endFrom] using hp
  | cons r insns ih =>
    rw [List.flatMap_cons, List.append_assoc, List.append_assoc] at h ⊢
    obtain ⟨items', hi, hend, hmem, hp⟩ := place_front pos (labelNodes_ne_insn _ _ _) h
    cases hi with
    | insn henc hrest =>
      rename_i rest encoded
      have hsize := sizeAt_pos henc pos
      obtain ⟨rows, hrows, hsorted, hle, hwide, hplace⟩ := @ih rest (pos + encoded.sizeAt pos) hrest
        fun item hm => hw item (hmem item (List.mem_cons_of_mem _ hm))
      have hend' : endFrom items pos = endFrom rest (pos + encoded.sizeAt pos) := hend
      refine ⟨⟨r.1, r.2, pos, (Item.code encoded).isWide⟩ :: rows, ?_, ?_, ?_, ?_, ?_⟩
      · rw [List.map_cons, hrows]
      · rw [hend', List.map_cons, List.cons_append, List.pairwise_cons]
        refine ⟨fun o ho => ?_, hsorted⟩
        rcases List.mem_append.mp ho with ho | ho
        · obtain ⟨row, hrow, rfl⟩ := List.mem_map.mp ho
          have := hle row hrow
          change pos < row.pos
          omega
        · obtain rfl := List.mem_singleton.mp ho
          have := le_endFrom rest (pos + encoded.sizeAt pos)
          change pos < _
          omega
      · intro row hrow
        rcases List.mem_cons.mp hrow with rfl | hrow
        · exact le_refl pos
        · have := hle row hrow
          omega
      · intro row hrow op target hinsn hrw
        rcases List.mem_cons.mp hrow with rfl | hrow
        · have hnarrow := hw _ (hmem _ (List.mem_cons_self ..))
          have henc : encoded.Encodes (.jump op target) := hinsn ▸ henc
          exact wide_of_narrowCondition henc hrw hnarrow
        · exact hwide row hrow op target hinsn hrw
      · rw [hp, List.flatMap_cons, hend']
        change _ ++ _ :: place ((insns.flatMap fun r => labelNodes table lines r.1 ++ [.insn r.2]) ++
          ending) rest (pos + encoded.sizeAt pos) = _
        rw [hplace]
        simp [Row.placed]

end Rows

/-- A node list that was read, assembled with no conditional jump widened, and the rows of its
layout. -/
structure Reassembled (body : CodeAttribute) (pool pool' : ConstantPoolView) (out : AssembledCode)
    (starts marks : List ℕ) (chunks : List (List Node)) (blocks : List TryCatchBlock)
    (node : MethodNode) (rows : List Row) : Prop where
  reading : Reading node.access node.name node.desc body pool node starts marks chunks blocks
  starts_eq : rows.map Row.pc = starts
  decoded : ∀ row ∈ rows, ∃ raw : Insn ℤ, decode body.code row.pc ⟨pool, row.pc⟩ id = .ok raw ∧
    row.insn = raw.map fun offset => labelAt (labelTable marks) offset.toNat
  sorted : (rows.map Row.pos ++ [out.code.length]).Pairwise (· < ·)
  narrow : ∀ row ∈ rows, ∀ op target, row.insn = .jump op target → row.wide = true →
    op = 0xa7 ∨ op = 0xa8
  laidOut : ∃ offsets, LaidOut node out offsets (rows.flatMap (Row.placed (labelTable marks)
    body.lines) ++ (endNodes body (labelTable marks)).map fun n => ⟨n, out.code.length, false⟩)
  readsAs : ReadsAs node pool' out (rows.flatMap (Row.placed (labelTable marks) body.lines) ++
    (endNodes body (labelTable marks)).map fun n => ⟨n, out.code.length, false⟩)

/-- Where an offset of the code that was read moves to. -/
def movedTo (rows : List Row) (stop stop' pc : ℕ) : ℕ :=
  ((rows.find? fun row => row.pc == pc).map Row.pos).getD (if pc = stop then stop' else 0)

/-- The line numbers among a row's nodes. -/
def Row.lineEntries (table : List ℕ) (lines : List (UInt16 × UInt16)) (row : Row) :
    List (UInt16 × LabelId) :=
  (lines.filter (·.1.toNat = row.pc)).map fun line => (line.2, labelAt table row.pc)

namespace Reassembled

variable {body : CodeAttribute} {pool pool' : ConstantPoolView} {out : AssembledCode}
  {starts marks : List ℕ} {chunks : List (List Node)} {blocks : List TryCatchBlock}
  {node : MethodNode} {rows : List Row}

theorem row_lt (h : Reassembled body pool pool' out starts marks chunks blocks node rows)
    {row : Row} (hr : row ∈ rows) : row.pc < body.code.length ∧ row.pos < out.code.length := by
  constructor
  · refine instructionStarts_lt h.reading.starts_eq row.pc ?_
    rw [← h.starts_eq]
    exact List.mem_map_of_mem hr
  · have hsplit := (List.pairwise_append.mp h.sorted).2.2
    exact hsplit row.pos (List.mem_map_of_mem hr) out.code.length (by simp)

/-- The rows keep their order. -/
theorem row_order (h : Reassembled body pool pool' out starts marks chunks blocks node rows)
    {a b : Row} (ha : a ∈ rows) (hb : b ∈ rows) :
    (a.pc < b.pc → a.pos < b.pos) ∧ (a.pc = b.pc → a = b) := by
  have hpc : rows.Pairwise fun a b => a.pc < b.pc := by
    have := (instructionStarts_sorted h.reading.starts_eq).1
    rw [← h.starts_eq] at this
    exact List.pairwise_map.mp this
  have hpos : rows.Pairwise fun a b => a.pos < b.pos :=
    List.pairwise_map.mp (List.pairwise_append.mp h.sorted).1
  have hboth := hpc.and hpos
  have hall : a = b ∨ (a.pc < b.pc ∧ a.pos < b.pos) ∨ (b.pc < a.pc ∧ b.pos < a.pos) :=
    List.Pairwise.forall_of_forall_of_flip
      (R := fun a b : Row => a = b ∨ (a.pc < b.pc ∧ a.pos < b.pos) ∨ (b.pc < a.pc ∧ b.pos < a.pos))
      (fun _ _ => .inl rfl) (hboth.imp fun h => .inr (.inl h)) (hboth.imp fun h => .inr (.inr h))
      ha hb
  rcases hall with rfl | ⟨h1, h2⟩ | ⟨h1, h2⟩
  · exact ⟨fun hlt => absurd hlt (lt_irrefl _), fun _ => rfl⟩
  · exact ⟨fun _ => h2, fun heq => absurd heq (Nat.ne_of_lt h1)⟩
  · exact ⟨fun hlt => absurd hlt (lt_asymm h1), fun heq => absurd heq.symm (Nat.ne_of_lt h1)⟩

theorem movedTo_row (h : Reassembled body pool pool' out starts marks chunks blocks node rows)
    {row : Row} (hr : row ∈ rows) :
    movedTo rows body.code.length out.code.length row.pc = row.pos := by
  have hfind : ∃ row', rows.find? (fun r => r.pc == row.pc) = some row' :=
    Option.isSome_iff_exists.mp (List.find?_isSome.mpr ⟨row, hr, by simp⟩)
  obtain ⟨row', hfind⟩ := hfind
  have heq : row'.pc = row.pc := by simpa using List.find?_some hfind
  obtain rfl := (h.row_order (List.mem_of_find?_eq_some hfind) hr).2 heq
  rw [movedTo, hfind]
  rfl

theorem movedTo_stop (h : Reassembled body pool pool' out starts marks chunks blocks node rows) :
    movedTo rows body.code.length out.code.length body.code.length = out.code.length := by
  have hfind : rows.find? (fun r => r.pc == body.code.length) = none := by
    refine List.find?_eq_none.mpr fun row hr => ?_
    have := (h.row_lt hr).1
    simpa using Nat.ne_of_lt this
  rw [movedTo, hfind, if_pos rfl]
  rfl

/-- A boundary is a row's offset or the end. -/
theorem boundary (h : Reassembled body pool pool' out starts marks chunks blocks node rows) {a : ℕ}
    (ha : a ∈ starts ++ [body.code.length]) :
    (∃ row ∈ rows, a = row.pc) ∨ a = body.code.length := by
  rcases List.mem_append.mp ha with ha | ha
  · rw [← h.starts_eq] at ha
    obtain ⟨row, hr, rfl⟩ := List.mem_map.mp ha
    exact .inl ⟨row, hr, rfl⟩
  · exact .inr (List.mem_singleton.mp ha)

theorem movedTo_mono (h : Reassembled body pool pool' out starts marks chunks blocks node rows)
    {a b : ℕ} (ha : a ∈ starts ++ [body.code.length]) (hb : b ∈ starts ++ [body.code.length])
    (hlt : a < b) : movedTo rows body.code.length out.code.length a <
      movedTo rows body.code.length out.code.length b := by
  rcases h.boundary ha with ⟨x, hx, rfl⟩ | rfl <;> rcases h.boundary hb with ⟨y, hy, rfl⟩ | rfl
  · rw [h.movedTo_row hx, h.movedTo_row hy]
    exact (h.row_order hx hy).1 hlt
  · rw [h.movedTo_row hx, h.movedTo_stop]
    exact (h.row_lt hx).2
  · exact absurd hlt (lt_asymm (h.row_lt hy).1)
  · exact absurd hlt (lt_irrefl _)

/-- The label of an offset is laid out where the offset moves to. -/
theorem offsetOf_labelAt
    (h : Reassembled body pool pool' out starts marks chunks blocks node rows) {p : ℕ}
    (hp : p ∈ marks) : out.offsetOf (labelAt (labelTable marks) p) =
      some (movedTo rows body.code.length out.code.length p) := by
  obtain ⟨offsets, hl⟩ := h.laidOut
  have hp' := mem_labelTable.mpr hp
  refine (hl.labels _ _).mpr ?_
  rcases h.boundary (markedOffsets_mem h.reading.marks_eq p hp) with ⟨row, hr, rfl⟩ | rfl
  · refine ⟨⟨.label (labelAt (labelTable marks) row.pc), row.pos, false⟩, ?_, rfl,
      (h.movedTo_row hr).symm⟩
    refine List.mem_append_left _ (List.mem_flatMap.mpr ⟨row, hr, ?_⟩)
    simp [Row.placed, labelNodes, hp']
  · refine ⟨⟨.label (labelAt (labelTable marks) body.code.length), out.code.length, false⟩, ?_,
      rfl, h.movedTo_stop.symm⟩
    refine List.mem_append_right _ ?_
    simp [endNodes, hp']

theorem target_labelAt
    (h : Reassembled body pool pool' out starts marks chunks blocks node rows) {p : ℕ}
    (hp : p ∈ marks) : out.target (labelAt (labelTable marks) p) =
      movedTo rows body.code.length out.code.length p := by
  rw [AssembledCode.target, h.offsetOf_labelAt hp]
  rfl

theorem decoded_nil {offset : LabelId → ℤ} {front : List Node} {pos : ℕ}
    (hf : ∀ node ∈ front, ∀ insn, node ≠ .insn insn) :
    (front.map fun node => (⟨node, pos, false⟩ : Placed)).flatMap (Placed.decoded offset) = [] := by
  refine List.flatMap_eq_nil_iff.mpr fun p hp => ?_
  obtain ⟨node, hm, rfl⟩ := List.mem_map.mp hp
  cases node with
  | insn insn => exact absurd rfl (hf _ hm insn)
  | label l => rfl
  | line n l => rfl

theorem decoded_row {row : Row} (offset : LabelId → ℤ)
    (hn : ∀ op target, row.insn = .jump op target → row.wide = true → op = 0xa7 ∨ op = 0xa8) :
    Placed.decoded offset ⟨.insn row.insn, row.pos, row.wide⟩ =
      [(row.pos, row.insn.map offset)] := by
  obtain ⟨pc, insn, pos, wide⟩ := row
  cases insn with
  | jump op target =>
    cases wide with
    | false => rfl
    | true =>
      simp only [Placed.decoded, Encoded.decoded, inverseCondition_eq_none (hn op target rfl rfl)]
  | _ => rfl

theorem endNodes_ne_insn (body : CodeAttribute) (table : List ℕ) :
    ∀ node ∈ endNodes body table, ∀ insn, node ≠ .insn insn := by
  intro node hm insn
  unfold endNodes at hm
  split_ifs at hm
  · obtain rfl := List.mem_singleton.mp hm
    simp
  · cases hm

/-- What the assembled code disassembles to. -/
theorem disassembly (h : Reassembled body pool pool' out starts marks chunks blocks node rows) :
    disassemble out.code pool' =
      .ok (rows.map fun row => (row.pos, row.insn.map out.target)) := by
  rw [h.readsAs.disassembles, List.flatMap_append, decoded_nil (endNodes_ne_insn _ _),
    List.append_nil, List.flatMap_assoc]
  have hrow : ∀ row ∈ rows, ((row.placed (labelTable marks) body.lines).flatMap
      (Placed.decoded out.target)) = [(row.pos, row.insn.map out.target)] := by
    intro row hr
    rw [Row.placed, List.flatMap_append, decoded_nil (labelNodes_ne_insn _ _ _), List.nil_append,
      List.flatMap_singleton, decoded_row _ (h.narrow row hr)]
  rw [List.flatMap_congr hrow, List.map_eq_flatMap]

theorem starts_moved (h : Reassembled body pool pool' out starts marks chunks blocks node rows) :
    instructionStarts out.code out.code.length 0 =
        .ok (starts.map (movedTo rows body.code.length out.code.length)) ∧
      ∀ row ∈ rows, decode out.code row.pos ⟨pool', row.pos⟩ id = .ok (row.insn.map out.target) := by
  obtain ⟨starts', hs, hdec⟩ := bind_ok h.disassembly
  have hone : ∀ pc (found : ℕ × Insn ℤ), (do
      let insn ← decode out.code pc ⟨pool', pc⟩ id
      .ok (pc, insn) : Except MalformedCode (ℕ × Insn ℤ)) = .ok found →
      pc = found.1 ∧ decode out.code pc ⟨pool', pc⟩ id = .ok found.2 := by
    intro pc found hf
    obtain ⟨insn, hi, hf⟩ := bind_ok hf
    obtain rfl := Except.ok.inj hf
    exact ⟨rfl, hi⟩
  constructor
  · have hstarts : starts' = rows.map Row.pos := by
      have hf := (mapM_ok.mp hdec).imp fun pc found hf => (hone pc found hf).1
      have hf := List.forall₂_map_right_iff.mp hf
      have hf : List.Forall₂ (· = ·) starts' (rows.map Row.pos) :=
        List.forall₂_map_right_iff.mpr hf
      rwa [List.forall₂_eq_eq_eq] at hf
    rw [hs, hstarts, ← h.starts_eq, List.map_map]
    congr 1
    exact List.map_congr_left fun row hr => (h.movedTo_row hr).symm
  · intro row hr
    obtain ⟨pc, -, hpc⟩ := exists_of_mem_mapM hdec (List.mem_map_of_mem hr)
    obtain ⟨rfl, hd⟩ := hone pc _ hpc
    exact hd

/-- Each instruction decodes at its new offset, its targets moved. -/
theorem decoded_moved (h : Reassembled body pool pool' out starts marks chunks blocks node rows)
    {pc : ℕ} (hpc : pc ∈ starts) {insn : Insn ℤ}
    (hd : decode body.code pc ⟨pool, pc⟩ id = .ok insn) :
    decode out.code (movedTo rows body.code.length out.code.length pc)
        ⟨pool', movedTo rows body.code.length out.code.length pc⟩ id =
      .ok (insn.map fun t => (movedTo rows body.code.length out.code.length t.toNat : ℤ)) := by
  have hpc' := hpc
  rw [← h.starts_eq] at hpc'
  obtain ⟨row, hr, rfl⟩ := List.mem_map.mp hpc'
  obtain ⟨raw, hraw, hinsn⟩ := h.decoded row hr
  obtain rfl := Except.ok.inj (hraw.symm.trans hd)
  rw [h.movedTo_row hr, h.starts_moved.2 row hr, hinsn, Insn.map_map]
  congr 1
  refine Insn.map_congr fun t ht => ?_
  rw [decode_jumpTargets hraw] at ht
  exact h.target_labelAt (target_mem h.reading.marks_eq hpc ht)

theorem catchTypeOf_catches {block : TryCatchBlock} {handler : ExcEntry}
    (h : Catches pool block handler.catchType) :
    catchTypeOf pool handler = .ok block.catchType := by
  unfold Catches at h
  unfold catchTypeOf
  split at h
  next hc => rw [if_pos h, hc]
  next name hc =>
    have hne : handler.catchType ≠ 0 := by
      intro hz
      rw [hz] at h
      exact SourcePool.cls_zero ⟨pool, 0⟩ name (h 0)
    rw [if_neg hne, h 0, hc]
    rfl

theorem handlers_moved
    (h : Reassembled body pool pool' out starts marks chunks blocks node rows) :
    List.Forall₂ (fun (x x' : ExcEntry) =>
        x'.startPc.toNat = movedTo rows body.code.length out.code.length x.startPc.toNat ∧
        x'.endPc.toNat = movedTo rows body.code.length out.code.length x.endPc.toNat ∧
        x'.handlerPc.toNat = movedTo rows body.code.length out.code.length x.handlerPc.toNat ∧
        ∀ name, catchTypeOf pool x = .ok name → catchTypeOf pool' x' = .ok name)
      body.handlers out.asBody.handlers := by
  obtain ⟨offsets, hl⟩ := h.laidOut
  have hblocks := mapM_ok.mp h.reading.blocks_eq
  have hex := hl.exceptions
  have hcatch := h.readsAs.catches
  have hnode : node.tryCatchBlocks = blocks := by rw [h.reading.node_eq]
  rw [hnode] at hex hcatch
  have hrows := List.Forall₂.mp (fun _ _ h1 h2 => And.intro h1 h2) hex hcatch
  refine List.forall₂_map_right_iff.mpr (forall₂_comp hblocks hrows ?_)
  rintro handler block row hm hblock ⟨⟨hs, he, hh⟩, hc⟩
  obtain ⟨catchType, hcatchType, hblock⟩ := bind_ok hblock
  obtain rfl := Except.ok.inj hblock
  obtain ⟨m1, m2, m3⟩ := handler_mem h.reading.marks_eq hm
  rw [h.offsetOf_labelAt m1] at hs
  rw [h.offsetOf_labelAt m2] at he
  rw [h.offsetOf_labelAt m3] at hh
  refine ⟨(Option.some.inj hs).symm, (Option.some.inj he).symm, (Option.some.inj hh).symm, ?_⟩
  intro name hname
  obtain rfl := Except.ok.inj (hcatchType.symm.trans hname)
  exact @catchTypeOf_catches pool' _ ⟨row.1, row.2.1, row.2.2.1, row.2.2.2⟩ hc

/-- The line numbers of the nodes that were read, instruction by instruction. -/
theorem linesOf_rows (h : Reassembled body pool pool' out starts marks chunks blocks node rows) :
    linesOf node.nodes = rows.flatMap (Row.lineEntries (labelTable marks) body.lines) := by
  obtain ⟨offsets, hl⟩ := h.laidOut
  have hlabel : ∀ pc, linesOf (labelNodes (labelTable marks) body.lines pc) =
      (body.lines.filter (·.1.toNat = pc)).map
        fun line => (line.2, labelAt (labelTable marks) pc) := by
    intro pc
    unfold labelNodes
    by_cases hpc : pc ∈ labelTable marks
    · rw [if_pos hpc]
      simp [linesOf, List.filterMap_map]
    · have hnone : body.lines.filter (·.1.toNat = pc) = [] := by
        refine List.filter_eq_nil_iff.mpr fun line hm heq => hpc ?_
        obtain rfl := of_decide_eq_true heq
        exact mem_labelTable.mpr (line_mem h.reading.marks_eq hm).1
      rw [if_neg hpc, hnone]
      rfl
  have hend : linesOf (endNodes body (labelTable marks)) = [] := by
    unfold endNodes
    split_ifs <;> rfl
  have happend : ∀ xs ys, linesOf (xs ++ ys) = linesOf xs ++ linesOf ys :=
    fun xs ys => List.filterMap_append
  have hplaced : ∀ (nodes : List Node) pos,
      (nodes.map fun n => (⟨n, pos, false⟩ : Placed)).map Placed.node = nodes := by
    intro nodes pos
    simp [Function.comp_def]
  have hrow : ∀ row ∈ rows, linesOf ((row.placed (labelTable marks) body.lines).map Placed.node) =
      row.lineEntries (labelTable marks) body.lines := by
    intro row _
    rw [Row.placed, List.map_append, hplaced, happend, hlabel]
    exact List.append_nil _
  rw [← hl.nodes, List.map_append, hplaced, happend, hend, List.append_nil, List.map_flatMap,
    linesOf, List.filterMap_flatMap]
  exact List.flatMap_congr hrow

/-- The reported line rows are those of the nodes, at the offsets of their labels. -/
theorem lineNumbers_filter
    (h : Reassembled body pool pool' out starts marks chunks blocks node rows) (o : ℕ) :
    (out.lineNumbers.filter (·.1.toNat = o)).map Prod.snd =
      ((linesOf node.nodes).filter (fun line => out.offsetOf line.2 = some o)).map Prod.fst := by
  obtain ⟨offsets, hl⟩ := h.laidOut
  refine (forall₂_filter_map hl.lines ?_).symm
  rintro line row ⟨hoff, hline⟩
  exact ⟨by simp [hoff], hline.symm⟩

theorem lineEntries_offset
    (h : Reassembled body pool pool' out starts marks chunks blocks node rows) {row : Row}
    (hr : row ∈ rows) {entry : UInt16 × LabelId}
    (he : entry ∈ row.lineEntries (labelTable marks) body.lines) :
    out.offsetOf entry.2 = some row.pos := by
  obtain ⟨line, hline, rfl⟩ := List.mem_map.mp he
  obtain ⟨hm, heq⟩ := List.mem_filter.mp hline
  have hmark := (line_mem h.reading.marks_eq hm).1
  rw [of_decide_eq_true heq] at hmark
  rw [h.offsetOf_labelAt hmark, h.movedTo_row hr]

theorem lines_moved (h : Reassembled body pool pool' out starts marks chunks blocks node rows)
    {pc : ℕ} (hpc : pc ∈ starts) :
    (out.lineNumbers.filter
        (·.1.toNat = movedTo rows body.code.length out.code.length pc)).map Prod.snd =
      (body.lines.filter (·.1.toNat = pc)).map Prod.snd := by
  rw [← h.starts_eq] at hpc
  obtain ⟨row, hr, rfl⟩ := List.mem_map.mp hpc
  obtain ⟨front, back, hsplit⟩ := List.append_of_mem hr
  have hsorted : rows.Pairwise fun a b => a.pos < b.pos :=
    List.pairwise_map.mp (List.pairwise_append.mp h.sorted).1
  have hnone : ∀ r ∈ rows, r.pos ≠ row.pos →
      (r.lineEntries (labelTable marks) body.lines).filter
        (fun line => out.offsetOf line.2 = some row.pos) = [] := by
    intro r hr' hne
    refine List.filter_eq_nil_iff.mpr fun entry he heq => hne ?_
    rw [h.lineEntries_offset hr' he] at heq
    exact Option.some.inj (of_decide_eq_true heq)
  have hall : (row.lineEntries (labelTable marks) body.lines).filter
      (fun line => out.offsetOf line.2 = some row.pos) =
        row.lineEntries (labelTable marks) body.lines :=
    List.filter_eq_self.mpr fun entry he => by simpa using h.lineEntries_offset hr he
  rw [h.lineNumbers_filter, h.linesOf_rows, h.movedTo_row hr, List.filter_flatMap]
  have hflat : (rows.flatMap fun r => (r.lineEntries (labelTable marks) body.lines).filter
      (fun line => out.offsetOf line.2 = some row.pos)) =
        row.lineEntries (labelTable marks) body.lines := by
    rw [hsplit] at hsorted hnone ⊢
    obtain ⟨-, hback, hfront⟩ := List.pairwise_append.mp hsorted
    rw [List.flatMap_append, List.flatMap_cons, hall, List.flatMap_eq_nil_iff.mpr,
      List.flatMap_eq_nil_iff.mpr, List.nil_append, List.append_nil]
    · intro r hr'
      have := (List.pairwise_cons.mp hback).1 r hr'
      exact hnone r (by simp [hr']) (by omega)
    · intro r hr'
      have := hfront r hr' row (List.mem_cons_self ..)
      exact hnone r (by simp [hr']) (by omega)
  rw [hflat, Row.lineEntries, List.map_map]
  rfl

theorem line_starts_moved
    (h : Reassembled body pool pool' out starts marks chunks blocks node rows)
    {row : UInt16 × UInt16} (hr : row ∈ out.lineNumbers) :
    ∃ pc ∈ starts, row.1.toNat = movedTo rows body.code.length out.code.length pc := by
  have hmem : row.2 ∈ (out.lineNumbers.filter (·.1.toNat = row.1.toNat)).map Prod.snd :=
    List.mem_map_of_mem (List.mem_filter.mpr ⟨hr, by simp⟩)
  rw [h.lineNumbers_filter, h.linesOf_rows] at hmem
  obtain ⟨entry, hentry, -⟩ := List.mem_map.mp hmem
  obtain ⟨hentry, hoff⟩ := List.mem_filter.mp hentry
  obtain ⟨r, hr', hentry⟩ := List.mem_flatMap.mp hentry
  have hoff := of_decide_eq_true hoff
  rw [h.lineEntries_offset hr' hentry] at hoff
  refine ⟨r.pc, ?_, by rw [h.movedTo_row hr', Option.some.inj hoff]⟩
  rw [← h.starts_eq]
  exact List.mem_map_of_mem hr'

theorem locals_moved (h : Reassembled body pool pool' out starts marks chunks blocks node rows) :
    List.Forall₂ (fun (l l' : MethodLocal) =>
        l'.startPc.toNat = movedTo rows body.code.length out.code.length l.startPc.toNat ∧
        l'.startPc.toNat + l'.length.toNat =
          movedTo rows body.code.length out.code.length (l.startPc.toNat + l.length.toNat) ∧
        l'.slot = l.slot ∧ l'.name = l.name ∧ l'.descriptor = l.descriptor)
      body.locals out.asBody.locals := by
  obtain ⟨offsets, hl⟩ := h.laidOut
  have hlocals := hl.locals
  rw [h.reading.node_eq] at hlocals
  have hlocals := (List.forall₂_and_left _ _).mpr
    ⟨fun l (hm : l ∈ body.locals) => hm, List.forall₂_map_left_iff.mp hlocals⟩
  refine List.forall₂_map_right_iff.mpr (hlocals.imp ?_)
  rintro l row ⟨hm, hs, he, hslot, hname, hdesc⟩
  obtain ⟨m1, m2⟩ := local_mem h.reading.marks_eq hm
  change out.offsetOf (labelAt (labelTable marks) _) = _ at hs he
  rw [h.offsetOf_labelAt m1] at hs
  rw [h.offsetOf_labelAt m2] at he
  exact ⟨(Option.some.inj hs).symm, (Option.some.inj he).symm, hslot, hname, hdesc⟩

/-- The assembled code is the code that was read, moved. -/
theorem moved (h : Reassembled body pool pool' out starts marks chunks blocks node rows) :
    Moved (movedTo rows body.code.length out.code.length) body out.asBody pool pool' starts where
  starts_eq := h.starts_moved.1
  stop_eq := h.movedTo_stop
  mono _ ha _ hb hlt := h.movedTo_mono ha hb hlt
  decoded _ hpc _ hd := h.decoded_moved hpc hd
  handlers := h.handlers_moved
  lines _ hpc := h.lines_moved hpc
  line_starts _ hr := h.line_starts_moved hr
  locals := h.locals_moved
  maxStack := by
    obtain ⟨offsets, hl⟩ := h.laidOut
    change out.maxStack = body.maxStack
    rw [hl.maxStack, h.reading.node_eq]
  maxLocals := by
    obtain ⟨offsets, hl⟩ := h.laidOut
    change out.maxLocals = body.maxLocals
    rw [hl.maxLocals, h.reading.node_eq]

end Reassembled

section RoundTrip

variable {body : CodeAttribute} {pool pool' : ConstantPoolView} {access : UInt16}
  {name desc : String} {node : MethodNode}

/-- The nodes that were read, instruction by instruction. -/
theorem chunks_insns {table : List ℕ} {starts : List ℕ} {chunks : List (List Node)}
    (h : starts.mapM (nodesAt body pool table) = .ok chunks) :
    ∃ insns : List (ℕ × Insn LabelId), insns.map Prod.fst = starts ∧
      chunks = insns.map (fun r => labelNodes table body.lines r.1 ++ [.insn r.2]) ∧
      ∀ r ∈ insns, ∃ raw : Insn ℤ, decode body.code r.1 ⟨pool, r.1⟩ id = .ok raw ∧
        r.2 = raw.map fun offset => labelAt table offset.toNat := by
  have hf := mapM_ok.mp h
  clear h
  induction hf with
  | nil => exact ⟨[], rfl, rfl, by simp⟩
  | @cons pc chunk _ _ hchunk _ ih =>
    obtain ⟨insns, hstarts, hchunks, hraw⟩ := ih
    obtain ⟨raw, hd, hnodes⟩ := nodesAt_ok hchunk
    refine ⟨(pc, raw.map fun offset => labelAt table offset.toNat) :: insns, ?_, ?_, ?_⟩
    · rw [List.map_cons, hstarts]
    · rw [List.map_cons, hchunks, hnodes]
    · intro r hr
      rcases List.mem_cons.mp hr with rfl | hr
      · exact ⟨raw, hd, rfl⟩
      · exact hraw r hr

theorem widensCondition_eq_false {σ : Type} {sink : ConstantSink σ} {fuel : ℕ} {s s' : σ}
    {items₀ items : List Item} {offsets : List ℕ}
    (he : encodeNodes sink node.nodes (internCatchTypes sink node.tryCatchBlocks s).2 =
      .ok (items₀, s'))
    (hl : layoutLoop node.labelCount fuel items₀ (List.replicate (items₀.length + 1) 0) =
      some (.ok (items, offsets)))
    (h : node.widensCondition sink fuel s = false) :
    ∀ item ∈ items, item.isWidenedCondition = false := by
  simp only [MethodNode.widensCondition, he, hl, List.any_eq_false] at h
  exact fun item hm => by simpa using h item hm

/-- A node list that was read, assembled with no conditional jump widened against a pool that
resolves its operands, reads back as itself: the same labels, not only the same up to renaming. -/
theorem readCode_assemble {σ : Type} {sink : ConstantSink σ} {fuel : ℕ} {s s' : σ}
    {out : AssembledCode} (hread : MethodNode.readCode access name desc body pool = .ok node)
    (hasm : node.assemble sink fuel s = some (.ok (out, s')))
    (hnarrow : node.widensCondition sink fuel s = false)
    (hres : sink.Resolves pool' node.requests s) :
    MethodNode.readCode access name desc out.asBody pool' = .ok node := by
  obtain ⟨starts, marks, chunks, blocks, hr⟩ := readCode_ok.mp hread
  obtain ⟨insns, hstarts, hchunks, hraw⟩ := chunks_insns hr.chunks_eq
  obtain ⟨items₀, items, offsets, he, hc, hl, hf⟩ := assemble_ok hasm
  have hnodes : node.nodes = (insns.flatMap fun r => labelNodes (labelTable marks) body.lines r.1 ++
      [.insn r.2]) ++ endNodes body (labelTable marks) := by
    rw [hr.node_eq, hchunks, List.flatMap_def]
  have hwf : ∀ insn, Node.insn insn ∈ node.nodes → insn.WellFormed := by
    intro insn hm
    rw [hnodes] at hm
    rcases List.mem_append.mp hm with hm | hm
    · obtain ⟨r, hrow, hm⟩ := List.mem_flatMap.mp hm
      rcases List.mem_append.mp hm with hm | hm
      · exact absurd rfl (labelNodes_ne_insn _ _ _ _ hm insn)
      · obtain rfl := Node.insn.inj (List.mem_singleton.mp hm)
        obtain ⟨raw, hd, hinsn⟩ := hraw r hrow
        rw [hinsn]
        exact (decode_wellFormed hd).map _
    · exact absurd rfl (Reassembled.endNodes_ne_insn _ _ _ hm insn)
  rw [MethodNode.requests, ConstantSink.resolves_append, ← internCatchTypes_state] at hres
  have ha := assembling_of_layoutLoop (fun _ _ _ _ _ h => h) (encodeNodes_encodes he) hc hl
  have hback := assembling_of_layoutLoop (fun _ _ _ _ _ h => h)
    (encodeNodes_readsBack he hwf hres.2) hc hl
  have hlaid := ha.laidOut (internCatchTypes_length _ _) hf
  have hreads := hback.readsAs (internCatchTypes_catches hres.1) hf
  have hitems := ha.itemsFor
  rw [hnodes] at hitems
  obtain ⟨rows, hrows, hsorted, -, hwide, hplace⟩ := @place_rows _ _ _ _ insns 0
    (Reassembled.endNodes_ne_insn body (labelTable marks)) hitems
    (widensCondition_eq_false he hl hnarrow)
  rw [← hnodes] at hplace
  rw [hplace, ← ha.code_length hf] at hlaid hreads
  rw [← ha.code_length hf] at hsorted
  have hmoved : Reassembled body pool pool' out starts marks chunks blocks node rows := by
    refine ⟨?_, ?_, ?_, hsorted, hwide, ⟨offsets, hlaid⟩, hreads⟩
    · rw [hr.node_eq]
      rwa [hr.node_eq] at hr
    · rw [← hstarts, ← hrows, List.map_map]
      rfl
    · intro row hrow
      refine hraw (row.pc, row.insn) ?_
      rw [← hrows]
      exact List.mem_map_of_mem hrow
  exact readCode_moved hr hmoved.moved

end RoundTrip

def sampleCode : CodeAttribute where
  maxStack := 1
  maxLocals := 1
  code := [0x03, 0x99, 0xff, 0xff, 0xbb, 0x00, 0x02, 0x57, 0xb1]
  handlers := [⟨0, 9, 0, 0⟩]
  lines := [(0, 7)]
  locals := [⟨0, 9, 0, "x", "I"⟩]

theorem readCode_assemble_sample :
    MethodNode.readCode 8 "f" "()V" sampleCode samplePool = .ok sampleBody ∧
      ∃ out, sampleBody.assemble sampleSink sampleBody.rounds () = some (.ok (out, ())) ∧
        MethodNode.readCode 8 "f" "()V" out.asBody samplePool = .ok sampleBody := by
  have hread : MethodNode.readCode 8 "f" "()V" sampleCode samplePool = .ok sampleBody := rfl
  obtain ⟨out, hout⟩ : ∃ out, sampleBody.assemble sampleSink sampleBody.rounds () =
    some (.ok (out, ())) := ⟨_, rfl⟩
  refine ⟨hread, out, hout, readCode_assemble hread hout rfl ?_⟩
  intro answer ha
  obtain rfl := List.mem_singleton.mp ha
  exact fun pos => rfl

end Krusty.Jvm
