import Krusty.Jvm.MethodNode.Items

/-! The assembler's result: the layout loop ends for every body, the code walked from the start
is the body's instructions at the offsets the loop computed, and the tables carry the offsets of
their labels. -/
namespace Krusty.Jvm
open Bytes Results

/-- The code's instructions with their offsets, walked from the start. -/
def disassemble (code : List UInt8) (pool : ConstantPoolView) :
    Except MalformedCode (List (ℕ × Insn ℤ)) := do
  let starts ← instructionStarts code code.length 0
  starts.mapM fun pc => do
    let insn ← decode code pc ⟨pool, pc⟩ id
    .ok (pc, insn)

variable {pool : ConstantPoolView}

theorem instructionStarts_of_walks {code : List UInt8} {pos fuel : ℕ}
    {insns : List (ℕ × Insn ℤ)} (h : Walks code pool pos insns code.length)
    (hf : code.length ≤ pos + fuel) : instructionStarts code fuel pos = .ok (insns.map Prod.fst) := by
  induction fuel generalizing pos insns with
  | zero =>
    cases h with
    | nil => rfl
    | cons hd hw =>
      have hlen := instructionLen_pos hd.length
      omega
  | succ fuel ih =>
    cases h with
    | nil => simp [instructionStarts]
    | cons hd hw =>
      obtain ⟨hpos, hle⟩ := instructionLen_pos hd.length
      have hrest := ih hw (by omega)
      have hmarker : ¬ (u1 code pos == 0xfe) = true := by simpa using hd.notMarker
      rw [instructionStarts, if_pos (by omega), if_neg hmarker, hd.length]
      simp only [Option.filter_some, hle, decide_true, if_true, hrest]
      rfl

theorem disassemble_of_walks {code : List UInt8}
    {insns : List (ℕ × Insn ℤ)} (h : Walks code pool 0 insns code.length) :
    disassemble code pool = .ok insns := by
  rw [disassemble, instructionStarts_of_walks h (by omega)]
  have hdec : ∀ {pos stop : ℕ} {insns : List (ℕ × Insn ℤ)}, Walks code pool pos insns stop →
      List.Forall₂ (fun pc out => (do
        let insn ← decode code pc ⟨pool, pc⟩ id
        .ok (pc, insn) : Except MalformedCode (ℕ × Insn ℤ)) = .ok out)
        (insns.map Prod.fst) insns := by
    intro pos stop insns hw
    induction hw with
    | nil => exact .nil
    | cons hd _ ih =>
      refine .cons ?_ ih
      rw [hd.decoded]
      rfl
  exact mapM_ok.mpr (hdec h)

namespace AssembledCode

/-- The offset the result reports for a label. -/
def offsetOf (out : AssembledCode) (label : LabelId) : Option ℕ :=
  out.labelOffsets[label.index]?.join.map UInt16.toNat

def target (out : AssembledCode) (label : LabelId) : ℤ := ((out.offsetOf label).getD 0 : ℕ)

end AssembledCode

/-- The line numbers among the nodes, with the labels they start at. -/
def linesOf (nodes : List Node) : List (UInt16 × LabelId) :=
  nodes.filterMap fun
    | .line line start => some (line, start)
    | _ => none

/-- The offsets the layout loop ends with. -/
def MethodNode.layoutOffsets {σ : Type} (sink : ConstantSink σ) (fuel : ℕ) (method : MethodNode)
    (s : σ) : Option (List ℕ) :=
  match encodeNodes sink method.nodes (internCatchTypes sink method.tryCatchBlocks s).2 with
  | .error _ => none
  | .ok (items, _) =>
    match layoutLoop method.labelCount fuel items (List.replicate (items.length + 1) 0) with
    | some (.ok (_, offsets)) => some offsets
    | _ => none

/-- Enough rounds for the layout loop: two a node, and two. -/
def MethodNode.rounds (method : MethodNode) : ℕ := 2 * method.nodes.length + 2

/-- The offsets of a layout and of the tables, whatever the pool holds. -/
structure LaidOut (method : MethodNode) (out : AssembledCode) (offsets : List ℕ)
    (layout : List Placed) : Prop where
  nodes : layout.map Placed.node = method.nodes
  offsets : (layout.filter Placed.isItem).map Placed.pos ++ [out.code.length] = offsets
  length_le : out.code.length ≤ 65535
  labels : ∀ l o, out.offsetOf l = some o ↔ ∃ p ∈ layout, p.node = .label l ∧ p.pos = o
  targets : ∀ insn ∈ method.instructions, ∀ l ∈ insn.jumpTargets, (out.offsetOf l).isSome
  exceptions : List.Forall₂ (fun (block : TryCatchBlock) (row : UInt16 × UInt16 × UInt16 × UInt16) =>
      out.offsetOf block.start = some row.1.toNat ∧ out.offsetOf block.stop = some row.2.1.toNat ∧
      out.offsetOf block.handler = some row.2.2.1.toNat)
    method.tryCatchBlocks out.exceptionTable
  lines : List.Forall₂ (fun (line : UInt16 × LabelId) (row : UInt16 × UInt16) =>
      out.offsetOf line.2 = some row.1.toNat ∧ row.2 = line.1)
    (linesOf method.nodes) out.lineNumbers
  locals : List.Forall₂ (fun (l : LocalVariable) (row : AssembledLocal) =>
      out.offsetOf l.start = some row.startPc.toNat ∧
      out.offsetOf l.stop = some (row.startPc.toNat + row.length.toNat) ∧
      row.slot = l.slot ∧ row.name = l.name ∧ row.desc = l.desc)
    method.localVariables out.localVariables
  maxStack : out.maxStack = method.maxStack
  maxLocals : out.maxLocals = method.maxLocals

section Finishing

variable {method : MethodNode} {catchTypes : List UInt16} {items : List Item} {offsets : List ℕ}
  {out : AssembledCode}

/-- What the last part of the assembler computes, from the label table. -/
theorem finish_ok (h : method.finish catchTypes items offsets = .ok out) :
    emit (placeLabels method.labelCount items offsets) (items.zip offsets) = .ok out.code ∧
      List.Forall₂ (fun (block : TryCatchBlock × UInt16) row =>
        exceptionRow (placeLabels method.labelCount items offsets) block.1 block.2 = .ok row)
        (method.tryCatchBlocks.zip catchTypes) out.exceptionTable ∧
      lineRows (placeLabels method.labelCount items offsets) method.nodes = .ok out.lineNumbers ∧
      List.Forall₂ (fun l row => localRow (placeLabels method.labelCount items offsets) l = .ok row)
        method.localVariables out.localVariables ∧
      out.labelOffsets =
        (placeLabels method.labelCount items offsets).map (fun o => o.map UInt16.ofNat) ∧
      out.maxStack = method.maxStack ∧ out.maxLocals = method.maxLocals := by
  obtain ⟨code, hcode, h⟩ := bind_ok h
  obtain ⟨exceptions, hex, h⟩ := bind_ok h
  obtain ⟨lines, hlines, h⟩ := bind_ok h
  obtain ⟨locals, hlocals, h⟩ := bind_ok h
  obtain rfl := Except.ok.inj h
  exact ⟨hcode, mapM_ok.mp hex, hlines, mapM_ok.mp hlocals, rfl, rfl, rfl⟩

variable {table : List (Option ℕ)}

/-- Offsets within the code survive being stored as `u16`. -/
theorem offsetOf_eq (hb : Bounded table)
    (hl : out.labelOffsets = table.map fun o => o.map UInt16.ofNat) (l : LabelId) :
    out.offsetOf l = table[l.index]?.join := by
  rw [AssembledCode.offsetOf, hl, List.getElem?_map]
  rcases ht : table[l.index]? with _ | _ | o
  · rfl
  · rfl
  · have ho := hb l o ht
    simp only [Option.map_some, Option.join_some]
    rw [UInt16.toNat_ofNat', Nat.mod_eq_of_lt (by omega)]

theorem target_eq (hb : Bounded table)
    (hl : out.labelOffsets = table.map fun o => o.map UInt16.ofNat) (l : LabelId) :
    out.target l = labelOffset table l := by
  rw [AssembledCode.target, offsetOf_eq hb hl, labelOffset]

/-- A label the assembler found stands at the offset the result reports, which a `u16` holds. -/
theorem offsetOf_some (hb : Bounded table)
    (hl : out.labelOffsets = table.map fun o => o.map UInt16.ofNat) {l : LabelId} {o : ℕ}
    (h : offsetOf table l = .ok o) : out.offsetOf l = some o ∧ (UInt16.ofNat o).toNat = o := by
  obtain ⟨ht, -⟩ := offsetOf_ok h
  refine ⟨by rw [offsetOf_eq hb hl, ht, Option.join_some], ?_⟩
  have := hb l o ht
  rw [UInt16.toNat_ofNat', Nat.mod_eq_of_lt (by omega)]

theorem exceptionRow_offsets (hb : Bounded table)
    (hl : out.labelOffsets = table.map fun o => o.map UInt16.ofNat) {block : TryCatchBlock}
    {catchType : UInt16} {row : UInt16 × UInt16 × UInt16 × UInt16}
    (h : exceptionRow table block catchType = .ok row) :
    (out.offsetOf block.start = some row.1.toNat ∧ out.offsetOf block.stop = some row.2.1.toNat ∧
      out.offsetOf block.handler = some row.2.2.1.toNat) ∧ row.2.2.2 = catchType := by
  obtain ⟨start, hstart, h⟩ := bind_ok h
  obtain ⟨stop, hstop, h⟩ := bind_ok h
  obtain ⟨handler, hhandler, h⟩ := bind_ok h
  obtain rfl := Except.ok.inj h
  obtain ⟨h1, e1⟩ := offsetOf_some hb hl hstart
  obtain ⟨h2, e2⟩ := offsetOf_some hb hl hstop
  obtain ⟨h3, e3⟩ := offsetOf_some hb hl hhandler
  exact ⟨⟨by rw [h1, e1], by rw [h2, e2], by rw [h3, e3]⟩, rfl⟩

theorem localRow_offsets (hb : Bounded table)
    (hl : out.labelOffsets = table.map fun o => o.map UInt16.ofNat) {l : LocalVariable}
    {row : AssembledLocal} (h : localRow table l = .ok row) :
    out.offsetOf l.start = some row.startPc.toNat ∧
      out.offsetOf l.stop = some (row.startPc.toNat + row.length.toNat) ∧
      row.slot = l.slot ∧ row.name = l.name ∧ row.desc = l.desc := by
  obtain ⟨start, hstart, h⟩ := bind_ok h
  obtain ⟨stop, hstop, h⟩ := bind_ok h
  split_ifs at h with hlt
  obtain rfl := Except.ok.inj h
  obtain ⟨h1, e1⟩ := offsetOf_some hb hl hstart
  obtain ⟨h2, -⟩ := offsetOf_some hb hl hstop
  have hstop := hb l.stop stop (offsetOf_ok hstop).1
  have elen : (UInt16.ofNat (stop - start)).toNat = stop - start := by
    rw [UInt16.toNat_ofNat', Nat.mod_eq_of_lt (by omega)]
  refine ⟨by rw [h1, e1], ?_, rfl, rfl, rfl⟩
  rw [h2, e1, elen]
  congr 1
  omega

theorem lineRows_offsets (hb : Bounded table)
    (hl : out.labelOffsets = table.map fun o => o.map UInt16.ofNat) {nodes : List Node}
    {rows : List (UInt16 × UInt16)} (h : lineRows table nodes = .ok rows) :
    List.Forall₂ (fun (line : UInt16 × LabelId) (row : UInt16 × UInt16) =>
        out.offsetOf line.2 = some row.1.toNat ∧ row.2 = line.1)
      (linesOf nodes) rows := by
  induction nodes generalizing rows with
  | nil =>
    obtain rfl := Except.ok.inj h
    exact .nil
  | cons node nodes ih =>
    cases node with
    | line line start =>
      obtain ⟨pc, hpc, h⟩ := bind_ok h
      obtain ⟨rest, hrest, h⟩ := bind_ok h
      obtain rfl := Except.ok.inj h
      obtain ⟨h1, e1⟩ := offsetOf_some hb hl hpc
      exact .cons ⟨by rw [h1, e1], rfl⟩ (ih hrest)
    | label l => exact ih h
    | insn insn => exact ih h

end Finishing

/-- The catch type of an exception row is the block's. -/
def Catches (pool : ConstantPoolView) (block : TryCatchBlock) (catchType : UInt16) : Prop :=
  match block.catchType with
  | none => catchType = 0
  | some name => ∀ pos, SourcePool.cls ⟨pool, pos⟩ catchType = .ok name

/-- What the code of a layout means, read against a pool. -/
structure ReadsAs (method : MethodNode) (pool : ConstantPoolView) (out : AssembledCode)
    (layout : List Placed) : Prop where
  disassembles : disassemble out.code pool = .ok (layout.flatMap (Placed.decoded out.target))
  conditions : ∀ front back p op target, layout = front ++ p :: back →
    p.node = .insn (.jump op target) → ∀ stack taken rest, condition op stack = some (taken, rest) →
    Relation.TransGen (BranchStep out.code pool) (p.pos, stack)
      (if taken then (out.offsetOf target).getD 0
        else (back.head?.map Placed.pos).getD out.code.length, rest)
  catches : List.Forall₂ (fun block (row : UInt16 × UInt16 × UInt16 × UInt16) =>
    Catches pool block row.2.2.2) method.tryCatchBlocks out.exceptionTable

/-- Where a conditional branch goes, narrow or widened: to its label when the condition holds, and
to what follows its bytes when it does not. -/
theorem walks_condition {code bytes : List UInt8}
    {table : List (Option ℕ)} {pos : ℕ} {op : UInt8} {target : LabelId} {encoded : Encoded}
    {stack rest : List Value} {taken : Bool} (he : encoded.Encodes (.jump op target))
    (hw : Walks code pool pos (encoded.decoded (fun l => labelOffset table l) pos (.jump op target))
      (pos + bytes.length))
    (hlen : bytes.length = encoded.sizeAt pos) (hc : condition op stack = some (taken, rest)) :
    Relation.TransGen (BranchStep code pool) (pos, stack)
      (if taken then labelOffset table target else pos + encoded.sizeAt pos, rest) := by
  rw [hlen] at hw
  cases encoded with
  | fixed b => simp [Encoded.Encodes, Insn.jumpTargets] at he
  | tableSwitch low high d ls => cases he.1
  | lookupSwitch d ks ls => cases he.1
  | jump op' target' wide =>
    obtain ⟨heq, hop⟩ := he
    obtain ⟨rfl, rfl⟩ := Insn.jump.inj heq
    cases wide with
    | false =>
      obtain ⟨-, len, hd, hw⟩ := hw.cons_inv
      have hlen := hw.nil_inv
      obtain rfl : len = 3 := by
        rw [Encoded.sizeAt] at hlen
        omega
      cases taken with
      | true => exact .single (.taken hd hc)
      | false => exact .single (.fall hd hc)
    | true =>
      have hcond : ¬ (op == 0xa7 || op == 0xa8) = true := by
        intro hg
        rcases (by simpa using hg : op = 0xa7 ∨ op = 0xa8) with rfl | rfl <;> cases hc
      obtain ⟨inverse, hi, -⟩ := exists_inverseCondition hop hcond
      have hnot := inverseCondition_condition hi stack
      rw [hc, Option.map_some] at hnot
      simp only [Encoded.decoded, hi] at hw
      rw [Encoded.sizeAt, if_neg hcond] at hw ⊢
      obtain ⟨-, len, hskip, hw⟩ := hw.cons_inv
      obtain ⟨hlen, len', hgoto, -⟩ := hw.cons_inv
      obtain rfl : len = 3 := by omega
      cases taken with
      | true => exact .tail (.single (.fall hskip hnot)) (.goto hgoto)
      | false => exact .single (.taken hskip hnot)

/-- What the assembler has in hand after the layout loop: items in relation `R` to the nodes,
each label placed once, and a settled layout. -/
structure Assembling (R : Insn LabelId → Encoded → Prop) (method : MethodNode)
    (items : List Item) (offsets : List ℕ) : Prop where
  itemsFor : ItemsFor R method.nodes items
  nodup : (labelsOf items).Nodup
  lt_count : ∀ l ∈ labelsOf items, l.index < method.labelCount
  settled : Settled method.labelCount items offsets

namespace Assembling

variable {R : Insn LabelId → Encoded → Prop} {method : MethodNode} {catchTypes : List UInt16}
  {items : List Item} {offsets : List ℕ} {out : AssembledCode} {pool : ConstantPoolView}

theorem table_iff (h : Assembling R method items offsets) (l : LabelId) (o : ℕ) :
    (placeLabels method.labelCount items offsets)[l.index]? = some (some o) ↔
      (Item.label l, o) ∈ items.zip offsets := by
  refine placeLabels_iff ?_ h.nodup h.lt_count l o
  rw [h.settled.offsets_eq, offsetsFrom_length]
  omega

theorem end_le (h : Assembling R method items offsets) : endFrom items 0 ≤ 65535 := by
  have := h.settled.length_le
  rwa [h.settled.offsets_eq, getLastD_offsetsFrom] at this

theorem bounded (h : Assembling R method items offsets) :
    Bounded (placeLabels method.labelCount items offsets) := by
  intro l o ht
  have hm := (List.of_mem_zip ((h.table_iff l o).mp ht)).2
  rw [h.settled.offsets_eq] at hm
  exact (le_endFrom_of_mem hm).trans h.end_le

theorem code_length (h : Assembling (fun insn encoded => encoded.Encodes insn) method items offsets)
    (hf : method.finish catchTypes items offsets = .ok out) :
    out.code.length = endFrom items 0 := by
  have hemit := (finish_ok hf).1
  rw [h.settled.offsets_eq] at hemit
  rw [← emit_length h.itemsFor hemit, Nat.zero_add]

theorem laidOut (h : Assembling (fun insn encoded => encoded.Encodes insn) method items offsets)
    (hcatch : catchTypes.length = method.tryCatchBlocks.length)
    (hf : method.finish catchTypes items offsets = .ok out) :
    LaidOut method out offsets (place method.nodes items 0) := by
  obtain ⟨hemit, hex, hlines, hlocals, hlabels, hstack, hmaxLocals⟩ := finish_ok hf
  have hlen := h.code_length hf
  have hb := h.bounded
  refine ⟨place_nodes h.itemsFor 0, ?_, ?_, ?_, ?_, ?_, lineRows_offsets hb hlabels hlines, ?_,
    hstack, hmaxLocals⟩
  · rw [hlen, place_offsets h.itemsFor 0, h.settled.offsets_eq]
  · rw [hlen]
    exact h.end_le
  · intro l o
    rw [mem_place_label h.itemsFor, ← h.settled.offsets_eq, ← h.table_iff, offsetOf_eq hb hlabels]
    exact Option.join_eq_some_iff
  · intro insn hinsn l hl
    have hnode : Node.insn insn ∈ method.nodes := by
      obtain ⟨node, hm, hn⟩ := List.mem_filterMap.mp hinsn
      cases node with
      | insn insn' =>
        obtain rfl := Option.some.inj hn
        exact hm
      | label _ => cases hn
      | line _ _ => cases hn
    obtain ⟨encoded, henc, hitem⟩ := h.itemsFor.exists_item hnode
    obtain ⟨o, ho⟩ := emit_targets hemit henc (by
      rw [h.settled.offsets_eq, offsetsFrom_length]
      omega) hitem hl
    rw [(offsetOf_some hb hlabels ho).1]
    rfl
  · have hrows : List.Forall₂ (fun (block : TryCatchBlock × UInt16) row => _) _ _ :=
      hex.imp fun block row hrow => (exceptionRow_offsets hb hlabels hrow).1
    have hzip : (method.tryCatchBlocks.zip catchTypes).map Prod.fst = method.tryCatchBlocks :=
      List.map_fst_zip (by omega)
    rw [← hzip]
    exact List.forall₂_map_left_iff.mpr hrows
  · exact hlocals.imp fun l row hrow => localRow_offsets hb hlabels hrow

/-- The code read against a pool that resolves its operands. -/
theorem readsAs
    (h : Assembling (fun insn encoded => encoded.Encodes insn ∧ encoded.ReadsBack pool insn)
      method items offsets)
    (hcatch : List.Forall₂ (Catches pool) method.tryCatchBlocks catchTypes)
    (hf : method.finish catchTypes items offsets = .ok out) :
    ReadsAs method pool out (place method.nodes items 0) := by
  obtain ⟨hemit, hex, -, -, hlabels, -, -⟩ := finish_ok hf
  have henc : ItemsFor (fun insn encoded => encoded.Encodes insn) method.nodes items :=
    h.itemsFor.mono fun _ _ hr => hr.1
  have hlen : out.code.length = endFrom items 0 :=
    code_length ⟨henc, h.nodup, h.lt_count, h.settled⟩ hf
  have hb := h.bounded
  have hle := h.end_le
  have htarget : out.target =
      fun l => (labelOffset (placeLabels method.labelCount items offsets) l : ℤ) :=
    funext (target_eq hb hlabels)
  rw [h.settled.offsets_eq] at hemit
  have hd : out.code.drop 0 = out.code ++ [] := by simp
  refine ⟨?_, ?_, ?_⟩
  · apply disassemble_of_walks
    have hw := emit_walks h.itemsFor hemit (h.settled.offsets_eq ▸ hb) hle (by omega) hd
    rw [htarget, hlen]
    rwa [h.settled.offsets_eq]
  · intro front back p op target hl hp stack taken rest hc
    obtain ⟨encoded, ⟨hencodes, hreads⟩, hwide, hm, hnext⟩ := place_next h.itemsFor hl hp
    obtain ⟨bytes, after, hbytes, hdrop⟩ := emit_at henc hemit hd hm
    have hpos : p.pos ≤ 65535 := (le_endFrom_of_mem (List.of_mem_zip hm).2).trans hle
    have hw := emitItem_walks hbytes hencodes hreads (h.settled.offsets_eq ▸ hb) hpos (by omega)
      hdrop
    rw [hlen, hnext, offsetOf_eq hb hlabels, h.settled.offsets_eq]
    exact walks_condition hencodes hw (emitItem_length hbytes hencodes) hc
  · have hrow : ∀ {block catchType row}, exceptionRow (placeLabels method.labelCount items offsets)
        block catchType = .ok row → row.2.2.2 = catchType :=
      fun hrow => (exceptionRow_offsets hb hlabels hrow).2
    exact forall₂_zip hcatch (hex.imp fun _ _ hr => hrow hr)

end Assembling

section Panics

variable {σ : Type} {sink : ConstantSink σ} {message : String}

theorem encode_ne_panic (s : σ) (insn : Insn LabelId) :
    encode sink s insn ≠ .error (.panic message) := by
  cases insn with
  | int o operand =>
    simp only [encode]
    split_ifs <;> exact fun h => by cases h
  | iinc slot delta =>
    simp only [encode]
    split_ifs <;> exact fun h => by cases h
  | method o owner name desc interface =>
    simp only [encode]
    split_ifs
    · refine bind_ne_error ?_ fun count _ h => by cases h
      unfold interfaceArgumentCount
      split
      · exact fun h => by cases h
      · dsimp only
        split_ifs <;> exact fun h => by cases h
    · exact fun h => by cases h
  | ldc c =>
    simp only [encode]
    split_ifs <;> exact fun h => by cases h
  | jump o target =>
    simp only [encode]
    split_ifs <;> exact fun h => by cases h
  | tableSwitch low high default labels =>
    simp only [encode]
    split_ifs <;> exact fun h => by cases h
  | lookupSwitch default keys labels =>
    simp only [encode]
    split_ifs <;> exact fun h => by cases h
  | op _ | var _ _ | type _ _ | field _ _ _ _ | invokeDynamic _ _ _ _ | multiANewArray _ _ =>
    exact fun h => by cases h

theorem encodeNodes_ne_panic (nodes : List Node) (s : σ) :
    encodeNodes sink nodes s ≠ .error (.panic message) := by
  induction nodes generalizing s with
  | nil => exact fun h => by cases h
  | cons node nodes ih =>
    cases node with
    | label l => exact bind_ne_error (ih s) fun _ _ h => by cases h
    | line n l => exact ih s
    | insn insn =>
      refine bind_ne_error (encode_ne_panic s insn) fun out _ => ?_
      exact bind_ne_error (ih out.2) fun _ _ h => by cases h

theorem checkPlacements_ne_panic (labelCount : ℕ) (items : List Item) (placed : List LabelId) :
    checkPlacements labelCount items placed ≠ .error (.panic message) := by
  induction items generalizing placed with
  | nil => exact fun h => by cases h
  | cons item items ih =>
    cases item with
    | code encoded => exact ih placed
    | label l =>
      simp only [checkPlacements]
      split_ifs
      · exact fun h => by cases h
      · exact fun h => by cases h
      · exact ih _

theorem offsetOf_ne_panic (table : List (Option ℕ)) (label : LabelId) :
    offsetOf table label ≠ .error (.panic message) := by
  unfold offsetOf
  split <;> exact fun h => by cases h

theorem widen_ne_panic (table : List (Option ℕ)) (placed : List (Item × ℕ)) :
    widen table placed ≠ .error (.panic message) := by
  induction placed with
  | nil => exact fun h => by cases h
  | cons head placed ih =>
    rcases head with ⟨l | (b | ⟨op, target, wide⟩ | _ | _), here⟩
    case code.jump =>
      refine bind_ne_error (offsetOf_ne_panic table target) fun _ _ => ?_
      exact bind_ne_error ih fun _ _ h => by cases h
    all_goals exact bind_ne_error ih fun _ _ h => by cases h

theorem layoutLoop_ne_panic (labelCount fuel : ℕ) (items : List Item) (offsets : List ℕ) :
    layoutLoop labelCount fuel items offsets ≠ some (.error (.panic message)) := by
  induction fuel generalizing items offsets with
  | zero => exact fun h => by cases h
  | succ fuel ih =>
    simp only [layoutLoop]
    split_ifs
    · exact fun h => by cases h
    · split
      next e hw =>
        intro h
        obtain rfl := Except.error.inj (Option.some.inj h)
        exact widen_ne_panic _ _ hw
      next items' widened hw =>
        split_ifs
        · exact fun h => by cases h
        · exact ih _ _

/-- After a settled layout only a missing label or an inverted range is left to fail on. -/
theorem Assembling.finish_ne_panic {method : MethodNode} {catchTypes : List UInt16}
    {items : List Item} {offsets : List ℕ}
    (h : Assembling (fun insn encoded => encoded.Encodes insn) method items offsets) :
    method.finish catchTypes items offsets ≠ .error (.panic message) := by
  have hreach := h.settled.reaches
  have hoffsets := h.settled.offsets_eq
  refine bind_ne_error ?_ fun code _ => ?_
  · subst hoffsets
    exact emit_ne_panic h.itemsFor hreach
  refine bind_ne_error (mapM_ne_error fun block _ => ?_) fun exceptions _ => ?_
  · refine bind_ne_error (offsetOf_ne_panic _ _) fun _ _ => ?_
    refine bind_ne_error (offsetOf_ne_panic _ _) fun _ _ => ?_
    exact bind_ne_error (offsetOf_ne_panic _ _) fun _ _ h => by cases h
  refine bind_ne_error ?_ fun lines _ => ?_
  · generalize method.nodes = nodes
    induction nodes with
    | nil => exact fun h => by cases h
    | cons node nodes ih =>
      cases node with
      | line n l =>
        refine bind_ne_error (offsetOf_ne_panic _ _) fun _ _ => ?_
        exact bind_ne_error ih fun _ _ h => by cases h
      | label l => exact ih
      | insn insn => exact ih
  refine bind_ne_error (mapM_ne_error fun l _ => ?_) fun locals _ h => by cases h
  refine bind_ne_error (offsetOf_ne_panic _ _) fun _ _ => ?_
  refine bind_ne_error (offsetOf_ne_panic _ _) fun _ _ => ?_
  split_ifs <;> exact fun h => by cases h

end Panics

section Assembler

variable {σ : Type} {sink : ConstantSink σ} {method : MethodNode} {s s' : σ} {fuel : ℕ}

theorem internCatchTypes_length (blocks : List TryCatchBlock) (s : σ) :
    (internCatchTypes sink blocks s).1.length = blocks.length := by
  induction blocks generalizing s with
  | nil => rfl
  | cons block blocks ih => simp [internCatchTypes, ih]

theorem internCatchTypes_state (blocks : List TryCatchBlock) (s : σ) :
    (internCatchTypes sink blocks s).2 =
      sink.stateAfter (blocks.filterMap fun block => block.catchType.map .cls) s := by
  induction blocks generalizing s with
  | nil => rfl
  | cons block blocks ih =>
    cases hc : block.catchType <;>
      simp [internCatchTypes, hc, ih, ConstantSink.stateAfter, ConstantSink.answer]

theorem internCatchTypes_catches {blocks : List TryCatchBlock}
    (h : sink.Resolves pool (blocks.filterMap fun block => block.catchType.map .cls) s) :
    List.Forall₂ (Catches pool) blocks (internCatchTypes sink blocks s).1 := by
  induction blocks generalizing s with
  | nil => exact .nil
  | cons block blocks ih =>
    cases hc : block.catchType with
    | none =>
      simp only [List.filterMap_cons, hc, Option.map_none] at h
      simp only [internCatchTypes, hc]
      exact .cons (by simp [Catches, hc]) (ih h)
    | some name =>
      simp only [List.filterMap_cons, hc, Option.map_some] at h
      simp only [internCatchTypes, hc]
      refine .cons ?_ (ih fun answer ha => h answer (List.mem_cons_of_mem _ ha))
      have hname : (Request.cls name).Resolved pool (sink.cls s name).1 :=
        h (.cls name, (sink.cls s name).1) (List.mem_cons_self ..)
      simp only [Catches, hc]
      exact hname

/-- The stages of an assembly that succeeds. -/
theorem assemble_ok {out : AssembledCode}
    (h : method.assemble sink fuel s = some (.ok (out, s'))) :
    ∃ items₀ items offsets,
      encodeNodes sink method.nodes (internCatchTypes sink method.tryCatchBlocks s).2 =
        .ok (items₀, s') ∧
      checkPlacements method.labelCount items₀ [] = .ok () ∧
      layoutLoop method.labelCount fuel items₀ (List.replicate (items₀.length + 1) 0) =
        some (.ok (items, offsets)) ∧
      method.finish (internCatchTypes sink method.tryCatchBlocks s).1 items offsets = .ok out := by
  simp only [MethodNode.assemble] at h
  split at h
  next e he => cases Option.some.inj h
  next items₀ t he =>
    split at h
    next e hc => cases Option.some.inj h
    next hc =>
      obtain ⟨result, hl, h⟩ := Option.map_eq_some_iff.mp h
      obtain ⟨⟨items, offsets⟩, rfl, hfinish⟩ := bind_ok h
      obtain ⟨code, hf, hout⟩ := bind_ok hfinish
      obtain ⟨rfl, rfl⟩ := Prod.mk.inj (Except.ok.inj hout)
      exact ⟨items₀, items, offsets, he, hc, hl, hf⟩

/-- The loop's result keeps what the items were, whatever it widens. -/
theorem assembling_of_layoutLoop {R : Insn LabelId → Encoded → Prop} {items₀ items : List Item}
    {offsets offsets₀ : List ℕ}
    (hR : ∀ insn op target w w', R insn (.jump op target w) → R insn (.jump op target w'))
    (hi : ItemsFor R method.nodes items₀)
    (hc : checkPlacements method.labelCount items₀ [] = .ok ())
    (hl : layoutLoop method.labelCount fuel items₀ offsets₀ = some (.ok (items, offsets))) :
    Assembling R method items offsets := by
  obtain ⟨hn, hs⟩ := layoutLoop_settled hl
  obtain ⟨hnodup, hlt⟩ := checkPlacements_ok hc
  have hlabels : labelsOf items = labelsOf items₀ := by
    rw [← labelsOf_narrowed items, hn, labelsOf_narrowed]
  refine ⟨hi.widened (fun insn op target w => hR insn op target false w)
    (fun insn op target w => hR insn op target w false) hn, ?_, ?_, hs⟩
  · rwa [hlabels]
  · intro l hm
    rw [hlabels] at hm
    exact (hlt l hm).1

theorem narrowCount_le (items : List Item) : narrowCount items ≤ items.length := by
  induction items with
  | nil => exact le_refl _
  | cons item items ih =>
    rcases item with l | (b | ⟨op, target, _ | _⟩ | _ | _) <;>
      simp only [narrowCount, List.length_cons] <;> omega

/-- Enough rounds for every body: the layout loop ends within two rounds a node, and two. -/
theorem layoutLoop_ends {items : List Item} (offsets : List ℕ)
    (hi : ItemsFor (fun insn encoded => encoded.Encodes insn) method.nodes items) :
    ∃ r, ∀ fuel, method.rounds ≤ fuel →
      layoutLoop method.labelCount fuel items offsets = some r := by
  have hrounds : roundsLeft items offsets ≤ method.rounds := by
    have h1 := narrowCount_le items
    have h2 := hi.length_le
    unfold roundsLeft MethodNode.rounds
    split <;> omega
  obtain ⟨r, hr⟩ := layoutLoop_isSome method.labelCount hrounds
  refine ⟨r, fun fuel hf => ?_⟩
  obtain ⟨more, rfl⟩ := Nat.exists_eq_add_of_le hf
  exact hr more

theorem assemble_ends (sink : ConstantSink σ) (method : MethodNode) (s : σ) :
    ∃ r, ∀ fuel, method.rounds ≤ fuel → method.assemble sink fuel s = some r := by
  simp only [MethodNode.assemble]
  split
  next e he => exact ⟨_, fun _ _ => rfl⟩
  next items t he =>
    split
    next e hc => exact ⟨_, fun _ _ => rfl⟩
    next hc =>
      obtain ⟨r, hr⟩ := layoutLoop_ends (List.replicate (items.length + 1) 0) (encodeNodes_encodes he)
      exact ⟨_, fun fuel hf => congrArg (Option.map _) (hr fuel hf)⟩

theorem assemble_ne_panic {message : String} :
    method.assemble sink fuel s ≠ some (.error (.panic message)) := by
  simp only [MethodNode.assemble]
  split
  next e he =>
    intro h
    obtain rfl := Except.error.inj (Option.some.inj h)
    exact encodeNodes_ne_panic _ _ he
  next items₀ t he =>
    split
    next e hc =>
      intro h
      obtain rfl := Except.error.inj (Option.some.inj h)
      exact checkPlacements_ne_panic _ _ _ hc
    next hc =>
      intro h
      obtain ⟨result, hl, h⟩ := Option.map_eq_some_iff.mp h
      refine bind_ne_error (fun he => ?_) (fun layout hlayout => ?_) h
      · exact layoutLoop_ne_panic _ _ _ _ (he ▸ hl)
      · subst hlayout
        have ha := assembling_of_layoutLoop (fun _ _ _ _ _ h => h) (encodeNodes_encodes he) hc hl
        exact bind_ne_error ha.finish_ne_panic fun _ _ h => by cases h

/-- The assembler, for every body and every pool: its layout loop ends; it never panics; and what
it returns is laid out at the offsets the loop computed, with the tables at their labels'
offsets. Read against a pool that resolves what the pool was asked for, the code is the body's
instructions in order, each at its offset, and every conditional branch goes where the body's
does. -/
theorem assemble_correct (sink : ConstantSink σ) (method : MethodNode) (s : σ) :
    ∃ r, (∀ fuel, method.rounds ≤ fuel → method.assemble sink fuel s = some r) ∧
      (∀ message, r ≠ .error (.panic message)) ∧
      ∀ out s', r = .ok (out, s') → ∃ offsets layout,
        (∀ fuel, method.rounds ≤ fuel → method.layoutOffsets sink fuel s = some offsets) ∧
        LaidOut method out offsets layout ∧
        ∀ pool, (∀ insn ∈ method.instructions, insn.WellFormed) →
          sink.Resolves pool method.requests s → ReadsAs method pool out layout := by
  obtain ⟨r, hr⟩ := assemble_ends sink method s
  refine ⟨r, hr, fun message he => ?_, ?_⟩
  · subst he
    exact assemble_ne_panic (hr _ le_rfl)
  rintro out s' rfl
  obtain ⟨items₀, items, offsets, he, hc, hl, hf⟩ := assemble_ok (hr _ le_rfl)
  have ha := assembling_of_layoutLoop (fun _ _ _ _ _ h => h) (encodeNodes_encodes he) hc hl
  refine ⟨offsets, place method.nodes items 0, ?_,
    ha.laidOut (internCatchTypes_length _ _) hf, ?_⟩
  · intro fuel hfuel
    obtain ⟨result, hloop⟩ := layoutLoop_ends (List.replicate (items₀.length + 1) 0)
      (encodeNodes_encodes he)
    have hsame : layoutLoop method.labelCount fuel items₀ _ = some (.ok (items, offsets)) :=
      (hloop fuel hfuel).trans ((hloop _ le_rfl).symm.trans hl)
    simp only [MethodNode.layoutOffsets, he, hsame]
  · intro pool hwf hres
    rw [MethodNode.requests, ConstantSink.resolves_append, ← internCatchTypes_state] at hres
    have hwf' : ∀ insn, Node.insn insn ∈ method.nodes → insn.WellFormed :=
      fun insn hm => hwf insn (List.mem_filterMap.mpr ⟨_, hm, rfl⟩)
    have hback := encodeNodes_readsBack he hwf' hres.2
    exact (assembling_of_layoutLoop (fun _ _ _ _ _ h => h) hback hc hl).readsAs
      (internCatchTypes_catches hres.1) hf

end Assembler

/-- A pool with one class in it, and a sink that answers with its index. -/
def samplePool : ConstantPoolView where
  entry index := if index = 1 then some (.utf8 "A") else if index = 2 then some (.cls 1) else none
  bootstrapMethod _ := none
  entry_zero := rfl

def sampleSink : ConstantSink Unit where
  cls s _ := (2, s)
  field s _ _ _ := (0, s)
  method s _ _ _ _ := (0, s)
  constant s _ := (0, s)
  invokeDynamic s _ _ _ _ := (0, s)

/-- A loop over a conditional branch, with an allocation, a handler, a line and a local. -/
def sampleBody : MethodNode where
  access := 8
  name := "f"
  desc := "()V"
  nodes := [.label ⟨0⟩, .line 7 ⟨0⟩, .insn (.op 0x03), .insn (.jump 0x99 ⟨0⟩),
    .insn (.type 0xbb "A"), .insn (.op 0x57), .insn (.op 0xb1), .label ⟨1⟩]
  tryCatchBlocks := [⟨⟨0⟩, ⟨1⟩, ⟨0⟩, none⟩]
  localVariables := [⟨"x", "I", ⟨0⟩, ⟨1⟩, 0⟩]
  maxStack := 1
  maxLocals := 1
  labelCount := 2

theorem assemble_correct_sample :
    ∃ out layout, sampleBody.assemble sampleSink sampleBody.rounds () = some (.ok (out, ())) ∧
      ReadsAs sampleBody samplePool out layout := by
  obtain ⟨r, hr, -, hok⟩ := assemble_correct sampleSink sampleBody ()
  have hrun := hr sampleBody.rounds le_rfl
  obtain ⟨out, hout⟩ : ∃ out, sampleBody.assemble sampleSink sampleBody.rounds () =
    some (.ok (out, ())) := ⟨_, rfl⟩
  obtain rfl := Option.some.inj (hrun.symm.trans hout)
  obtain ⟨offsets, layout, -, -, hreads⟩ := hok out () rfl
  refine ⟨out, layout, hout, hreads samplePool (by decide) ?_⟩
  intro answer ha
  obtain rfl := List.mem_singleton.mp ha
  exact fun pos => rfl

end Krusty.Jvm
