import Krusty.Jvm.MethodNode.Encode
import Mathlib.Logic.Relation

/-! The bytes of a laid-out instruction: their length is the one the layout counted, and they
decode to the instruction with its labels replaced by offsets. -/
namespace Krusty.Jvm
open Bytes Results

/-- A label's offset, for the labels that have one. -/
def labelOffset (table : List (Option ℕ)) (label : LabelId) : ℕ := (table[label.index]?.join).getD 0

variable {table : List (Option ℕ)}

theorem offsetOf_ok {label : LabelId} {offset : ℕ} (h : offsetOf table label = .ok offset) :
    table[label.index]? = some (some offset) ∧ labelOffset table label = offset := by
  unfold offsetOf at h
  split at h
  next o ho =>
    obtain rfl := Except.ok.inj h
    exact ⟨ho, by simp [labelOffset, ho]⟩
  next => cases h

variable {arms : List ℕ}

theorem mapM_offsetOf {labels : List LabelId}
    (h : labels.mapM (offsetOf table) = .ok arms) : arms = labels.map (labelOffset table) :=
  eq_map_of_mapM h fun _ _ hl => (offsetOf_ok hl).2.symm

def Bounded (table : List (Option ℕ)) : Prop :=
  ∀ (label : LabelId) (offset : ℕ), table[label.index]? = some (some offset) → offset ≤ 65535

theorem Bounded.labelOffset_le (h : Bounded table) (label : LabelId) : labelOffset table label ≤ 65535 := by
  unfold labelOffset
  rcases ht : table[label.index]? with _ | _ | offset
  · simp
  · simp
  · simpa using h label offset ht

theorem Bounded.map_labelOffset_le (h : Bounded table)
    (labels : List LabelId) : ∀ a ∈ labels.map (labelOffset table), a ≤ 65535 := by
  intro a hm
  obtain ⟨l, -, rfl⟩ := List.mem_map.mp hm
  exact h.labelOffset_le l

theorem toInt_ofInt_sub {a b : ℕ} (ha : a ≤ 65535) (hb : b ≤ 65535 + 3) :
    (Int32.ofInt ((a : ℤ) - b)).toInt = (a : ℤ) - b := by
  have hs : (Int32.size : ℕ) = 4294967296 := rfl
  rw [Int32.toInt_ofInt, hs, Int.bmod_def]
  split <;> omega

variable {op : UInt8}

section Decoding

variable {code rest : List UInt8} {pool : ConstantPoolView} {pos dest : ℕ}

theorem branchTargets_jump (hop : isJumpOpcode op) (hu : u1 code pos = op) :
    branchTargets code pos = [pos + (u2 code (pos + 1)).toInt16.toInt] := by
  simp only [branchTargets, hu, hop, if_true]

/-- A branch with a two-byte displacement. -/
theorem decodes_narrow (hop : isJumpOpcode op) (hfit : fitsI16 ((dest : ℤ) - pos) = true)
    (h : code.drop pos = op :: intBytes 2 ((dest : ℤ) - pos) ++ rest) :
    Decodes code pool pos 3 (.jump op dest) := by
  refine decodes_of_form (hasForm_branch hop) h (by simp) ?_
  simp only [fitsI16, Bool.and_eq_true, decide_eq_true_eq] at hfit
  change Except.ok (Insn.jump op ((branchTargets code pos).headD 0)) = _
  rw [branchTargets_jump hop (u1_of_drop h), i2_of_drop (drop_tail h) hfit.1 hfit.2]
  simp

/-- `goto_w` and `jsr_w` read as the narrow opcode. -/
theorem decodes_wide {delta : ℤ} (hop : op = 0xa7 ∨ op = 0xa8)
    (hd : delta = (dest : ℤ) - pos) (hdest : dest ≤ 65535) (hpos : pos ≤ 65535 + 3)
    (h : code.drop pos = (if op == 0xa7 then 0xc8 else 0xc9) :: intBytes 4 delta ++ rest) :
    Decodes code pool pos 5 (.jump op dest) := by
  subst hd
  have htarget : ∀ b : UInt8, (b = 0xc8 ∨ b = 0xc9) → isJumpOpcode b = false →
      u1 code pos = b → i4 code (pos + 1) = Int32.ofInt ((dest : ℤ) - pos) →
      (branchTargets code pos).headD 0 = dest := by
    intro b hb hnj hu hi
    have hb : (b == 0xc8 || b == 0xc9) = true := by simpa using hb
    simp only [branchTargets, hu, hnj, hb, hi, toInt_ofInt_sub hdest hpos]
    simp
  rcases hop with rfl | rfl
  · have hf : HasForm 0xc8 .gotoWide 5 := by decide
    refine decodes_of_form hf h (by simp) ?_
    change Except.ok (Insn.jump 0xa7 ((branchTargets code pos).headD 0)) = _
    rw [htarget 0xc8 (.inl rfl) rfl (u1_of_drop h) (i4_of_drop (drop_tail h))]
  · have hf : HasForm 0xc9 .jsrWide 5 := by decide
    refine decodes_of_form hf h (by simp) ?_
    change Except.ok (Insn.jump 0xa8 ((branchTargets code pos).headD 0)) = _
    rw [htarget 0xc9 (.inr rfl) rfl (u1_of_drop h) (i4_of_drop (drop_tail h))]

/-- The operands of a switch, past the opcode and the padding. -/
theorem drop_switch {operands : List UInt8}
    (h : code.drop pos = op :: (List.replicate (padding pos) 0 ++ operands) ++ rest) :
    code.drop (switchOperands pos) = operands ++ rest := by
  have h1 : code.drop (pos + 1) = List.replicate (padding pos) 0 ++ (operands ++ rest) := by
    rw [drop_tail h, List.append_assoc]
  have h2 := drop_add h1
  rwa [List.length_replicate] at h2

/-- The arms of a table switch, read one by one. -/
theorem arms_of_drop {p : ℕ} (hpos : pos ≤ 65535) (harms : ∀ a ∈ arms, a ≤ 65535)
    (h : code.drop p = arms.flatMap (fun (arm : ℕ) => intBytes 4 ((arm : ℤ) - pos)) ++ rest) :
    ((List.range arms.length).map fun k => (pos : ℤ) + (i4 code (p + k * 4)).toInt) =
      arms.map fun (arm : ℕ) => (arm : ℤ) := by
  apply map_range_eq
  intro k a hk
  obtain ⟨rest', hr⟩ := drop_flatMap (fun _ => intBytes_length 4 _) h hk
  rw [i4_of_drop hr, toInt_ofInt_sub (harms a (List.mem_of_getElem? hk)) (by omega)]
  omega

theorem decodes_tableSwitch {low high : Int32} (hpos : pos ≤ 65535)
    (hdest : dest ≤ 65535) (harms : ∀ a ∈ arms, a ≤ 65535)
    (hcount : high.toInt - low.toInt + 1 = arms.length) (hne : arms ≠ [])
    (h : code.drop pos = 0xaa :: (List.replicate (padding pos) 0 ++
      (intBytes 4 ((dest : ℤ) - pos) ++ (intBytes 4 low.toInt ++ (intBytes 4 high.toInt ++
        arms.flatMap fun (arm : ℕ) => intBytes 4 ((arm : ℤ) - pos))))) ++ rest) :
    Decodes code pool pos (1 + padding pos + 12 + 4 * arms.length)
      (.tableSwitch low high dest (arms.map fun (arm : ℕ) => (arm : ℤ))) := by
  have hu : u1 code pos = 0xaa := u1_of_drop h
  have hp : 0 < arms.length := List.length_pos_iff.mpr hne
  have h0 := drop_switch h
  simp only [List.append_assoc] at h0
  have h4 := drop_add h0
  have h8 := drop_add h4
  have h12 := drop_add h8
  simp only [intBytes_length] at h4 h8 h12
  have hlow : i4 code (switchOperands pos + 4) = low := by rw [i4_of_drop h4, Int32.ofInt_toInt]
  have hhigh : i4 code (switchOperands pos + 8) = high := by rw [i4_of_drop h8, Int32.ofInt_toInt]
  have htc : tableCount code pos = arms.length := by
    simp only [tableCount, hlow, hhigh]
    omega
  have htargets : branchTargets code pos = (dest : ℤ) :: arms.map fun (arm : ℕ) => (arm : ℤ) := by
    rw [← arms_of_drop hpos harms h12, ← htc]
    simp only [branchTargets, hu, List.map_cons, List.map_map, i4_of_drop h0,
      toInt_ofInt_sub hdest (show pos ≤ 65535 + 3 by omega)]
    simp [isJumpOpcode, opRange, Function.comp_def]
  refine ⟨?_, by simp [hu], ?_⟩
  · refine instructionLen_eq_some.mpr ⟨0xaa, getElem?_of_drop h, ?_, ?_⟩
    · change (i4? code (switchOperands pos + 4) >>= fun low => i4? code (switchOperands pos + 8) >>=
        fun high => if 0 < high.toInt - low.toInt + 1 then
          some (switchOperands pos + 12 + (high.toInt - low.toInt + 1).toNat * 4 - pos)
          else none) = _
      rw [i4?_of_drop h4, i4?_of_drop h8, Int32.ofInt_toInt, Int32.ofInt_toInt]
      simp only [Option.bind_eq_bind, Option.bind_some]
      rw [if_pos (by omega), hcount, switchOperands]
      congr 1
      omega
    · have hle := le_length h (by simp)
      simp only [List.length_cons, List.length_append, List.length_replicate, intBytes_length,
        List.length_flatMap, List.map_const', List.sum_replicate, smul_eq_mul] at hle
      omega
  · have hform : opForm 0xaa = .tableSwitch := rfl
    rw [decode, hu, hform]
    change Except.ok (Insn.tableSwitch (i4 code (switchOperands pos + 4))
      (i4 code (switchOperands pos + 8)) ((branchTargets code pos).headD 0)
      ((branchTargets code pos).tail.map id)) = _
    rw [hlow, hhigh, htargets]
    simp

/-- The keys and arms of a lookup switch, read one by one. -/
theorem pairs_of_drop {p : ℕ} {pairs : List (Int32 × ℕ)} (hpos : pos ≤ 65535)
    (harms : ∀ pair ∈ pairs, pair.2 ≤ 65535)
    (h : code.drop p = pairs.flatMap (fun (pair : Int32 × ℕ) =>
      intBytes 4 pair.1.toInt ++ intBytes 4 ((pair.2 : ℤ) - pos)) ++ rest) :
    ((List.range pairs.length).map fun k => i4 code (p + k * 8)) = pairs.map Prod.fst ∧
      ((List.range pairs.length).map fun k => (pos : ℤ) + (i4 code (p + 4 + k * 8)).toInt) =
        pairs.map fun pair => (pair.2 : ℤ) := by
  have hlen : ∀ pair : Int32 × ℕ,
      (intBytes 4 pair.1.toInt ++ intBytes 4 ((pair.2 : ℤ) - pos)).length = 8 := by simp
  constructor
  · apply map_range_eq
    intro k a hk
    obtain ⟨rest', hr⟩ := drop_flatMap hlen h hk
    rw [List.append_assoc] at hr
    rw [i4_of_drop hr, Int32.ofInt_toInt]
  · apply map_range_eq
    intro k a hk
    obtain ⟨rest', hr⟩ := drop_flatMap hlen h hk
    rw [List.append_assoc] at hr
    have hr := drop_add hr
    rw [intBytes_length, Nat.add_right_comm] at hr
    rw [i4_of_drop hr, toInt_ofInt_sub (harms a (List.mem_of_getElem? hk)) (by omega)]
    omega

theorem decodes_lookupSwitch {keys : List Int32} (hpos : pos ≤ 65535)
    (hdest : dest ≤ 65535) (harms : ∀ a ∈ arms, a ≤ 65535) (hkeys : keys.length = arms.length)
    (hlen : code.length ≤ 65535)
    (h : code.drop pos = 0xab :: (List.replicate (padding pos) 0 ++
      (intBytes 4 ((dest : ℤ) - pos) ++ (intBytes 4 keys.length ++
        (keys.zip arms).flatMap fun (pair : Int32 × ℕ) =>
          intBytes 4 pair.1.toInt ++ intBytes 4 ((pair.2 : ℤ) - pos)))) ++ rest) :
    Decodes code pool pos (1 + padding pos + 8 + 8 * arms.length)
      (.lookupSwitch dest keys (arms.map fun (arm : ℕ) => (arm : ℤ))) := by
  have hu : u1 code pos = 0xab := u1_of_drop h
  have hzip : (keys.zip arms).length = arms.length := by
    rw [List.length_zip, hkeys, Nat.min_self]
  have hle := le_length h (by simp)
  simp only [List.length_cons, List.length_append, List.length_replicate, intBytes_length,
    List.length_flatMap, List.map_const', List.sum_replicate, smul_eq_mul, hzip] at hle
  have h0 := drop_switch h
  simp only [List.append_assoc] at h0
  have h4 := drop_add h0
  have h8 := drop_add h4
  simp only [intBytes_length] at h4 h8
  have hn : (Int32.ofInt (keys.length : ℤ)).toInt = arms.length := by
    have := toInt_ofInt_sub (a := keys.length) (b := 0) (by omega) (by omega)
    simpa [hkeys] using this
  have hlc : lookupCount code pos = (keys.zip arms).length := by
    rw [lookupCount, i4_of_drop h4, hn, hzip]
    omega
  obtain ⟨hks, has⟩ := pairs_of_drop hpos (fun pair hm => harms _ (List.of_mem_zip hm).2) h8
  rw [← hlc, List.map_fst_zip (by omega)] at hks
  have harr : ((keys.zip arms).map fun pair => (pair.2 : ℤ)) =
      arms.map fun (arm : ℕ) => (arm : ℤ) := by
    rw [← List.map_snd_zip (show arms.length ≤ keys.length by omega), List.map_map]
    simp [List.map_snd_zip (show arms.length ≤ keys.length by omega), Function.comp_def]
  have htargets : branchTargets code pos =
      (dest : ℤ) :: arms.map fun (arm : ℕ) => (arm : ℤ) := by
    rw [← harr, ← has, ← hlc]
    simp only [branchTargets, hu, List.map_cons, List.map_map, i4_of_drop h0,
      toInt_ofInt_sub hdest (show pos ≤ 65535 + 3 by omega)]
    simp [isJumpOpcode, opRange, Function.comp_def]
  refine ⟨?_, by simp [hu], ?_⟩
  · refine instructionLen_eq_some.mpr ⟨0xab, getElem?_of_drop h, ?_, by omega⟩
    change (i4? code (switchOperands pos + 4) >>= fun pairs => if 0 ≤ pairs.toInt then
      some (switchOperands pos + 8 + pairs.toInt.toNat * 8 - pos) else none) = _
    rw [i4?_of_drop h4]
    simp only [Option.bind_eq_bind, Option.bind_some, hn]
    rw [if_pos (by omega), switchOperands]
    congr 1
    omega
  · have hform : opForm 0xab = .lookupSwitch := rfl
    rw [decode, hu, hform]
    change Except.ok (Insn.lookupSwitch ((branchTargets code pos).headD 0)
      ((List.range (lookupCount code pos)).map fun k => i4 code (switchOperands pos + 8 + k * 8))
      ((branchTargets code pos).tail.map id)) = _
    rw [hks, htargets]
    simp

end Decoding

/-- The code from `pos` to `stop` is these instructions, each at its offset. -/
inductive Walks (code : List UInt8) (pool : ConstantPoolView) : ℕ → List (ℕ × Insn ℤ) → ℕ → Prop
  | nil (pos : ℕ) : Walks code pool pos [] pos
  | cons {pos len stop : ℕ} {insn : Insn ℤ} {rest : List (ℕ × Insn ℤ)} :
    Decodes code pool pos len insn → Walks code pool (pos + len) rest stop →
      Walks code pool pos ((pos, insn) :: rest) stop

variable {pool : ConstantPoolView} {code : List UInt8}

theorem Walks.append {pos mid stop : ℕ} {front back : List (ℕ × Insn ℤ)} (h : Walks code pool pos front mid)
    (h' : Walks code pool mid back stop) : Walks code pool pos (front ++ back) stop := by
  induction h with
  | nil => exact h'
  | cons hd _ ih => exact .cons hd (ih h')

theorem Walks.nil_inv {pos stop : ℕ} (h : Walks code pool pos [] stop) : pos = stop := by
  cases h
  rfl

theorem Walks.cons_inv {pos pos' stop : ℕ}
    {insn : Insn ℤ} {rest : List (ℕ × Insn ℤ)} (h : Walks code pool pos ((pos', insn) :: rest) stop) :
    pos' = pos ∧ ∃ len, Decodes code pool pos len insn ∧ Walks code pool (pos + len) rest stop := by
  cases h with
  | cons hd hw => exact ⟨rfl, _, hd, hw⟩

theorem Walks.single {pos len : ℕ} {insn : Insn ℤ}
    (h : Decodes code pool pos len insn) : Walks code pool pos [(pos, insn)] (pos + len) :=
  .cons h (.nil _)

/-- The instructions an encoding at `here` decodes to: its own, or for a widened conditional the
inverse condition over a `goto_w`. -/
def Encoded.decoded (offset : LabelId → ℤ) (here : ℕ) (insn : Insn LabelId) :
    Encoded → List (ℕ × Insn ℤ)
  | jump op target true =>
    match inverseCondition op with
    | some inverse =>
      [(here, .jump inverse (here + 8 : ℕ)), (here + 3, .jump 0xa7 (offset target))]
    | none => [(here, insn.map offset)]
  | _ => [(here, insn.map offset)]

/-- The inverse exists for the conditional branches and for no other jump. -/
theorem inverseCondition_spec (op : UInt8) (hop : isJumpOpcode op) :
    if op == 0xa7 || op == 0xa8 then inverseCondition op = none
    else (inverseCondition op).any isJumpOpcode := by
  revert hop
  revert op
  exact forall_opcode (by decide +kernel)

theorem inverseCondition_eq_none (h : op = 0xa7 ∨ op = 0xa8) : inverseCondition op = none := by
  rcases h with rfl | rfl <;> rfl

theorem exists_inverseCondition (hop : isJumpOpcode op) (hne : ¬ (op == 0xa7 || op == 0xa8) = true) :
    ∃ inverse, inverseCondition op = some inverse ∧ isJumpOpcode inverse := by
  have h := inverseCondition_spec op hop
  rw [if_neg hne] at h
  cases hi : inverseCondition op with
  | none => simp [hi] at h
  | some inverse => exact ⟨inverse, rfl, by simpa [hi] using h⟩

section Emitting

variable {table : List (Option ℕ)} {here : ℕ} {insn : Insn LabelId} {bytes rest : List UInt8}
  {encoded : Encoded}

theorem emitItem_length (h : emitItem table here (.code encoded) = .ok bytes)
    (he : encoded.Encodes insn) : bytes.length = encoded.sizeAt here := by
  cases encoded with
  | fixed b =>
    obtain rfl := Except.ok.inj h
    rfl
  | jump op target wide =>
    cases wide with
    | false =>
      obtain ⟨dest, -, h⟩ := bind_ok h
      split_ifs at h
      obtain rfl := Except.ok.inj h
      simp [Encoded.sizeAt]
    | true =>
      obtain ⟨dest, -, h⟩ := bind_ok h
      simp only [Encoded.sizeAt]
      by_cases hg : (op == 0xa7 || op == 0xa8) = true
      · rw [if_pos hg] at h ⊢
        obtain rfl := Except.ok.inj h
        simp
      · rw [if_neg hg] at h ⊢
        obtain ⟨inverse, hi, -⟩ := exists_inverseCondition he.2 hg
        simp only [hi] at h
        obtain rfl := Except.ok.inj h
        simp
  | tableSwitch low high default labels =>
    obtain ⟨dest, -, h⟩ := bind_ok h
    obtain ⟨arms, ha, h⟩ := bind_ok h
    obtain rfl := Except.ok.inj h
    obtain rfl := mapM_offsetOf ha
    simp only [Encoded.sizeAt, List.length_append, List.length_cons, List.length_replicate,
      intBytes_length, List.length_flatMap, List.map_const', List.sum_replicate, smul_eq_mul,
      List.length_map]
    omega
  | lookupSwitch default keys labels =>
    obtain ⟨dest, -, h⟩ := bind_ok h
    obtain ⟨arms, ha, h⟩ := bind_ok h
    obtain rfl := Except.ok.inj h
    obtain rfl := mapM_offsetOf ha
    have hk := he.2
    simp only [Encoded.sizeAt, List.length_append, List.length_cons, List.length_replicate,
      intBytes_length, List.length_flatMap, List.map_const', List.sum_replicate, smul_eq_mul,
      List.length_map, List.length_zip]
    omega

/-- The inverse condition over the `goto_w` it skips. -/
theorem widened_walks {inverse : UInt8} {dest : ℕ}
    (hop : isJumpOpcode inverse) (hdest : dest ≤ 65535) (hhere : here ≤ 65535)
    (h : code.drop here = (inverse :: intBytes 2 8 ++
      0xc8 :: intBytes 4 ((dest : ℤ) - (here + 3 : ℕ))) ++ rest) :
    Walks code pool here
      [(here, .jump inverse (here + 8 : ℕ)), (here + 3, .jump 0xa7 (dest : ℤ))]
      (here + (inverse :: intBytes 2 8 ++
        0xc8 :: intBytes 4 ((dest : ℤ) - (here + 3 : ℕ))).length) := by
  have h0 : code.drop here = inverse :: intBytes 2 (((here + 8 : ℕ) : ℤ) - here) ++
      (0xc8 :: intBytes 4 ((dest : ℤ) - (here + 3 : ℕ)) ++ rest) := by
    rw [h, List.append_assoc]
    congr 3
    omega
  have hskip : Decodes code pool here 3 (.jump inverse ((here + 8 : ℕ) : ℤ)) :=
    decodes_narrow hop (by simp [fitsI16]) h0
  have h3 : code.drop (here + 3) = 0xc8 :: intBytes 4 ((dest : ℤ) - (here + 3 : ℕ)) ++ rest := by
    simpa using drop_add h0
  have hgoto : Decodes code pool (here + 3) 5 (.jump 0xa7 (dest : ℤ)) :=
    decodes_wide (.inl rfl) rfl hdest (by omega) h3
  simpa using Walks.cons hskip (Walks.single hgoto)

/-- The bytes of an item, put where the layout says, decode to what the item encodes. -/
theorem emitItem_walks (h : emitItem table here (.code encoded) = .ok bytes) (he : encoded.Encodes insn)
    (hr : encoded.ReadsBack pool insn) (hb : Bounded table) (hhere : here ≤ 65535)
    (hcode : code.length ≤ 65535) (hd : code.drop here = bytes ++ rest) :
    Walks code pool here (encoded.decoded (fun l => labelOffset table l) here insn)
      (here + bytes.length) := by
  cases encoded with
  | fixed b =>
    obtain rfl := Except.ok.inj h
    exact .single (hr code here rest _ hd)
  | jump op target wide =>
    obtain ⟨rfl, hop⟩ := he
    have hdest := hb.labelOffset_le target
    cases wide with
    | false =>
      obtain ⟨dest, ht, h⟩ := bind_ok h
      obtain ⟨-, rfl⟩ := offsetOf_ok ht
      split_ifs at h with hfit
      obtain rfl := Except.ok.inj h
      have hw : Decodes code pool here 3 _ := decodes_narrow hop hfit hd
      simpa [Encoded.decoded, Insn.map] using Walks.single hw
    | true =>
      obtain ⟨dest, ht, h⟩ := bind_ok h
      obtain ⟨-, rfl⟩ := offsetOf_ok ht
      by_cases hg : (op == 0xa7 || op == 0xa8) = true
      · rw [if_pos hg] at h
        obtain rfl := Except.ok.inj h
        have hg : op = 0xa7 ∨ op = 0xa8 := by simpa using hg
        have hw : Decodes code pool here 5 _ := decodes_wide hg rfl hdest (by omega) hd
        simpa [Encoded.decoded, inverseCondition_eq_none hg, Insn.map] using Walks.single hw
      · rw [if_neg hg] at h
        obtain ⟨inverse, hi, hij⟩ := exists_inverseCondition hop hg
        simp only [hi] at h
        obtain rfl := Except.ok.inj h
        simp only [Encoded.decoded, hi]
        exact widened_walks hij hdest hhere hd
  | tableSwitch low high default labels =>
    rw [emitItem_length h he]
    obtain ⟨rfl, hcount, hne⟩ := he
    obtain ⟨dest, ht, h⟩ := bind_ok h
    obtain ⟨arms, ha, h⟩ := bind_ok h
    obtain rfl := Except.ok.inj h
    obtain ⟨-, rfl⟩ := offsetOf_ok ht
    obtain rfl := mapM_offsetOf ha
    have hw : Decodes code pool here _ _ :=
      decodes_tableSwitch hhere (hb.labelOffset_le default) (hb.map_labelOffset_le labels)
        (by simpa using hcount) (by simpa using hne)
        (by simpa only [List.cons_append, List.append_assoc] using hd)
    simpa [Encoded.decoded, Encoded.sizeAt, Insn.map, Function.comp_def] using Walks.single hw
  | lookupSwitch default keys labels =>
    rw [emitItem_length h he]
    obtain ⟨rfl, hkeys⟩ := he
    obtain ⟨dest, ht, h⟩ := bind_ok h
    obtain ⟨arms, ha, h⟩ := bind_ok h
    obtain rfl := Except.ok.inj h
    obtain ⟨-, rfl⟩ := offsetOf_ok ht
    obtain rfl := mapM_offsetOf ha
    have hw : Decodes code pool here _ _ :=
      decodes_lookupSwitch hhere (hb.labelOffset_le default) (hb.map_labelOffset_le labels)
        (by simpa using hkeys) hcode
        (by simpa only [List.cons_append, List.append_assoc] using hd)
    simpa [Encoded.decoded, Encoded.sizeAt, Insn.map, Function.comp_def] using Walks.single hw

theorem emitItem_targets {l : LabelId} (h : emitItem table here (.code encoded) = .ok bytes)
    (he : encoded.Encodes insn) (hl : l ∈ insn.jumpTargets) : ∃ o, offsetOf table l = .ok o := by
  have harms : ∀ {labels arms}, List.mapM (offsetOf table) labels = .ok arms → l ∈ labels →
      ∃ o, offsetOf table l = .ok o := by
    intro labels arms ha hm
    obtain ⟨o, -, ho⟩ := mapM_ok_of_mem ha hm
    exact ⟨o, ho⟩
  cases encoded with
  | fixed b => rw [he.1] at hl; cases hl
  | jump op target wide =>
    obtain ⟨rfl, -⟩ := he
    obtain rfl := List.mem_singleton.mp hl
    cases wide with
    | false =>
      obtain ⟨dest, hd, -⟩ := bind_ok h
      exact ⟨dest, hd⟩
    | true =>
      obtain ⟨dest, hd, -⟩ := bind_ok h
      exact ⟨dest, hd⟩
  | tableSwitch low high default labels =>
    obtain ⟨rfl, -⟩ := he
    obtain ⟨dest, hd, h⟩ := bind_ok h
    obtain ⟨arms, ha, -⟩ := bind_ok h
    rcases List.mem_cons.mp hl with rfl | hl
    · exact ⟨dest, hd⟩
    · exact harms ha hl
  | lookupSwitch default keys labels =>
    obtain ⟨rfl, -⟩ := he
    obtain ⟨dest, hd, h⟩ := bind_ok h
    obtain ⟨arms, ha, -⟩ := bind_ok h
    rcases List.mem_cons.mp hl with rfl | hl
    · exact ⟨dest, hd⟩
    · exact harms ha hl

/-- Emitting an item in reach does not panic. -/
theorem emitItem_ne_panic {message : String} (he : encoded.Encodes insn)
    (hreach : ∀ op target dest, encoded = .jump op target false →
      offsetOf table target = .ok dest → fitsI16 ((dest : ℤ) - here) = true) :
    emitItem table here (.code encoded) ≠ .error (.panic message) := by
  have hoff : ∀ label, offsetOf table label ≠ .error (.panic message) := by
    intro label
    unfold offsetOf
    split <;> simp
  have harms : ∀ labels, List.mapM (offsetOf table) labels ≠ .error (.panic message) := by
    intro labels
    exact mapM_ne_error fun label _ => hoff label
  cases encoded with
  | fixed b => exact fun h => by cases h
  | jump op target wide =>
    cases wide with
    | false =>
      refine bind_ne_error (hoff target) fun dest hd => ?_
      rw [if_pos (hreach op target dest rfl hd)]
      simp
    | true =>
      refine bind_ne_error (hoff target) fun dest hd => ?_
      by_cases hg : (op == 0xa7 || op == 0xa8) = true
      · rw [if_pos hg]
        simp
      · obtain ⟨inverse, hi, -⟩ := exists_inverseCondition he.2 hg
        rw [if_neg hg, hi]
        simp
  | tableSwitch low high default labels =>
    exact bind_ne_error (hoff default) fun _ _ => bind_ne_error (harms labels) fun _ _ => by simp
  | lookupSwitch default keys labels =>
    exact bind_ne_error (hoff default) fun _ _ => bind_ne_error (harms labels) fun _ _ => by simp

end Emitting

end Krusty.Jvm

/-! What the conditional branches do, as far as where control goes. -/
namespace Krusty.Jvm

/-- A stack word a conditional branch tests. -/
inductive Value where
  | int (value : Int32)
  | ref (address : Option ℕ)
  deriving DecidableEq

def onInt (test : Int32 → Bool) : List Value → Option (Bool × List Value)
  | .int v :: stack => some (test v, stack)
  | _ => none

/-- The second operand is on top. -/
def onInts (test : Int32 → Int32 → Bool) : List Value → Option (Bool × List Value)
  | .int w :: .int v :: stack => some (test v w, stack)
  | _ => none

def onRef (test : Option ℕ → Bool) : List Value → Option (Bool × List Value)
  | .ref v :: stack => some (test v, stack)
  | _ => none

def onRefs (test : Option ℕ → Option ℕ → Bool) : List Value → Option (Bool × List Value)
  | .ref w :: .ref v :: stack => some (test v w, stack)
  | _ => none

/-- Whether the conditional branch `op` is taken on a stack, and what it leaves of it; `none` for
an opcode that is no conditional, or operands it does not take. -/
def condition (op : UInt8) (stack : List Value) : Option (Bool × List Value) :=
  match op with
  | 0x99 => onInt (fun v => v == 0) stack
  | 0x9a => onInt (fun v => v != 0) stack
  | 0x9b => onInt (fun v => v < 0) stack
  | 0x9c => onInt (fun v => 0 ≤ v) stack
  | 0x9d => onInt (fun v => 0 < v) stack
  | 0x9e => onInt (fun v => v ≤ 0) stack
  | 0x9f => onInts (fun v w => v == w) stack
  | 0xa0 => onInts (fun v w => v != w) stack
  | 0xa1 => onInts (fun v w => v < w) stack
  | 0xa2 => onInts (fun v w => w ≤ v) stack
  | 0xa3 => onInts (fun v w => w < v) stack
  | 0xa4 => onInts (fun v w => v ≤ w) stack
  | 0xa5 => onRefs (fun v w => v == w) stack
  | 0xa6 => onRefs (fun v w => v != w) stack
  | 0xc6 => onRef (fun v => v == none) stack
  | 0xc7 => onRef (fun v => v != none) stack
  | _ => none

theorem onInt_not (test : Int32 → Bool) (stack : List Value) :
    onInt (fun v => !test v) stack = (onInt test stack).map fun r => (!r.1, r.2) := by
  rcases stack with _ | ⟨_ | _, _⟩ <;> rfl

theorem onInts_not (test : Int32 → Int32 → Bool) (stack : List Value) :
    onInts (fun v w => !test v w) stack = (onInts test stack).map fun r => (!r.1, r.2) := by
  rcases stack with _ | ⟨_ | _, _ | ⟨_ | _, _⟩⟩ <;> rfl

theorem onRef_not (test : Option ℕ → Bool) (stack : List Value) :
    onRef (fun v => !test v) stack = (onRef test stack).map fun r => (!r.1, r.2) := by
  rcases stack with _ | ⟨_ | _, _⟩ <;> rfl

theorem onRefs_not (test : Option ℕ → Option ℕ → Bool) (stack : List Value) :
    onRefs (fun v w => !test v w) stack = (onRefs test stack).map fun r => (!r.1, r.2) := by
  rcases stack with _ | ⟨_ | _, _ | ⟨_ | _, _⟩⟩ <;> rfl

/-- The pairs of opposite tests. -/
inductive Opposite : UInt8 → UInt8 → Prop
  | eq : Opposite 0x99 0x9a
  | lt : Opposite 0x9b 0x9c
  | gt : Opposite 0x9d 0x9e
  | icmpeq : Opposite 0x9f 0xa0
  | icmplt : Opposite 0xa1 0xa2
  | icmpgt : Opposite 0xa3 0xa4
  | acmpeq : Opposite 0xa5 0xa6
  | null : Opposite 0xc6 0xc7

theorem Opposite.condition {op inverse : UInt8} (h : Opposite op inverse) (stack : List Value) :
    condition inverse stack = (condition op stack).map fun r => (!r.1, r.2) := by
  have hle : ∀ v w : Int32, decide (v ≤ w) = !decide (w < v) := by
    intro v w
    rw [← decide_not]
    exact decide_eq_decide.mpr Int32.not_lt.symm
  cases h with
  | eq => exact onInt_not _ stack
  | lt => exact (congrArg (onInt · stack) (funext fun v => hle 0 v)).trans (onInt_not _ stack)
  | gt => exact (congrArg (onInt · stack) (funext fun v => hle v 0)).trans (onInt_not _ stack)
  | icmpeq => exact onInts_not _ stack
  | icmplt =>
    have htest : (fun v w : Int32 => decide (w ≤ v)) = fun v w => !decide (v < w) :=
      funext fun v => funext fun w => hle w v
    exact (congrArg (onInts · stack) htest).trans (onInts_not _ stack)
  | icmpgt =>
    have htest : (fun v w : Int32 => decide (v ≤ w)) = fun v w => !decide (w < v) :=
      funext fun v => funext fun w => hle v w
    exact (congrArg (onInts · stack) htest).trans (onInts_not _ stack)
  | acmpeq => exact onRefs_not _ stack
  | null => exact onRef_not _ stack

/-- The inverse of a condition leaves the same stack and branches exactly when it does not. -/
theorem inverseCondition_condition {op inverse : UInt8} (h : inverseCondition op = some inverse)
    (stack : List Value) :
    condition inverse stack = (condition op stack).map fun r => (!r.1, r.2) := by
  have hpair : Opposite op inverse ∨ Opposite inverse op := by
    obtain ⟨l₁, l₂, hl, -⟩ := List.lookup_eq_some_iff.mp h
    have hmem : (op, inverse) ∈ l₁ ++ (op, inverse) :: l₂ := by simp
    rw [← hl] at hmem
    simp only [List.mem_cons, Prod.mk.injEq, List.not_mem_nil, or_false] at hmem
    rcases hmem with ⟨rfl, rfl⟩ | ⟨rfl, rfl⟩ | ⟨rfl, rfl⟩ | ⟨rfl, rfl⟩ | ⟨rfl, rfl⟩ | ⟨rfl, rfl⟩ |
      ⟨rfl, rfl⟩ | ⟨rfl, rfl⟩ | ⟨rfl, rfl⟩ | ⟨rfl, rfl⟩ | ⟨rfl, rfl⟩ | ⟨rfl, rfl⟩ | ⟨rfl, rfl⟩ |
      ⟨rfl, rfl⟩ | ⟨rfl, rfl⟩ | ⟨rfl, rfl⟩
    exacts [.inl .eq, .inr .eq, .inl .lt, .inr .lt, .inl .gt, .inr .gt, .inl .icmpeq, .inr .icmpeq,
      .inl .icmplt, .inr .icmplt, .inl .icmpgt, .inr .icmpgt, .inl .acmpeq, .inr .acmpeq,
      .inl .null, .inr .null]
  rcases hpair with hpair | hpair
  · exact hpair.condition stack
  · rw [hpair.condition stack, Option.map_map]
    simp [Function.comp_def]

/-- One branch of the code: from a position and a stack to the next. -/
inductive BranchStep (code : List UInt8) (pool : ConstantPoolView) :
    ℕ × List Value → ℕ × List Value → Prop
  | goto {pc len target : ℕ} {stack : List Value} :
    Decodes code pool pc len (.jump 0xa7 (target : ℤ)) →
      BranchStep code pool (pc, stack) (target, stack)
  | taken {pc len target : ℕ} {op : UInt8} {stack stack' : List Value} :
    Decodes code pool pc len (.jump op (target : ℤ)) → condition op stack = some (true, stack') →
      BranchStep code pool (pc, stack) (target, stack')
  | fall {pc len target : ℕ} {op : UInt8} {stack stack' : List Value} :
    Decodes code pool pc len (.jump op (target : ℤ)) → condition op stack = some (false, stack') →
      BranchStep code pool (pc, stack) (pc + len, stack')

end Krusty.Jvm
