import Krusty.Jvm.MethodNode.Encode

/-! What the decoder returns: well-formed instructions, whose targets are those of the branch
scan, named by whatever labels the caller has. -/
namespace Krusty.Jvm
open Bytes Results

section Naming

variable {L : Type} (label : ℤ → L)

theorem invokeDynamic_map (pool : SourcePool) (index : UInt16) :
    (pool.invokeDynamic index : Except MalformedCode (Insn L)) =
      Insn.map label <$> pool.invokeDynamic index := by
  unfold SourcePool.invokeDynamic
  split
  · cases pool.nameAndType _ with
    | error e => rfl
    | ok signature =>
      simp only [bind, Except.bind]
      split
      · rfl
      · cases pool.handle _ with
        | error e => rfl
        | ok handle =>
          simp only
          split <;> rfl
  · rfl

/-- Decoding names the targets and does nothing else with them. -/
theorem decode_map (code : List UInt8) (pc : ℕ) (pool : SourcePool) :
    decode code pc pool label = Insn.map label <$> decode code pc pool id := by
  unfold decode
  generalize opForm (u1 code pc) = form
  generalize u1 code pc = op
  cases form with
  | ldc | ldcWide =>
    change Insn.ldc <$> pool.constant _ = _ <$> Insn.ldc <$> pool.constant _
    cases pool.constant _ <;> rfl
  | field =>
    simp only [decodeAs]
    cases pool.field _ <;> rfl
  | method =>
    simp only [decodeAs]
    cases pool.method _ <;> rfl
  | invokeDynamic => exact invokeDynamic_map label pool _
  | type =>
    change Insn.type op <$> pool.cls _ = _ <$> Insn.type op <$> pool.cls _
    cases pool.cls _ <;> rfl
  | wide =>
    simp only [decodeAs]
    split_ifs <;> rfl
  | multiANewArray =>
    simp only [decodeAs]
    cases pool.cls _ <;> rfl
  | marker =>
    simp only [decodeAs]
    split <;> rfl
  | tableSwitch | lookupSwitch =>
    simp only [decodeAs, Functor.map, Except.map, Insn.map, List.map_map, Function.comp_id,
      id_eq]
  | _ => rfl

end Naming

/-- Which opcodes have which decoder arm, and which the branch scan finds targets for. -/
theorem opForm_class (op : UInt8) :
    (opForm op = .plain → isPlainOp op) ∧ (opForm op = .bipush → op = 0x10) ∧
      (opForm op = .sipush → op = 0x11) ∧ (opForm op = .newarray → op = 0xbc) ∧
      (opForm op = .var → isVarOp op) ∧
      (opForm op = .loadShort → isVarOp (0x15 + (op - 0x1a) / 4)) ∧
      (opForm op = .storeShort → isVarOp (0x36 + (op - 0x3b) / 4)) ∧
      (opForm op = .field → opRange 0xb2 0xb5 op) ∧ (opForm op = .method → opRange 0xb6 0xb9 op) ∧
      (opForm op = .type → op = 0xbb ∨ op = 0xbd ∨ op = 0xc0 ∨ op = 0xc1) ∧
      isJumpOpcode op = (opForm op == .branch) ∧
      (op == 0xc8 || op == 0xc9) = (opForm op == .gotoWide || opForm op == .jsrWide) ∧
      (op == 0xaa) = (opForm op == .tableSwitch) ∧ (op == 0xab) = (opForm op == .lookupSwitch) := by
  and_intros
  all_goals
    revert op
    exact forall_opcode (by decide +kernel)

section Decoded

variable {code : List UInt8} {pc : ℕ} {pool : SourcePool} {insn : Insn ℤ}

theorem invokeDynamic_inv {index : UInt16} (h : pool.invokeDynamic index = .ok insn) :
    ∃ name desc bootstrap arguments, insn = .invokeDynamic name desc bootstrap arguments := by
  unfold SourcePool.invokeDynamic at h
  split at h
  · obtain ⟨signature, -, h⟩ := bind_ok h
    dsimp only at h
    split at h
    · cases h
    · obtain ⟨handle, -, h⟩ := bind_ok h
      obtain ⟨arguments, -, h⟩ := bind_ok h
      exact ⟨_, _, _, _, (Except.ok.inj h).symm⟩
  · cases h

theorem toInt_ofInt8 (x : UInt8) : -2 ^ 7 ≤ (Int32.ofInt x.toInt8.toInt).toInt ∧
    (Int32.ofInt x.toInt8.toInt).toInt < 2 ^ 7 := by
  have hx := x.toNat_lt
  have hs : (Int32.size : ℕ) = 4294967296 := rfl
  rw [Int32.toInt_ofInt, toInt8_toInt, hs, Int.bmod_def, Int.bmod_def]
  split <;> split <;> omega

theorem toInt_ofInt16 (x : UInt16) : -2 ^ 15 ≤ (Int32.ofInt x.toInt16.toInt).toInt ∧
    (Int32.ofInt x.toInt16.toInt).toInt < 2 ^ 15 := by
  have hx := x.toNat_lt
  have hs : (Int32.size : ℕ) = 4294967296 := rfl
  rw [Int32.toInt_ofInt, toInt16_toInt, hs, Int.bmod_def, Int.bmod_def]
  split <;> split <;> omega

theorem toInt_ofNat8 (x : UInt8) : 0 ≤ (Int32.ofInt (x.toNat : ℤ)).toInt ∧
    (Int32.ofInt (x.toNat : ℤ)).toInt < 2 ^ 8 := by
  have hx := x.toNat_lt
  have hs : (Int32.size : ℕ) = 4294967296 := rfl
  rw [Int32.toInt_ofInt, hs, Int.bmod_def]
  split <;> omega

/-- What the decoder returns is an instruction of its node's family. -/
theorem decode_wellFormed (h : decode code pc pool id = .ok insn) : insn.WellFormed := by
  unfold decode at h
  have hclass := opForm_class (u1 code pc)
  generalize hform : opForm (u1 code pc) = form at h
  cases form with
  | plain =>
    obtain rfl := Except.ok.inj h
    exact hclass.1 hform
  | bipush =>
    obtain rfl := Except.ok.inj h
    exact .inl ⟨hclass.2.1 hform, toInt_ofInt8 _⟩
  | sipush =>
    obtain rfl := Except.ok.inj h
    exact .inr (.inl ⟨hclass.2.2.1 hform, toInt_ofInt16 _⟩)
  | newarray =>
    obtain rfl := Except.ok.inj h
    exact .inr (.inr ⟨hclass.2.2.2.1 hform, toInt_ofNat8 _⟩)
  | var =>
    obtain rfl := Except.ok.inj h
    exact hclass.2.2.2.2.1 hform
  | loadShort =>
    obtain rfl := Except.ok.inj h
    exact hclass.2.2.2.2.2.1 hform
  | storeShort =>
    obtain rfl := Except.ok.inj h
    exact hclass.2.2.2.2.2.2.1 hform
  | field =>
    obtain ⟨out, -, h⟩ := bind_ok h
    obtain rfl := Except.ok.inj h
    exact hclass.2.2.2.2.2.2.2.1 hform
  | method =>
    obtain ⟨out, -, h⟩ := bind_ok h
    obtain rfl := Except.ok.inj h
    exact hclass.2.2.2.2.2.2.2.2.1 hform
  | type =>
    obtain ⟨out, -, rfl⟩ := map_ok h
    exact hclass.2.2.2.2.2.2.2.2.2.1 hform
  | ldc | ldcWide =>
    obtain ⟨out, -, rfl⟩ := map_ok h
    trivial
  | invokeDynamic =>
    obtain ⟨_, _, _, _, rfl⟩ := invokeDynamic_inv h
    trivial
  | wide =>
    simp only [decodeAs] at h
    split_ifs at h with hi hv
    · obtain rfl := Except.ok.inj h
      trivial
    · obtain rfl := Except.ok.inj h
      exact hv
    · cases h
  | multiANewArray =>
    obtain ⟨out, -, h⟩ := bind_ok h
    obtain rfl := Except.ok.inj h
    trivial
  | marker =>
    simp only [decodeAs] at h
    split at h
    · obtain rfl := Except.ok.inj h
      rfl
    · cases h
  | unknown => cases h
  | iinc | branch | gotoWide | jsrWide | tableSwitch | lookupSwitch =>
    obtain rfl := Except.ok.inj h
    trivial

/-- The labels of a decoded instruction are the offsets of the branch scan. -/
theorem decode_jumpTargets (h : decode code pc pool id = .ok insn) :
    insn.jumpTargets = branchTargets code pc := by
  unfold decode at h
  obtain ⟨hj, hw, ht, hl⟩ := (opForm_class (u1 code pc)).2.2.2.2.2.2.2.2.2.2
  -- Forms without targets: the scan finds none either.
  have hnone : ∀ form, opForm (u1 code pc) = form → form ≠ .branch → form ≠ .gotoWide →
      form ≠ .jsrWide → form ≠ .tableSwitch → form ≠ .lookupSwitch → branchTargets code pc = [] := by
    intro form hf h1 h2 h3 h4 h5
    simp [branchTargets, hj, hw, ht, hl, hf, h1, h2, h3, h4, h5]
  generalize hform : opForm (u1 code pc) = form at h
  rw [hform] at hj hw ht hl
  cases form with
  | branch =>
    obtain rfl := Except.ok.inj h
    simp [branchTargets, hj, Insn.jumpTargets]
  | gotoWide | jsrWide =>
    obtain rfl := Except.ok.inj h
    simp [branchTargets, hj, hw, Insn.jumpTargets]
  | tableSwitch =>
    obtain rfl := Except.ok.inj h
    simp [branchTargets, hj, hw, ht, Insn.jumpTargets]
  | lookupSwitch =>
    obtain rfl := Except.ok.inj h
    simp [branchTargets, hj, hw, ht, hl, Insn.jumpTargets]
  | field | method | multiANewArray =>
    obtain ⟨out, -, h⟩ := bind_ok h
    obtain rfl := Except.ok.inj h
    rw [hnone _ hform (by simp) (by simp) (by simp) (by simp) (by simp)]
    rfl
  | type | ldc | ldcWide =>
    obtain ⟨out, -, rfl⟩ := map_ok h
    rw [hnone _ hform (by simp) (by simp) (by simp) (by simp) (by simp)]
    rfl
  | invokeDynamic =>
    obtain ⟨_, _, _, _, rfl⟩ := invokeDynamic_inv h
    rw [hnone _ hform (by simp) (by simp) (by simp) (by simp) (by simp)]
    rfl
  | wide =>
    rw [hnone _ hform (by simp) (by simp) (by simp) (by simp) (by simp)]
    simp only [decodeAs] at h
    split_ifs at h
    · obtain rfl := Except.ok.inj h
      rfl
    · obtain rfl := Except.ok.inj h
      rfl
    · cases h
  | marker =>
    rw [hnone _ hform (by simp) (by simp) (by simp) (by simp) (by simp)]
    simp only [decodeAs] at h
    split at h
    · obtain rfl := Except.ok.inj h
      rfl
    · cases h
  | unknown => cases h
  | plain | bipush | sipush | newarray | var | loadShort | storeShort | iinc =>
    obtain rfl := Except.ok.inj h
    rw [hnone _ hform (by simp) (by simp) (by simp) (by simp) (by simp)]
    rfl

end Decoded

end Krusty.Jvm
