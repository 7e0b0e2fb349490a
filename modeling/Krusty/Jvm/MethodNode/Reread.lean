import Krusty.Jvm.MethodNode.Decode

/-! Reading code that was moved. The reader names offsets by their order only, so code whose
instructions and tables were moved together, in order, reads as the same node. -/
namespace Krusty.Jvm
open Bytes Results

variable {marks : List ℕ}

section LabelTable

theorem mem_labelTable {o : ℕ} : o ∈ labelTable marks ↔ o ∈ marks := by
  rw [labelTable, List.mem_dedup, List.mem_insertionSort]

theorem labelTable_sorted (marks : List ℕ) : (labelTable marks).Pairwise (· < ·) := by
  have hle : (labelTable marks).Pairwise (· ≤ ·) :=
    (List.pairwise_insertionSort _ marks).sublist (List.dedup_sublist _)
  have hne : (labelTable marks).Pairwise (· ≠ ·) := List.nodup_dedup _
  exact hle.imp₂ (fun _ _ hle hne => lt_of_le_of_ne hle hne) hne

theorem idxOf_map {φ : ℕ → ℕ} {xs : List ℕ} {a : ℕ} (hinj : ∀ b ∈ xs, φ b = φ a → b = a) :
    (xs.map φ).idxOf (φ a) = xs.idxOf a := by
  induction xs with
  | nil => rfl
  | cons x xs ih =>
    rw [List.map_cons, List.idxOf_cons, List.idxOf_cons,
      ih fun b hb => hinj b (List.mem_cons_of_mem _ hb)]
    by_cases hx : x = a
    · simp [hx]
    · have hφ : φ x ≠ φ a := fun heq => hx (hinj x (List.mem_cons_self ..) heq)
      rw [beq_eq_false_iff_ne.mpr hx, beq_eq_false_iff_ne.mpr hφ]

end LabelTable

/-- `body'` is `body` moved by `φ`: each instruction and each row of the tables from an offset to
its image, in the same order. -/
structure Moved (φ : ℕ → ℕ) (body body' : CodeAttribute) (pool pool' : ConstantPoolView)
    (starts : List ℕ) : Prop where
  starts_eq : instructionStarts body'.code body'.code.length 0 = .ok (starts.map φ)
  stop_eq : φ body.code.length = body'.code.length
  mono : ∀ a ∈ starts ++ [body.code.length], ∀ b ∈ starts ++ [body.code.length],
    a < b → φ a < φ b
  decoded : ∀ pc ∈ starts, ∀ insn, decode body.code pc ⟨pool, pc⟩ id = .ok insn →
    decode body'.code (φ pc) ⟨pool', φ pc⟩ id = .ok (insn.map fun t => (φ t.toNat : ℤ))
  handlers : List.Forall₂ (fun (h h' : ExcEntry) =>
      h'.startPc.toNat = φ h.startPc.toNat ∧ h'.endPc.toNat = φ h.endPc.toNat ∧
      h'.handlerPc.toNat = φ h.handlerPc.toNat ∧
      ∀ name, catchTypeOf pool h = .ok name → catchTypeOf pool' h' = .ok name)
    body.handlers body'.handlers
  lines : ∀ pc ∈ starts, (body'.lines.filter (·.1.toNat = φ pc)).map Prod.snd =
    (body.lines.filter (·.1.toNat = pc)).map Prod.snd
  line_starts : ∀ row ∈ body'.lines, ∃ pc ∈ starts, row.1.toNat = φ pc
  locals : List.Forall₂ (fun (l l' : MethodLocal) =>
      l'.startPc.toNat = φ l.startPc.toNat ∧
      l'.startPc.toNat + l'.length.toNat = φ (l.startPc.toNat + l.length.toNat) ∧
      l'.slot = l.slot ∧ l'.name = l.name ∧ l'.descriptor = l.descriptor)
    body.locals body'.locals
  maxStack : body'.maxStack = body.maxStack
  maxLocals : body'.maxLocals = body.maxLocals

theorem mark_ok {boundaries : List ℕ} {offset : ℤ} {pos m : ℕ} {reason : String}
    (h : mark boundaries offset pos reason = .ok m) :
    0 ≤ offset ∧ m = offset.toNat ∧ m ∈ boundaries := by
  unfold mark at h
  split_ifs at h with hc
  obtain rfl := Except.ok.inj h
  exact ⟨hc.1, rfl, hc.2⟩

theorem mark_nat {boundaries : List ℕ} {offset pos : ℕ} {reason : String}
    (h : offset ∈ boundaries) : mark boundaries offset pos reason = .ok offset := by
  rw [mark, if_pos ⟨by omega, by simpa using h⟩]
  rfl

theorem instructionStarts_lt {code : List UInt8} {fuel pc : ℕ} {starts : List ℕ}
    (h : instructionStarts code fuel pc = .ok starts) : ∀ p ∈ starts, p < code.length := by
  induction fuel generalizing pc starts with
  | zero =>
    obtain rfl := Except.ok.inj h
    simp
  | succ fuel ih =>
    rw [instructionStarts] at h
    split_ifs at h with hlt hm
    · split at h
      · cases h
      · obtain ⟨rest, hrest, rfl⟩ := map_ok h
        intro p hp
        rcases List.mem_cons.mp hp with rfl | hp
        · exact hlt
        · exact ih hrest p hp
    · obtain rfl := Except.ok.inj h
      simp

theorem instructionStarts_sorted {code : List UInt8} {fuel pc : ℕ} {starts : List ℕ}
    (h : instructionStarts code fuel pc = .ok starts) :
    starts.Pairwise (· < ·) ∧ ∀ p ∈ starts, pc ≤ p := by
  induction fuel generalizing pc starts with
  | zero =>
    obtain rfl := Except.ok.inj h
    simp
  | succ fuel ih =>
    rw [instructionStarts] at h
    split_ifs at h with hlt hm
    · split at h
      · cases h
      next len hlen =>
        obtain ⟨rest, hrest, rfl⟩ := map_ok h
        obtain ⟨hsorted, hge⟩ := ih hrest
        have hpos := (instructionLen_pos (Option.filter_eq_some_iff.mp hlen).1).1
        refine ⟨List.pairwise_cons.mpr ⟨fun p hp => ?_, hsorted⟩, fun p hp => ?_⟩
        · have := hge p hp
          omega
        · rcases List.mem_cons.mp hp with rfl | hp
          · exact le_refl p
          · have := hge p hp
            omega
    · obtain rfl := Except.ok.inj h
      simp

variable {pc : ℕ}

namespace Moved

variable {φ : ℕ → ℕ} {body body' : CodeAttribute} {pool pool' : ConstantPoolView}
  {starts : List ℕ}

theorem inj (h : Moved φ body body' pool pool' starts) {a b : ℕ}
    (ha : a ∈ starts ++ [body.code.length]) (hb : b ∈ starts ++ [body.code.length])
    (heq : φ a = φ b) : a = b := by
  rcases Nat.lt_trichotomy a b with hlt | rfl | hlt
  · have := h.mono a ha b hb hlt
    omega
  · rfl
  · have := h.mono b hb a ha hlt
    omega

theorem boundaries (h : Moved φ body body' pool pool' starts) :
    starts.map φ ++ [body'.code.length] = (starts ++ [body.code.length]).map φ := by
  simp [h.stop_eq]

/-- A mark keeps its place. -/
theorem mark (h : Moved φ body body' pool pool' starts) {offset : ℤ} {pos pos' m : ℕ}
    {reason : String}
    (hm : Jvm.mark (starts ++ [body.code.length]) offset pos reason = .ok m) :
    Jvm.mark (starts.map φ ++ [body'.code.length]) (φ offset.toNat) pos' reason = .ok (φ m) := by
  obtain ⟨-, rfl, hmem⟩ := mark_ok hm
  rw [h.boundaries]
  exact mark_nat (List.mem_map_of_mem hmem)

/-- Nothing but the end moves to the end. -/
theorem ne_stop (h : Moved φ body body' pool pool' starts) {a : ℕ}
    (ha : a ∈ starts ++ [body.code.length]) (hne : a ≠ body.code.length) :
    φ a ≠ body'.code.length := by
  rw [← h.stop_eq]
  exact fun heq => hne (h.inj ha (by simp) heq)

theorem branchTargets (h : Moved φ body body' pool pool' starts) (hpc : pc ∈ starts)
    {insn : Insn ℤ} (hd : decode body.code pc ⟨pool, pc⟩ id = .ok insn) :
    Jvm.branchTargets body'.code (φ pc) =
      (Jvm.branchTargets body.code pc).map fun t => (φ t.toNat : ℤ) := by
  rw [← decode_jumpTargets hd, ← decode_jumpTargets (h.decoded pc hpc insn hd),
    Insn.jumpTargets_map]

/-- The branches of the moved code. -/
theorem branchMarks (h : Moved φ body body' pool pool' starts) (hpc : pc ∈ starts)
    {insn : Insn ℤ} (hd : decode body.code pc ⟨pool, pc⟩ id = .ok insn)
    (hm : Jvm.branchMarks body.code (starts ++ [body.code.length]) pc = .ok marks) :
    Jvm.branchMarks body'.code (starts.map φ ++ [body'.code.length]) (φ pc) =
      .ok (marks.map φ) := by
  unfold Jvm.branchMarks
  rw [h.branchTargets hpc hd]
  refine mapM_transport (R := fun t t' => t' = (φ t.toNat : ℤ)) hm ?_ ?_
  · exact List.forall₂_map_right_iff.mpr (List.forall₂_same.mpr fun _ _ => rfl)
  · rintro t _ m rfl ht
    split_ifs at ht with hstop
    obtain ⟨h0, rfl, hmem⟩ := mark_ok ht
    have hne : φ t.toNat ≠ body'.code.length := h.ne_stop hmem (by omega)
    rw [if_neg (by omega)]
    exact h.mark ht

theorem handlerMarks (h : Moved φ body body' pool pool' starts) {handler handler' : ExcEntry}
    (hs : handler'.startPc.toNat = φ handler.startPc.toNat)
    (he : handler'.endPc.toNat = φ handler.endPc.toNat)
    (hh : handler'.handlerPc.toNat = φ handler.handlerPc.toNat)
    (hm : Jvm.handlerMarks (starts ++ [body.code.length]) handler = .ok marks) :
    Jvm.handlerMarks (starts.map φ ++ [body'.code.length]) handler' = .ok (marks.map φ) := by
  refine mapM_transport (R := fun o o' : UInt16 => o'.toNat = φ o.toNat) hm ?_ ?_
  · exact .cons hs (.cons he (.cons hh .nil))
  · intro o o' m ho hmark
    rw [ho]
    exact h.mark hmark

theorem localMarks (h : Moved φ body body' pool pool' starts) {l l' : MethodLocal}
    (hs : l'.startPc.toNat = φ l.startPc.toNat)
    (he : l'.startPc.toNat + l'.length.toNat = φ (l.startPc.toNat + l.length.toNat)) (hm : Jvm.localMarks (starts ++ [body.code.length]) l = .ok marks) :
    Jvm.localMarks (starts.map φ ++ [body'.code.length]) l' = .ok (marks.map φ) := by
  refine mapM_transport (R := fun o o' : ℕ => o' = φ o) hm ?_ ?_
  · exact .cons hs (.cons he .nil)
  · rintro o _ m rfl hmark
    exact h.mark hmark

/-- The line marks of the moved code, as a set: the rows may come in another order. -/
theorem lineMarks (h : Moved φ body body' pool pool' starts)
    (hlt : ∀ pc ∈ starts, pc < body.code.length)
    (hm : body.lines.mapM (lineMark body.code.length (starts ++ [body.code.length])) = .ok marks) :
    ∃ marks', body'.lines.mapM (lineMark body'.code.length (starts.map φ ++ [body'.code.length])) =
        .ok marks' ∧
      ∀ o, o ∈ marks' ↔ ∃ m ∈ marks, o = φ m := by
  have hold : ∀ {line m}, lineMark body.code.length (starts ++ [body.code.length]) line = .ok m →
      m = line.1.toNat ∧ line.1.toNat ∈ starts := by
    intro line m hline
    unfold lineMark at hline
    split_ifs at hline with hstop
    obtain ⟨-, rfl, hmem⟩ := mark_ok hline
    simpa [hstop] using hmem
  have hmarks : marks = body.lines.map (·.1.toNat) :=
    eq_map_of_mapM hm fun _ _ hline => (hold hline).1
  refine ⟨body'.lines.map (·.1.toNat), ?_, ?_⟩
  · refine mapM_ok.mpr (List.forall₂_map_right_iff.mpr (List.forall₂_same.mpr fun row hrow => ?_))
    obtain ⟨pc, hpc, hrow⟩ := h.line_starts row hrow
    have hmem : pc ∈ starts ++ [body.code.length] := List.mem_append_left _ hpc
    have hne := h.ne_stop hmem (Nat.ne_of_lt (hlt pc hpc))
    rw [lineMark, if_neg (by rw [hrow]; exact hne), h.boundaries]
    exact mark_nat (hrow ▸ List.mem_map_of_mem hmem)
  · intro o
    rw [hmarks]
    simp only [List.mem_map, exists_exists_and_eq_and]
    constructor
    · rintro ⟨row, hrow, rfl⟩
      obtain ⟨pc, hpc, hpos⟩ := h.line_starts row hrow
      have hmem : row.2 ∈ (body'.lines.filter (·.1.toNat = φ pc)).map Prod.snd :=
        List.mem_map_of_mem (List.mem_filter.mpr ⟨hrow, by simpa using hpos⟩)
      rw [h.lines pc hpc] at hmem
      obtain ⟨line, hline, -⟩ := List.mem_map.mp hmem
      obtain ⟨hline, heq⟩ := List.mem_filter.mp hline
      exact ⟨line, hline, by rw [hpos, of_decide_eq_true heq]⟩
    · rintro ⟨line, hline, rfl⟩
      obtain ⟨m, -, hmark⟩ := mapM_ok_of_mem hm hline
      obtain ⟨-, hpc⟩ := hold hmark
      have hmem : line.2 ∈ (body.lines.filter (·.1.toNat = line.1.toNat)).map Prod.snd :=
        List.mem_map_of_mem (List.mem_filter.mpr ⟨hline, by simp⟩)
      rw [← h.lines _ hpc] at hmem
      obtain ⟨row, hrow, -⟩ := List.mem_map.mp hmem
      obtain ⟨hrow, heq⟩ := List.mem_filter.mp hrow
      exact ⟨row, hrow, of_decide_eq_true heq⟩

/-- The offsets named by the moved code are the images of those named before. -/
theorem markedOffsets (h : Moved φ body body' pool pool' starts)
    (hdec : ∀ pc ∈ starts, ∃ insn, decode body.code pc ⟨pool, pc⟩ id = .ok insn)
    (hlt : ∀ pc ∈ starts, pc < body.code.length)
    (hm : Jvm.markedOffsets body starts = .ok marks) :
    ∃ marks', Jvm.markedOffsets body' (starts.map φ) = .ok marks' ∧
      ∀ o, o ∈ marks' ↔ ∃ m ∈ marks, o = φ m := by
  obtain ⟨branches, hb, hm⟩ := bind_ok hm
  obtain ⟨handlers, hh, hm⟩ := bind_ok hm
  obtain ⟨lines, hl, hm⟩ := bind_ok hm
  obtain ⟨locals, hv, hm⟩ := bind_ok hm
  obtain rfl := Except.ok.inj hm
  have hb' : (starts.map φ).mapM
      (Jvm.branchMarks body'.code (starts.map φ ++ [body'.code.length])) =
        .ok (branches.map (·.map φ)) := by
    refine mapM_transport (R := fun pc pc' => pc ∈ starts ∧ pc' = φ pc) hb ?_ ?_
    · exact List.forall₂_map_right_iff.mpr (List.forall₂_same.mpr fun pc hpc => ⟨hpc, rfl⟩)
    · rintro pc _ marks ⟨hpc, rfl⟩ hmarks
      obtain ⟨insn, hd⟩ := hdec pc hpc
      exact h.branchMarks hpc hd hmarks
  have hh' := mapM_transport (r := fun marks : List ℕ => marks.map φ) hh h.handlers
    fun handler handler' marks hr hmarks => h.handlerMarks hr.1 hr.2.1 hr.2.2.1 hmarks
  obtain ⟨lines', hl', hlines⟩ := h.lineMarks hlt hl
  have hv' := mapM_transport (r := fun marks : List ℕ => marks.map φ) hv h.locals
    fun l l' marks hr hmarks => h.localMarks hr.1 hr.2.1 hmarks
  refine ⟨_, by rw [Jvm.markedOffsets, hb', hh', hl', hv']; rfl, ?_⟩
  intro o
  simp only [List.mem_append, hlines, ← List.map_flatten, List.mem_map]
  constructor
  · rintro (((⟨m, hm, rfl⟩ | ⟨m, hm, rfl⟩) | ⟨m, hm, rfl⟩) | ⟨m, hm, rfl⟩)
    exacts [⟨m, .inl (.inl (.inl hm)), rfl⟩, ⟨m, .inl (.inl (.inr hm)), rfl⟩,
      ⟨m, .inl (.inr hm), rfl⟩, ⟨m, .inr hm, rfl⟩]
  · rintro ⟨m, ((hm | hm) | hm) | hm, rfl⟩
    exacts [.inl (.inl (.inl ⟨m, hm, rfl⟩)), .inl (.inl (.inr ⟨m, hm, rfl⟩)),
      .inl (.inr ⟨m, hm, rfl⟩), .inr ⟨m, hm, rfl⟩]

end Moved

/-- The stages of a reading. -/
structure Reading (access : UInt16) (name desc : String) (body : CodeAttribute)
    (pool : ConstantPoolView) (node : MethodNode) (starts marks : List ℕ)
    (chunks : List (List Node)) (blocks : List TryCatchBlock) : Prop where
  starts_eq : instructionStarts body.code body.code.length 0 = .ok starts
  marks_eq : markedOffsets body starts = .ok marks
  chunks_eq : starts.mapM (nodesAt body pool (labelTable marks)) = .ok chunks
  blocks_eq : body.handlers.mapM (blockOf pool (labelTable marks)) = .ok blocks
  node_eq : node =
    { access, name, desc
      nodes := chunks.flatten ++ endNodes body (labelTable marks)
      tryCatchBlocks := blocks
      localVariables := body.locals.map (localOf (labelTable marks))
      maxStack := body.maxStack
      maxLocals := body.maxLocals
      labelCount := (labelTable marks).length }

section Reading

variable {access : UInt16} {name desc : String} {body body' : CodeAttribute}
  {pool pool' : ConstantPoolView} {node : MethodNode}

theorem readCode_ok : MethodNode.readCode access name desc body pool = .ok node ↔
    ∃ starts marks chunks blocks,
      Reading access name desc body pool node starts marks chunks blocks := by
  constructor
  · intro h
    obtain ⟨starts, hs, h⟩ := bind_ok h
    obtain ⟨marks, hm, h⟩ := bind_ok h
    obtain ⟨chunks, hc, h⟩ := bind_ok h
    obtain ⟨blocks, hb, h⟩ := bind_ok h
    exact ⟨starts, marks, chunks, blocks, hs, hm, hc, hb, (Except.ok.inj h).symm⟩
  · rintro ⟨starts, marks, chunks, blocks, hs, hm, hc, hb, rfl⟩
    simp only [MethodNode.readCode, hs, hm, hc, hb, bind, Except.bind]

variable {starts marks : List ℕ}

/-- The offsets a reading names are instruction boundaries. -/
theorem markedOffsets_mem (h : markedOffsets body starts = .ok marks) :
    ∀ m ∈ marks, m ∈ starts ++ [body.code.length] := by
  obtain ⟨branches, hb, h⟩ := bind_ok h
  obtain ⟨handlers, hh, h⟩ := bind_ok h
  obtain ⟨lines, hl, h⟩ := bind_ok h
  obtain ⟨locals, hv, h⟩ := bind_ok h
  obtain rfl := Except.ok.inj h
  intro m hmem
  simp only [List.mem_append, List.mem_flatten] at hmem
  rcases hmem with ((⟨ms, hms, hm⟩ | ⟨ms, hms, hm⟩) | hm) | ⟨ms, hms, hm⟩
  · obtain ⟨pc, -, hpc⟩ := exists_of_mem_mapM hb hms
    obtain ⟨t, -, ht⟩ := exists_of_mem_mapM hpc hm
    split_ifs at ht
    exact (mark_ok ht).2.2
  · obtain ⟨handler, -, hpc⟩ := exists_of_mem_mapM hh hms
    obtain ⟨o, -, ho⟩ := exists_of_mem_mapM hpc hm
    exact (mark_ok ho).2.2
  · obtain ⟨line, -, hline⟩ := exists_of_mem_mapM hl hm
    unfold lineMark at hline
    split_ifs at hline
    exact (mark_ok hline).2.2
  · obtain ⟨l, -, hpc⟩ := exists_of_mem_mapM hv hms
    obtain ⟨o, -, ho⟩ := exists_of_mem_mapM hpc hm
    exact (mark_ok ho).2.2

/-- The offsets a reading's handlers and locals name. -/
theorem handler_mem (h : markedOffsets body starts = .ok marks)
    {handler : ExcEntry} (hh : handler ∈ body.handlers) :
    handler.startPc.toNat ∈ marks ∧ handler.endPc.toNat ∈ marks ∧
      handler.handlerPc.toNat ∈ marks := by
  obtain ⟨branches, -, h⟩ := bind_ok h
  obtain ⟨handlers, hmarks, h⟩ := bind_ok h
  obtain ⟨lines, -, h⟩ := bind_ok h
  obtain ⟨locals, -, h⟩ := bind_ok h
  obtain rfl := Except.ok.inj h
  obtain ⟨ms, hmem, hms⟩ := mapM_ok_of_mem hmarks hh
  have hall : ∀ o ∈ [handler.startPc, handler.endPc, handler.handlerPc],
      o.toNat ∈ branches.flatten ++ handlers.flatten ++ lines ++ locals.flatten := by
    intro o ho
    obtain ⟨m, hm, hmark⟩ := mapM_ok_of_mem hms ho
    obtain ⟨-, rfl, -⟩ := mark_ok hmark
    simp only [List.mem_append, List.mem_flatten]
    exact .inl (.inl (.inr ⟨ms, hmem, hm⟩))
  exact ⟨hall _ (by simp), hall _ (by simp), hall _ (by simp)⟩

theorem local_mem (h : markedOffsets body starts = .ok marks) {l : MethodLocal} (hl : l ∈ body.locals) :
    l.startPc.toNat ∈ marks ∧ l.startPc.toNat + l.length.toNat ∈ marks := by
  obtain ⟨branches, -, h⟩ := bind_ok h
  obtain ⟨handlers, -, h⟩ := bind_ok h
  obtain ⟨lines, -, h⟩ := bind_ok h
  obtain ⟨locals, hmarks, h⟩ := bind_ok h
  obtain rfl := Except.ok.inj h
  obtain ⟨ms, hmem, hms⟩ := mapM_ok_of_mem hmarks hl
  have hall : ∀ o ∈ [l.startPc.toNat, l.startPc.toNat + l.length.toNat],
      o ∈ branches.flatten ++ handlers.flatten ++ lines ++ locals.flatten := by
    intro o ho
    obtain ⟨m, hm, hmark⟩ := mapM_ok_of_mem hms ho
    obtain ⟨-, rfl, -⟩ := mark_ok hmark
    simp only [List.mem_append, List.mem_flatten]
    exact .inr ⟨ms, hmem, hm⟩
  exact ⟨hall _ (by simp), hall _ (by simp)⟩

theorem line_mem (h : markedOffsets body starts = .ok marks) {line : UInt16 × UInt16} (hl : line ∈ body.lines) :
    line.1.toNat ∈ marks ∧ line.1.toNat ≠ body.code.length := by
  obtain ⟨branches, -, h⟩ := bind_ok h
  obtain ⟨handlers, -, h⟩ := bind_ok h
  obtain ⟨lines, hmarks, h⟩ := bind_ok h
  obtain ⟨locals, -, h⟩ := bind_ok h
  obtain rfl := Except.ok.inj h
  obtain ⟨m, hm, hmark⟩ := mapM_ok_of_mem hmarks hl
  unfold lineMark at hmark
  split_ifs at hmark with hstop
  obtain ⟨-, rfl, -⟩ := mark_ok hmark
  simp only [List.mem_append, List.mem_flatten]
  exact ⟨.inl (.inr hm), hstop⟩

/-- The targets of a branch are offsets the reading names. -/
theorem target_mem (h : markedOffsets body starts = .ok marks)
    (hpc : pc ∈ starts) {t : ℤ} (ht : t ∈ branchTargets body.code pc) : t.toNat ∈ marks := by
  obtain ⟨branches, hmarks, h⟩ := bind_ok h
  obtain ⟨handlers, -, h⟩ := bind_ok h
  obtain ⟨lines, -, h⟩ := bind_ok h
  obtain ⟨locals, -, h⟩ := bind_ok h
  obtain rfl := Except.ok.inj h
  obtain ⟨ms, hbranch, hms⟩ := mapM_ok_of_mem hmarks hpc
  obtain ⟨m, hm, hmark⟩ := mapM_ok_of_mem hms ht
  split_ifs at hmark
  obtain ⟨-, rfl, -⟩ := mark_ok hmark
  simp only [List.mem_append, List.mem_flatten]
  exact .inl (.inl (.inl ⟨ms, hbranch, hm⟩))

theorem nodesAt_ok {table : List ℕ} {chunk : List Node} (h : nodesAt body pool table pc = .ok chunk) :
    ∃ insn : Insn ℤ, decode body.code pc ⟨pool, pc⟩ id = .ok insn ∧
      chunk = labelNodes table body.lines pc ++
        [.insn (insn.map fun offset => labelAt table offset.toNat)] := by
  obtain ⟨insn, hd, h⟩ := bind_ok h
  rw [decode_map] at hd
  obtain ⟨raw, hraw, rfl⟩ := map_ok hd
  exact ⟨raw, hraw, (Except.ok.inj h).symm⟩

variable {φ : ℕ → ℕ} {starts marks : List ℕ}

theorem Moved.labelAt (hmoved : Moved φ body body' pool pool' starts)
    (hmem : ∀ m ∈ marks, m ∈ starts ++ [body.code.length]) {p : ℕ}
    (hp : p ∈ starts ++ [body.code.length]) :
    Jvm.labelAt ((labelTable marks).map φ) (φ p) = Jvm.labelAt (labelTable marks) p := by
  refine congrArg LabelId.mk (idxOf_map fun b hb heq => ?_)
  exact hmoved.inj (hmem b (mem_labelTable.mp hb)) hp heq

theorem Moved.mem_table (hmoved : Moved φ body body' pool pool' starts)
    (hmem : ∀ m ∈ marks, m ∈ starts ++ [body.code.length]) {p : ℕ}
    (hp : p ∈ starts ++ [body.code.length]) :
    φ p ∈ (labelTable marks).map φ ↔ p ∈ labelTable marks := by
  constructor
  · intro h
    obtain ⟨m, hm, heq⟩ := List.mem_map.mp h
    rwa [← hmoved.inj (hmem m (mem_labelTable.mp hm)) hp heq]
  · exact List.mem_map_of_mem

/-- The nodes before an instruction keep their labels and their lines. -/
theorem Moved.labelNodes (hmoved : Moved φ body body' pool pool' starts)
    (hmem : ∀ m ∈ marks, m ∈ starts ++ [body.code.length]) (hpc : pc ∈ starts) :
    Jvm.labelNodes ((labelTable marks).map φ) body'.lines (φ pc) =
      Jvm.labelNodes (labelTable marks) body.lines pc := by
  have hp : pc ∈ starts ++ [body.code.length] := List.mem_append_left _ hpc
  have hlines : ∀ (l : LabelId) (lines : List (UInt16 × UInt16)),
      (lines.map fun line => Node.line line.2 l) =
        (lines.map Prod.snd).map fun line => Node.line line l := by
    intro l lines
    rw [List.map_map]
    rfl
  unfold Jvm.labelNodes
  rw [hmoved.labelAt hmem hp, hlines, hlines, hmoved.lines pc hpc]
  by_cases htable : pc ∈ labelTable marks
  · rw [if_pos ((hmoved.mem_table hmem hp).mpr htable), if_pos htable]
  · rw [if_neg (mt (hmoved.mem_table hmem hp).mp htable), if_neg htable]

theorem Moved.endNodes (hmoved : Moved φ body body' pool pool' starts)
    (hmem : ∀ m ∈ marks, m ∈ starts ++ [body.code.length]) :
    Jvm.endNodes body' ((labelTable marks).map φ) = Jvm.endNodes body (labelTable marks) := by
  have hp : body.code.length ∈ starts ++ [body.code.length] := by simp
  unfold Jvm.endNodes
  rw [← hmoved.stop_eq, hmoved.labelAt hmem hp]
  by_cases htable : body.code.length ∈ labelTable marks
  · rw [if_pos ((hmoved.mem_table hmem hp).mpr htable), if_pos htable]
  · rw [if_neg (mt (hmoved.mem_table hmem hp).mp htable), if_neg htable]

/-- The label table of the moved code is the image of the one before. -/
theorem Moved.labelTable (hmoved : Moved φ body body' pool pool' starts)
    (hmem : ∀ m ∈ marks, m ∈ starts ++ [body.code.length]) {marks' : List ℕ}
    (h : ∀ o, o ∈ marks' ↔ ∃ m ∈ marks, o = φ m) :
    Jvm.labelTable marks' = (Jvm.labelTable marks).map φ := by
  refine (labelTable_sorted marks').eq_of_mem_iff ?_ fun o => ?_
  · refine List.pairwise_map.mpr ((labelTable_sorted marks).imp_of_mem ?_)
    intro a b ha hb hab
    exact hmoved.mono a (hmem a (mem_labelTable.mp ha)) b (hmem b (mem_labelTable.mp hb)) hab
  · rw [mem_labelTable, h, List.mem_map]
    exact exists_congr fun m => and_congr mem_labelTable.symm eq_comm

/-- Code moved with its tables reads as the same node. -/
theorem readCode_moved {chunks : List (List Node)} {blocks : List TryCatchBlock}
    (h : Reading access name desc body pool node starts marks chunks blocks)
    (hmoved : Moved φ body body' pool pool' starts) :
    MethodNode.readCode access name desc body' pool' = .ok node := by
  have hmem := markedOffsets_mem h.marks_eq
  have hdec : ∀ pc ∈ starts, ∃ insn, decode body.code pc ⟨pool, pc⟩ id = .ok insn := by
    intro pc hpc
    obtain ⟨chunk, -, hchunk⟩ := mapM_ok_of_mem h.chunks_eq hpc
    obtain ⟨insn, hd, -⟩ := nodesAt_ok hchunk
    exact ⟨insn, hd⟩
  obtain ⟨marks', hmarks', himage⟩ :=
    hmoved.markedOffsets hdec (instructionStarts_lt h.starts_eq) h.marks_eq
  have htable := hmoved.labelTable hmem himage
  refine readCode_ok.mpr ⟨starts.map φ, marks', chunks, blocks, hmoved.starts_eq, hmarks', ?_, ?_, ?_⟩
  · rw [htable, ← List.map_id chunks]
    refine mapM_transport (R := fun pc pc' => pc ∈ starts ∧ pc' = φ pc) h.chunks_eq ?_ ?_
    · exact List.forall₂_map_right_iff.mpr (List.forall₂_same.mpr fun pc hpc => ⟨hpc, rfl⟩)
    · rintro pc _ chunk ⟨hpc, rfl⟩ hchunk
      obtain ⟨insn, hd, rfl⟩ := nodesAt_ok hchunk
      have hd' := hmoved.decoded pc hpc insn hd
      have hnames : (insn.map fun t => (φ t.toNat : ℤ)).map
          (fun offset => labelAt ((Jvm.labelTable marks).map φ) offset.toNat) =
          insn.map fun offset => labelAt (Jvm.labelTable marks) offset.toNat := by
        rw [Insn.map_map]
        refine Insn.map_congr fun t ht => ?_
        rw [decode_jumpTargets hd] at ht
        exact hmoved.labelAt hmem (hmem _ (target_mem h.marks_eq hpc ht))
      rw [nodesAt, decode_map, hd', hmoved.labelNodes hmem hpc]
      change Except.ok (_ ++ [Node.insn ((insn.map fun t => (φ t.toNat : ℤ)).map _)]) = _
      rw [hnames]
      rfl
  · rw [htable, ← List.map_id blocks]
    refine mapM_transport h.blocks_eq
      ((List.forall₂_and_left _ _).mpr ⟨fun _ hh => hh, hmoved.handlers⟩) ?_
    rintro handler handler' block ⟨hh, hs, he, hc, hname⟩ hblock
    obtain ⟨m1, m2, m3⟩ := handler_mem h.marks_eq hh
    obtain ⟨catchType, hcatch, hblock⟩ := bind_ok hblock
    obtain rfl := Except.ok.inj hblock
    rw [blockOf, hname catchType hcatch, hs, he, hc, hmoved.labelAt hmem (hmem _ m1),
      hmoved.labelAt hmem (hmem _ m2), hmoved.labelAt hmem (hmem _ m3)]
    rfl
  · rw [h.node_eq, htable, hmoved.endNodes hmem, hmoved.maxStack, hmoved.maxLocals,
      List.length_map]
    have hrows := (List.forall₂_and_left _ _).mpr ⟨fun l (hl : l ∈ body.locals) => hl, hmoved.locals⟩
    have hlocals : List.Forall₂ (· = ·) (body.locals.map (localOf (Jvm.labelTable marks)))
        (body'.locals.map (localOf ((Jvm.labelTable marks).map φ))) := by
      refine List.forall₂_map_left_iff.mpr (List.forall₂_map_right_iff.mpr (hrows.imp ?_))
      rintro l l' ⟨hl, hs, he, hslot, hname, hdesc⟩
      obtain ⟨m1, m2⟩ := local_mem h.marks_eq hl
      rw [localOf, localOf, he, hs, hslot, hname, hdesc, hmoved.labelAt hmem (hmem _ m1),
        hmoved.labelAt hmem (hmem _ m2)]
    rw [List.forall₂_eq_eq_eq] at hlocals
    rw [hlocals]

end Reading

end Krusty.Jvm
