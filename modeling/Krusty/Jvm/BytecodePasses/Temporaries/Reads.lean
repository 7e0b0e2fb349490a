import Krusty.Jvm.BytecodePasses.Temporaries.LeastFixpoint

/-! What the loads of a method read on its runs, and that the analysis lists it. -/
namespace Krusty.Jvm.BytecodePasses.Temporaries

open Dataflow

/-- What a local holds on a run: what it held at entry, the value a store wrote, the second word of one, or
what an increment left. -/
inductive Cell where
  | initial
  | value (store : ℕ)
  | upper (store : ℕ)
  | increment (index : ℕ)

def opOf (method : MethodNode) (index : ℕ) : Option VarOp := (method.instructions[index]?).bind varOp

/-- The locals after an instruction. -/
def written (op : Option VarOp) (index : ℕ) (cells : ℕ → Cell) : ℕ → Cell :=
  match op with
  | some (.store kind slot) =>
    let cells := if kind.words = 2 then Function.update cells (slot + 1) (.upper index) else cells
    Function.update cells slot (.value index)
  | some (.iinc slot) => Function.update cells slot (.increment index)
  | _ => cells

/-- Before instruction `i` the locals can hold these cells, on a path from the method's entry. Along an
exceptional edge they stand as before the instruction that throws or as after it. -/
inductive Holds (method : MethodNode) : ℕ → (ℕ → Cell) → Prop where
  | entry : Holds method 0 fun _ => .initial
  | next {i j : ℕ} {cells : ℕ → Cell} (h : Holds method i cells) (edge : method.Continues i j) :
      Holds method j (written (opOf method i) i cells)
  | thrown {i j : ℕ} {cells : ℕ → Cell} (h : Holds method i cells) (edge : method.Throws i j) :
      Holds method j cells
  | thrownAfter {i j : ℕ} {cells : ℕ → Cell} (h : Holds method i cells) (edge : method.Throws i j) :
      Holds method j (written (opOf method i) i cells)

/-- What the analysis says of a local is true of what it holds. -/
def Contents.Describes (candidate : ℕ → Bool) : Contents → Cell → Prop
  | unknown, cell => ∀ store, candidate store = true → cell ≠ .value store
  | only store, cell => cell = .value store
  | among stores, cell => ∀ store, candidate store = true → cell = .value store → store ∈ stores

theorem Contents.Describes.mono {candidate : ℕ → Bool} {a b : Contents} {cell : Cell}
    (h : a.Describes candidate cell) (hle : a.Le b) : b.Describes candidate cell := by
  obtain rfl | ⟨S, rfl, hsub⟩ := hle
  · exact h
  · intro store hcandidate hcell
    cases a with
    | unknown => exact absurd hcell (h store hcandidate)
    | only other =>
      have h : cell = .value other := h
      rw [h] at hcell
      cases hcell
      exact hsub (Finset.mem_singleton_self _)
    | among T => exact hsub (h store hcandidate hcell)

/-- The task is about this method. -/
structure Task.Of (task : Task) (method : MethodNode) : Prop where
  models : task.graph.Models method
  fits : Fixpoint.Fits task
  stores : ∀ index, task.candidate index = true → isStore task.graph index = true

variable {index : ℕ}

section Prepared

theorem excludeInitializer_le (g : InstructionGraph) (method : MethodNode) (slot index : ℕ) :
    ∀ (start : ℕ) (candidate : ℕ → Bool), excludeInitializer g method slot start candidate index = true →
      candidate index = true := by
  intro start
  induction start with
  | zero => exact fun _ h => h
  | succ start ih =>
    intro candidate h
    unfold excludeInitializer at h
    split_ifs at h with hstore hstop
    · by_cases heq : index = start
      · simp [heq] at h
      · rwa [Function.update_of_ne heq] at h
    · exact h
    · exact ih candidate h

theorem excludeNamed_le (g : InstructionGraph) (method : MethodNode) (index : ℕ) (entry : Named)
    (candidate : ℕ → Bool) (h : excludeNamed g method candidate entry index = true) : candidate index = true := by
  have h := excludeInitializer_le g method entry.slot index entry.start _ h
  split_ifs at h
  exact h

theorem excludeBefore_le (g : InstructionGraph) (index : ℕ) : ∀ (start : ℕ) (candidate : ℕ → Bool),
    excludeBefore g start candidate index = true → candidate index = true := by
  intro start
  induction start with
  | zero => exact fun _ h => h
  | succ start ih =>
    intro candidate h
    unfold excludeBefore at h
    split_ifs at h
    · have h := ih _ h
      by_cases heq : index = start
      · simp [heq] at h
      · rwa [Function.update_of_ne heq] at h
    · exact h

theorem excludeCatch_le (g : InstructionGraph) (index : ℕ) (block : TryCatchBlock) {before after : ℕ → Bool}
    (hcatch : excludeCatch g before block = some after) (h : after index = true) : before index = true := by
  obtain ⟨handler, -, hcatch⟩ := Option.bind_eq_some_iff.mp hcatch
  obtain ⟨start, -, hcatch⟩ := Option.bind_eq_some_iff.mp hcatch
  split_ifs at hcatch
  split at hcatch
  · obtain rfl := Option.some.inj hcatch
    have h := excludeBefore_le g index start _ h
    by_cases heq : index = handler
    · simp [heq] at h
    · rwa [Function.update_of_ne heq] at h
  · cases hcatch

theorem le_foldl_max (values : List ℕ) : ∀ start, start ≤ values.foldl max start ∧
    ∀ value ∈ values, value ≤ values.foldl max start := by
  induction values with
  | nil => simp
  | cons head values ih =>
    intro start
    obtain ⟨hstart, hall⟩ := ih (max start head)
    refine ⟨(Nat.le_max_left _ _).trans hstart, ?_⟩
    intro value hmem
    rcases List.mem_cons.mp hmem with rfl | hmem
    · exact (Nat.le_max_right _ _).trans hstart
    · exact hall value hmem

theorem opAt_lt {g : InstructionGraph} {op : VarOp} (h : opAt g index = some op) : index < g.len := by
  obtain ⟨insn, hinsn, -⟩ := Option.bind_eq_some_iff.mp h
  obtain ⟨position, hposition, -⟩ := Option.bind_eq_some_iff.mp hinsn
  exact (List.getElem?_eq_some_iff.mp hposition).1

theorem slotEnd_le_slotCount {g : InstructionGraph} {op : VarOp} (h : opAt g index = some op) :
    slotEnd g index ≤ slotCount g :=
  (le_foldl_max _ 0).2 _ (List.mem_map_of_mem (List.mem_range.mpr (opAt_lt h)))

theorem overridesAt_plain {task : Task} (hwidth : slotCount task.graph ≤ task.width) : Fixpoint.Fits task := by
  intro index
  unfold Fixpoint.overridesAt Fixpoint.opAt
  have hend : ∀ op, opAt task.graph index = some op → slotEnd task.graph index ≤ slotCount task.graph :=
    fun _ => slotEnd_le_slotCount
  cases hop : opAt task.graph index with
  | none => exact .nil _
  | some op =>
    have hend := hend op hop
    unfold slotEnd at hend
    rw [hop] at hend
    cases op with
    | load kind slot => exact .nil _
    | store kind slot =>
      dsimp only at hend ⊢
      have hheld : ∀ held, held = (if task.candidate index then Held.store index else .unknown) → held.In [] := by
        rintro held rfl
        split <;> trivial
      split_ifs with hcandidate hwide hwide
      all_goals
        refine ⟨by simp, ?_, ?_⟩
        · intro override hmem
          have hwords : 1 ≤ kind.words := by cases kind <;> decide
          simp only [List.mem_cons, List.not_mem_nil, or_false] at hmem
          rcases hmem with rfl | rfl
          all_goals dsimp only
          all_goals omega
        · intro override hmem
          simp only [List.mem_cons, List.not_mem_nil, or_false] at hmem
          rcases hmem with rfl | rfl
          all_goals trivial
    | iinc slot =>
      refine ⟨by simp, ?_, ?_⟩
      · intro override hmem
        rw [List.mem_singleton.mp hmem]
        exact (Nat.lt_of_succ_le hend).trans_le hwidth
      · intro override hmem
        rw [List.mem_singleton.mp hmem]
        trivial

theorem prepare_of {method : MethodNode} {task : Task} (h : prepare method = .ok task) : task.Of method := by
  unfold prepare at h
  split at h
  · cases h
  · next g hbuild =>
    split_ifs at h
    split at h
    · cases h
    · next named _ =>
      split at h
      · cases h
      · next candidate hcandidate =>
        dsimp only at h
        split_ifs at h
        obtain rfl := Except.ok.inj h
        refine ⟨InstructionGraph.build_models hbuild, overridesAt_plain (Nat.le_max_left _ _), ?_⟩
        intro index hindex
        have hcatch : ∀ (blocks : List TryCatchBlock) (before : ℕ → Bool),
            blocks.foldlM (excludeCatch g) before = some candidate → before index = true := by
          intro blocks
          induction blocks with
          | nil =>
            intro before hsome
            obtain rfl := Option.some.inj hsome
            exact hindex
          | cons block blocks ih =>
            intro before hsome
            rw [List.foldlM_cons] at hsome
            obtain ⟨after, hafter, hsome⟩ := Option.bind_eq_some_iff.mp hsome
            exact excludeCatch_le g index block hafter (ih after hsome)
        have hnamed : ∀ (entries : List Named) (before : ℕ → Bool),
            entries.foldl (excludeNamed g method) before index = true → before index = true := by
          intro entries
          induction entries with
          | nil => exact fun _ hb => hb
          | cons entry entries ih => exact fun before hb => excludeNamed_le g method index entry before (ih _ hb)
        exact hnamed named _ (hcatch method.tryCatchBlocks _ hcandidate)

end Prepared

section Runs

variable {task : Task} {method : MethodNode}

theorem Task.Of.opAt (h : task.Of method) (index : ℕ) : Fixpoint.opAt task index = opOf method index := by
  unfold Fixpoint.opAt Temporaries.opAt opOf
  rw [h.models.insn]

/-- What the overrides of an instruction say is what it writes. -/
theorem Task.Of.describes (h : task.Of method) {f : Slots} {cells : ℕ → Cell}
    (hcells : ∀ slot, (f slot).Describes task.candidate (cells slot)) (slot : ℕ) :
    (overridden (Fixpoint.overridesAt task index) f slot).Describes task.candidate
      (written (opOf method index) index cells slot) := by
  unfold overridden Fixpoint.overridesAt written
  rw [← h.opAt]
  cases hat : Fixpoint.opAt task index with
  | none => exact hcells slot
  | some op =>
    cases op with
    | load kind at' => exact hcells slot
    | iinc at' =>
      by_cases hslot : at' = slot
      · subst hslot
        simp [DirtySets.view, Contents.Describes]
      · have hskip : (at' == slot) = false := by simpa using hslot
        simpa [hskip, Function.update_of_ne (Ne.symm hslot)] using hcells slot
    | store kind at' =>
      by_cases hslot : at' = slot
      · subst hslot
        cases hcandidate : task.candidate index with
        | true => simp [DirtySets.view, Contents.Describes]
        | false =>
          simp only [List.find?_cons, beq_self_eq_true, Function.update_self, Bool.false_eq_true, if_false]
          intro store hstore heq
          cases heq
          rw [hcandidate] at hstore
          cases hstore
      · have hskip : (at' == slot) = false := by simpa using hslot
        by_cases hwide : kind.words = 2
        · by_cases hupper : at' + 1 = slot
          · subst hupper
            simp [hwide, DirtySets.view, Contents.Describes]
          · have hskip' : (at' + 1 == slot) = false := by simpa using hupper
            simpa [hskip, hskip', hwide, Function.update_of_ne (Ne.symm hslot),
              Function.update_of_ne (Ne.symm hupper)] using hcells slot
        · simpa [hskip, hwide, Function.update_of_ne (Ne.symm hslot)] using hcells slot

/-- On every run the locals hold what a closed assignment says. -/
theorem Holds.described (h : task.Of method) {a : Assignment Slots} (ha : Closed (Fixpoint.flow task) a)
    {cells : ℕ → Cell} (hrun : Holds method index cells) :
    ∃ f, a index = some f ∧ ∀ slot, (f slot).Describes task.candidate (cells slot) := by
  have hedge : ∀ {i j : ℕ} {f : Slots} {cells' : ℕ → Cell} {overrides : List (ℕ × Held)},
      a i = some f → (j, overrides) ∈ Fixpoint.edgesAt task i →
      (∀ slot, (overridden overrides f slot).Describes task.candidate (cells' slot)) →
      ∃ g, a j = some g ∧ ∀ slot, (g slot).Describes task.candidate (cells' slot) := by
    intro i j f cells' overrides hf hmem hcells
    obtain ⟨hsucc, -⟩ := Fixpoint.edgesAt_overrides hmem
    have hindex : i < task.graph.len := by
      rcases List.mem_append.mp hsucc with hsucc | hsucc
      · obtain ⟨insn, hat, -⟩ := (h.models.normal i j).mp hsucc
        rw [h.models.len]
        exact (List.getElem?_eq_some_iff.mp hat).1
      · obtain ⟨block, -, start, stop, -, hstop, -, -, hlt⟩ := (h.models.exceptional i j).mp hsucc
        have hle := ordinalIn_le hstop
        rw [← method.length_instructions, ← h.models.len] at hle
        omega
    have hmem' : (j, overridden overrides f) ∈ Fixpoint.edges task i f :=
      Fixpoint.mem_edges.mpr ⟨hindex, (j, overrides), hmem, h.models.successors_le hsucc, rfl⟩
    obtain ⟨g, hg, hle⟩ := ha.above j _ (.inr ⟨i, f, _, hf, rfl, hmem'⟩)
    exact ⟨g, hg, fun slot => (hcells slot).mono (hle slot)⟩
  have hthrows : ∀ {i j : ℕ} {overrides : List (ℕ × Held)}, method.Throws i j →
      overrides = [] ∨ overrides = Fixpoint.overridesAt task i → (j, overrides) ∈ Fixpoint.edgesAt task i := by
    intro i j overrides hthrow hover
    apply List.mem_append_right
    apply List.mem_flatMap.mpr
    refine ⟨j, (h.models.exceptional i j).mpr hthrow, ?_⟩
    rcases hover with rfl | rfl
    · exact List.mem_cons_self ..
    · exact List.mem_cons_of_mem _ (List.mem_cons_self ..)
  induction hrun with
  | entry =>
    obtain ⟨f, hf, hle⟩ := ha.above 0 _ (.inl ⟨rfl, rfl⟩)
    refine ⟨f, hf, fun slot => ?_⟩
    apply Contents.Describes.mono _ (hle slot)
    intro store _ heq
    cases heq
  | @next i j _ _ edge ih =>
    obtain ⟨f, hf, hcells⟩ := ih
    have hmem : (j, Fixpoint.overridesAt task i) ∈
        (task.graph.normal i).map fun target => (target, Fixpoint.overridesAt task i) :=
      List.mem_map_of_mem ((h.models.normal i j).mpr edge)
    exact hedge hf (List.mem_append_left _ hmem) fun slot => h.describes hcells slot
  | thrown _ edge ih =>
    obtain ⟨f, hf, hcells⟩ := ih
    exact hedge hf (hthrows edge (.inl rfl)) hcells
  | thrownAfter _ edge ih =>
    obtain ⟨f, hf, hcells⟩ := ih
    exact hedge hf (hthrows edge (.inr rfl)) fun slot => h.describes hcells slot

end Runs

end Krusty.Jvm.BytecodePasses.Temporaries
