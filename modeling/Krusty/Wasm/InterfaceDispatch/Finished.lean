import Krusty.Lib.Results
import Krusty.Wasm.InterfaceDispatch.Recorded

/-! The module that the stubs, interface tables and `is` functions are written into. -/
namespace Krusty.Wasm

/-- What a module has is kept as it grows: types, function bodies and constants. -/
structure Grows (m m' : Module) : Prop where
  types : m.types <+: m'.types
  defined : ∀ index function, m.slot? index = some (some function) → m'.slot? index = some (some function)
  constants : ∀ (index : UInt32) known, known.isMutable = false → m.globals[index.toNat]? = some known →
    m'.globals[index.toNat]? = some known

theorem Grows.refl (m : Module) : Grows m m := ⟨List.prefix_rfl, fun _ _ h => h, fun _ _ _ h => h⟩

theorem Grows.trans {m₁ m₂ m₃ : Module} (h : Grows m₁ m₂) (h' : Grows m₂ m₃) : Grows m₁ m₃ where
  types := h.types.trans h'.types
  defined index function hdefined := h'.defined index function (h.defined index function hdefined)
  constants index known hconstant hknown := h'.constants index known hconstant (h.constants index known hconstant hknown)

namespace Module

variable {m m' : Module} {index other : UInt32} {function : Function} {init : Code}

theorem define_eq_some : m.define index function = some m' ↔ m.slot? index = some none ∧
    m' = { m with functions := m.functions.set (index.toNat - m.imports.length) (some function) } := by
  rw [define, slot?]
  split
  · simp
  · cases hslot : m.functions[index.toNat - m.imports.length]? with
    | none => simp
    | some slot =>
      cases slot with
      | none => simp [eq_comm]
      | some known => simp

theorem slot?_define (h : m.define index function = some m') :
    m'.slot? other = if other = index then some (some function) else m.slot? other := by
  obtain ⟨hslot, rfl⟩ := define_eq_some.mp h
  rw [slot?, Option.ite_none_left_eq_some] at hslot
  have hlt := (List.getElem?_eq_some_iff.mp hslot.2).1
  by_cases hsame : other = index
  · rw [if_pos hsame, hsame, slot?]
    dsimp only
    rw [if_neg hslot.1, List.getElem?_set_self hlt]
  · have hindex : index.toNat ≠ other.toNat := fun heq => hsame (UInt32.toNat_inj.mp heq.symm)
    rw [if_neg hsame, slot?, slot?]
    dsimp only
    split
    · rfl
    · rw [List.getElem?_set_ne (by omega)]

theorem setConstantInit_eq_some : m.setConstantInit index init = some m' ↔
    ∃ known, m.globals[index.toNat]? = some known ∧ known.isMutable = false ∧
      m' = { m with globals := m.globals.set index.toNat { known with init := some init } } := by
  rw [setConstantInit]
  cases hglobal : m.globals[index.toNat]? with
  | none => simp
  | some known =>
    have hsome (P : Global → Prop) : (∃ other, some known = some other ∧ P other) ↔ P known := by simp
    rw [hsome]
    dsimp only
    cases known.isMutable with
    | false => rw [if_neg (by decide), Option.some_inj, eq_comm, and_iff_right rfl]
    | true => simp

theorem globals_setConstantInit (h : m.setConstantInit index init = some m') (hne : other ≠ index) :
    m'.globals[other.toNat]? = m.globals[other.toNat]? := by
  obtain ⟨known, -, -, rfl⟩ := setConstantInit_eq_some.mp h
  have hindex : index.toNat ≠ other.toNat := fun heq => hne (UInt32.toNat_inj.mp heq.symm)
  exact List.getElem?_set_ne hindex

theorem foldl_referenceFunction (functions : List UInt32) (m : Module) :
    ∃ referenced, functions.foldl referenceFunction m = { m with referenced } := by
  induction functions generalizing m with
  | nil => exact ⟨m.referenced, rfl⟩
  | cons function functions ih =>
    rw [List.foldl_cons, referenceFunction]
    split
    · exact ih m
    · obtain ⟨referenced, hreferenced⟩ := ih { m with referenced := m.referenced ++ [function] }
      exact ⟨referenced, hreferenced⟩

end Module

namespace InterfaceDispatch

variable {objects : ObjectRoot} {d : InterfaceDispatch} {m m' M : Module}

theorem foldlM_ok_cons {α σ : Type} {step : σ → α → Except Fault σ} {a : α} {l : List α} {s s' : σ} :
    (a :: l).foldlM step s = .ok s' ↔ ∃ s₁, step s a = .ok s₁ ∧ l.foldlM step s₁ = .ok s' := by
  rw [List.foldlM_cons]
  cases step s a with
  | error e => simp [bind, Except.bind]
  | ok s₁ => simp [bind, Except.bind]

/-! ### Stubs -/

theorem defineStub_ok {p : Placed} : defineStub objects m p = .ok m' ↔
    ∃ code, stubBody p.member p.shape objects = .ok code ∧ m.define p.stub ⟨p.member.ty, [], code⟩ = some m' := by
  rw [defineStub]
  cases stubBody p.member p.shape objects with
  | error e => simp [bind, Except.bind]
  | ok code =>
    have hcode (P : Code → Prop) : (∃ other, (Except.ok code : Except Fault Code) = .ok other ∧ P other) ↔ P code := by simp
    rw [hcode]
    cases hdefine : m.define p.stub ⟨p.member.ty, [], code⟩ <;> simp [bind, Except.bind, hdefine]

theorem define_grows {index : UInt32} {function : Function} (h : m.define index function = some m') : Grows m m' := by
  have hslot := (Module.define_eq_some.mp h).1
  refine ⟨?_, ?_, ?_⟩
  · rw [(Module.define_eq_some.mp h).2]
  · intro other known hknown
    rw [Module.slot?_define h, if_neg, hknown]
    rintro rfl
    rw [hslot] at hknown
    cases hknown
  · intro other known _ hknown
    rw [(Module.define_eq_some.mp h).2]
    exact hknown

theorem defineStubs_ok {placed : List Placed} (h : placed.foldlM (defineStub objects) m = .ok m') :
    Grows m m' ∧ ∀ p ∈ placed, ∃ code, stubBody p.member p.shape objects = .ok code ∧
      m'.slot? p.stub = some (some ⟨p.member.ty, [], code⟩) := by
  induction placed generalizing m with
  | nil =>
    cases h
    exact ⟨.refl _, fun _ h => absurd h List.not_mem_nil⟩
  | cons p placed ih =>
    obtain ⟨m₁, hfirst, hrest⟩ := foldlM_ok_cons.mp h
    obtain ⟨code, hcode, hdefine⟩ := defineStub_ok.mp hfirst
    have hih := ih hrest
    refine ⟨(define_grows hdefine).trans hih.1, List.forall_mem_cons.mpr ⟨⟨code, hcode, ?_⟩, hih.2⟩⟩
    apply hih.1.defined
    rw [Module.slot?_define hdefine, if_pos rfl]

/-! ### Interface tables -/

/-- Only the constants of classes with a table are replaced. -/
structure TablesWritten (objects : ObjectRoot) (tables : List (ClassRecord × List (Option UInt32))) (m m' : Module) :
    Prop where
  types : m'.types = m.types
  slots : ∀ index, m'.slot? index = m.slot? index
  written : ∀ t ∈ tables, t.2 ≠ [] → ∀ known, m.globals[t.1.itable.toNat]? = some known →
    m'.globals[t.1.itable.toNat]? = some { known with init := some (tableInit t.2 objects) }
  others : ∀ index : UInt32, index ∉ tables.map (·.1.itable) → m'.globals[index.toNat]? = m.globals[index.toNat]?

theorem writeTable_ok {t : ClassRecord × List (Option UInt32)} (h : writeTable objects m t = .ok m') :
    TablesWritten objects [t] m m' := by
  rw [writeTable] at h
  split at h
  · next hnil =>
    cases h
    exact ⟨rfl, fun _ => rfl, List.forall_mem_singleton.mpr fun hne => absurd hnil hne, fun _ _ => rfl⟩
  · next entries hentries =>
    obtain ⟨referenced, hreferenced⟩ := Module.foldl_referenceFunction (t.2.filterMap id) m
    rw [hreferenced] at h
    dsimp only at h
    cases hset : Module.setConstantInit { m with referenced } t.1.itable (tableInit t.2 objects) with
    | none =>
      rw [hset] at h
      cases h
    | some m₁ =>
      rw [hset] at h
      cases h
      obtain ⟨known, hknown, -, hm⟩ := Module.setConstantInit_eq_some.mp hset
      have hlt := (List.getElem?_eq_some_iff.mp hknown).1
      refine ⟨?_, ?_, List.forall_mem_singleton.mpr ?_, ?_⟩
      · rw [hm]
      · intro index
        rw [hm]
        rfl
      · intro _ other hother
        have hsame : some known = some other := hknown.symm.trans hother
        cases hsame
        rw [hm]
        exact List.getElem?_set_self hlt
      · intro index hindex
        have hsame := Module.globals_setConstantInit hset fun heq => hindex (List.mem_singleton.mpr heq)
        exact hsame

theorem writeTables_ok {tables : List (ClassRecord × List (Option UInt32))}
    (h : tables.foldlM (writeTable objects) m = .ok m') (hnodup : (tables.map (·.1.itable)).Nodup) :
    TablesWritten objects tables m m' := by
  induction tables generalizing m with
  | nil =>
    cases h
    exact ⟨rfl, fun _ => rfl, fun _ h => absurd h List.not_mem_nil, fun _ _ => rfl⟩
  | cons t tables ih =>
    obtain ⟨m₁, hfirst, hrest⟩ := foldlM_ok_cons.mp h
    rw [List.map_cons] at hnodup
    have hcons := List.nodup_cons.mp hnodup
    have hone := writeTable_ok hfirst
    have hih := ih hrest hcons.2
    refine ⟨hih.types.trans hone.types, fun index => (hih.slots index).trans (hone.slots index), ?_, ?_⟩
    · refine List.forall_mem_cons.mpr ⟨fun hne known hknown => ?_, fun other hother hne known hknown => ?_⟩
      · rw [hih.others _ hcons.1]
        exact hone.written t List.mem_cons_self hne known hknown
      · have hapart : other.1.itable ∉ [t].map (·.1.itable) := by
          intro hmem
          have heq : other.1.itable = t.1.itable := List.mem_singleton.mp hmem
          exact hcons.1 (heq ▸ List.mem_map_of_mem hother)
        exact hih.written other hother hne known ((hone.others _ hapart).trans hknown)
    · intro index hindex
      rw [List.map_cons, List.mem_cons, not_or] at hindex
      rw [hih.others index hindex.2]
      exact hone.others index fun hmem => hindex.1 (List.mem_singleton.mp hmem)

/-! ### Tests -/

theorem defineTest_ok {ty : UInt32} {test : TypeName × UInt32} :
    d.defineTest ty m test = .ok m' ↔ m.define test.2 ⟨ty, [], d.testBody test.1⟩ = some m' := by
  rw [defineTest]
  cases m.define test.2 ⟨ty, [], d.testBody test.1⟩ <;> simp

theorem defineTests_ok {ty : UInt32} {tests : List (TypeName × UInt32)}
    (h : tests.foldlM (d.defineTest ty) m = .ok m') :
    Grows m m' ∧ ∀ test ∈ tests, m'.slot? test.2 = some (some ⟨ty, [], d.testBody test.1⟩) := by
  induction tests generalizing m with
  | nil =>
    cases h
    exact ⟨.refl _, fun _ h => absurd h List.not_mem_nil⟩
  | cons test tests ih =>
    obtain ⟨m₁, hfirst, hrest⟩ := foldlM_ok_cons.mp h
    have hdefine := defineTest_ok.mp hfirst
    have hih := ih hrest
    refine ⟨(define_grows hdefine).trans hih.1, List.forall_mem_cons.mpr ⟨?_, hih.2⟩⟩
    apply hih.1.defined
    rw [Module.slot?_define hdefine, if_pos rfl]

/-! ### The whole module -/

/-- The called members with their shapes, and the interface tables. -/
def placed (self : InterfaceDispatch) : List Placed := (self.placeAll self.members fun _ => []).1

def tables (self : InterfaceDispatch) : Tables := (self.placeAll self.members fun _ => []).2

/-- What a finished module has, whatever it grows to. -/
structure Finished (objects : ObjectRoot) (d : InterfaceDispatch) (m M : Module) : Prop where
  types : m.types <+: M.types
  stubs : ∀ p ∈ d.placed, ∃ code, stubBody p.member p.shape objects = .ok code ∧
    M.slot? p.stub = some (some ⟨p.member.ty, [], code⟩)
  tables : ∀ cls record, d.classes[cls]? = some record → d.tables cls ≠ [] →
    M.globals[record.itable.toNat]? =
      some ⟨.nullable objects.itable, false, some (tableInit (d.tables cls) objects)⟩
  tests : ∀ test ∈ d.tests, ∃ ty, M.slot? test.2 = some (some ⟨ty, [], d.testBody test.1⟩)

theorem classTables_itables (d : InterfaceDispatch) (tables : Tables) :
    (d.classTables tables).map (·.1.itable) = d.classes.map (·.itable) := by
  rw [classTables, List.map_map]
  conv_rhs => rw [← List.zipIdx_map_fst 0 d.classes, List.map_map]
  rfl

theorem finalize_finished (h : Valid objects d m) (hfinal : d.finalize m objects = .ok m') (hgrows : Grows m' M) :
    Finished objects d m M := by
  obtain ⟨m₁, hstubs, hrest⟩ := Results.bind_ok (x := d.placed.foldlM (defineStub objects) m) hfinal
  obtain ⟨m₂, htables, htests⟩ := Results.bind_ok (x := (d.classTables d.tables).foldlM (writeTable objects) m₁) hrest
  have hdefined := defineStubs_ok hstubs
  have hwritten := writeTables_ok htables (classTables_itables d d.tables ▸ h.itables)
  have htested := defineTests_ok htests
  have hprefix : m₂.types <+: (m₂.funcType [REFERENCE] [.i32]).2.types := Module.types_declareType _
  have hslots (index : UInt32) : (m₂.funcType [REFERENCE] [.i32]).2.slot? index = m₁.slot? index :=
    (Module.slot?_declareType _).trans (hwritten.slots index)
  have hglobals : (m₂.funcType [REFERENCE] [.i32]).2.globals = m₂.globals := Module.globals_declareType _
  refine ⟨?_, ?_, ?_, ?_⟩
  · have hstubTypes : m.types <+: m₂.types := hwritten.types ▸ hdefined.1.types
    exact ((hstubTypes.trans hprefix).trans htested.1.types).trans hgrows.types
  · intro p hp
    obtain ⟨code, hcode, hslot⟩ := hdefined.2 p hp
    exact ⟨code, hcode, hgrows.defined _ _ (htested.1.defined _ _ ((hslots p.stub).trans hslot))⟩
  · intro cls record hrecord hne
    have hmem : (record, d.tables cls) ∈ d.classTables d.tables :=
      List.mem_map.mpr ⟨(record, cls), List.mem_zipIdx_iff_getElem?.mpr hrecord, rfl⟩
    have hold := (h.classes record (List.mem_of_getElem? hrecord)).itable
    have hkept := hdefined.1.constants _ _ rfl hold
    have hnew := hwritten.written _ hmem hne _ hkept
    rw [← hglobals] at hnew
    exact hgrows.constants _ _ rfl (htested.1.constants _ _ rfl hnew)
  · intro test htest
    exact ⟨_, hgrows.defined _ _ (htested.2 test htest)⟩

/-! ### Nothing fails -/

/-- Distinct functions that have no body can all be defined. -/
theorem foldlM_define {α : Type} {step : Module → α → Except Fault Module} {key : α → UInt32} {l : List α}
    (hstep : ∀ a ∈ l, ∀ m : Module, m.slot? (key a) = some none →
      ∃ function m', m.define (key a) function = some m' ∧ step m a = .ok m')
    (hnodup : (l.map key).Nodup) (hslots : ∀ a ∈ l, m.slot? (key a) = some none) :
    ∃ m', l.foldlM step m = .ok m' ∧ ∀ other ∉ l.map key, m'.slot? other = m.slot? other := by
  induction l generalizing m with
  | nil => exact ⟨m, rfl, fun _ _ => rfl⟩
  | cons a l ih =>
    rw [List.map_cons] at hnodup
    have hcons := List.nodup_cons.mp hnodup
    obtain ⟨function, m₁, hdefine, hfirst⟩ := hstep a List.mem_cons_self m (hslots a List.mem_cons_self)
    have hrest : ∀ b ∈ l, m₁.slot? (key b) = some none := by
      intro b hb
      have hne : key b ≠ key a := fun heq => hcons.1 (heq ▸ List.mem_map_of_mem hb)
      rw [Module.slot?_define hdefine, if_neg hne]
      exact hslots b (List.mem_cons_of_mem a hb)
    obtain ⟨m', hfold, hothers⟩ := ih (fun b hb => hstep b (List.mem_cons_of_mem a hb)) hcons.2 hrest
    refine ⟨m', foldlM_ok_cons.mpr ⟨m₁, hfirst, hfold⟩, ?_⟩
    intro other hother
    rw [List.map_cons, List.mem_cons, not_or] at hother
    rw [hothers other hother.2, Module.slot?_define hdefine, if_neg hother.1]

theorem exists_define {index : UInt32} (h : m.slot? index = some none) (function : Function) :
    ∃ m', m.define index function = some m' := ⟨_, Module.define_eq_some.mpr ⟨h, rfl⟩⟩

theorem exists_stubBody {member : Member} (h : member.results.length ≤ 1) (shape : Shape) (objects : ObjectRoot) :
    ∃ code, stubBody member shape objects = .ok code := by
  cases shape with
  | unreachable => exact ⟨_, rfl⟩
  | direct function => exact ⟨_, rfl⟩
  | table index => exact ⟨_, rfl⟩
  | tested structure_ thenTo otherwise =>
    rw [stubBody]
    cases hresults : member.results with
    | nil => exact ⟨_, rfl⟩
    | cons value rest =>
      cases rest with
      | nil => exact ⟨_, rfl⟩
      | cons second rest =>
        rw [hresults] at h
        simp at h

theorem writeTables_isOk {tables : List (ClassRecord × List (Option UInt32))}
    (h : ∀ t ∈ tables, ∃ known, m.globals[t.1.itable.toNat]? = some known ∧ known.isMutable = false) :
    ∃ m', tables.foldlM (writeTable objects) m = .ok m' := by
  induction tables generalizing m with
  | nil => exact ⟨m, rfl⟩
  | cons t tables ih =>
    obtain ⟨known, hknown, hconstant⟩ := h t List.mem_cons_self
    have hfirst : ∃ m₁, writeTable objects m t = .ok m₁ ∧ ∀ (index : ℕ) (other : Global), m.globals[index]? = some other →
        other.isMutable = false → ∃ other' : Global, m₁.globals[index]? = some other' ∧ other'.isMutable = false := by
      rw [writeTable]
      split
      · exact ⟨m, rfl, fun _ other hother hmutable => ⟨other, hother, hmutable⟩⟩
      · obtain ⟨referenced, hreferenced⟩ := Module.foldl_referenceFunction (t.2.filterMap id) m
        have hset : Module.setConstantInit { m with referenced } t.1.itable (tableInit t.2 objects) = some _ :=
          Module.setConstantInit_eq_some.mpr ⟨known, hknown, hconstant, rfl⟩
        rw [hreferenced]
        dsimp only
        rw [hset]
        refine ⟨_, rfl, ?_⟩
        intro index other hother hmutable
        rw [List.getElem?_set]
        by_cases hindex : t.1.itable.toNat = index
        · have hlt := (List.getElem?_eq_some_iff.mp hknown).1
          rw [if_pos hindex, if_pos hlt]
          exact ⟨_, rfl, hconstant⟩
        · rw [if_neg hindex]
          exact ⟨other, hother, hmutable⟩
    obtain ⟨m₁, hwritten, hkept⟩ := hfirst
    obtain ⟨m', hrest⟩ := ih (m := m₁) fun other hother => by
      obtain ⟨known, hknown, hconstant⟩ := h other (List.mem_cons_of_mem t hother)
      exact hkept _ known hknown hconstant
    exact ⟨m', foldlM_ok_cons.mpr ⟨m₁, hwritten, hrest⟩⟩

theorem placed_stubs (d : InterfaceDispatch) : d.placed.map (·.stub) = d.members.filterMap (·.stub) := by
  have hstubs := congrArg (List.map Prod.fst) (@placeAll_stubs d d.members fun _ => [])
  have hfst (member : Member) : (member.stub.map fun stub => (stub, member)).map Prod.fst = member.stub := by
    cases member.stub <;> rfl
  rw [List.map_map, List.map_filterMap] at hstubs
  simp only [hfst] at hstubs
  exact hstubs

/-- The module is finished unless a member answers more than one value. -/
theorem finalize_isOk (h : Valid objects d m) (hresults : ∀ member ∈ d.members, member.results.length ≤ 1) :
    ∃ m', d.finalize m objects = .ok m' := by
  have hreserved := List.nodup_append.mp h.reserved
  have hmember : ∀ p ∈ d.placed, p.member ∈ d.members := by
    intro p hp
    have hmem := List.mem_map_of_mem (f := fun p : Placed => (p.stub, p.member)) hp
    rw [placed, placeAll_stubs, List.mem_filterMap] at hmem
    obtain ⟨member, hmember, hstub⟩ := hmem
    obtain ⟨stub, -, heq⟩ := Option.map_eq_some_iff.mp hstub
    rwa [← (Prod.mk.inj heq).2]
  have hstubs : ∃ m₁, d.placed.foldlM (defineStub objects) m = .ok m₁ ∧
      ∀ other ∉ d.placed.map (·.stub), m₁.slot? other = m.slot? other := by
    refine foldlM_define ?_ ?_ ?_
    · intro p hp m hslot
      obtain ⟨code, hcode⟩ := exists_stubBody (hresults p.member (hmember p hp)) p.shape objects
      obtain ⟨m', hdefine⟩ := exists_define hslot ⟨p.member.ty, [], code⟩
      exact ⟨_, m', hdefine, defineStub_ok.mpr ⟨code, hcode, hdefine⟩⟩
    · rw [placed_stubs]
      exact hreserved.1
    · intro p hp
      have hstub := List.mem_map_of_mem (f := Placed.stub) hp
      rw [placed_stubs] at hstub
      exact h.slots _ (List.mem_append_left _ hstub)
  obtain ⟨m₁, hdefined, hothers⟩ := hstubs
  have htables : ∃ m₂, (d.classTables d.tables).foldlM (writeTable objects) m₁ = .ok m₂ := by
    apply writeTables_isOk
    intro t ht
    obtain ⟨⟨record, index⟩, hrecord, rfl⟩ := List.mem_map.mp ht
    have hold := (h.classes record (List.mem_of_getElem? (List.mem_zipIdx_iff_getElem?.mp hrecord))).itable
    exact ⟨_, (defineStubs_ok hdefined).1.constants _ _ rfl hold, rfl⟩
  obtain ⟨m₂, hwritten⟩ := htables
  have hslots (index : UInt32) : (m₂.funcType [REFERENCE] [.i32]).2.slot? index = m₁.slot? index := by
    have hkept := writeTables_ok hwritten (classTables_itables d d.tables ▸ h.itables)
    exact (Module.slot?_declareType _).trans (hkept.slots index)
  have htests : ∃ m', d.tests.foldlM (d.defineTest (m₂.funcType [REFERENCE] [.i32]).1)
      (m₂.funcType [REFERENCE] [.i32]).2 = .ok m' ∧
      ∀ other ∉ d.tests.map (·.2), m'.slot? other = (m₂.funcType [REFERENCE] [.i32]).2.slot? other := by
    refine foldlM_define ?_ hreserved.2.1 ?_
    · intro test _ m hslot
      obtain ⟨m', hdefine⟩ := exists_define hslot
        ⟨(m₂.funcType [REFERENCE] [.i32]).1, [], d.testBody test.1⟩
      exact ⟨_, m', hdefine, defineTest_ok.mpr hdefine⟩
    · intro test htest
      have hmem := List.mem_map_of_mem (f := Prod.snd) htest
      have hapart : test.2 ∉ d.placed.map (·.stub) := by
        rw [placed_stubs]
        exact fun hstub => hreserved.2.2 _ hstub _ hmem rfl
      rw [hslots, hothers _ hapart]
      exact h.slots _ (List.mem_append_right _ hmem)
  obtain ⟨m', htested, -⟩ := htests
  exact ⟨m', Results.ok_bind hdefined (Results.ok_bind hwritten htested)⟩

end InterfaceDispatch

end Krusty.Wasm
