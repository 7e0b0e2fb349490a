import Krusty.Wasm.InterfaceDispatch.Finished

/-! Stubs and `is` functions answer on instances as the program recorded. -/
namespace Krusty.Wasm.InterfaceDispatch

variable {objects : ObjectRoot} {d : InterfaceDispatch} {m m' M : Module}

/-- An instance of a class: its struct, whose dispatch table holds the class's interface table. -/
def IsInstance (M : Module) (objects : ObjectRoot) (record : ClassRecord) (v : Value) : Prop :=
  ∃ tableTy slots fields itable, v = .struct record.structure_ (.struct tableTy slots :: fields) ∧
    M.isSubtype tableTy objects.anyTable = true ∧ globalValue M record.itable = some itable ∧
    slots[ITABLE_FIELD.toNat]? = some itable

/-- Every function recorded is carried as its member is. -/
def Carried (d : InterfaceDispatch) (M : Module) : Prop :=
  ∀ member ∈ d.members, ∀ implementation ∈ member.implementations, M.functionType? implementation.2 = some member.ty

/-- What the finished module does with the members called and the interfaces tested. -/
structure Dispatches (objects : ObjectRoot) (d : InterfaceDispatch) (M : Module) : Prop where
  stubs : ∀ member ∈ d.members, ∀ stub, member.stub = some stub →
    ∀ cls function, (cls, function) ∈ member.implementations → ∀ record, d.classes[cls]? = some record →
    ∀ receiver, IsInstance M objects record receiver →
    ∀ rest : List Value, (receiver :: rest).length = member.params.length → ∀ invoke,
      runFunction M invoke (receiver :: rest) stub =
        (invoke function (receiver :: rest)).map fun results => (results, [(function, receiver :: rest)])
  apart : d.placed.Pairwise Apart
  inside : ∀ p ∈ d.placed, ∀ k, p.shape = .table k → ∀ cls ∈ p.member.classes, k < (d.tables cls).length
  tests : ∀ interface function, (interface, function) ∈ d.tests → ∀ record ∈ d.classes,
    ∀ receiver, IsInstance M objects record receiver → ∀ invoke,
      ∃ answer, runFunction M invoke [receiver] function = some ([flag answer], []) ∧
        (answer = true ↔
          ∃ other ∈ d.classes, interface ∈ other.interfaces ∧ M.isSubtype record.structure_ other.structure_ = true)

/-! ### The interface table of an instance -/

/-- What an interface table holds at an index. -/
def entryValue : Option UInt32 → Value
  | some function => .func function
  | none => .null

theorem runCode_entries {invoke : UInt32 → List Value → Option (List Value)} (entries : List (Option UInt32))
    (stack : List Value) :
    runCode m invoke [] (entries.map entryInit) ⟨.running, stack, []⟩ =
      some ⟨.running, (entries.map entryValue).reverse ++ stack, []⟩ := by
  induction entries generalizing stack with
  | nil => rfl
  | cons entry entries ih =>
    have hone : stepInstr m invoke [] ⟨.running, stack, []⟩ (entryInit entry) =
        some ⟨.running, entryValue entry :: stack, []⟩ := by cases entry <;> rfl
    have hrest := ih (entryValue entry :: stack)
    rw [List.map_cons, runCode_cons, hone, Option.bind_some, hrest, List.map_cons, List.reverse_cons, List.append_assoc]
    rfl

variable {record : ClassRecord}

theorem globalValue_table {entries : List (Option UInt32)} {known : Global}
    (hglobal : M.globals[record.itable.toNat]? = some known) (hinit : known.init = some (tableInit entries objects))
    (hlength : entries.length < UInt32.size) :
    globalValue M record.itable = some (.array objects.itable (entries.map entryValue)) := by
  have hcount : (UInt32.ofNat entries.length).toNat = entries.length := UInt32.toNat_ofNat_of_lt' hlength
  have hentries := @runCode_entries M (fun _ _ => none) entries []
  have hroom : ¬((entries.map entryValue).reverse ++ []).length < entries.length := by simp
  have htake : (((entries.map entryValue).reverse ++ []).take entries.length).reverse = entries.map entryValue := by
    have hlen : (entries.map entryValue).reverse.length = entries.length := by simp
    rw [List.append_nil, ← hlen, List.take_length, List.reverse_reverse]
  have hrun : runCode M (fun _ _ => none) [] (tableInit entries objects) ⟨.running, [], []⟩ =
      some ⟨.running, .array objects.itable (entries.map entryValue) ::
        ((entries.map entryValue).reverse ++ []).drop entries.length, []⟩ := by
    rw [tableInit, runCode_append, hentries, Option.bind_some, runCode_cons, stepInstr_running, execute_arrayNewFixed]
    rw [hcount, if_neg hroom, htake]
    rfl
  rw [globalValue, hglobal]
  change (known.init).bind _ = _
  rw [hinit]
  change (runCode M _ [] (tableInit entries objects) _).bind _ = _
  rw [hrun]
  rfl

/-! ### The members placed -/

section Placed

variable (h : Valid objects d m)

include h

theorem Valid.packed : Packed (fun _ => []) 0 d.members d.placed d.tables :=
  placeAll_packed (fun member hmember => (h.members member hmember).nodup) (fun _ => le_refl _) fun _ _ k =>
    shape_ne_table k

/-- The function recorded for a class stands in its table at the member's index. -/
theorem Valid.entered {p : Placed} (hp : p ∈ d.placed) {k : ℕ} (hk : p.shape = .table k) {cls : ClassRef}
    {function : UInt32} (himpl : (cls, function) ∈ p.member.implementations) : Entered d.tables cls k function :=
  h.packed.entered p hp k hk cls function himpl

theorem Valid.length_tables (cls : ClassRef) : (d.tables cls).length < UInt32.size := by
  have hle := h.packed.length_le cls
  have hcount := h.count
  omega

theorem Valid.index_lt {p : Placed} (hp : p ∈ d.placed) {k : ℕ} (hk : p.shape = .table k) : k < UInt32.size := by
  have hlt := h.packed.lt p hp k hk
  have hcount := h.count
  omega

omit h

theorem exists_placed {member : Member} {stub : UInt32} (hmember : member ∈ d.members) (hstub : member.stub = some stub) :
    ∃ p ∈ d.placed, p.stub = stub ∧ p.member = member := by
  have hmem : (stub, member) ∈ d.placed.map fun p => (p.stub, p.member) := by
    rw [placed, placeAll_stubs, List.mem_filterMap]
    exact ⟨member, hmember, by rw [hstub, Option.map_some]⟩
  obtain ⟨p, hp, heq⟩ := List.mem_map.mp hmem
  exact ⟨p, hp, congrArg Prod.fst heq, congrArg Prod.snd heq⟩

end Placed

/-! ### The stubs -/

/-- A class's struct, tested, is one of its ancestors: the root is tested by no stub. -/
theorem isSubtype_ancestor (hdeclared : ∀ record ∈ d.classes, Declared M objects.object record.ancestors)
    {member : Member} {structure_ : UInt32} (htested : ∃ cls ∈ member.classes, structure_ ∈ d.ancestorsOf cls)
    {cls : ClassRef} (hrecord : d.classes[cls]? = some record) :
    M.isSubtype record.structure_ structure_ = true ↔ structure_ ∈ d.ancestorsOf cls := by
  have hancestors : d.ancestorsOf cls = record.ancestors := by rw [ancestorsOf, hrecord]
  obtain ⟨seed, -, hseed⟩ := htested
  have hroot : structure_ ≠ objects.object := by
    rw [ancestorsOf] at hseed
    cases hknown : d.classes[seed]? with
    | none =>
      rw [hknown] at hseed
      cases hseed
    | some known =>
      rw [hknown] at hseed
      exact (hdeclared known (List.mem_of_getElem? hknown)).ne_object hseed
  rw [(hdeclared record (List.mem_of_getElem? hrecord)).isSubtype_structure, hancestors, or_iff_left hroot]

theorem runFunction_reached {invoke : UInt32 → List Value → Option (List Value)} {args : List Value}
    {stub function ty : UInt32} {code : Code} (hslot : M.slot? stub = some (some ⟨ty, [], code⟩))
    (hrun : runCode M invoke args code ⟨.running, [], []⟩ = reached invoke args function) :
    runFunction M invoke args stub = (invoke function args).map fun results => (results, [(function, args)]) := by
  rw [runFunction, hslot]
  change (runCode M invoke args code ⟨.running, [], []⟩).bind _ = _
  rw [hrun, reached]
  cases invoke function args with
  | none => rfl
  | some results =>
    change some (results.reverse.reverse, _) = _
    rw [List.reverse_reverse]
    rfl

theorem stubBody_tested {member : Member} {structure_ thenTo otherwise : UInt32} {code : Code}
    (h : stubBody member (.tested structure_ thenTo otherwise) objects = .ok code) :
    ∃ result, code = [.localGet 0, .refTest false (.concrete structure_), .if_ result] ++ forward member ++
      [.call thenTo, .else_] ++ forward member ++ [.call otherwise, .end_] := by
  rw [stubBody] at h
  split at h
  · cases h
    exact ⟨_, rfl⟩
  · cases h
    exact ⟨_, rfl⟩
  · cases h

/-- A stub of any shape reaches the function recorded for the receiver's class. -/
theorem runCode_stubBody (hvalid : Valid objects d m) (hfinished : Finished objects d m M) (hcarried : Carried d M)
    {p : Placed} (hp : p ∈ d.placed) (hmember : p.member ∈ d.members) {code : Code}
    (hcode : stubBody p.member p.shape objects = .ok code) {cls : ClassRef} {function : UInt32}
    (himpl : (cls, function) ∈ p.member.implementations) (hrecord : d.classes[cls]? = some record)
    {receiver : Value} (hreceiver : IsInstance M objects record receiver) {rest : List Value}
    (hargs : (receiver :: rest).length = p.member.params.length)
    (invoke : UInt32 → List Value → Option (List Value)) :
    runCode M invoke (receiver :: rest) code ⟨.running, [], []⟩ = reached invoke (receiver :: rest) function := by
  have hok := (hvalid.members p.member hmember).mono (le_refl _) hfinished.types
  have hroom : (receiver :: rest).length ≤ UInt32.size := hargs ▸ hok.params.le
  have harity : M.arity? p.member.ty = some (receiver :: rest).length := by
    rw [Module.arity?, hok.ty, hargs]
    rfl
  have hfunction := hcarried p.member hmember (cls, function) himpl
  have hdeclared : ∀ record ∈ d.classes, Declared M objects.object record.ancestors := fun record hrecord =>
    (hvalid.classes record hrecord).declared.mono hfinished.types
  obtain ⟨tableTy, slots, fields, itable, hvalue, htable, hglobal, hslots⟩ := hreceiver
  have hsuits : ∀ shape, p.shape = shape → (∀ k, shape ≠ .table k) → Suits d p.member shape := by
    intro shape hshape hne
    cases placeAll_shape hp with
    | inl hsome => exact hshape ▸ shape_suits hsome
    | inr hnone =>
      obtain ⟨-, k, hk⟩ := hnone
      exact absurd (hshape.symm.trans hk) (hne k)
  cases hshape : p.shape with
  | unreachable =>
    have hnil : p.member.implementations = [] := hsuits _ hshape (by simp)
    rw [hnil] at himpl
    cases himpl
  | direct only =>
    have honly := hsuits _ hshape (by simp) _ himpl
    rw [hshape] at hcode
    cases hcode
    rw [← honly]
    exact run_call hargs.symm hroom hfunction harity
  | tested structure_ thenTo otherwise =>
    have htested := hsuits _ hshape (by simp)
    have hsame : M.isOf false (.concrete structure_) receiver = true ↔ structure_ ∈ d.ancestorsOf cls := by
      rw [hvalue]
      exact isSubtype_ancestor hdeclared htested.1 hrecord
    have hchosen : function = if M.isOf false (.concrete structure_) receiver then thenTo else otherwise := by
      rw [if_congr hsame rfl rfl]
      exact htested.2 _ himpl
    rw [hshape] at hcode
    obtain ⟨result, rfl⟩ := stubBody_tested hcode
    exact run_tested hargs.symm hroom rfl hchosen hfunction harity
  | table k =>
    have hentered := hvalid.entered hp hshape himpl
    have hne : d.tables cls ≠ [] := by
      intro hnil
      rw [Entered, hnil] at hentered
      cases hentered
    have hitable := globalValue_table (hfinished.tables cls record hrecord hne) rfl (hvalid.length_tables cls)
    rw [hglobal] at hitable
    cases hitable
    have helement : ((d.tables cls).map entryValue)[k]? = some (.func function) := by
      rw [List.getElem?_map, hentered]
      rfl
    have hobject : M.isSubtype record.structure_ objects.object = true :=
      (hdeclared record (List.mem_of_getElem? hrecord)).isSubtype_structure.mpr (.inr rfl)
    rw [hshape] at hcode
    cases hcode
    exact run_table hargs.symm hroom (by rw [hvalue]) hobject htable hslots helement (hvalid.index_lt hp hshape)
      hfunction harity

/-! ### The tests -/

variable {interface : TypeName}

theorem mem_instancesOf :
    record ∈ d.instancesOf interface ↔ record ∈ d.classes ∧ interface ∈ record.interfaces := by
  rw [instancesOf, List.mem_filter, decide_eq_true_eq]

/-- The structs tested are those of the classes recorded, or of classes above them. -/
theorem tested_iff (hdeclared : ∀ record ∈ d.classes, Declared M objects.object record.ancestors)
    {receiver : Value} (hreceiver : IsInstance M objects record receiver) :
    ((testedStructs (d.instancesOf interface) (d.instancesOf interface) []).any
        fun structure_ => M.isOf false (.concrete structure_) receiver) = true ↔
      ∃ other ∈ d.classes, interface ∈ other.interfaces ∧ M.isSubtype record.structure_ other.structure_ = true := by
  obtain ⟨tableTy, slots, fields, itable, hvalue, -⟩ := hreceiver
  have hinstances : ∀ other ∈ d.instancesOf interface, Declared M objects.object other.ancestors := fun other hother =>
    hdeclared other (mem_instancesOf.mp hother).1
  have hstructs := isSubtype_tested (a := record.structure_) hinstances
  simp only [mem_instancesOf, and_assoc] at hstructs
  rw [← hstructs, List.any_eq_true, hvalue]
  rfl

theorem runFunction_test (hdeclared : ∀ record ∈ d.classes, Declared M objects.object record.ancestors)
    {function ty : UInt32} (hslot : M.slot? function = some (some ⟨ty, [], d.testBody interface⟩)) {receiver : Value} (hreceiver : IsInstance M objects record receiver)
    (invoke : UInt32 → List Value → Option (List Value)) :
    ∃ answer, runFunction M invoke [receiver] function = some ([flag answer], []) ∧
      (answer = true ↔
        ∃ other ∈ d.classes, interface ∈ other.interfaces ∧ M.isSubtype record.structure_ other.structure_ = true) := by
  refine ⟨_, ?_, tested_iff hdeclared hreceiver⟩
  rw [runFunction, hslot]
  change (runCode M invoke [receiver] (d.testBody interface) ⟨.running, [], []⟩).bind _ = _
  rw [runCode_testBody]
  rfl

/-! ### The whole dispatch -/

/-- Whatever a program records, its finished module dispatches by the records. -/
theorem finalize_dispatches (h : Recorded objects d m) :
    ((∀ member ∈ d.members, member.results.length ≤ 1) → ∃ m', d.finalize m objects = .ok m') ∧
      ∀ m', d.finalize m objects = .ok m' → ∀ M, Grows m' M → Carried d M → Dispatches objects d M := by
  have hvalid := recorded_valid h
  refine ⟨finalize_isOk hvalid, ?_⟩
  intro m' hfinal M hgrows hcarried
  have hfinished := finalize_finished hvalid hfinal hgrows
  have hdeclared : ∀ record ∈ d.classes, Declared M objects.object record.ancestors := fun record hrecord =>
    (hvalid.classes record hrecord).declared.mono hfinished.types
  refine ⟨?_, hvalid.packed.apart, ?_, ?_⟩
  · intro member hmember stub hstub cls function himpl record hrecord receiver hreceiver rest hargs invoke
    obtain ⟨p, hp, rfl, rfl⟩ := exists_placed hmember hstub
    obtain ⟨code, hcode, hslot⟩ := hfinished.stubs p hp
    exact runFunction_reached hslot
      (runCode_stubBody hvalid hfinished hcarried hp hmember hcode himpl hrecord hreceiver hargs invoke)
  · intro p hp k hk cls hcls
    obtain ⟨⟨known, function⟩, himpl, rfl⟩ := List.mem_map.mp hcls
    exact (List.getElem?_eq_some_iff.mp (hvalid.entered hp hk himpl)).1
  · intro interface function htest record hrecord receiver hreceiver invoke
    obtain ⟨ty, hslot⟩ := hfinished.tests _ htest
    exact runFunction_test hdeclared hslot hreceiver invoke

/-- The object model, one class under the root, the type of a member and an imported function of it. -/
def sampleModule : Module :=
  { Module.empty with
    types := [.plain (.array ⟨.val (.ref true .func), false⟩), ⟨.struct [], none, true⟩, ⟨.struct [], none, true⟩,
      ⟨.struct [], some 2, true⟩, .plain (.func [REFERENCE] [.i32])]
    imports := [⟨[], [], 4⟩] }

/-- The class implements a called member of an interface that is tested. -/
def sample : InterfaceDispatch :=
  ⟨[⟨[REFERENCE], [.i32], 4, some 1, [(0, 0)]⟩], [((['m'], 0), 0)], [⟨[3], 0, [['I']]⟩], [(['I'], 2)]⟩

def sampleDeclared : Module :=
  { sampleModule with
    functions := [none, none]
    globals := [⟨.nullable 0, false, some [.refNull (.concrete 0)]⟩] }

theorem sample_recorded : Recorded ⟨0, 1, 2⟩ sample sampleDeclared := by
  have hdeclared : Declared sampleModule 2 [3] := ⟨.singleton 3, ⟨[], 3, rfl, rfl, by decide⟩, _, rfl, rfl⟩
  have hempty : empty.number sampleModule ['m'] 0 [REFERENCE] [.i32] = .ok _ := rfl
  have hnumber : Recorded ⟨0, 1, 2⟩ _ _ := .number (.start sampleModule) hempty (by decide) (by decide) (by decide)
  have hclass := hnumber.class_ hdeclared rfl (by decide)
  have himplement := @Recorded.implement _ _ _ _ 0 0 0 hclass (by decide) rfl
  have hstub := @Recorded.stub _ _ _ _ _ 0 _ himplement rfl (by decide)
  have htest := @Recorded.test _ _ _ _ _ ['I'] _ hstub rfl (by decide)
  exact @Recorded.instanceOf _ _ _ _ 0 ['I'] htest rfl

theorem finalize_dispatches_sample : ∃ m', sample.finalize sampleDeclared ⟨0, 1, 2⟩ = .ok m' ∧
    Dispatches ⟨0, 1, 2⟩ sample m' := by
  have hdispatches := finalize_dispatches sample_recorded
  have hshape : sample.shape ⟨[REFERENCE], [.i32], 4, some 1, [(0, 0)]⟩ = some (.direct 0) := by
    rw [shape, List.map_singleton, List.mergeSort_singleton]
    rfl
  obtain ⟨m', hfinal⟩ := hdispatches.1 (by decide)
  refine ⟨m', hfinal, hdispatches.2 m' hfinal m' (.refl m') ?_⟩
  intro member hmember implementation himpl
  rw [finalize] at hfinal
  have hplaced : sample.placeAll sample.members (fun _ => []) =
    ([⟨1, ⟨[REFERENCE], [.i32], 4, some 1, [(0, 0)]⟩, .direct 0⟩], fun _ => []) := by
    change sample.placeAll [_] _ = _
    rw [placeAll]
    dsimp only
    rw [hshape]
    rfl
  rw [hplaced] at hfinal
  cases hfinal
  cases List.mem_singleton.mp hmember
  cases List.mem_singleton.mp himpl
  rfl

end Krusty.Wasm.InterfaceDispatch
