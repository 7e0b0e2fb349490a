import Krusty.Wasm.InterfaceDispatch.Hierarchy

/-! What holds of the records and the module while the files of a program are lowered. -/
namespace Krusty.Wasm

namespace Module

variable {m m' : Module} {index : UInt32}

/-! ### Functions declared and defined -/

theorem slot?_declare_self (hroom : m.imports.length + m.functions.length < UInt32.size) :
    m.declare.2.slot? m.declare.1 = some none := by
  have hindex : (UInt32.ofNat (m.imports.length + m.functions.length)).toNat = m.imports.length + m.functions.length :=
    UInt32.toNat_ofNat_of_lt' hroom
  have hlast : m.imports.length + m.functions.length - m.imports.length = m.functions.length := by omega
  rw [declare, slot?]
  dsimp only
  rw [hindex, if_neg (by omega), hlast, List.getElem?_concat_length]

theorem slot?_declare_old (hroom : m.imports.length + m.functions.length < UInt32.size) : m.slot? m.declare.1 = none := by
  have hindex : (UInt32.ofNat (m.imports.length + m.functions.length)).toNat = m.imports.length + m.functions.length :=
    UInt32.toNat_ofNat_of_lt' hroom
  have hlast : m.imports.length + m.functions.length - m.imports.length = m.functions.length := by omega
  rw [declare, slot?]
  dsimp only
  rw [hindex, if_neg (by omega), hlast, List.getElem?_length]

theorem slot?_declare {slot : Option Function} (h : m.slot? index = some slot) : m.declare.2.slot? index = some slot := by
  rw [slot?, Option.ite_none_left_eq_some] at h
  rw [slot?, Option.ite_none_left_eq_some]
  exact ⟨h.1, (List.getElem?_append_left (List.getElem?_eq_some_iff.mp h.2).1).trans h.2⟩

/-! ### Types -/

theorem types_declareType (ty : CompositeType) : m.types <+: (m.declareType ty).2.types := by
  rw [declareType]
  split
  · exact List.prefix_rfl
  · exact List.prefix_append ..

theorem getElem?_declareType {ty : CompositeType} (hroom : m.types.length < UInt32.size) :
    (m.declareType ty).2.types[(m.declareType ty).1.toNat]? = some (.plain ty) := by
  rw [declareType]
  cases hfind : m.types.findIdx? (· = .plain ty) with
  | some index =>
    obtain ⟨hlt, hty, -⟩ := List.findIdx?_eq_some_iff_getElem.mp hfind
    have hindex : (UInt32.ofNat index).toNat = index := UInt32.toNat_ofNat_of_lt' (hlt.trans hroom)
    dsimp only
    rw [hindex, List.getElem?_eq_getElem hlt, of_decide_eq_true hty]
  | none =>
    have hindex : (UInt32.ofNat m.types.length).toNat = m.types.length := UInt32.toNat_ofNat_of_lt' hroom
    dsimp only
    rw [hindex, List.getElem?_concat_length]

theorem slot?_declareType (ty : CompositeType) : (m.declareType ty).2.slot? index = m.slot? index := by
  rw [declareType]
  split <;> rfl

theorem globals_declareType (ty : CompositeType) : (m.declareType ty).2.globals = m.globals := by
  rw [declareType]
  split <;> rfl

end Module

namespace InterfaceDispatch

/-- The functions declared for the dispatch, which only it defines. -/
def reserved (self : InterfaceDispatch) : List UInt32 := self.members.filterMap (·.stub) ++ self.tests.map (·.2)

/-- What every other part of the compiler leaves as it is: declared types, the functions reserved, and the globals of
the interface tables. -/
structure Keeps (d : InterfaceDispatch) (m m' : Module) : Prop where
  types : m.types <+: m'.types
  slots : ∀ index ∈ d.reserved, m'.slot? index = m.slot? index
  globals : ∀ record ∈ d.classes, m'.globals[record.itable.toNat]? = m.globals[record.itable.toNat]?

/-- Records and a module that the compiler reaches, every index and count in 32 bits. -/
inductive Recorded (objects : ObjectRoot) : InterfaceDispatch → Module → Prop
  | start (m : Module) : Recorded objects empty m
  | number {d d' m m' member} {name : List Char} {index : UInt32} {params results : List ValType} :
    Recorded objects d m → d.number m name index params results = .ok (member, d', m') →
    params.length < UInt32.size → d.members.length + 1 < UInt32.size → m.types.length < UInt32.size →
    Recorded objects d' m'
  | stub {d d' m m' member index} : Recorded objects d m → d.stub m member = .ok (index, d', m') →
    m.imports.length + m.functions.length < UInt32.size → Recorded objects d' m'
  | class_ {d d' m m' ancestors created} : Recorded objects d m → Declared m objects.object ancestors →
    d.class_ m objects.itable ancestors = (created, d', m') → m.globals.length < UInt32.size → Recorded objects d' m'
  | implement {d d' m cls member function} : Recorded objects d m → cls < d.classes.length →
    d.implement cls member function = .ok d' → Recorded objects d' m
  | instanceOf {d d' m cls interface} : Recorded objects d m → d.instanceOf cls interface = .ok d' →
    Recorded objects d' m
  | test {d d' m m' interface function} : Recorded objects d m → d.test m interface = (function, d', m') →
    m.imports.length + m.functions.length < UInt32.size → Recorded objects d' m'
  | other {d m m'} : Recorded objects d m → Keeps d m m' → Recorded objects d m'

variable {objects : ObjectRoot} {d d' : InterfaceDispatch} {m m' : Module}

/-- A member as recorded: its classes are known and have one function each. -/
structure MemberOk (classes : ℕ) (m : Module) (member : Member) : Prop where
  known : ∀ cls ∈ member.classes, cls < classes
  nodup : member.classes.Nodup
  ty : m.types[member.ty.toNat]? = some (.plain (.func member.params member.results))
  params : member.params.length < UInt32.size

/-- A class as recorded: its structs are declared and its interface table is not yet written. -/
structure ClassOk (objects : ObjectRoot) (m : Module) (record : ClassRecord) : Prop where
  declared : Declared m objects.object record.ancestors
  itable : m.globals[record.itable.toNat]? =
    some ⟨.nullable objects.itable, false, some [.refNull (.concrete objects.itable)]⟩

structure Valid (objects : ObjectRoot) (d : InterfaceDispatch) (m : Module) : Prop where
  members : ∀ member ∈ d.members, MemberOk d.classes.length m member
  classes : ∀ record ∈ d.classes, ClassOk objects m record
  count : d.members.length < UInt32.size
  reserved : d.reserved.Nodup
  slots : ∀ index ∈ d.reserved, m.slot? index = some none
  itables : (d.classes.map (·.itable)).Nodup

section Mono

variable {classes classes' : ℕ} {member : Member} {record : ClassRecord}

theorem MemberOk.mono (h : MemberOk classes m member) (hclasses : classes ≤ classes') (htypes : m.types <+: m'.types) :
    MemberOk classes' m' member := by
  obtain ⟨rest, hrest⟩ := htypes
  have hty : m'.types[member.ty.toNat]? = some (.plain (.func member.params member.results)) := by
    rw [← hrest, List.getElem?_append_left (List.getElem?_eq_some_iff.mp h.ty).1, h.ty]
  exact ⟨fun cls hcls => (h.known cls hcls).trans_le hclasses, h.nodup, hty, h.params⟩

theorem ClassOk.mono (h : ClassOk objects m record) (htypes : m.types <+: m'.types)
    (hglobal : m'.globals[record.itable.toNat]? = m.globals[record.itable.toNat]?) : ClassOk objects m' record :=
  ⟨h.declared.mono htypes, hglobal.trans h.itable⟩

/-- Only the module changes, and keeps what the records rely on. -/
theorem Valid.keeps (h : Valid objects d m) (hkeeps : Keeps d m m') : Valid objects d m' where
  members member hmember := (h.members member hmember).mono (le_refl _) hkeeps.types
  classes record hrecord := (h.classes record hrecord).mono hkeeps.types (hkeeps.globals record hrecord)
  count := h.count
  reserved := h.reserved
  slots index hindex := (hkeeps.slots index hindex).trans (h.slots index hindex)
  itables := h.itables

end Mono

/-! ### Each recording keeps the records valid -/

theorem valid_start (m : Module) : Valid objects empty m where
  members _ h := absurd h List.not_mem_nil
  classes _ h := absurd h List.not_mem_nil
  count := by decide
  reserved := List.nodup_nil
  slots _ h := absurd h List.not_mem_nil
  itables := List.nodup_nil

/-- One element of a list replaced by one that gives nothing new. -/
theorem filterMap_set {α β : Type} {f : α → Option β} {l : List α} {i : ℕ} {a b : α} (h : l[i]? = some a)
    (hsame : f b = f a) : (l.set i b).filterMap f = l.filterMap f := by
  induction l generalizing i with
  | nil => rfl
  | cons first rest ih =>
    cases i with
    | zero =>
      cases h
      rw [List.set_cons_zero, List.filterMap_cons, List.filterMap_cons, hsame]
    | succ i => rw [List.set_cons_succ, List.filterMap_cons, List.filterMap_cons, ih h]

/-- One element of a list replaced by one that gives something it did not. -/
theorem perm_filterMap_set {α β : Type} {f : α → Option β} {l : List α} {i : ℕ} {a b : α} {x : β} (h : l[i]? = some a)
    (hold : f a = none) (hnew : f b = some x) : ((l.set i b).filterMap f).Perm (x :: l.filterMap f) := by
  induction l generalizing i with
  | nil => cases h
  | cons first rest ih =>
    cases i with
    | zero =>
      cases h
      rw [List.set_cons_zero, List.filterMap_cons, List.filterMap_cons, hold, hnew]
    | succ i =>
      have hrest := ih h
      rw [List.set_cons_succ, List.filterMap_cons, List.filterMap_cons]
      cases f first with
      | none => exact hrest
      | some y => exact (hrest.cons y).trans (.swap ..)

variable {member : MemberRef}

theorem valid_number {name : List Char} {index : UInt32} {params results : List ValType}
    (h : Valid objects d m) (hnumber : d.number m name index params results = .ok (member, d', m'))
    (hparams : params.length < UInt32.size) (hcount : d.members.length + 1 < UInt32.size)
    (hroom : m.types.length < UInt32.size) : Valid objects d' m' := by
  rw [number] at hnumber
  split at hnumber
  · split at hnumber
    · split at hnumber
      · cases hnumber
      · cases hnumber
        exact h
    · cases hnumber
  · cases hnumber
    have htypes := m.types_declareType (.func params results)
    have hmodule : Valid objects d (m.funcType params results).2 := h.keeps ⟨htypes, fun _ _ => Module.slot?_declareType _,
      fun _ _ => congrArg (·[_]?) (Module.globals_declareType _)⟩
    have hreserved : reserved { d with
        members := d.members ++ [⟨params, results, (m.funcType params results).1, none, []⟩]
        numbered := d.numbered ++ [((name, index), d.members.length)] } = d.reserved := by
      rw [reserved, List.filterMap_append]
      change d.members.filterMap (·.stub) ++ [] ++ _ = _
      rw [List.append_nil]
      rfl
    refine ⟨?_, hmodule.classes, ?_, hreserved ▸ hmodule.reserved, hreserved ▸ hmodule.slots, hmodule.itables⟩
    · refine List.forall_mem_append.mpr ⟨hmodule.members, List.forall_mem_singleton.mpr ⟨?_, List.nodup_nil, ?_, hparams⟩⟩
      · exact fun _ hcls => absurd hcls List.not_mem_nil
      · exact Module.getElem?_declareType hroom
    · rwa [List.length_append]

theorem valid_reserve {index : UInt32} {d' : InterfaceDispatch} (h : Valid objects d m)
    (hroom : m.imports.length + m.functions.length < UInt32.size) (hmembers : ∀ member ∈ d'.members,
      MemberOk d.classes.length m member) (hclasses : d'.classes = d.classes)
    (hcount : d'.members.length = d.members.length) (hindex : m.declare.1 = index)
    (hreserved : d'.reserved.Perm (index :: d.reserved)) : Valid objects d' m.declare.2 := by
  have hfresh : index ∉ d.reserved := by
    intro hmem
    have hnone := Module.slot?_declare_old hroom
    rw [hindex, h.slots index hmem] at hnone
    cases hnone
  refine ⟨?_, ?_, ?_, ?_, ?_, ?_⟩
  · rw [hclasses]
    exact fun member hmember => (hmembers member hmember).mono (le_refl _) List.prefix_rfl
  · rw [hclasses]
    exact fun record hrecord => (h.classes record hrecord).mono List.prefix_rfl rfl
  · rw [hcount]
    exact h.count
  · exact hreserved.nodup_iff.mpr (List.nodup_cons.mpr ⟨hfresh, h.reserved⟩)
  · intro other hother
    cases List.mem_cons.mp (hreserved.subset hother) with
    | inl heq =>
      rw [heq, ← hindex]
      exact Module.slot?_declare_self hroom
    | inr hother => exact Module.slot?_declare (h.slots other hother)
  · rw [hclasses]
    exact h.itables

theorem valid_stub {index : UInt32} (h : Valid objects d m)
    (hstub : d.stub m member = .ok (index, d', m')) (hroom : m.imports.length + m.functions.length < UInt32.size) :
    Valid objects d' m' := by
  rw [stub] at hstub
  split at hstub
  · cases hstub
  · next known hknown =>
    split at hstub
    · cases hstub
      exact h
    · next hnone =>
      cases hstub
      have hmem := List.mem_of_getElem? hknown
      refine valid_reserve h hroom ?_ rfl (List.length_set ..) rfl ?_
      · intro other hother
        cases List.mem_or_eq_of_mem_set hother with
        | inl hother => exact h.members other hother
        | inr heq =>
          have hold := h.members known hmem
          rw [heq]
          exact ⟨hold.known, hold.nodup, hold.ty, hold.params⟩
      · exact (perm_filterMap_set hknown hnone rfl).append_right _

theorem valid_test {interface : TypeName} {function : UInt32} (h : Valid objects d m)
    (htest : d.test m interface = (function, d', m')) (hroom : m.imports.length + m.functions.length < UInt32.size) :
    Valid objects d' m' := by
  rw [test] at htest
  split at htest
  · cases htest
    exact h
  · cases htest
    refine valid_reserve h hroom h.members rfl rfl rfl ?_
    rw [reserved, List.map_append, ← List.append_assoc]
    exact List.perm_append_singleton ..

theorem valid_class {ancestors : List UInt32} {created : ClassRef × UInt32} (h : Valid objects d m)
    (hdeclared : Declared m objects.object ancestors)
    (hclass : d.class_ m objects.itable ancestors = (created, d', m')) (hroom : m.globals.length < UInt32.size) :
    Valid objects d' m' := by
  cases hclass
  have hindex : (UInt32.ofNat m.globals.length).toNat = m.globals.length := UInt32.toNat_ofNat_of_lt' hroom
  have hlt : ∀ record ∈ d.classes, record.itable.toNat < m.globals.length := fun record hrecord =>
    (List.getElem?_eq_some_iff.mp (h.classes record hrecord).itable).1
  refine ⟨?_, ?_, h.count, h.reserved, h.slots, ?_⟩
  · intro member hmember
    have hold := h.members member hmember
    refine ⟨fun cls hcls => ?_, hold.nodup, hold.ty, hold.params⟩
    rw [List.length_append]
    exact Nat.lt_add_right _ (hold.known cls hcls)
  · refine List.forall_mem_append.mpr ⟨?_, List.forall_mem_singleton.mpr ⟨hdeclared.mono List.prefix_rfl, ?_⟩⟩
    · intro record hrecord
      exact (h.classes record hrecord).mono List.prefix_rfl (List.getElem?_append_left (hlt record hrecord))
    · change (m.globals ++ [_])[(UInt32.ofNat m.globals.length).toNat]? = _
      rw [hindex, List.getElem?_concat_length]
  · rw [List.map_append, List.map_singleton]
    refine List.nodup_append.mpr ⟨h.itables, List.nodup_singleton _, ?_⟩
    intro itable hitable other hother heq
    obtain ⟨record, hrecord, rfl⟩ := List.mem_map.mp hitable
    have hless := hlt record hrecord
    rw [heq, List.mem_singleton.mp hother, hindex] at hless
    exact lt_irrefl _ hless

theorem valid_implement {cls : ClassRef} {function : UInt32} (h : Valid objects d m)
    (hcls : cls < d.classes.length) (himplement : d.implement cls member function = .ok d') : Valid objects d' m := by
  rw [implement] at himplement
  split at himplement
  · cases himplement
  · next known hknown =>
    split at himplement
    · split at himplement
      · cases himplement
      · cases himplement
        exact h
    · next hnone =>
      cases himplement
      have hold := h.members known (List.mem_of_getElem? hknown)
      have hreserved : (d.members.set member
          { known with implementations := known.implementations ++ [(cls, function)] }).filterMap (·.stub) =
          d.members.filterMap (·.stub) := filterMap_set hknown rfl
      have hnew : cls ∉ known.classes := by
        intro hmem
        obtain ⟨implementation, himpl, hcls⟩ := List.mem_map.mp hmem
        have hfind := List.find?_eq_none.mp hnone implementation himpl
        rw [decide_eq_true_eq] at hfind
        exact hfind hcls
      refine ⟨?_, h.classes, ?_, ?_, ?_, h.itables⟩
      · intro other hother
        cases List.mem_or_eq_of_mem_set hother with
        | inl hother => exact h.members other hother
        | inr heq =>
          have hclasses : other.classes = known.classes ++ [cls] := by
            rw [heq, Member.classes, List.map_append]
            rfl
          refine ⟨?_, ?_, ?_, ?_⟩
          · rw [hclasses]
            exact List.forall_mem_append.mpr ⟨hold.known, List.forall_mem_singleton.mpr hcls⟩
          · rw [hclasses]
            exact List.nodup_append.mpr ⟨hold.nodup, List.nodup_singleton _, fun a ha b hb hab =>
              hnew (List.mem_singleton.mp hb ▸ hab ▸ ha)⟩
          · rw [heq]
            exact hold.ty
          · rw [heq]
            exact hold.params
      · rw [List.length_set]
        exact h.count
      · rw [reserved, hreserved]
        exact h.reserved
      · rw [reserved, hreserved]
        exact h.slots

theorem valid_instanceOf {cls : ClassRef} {interface : TypeName} (h : Valid objects d m)
    (hinstance : d.instanceOf cls interface = .ok d') : Valid objects d' m := by
  rw [instanceOf] at hinstance
  split at hinstance
  · cases hinstance
  · next known hknown =>
    split at hinstance
    · cases hinstance
      exact h
    · cases hinstance
      have hold := h.classes known (List.mem_of_getElem? hknown)
      refine ⟨?_, ?_, h.count, h.reserved, h.slots, ?_⟩
      · rw [List.length_set]
        exact h.members
      · intro other hother
        cases List.mem_or_eq_of_mem_set hother with
        | inl hother => exact h.classes other hother
        | inr heq =>
          rw [heq]
          exact ⟨hold.declared, hold.itable⟩
      · have hitables : (d.classes.set cls
            { known with interfaces := known.interfaces ++ [interface] }).filterMap (fun record => some record.itable) =
            d.classes.filterMap fun record => some record.itable := filterMap_set hknown rfl
        rw [List.filterMap_eq_map'] at hitables
        have hnodup := h.itables
        rwa [← hitables] at hnodup

/-- Whatever the files record, in any order, the records stay valid. -/
theorem recorded_valid (h : Recorded objects d m) : Valid objects d m := by
  induction h with
  | start m => exact valid_start m
  | number _ hnumber hparams hcount hroom ih => exact valid_number ih hnumber hparams hcount hroom
  | stub _ hstub hroom ih => exact valid_stub ih hstub hroom
  | class_ _ hdeclared hclass hroom ih => exact valid_class ih hdeclared hclass hroom
  | implement _ hcls himplement ih => exact valid_implement ih hcls himplement
  | instanceOf _ hinstance ih => exact valid_instanceOf ih hinstance
  | test _ htest hroom ih => exact valid_test ih htest hroom
  | other _ hkeeps ih => exact ih.keeps hkeeps

end InterfaceDispatch

end Krusty.Wasm
