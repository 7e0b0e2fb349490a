import Krusty.Wasm.Encode.Sections

/-! A module's bytes are read back as the module. -/
namespace Krusty.Wasm

open Parsing

/-! ### Runs of locals -/

theorem expand_append (front rest : List (UInt32 × ValType)) : expand (front ++ rest) = expand front ++ expand rest := by
  rw [expand, List.flatMap_append]
  rfl

theorem expand_singleton (count : UInt32) (ty : ValType) : expand [(count, ty)] = List.replicate count.toNat ty := by
  rw [expand, List.flatMap_singleton]

theorem length_expand (runs : List (UInt32 × ValType)) : (expand runs).length = (runs.map (·.1.toNat)).sum := by
  rw [expand, List.length_flatMap]
  simp only [List.length_replicate]

theorem expand_runs {locals : List ValType} (h : locals.length < LIMIT) : expand (runs locals) = locals := by
  induction locals using List.reverseRecOn with
  | nil => rfl
  | append_singleton locals last ih =>
    rw [List.length_append, List.length_singleton] at h
    have hlocals := ih (Nat.lt_of_succ_lt h)
    have hone : expand [(1, last)] = [last] := rfl
    rw [runs, List.foldl_append, List.foldl_cons, List.foldl_nil, ← runs]
    cases hlast : (runs locals).getLast? with
    | none => rw [expand_append, hlocals, hone]
    | some known =>
      cases known with
      | mk count ty =>
        dsimp only
        split
        · next hty =>
          have hsplit : runs locals = (runs locals).dropLast ++ [(count, ty)] := by
            have hne : runs locals ≠ [] := by
              intro hnil
              rw [hnil] at hlast
              cases hlast
            rw [List.getLast?_eq_some_getLast hne, Option.some_inj] at hlast
            rw [← hlast, List.dropLast_append_getLast]
          rw [hsplit, expand_append, expand_singleton] at hlocals
          have hcount : count.toNat ≤ locals.length := by
            rw [← hlocals, List.length_append, List.length_replicate]
            omega
          have hsucc : (count + 1).toNat = count.toNat + 1 := by
            have hlimit : LIMIT = 2 ^ 32 := rfl
            rw [UInt32.toNat_add]
            change (count.toNat + 1) % 2 ^ 32 = _
            omega
          rw [expand_append, expand_singleton, hsucc, List.replicate_succ', ← List.append_assoc, hlocals, hty]
        · rw [expand_append, hlocals, hone]

/-! ### Entries -/

variable {bytes : List UInt8}

theorem reads_tagged {α : Type} {p : Parser α} {a : α} (b : UInt8) (h : Reads LIMIT p bytes a) :
    Reads LIMIT (tagged b p) (b :: bytes) a := by
  apply Reads.next_bind
  rw [if_pos rfl]
  exact h

theorem reads_functionImport (imported : FunctionImport) : Reads LIMIT functionImport imported.encode imported :=
  (reads_name imported.module).bind ((reads_name imported.name).bind
    ((reads_tagged 0x00 (reads_index imported.ty)).bind_pure rfl))

def Global.entry (self : Global) : GlobalEntry := ⟨self.ty, self.isMutable, self.initCode.named⟩

theorem reads_globalEntry {global : Global} (h : global.initCode.WellFormed) :
    Reads LIMIT globalEntry global.encode global.entry :=
  (reads_valType global.ty).bind ((reads_isMutable global.isMutable).bind ((reads_expr h).bind_pure rfl))

theorem reads_localRun (local_ : UInt32 × ValType) : Reads LIMIT localRun (run local_) local_ :=
  (reads_index local_.1).bind ((reads_valType local_.2).bind_pure rfl)

def Function.codeEntry (self : Function) : CodeEntry := ⟨self.locals, self.code.named⟩

theorem run_ne_nil (local_ : UInt32 × ValType) : run local_ ≠ [] := by simp [run, index_ne_nil]

theorem reads_codeEntry {function : Function} (hlocals : function.locals.length < LIMIT)
    (hcode : function.code.WellFormed) : Reads LIMIT codeEntry function.encode function.codeEntry := by
  have hruns : Reads LIMIT (vec localRun) (vector run (runs function.locals)) (runs function.locals) :=
    reads_vector run_ne_nil fun local_ _ => reads_localRun local_
  have hsum : ((runs function.locals).map (·.1.toNat)).sum < LIMIT := by rwa [← length_expand, expand_runs hlocals]
  have hbody : Reads LIMIT functionBody function.entry function.codeEntry := by
    apply hruns.bind
    apply (reads_expr hcode).bind_pure
    rw [if_pos hsum, expand_runs hlocals]
    rfl
  intro hlength
  have hsize : function.entry.length < LIMIT := by
    rw [Function.encode, List.length_append] at hlength
    omega
  exact (reads_count hsize).bind hbody.sized hlength

theorem reads_elementSegment (functions : List UInt32) :
    Reads LIMIT elementSegment (uleb 3 ++ (0x00 :: vector index functions)) functions := by
  apply (reads_count (n := 3) (by decide)).bind
  rw [if_pos rfl]
  exact reads_tagged 0x00 (reads_indices functions)

theorem reads_bytes (data : List UInt8) : Reads LIMIT (vec next) (vector (fun b => [b]) data) data :=
  reads_vector (fun _ => List.cons_ne_nil _ _) fun b _ => .next b

theorem reads_dataSegment (data : List UInt8) :
    Reads LIMIT dataSegment (0x01 :: vector (fun b => [b]) data) data := by
  have hone : count 1 = [0x01] := by
    rw [count, uleb_eq, Varint.encode]
    rfl
  have hkind := (reads_count (n := 1) (by decide)).bind (f := fun kind => if kind = 1 then vec next else failure)
    (reads_bytes data)
  rw [hone] at hkind
  exact hkind

/-! ### Sections -/

/-- The bytes of a section, or none where it is absent. -/
def IsSection {α : Type} (id : UInt8) (p : Parser α) (absent : α) (bytes : List UInt8) (a : α) : Prop :=
  bytes = [] ∧ a = absent ∨ ∃ body, bytes = section_ id body ∧ Reads LIMIT p body a

/-- Bytes that are none or start with one of the ids. -/
def Starts (ids : List UInt8) (bytes : List UInt8) : Prop := ∀ b ∈ bytes.head?, b ∈ ids

theorem IsSection.present {α : Type} {id : UInt8} {p : Parser α} {absent : α} {body : List UInt8} {a : α}
    (h : Reads LIMIT p body a) : IsSection id p absent (section_ id body) a := .inr ⟨body, rfl, h⟩

section Sequence

variable {α : Type} {id : UInt8} {p : Parser α} {absent : α} {bytes rest : List UInt8} {ids : List UInt8} {a : α}

theorem IsSection.starts (h : IsSection id p absent bytes a) (hrest : Starts ids rest) : Starts (id :: ids) (bytes ++ rest) := by
  intro b hb
  cases h with
  | inl habsent =>
    rw [habsent.1, List.nil_append] at hb
    exact List.mem_cons_of_mem id (hrest b hb)
  | inr hpresent =>
    obtain ⟨body, rfl, -⟩ := hpresent
    cases hb
    exact List.mem_cons_self

theorem optionalSection_absent (h : Starts ids rest) (hid : id ∉ ids) :
    optionalSection id p absent rest = some (absent, rest) := by
  cases rest with
  | nil => rfl
  | cons b rest =>
    have hne : b ≠ id := by
      rintro rfl
      exact hid (h b rfl)
    rw [optionalSection, if_neg hne]

theorem IsSection.reads (h : IsSection id p absent bytes a) (hlength : bytes.length < LIMIT) (hrest : Starts ids rest)
    (hid : id ∉ ids) : optionalSection id p absent (bytes ++ rest) = some (a, rest) := by
  cases h with
  | inl habsent =>
    rw [habsent.1, habsent.2, List.nil_append]
    exact optionalSection_absent hrest hid
  | inr hpresent =>
    obtain ⟨body, rfl, hbody⟩ := hpresent
    rw [section_, List.length_cons, List.length_append] at hlength
    have hsized := (reads_count (by omega)).bind (f := fun n => sized n p) hbody.sized
    rw [section_, List.cons_append, optionalSection, if_pos rfl]
    apply hsized
    rw [List.length_append]
    omega

end Sequence

/-! ### The sections of a module -/

def encodeExport : List Char × ExternIndex → List UInt8
  | (text, .function i) => name text ++ (0x00 :: index i)
  | (text, .memory i) => name text ++ (0x02 :: index i)

theorem reads_exportEntry (known : List Char × ExternIndex) : Reads LIMIT exportEntry (encodeExport known) known := by
  cases known with
  | mk text i =>
    cases i with
    | function i => exact (reads_name text).bind (.next_bind ((reads_index i).map _))
    | memory i => exact (reads_name text).bind (.next_bind ((reads_index i).map _))

namespace Module

variable (m : Module) (functions : List Function)

/-- The exports, the memory's last. -/
def exportEntries : List (List Char × ExternIndex) :=
  m.exports.map (fun known => (known.1, .function known.2)) ++ (m.memoryPages.map fun _ => (MEMORY, .memory 0)).toList

/-- What a module holds, its sections in order. -/
def contents : Contents where
  types := [m.types]
  imports := m.imports
  functions := functions.map (·.ty)
  memories := m.memoryPages.toList
  tags := m.tags
  globals := m.globals.map Global.entry
  exports := m.exportEntries
  elements := if m.referenced = [] then [] else [m.referenced]
  dataCount := some 1
  codes := functions.map Function.codeEntry
  data := [m.data]

variable {m functions}

/-- Every declared function is defined. -/
theorem mapM_id_eq_some {α : Type} {slots : List (Option α)} {items : List α} :
    slots.mapM id = some items ↔ slots = items.map some := by
  induction slots generalizing items with
  | nil =>
    rw [List.mapM_nil]
    cases items <;> simp
  | cons slot slots ih =>
    rw [List.mapM_cons]
    cases slot with
    | none => cases items <;> simp
    | some a =>
      have hbind : (do
          let first ← id (some a)
          let rest ← slots.mapM id
          return first :: rest) = some items ↔ ∃ rest, slots.mapM id = some rest ∧ a :: rest = items := by
        change (slots.mapM id).bind (fun rest => some (a :: rest)) = some items ↔ _
        rw [Option.bind_eq_some_iff]
        simp only [Option.some_inj]
      simp only [hbind, ih]
      cases items with
      | nil => simp
      | cons first items => simp [and_comm]

theorem exportSection_eq : m.exportSection = section_ 7 (vector encodeExport m.exportEntries) := by
  have hfunctions : (m.exports.map fun known => (known.1, ExternIndex.function known.2)).flatMap encodeExport =
      m.exportFunctions := by
    rw [List.flatMap_map]
    rfl
  rw [exportSection, exportEntries]
  cases m.memoryPages with
  | none =>
    rw [Option.map_none, Option.toList_none, List.append_nil, vector, List.length_map, hfunctions]
  | some pages =>
    rw [Option.map_some, Option.toList_some, vector, List.length_append, List.length_map, List.flatMap_append, hfunctions,
      List.flatMap_singleton]
    rfl

/-- What a module is built of is written as the grammar has it: complete code, and no more locals than the format
can count. -/
structure WellFormed (m : Module) : Prop where
  inits : ∀ global ∈ m.globals, ∀ init ∈ global.init, init.WellFormed
  codes : ∀ function, some function ∈ m.functions → function.code.WellFormed
  locals : ∀ function, some function ∈ m.functions → function.locals.length < LIMIT

theorem initCode_wellFormed (h : m.WellFormed) {global : Global} (hglobal : global ∈ m.globals) :
    global.initCode.WellFormed := by
  rw [Global.initCode]
  cases hinit : global.init with
  | some init => exact h.inits global hglobal init hinit
  | none =>
    rw [Option.getD_none]
    cases global.ty <;> exact ⟨by simp [Code.named, defaultInit, Instr.named, Instr.Complete], rfl⟩

section Sections

variable (h : m.WellFormed) (hdefined : m.functions.mapM id = some functions)

theorem isSection_types :
    IsSection 1 (vec recType) [] (section_ 1 (uleb 1 ++ (0x4e :: vector SubType.encode m.types))) [m.types] := by
  have hread : Reads LIMIT (vec recType) (vector (fun types => 0x4e :: vector SubType.encode types) [m.types]) [m.types] :=
    reads_vector (fun _ => List.cons_ne_nil _ _) fun types _ => reads_recType types
  rw [vector_singleton] at hread
  exact .present hread

theorem isSection_imports :
    IsSection 2 (vec functionImport) [] (section_ 2 (vector FunctionImport.encode m.imports)) m.imports := by
  have hne (imported : FunctionImport) : imported.encode ≠ [] := by simp [FunctionImport.encode]
  exact .present (reads_vector hne fun imported _ => reads_functionImport imported)

theorem isSection_functions :
    IsSection 3 (vec u32) [] (section_ 3 (vector (fun function => index function.ty) functions))
      (functions.map (·.ty)) :=
  .present (reads_vector_map (fun function => index_ne_nil function.ty) fun function _ => reads_index function.ty)

theorem isSection_memory : IsSection 5 (vec (tagged 0x00 u32)) [] m.memorySection m.memoryPages.toList := by
  rw [memorySection]
  cases m.memoryPages with
  | none => exact .inl ⟨rfl, rfl⟩
  | some pages =>
    have hread : Reads LIMIT (vec (tagged 0x00 u32)) (vector (fun pages => 0x00 :: index pages) [pages]) [pages] :=
      reads_vector (fun _ => List.cons_ne_nil _ _) fun pages _ => reads_tagged 0x00 (reads_index pages)
    rw [vector_singleton] at hread
    exact .present hread

theorem isSection_tags : IsSection 13 (vec (tagged 0x00 u32)) [] m.tagSection m.tags := by
  rw [tagSection]
  split
  · next hnil => exact .inl ⟨rfl, hnil⟩
  · exact .present (reads_vector (fun _ => List.cons_ne_nil _ _) fun ty _ => reads_tagged 0x00 (reads_index ty))

theorem isSection_elements : IsSection 9 (vec elementSegment) [] m.elementSection
    (if m.referenced = [] then [] else [m.referenced]) := by
  rw [elementSection]
  split
  · exact .inl ⟨rfl, rfl⟩
  · have hne (functions : List UInt32) : uleb 3 ++ (0x00 :: vector index functions) ≠ [] := by simp
    have hread : Reads LIMIT (vec elementSegment) (vector _ [m.referenced]) [m.referenced] :=
      reads_vector hne fun functions _ => reads_elementSegment functions
    rw [vector_singleton] at hread
    exact .present hread

theorem isSection_exports : IsSection 7 (vec exportEntry) [] m.exportSection m.exportEntries := by
  have hne (known : List Char × ExternIndex) : encodeExport known ≠ [] := by
    cases known with
    | mk text i => cases i <;> simp [encodeExport]
  rw [exportSection_eq]
  exact .present (reads_vector hne fun known _ => reads_exportEntry known)

theorem isSection_dataCount : IsSection 12 (some <$> size) none (section_ 12 (uleb 1)) (some 1) :=
  .present ((reads_count (n := 1) (by decide)).map some)

theorem isSection_data :
    IsSection 11 (vec dataSegment) [] (section_ 11 (uleb 1 ++ (0x01 :: vector (fun b => [b]) m.data))) [m.data] := by
  have hread : Reads LIMIT (vec dataSegment) (vector (fun data => 0x01 :: vector (fun b => [b]) data) [m.data]) [m.data] :=
    reads_vector (fun _ => List.cons_ne_nil _ _) fun data _ => reads_dataSegment data
  rw [vector_singleton] at hread
  exact .present hread

include h

theorem isSection_globals : IsSection 6 (vec globalEntry) [] m.globalSection (m.globals.map Global.entry) := by
  have hne (global : Global) : global.encode ≠ [] := by simp [Global.encode, mutability]
  rw [globalSection]
  split
  · next hnil => exact .inl ⟨rfl, by rw [hnil, List.map_nil]⟩
  · exact .present (reads_vector_map hne fun global hglobal => reads_globalEntry (initCode_wellFormed h hglobal))

include hdefined

theorem isSection_codes :
    IsSection 10 (vec codeEntry) [] (section_ 10 (vector Function.encode functions)) (functions.map Function.codeEntry) := by
  have hne (function : Function) : function.encode ≠ [] := by simp [Function.encode, count, uleb_ne_nil]
  have hmem : ∀ function ∈ functions, some function ∈ m.functions := by
    intro function hfunction
    rw [mapM_id_eq_some.mp hdefined]
    exact List.mem_map_of_mem hfunction
  exact .present (reads_vector_map hne fun function hfunction =>
    reads_codeEntry (h.locals function (hmem function hfunction)) (h.codes function (hmem function hfunction)))

end Sections

/-- The sections are read one after the other. -/
theorem reads_contents (h : m.WellFormed) (hencode : m.encode = some bytes) (hlength : bytes.length < LIMIT) :
    ∃ functions, m.functions = functions.map some ∧ Wasm.contents bytes = some (m.contents functions, []) := by
  obtain ⟨functions, hdefined, hbytes⟩ := Option.bind_eq_some_iff.mp hencode
  have hend : Starts [] [] := fun _ hb => absurd hb (by simp)
  have h11 := (isSection_data (m := m)).starts hend
  have h10 := (isSection_codes h hdefined).starts h11
  have h12 := isSection_dataCount.starts h10
  have h9 := (isSection_elements (m := m)).starts h12
  have h7 := (isSection_exports (m := m)).starts h9
  have h6 := (isSection_globals h).starts h7
  have h13 := (isSection_tags (m := m)).starts h6
  have h5 := (isSection_memory (m := m)).starts h13
  have h3 := (@isSection_functions functions).starts h5
  have h2 := (isSection_imports (m := m)).starts h3
  rw [List.append_nil] at h11 h10 h12 h9 h7 h6 h13 h5 h3 h2
  cases hbytes
  simp only [List.length_append] at hlength
  have hdata := (isSection_data (m := m)).reads (by omega) hend List.not_mem_nil
  rw [List.append_nil] at hdata
  have hheader (rest : List UInt8) : header (HEADER ++ rest) = some ((), rest) := rfl
  refine ⟨functions, mapM_id_eq_some.mp hdefined, ?_⟩
  rw [Wasm.contents, bind_of_some (hheader _),
    bind_of_some (isSection_types.reads (by omega) h2 (by decide)),
    bind_of_some (isSection_imports.reads (by omega) h3 (by decide)),
    bind_of_some (isSection_functions.reads (by omega) h5 (by decide)),
    bind_of_some (isSection_memory.reads (by omega) h13 (by decide)),
    bind_of_some (isSection_tags.reads (by omega) h6 (by decide)),
    bind_of_some ((isSection_globals h).reads (by omega) h7 (by decide)),
    bind_of_some (isSection_exports.reads (by omega) h9 (by decide)),
    bind_of_some (isSection_elements.reads (by omega) h12 (by decide)),
    bind_of_some (isSection_dataCount.reads (by omega) h10 (by decide)),
    bind_of_some ((isSection_codes h hdefined).reads (by omega) h11 (by decide)), bind_of_some hdata]
  rfl

/-- A module's bytes are decoded to what it holds. -/
theorem decode_encode (h : m.WellFormed) (hencode : m.encode = some bytes) (hlength : bytes.length < LIMIT) :
    ∃ functions, m.functions = functions.map some ∧ decode bytes = some (m.contents functions) := by
  obtain ⟨functions, hdefined, hread⟩ := reads_contents h hencode hlength
  refine ⟨functions, hdefined, ?_⟩
  have hcounts : (m.contents functions).functions.length = (m.contents functions).codes.length ∧
      (m.contents functions).dataCount.all (· = (m.contents functions).data.length) := by
    rw [contents, List.length_map, List.length_map]
    exact ⟨rfl, rfl⟩
  rw [decode, whole, hread]
  dsimp only
  rw [Option.bind_eq_bind, Option.bind_some, if_pos hcounts]
  rfl

end Module

/-- Numbers are decoded to the value written and have no shorter bytes, and modules to what they hold. -/
theorem encode_decodes :
    (∀ value rest, Leb128.unsigned 64 (uleb value ++ rest) = some (value.toNat, rest)) ∧
    (∀ (value : UInt64) bytes rest, Leb128.unsigned 64 bytes = some (value.toNat, rest) →
      (uleb value).length + rest.length ≤ bytes.length) ∧
    (∀ value rest, Leb128.signed 64 (sleb value ++ rest) = some (value.toInt, rest)) ∧
    (∀ (value : Int64) bytes rest, Leb128.signed 64 bytes = some (value.toInt, rest) →
      (sleb value).length + rest.length ≤ bytes.length) ∧
    ∀ (m : Module) bytes, m.WellFormed → m.encode = some bytes → bytes.length < LIMIT →
      ∃ functions, m.functions = functions.map some ∧ decode bytes = some (m.contents functions) := by
  refine ⟨?_, ?_, ?_, ?_, fun m bytes => Module.decode_encode⟩
  · intro value rest
    rw [uleb_eq]
    exact Leb128.unsigned_encode value.toNat_lt rest
  · intro value bytes rest h
    rw [uleb_eq]
    exact Leb128.length_encode_le h
  · intro value rest
    rw [sleb_eq]
    exact Leb128.signed_encodeSigned value.le_toInt value.toInt_lt rest
  · intro value bytes rest h
    rw [sleb_eq]
    exact Leb128.length_encodeSigned_le h

/-- Numbers below 64, in one byte. -/
theorem uleb_small {value : UInt64} (h : value < 128) : uleb value = [value.toUInt8] := by
  have hlt := UInt64.lt_iff_toNat_lt.mp h
  change value.toNat < 128 at hlt
  rw [uleb_eq, Varint.encode, if_pos hlt]
  rfl

/-- A tag and a global of its own type's default value. -/
def tagModule : Module := ((Module.empty.exceptionTag [.i32]).2.global .i32).2

theorem encode_decodes_tag : ∃ bytes, tagModule.encode = some bytes ∧ decode bytes = some (tagModule.contents []) := by
  have hzero : sleb 0 = [0] := by
    rw [sleb_eq, Leb128.encodeSigned]
    rfl
  have hencode : tagModule.encode = some (HEADER ++ [1, 9, 1, 0x4e, 1, 0x4f, 0, 0x60, 1, 0x7f, 0, 2, 1, 0, 3, 1, 0,
      13, 3, 1, 0, 0, 6, 6, 1, 0x7f, 1, 0x41, 0, 0x0b, 7, 1, 0, 12, 1, 1, 10, 1, 0, 11, 3, 1, 1, 0]) := by
    simp [tagModule, Module.encode, Module.empty, Module.exceptionTag, Module.funcType, Module.declareType, Module.global,
      Module.memorySection, Module.tagSection, Module.globalSection, Module.exportSection, Module.elementSection,
      Module.exportFunctions, Global.encode, Global.initCode, defaultInit, Code.encode, Instr.encode, ValType.encode,
      SubType.plain, SubType.encode, CompositeType.encode, mutability, section_, vector, count, index, uleb_small, hzero]
  have hformed : tagModule.WellFormed := by
    refine ⟨?_, by simp [tagModule, Module.empty, Module.exceptionTag, Module.funcType, Module.declareType, Module.global],
      by simp [tagModule, Module.empty, Module.exceptionTag, Module.funcType, Module.declareType, Module.global]⟩
    intro global hglobal init hinit
    cases List.mem_singleton.mp hglobal
    cases hinit
  obtain ⟨functions, hfunctions, hdecode⟩ := encode_decodes.2.2.2.2 tagModule _ hformed hencode (by decide)
  have hnone : functions = [] := List.map_eq_nil_iff.mp hfunctions.symm
  exact ⟨_, hencode, hnone ▸ hdecode⟩

/-- An `end` of nothing cuts a constant expression short, and what follows it is no entry. -/
theorem decode_encode_unbalanced : ∃ bytes, (Module.empty.constantGlobal .i32 [.end_]).2.encode = some bytes ∧
    bytes.length < LIMIT ∧ decode bytes = none := by
  refine ⟨HEADER ++ [1, 3, 1, 0x4e, 0, 2, 1, 0, 3, 1, 0, 6, 5, 1, 0x7f, 0, 0x0b, 0x0b, 7, 1, 0, 12, 1, 1, 10, 1, 0, 11, 3,
    1, 1, 0], ?_, by decide, by decide⟩
  simp [Module.encode, Module.empty, Module.constantGlobal, Module.memorySection, Module.tagSection, Module.globalSection,
    Module.exportSection, Module.elementSection, Module.exportFunctions, Global.encode, Global.initCode, Code.encode,
    Instr.encode, ValType.encode, mutability, section_, vector, count, uleb_small]

end Krusty.Wasm
