import Krusty.Wasm.InterfaceDispatch.Tables

/-! What each shape says of the implementations of its member, and what the stub of that shape does. -/
namespace Krusty.Wasm.InterfaceDispatch

variable {self : InterfaceDispatch} {member : Member}

/-- The implementations that a shape is right for. The struct of a test is one of some implementing class. -/
def Suits (self : InterfaceDispatch) (member : Member) : Shape → Prop
  | .unreachable => member.implementations = []
  | .direct function => ∀ implementation ∈ member.implementations, implementation.2 = function
  | .tested structure_ thenTo otherwise =>
    (∃ cls ∈ member.classes, structure_ ∈ self.ancestorsOf cls) ∧
      ∀ implementation ∈ member.implementations,
        implementation.2 = (if structure_ ∈ self.ancestorsOf implementation.1 then thenTo else otherwise)
  | .table _ => False

theorem mem_functions {function : UInt32} :
    function ∈ SortedSets.unique ((member.implementations.map (·.2)).mergeSort (· ≤ ·)) ↔
      ∃ implementation ∈ member.implementations, implementation.2 = function := by
  rw [SortedSets.mem_unique, List.mem_mergeSort, List.mem_map]

theorem mem_implementors {function : UInt32} {cls : ClassRef} :
    cls ∈ implementors member function ↔ (cls, function) ∈ member.implementations := by
  rw [implementors, List.mem_map]
  constructor
  · rintro ⟨implementation, h, rfl⟩
    have hfilter := List.mem_filter.mp h
    have heq : implementation.2 = function := of_decide_eq_true hfilter.2
    rw [← heq]
    exact hfilter.1
  · intro h
    exact ⟨_, List.mem_filter.mpr ⟨h, decide_eq_true rfl⟩, rfl⟩

theorem separating_suits {structure_ thenTo otherwise : UInt32}
    (h : self.separating member thenTo otherwise = some structure_)
    (hfunctions : ∀ implementation ∈ member.implementations, implementation.2 = thenTo ∨ implementation.2 = otherwise) :
    Suits self member (.tested structure_ thenTo otherwise) := by
  rw [separating] at h
  cases hseed : implementors member thenTo with
  | nil =>
    rw [hseed] at h
    cases h
  | cons seed rest =>
    rw [hseed] at h
    dsimp only at h
    have hseeds : seed ∈ implementors member thenTo := by
      rw [hseed]
      exact List.mem_cons_self
    have hin := List.mem_of_find?_eq_some h
    have hseparates := List.find?_some h
    rw [← hseed, Bool.and_eq_true, List.all_eq_true, List.all_eq_true] at hseparates
    constructor
    · exact ⟨seed, List.mem_map_of_mem (mem_implementors.mp hseeds), hin⟩
    · intro implementation himpl
      cases hfunctions implementation himpl with
      | inl hthen =>
        have hmem := hseparates.1 implementation.1 (mem_implementors.mpr (hthen ▸ himpl))
        rw [if_pos (of_decide_eq_true hmem), hthen]
      | inr hother =>
        have hnot := hseparates.2 implementation.1 (mem_implementors.mpr (hother ▸ himpl))
        rw [if_neg (of_decide_eq_true hnot), hother]

theorem shape_suits {shape : Shape} (h : self.shape member = some shape) : Suits self member shape := by
  have hfunctions (implementation : ClassRef × UInt32) (himpl : implementation ∈ member.implementations) :=
    mem_functions.mpr ⟨implementation, himpl, rfl⟩
  rw [InterfaceDispatch.shape] at h
  split at h
  · next hnil =>
    cases h
    rw [hnil] at hfunctions
    exact List.eq_nil_iff_forall_not_mem.mpr fun implementation himpl => List.not_mem_nil (hfunctions implementation himpl)
  · next only honly =>
    cases h
    rw [honly] at hfunctions
    exact fun implementation himpl => List.mem_singleton.mp (hfunctions implementation himpl)
  · next first second hboth =>
    rw [hboth] at hfunctions
    have htwo (implementation : ClassRef × UInt32) (himpl : implementation ∈ member.implementations) :
        implementation.2 = first ∨ implementation.2 = second := by
      have hmem := hfunctions implementation himpl
      rwa [List.mem_cons, List.mem_singleton] at hmem
    cases hfirst : self.separating member first second with
    | some structure_ =>
      rw [hfirst] at h
      cases h
      exact separating_suits hfirst htwo
    | none =>
      rw [hfirst, Option.map_none, Option.none_or, Option.map_eq_some_iff] at h
      obtain ⟨structure_, hsecond, rfl⟩ := h
      exact separating_suits hsecond fun implementation himpl => (htwo implementation himpl).symm
  · cases h

theorem shape_ne_table (k : ℕ) : self.shape member ≠ some (.table k) := fun h => shape_suits h

/-! ### The stubs run -/

section Stubs

variable {m : Module} {objects : ObjectRoot} {invoke : UInt32 → List Value → Option (List Value)} {args : List Value}
  {function : UInt32}

variable {calls : List (UInt32 × List Value)}

theorem runCode_forward {stack : List Value} {count : ℕ}
    (hcount : count ≤ args.length) (hroom : count ≤ UInt32.size) :
    runCode m invoke args ((List.range count).map fun index => .localGet (UInt32.ofNat index)) ⟨.running, stack, calls⟩ =
      some ⟨.running, (args.take count).reverse ++ stack, calls⟩ := by
  induction count with
  | zero => rfl
  | succ count ih =>
    have hlt : count < args.length := hcount
    have hindex : (UInt32.ofNat count).toNat = count := UInt32.toNat_ofNat_of_lt' hroom
    have hlast : args[(UInt32.ofNat count).toNat]? = some args[count] := by rw [hindex, List.getElem?_eq_getElem hlt]
    rw [List.range_succ, List.map_append, runCode_append, ih (by omega) (by omega), Option.bind_some, List.map_singleton,
      runCode_cons, stepInstr_running, execute_localGet, hlast, List.take_add_one, List.getElem?_eq_getElem hlt, List.reverse_append]
    rfl

/-- A call with the arguments on the stack. -/
theorem callWith_args {ty : UInt32} (harity : m.arity? ty = some args.length) :
    callWith m invoke function ty args.reverse calls =
      (invoke function args).map fun results => ⟨.running, results.reverse, calls ++ [(function, args)]⟩ := by
  have hshort : ¬args.reverse.length < args.length := by rw [List.length_reverse]; exact lt_irrefl _
  have htake : (args.reverse.take args.length).reverse = args := by
    rw [← List.length_reverse, List.take_length, List.reverse_reverse]
  have hdrop : args.reverse.drop args.length = [] := by
    rw [← List.length_reverse, List.drop_length]
  rw [callWith, harity]
  change (if _ then _ else _ : Option State) = _
  rw [if_neg hshort, htake, hdrop]
  cases invoke function args with
  | none => rfl
  | some results =>
    change some (State.mk _ (results.reverse ++ []) _) = _
    rw [List.append_nil]
    rfl

/-- What a stub that reaches a function leaves: the function's results, and the one call. -/
def reached (invoke : UInt32 → List Value → Option (List Value)) (args : List Value) (function : UInt32) :
    Option State :=
  (invoke function args).map fun results => ⟨.running, results.reverse, [(function, args)]⟩

variable (hargs : member.params.length = args.length) (hroom : args.length ≤ UInt32.size)
  (hfunction : m.functionType? function = some member.ty) (harity : m.arity? member.ty = some args.length)

include hargs hroom

theorem run_forward : runCode m invoke args (forward member) ⟨.running, [], []⟩ = some ⟨.running, args.reverse, []⟩ := by
  have hforward := @runCode_forward m invoke args [] [] _ (le_of_eq hargs) (hargs ▸ hroom)
  rwa [hargs, List.take_length, List.append_nil, ← hargs] at hforward

include hfunction harity

/-- The parameters forwarded to a function. -/
theorem run_call : runCode m invoke args (forward member ++ [.call function]) ⟨.running, [], []⟩ =
    reached invoke args function := by
  have hforward := @run_forward member m invoke args hargs hroom
  rw [runCode_append, hforward, Option.bind_some, runCode_cons, stepInstr_running, execute_call, hfunction, Option.bind_some,
    callWith_args harity, reached]
  cases invoke function args <;> rfl

omit hargs hroom hfunction harity

/-- The instructions of a branch that is passed over. -/
theorem run_skipped {mode : Mode} {stack : List Value} (hmode : mode ≠ .running)
    (function : UInt32) : runCode m invoke args (forward member ++ [.call function]) ⟨mode, stack, calls⟩ =
      some ⟨mode, stack, calls⟩ := by
  have hget : ∀ indices : List ℕ, runCode m invoke args (indices.map fun index => .localGet (UInt32.ofNat index))
      ⟨mode, stack, calls⟩ = some ⟨mode, stack, calls⟩ := by
    intro indices
    induction indices with
    | nil => rfl
    | cons index indices ih =>
      rw [List.map_cons, runCode_cons]
      cases mode with
      | running => exact absurd rfl hmode
      | toElse depth => exact ih
      | toEnd depth => exact ih
  rw [runCode_append, forward, hget, Option.bind_some, runCode_cons]
  cases mode with
  | running => exact absurd rfl hmode
  | toElse depth => rfl
  | toEnd depth => rfl

include hargs hroom

theorem run_tested {structure_ thenTo otherwise : UInt32} {result : BlockType} {receiver : Value} {rest : List Value}
    (hreceiver : args = receiver :: rest)
    (hfunction : function = if m.isOf false (.concrete structure_) receiver then thenTo else otherwise)
    (htype : m.functionType? function = some member.ty) (harity : m.arity? member.ty = some args.length) :
    runCode m invoke args (([.localGet 0, .refTest false (.concrete structure_), .if_ result] : Code) ++ forward member ++
      ([.call thenTo, .else_] : Code) ++ forward member ++ ([.call otherwise, .end_] : Code)) ⟨.running, [], []⟩ =
      reached invoke args function := by
  have hcall := @run_call member m invoke args function hargs hroom htype harity
  have hcode (test last : Code) : test ++ forward member ++ [.call thenTo, .else_] ++ forward member ++
      (.call otherwise :: last) = test ++ ((forward member ++ [.call thenTo]) ++
        ([.else_] ++ ((forward member ++ [.call otherwise]) ++ last))) := by simp
  have hfirst : args[(0 : UInt32).toNat]? = some receiver := by rw [hreceiver]; rfl
  have htest : runCode m invoke args [.localGet 0, .refTest false (.concrete structure_), .if_ result]
      ⟨.running, [], []⟩ = some ⟨if m.isOf false (.concrete structure_) receiver then .running else .toElse 0, [], []⟩ := by
    rw [runCode_cons, stepInstr_running, execute_localGet, hfirst, Option.map_some, Option.bind_some]
    change (some (State.mk (if (if m.isOf false (.concrete structure_) receiver then (1 : UInt32) else 0) = 0
      then .toElse 0 else .running) [] [])).bind _ = _
    cases m.isOf false (.concrete structure_) receiver <;> rfl
  rw [hcode, runCode_append, htest, Option.bind_some, runCode_append]
  cases hof : m.isOf false (.concrete structure_) receiver with
  | true =>
    rw [hof, if_pos rfl] at hfunction
    rw [if_pos rfl, ← hfunction, hcall, reached]
    cases invoke function args with
    | none => rfl
    | some results =>
      rw [Option.map_some, Option.bind_some, runCode_append]
      change (runCode m invoke args ((forward member ++ [.call otherwise]) ++ [.end_]) ⟨.toEnd 0, _, _⟩) = _
      rw [runCode_append, run_skipped (by simp)]
      rfl
  | false =>
    rw [hof, if_neg (by decide)] at hfunction
    rw [if_neg (by decide), run_skipped (by simp), Option.bind_some, runCode_append]
    change (runCode m invoke args ((forward member ++ [.call otherwise]) ++ [.end_]) ⟨.running, [], []⟩) = _
    rw [runCode_append, ← hfunction, hcall, reached]
    cases invoke function args <;> rfl

theorem run_table {objects : ObjectRoot} {index : ℕ} {known tableTy : UInt32} {fields slots rest elements : List Value}
    (hreceiver : args = .struct known (.struct tableTy slots :: fields) :: rest)
    (hobject : m.isSubtype known objects.object = true) (htable : m.isSubtype tableTy objects.anyTable = true)
    (hslots : slots[ITABLE_FIELD.toNat]? = some (.array objects.itable elements))
    (helement : elements[index]? = some (.func function)) (hindex : index < UInt32.size)
    (hfunction : m.functionType? function = some member.ty) (harity : m.arity? member.ty = some args.length) :
    runCode m invoke args (forward member ++ ([.localGet 0, .refCast false (.concrete objects.object),
      .structGet objects.object 0, .structGet objects.anyTable ITABLE_FIELD, .i32Const (UInt32.ofNat index).toInt32,
      .arrayGet objects.itable, .refCast false (.concrete member.ty), .callRef member.ty] : Code)) ⟨.running, [], []⟩ =
      reached invoke args function := by
  have hforward := @run_forward member m invoke args hargs hroom
  have hfirst : args[(0 : UInt32).toNat]? = some (.struct known (.struct tableTy slots :: fields)) := by
    rw [hreceiver]
    rfl
  have hnat : (UInt32.ofNat index).toInt32.toUInt32.toNat = index := by
    rw [UInt32.toUInt32_toInt32, UInt32.toNat_ofNat_of_lt' hindex]
  have hcast : m.isOf false (.concrete member.ty) (.func function) = true := by
    rw [Module.isOf, hfunction]
    exact isSubtype_self m member.ty
  have hdispatch : (Value.struct tableTy slots :: fields)[(0 : UInt32).toNat]? = some (.struct tableTy slots) := rfl
  have hreceived : m.isOf false (.concrete objects.object) (.struct known (.struct tableTy slots :: fields)) = true :=
    hobject
  rw [runCode_append, hforward, Option.bind_some]
  simp only [runCode_cons, stepInstr_running, execute_localGet, execute_refCast, execute_structGet, execute_i32Const,
    execute_arrayGet, execute_callRef, State.push, hfirst, Option.map_some, Option.bind_some, hreceived,
    if_true, hobject, hdispatch, htable, hslots, isSubtype_self, hnat, helement, hcast, callWith_args harity, reached]
  cases invoke function args <;> rfl

end Stubs

end Krusty.Wasm.InterfaceDispatch
