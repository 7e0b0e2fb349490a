import Krusty.Resolve.SupertypeCycles

/-! Cyclic hierarchies are found and cut exactly, in whatever order the hash maps are gone through. -/
namespace Krusty.Resolve.SupertypeCycles

open Relation Closure StrongComponents

section Lookups

variable {Ty : Type} {table : SymbolTable Ty} {sig : ClassSig Ty} {a b : TypeName}

theorem get_modify (table : SymbolTable Ty) (name : TypeName) (f : ClassSig Ty → ClassSig Ty) (a : TypeName) :
    (table.modify name f).get a = if a = name then (table.get a).map f else table.get a := by
  unfold SymbolTable.modify SymbolTable.get
  dsimp only
  induction table.classes with
  | nil => simp
  | cons entry classes ih =>
    obtain ⟨key, sig⟩ := entry
    have hentry : (if key = name then (key, f sig) else (key, sig)) = (key, if key = name then f sig else sig) := by
      split_ifs <;> rfl
    rw [List.map_cons, hentry, List.lookup_cons, List.lookup_cons]
    by_cases hkey : a = key
    · rw [hkey, beq_self_eq_true]
      split_ifs <;> rfl
    · have hne : (a == key) = false := by simpa using hkey
      rw [hne]
      exact ih

namespace ClassSig

/-- The supertypes, each with its own type arguments. -/
def edges (sig : ClassSig Ty) : List (TypeName × List Ty) :=
  (sig.superInternal.map fun parent => (parent, sig.superTypeArgs)).toList ++
    sig.interfaces.zipIdx.map fun entry => (entry.1, sig.interfaceTypeArgs[entry.2]?.getD [])

theorem map_edges (sig : ClassSig Ty) : sig.edges.map Prod.fst = sig.superInternal.toList ++ sig.interfaces := by
  have hinterfaces : (sig.interfaces.zipIdx.map fun entry =>
      (entry.1, sig.interfaceTypeArgs[entry.2]?.getD [])).map Prod.fst = sig.interfaces := by
    rw [List.map_map]
    exact List.zipIdx_map_fst 0 sig.interfaces
  rw [edges, List.map_append, hinterfaces]
  cases sig.superInternal <;> rfl

/-- Interfaces and arguments listed apart belong together as they did. -/
theorem zip_unzip (l : List (TypeName × List Ty)) :
    ((l.map Prod.fst).zipIdx.map fun entry => (entry.1, (l.map Prod.snd)[entry.2]?.getD [])) = l := by
  apply List.ext_getElem
  · simp
  · intro i hi hi'
    simp [List.getElem?_eq_getElem hi']

theorem keptInterfaces_eq (sig : ClassSig Ty) (same : TypeName → Bool) : sig.keptInterfaces same =
    (sig.interfaces.zipIdx.map fun entry => (entry.1, sig.interfaceTypeArgs[entry.2]?.getD [])).filter
      fun e => !same e.1 := by
  rw [keptInterfaces, List.filter_map]
  congr 1
  apply List.filter_congr
  intro entry hentry
  have hmem : entry.1 ∈ sig.interfaces := by
    have hfst := List.mem_map_of_mem (f := Prod.fst) hentry
    rwa [List.zipIdx_map_fst] at hfst
  simp [hmem]

/-- The cut takes away the edges to the class's own component, and leaves the others as they are. -/
theorem edges_cut (sig : ClassSig Ty) (same : TypeName → Bool) :
    (sig.cut same).edges = sig.edges.filter fun e => !same e.1 := by
  have hsuper : ∀ sig' : ClassSig Ty, sig' = (if sig.superInternal.any same then
      { sig with superInternal := none, superTypeArgs := [] } else sig) →
      (sig'.superInternal.map fun parent => (parent, sig'.superTypeArgs)).toList =
        ((sig.superInternal.map fun parent => (parent, sig.superTypeArgs)).toList).filter (fun e => !same e.1) ∧
      sig'.interfaces = sig.interfaces ∧ sig'.interfaceTypeArgs = sig.interfaceTypeArgs := by
    rintro sig' rfl
    cases hparent : sig.superInternal with
    | none => simp [hparent]
    | some parent =>
      by_cases hsame : same parent = true
      · simp [hsame]
      · simp [hsame, hparent]
  obtain ⟨hparent, hinterfaces, harguments⟩ := hsuper _ rfl
  rw [cut]
  generalize (if sig.superInternal.any same then { sig with superInternal := none, superTypeArgs := [] } else sig) =
    sig' at hparent hinterfaces harguments
  have hkept : sig'.keptInterfaces same = sig.keptInterfaces same := by
    rw [keptInterfaces, keptInterfaces, hinterfaces, harguments]
  rw [edges, edges, List.filter_append, ← hparent, ← keptInterfaces_eq]
  split_ifs with hnone
  · rw [hinterfaces, harguments, keptInterfaces_eq, eq_comm, List.filter_eq_self.mpr]
    intro e he
    obtain ⟨entry, hentry, rfl⟩ := List.mem_map.mp he
    have hmem : entry.1 ∈ sig.interfaces := by
      have hfst := List.mem_map_of_mem (f := Prod.fst) hentry
      rwa [List.zipIdx_map_fst] at hfst
    rw [hinterfaces, List.isEmpty_iff, List.filter_eq_nil_iff] at hnone
    simpa using hnone entry.1 hmem
  · rw [hkept, zip_unzip]

theorem sourceDecl_cut (sig : ClassSig Ty) (same : TypeName → Bool) : (sig.cut same).sourceDecl = sig.sourceDecl := by
  rw [cut]
  split_ifs <;> rfl

end ClassSig

theorem directSupertypes_of_get (h : table.get a = some sig) : directSupertypes table a = sig.edges.map Prod.fst := by
  rw [directSupertypes, h, ClassSig.map_edges]

theorem lookup_map_self {β : Type} (f : TypeName → β) (names : List TypeName) (a : TypeName) :
    (names.map fun name => (name, f name)).lookup a = if a ∈ names then some (f a) else none := by
  induction names with
  | nil => rfl
  | cons name names ih =>
    rw [List.map_cons, List.lookup_cons, ih]
    by_cases ha : a = name
    · simp [ha]
    · have hne : (a == name) = false := by simpa using ha
      simp [hne, ha]

end Lookups

section Found

variable {Ty : Type} {table : SymbolTable Ty} {visits : Visits} {fuel : ℕ} {a b : TypeName}

noncomputable def names : List TypeName := (Finset.univ : Finset TypeName).toList

theorem mem_names (a : TypeName) : a ∈ names := Finset.mem_toList.mpr (Finset.mem_univ a)

/-- As many steps as the traversals take. -/
noncomputable def enough (table : SymbolTable Ty) : ℕ :=
  table.classes.length + edgesLeft (fun a => a :: directSupertypes table a) names []

variable (table) in
/-- The module's classes, and what they inherit from. -/
def Known (a : TypeName) : Prop :=
  ∃ root ∈ table.classes.map Prod.fst, ReflTransGen (Edge (directSupertypes table)) root a

theorem Known.edge (ha : Known table a) (h : Edge (directSupertypes table) a b) : Known table b := by
  obtain ⟨root, hroot, hpath⟩ := ha
  exact ⟨root, hroot, hpath.tail h⟩

theorem edgesLeft_le {next next' : TypeName → List TypeName} (h : ∀ a, (next a).length ≤ (next' a).length) :
    edgesLeft next names [] ≤ edgesLeft next' names [] := by
  apply List.sum_le_sum
  intro a _
  split_ifs
  · exact le_refl _
  · exact h a

theorem mem_graph_keys (hfuel : enough table ≤ fuel) :
    a ∈ close (directSupertypes table) fuel [] (visits.pending (table.classes.map Prod.fst)).reverse ↔ Known table a := by
  have hle : edgesLeft (directSupertypes table) names [] ≤
      edgesLeft (fun a => a :: directSupertypes table a) names [] := edgesLeft_le fun a => Nat.le_succ _
  have hlength : (visits.pending (table.classes.map Prod.fst)).reverse.length = table.classes.length := by
    rw [List.length_reverse, (visits.pending_perm _).length_eq, List.length_map]
  have hdomain : ∀ a, directSupertypes table a ≠ [] → a ∈ names := fun a _ => mem_names a
  have hclosed : Closed (directSupertypes table) [] (visits.pending (table.classes.map Prod.fst)).reverse := by
    intro b hb
    cases hb
  rw [mem_close hdomain hclosed (by rw [hlength]; unfold enough at hfuel; omega)]
  simp only [Reached, List.not_mem_nil, false_or, List.mem_reverse, (visits.pending_perm _).mem_iff]
  rfl

variable (visits) in
/-- The graph holds the known classes with their direct supertypes. -/
theorem parents_graph (hfuel : enough table ≤ fuel) (a : TypeName) :
    b ∈ (supertypeGraph table visits fuel).parents a ↔ Known table a ∧ b ∈ directSupertypes table a := by
  rw [Graph.parents, supertypeGraph, lookup_map_self]
  by_cases ha : Known table a
  · rw [if_pos ((mem_graph_keys hfuel).mpr ha)]
    exact (and_iff_right ha).symm
  · rw [if_neg (mt (mem_graph_keys hfuel).mp ha)]
    exact iff_of_false (List.not_mem_nil) fun h => ha h.1

theorem mem_children (graph : Graph) : a ∈ graph.children visits b ↔ ∃ entry ∈ graph, entry.1 = a ∧ b ∈ entry.2 := by
  unfold Graph.children
  simp only [List.mem_flatMap, (visits.edges_perm graph).mem_iff, List.mem_map, List.mem_filter, decide_eq_true_eq]
  constructor
  · rintro ⟨entry, hentry, parent, ⟨hparent, rfl⟩, hchild⟩
    exact ⟨entry, hentry, hchild, hparent⟩
  · rintro ⟨entry, hentry, hchild, hparent⟩
    exact ⟨entry, hentry, b, ⟨hparent, rfl⟩, hchild⟩

theorem children_graph (hfuel : enough table ≤ fuel) : a ∈ (supertypeGraph table visits fuel).children visits b ↔
    b ∈ (supertypeGraph table visits fuel).parents a := by
  rw [mem_children, parents_graph visits hfuel]
  constructor
  · rintro ⟨entry, hentry, rfl, hparent⟩
    obtain ⟨name, hname, rfl⟩ := List.mem_map.mp hentry
    exact ⟨(mem_graph_keys hfuel).mp hname, hparent⟩
  · rintro ⟨hknown, hparent⟩
    exact ⟨_, List.mem_map_of_mem ((mem_graph_keys hfuel).mpr hknown), rfl, hparent⟩

variable (visits) in
/-- From a known class, the graph leads where the supertypes lead. -/
theorem graph_path (hfuel : enough table ≤ fuel) (ha : Known table a) :
    ReflTransGen (Edge (supertypeGraph table visits fuel).parents) a b ↔
      ReflTransGen (Edge (directSupertypes table)) a b := by
  constructor
  · intro h
    exact ReflTransGen.mono (fun c d hcd => ((parents_graph visits hfuel c).mp hcd).2) _ _ h
  · intro h
    induction h using ReflTransGen.head_induction_on with
    | refl => exact .refl
    | @head c d hedge _ ih => exact .head ((parents_graph visits hfuel c).mpr ⟨ha, hedge⟩) (ih (ha.edge hedge))

theorem Known.path (ha : Known table a) (h : ReflTransGen (Edge (directSupertypes table)) a b) : Known table b := by
  obtain ⟨root, hroot, hpath⟩ := ha
  exact ⟨root, hroot, hpath.trans h⟩

/-- What the components found say of the classes. -/
structure Found (table : SymbolTable Ty) (c : Components TypeName) : Prop where
  known : ∀ a, (c.componentOf a).isSome ↔ Known table a
  strong : ∀ a b, Known table a → (c.componentOf b = c.componentOf a ↔ Strong (directSupertypes table) a b)
  cyclic : ∀ i, i ∈ c.cyclic ↔ ∃ a, c.componentOf a = some i ∧ TransGen (Edge (directSupertypes table)) a a

theorem supertypeComponents_found (hfuel : enough table ≤ fuel) :
    ∃ c, supertypeComponents visits fuel (supertypeGraph table visits fuel) = some c ∧ Found table c := by
  have hkeys : ∀ a, a ∈ visits.roots ((supertypeGraph table visits fuel).map Prod.fst) ↔ Known table a := by
    intro a
    rw [(visits.roots_perm _).mem_iff, supertypeGraph, List.map_map, ← @mem_graph_keys Ty table visits fuel a hfuel]
    simp
  have hedges : edgesLeft (fun a => a :: (supertypeGraph table visits fuel).parents a) names [] ≤ fuel := by
    have hle : edgesLeft (fun a => a :: (supertypeGraph table visits fuel).parents a) names [] ≤
        edgesLeft (fun a => a :: directSupertypes table a) names [] := by
      refine edgesLeft_le fun a => Nat.succ_le_succ ?_
      rw [Graph.parents, supertypeGraph, lookup_map_self]
      split_ifs
      · exact le_refl _
      · exact Nat.zero_le _
    unfold enough at hfuel
    omega
  have hroots : ∀ root ∈ visits.roots ((supertypeGraph table visits fuel).map Prod.fst), root ∈ names :=
    fun root _ => mem_names root
  obtain ⟨c, hc, hlabelled, hstrong, hcyclic⟩ := components_spec (fun a b => children_graph hfuel)
    (fun a hne => by
      obtain ⟨b, hb⟩ := List.exists_mem_of_ne_nil _ hne
      exact (hkeys a).mpr ((parents_graph visits hfuel a).mp hb).1)
    hroots (fun _ b _ => mem_names b) hedges
  have hknown : ∀ a, (c.componentOf a).isSome ↔ Known table a := by
    intro a
    rw [hlabelled a]
    constructor
    · rintro ⟨root, hroot, hpath⟩
      have hknown := (hkeys root).mp hroot
      exact hknown.path ((graph_path visits hfuel hknown).mp hpath)
    · intro ha
      exact ⟨a, (hkeys a).mpr ha, .refl⟩
  refine ⟨c, hc, hknown, fun a b ha => ?_, fun i => ?_⟩
  · obtain ⟨i, hi⟩ := Option.isSome_iff_exists.mp ((hknown a).mpr ha)
    rw [hi, hstrong hi b]
    constructor
    · intro h
      have hab := (graph_path visits hfuel ha).mp h.1
      exact ⟨hab, (graph_path visits hfuel (ha.path hab)).mp h.2⟩
    · intro h
      exact ⟨(graph_path visits hfuel ha).mpr h.1, (graph_path visits hfuel (ha.path h.1)).mpr h.2⟩
  · rw [hcyclic i]
    refine exists_congr fun a => and_congr_right fun ha => ?_
    have hmember : Known table a := (hknown a).mp (by rw [ha]; rfl)
    rw [TransGen.head'_iff, TransGen.head'_iff]
    refine exists_congr fun d => ?_
    constructor
    · rintro ⟨hedge, hpath⟩
      have hdirect := ((parents_graph visits hfuel a).mp hedge).2
      exact ⟨hdirect, (graph_path visits hfuel (hmember.edge hdirect)).mp hpath⟩
    · rintro ⟨hedge, hpath⟩
      exact ⟨(parents_graph visits hfuel a).mpr ⟨hmember, hedge⟩,
        (graph_path visits hfuel (hmember.edge hedge)).mpr hpath⟩

end Found

section Cut

variable {Ty : Type} {table table' : SymbolTable Ty} {sink sink' : DiagSink} {componentOf : TypeName → Option ℕ}
  {diagnosticSpan : TypeName → ClassSig Ty → (TypeName → Option ℕ) → Span} {a b : TypeName} {sig : ClassSig Ty}

def cycleDiagnostic (componentOf : TypeName → Option ℕ)
    (diagnosticSpan : TypeName → ClassSig Ty → (TypeName → Option ℕ) → Span) (internal : TypeName) (sig : ClassSig Ty) :
    Diagnostic :=
  ⟨diagnosticSpan internal sig componentOf, cycleMessage, sig.sourceFile⟩

/-- Each class of a list without repetitions is reported once, as far as the sink takes its span, and cut once. -/
theorem foldl_cutClass {names : List TypeName} (hnodup : names.Nodup) (hnames : ∀ a ∈ names, (table.get a).isSome) :
    ∃ table' sink', names.foldl (cutClass componentOf diagnosticSpan) (table, sink) = (table', sink') ∧
      (∀ a, table'.get a = if a ∈ names then (table.get a).map (·.cut (sameComponent componentOf a)) else table.get a) ∧
      table'.classifier = table.classifier ∧ sink'.authoritativeRanges = sink.authoritativeRanges ∧
      sink'.diags = sink.diags ++ (names.filterMap fun a => (table.get a).map
        (cycleDiagnostic componentOf diagnosticSpan a)).filter fun d => sink.accepts d.span := by
  induction names generalizing table sink with
  | nil => exact ⟨table, sink, rfl, fun a => by simp, rfl, rfl, by simp⟩
  | cons name names ih =>
    obtain ⟨hname, hrest⟩ := List.nodup_cons.mp hnodup
    obtain ⟨sig, hsig⟩ := Option.isSome_iff_exists.mp (hnames name List.mem_cons_self)
    have hget := get_modify table name (·.cut (sameComponent componentOf name))
    have hothers : ∀ a ∈ names, (table.modify name (·.cut (sameComponent componentOf name))).get a = table.get a := by
      intro a ha
      have hne : a ≠ name := fun heq => hname (heq ▸ ha)
      rw [hget, if_neg hne]
    have hreport : ((sink.setFile sig.sourceFile).error (diagnosticSpan name sig componentOf) cycleMessage).diags =
        sink.diags ++ [cycleDiagnostic componentOf diagnosticSpan name sig].filter (fun d => sink.accepts d.span) ∧
        ((sink.setFile sig.sourceFile).error (diagnosticSpan name sig componentOf) cycleMessage).authoritativeRanges =
          sink.authoritativeRanges := by
      have haccepts : (sink.setFile sig.sourceFile).accepts = sink.accepts := rfl
      rw [DiagSink.error, haccepts, List.filter_singleton]
      cases hspan : sink.accepts (diagnosticSpan name sig componentOf) with
      | true => simp [hspan, cycleDiagnostic, DiagSink.setFile]
      | false => simp [hspan, cycleDiagnostic, DiagSink.setFile]
    obtain ⟨table', sink', hfold, hclasses, hclassifier, hranges, hdiags⟩ :=
      @ih (table.modify name (·.cut (sameComponent componentOf name)))
        ((sink.setFile sig.sourceFile).error (diagnosticSpan name sig componentOf) cycleMessage) hrest
        fun a ha => by rw [hothers a ha]; exact hnames a (List.mem_cons_of_mem _ ha)
    refine ⟨table', sink', ?_, fun a => ?_, hclassifier, hranges.trans hreport.2, ?_⟩
    · rw [List.foldl_cons, ← hfold, cutClass]
      dsimp only
      rw [hsig]
    · rw [hclasses a]
      by_cases ha : a ∈ names
      · rw [if_pos ha, if_pos (List.mem_cons_of_mem _ ha), hothers a ha]
      · rw [if_neg ha, hget]
        by_cases hcurrent : a = name
        · rw [if_pos hcurrent, if_pos (hcurrent ▸ List.mem_cons_self), hcurrent]
        · rw [if_neg hcurrent, if_neg (by rw [List.mem_cons, not_or]; exact ⟨hcurrent, ha⟩)]
    · have hsame : (names.filterMap fun a => ((table.modify name (·.cut (sameComponent componentOf name))).get a).map
          (cycleDiagnostic componentOf diagnosticSpan a)) =
          names.filterMap fun a => (table.get a).map (cycleDiagnostic componentOf diagnosticSpan a) := by
        apply List.filterMap_congr
        intro a ha
        rw [hothers a ha]
      have haccepts : ((sink.setFile sig.sourceFile).error (diagnosticSpan name sig componentOf) cycleMessage).accepts =
          sink.accepts := by
        funext span
        rw [DiagSink.accepts, DiagSink.accepts, hreport.2]
      rw [hdiags, hreport.1, hsame, haccepts, List.filterMap_cons, hsig, List.append_assoc, ← List.filter_append]
      rfl

variable (table) in
/-- A class of the module, with a declaration of its own. -/
def IsSource (a : TypeName) : Prop := ∃ sig, table.get a = some sig ∧ sig.sourceDecl.isSome

variable (table) in
def OnCycle (a : TypeName) : Prop := TransGen (Edge (directSupertypes table)) a a

theorem get_isSome_iff : (table.get a).isSome ↔ a ∈ table.classes.map Prod.fst := by
  rw [SymbolTable.get, List.lookup_isSome_iff, List.mem_map]
  simp

variable {c : Components TypeName}

theorem Found.onCycle_iff (h : Found table c) (ha : Known table a) :
    (c.componentOf a).any (fun component => component ∈ c.cyclic) = true ↔ OnCycle table a := by
  obtain ⟨i, hi⟩ := Option.isSome_iff_exists.mp ((h.known a).mpr ha)
  rw [hi, Option.any_some, decide_eq_true_eq, h.cyclic i]
  constructor
  · rintro ⟨b, hb, hcycle⟩
    have hab := (h.strong a b ha).mp (hb.trans hi.symm)
    exact (TransGen.trans_right hab.1 hcycle).trans_left hab.2
  · exact fun hcycle => ⟨a, hi, hcycle⟩

theorem Found.sameComponent_iff (h : Found table c) (ha : Known table a) (b : TypeName) :
    sameComponent c.componentOf a b = true ↔ Strong (directSupertypes table) a b := by
  rw [sameComponent, Bool.and_eq_true, beq_iff_eq, and_iff_right ((h.known a).mpr ha), h.strong a b ha]

theorem known_of_source (h : IsSource table a) : Known table a := by
  obtain ⟨sig, hsig, -⟩ := h
  exact ⟨a, get_isSome_iff.mp (by rw [hsig]; rfl), .refl⟩

theorem mem_cyclicClasses {visits : Visits} (h : Found table c) :
    a ∈ cyclicClasses diagnosticSpan visits table c ↔ IsSource table a ∧ OnCycle table a := by
  rw [cyclicClasses, List.mem_mergeSort, List.mem_filter, (visits.classes_perm _).mem_iff, ← get_isSome_iff,
    Bool.and_eq_true]
  have hsource : (table.get a).any (·.sourceDecl.isSome) = true ↔ IsSource table a := by
    rw [IsSource, Option.any_eq_true]
  rw [hsource]
  constructor
  · rintro ⟨-, hdecl, hcyclic⟩
    exact ⟨hdecl, (h.onCycle_iff (known_of_source hdecl)).mp hcyclic⟩
  · rintro ⟨hdecl, hcycle⟩
    have hknown := known_of_source hdecl
    obtain ⟨sig, hsig, hsome⟩ := hdecl
    exact ⟨by rw [hsig]; rfl, ⟨sig, hsig, hsome⟩, (h.onCycle_iff hknown).mpr hcycle⟩

theorem nodup_cyclicClasses {visits : Visits} : (cyclicClasses diagnosticSpan visits table c).Nodup := by
  rw [cyclicClasses, (List.mergeSort_perm _ _).nodup_iff]
  exact List.Nodup.filter _ ((visits.classes_perm _).nodup_iff.mpr table.nodup)

/-- What `break_supertype_cycles` does to a table and a sink. -/
structure CutExactly (diagnosticSpan : TypeName → ClassSig Ty → (TypeName → Option ℕ) → Span) (table table' : SymbolTable Ty)
    (sink sink' : DiagSink) (c : Components TypeName) : Prop where
  /-- The remaining cycles run through the dependencies. -/
  uncycled : ∀ a, OnCycle table' a → ¬ IsSource table a
  /-- Each source class of a cycle is reported once, as far as the sink takes its span. -/
  reported : ∃ cyclic : List TypeName, cyclic.Nodup ∧ (∀ a, a ∈ cyclic ↔ IsSource table a ∧ OnCycle table a) ∧
    sink'.diags = sink.diags ++ (cyclic.filterMap fun a => (table.get a).map
      (cycleDiagnostic c.componentOf diagnosticSpan a)).filter fun d => sink.accepts d.span
  /-- A source class keeps its edges to the other components, in their order and with their own arguments. -/
  kept : ∀ a sig, table.get a = some sig → ∃ sig', table'.get a = some sig' ∧ sig'.sourceDecl = sig.sourceDecl ∧
    sig'.edges = if sig.sourceDecl.isSome then sig.edges.filter (fun e => !sameComponent c.componentOf a e.1)
      else sig.edges
  /-- Nothing else changes. -/
  others : table'.classifier = table.classifier ∧ ∀ a, table.get a = none → table'.get a = none

/-- A source class that lies on no cycle has no edge in its own component. -/
theorem edges_uncycled (h : Found table c) (hget : table.get a = some sig)
    (hsource : sig.sourceDecl.isSome) (hcycle : ¬ OnCycle table a) :
    sig.edges.filter (fun e => !sameComponent c.componentOf a e.1) = sig.edges := by
  rw [List.filter_eq_self]
  intro e he
  rw [Bool.not_eq_true']
  by_contra hsame
  rw [Bool.not_eq_false, h.sameComponent_iff (known_of_source ⟨sig, hget, hsource⟩)] at hsame
  refine hcycle (TransGen.head' ?_ hsame.2)
  rw [Edge, directSupertypes_of_get hget]
  exact List.mem_map_of_mem he

/-- Cyclic hierarchies are found and cut exactly, whatever the order in which the hash maps are gone through: with enough
fuel, two classes are of one component exactly when each inherits from the other, a component is cyclic exactly when it
has a cycle, and the classes are reported and cut as `CutExactly` says. -/
theorem supertype_cycles_cut (table : SymbolTable Ty) (visits : Visits)
    (diagnosticSpan : TypeName → ClassSig Ty → (TypeName → Option ℕ) → Span) (sink : DiagSink) :
    ∃ steps, ∀ fuel ≥ steps, ∃ c table' sink',
      supertypeComponents visits fuel (supertypeGraph table visits fuel) = some c ∧ Found table c ∧
      breakSupertypeCycles diagnosticSpan visits fuel table sink = some (table', sink') ∧
      CutExactly diagnosticSpan table table' sink sink' c := by
  refine ⟨enough table, fun fuel hfuel => ?_⟩
  obtain ⟨c, hc, hfound⟩ := @supertypeComponents_found Ty table visits fuel hfuel
  obtain ⟨table', sink', hfold, hclasses, hclassifier, -, hdiags⟩ := @foldl_cutClass
    Ty table sink c.componentOf diagnosticSpan (cyclicClasses diagnosticSpan visits table c) nodup_cyclicClasses fun a ha => by
      obtain ⟨sig, hsig, -⟩ := ((mem_cyclicClasses hfound).mp ha).1
      rw [hsig]
      rfl
  have hkept : ∀ a sig, table.get a = some sig → ∃ sig', table'.get a = some sig' ∧ sig'.sourceDecl = sig.sourceDecl ∧
      sig'.edges = if sig.sourceDecl.isSome then sig.edges.filter (fun e => !sameComponent c.componentOf a e.1)
        else sig.edges := by
    intro a sig hsig
    have hvalue := hclasses a
    by_cases ha : a ∈ cyclicClasses diagnosticSpan visits table c
    · obtain ⟨other, hother, hsource⟩ := ((mem_cyclicClasses hfound).mp ha).1
      rw [hsig] at hother
      cases hother
      rw [if_pos ha, hsig] at hvalue
      exact ⟨_, hvalue, ClassSig.sourceDecl_cut .., by rw [if_pos hsource, ClassSig.edges_cut]⟩
    · rw [if_neg ha, hsig] at hvalue
      refine ⟨sig, hvalue, rfl, ?_⟩
      split_ifs with hsource
      · have hcycle : ¬ OnCycle table a := fun hcycle => ha ((mem_cyclicClasses hfound).mpr ⟨⟨sig, hsig, hsource⟩, hcycle⟩)
        exact (edges_uncycled hfound hsig hsource hcycle).symm
      · rfl
  have hothers : ∀ a, table.get a = none → table'.get a = none := by
    intro a ha
    rw [hclasses a, ha]
    exact ite_self _
  have hsub : ∀ {a b}, Edge (directSupertypes table') a b → Edge (directSupertypes table) a b := by
    intro a b hedge
    cases hget : table.get a with
    | none =>
      rw [Edge, directSupertypes, hothers a hget, hclassifier] at hedge
      rwa [Edge, directSupertypes, hget]
    | some sig =>
      obtain ⟨sig', hsig', -, hedges⟩ := hkept a sig hget
      rw [Edge, directSupertypes_of_get hsig', hedges] at hedge
      rw [Edge, directSupertypes_of_get hget]
      split_ifs at hedge
      · obtain ⟨e, he, rfl⟩ := List.mem_map.mp hedge
        exact List.mem_map_of_mem (List.mem_filter.mp he).1
      · exact hedge
  refine ⟨c, table', sink', hc, hfound, by rw [breakSupertypeCycles, hc]; exact congrArg some hfold, ?_⟩
  refine ⟨fun a hcycle hsource => ?_, ⟨_, nodup_cyclicClasses, fun a => mem_cyclicClasses hfound, hdiags⟩, hkept,
    hclassifier, hothers⟩
  -- the first edge of a cycle leads to the class's own component, and such edges are cut
  obtain ⟨b, hedge, hback⟩ := TransGen.head'_iff.mp hcycle
  obtain ⟨sig, hsig, hdecl⟩ := hsource
  obtain ⟨sig', hsig', -, hedges⟩ := hkept a sig hsig
  have hstrong : Strong (directSupertypes table) a b := ⟨.single (hsub hedge), ReflTransGen.mono (fun _ _ h => hsub h) _ _ hback⟩
  rw [Edge, directSupertypes_of_get hsig', hedges, if_pos hdecl] at hedge
  obtain ⟨e, he, rfl⟩ := List.mem_map.mp hedge
  have hsame := (hfound.sameComponent_iff (known_of_source ⟨sig, hsig, hdecl⟩) e.1).mpr hstrong
  have hapart := (List.mem_filter.mp he).2
  rw [hsame] at hapart
  cases hapart

end Cut

end Krusty.Resolve.SupertypeCycles
