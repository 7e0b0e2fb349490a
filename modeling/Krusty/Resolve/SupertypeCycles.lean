import Krusty.Lib.StrongComponents
import Mathlib.Data.Fintype.Basic
import Mathlib.Data.Prod.Lex

/-! Cyclic class hierarchies: their detection, their diagnostics, and the cut that leaves none through the sources. -/
namespace Krusty.Resolve.SupertypeCycles

open Relation Closure StrongComponents

/-- A classifier's name, by its 32-bit id. -/
abbrev TypeName := Fin (2 ^ 32)

structure Span where
  lo : ℕ
  hi : ℕ
  deriving DecidableEq

structure ClassSig (Ty : Type) where
  sourceDecl : Option ℕ
  sourceFile : ℕ
  superInternal : Option TypeName
  superTypeArgs : List Ty
  interfaces : List TypeName
  interfaceTypeArgs : List (List Ty)

structure SymbolTable (Ty : Type) where
  /-- The module's own classes, in no order. -/
  classes : List (TypeName × ClassSig Ty)
  nodup : (classes.map Prod.fst).Nodup
  /-- The supertypes of the dependencies' classifiers. -/
  classifier : TypeName → Option (List TypeName)

structure Diagnostic where
  span : Span
  message : String
  file : ℕ
  deriving DecidableEq

structure DiagSink where
  diags : List Diagnostic
  currentFile : ℕ
  authoritativeRanges : Option (List Span)

namespace DiagSink

variable (sink : DiagSink)

def accepts (span : Span) : Bool :=
  sink.authoritativeRanges.all fun ranges => ranges.any fun range => range.lo ≤ span.lo && span.hi ≤ range.hi

def setFile (file : ℕ) : DiagSink := { sink with currentFile := file }

def error (span : Span) (message : String) : DiagSink :=
  if sink.accepts span then { sink with diags := sink.diags ++ [⟨span, message, sink.currentFile⟩] } else sink

end DiagSink

section Graph

variable {Ty : Type} (table : SymbolTable Ty)

def SymbolTable.get (name : TypeName) : Option (ClassSig Ty) := table.classes.lookup name

def directSupertypes (current : TypeName) : List TypeName :=
  match table.get current with
  | some sig => sig.superInternal.toList ++ sig.interfaces
  | none => (table.classifier current).getD []

/-- A hash map from a class to its direct supertypes. -/
abbrev Graph := List (TypeName × List TypeName)

/-- The orders in which the hash maps on the way are gone through. -/
structure Visits where
  pending : List TypeName → List TypeName
  roots : List TypeName → List TypeName
  edges : Graph → Graph
  classes : List TypeName → List TypeName
  pending_perm : ∀ names, (pending names).Perm names
  roots_perm : ∀ names, (roots names).Perm names
  edges_perm : ∀ graph, (edges graph).Perm graph
  classes_perm : ∀ names, (classes names).Perm names

variable (visits : Visits) (fuel : ℕ)

def supertypeGraph : Graph :=
  (close (directSupertypes table) fuel [] (visits.pending (table.classes.map Prod.fst)).reverse).map fun current =>
    (current, directSupertypes table current)

def Graph.parents (graph : Graph) (name : TypeName) : List TypeName := (graph.lookup name).getD []

/-- The edges into a class, as the graph is gone through. -/
def Graph.children (graph : Graph) (name : TypeName) : List TypeName :=
  (visits.edges graph).flatMap fun entry => (entry.2.filter (· = name)).map fun _ => entry.1

def supertypeComponents (graph : Graph) : Option (Components TypeName) :=
  components graph.parents (graph.children visits) fuel (visits.roots (graph.map Prod.fst))

end Graph

section Cut

variable {Ty : Type}

namespace ClassSig

variable (sig : ClassSig Ty) (sameComponent : TypeName → Bool)

/-- The interfaces that are kept, each with its own arguments. -/
def keptInterfaces : List (TypeName × List Ty) :=
  let cyclicInterfaces := sig.interfaces.filter sameComponent
  (sig.interfaces.zipIdx.filter fun entry => entry.1 ∉ cyclicInterfaces).map fun entry =>
    (entry.1, sig.interfaceTypeArgs[entry.2]?.getD [])

/-- The edges that close a cycle are cut. -/
def cut : ClassSig Ty :=
  let sig := if sig.superInternal.any sameComponent then { sig with superInternal := none, superTypeArgs := [] } else sig
  if (sig.interfaces.filter sameComponent).isEmpty then sig
  else { sig with
    interfaces := (sig.keptInterfaces sameComponent).map Prod.fst
    interfaceTypeArgs := (sig.keptInterfaces sameComponent).map Prod.snd }

end ClassSig

/-- `classes.get_mut`, to change what is there. -/
def SymbolTable.modify (table : SymbolTable Ty) (name : TypeName) (f : ClassSig Ty → ClassSig Ty) : SymbolTable Ty where
  classes := table.classes.map fun entry => if entry.1 = name then (entry.1, f entry.2) else entry
  nodup := by
    have hkeys : (table.classes.map fun entry => if entry.1 = name then (entry.1, f entry.2) else entry).map Prod.fst =
        table.classes.map Prod.fst := by
      rw [List.map_map]
      apply List.map_congr_left
      intro entry _
      dsimp only [Function.comp]
      split_ifs <;> rfl
    rw [hkeys]
    exact table.nodup
  classifier := table.classifier

variable (componentOf : TypeName → Option ℕ) (diagnosticSpan : TypeName → ClassSig Ty → (TypeName → Option ℕ) → Span)

def sameComponent (internal parent : TypeName) : Bool :=
  (componentOf internal).isSome && componentOf parent == componentOf internal

def cycleMessage : String := "cycle in supertypes and/or containing declarations detected."

/-- One class of a cycle is reported, and its edges of the cycle are cut. -/
def cutClass (state : SymbolTable Ty × DiagSink) (internal : TypeName) : SymbolTable Ty × DiagSink :=
  match state.1.get internal with
  | some sig =>
    (state.1.modify internal (·.cut (sameComponent componentOf internal)),
      (state.2.setFile sig.sourceFile).error (diagnosticSpan internal sig componentOf) cycleMessage)
  | none => state

/-- Where a class is reported: its file, and the start of its span. -/
def sortKey (table : SymbolTable Ty) (internal : TypeName) : ℕ ×ₗ ℕ :=
  ((table.get internal).map fun sig => toLex (sig.sourceFile, (diagnosticSpan internal sig componentOf).lo)).getD (toLex (0, 0))

/-- The source classes of the cyclic components, in the order of their reports. -/
def cyclicClasses (visits : Visits) (table : SymbolTable Ty) (components : Components TypeName) : List TypeName :=
  ((visits.classes (table.classes.map Prod.fst)).filter fun internal =>
    (table.get internal).any (·.sourceDecl.isSome) &&
      (components.componentOf internal).any fun component => component ∈ components.cyclic).mergeSort fun a b =>
    decide (sortKey components.componentOf diagnosticSpan table a ≤ sortKey components.componentOf diagnosticSpan table b)

def breakSupertypeCycles (visits : Visits) (fuel : ℕ) (table : SymbolTable Ty) (sink : DiagSink) :
    Option (SymbolTable Ty × DiagSink) := do
  let components ← supertypeComponents visits fuel (supertypeGraph table visits fuel)
  return (cyclicClasses diagnosticSpan visits table components).foldl (cutClass components.componentOf diagnosticSpan)
    (table, sink)

end Cut

end Krusty.Resolve.SupertypeCycles
