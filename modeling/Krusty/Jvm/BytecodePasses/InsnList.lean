import Krusty.Lib.Refinement
import Krusty.Jvm.MethodNode.Nodes

/-! ASM's `InsnList`: nodes that keep their identity while others come and go around them. `none` is a panic. -/
namespace Krusty.Jvm.BytecodePasses

abbrev NodeId := ℕ

namespace InsnList

structure Entry where
  node : Node
  prev : Option NodeId
  next : Option NodeId
  deriving DecidableEq

end InsnList

/-- A doubly linked list in an arena. A removed node leaves its place in the arena empty. -/
structure InsnList where
  entries : List (Option InsnList.Entry)
  first : Option NodeId
  last : Option NodeId
  /-- The nodes in order, unless an edit came after the last query. -/
  order : Option (List NodeId)
  /-- Each live node's position in `order`, by id. -/
  positions : List ℕ
  deriving DecidableEq

namespace InsnList

/-- `usize::MAX`, where no node is. -/
def noPosition : ℕ := 2 ^ 64 - 1

def idLimit : ℕ := 2 ^ 32

def empty : InsnList := ⟨[], none, none, none, []⟩

variable (list : InsnList)

def entry (id : NodeId) : Option Entry := list.entries[id]?.join

/-- An edit of one entry through `entry_mut`. -/
def modify (id : NodeId) (edit : Entry → Entry) : Option InsnList := do
  let entry ← list.entry id
  return { list with entries := list.entries.set id (some (edit entry)), order := none }

def allocate (node : Node) : Option (NodeId × InsnList) :=
  if list.entries.length < idLimit then
    some (list.entries.length, { list with entries := list.entries ++ [some ⟨node, none, none⟩] })
  else none

def node (id : NodeId) : Option Node := (list.entry id).map Entry.node

def contains (id : NodeId) : Bool := (list.entry id).isSome

def set (id : NodeId) (node : Node) : Option InsnList := list.modify id fun entry => { entry with node }

def next (id : NodeId) : Option (Option NodeId) := (list.entry id).map Entry.next

def prev (id : NodeId) : Option (Option NodeId) := (list.entry id).map Entry.prev

/-- What follows `prev` is `next` from now on. -/
def setNext (prev next : Option NodeId) : Option InsnList :=
  match prev with
  | some prev => list.modify prev fun entry => { entry with next }
  | none => some { list with first := next }

/-- What precedes `next` is `prev` from now on. -/
def setPrev (next prev : Option NodeId) : Option InsnList :=
  match next with
  | some next => list.modify next fun entry => { entry with prev }
  | none => some { list with last := prev }

def link (prev : Option NodeId) (id : NodeId) (next : Option NodeId) : Option InsnList := do
  let list ← list.modify id fun entry => { entry with prev, next }
  let list ← list.setNext prev (some id)
  list.setPrev next (some id)

def add (node : Node) : Option (NodeId × InsnList) := do
  let (id, list) ← list.allocate node
  let list ← list.link list.last id none
  return (id, list)

/-- What follows a node, or what comes first. -/
def nextAfter (prev : Option NodeId) : Option (Option NodeId) :=
  match prev with
  | some prev => list.next prev
  | none => some list.first

def insertAfter (list : InsnList) (prev : Option NodeId) : List Node → Option (List NodeId × InsnList)
  | [] => some ([], list)
  | node :: nodes => do
    let next ← list.nextAfter prev
    let (id, list) ← list.allocate node
    let list ← list.link prev id next
    let (ids, list) ← insertAfter list (some id) nodes
    return (id :: ids, list)

def insertBefore (anchor : NodeId) (nodes : List Node) : Option (List NodeId × InsnList) := do
  let prev ← list.prev anchor
  list.insertAfter prev nodes

def remove (id : NodeId) : Option InsnList := do
  let entry ← list.entry id
  let list ← list.setNext entry.prev entry.next
  let list ← list.setPrev entry.next entry.prev
  return { list with entries := list.entries.set id none, order := none }

/-- The walk of `ensure_order`; `none` also when it is not over after `fuel` nodes. -/
def number : ℕ → Option NodeId → List NodeId → List ℕ → Option (List NodeId × List ℕ)
  | _, none, order, positions => some (order, positions)
  | 0, some _, _, _ => none
  | fuel + 1, some id, order, positions =>
    if id < positions.length then do
      let entry ← list.entry id
      number fuel entry.next (order ++ [id]) (positions.set id order.length)
    else none

def ensureOrder : Option InsnList :=
  match list.order with
  | some _ => some list
  | none => do
    let (order, positions) ←
      list.number list.entries.length list.first [] (List.replicate list.entries.length noPosition)
    return { list with order := some order, positions }

def indexOf (id : NodeId) : Option (ℕ × InsnList) := do
  let list ← list.ensureOrder
  let position ← list.positions[id]?
  return (position, list)

def ids : Option (List NodeId × InsnList) := do
  let list ← list.ensureOrder
  let order ← list.order
  return (order, list)

def nodeAt (index : ℕ) : Option (NodeId × InsnList) := do
  let (order, list) ← list.ids
  let id ← order[index]?
  return (id, list)

def len : Option (ℕ × InsnList) := do
  let (order, list) ← list.ids
  return (order.length, list)

def findLabel (list : InsnList) (label : LabelId) : List NodeId → Option (Option NodeId)
  | [] => some none
  | id :: ids => do
    let node ← list.node id
    if node = .label label then return some id else findLabel list label ids

def labelNode (label : LabelId) : Option (Option NodeId × InsnList) := do
  let (order, list) ← list.ids
  let found ← list.findLabel label order
  return (found, list)

def toNodes : Option (List Node × InsnList) := do
  let (order, list) ← list.ids
  let nodes ← order.mapM list.node
  return (nodes, list)

def addAll (list : InsnList) : List Node → Option InsnList
  | [] => some list
  | node :: nodes => do
    let (_, list) ← list.add node
    addAll list nodes

def new (nodes : List Node) : Option InsnList := empty.addAll nodes

/-- What a pass may ask of a list. -/
inductive Op where
  | add (node : Node)
  | insertAfter (anchor : Option NodeId) (nodes : List Node)
  | insertBefore (anchor : NodeId) (nodes : List Node)
  | remove (id : NodeId)
  | set (id : NodeId) (node : Node)
  | node (id : NodeId)
  | contains (id : NodeId)
  | first
  | last
  | next (id : NodeId)
  | prev (id : NodeId)
  | indexOf (id : NodeId)
  | nodeAt (index : ℕ)
  | len
  | ids
  | labelNode (label : LabelId)
  | toNodes

inductive Answer where
  | done
  | id (id : NodeId)
  | ids (ids : List NodeId)
  | neighbour (id : Option NodeId)
  | node (node : Node)
  | nodes (nodes : List Node)
  | holds (answer : Bool)
  | number (n : ℕ)
  deriving DecidableEq

def apply : Op → Option (Answer × InsnList)
  | .add node => (list.add node).map fun (id, list) => (.id id, list)
  | .insertAfter anchor nodes => (list.insertAfter anchor nodes).map fun (ids, list) => (.ids ids, list)
  | .insertBefore anchor nodes => (list.insertBefore anchor nodes).map fun (ids, list) => (.ids ids, list)
  | .remove id => (list.remove id).map fun list => (.done, list)
  | .set id node => (list.set id node).map fun list => (.done, list)
  | .node id => (list.node id).map fun node => (.node node, list)
  | .contains id => some (.holds (list.contains id), list)
  | .first => some (.neighbour list.first, list)
  | .last => some (.neighbour list.last, list)
  | .next id => (list.next id).map fun next => (.neighbour next, list)
  | .prev id => (list.prev id).map fun prev => (.neighbour prev, list)
  | .indexOf id => (list.indexOf id).map fun (position, list) => (.number position, list)
  | .nodeAt index => (list.nodeAt index).map fun (id, list) => (.id id, list)
  | .len => list.len.map fun (n, list) => (.number n, list)
  | .ids => list.ids.map fun (ids, list) => (.ids ids, list)
  | .labelNode label => (list.labelNode label).map fun (found, list) => (.neighbour found, list)
  | .toNodes => list.toNodes.map fun (nodes, list) => (.nodes nodes, list)

/-- The answers to operations in order, and the list after them. -/
def run : List Op → Option (List Answer × InsnList) := Refinement.run apply list

/-- Repeated steps from a node, as a caller walks a list. -/
def walk (step : NodeId → Option (Option NodeId)) : ℕ → Option NodeId → Option (List NodeId)
  | _, none => some []
  | 0, some _ => none
  | fuel + 1, some id => do
    let next ← step id
    let ids ← walk step fuel next
    return id :: ids

end InsnList

end Krusty.Jvm.BytecodePasses
