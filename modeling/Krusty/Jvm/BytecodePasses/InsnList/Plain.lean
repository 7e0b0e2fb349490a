import Krusty.Jvm.BytecodePasses.InsnList
import Mathlib.Data.List.Nodup
import Mathlib.Tactic.Tauto

/-! The list an `InsnList` stands for, with the same operations on it. -/
namespace Krusty.Jvm.BytecodePasses

open InsnList

/-- Nodes in order, each under its id, and how many ids were given out. -/
structure PlainList where
  items : List (NodeId × Node)
  made : ℕ

namespace PlainList

variable (plain : PlainList)

def ids : List NodeId := plain.items.map Prod.fst

def node (id : NodeId) : Option Node := plain.items.lookup id

def index (id : NodeId) : Option ℕ := plain.ids.idxOf? id

/-- `nodes`, under the next ids, in front of the element at `k`. -/
def insertAt (k : ℕ) (nodes : List Node) : Option (List NodeId × PlainList) :=
  if plain.made + nodes.length ≤ idLimit then
    let new := (nodes.zipIdx plain.made).map Prod.swap
    some (new.map Prod.fst, ⟨plain.items.take k ++ new ++ plain.items.drop k, plain.made + nodes.length⟩)
  else none

def insertAfter (anchor : Option NodeId) (nodes : List Node) : Option (List NodeId × PlainList) :=
  if nodes = [] then some ([], plain)
  else
    match anchor with
    | none => plain.insertAt 0 nodes
    | some id => do
      let k ← plain.index id
      plain.insertAt (k + 1) nodes

def insertBefore (anchor : NodeId) (nodes : List Node) : Option (List NodeId × PlainList) := do
  let k ← plain.index anchor
  plain.insertAt k nodes

def add (node : Node) : Option (NodeId × PlainList) := do
  let (_, after) ← plain.insertAt plain.items.length [node]
  return (plain.made, after)

def remove (id : NodeId) : Option PlainList := do
  let k ← plain.index id
  return { plain with items := plain.items.eraseIdx k }

def set (id : NodeId) (node : Node) : Option PlainList := do
  let k ← plain.index id
  return { plain with items := plain.items.set k (id, node) }

def next (id : NodeId) : Option (Option NodeId) := do
  let k ← plain.index id
  return plain.ids[k + 1]?

def prev (id : NodeId) : Option (Option NodeId) := do
  let k ← plain.index id
  return (plain.ids.take k).getLast?

/-- Where an id stands; a removed one stands nowhere. -/
def position (id : NodeId) : ℕ := (plain.index id).getD noPosition

def indexOf (id : NodeId) : Option ℕ := if id < plain.made then some (plain.position id) else none

def labelNode (label : LabelId) : Option NodeId :=
  (plain.items.find? fun item => item.2 = .label label).map Prod.fst

/-- The nodes under the ids from zero on. -/
def new (nodes : List Node) : Option PlainList :=
  if nodes.length ≤ idLimit then some ⟨nodes.zipIdx.map Prod.swap, nodes.length⟩ else none

def apply : Op → Option (Answer × PlainList)
  | .add node => (plain.add node).map fun (id, plain) => (.id id, plain)
  | .insertAfter anchor nodes => (plain.insertAfter anchor nodes).map fun (ids, plain) => (.ids ids, plain)
  | .insertBefore anchor nodes => (plain.insertBefore anchor nodes).map fun (ids, plain) => (.ids ids, plain)
  | .remove id => (plain.remove id).map fun plain => (.done, plain)
  | .set id node => (plain.set id node).map fun plain => (.done, plain)
  | .node id => (plain.node id).map fun node => (.node node, plain)
  | .contains id => some (.holds (plain.node id).isSome, plain)
  | .first => some (.neighbour plain.ids.head?, plain)
  | .last => some (.neighbour plain.ids.getLast?, plain)
  | .next id => (plain.next id).map fun next => (.neighbour next, plain)
  | .prev id => (plain.prev id).map fun prev => (.neighbour prev, plain)
  | .indexOf id => (plain.indexOf id).map fun position => (.number position, plain)
  | .nodeAt index => plain.ids[index]?.map fun id => (.id id, plain)
  | .len => some (.number plain.items.length, plain)
  | .ids => some (.ids plain.ids, plain)
  | .labelNode label => some (.neighbour (plain.labelNode label), plain)
  | .toNodes => some (.nodes (plain.items.map Prod.snd), plain)

def run : List Op → Option (List Answer × PlainList) := Refinement.run apply plain

variable {plain} {id : NodeId} {xs ys : List (NodeId × Node)} {node : Node} {k : ℕ}

theorem index_eq_none : plain.index id = none ↔ id ∉ plain.ids := List.idxOf?_eq_none_iff

theorem exists_split (h : plain.index id = some k) :
    ∃ xs node ys, plain.items = xs ++ (id, node) :: ys ∧ xs.length = k := by
  obtain ⟨hk, hat, -⟩ := List.idxOf?_eq_some_iff.mp h
  have hlt : k < plain.items.length := by simpa [ids] using hk
  have hid : (plain.items[k]).1 = id := by simpa [ids] using hat
  refine ⟨plain.items.take k, (plain.items[k]).2, plain.items.drop (k + 1), ?_, List.length_take_of_le hlt.le⟩
  rw [← hid, Prod.mk.eta, List.cons_getElem_drop_succ, List.take_append_drop]

theorem node_of_split (hnodup : plain.ids.Nodup) (h : plain.items = xs ++ (id, node) :: ys) :
    plain.node id = some node := by
  have hids : plain.ids = xs.map Prod.fst ++ id :: ys.map Prod.fst := by simp [ids, h]
  rw [hids] at hnodup
  have hnot := (List.nodup_append.mp hnodup).2.2
  have hlookup : xs.lookup id = none := by
    rw [List.lookup_eq_none_iff]
    intro item hitem
    exact bne_iff_ne.mpr (hnot _ (List.mem_map_of_mem hitem) _ (List.mem_cons_self ..)).symm
  rw [PlainList.node, h, List.lookup_append, hlookup]
  simp

theorem node_eq_none (h : id ∉ plain.ids) : plain.node id = none := by
  rw [PlainList.node, List.lookup_eq_none_iff]
  intro item hitem
  rw [bne_iff_ne]
  rintro rfl
  exact h (List.mem_map_of_mem hitem)

theorem mem_of_node (h : plain.node id = some node) : (id, node) ∈ plain.items := by
  obtain ⟨xs, ys, hsplit, -⟩ := List.lookup_eq_some_iff.mp h
  rw [hsplit]
  simp

/-- After an operation the elements were there or have new ids, but for a node it sets. -/
def Grown (plain after : PlainList) (id : NodeId) : Prop :=
  plain.made ≤ after.made ∧ ∀ node, (id, node) ∈ after.items → (id, node) ∈ plain.items ∨ plain.made ≤ id

theorem Grown.refl (plain : PlainList) (id : NodeId) : plain.Grown plain id := ⟨le_rfl, fun _ => .inl⟩

theorem Grown.trans {after final : PlainList} (h : plain.Grown after id) (h' : after.Grown final id) :
    plain.Grown final id := by
  refine ⟨h.1.trans h'.1, fun node hnode => ?_⟩
  obtain hmem | hle := h'.2 node hnode
  · exact h.2 node hmem
  · exact .inr (h.1.trans hle)

theorem grown_insertAt {nodes : List Node} {answer : List NodeId × PlainList}
    (h : plain.insertAt k nodes = some answer) : plain.Grown answer.2 id := by
  rw [insertAt] at h
  split_ifs at h
  cases h
  refine ⟨Nat.le_add_right .., fun node hnode => ?_⟩
  rw [List.mem_append, List.mem_append, List.mem_map] at hnode
  obtain (hmem | ⟨⟨n, i⟩, hnew, heq⟩) | hmem := hnode
  · exact .inl (List.mem_of_mem_take hmem)
  · cases heq
    exact .inr (List.le_snd_of_mem_zipIdx hnew)
  · exact .inl (List.mem_of_mem_drop hmem)

theorem grown_apply {op : Op} {answer : Answer × PlainList} (h : plain.apply op = some answer)
    (hset : ∀ n, op ≠ .set id n) : plain.Grown answer.2 id := by
  have hask : ∀ {α : Type} {x : Option α} {f : α → Answer}, x.map (fun a => (f a, plain)) = some answer →
      plain.Grown answer.2 id := by
    intro α x f hx
    obtain ⟨a, -, rfl⟩ := Option.map_eq_some_iff.mp hx
    exact .refl plain id
  cases op with
  | add n =>
    obtain ⟨⟨i, after⟩, hadd, rfl⟩ := Option.map_eq_some_iff.mp h
    obtain ⟨b, hinsert, heq⟩ := Option.bind_eq_some_iff.mp hadd
    cases heq
    exact grown_insertAt hinsert
  | insertAfter anchor nodes =>
    obtain ⟨⟨ids, after⟩, hinsert, rfl⟩ := Option.map_eq_some_iff.mp h
    unfold insertAfter at hinsert
    split_ifs at hinsert
    · cases hinsert
      exact .refl plain id
    · cases anchor with
      | none => exact grown_insertAt hinsert
      | some anchor =>
        obtain ⟨k, -, hinsert⟩ := Option.bind_eq_some_iff.mp hinsert
        exact grown_insertAt hinsert
  | insertBefore anchor nodes =>
    obtain ⟨⟨ids, after⟩, hinsert, rfl⟩ := Option.map_eq_some_iff.mp h
    obtain ⟨k, -, hinsert⟩ := Option.bind_eq_some_iff.mp hinsert
    exact grown_insertAt hinsert
  | remove i =>
    obtain ⟨after, hremove, rfl⟩ := Option.map_eq_some_iff.mp h
    obtain ⟨k, -, heq⟩ := Option.bind_eq_some_iff.mp hremove
    cases heq
    exact ⟨le_rfl, fun node hnode => .inl (List.mem_of_mem_eraseIdx hnode)⟩
  | set i n =>
    obtain ⟨after, hafter, rfl⟩ := Option.map_eq_some_iff.mp h
    obtain ⟨k, -, heq⟩ := Option.bind_eq_some_iff.mp hafter
    cases heq
    refine ⟨le_rfl, fun node hnode => .inl ?_⟩
    obtain hmem | heq := List.mem_or_eq_of_mem_set hnode
    · exact hmem
    · cases heq
      exact absurd rfl (hset n)
  | node i => exact hask h
  | contains i => exact hask (x := some (plain.node i).isSome) h
  | first => exact hask (x := some plain.ids.head?) h
  | last => exact hask (x := some plain.ids.getLast?) h
  | next i => exact hask h
  | prev i => exact hask h
  | indexOf i => exact hask h
  | nodeAt index => exact hask h
  | len => exact hask (x := some plain.items.length) h
  | ids => exact hask (x := some plain.ids) h
  | labelNode label => exact hask (x := some (plain.labelNode label)) h
  | toNodes => exact hask (x := some (plain.items.map Prod.snd)) h

theorem grown_run {ops : List Op} {answer : List Answer × PlainList} (h : plain.run ops = some answer)
    (hset : ∀ n, Op.set id n ∉ ops) : plain.Grown answer.2 id := by
  induction ops generalizing plain answer with
  | nil =>
    cases h
    exact .refl plain id
  | cons op ops ih =>
    obtain ⟨⟨first, after⟩, happly, h⟩ := Option.bind_eq_some_iff.mp h
    obtain ⟨⟨rest, final⟩, hrun, heq⟩ := Option.bind_eq_some_iff.mp h
    cases heq
    have hop : ∀ n, op ≠ .set id n := fun n heq => hset n (heq ▸ List.mem_cons_self ..)
    have hgrown := grown_apply happly hop
    have hrest : after.Grown final id := ih hrun fun n hn => hset n (List.mem_cons_of_mem _ hn)
    exact hgrown.trans hrest

end PlainList

end Krusty.Jvm.BytecodePasses
