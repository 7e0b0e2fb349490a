import Krusty.Jvm.BytecodePasses.InsnList.Links

/-! An `InsnList` answers as the plain list it stands for. -/
namespace Krusty.Jvm.BytecodePasses

/-- The positions of all ids given out. -/
def PlainList.positions (plain : PlainList) : List ℕ := (List.range plain.made).map plain.position

namespace InsnList

open Refinement

variable {list list' : InsnList} {plain : PlainList} {id : NodeId} {node : Node} {nodes : List Node}
  {items xs ys : List (NodeId × Node)} {made : ℕ}

/-- The list stands for `plain`: its links are those of the elements, and an order it keeps is theirs. -/
structure Stands (list : InsnList) (plain : PlainList) : Prop where
  linked : list.Linked plain.items
  made : list.entries.length = plain.made
  bounded : plain.made ≤ idLimit
  order : ∀ order, list.order = some order → order = plain.ids ∧ list.positions = plain.positions

/-- After an edit no order is kept. -/
theorem Stands.of_edit (hlinked : list.Linked plain.items) (hmade : list.entries.length = plain.made)
    (hbounded : plain.made ≤ idLimit) (horder : list.order = none) : list.Stands plain where
  linked := hlinked
  made := hmade
  bounded := hbounded
  order := by
    intro order h
    cases horder.symm.trans h

/-- Nodes under the ids from `made` on. -/
def fresh (made : ℕ) (nodes : List Node) : List (NodeId × Node) := (nodes.zipIdx made).map Prod.swap

theorem fresh_cons : fresh made (node :: nodes) = (made, node) :: fresh (made + 1) nodes := by
  rw [fresh, List.zipIdx_cons, List.map_cons]
  rfl

/-- The node after the first part of a list. -/
theorem Linked.nextAfter (h : list.Linked (xs ++ ys)) :
    list.nextAfter (idsOf xs).getLast? = some (idsOf ys).head? := by
  obtain rfl | ⟨xs, item, rfl⟩ := xs.eq_nil_or_concat'
  · change some list.first = _
    rw [h.first]
    rfl
  · have hlast : (idsOf (xs ++ [item])).getLast? = some item.1 := by simp [idsOf]
    rw [hlast]
    change (list.entry item.1).map Entry.next = _
    rw [h.links xs item.1 item.2 ys (by simp), Option.map_some]

/-- One node goes in between the two parts of a list. -/
theorem Stands.insertOne (h : list.Stands ⟨xs ++ ys, made⟩) (hmade : made < idLimit) (node : Node) :
    ∃ list₁ list₂, list.allocate node = some (made, list₁) ∧ list₁.last = list.last ∧
      list₁.link (idsOf xs).getLast? made (idsOf ys).head? = some list₂ ∧
      list₂.Stands ⟨xs ++ (made, node) :: ys, made + 1⟩ := by
  have hlen : list.entries.length = made := h.made
  obtain ⟨list₁, halloc, hlen₁, hfirst, hlast, hentry⟩ := allocate_spec (hlen ▸ hmade) node
  rw [hlen] at halloc hlen₁ hentry
  have hfresh : list.entry made = none := by
    rw [entry, List.getElem?_eq_none hlen.le]
    rfl
  obtain ⟨list₂, hlink, horder, hlen₂, hlinked⟩ := h.linked.insert hfresh hfirst hlast hentry
  exact ⟨list₁, list₂, halloc, hlast, hlink, .of_edit hlinked (hlen₂.trans hlen₁) hmade horder⟩

theorem Stands.insertAfter (h : list.Stands ⟨xs ++ ys, made⟩) (hfit : made + nodes.length ≤ idLimit) :
    ∃ list', list.insertAfter (idsOf xs).getLast? nodes = some (idsOf (fresh made nodes), list') ∧
      list'.Stands ⟨xs ++ fresh made nodes ++ ys, made + nodes.length⟩ := by
  induction nodes generalizing list xs made with
  | nil => exact ⟨list, rfl, by simpa [fresh] using h⟩
  | cons node nodes ih =>
    rw [List.length_cons] at hfit
    obtain ⟨list₁, list₂, halloc, -, hlink, hstands⟩ := h.insertOne (by omega) node
    have hstands' : list₂.Stands ⟨(xs ++ [(made, node)]) ++ ys, made + 1⟩ := by simpa using hstands
    obtain ⟨list', hlist', hstands''⟩ := ih hstands' (by omega)
    refine ⟨list', ?_, ?_⟩
    · rw [InsnList.insertAfter, h.linked.nextAfter, halloc]
      change (list₁.link _ _ _).bind _ = _
      rw [hlink]
      have hlast : (idsOf (xs ++ [(made, node)])).getLast? = some made := by simp [idsOf]
      rw [hlast] at hlist'
      change (list₂.insertAfter (some made) nodes).bind _ = _
      rw [hlist', fresh_cons]
      rfl
    · rw [fresh_cons, List.length_cons, ← Nat.add_assoc, Nat.add_right_comm]
      simpa using hstands''

theorem Stands.insertAfter_full (h : list.Stands ⟨xs ++ ys, made⟩) (hfull : idLimit < made + nodes.length) :
    list.insertAfter (idsOf xs).getLast? nodes = none := by
  induction nodes generalizing list xs made with
  | nil => exact absurd h.bounded (Nat.not_le.mpr hfull)
  | cons node nodes ih =>
    rw [List.length_cons] at hfull
    rw [InsnList.insertAfter, h.linked.nextAfter]
    by_cases hmade : made < idLimit
    · obtain ⟨list₁, list₂, halloc, -, hlink, hstands⟩ := h.insertOne hmade node
      have hstands' : list₂.Stands ⟨(xs ++ [(made, node)]) ++ ys, made + 1⟩ := by simpa using hstands
      have hrest := ih hstands' (by omega)
      have hlast : (idsOf (xs ++ [(made, node)])).getLast? = some made := by simp [idsOf]
      rw [hlast] at hrest
      rw [halloc]
      change (list₁.link _ _ _).bind _ = _
      rw [hlink]
      change (list₂.insertAfter (some made) nodes).bind _ = _
      rw [hrest]
      rfl
    · have hlen : list.entries.length = made := h.made
      have halloc : list.allocate node = none := if_neg (hlen ▸ hmade)
      change (list.allocate node).bind _ = _
      rw [halloc]
      rfl

/-- What a walk from the second part of a list numbers. -/
theorem Linked.number (h : list.Linked (xs ++ ys)) {fuel : ℕ} (hfuel : ys.length ≤ fuel) (positions : List ℕ)
    (hlen : positions.length = list.entries.length) :
    ∃ positions', list.number fuel (idsOf ys).head? (idsOf xs) positions = some (idsOf (xs ++ ys), positions') ∧
      positions'.length = positions.length ∧
      (∀ as id node bs, ys = as ++ (id, node) :: bs → positions'[id]? = some (xs.length + as.length)) ∧
      ∀ j, j ∉ idsOf ys → positions'[j]? = positions[j]? := by
  induction ys generalizing xs fuel positions with
  | nil =>
    refine ⟨positions, ?_, rfl, ?_, fun j _ => rfl⟩
    · cases fuel <;> simp [InsnList.number, idsOf]
    · intro as id node bs hsplit
      simp at hsplit
  | cons item ys ih =>
    obtain ⟨id, node⟩ := item
    cases fuel with
    | zero => simp at hfuel
    | succ fuel =>
      have hentry := h.links xs id node ys rfl
      have hnodup := h.nodup
      rw [idsOf_append, idsOf_cons, List.nodup_middle, List.nodup_cons, List.mem_append, not_or] at hnodup
      have hlt : id < positions.length := by
        rw [hlen]
        exact entry_lt hentry
      have h' : list.Linked ((xs ++ [(id, node)]) ++ ys) := by simpa using h
      obtain ⟨positions', hnumber, hlen', hat, hother⟩ :=
        ih h' (Nat.le_of_succ_le_succ hfuel) (positions.set id xs.length) ((List.length_set ..).trans hlen)
      refine ⟨positions', ?_, hlen'.trans (List.length_set ..), ?_, ?_⟩
      · rw [idsOf_cons, List.head?_cons, InsnList.number, if_pos hlt, hentry]
        simpa [idsOf] using hnumber
      · intro as id' node' bs hsplit
        cases as with
        | nil =>
          cases hsplit
          rw [hother id hnodup.1.2, List.getElem?_set_self hlt]
          rfl
        | cons a as =>
          rw [List.cons_append] at hsplit
          obtain ⟨ha, rfl⟩ := List.cons.inj hsplit
          have := hat as id' node' bs rfl
          rw [this, List.length_append, List.length_singleton, List.length_cons]
          congr 1
          omega
      · intro j hj
        rw [idsOf_cons, List.mem_cons, not_or] at hj
        rw [hother j hj.2, List.getElem?_set_ne (Ne.symm hj.1)]

theorem Stands.length_le (h : list.Stands plain) : plain.items.length ≤ list.entries.length := by
  have hsub : plain.ids ⊆ List.range list.entries.length := by
    intro id hid
    obtain ⟨e, he⟩ := Option.ne_none_iff_exists'.mp (h.linked.live hid)
    exact List.mem_range.mpr (entry_lt he)
  have hle := (h.linked.nodup.subperm hsub).length_le
  rwa [List.length_range, idsOf, List.length_map] at hle

/-- Once the order is built it is the plain list's. -/
theorem Stands.ensureOrder (h : list.Stands plain) :
    ∃ list', list.ensureOrder = some list' ∧ list'.Stands plain ∧ list'.order = some plain.ids ∧
      list'.positions = plain.positions := by
  rw [InsnList.ensureOrder]
  cases horder : list.order with
  | some order =>
    obtain ⟨rfl, hpositions⟩ := h.order order horder
    exact ⟨list, rfl, h, horder, hpositions⟩
  | none =>
    have hlinked : list.Linked ([] ++ plain.items) := h.linked
    obtain ⟨positions, hnumber, hlen, hat, hother⟩ :=
      hlinked.number h.length_le (List.replicate list.entries.length noPosition) (List.length_replicate ..)
    have hpositions : positions = plain.positions := by
      apply List.ext_getElem?
      intro j
      rw [List.length_replicate, h.made] at hlen
      by_cases hj : j < plain.made
      · have hright : plain.positions[j]? = some (plain.position j) := by
          simp [PlainList.positions, hj]
        rw [hright, PlainList.position]
        cases hindex : plain.index j with
        | some k =>
          obtain ⟨xs, node, ys, hsplit, rfl⟩ := PlainList.exists_split hindex
          rw [hat xs j node ys hsplit]
          simp
        | none =>
          rw [hother j (PlainList.index_eq_none.mp hindex), h.made]
          simp [hj]
      · rw [List.getElem?_eq_none (by omega), List.getElem?_eq_none (by simp [PlainList.positions]; omega)]
    refine ⟨{ list with order := some plain.ids, positions }, ?_, ⟨?_, h.made, h.bounded, ?_⟩, rfl, hpositions⟩
    · rw [← h.linked.first] at hnumber
      change (list.number _ _ (idsOf []) _).bind _ = _
      rw [hnumber]
      rfl
    · exact ⟨h.linked.nodup, h.linked.first, h.linked.last, h.linked.links, h.linked.dead⟩
    · intro order horder
      cases horder
      exact ⟨rfl, hpositions⟩

/-- No node is under an id the plain list does not have. -/
theorem Stands.entry_eq_none (h : list.Stands plain) (hindex : plain.index id = none) : list.entry id = none :=
  h.linked.dead id (PlainList.index_eq_none.mp hindex)

theorem Stands.insertAt (h : list.Stands ⟨xs ++ ys, made⟩) (nodes : List Node) :
    Option.Rel (Agree Stands) (list.insertAfter (idsOf xs).getLast? nodes)
      ((⟨xs ++ ys, made⟩ : PlainList).insertAt xs.length nodes) := by
  by_cases hfit : made + nodes.length ≤ idLimit
  · obtain ⟨list', hlist', hstands⟩ := h.insertAfter hfit
    rw [hlist', PlainList.insertAt, if_pos hfit, List.take_left, List.drop_left]
    exact .some ⟨rfl, hstands⟩
  · rw [h.insertAfter_full (Nat.lt_of_not_le hfit), PlainList.insertAt, if_neg hfit]
    exact .none

/-- Nodes after an element. -/
theorem Stands.insertAfter_rel (h : list.Stands plain) (anchor : Option NodeId) (nodes : List Node) :
    Option.Rel (Agree Stands) (list.insertAfter anchor nodes) (plain.insertAfter anchor nodes) := by
  unfold PlainList.insertAfter
  split_ifs with hnodes
  · rw [hnodes]
    exact .some ⟨rfl, h⟩
  · obtain ⟨items, made⟩ := plain
    cases anchor with
    | none => exact Stands.insertAt (show list.Stands ⟨[] ++ items, made⟩ from h) nodes
    | some id =>
      dsimp only
      cases hindex : PlainList.index ⟨items, made⟩ id with
      | none =>
        cases nodes with
        | nil => exact absurd rfl hnodes
        | cons node nodes =>
          rw [InsnList.insertAfter, InsnList.nextAfter, next, h.entry_eq_none hindex]
          exact .none
      | some k =>
        obtain ⟨xs, node, ys, hsplit, rfl⟩ := PlainList.exists_split hindex
        obtain rfl : items = (xs ++ [(id, node)]) ++ ys := by simpa using hsplit
        have hlast : (idsOf (xs ++ [(id, node)])).getLast? = some id := by simp [idsOf]
        have hinsert := h.insertAt nodes
        rw [hlast, List.length_append, List.length_singleton] at hinsert
        exact hinsert

theorem Stands.insertBefore_rel (h : list.Stands plain) (anchor : NodeId) (nodes : List Node) :
    Option.Rel (Agree Stands) (list.insertBefore anchor nodes) (plain.insertBefore anchor nodes) := by
  obtain ⟨items, made⟩ := plain
  rw [PlainList.insertBefore, InsnList.insertBefore, prev]
  cases hindex : PlainList.index ⟨items, made⟩ anchor with
  | none =>
    rw [h.entry_eq_none hindex]
    exact .none
  | some k =>
    obtain ⟨xs, node, ys, hsplit, rfl⟩ := PlainList.exists_split hindex
    obtain rfl : items = xs ++ (anchor, node) :: ys := hsplit
    rw [h.linked.links xs anchor node ys rfl]
    exact h.insertAt nodes

theorem Stands.add_rel (h : list.Stands plain) (node : Node) :
    Option.Rel (Agree Stands) (list.add node) (plain.add node) := by
  obtain ⟨items, made⟩ := plain
  have hlen : list.entries.length = made := h.made
  have hplain : PlainList.add ⟨items, made⟩ node =
      if made < idLimit then some (made, ⟨items ++ [(made, node)], made + 1⟩) else none := by
    rw [PlainList.add, PlainList.insertAt]
    by_cases hmade : made < idLimit
    · rw [if_pos hmade, if_pos (by simpa using hmade)]
      simp
    · rw [if_neg hmade, if_neg (by simpa using hmade)]
      rfl
  rw [hplain]
  by_cases hmade : made < idLimit
  · have h' : list.Stands ⟨items ++ [], made⟩ := by simpa using h
    obtain ⟨list₁, list₂, halloc, hlast, hlink, hstands⟩ := h'.insertOne hmade node
    rw [if_pos hmade, InsnList.add, halloc]
    change Option.Rel (Agree Stands) ((list₁.link list₁.last made none).bind _) _
    rw [hlast, h.linked.last]
    change list₁.link _ made none = _ at hlink
    rw [hlink]
    exact .some ⟨rfl, hstands⟩
  · have halloc : list.allocate node = none := if_neg (hlen ▸ hmade)
    rw [if_neg hmade, InsnList.add, halloc]
    exact .none

theorem Stands.remove_rel (h : list.Stands plain) (id : NodeId) :
    Option.Rel Stands (list.remove id) (plain.remove id) := by
  obtain ⟨items, made⟩ := plain
  rw [PlainList.remove]
  cases hindex : PlainList.index ⟨items, made⟩ id with
  | none =>
    rw [InsnList.remove, h.entry_eq_none hindex]
    exact .none
  | some k =>
    obtain ⟨xs, node, ys, hsplit, rfl⟩ := PlainList.exists_split hindex
    obtain rfl : items = xs ++ (id, node) :: ys := hsplit
    obtain ⟨list', hlist', horder, hlen, hlinked⟩ := h.linked.remove
    rw [hlist']
    refine .some (.of_edit ?_ (hlen.trans h.made) h.bounded horder)
    simpa [List.eraseIdx_append_of_length_le] using hlinked

theorem Stands.set_rel (h : list.Stands plain) (id : NodeId) (node : Node) :
    Option.Rel Stands (list.set id node) (plain.set id node) := by
  obtain ⟨items, made⟩ := plain
  rw [PlainList.set]
  cases hindex : PlainList.index ⟨items, made⟩ id with
  | none =>
    rw [InsnList.set, modify, h.entry_eq_none hindex]
    exact .none
  | some k =>
    obtain ⟨xs, old, ys, hsplit, rfl⟩ := PlainList.exists_split hindex
    obtain rfl : items = xs ++ (id, old) :: ys := hsplit
    obtain ⟨list', hlist', horder, hlen, hlinked⟩ := h.linked.set node
    rw [hlist']
    refine .some (.of_edit ?_ (hlen.trans h.made) h.bounded horder)
    simpa using hlinked

theorem Stands.node_eq (h : list.Stands plain) (id : NodeId) : list.node id = plain.node id := by
  cases hindex : plain.index id with
  | none =>
    rw [InsnList.node, h.entry_eq_none hindex, PlainList.node_eq_none (PlainList.index_eq_none.mp hindex)]
    rfl
  | some k =>
    obtain ⟨xs, node, ys, hsplit, -⟩ := PlainList.exists_split hindex
    rw [InsnList.node, h.linked.links xs id node ys hsplit, PlainList.node_of_split h.linked.nodup hsplit]
    rfl

theorem Stands.node_of_mem (h : list.Stands plain) {item : NodeId × Node} (hitem : item ∈ plain.items) :
    list.node item.1 = some item.2 := by
  obtain ⟨xs, ys, hsplit⟩ := List.append_of_mem hitem
  rw [InsnList.node, h.linked.links xs item.1 item.2 ys hsplit]
  rfl

theorem Stands.next_eq (h : list.Stands plain) (id : NodeId) : list.next id = plain.next id := by
  rw [PlainList.next]
  cases hindex : plain.index id with
  | none =>
    rw [InsnList.next, h.entry_eq_none hindex]
    rfl
  | some k =>
    obtain ⟨xs, node, ys, hsplit, rfl⟩ := PlainList.exists_split hindex
    have hids : plain.ids = (xs.map Prod.fst ++ [id]) ++ ys.map Prod.fst := by simp [PlainList.ids, hsplit]
    have hlen : (xs.map Prod.fst ++ [id]).length = xs.length + 1 := by simp
    change _ = some plain.ids[xs.length + 1]?
    rw [InsnList.next, h.linked.links xs id node ys hsplit, hids, ← hlen, List.getElem?_append_right le_rfl,
      Nat.sub_self, ← List.head?_eq_getElem?]
    rfl

theorem Stands.prev_eq (h : list.Stands plain) (id : NodeId) : list.prev id = plain.prev id := by
  rw [PlainList.prev]
  cases hindex : plain.index id with
  | none =>
    rw [InsnList.prev, h.entry_eq_none hindex]
    rfl
  | some k =>
    obtain ⟨xs, node, ys, hsplit, rfl⟩ := PlainList.exists_split hindex
    have htake : plain.ids.take xs.length = idsOf xs := by simp [PlainList.ids, hsplit, idsOf]
    change _ = some (plain.ids.take xs.length).getLast?
    rw [InsnList.prev, h.linked.links xs id node ys hsplit, htake]
    rfl

theorem Stands.ids (h : list.Stands plain) : ∃ list', list.ids = some (plain.ids, list') ∧ list'.Stands plain := by
  obtain ⟨list', hlist', hstands, horder, -⟩ := h.ensureOrder
  refine ⟨list', ?_, hstands⟩
  rw [InsnList.ids, hlist']
  change list'.order.bind _ = _
  rw [horder]
  rfl

theorem Stands.indexOf (h : list.Stands plain) (id : NodeId) :
    Option.Rel (Agree Stands) (list.indexOf id) ((plain.indexOf id).map fun position => (position, plain)) := by
  obtain ⟨list', hlist', hstands, -, hpositions⟩ := h.ensureOrder
  rw [InsnList.indexOf, hlist', PlainList.indexOf]
  change Option.Rel (Agree Stands) (list'.positions[id]?.bind _) _
  rw [hpositions, PlainList.positions]
  by_cases hid : id < plain.made
  · rw [if_pos hid, List.getElem?_map, List.getElem?_range hid]
    exact .some ⟨rfl, hstands⟩
  · rw [if_neg hid, List.getElem?_eq_none (by simpa using hid)]
    exact .none

theorem Stands.findLabel (h : list.Stands plain) (label : LabelId) (items : List (NodeId × Node))
    (hitems : ∀ item ∈ items, item ∈ plain.items) :
    list.findLabel label (idsOf items) =
      some ((items.find? fun item => item.2 = .label label).map Prod.fst) := by
  induction items with
  | nil => rfl
  | cons item items ih =>
    have hnode := h.node_of_mem (hitems item (List.mem_cons_self ..))
    rw [idsOf_cons, InsnList.findLabel, hnode]
    change (if item.2 = .label label then _ else _) = _
    by_cases hlabel : item.2 = .label label
    · rw [if_pos hlabel, List.find?_cons_of_pos (by simpa using hlabel)]
      rfl
    · rw [if_neg hlabel, List.find?_cons_of_neg (by simpa using hlabel)]
      exact ih fun item hitem => hitems item (List.mem_cons_of_mem _ hitem)

theorem Stands.mapM_node (h : list.Stands plain) (items : List (NodeId × Node))
    (hitems : ∀ item ∈ items, item ∈ plain.items) :
    (idsOf items).mapM list.node = some (items.map Prod.snd) := by
  induction items with
  | nil => rfl
  | cons item items ih =>
    have hnode := h.node_of_mem (hitems item (List.mem_cons_self ..))
    have hrest := ih fun item hitem => hitems item (List.mem_cons_of_mem _ hitem)
    rw [idsOf_cons, List.mapM_cons, hnode, hrest]
    rfl

/-- One operation: panics and answers are the plain list's, and the list goes on standing for it. -/
theorem Stands.apply (h : list.Stands plain) (op : Op) : Option.Rel (Agree Stands) (list.apply op) (plain.apply op) := by
  obtain ⟨list', hids, hstands⟩ := h.ids
  cases op with
  | add node => exact rel_map (fun h => ⟨congrArg Answer.id h.1, h.2⟩) (h.add_rel node)
  | insertAfter anchor nodes =>
    exact rel_map (fun h => ⟨congrArg Answer.ids h.1, h.2⟩) (h.insertAfter_rel anchor nodes)
  | insertBefore anchor nodes =>
    exact rel_map (fun h => ⟨congrArg Answer.ids h.1, h.2⟩) (h.insertBefore_rel anchor nodes)
  | remove id => exact rel_map (fun h => ⟨rfl, h⟩) (h.remove_rel id)
  | set id node => exact rel_map (fun h => ⟨rfl, h⟩) (h.set_rel id node)
  | node id =>
    rw [InsnList.apply, PlainList.apply, h.node_eq]
    cases plain.node id with
    | none => exact .none
    | some node => exact .some ⟨rfl, h⟩
  | contains id =>
    have hcontains : list.contains id = (plain.node id).isSome := by
      rw [← h.node_eq, InsnList.node, Option.isSome_map]
      rfl
    exact .some ⟨congrArg Answer.holds hcontains, h⟩
  | first => exact .some ⟨congrArg Answer.neighbour h.linked.first, h⟩
  | last => exact .some ⟨congrArg Answer.neighbour h.linked.last, h⟩
  | next id =>
    rw [InsnList.apply, PlainList.apply, h.next_eq]
    cases plain.next id with
    | none => exact .none
    | some next => exact .some ⟨rfl, h⟩
  | prev id =>
    rw [InsnList.apply, PlainList.apply, h.prev_eq]
    cases plain.prev id with
    | none => exact .none
    | some prev => exact .some ⟨rfl, h⟩
  | indexOf id =>
    have hindex := rel_map (f := fun a => (Answer.number a.1, a.2)) (g := fun b => (Answer.number b.1, b.2))
      (Q := Agree Stands) (fun h => ⟨congrArg Answer.number h.1, h.2⟩) (h.indexOf id)
    rwa [Option.map_map] at hindex
  | nodeAt index =>
    rw [InsnList.apply, PlainList.apply, nodeAt, hids]
    cases hid : plain.ids[index]? with
    | none =>
      simp only [Option.bind_eq_bind, Option.bind_some, hid, Option.bind_none]
      exact .none
    | some id =>
      simp only [Option.bind_eq_bind, Option.bind_some, hid]
      exact .some ⟨rfl, hstands⟩
  | len =>
    rw [InsnList.apply, PlainList.apply, len, hids]
    refine .some ⟨congrArg Answer.number ?_, hstands⟩
    exact List.length_map ..
  | ids =>
    rw [InsnList.apply, PlainList.apply, hids]
    exact .some ⟨rfl, hstands⟩
  | labelNode label =>
    have hfound := hstands.findLabel label plain.items fun item hitem => hitem
    rw [InsnList.apply, PlainList.apply, labelNode, hids]
    change Option.Rel (Agree Stands) (((list'.findLabel label (idsOf plain.items)).bind _).map _) _
    rw [hfound]
    exact .some ⟨rfl, hstands⟩
  | toNodes =>
    have hnodes := hstands.mapM_node plain.items fun item hitem => hitem
    rw [InsnList.apply, PlainList.apply, toNodes, hids]
    change Option.Rel (Agree Stands) ((((idsOf plain.items).mapM list'.node).bind _).map _) _
    rw [hnodes]
    exact .some ⟨rfl, hstands⟩

/-- Operations in any order and number. -/
theorem Stands.run (h : list.Stands plain) (ops : List Op) :
    Option.Rel (Agree Stands) (list.run ops) (plain.run ops) :=
  run_rel (fun op h => Stands.apply h op) h ops

theorem stands_empty : Stands empty ⟨[], 0⟩ where
  linked := by
    refine ⟨List.nodup_nil, rfl, rfl, ?_, fun id _ => by simp [entry, empty]⟩
    intro xs id node ys hsplit
    simp at hsplit
  made := rfl
  bounded := by decide
  order := by
    intro order horder
    cases horder

theorem Stands.addAll (h : list.Stands ⟨items, made⟩) (nodes : List Node) :
    Option.Rel Stands (list.addAll nodes)
      (if made + nodes.length ≤ idLimit then some ⟨items ++ fresh made nodes, made + nodes.length⟩ else none) := by
  induction nodes generalizing list items made with
  | nil =>
    rw [List.length_nil, Nat.add_zero, if_pos (show made ≤ idLimit from h.bounded)]
    refine .some ?_
    simpa [fresh] using h
  | cons node nodes ih =>
    have h' : list.Stands ⟨items ++ [], made⟩ := by simpa using h
    rw [InsnList.addAll, InsnList.add, List.length_cons]
    by_cases hmade : made < idLimit
    · obtain ⟨list₁, list₂, halloc, hlast, hlink, hstands⟩ := h'.insertOne hmade node
      change list₁.link _ made none = _ at hlink
      rw [← h.linked.last, ← hlast] at hlink
      simp only [halloc, hlink, Option.bind_eq_bind, Option.bind_some, Option.pure_def]
      have hrest := ih hstands
      rwa [Nat.add_right_comm, Nat.add_assoc made, List.append_assoc, List.singleton_append, ← fresh_cons] at hrest
    · have hlen : list.entries.length = made := h.made
      have halloc : list.allocate node = none := if_neg (hlen ▸ hmade)
      rw [halloc, if_neg (by omega)]
      exact .none

theorem stands_new (nodes : List Node) : Option.Rel Stands (new nodes) (PlainList.new nodes) := by
  have h := stands_empty.addAll nodes
  rwa [Nat.zero_add, List.nil_append] at h

theorem Linked.walk_next (h : list.Linked (xs ++ ys)) {fuel : ℕ} (hfuel : ys.length ≤ fuel) :
    walk list.next fuel (idsOf ys).head? = some (idsOf ys) := by
  induction ys generalizing xs fuel with
  | nil => cases fuel <;> rfl
  | cons item ys ih =>
    cases fuel with
    | zero => simp at hfuel
    | succ fuel =>
      have hnext : list.next item.1 = some (idsOf ys).head? := by
        rw [next, h.links xs item.1 item.2 ys rfl]
        rfl
      have h' : list.Linked ((xs ++ [item]) ++ ys) := by simpa using h
      rw [idsOf_cons, List.head?_cons, walk, hnext]
      change (walk list.next fuel (idsOf ys).head?).bind _ = _
      rw [ih h' (Nat.le_of_succ_le_succ hfuel)]
      rfl

theorem Linked.walk_prev (h : list.Linked (xs ++ ys)) {fuel : ℕ} (hfuel : xs.length ≤ fuel) :
    walk list.prev fuel (idsOf xs).getLast? = some (idsOf xs).reverse := by
  induction xs using List.reverseRecOn generalizing ys fuel with
  | nil => cases fuel <;> rfl
  | append_singleton xs item ih =>
    cases fuel with
    | zero => simp at hfuel
    | succ fuel =>
      have h' : list.Linked (xs ++ item :: ys) := by simpa using h
      have hprev : list.prev item.1 = some (idsOf xs).getLast? := by
        rw [prev, h'.links xs item.1 item.2 ys rfl]
        rfl
      have hlast : (idsOf (xs ++ [item])).getLast? = some item.1 := by simp [idsOf]
      rw [hlast, walk, hprev]
      change (walk list.prev fuel (idsOf xs).getLast?).bind _ = _
      rw [ih h' (by simpa using hfuel), idsOf_append, List.reverse_append]
      rfl

/-- What a pass sees of a list is the plain list. -/
structure Mirrors (list : InsnList) (plain : PlainList) : Prop where
  forward : walk list.next list.entries.length list.first = some plain.ids
  backward : walk list.prev list.entries.length list.last = some plain.ids.reverse
  denotes : ∀ id, list.node id = plain.node id
  order : ∀ order, list.order = some order → order = plain.ids
  positions : list.order ≠ none → ∀ id ∈ plain.ids, list.positions[id]? = plain.ids.idxOf? id

theorem Stands.mirrors (h : list.Stands plain) : list.Mirrors plain where
  forward := by
    have hlinked : list.Linked ([] ++ plain.items) := h.linked
    rw [h.linked.first]
    exact hlinked.walk_next h.length_le
  backward := by
    have hlinked : list.Linked (plain.items ++ []) := by simpa using h.linked
    rw [h.linked.last]
    exact hlinked.walk_prev h.length_le
  denotes := h.node_eq
  order order horder := (h.order order horder).1
  positions := by
    intro horder id hid
    obtain ⟨order, horder⟩ := Option.ne_none_iff_exists'.mp horder
    obtain ⟨e, he⟩ := Option.ne_none_iff_exists'.mp (h.linked.live hid)
    have hlt : id < plain.made := h.made ▸ entry_lt he
    obtain ⟨k, hk⟩ := Option.ne_none_iff_exists'.mp (mt PlainList.index_eq_none.mp (not_not.mpr hid))
    have hposition : plain.position id = k := by rw [PlainList.position, hk, Option.getD_some]
    rw [(h.order order horder).2, PlainList.positions, List.getElem?_map, List.getElem?_range hlt]
    exact (congrArg some hposition).trans hk.symm

/-- Whatever operations follow, an id still in the list denotes what it denoted, unless one of them sets it. -/
theorem Stands.keeps (h : list.Stands plain) {ops : List Op} {answers : List Answer} {node' : Node}
    (hrun : list.run ops = some (answers, list')) (hsets : ∀ n, Op.set id n ∉ ops)
    (hbefore : list.node id = some node) (hafter : list'.node id = some node') : node' = node := by
  have hrel := h.run ops
  rw [hrun] at hrel
  cases hplain : plain.run ops with
  | none =>
    rw [hplain] at hrel
    cases hrel
  | some b =>
    rw [hplain] at hrel
    cases hrel with
    | some hagree =>
      obtain ⟨-, hstands⟩ := hagree
      rw [h.node_eq] at hbefore
      rw [hstands.node_eq] at hafter
      have hlt : id < plain.made := by
        rw [← h.made]
        rw [← h.node_eq, InsnList.node, Option.map_eq_some_iff] at hbefore
        obtain ⟨e, he, -⟩ := hbefore
        exact entry_lt he
      obtain hmem | hge := (PlainList.grown_run hplain hsets).2 _ (PlainList.mem_of_node hafter)
      · obtain ⟨xs, ys, hsplit⟩ := List.append_of_mem hmem
        rw [PlainList.node_of_split h.linked.nodup hsplit] at hbefore
        exact Option.some.inj hbefore
      · exact absurd hlt (Nat.not_lt.mpr hge)

/-- A list made of any nodes, under any operations: it panics where the plain list does, answers as that
does, stands for it in both directions, and its ids keep what they denote. -/
theorem run_refines (nodes : List Node) (ops : List Op) :
    Option.Rel (fun a b => a.1 = b.1 ∧ a.2.Mirrors b.2) ((new nodes).bind (·.run ops))
      ((PlainList.new nodes).bind (·.run ops)) ∧
    ∀ before after, ops = before ++ after → ∀ a b, (new nodes).bind (·.run before) = some a →
      a.2.run after = some b → ∀ id node node', (∀ n, Op.set id n ∉ after) →
        a.2.node id = some node → b.2.node id = some node' → node' = node := by
  have hruns : ∀ ops : List Op,
      Option.Rel (Agree Stands) ((new nodes).bind (·.run ops)) ((PlainList.new nodes).bind (·.run ops)) := by
    intro ops
    have hnew := stands_new nodes
    cases hlist : new nodes <;> cases hplain : PlainList.new nodes <;> rw [hlist, hplain] at hnew <;> cases hnew
    · exact .none
    · rename_i h
      exact h.run ops
  constructor
  · have hrel := hruns ops
    cases hlist : (new nodes).bind (·.run ops) <;> cases hplain : (PlainList.new nodes).bind (·.run ops) <;>
      rw [hlist, hplain] at hrel <;> cases hrel
    · exact .none
    · rename_i h
      exact .some ⟨h.1, h.2.mirrors⟩
  · rintro before after - ⟨answers, list⟩ ⟨answers', list'⟩ hbefore hafter id node node' hsets hnode hnode'
    have hrel := hruns before
    rw [hbefore] at hrel
    cases hplain : (PlainList.new nodes).bind (·.run before) <;> rw [hplain] at hrel <;> cases hrel
    rename_i h
    exact h.2.keeps hafter hsets hnode hnode'

/-- The second of two nodes, once the first is removed. -/
theorem run_refines_remove :
    let first : Node := .insn (.op 0)
    let second : Node := .insn (.op 0xb1)
    let removed : InsnList := ⟨[none, some ⟨second, none, none⟩], some 1, some 1, none, []⟩
    (new [first, second]).bind (·.run [.remove 0]) = some ([.done], removed) ∧
      ∀ node, removed.node 1 = some node → node = second := by
  refine ⟨by decide, fun node hnode => ?_⟩
  exact (run_refines [.insn (.op 0), .insn (.op 0xb1)] [.remove 0]).2 [] [.remove 0] rfl
    ([], ⟨[some ⟨.insn (.op 0), none, some 1⟩, some ⟨.insn (.op 0xb1), some 0, none⟩], some 0, some 1, none, []⟩)
    ([.done], ⟨[none, some ⟨.insn (.op 0xb1), none, none⟩], some 1, some 1, none, []⟩) (by decide) (by decide) 1
    (.insn (.op 0xb1)) node (by simp) (by decide) hnode

end InsnList

end Krusty.Jvm.BytecodePasses
