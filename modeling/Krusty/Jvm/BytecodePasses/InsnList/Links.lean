import Krusty.Jvm.BytecodePasses.InsnList.Plain

/-! The links of an `InsnList` and what each edit makes of them. -/
namespace Krusty.Jvm.BytecodePasses.InsnList

variable {list list' : InsnList} {id x : NodeId} {prev next : Option NodeId} {node : Node}
  {items xs ys : List (NodeId × Node)}

def idsOf (items : List (NodeId × Node)) : List NodeId := items.map Prod.fst

/-- The arena links exactly `items`, in order. -/
structure Linked (list : InsnList) (items : List (NodeId × Node)) : Prop where
  nodup : (idsOf items).Nodup
  first : list.first = (idsOf items).head?
  last : list.last = (idsOf items).getLast?
  links : ∀ xs id node ys, items = xs ++ (id, node) :: ys →
    list.entry id = some ⟨node, (idsOf xs).getLast?, (idsOf ys).head?⟩
  dead : ∀ id, id ∉ idsOf items → list.entry id = none

theorem entry_eq_some {e : Entry} : list.entry id = some e ↔ list.entries[id]? = some (some e) := by
  rw [entry, Option.join_eq_some_iff]

theorem entry_lt {e : Entry} (h : list.entry id = some e) : id < list.entries.length :=
  (List.getElem?_eq_some_iff.mp (entry_eq_some.mp h)).1

/-- `list'` is `list` with some entries and ends edited, and nothing allocated. -/
structure Edited (list list' : InsnList) (first last : Option NodeId) (edit : NodeId → Entry → Entry) : Prop where
  length : list'.entries.length = list.entries.length
  first : list'.first = first
  last : list'.last = last
  order : list.order = none → list'.order = none
  entry : ∀ id, list'.entry id = (list.entry id).map (edit id)

theorem modify_spec {e : Entry} (h : list.entry id = some e) (edit : Entry → Entry) :
    ∃ list', list.modify id edit = some list' ∧ list'.order = none ∧
      Edited list list' list.first list.last fun j e => if id = j then edit e else e := by
  refine ⟨{ list with entries := list.entries.set id (some (edit e)), order := none }, ?_, rfl, ?_⟩
  · rw [modify, h]
    rfl
  · refine ⟨by simp, rfl, rfl, fun _ => rfl, ?_⟩
    intro j
    rw [entry, List.getElem?_set]
    by_cases hj : id = j
    · subst hj
      simp [entry_lt h, h]
    · simp [hj, entry]

/-- One side of a link. -/
theorem setNext_spec (prev next : Option NodeId) (hprev : ∀ p ∈ prev, list.entry p ≠ none) :
    ∃ list', list.setNext prev next = some list' ∧
      Edited list list' (if prev = none then next else list.first) list.last
        fun j e => if prev = some j then { e with next } else e := by
  cases prev with
  | none => exact ⟨{ list with first := next }, rfl, rfl, rfl, rfl, id, fun j => by simp [entry]⟩
  | some p =>
    obtain ⟨e, he⟩ := Option.ne_none_iff_exists'.mp (hprev p rfl)
    obtain ⟨list', hlist', horder, hedited⟩ := modify_spec he fun e => { e with next }
    refine ⟨list', hlist', hedited.length, by simpa using hedited.first, hedited.last, fun _ => horder, ?_⟩
    intro j
    rw [hedited.entry]
    simp only [Option.some.injEq]

/-- The other side. -/
theorem setPrev_spec (next prev : Option NodeId) (hnext : ∀ q ∈ next, list.entry q ≠ none) :
    ∃ list', list.setPrev next prev = some list' ∧
      Edited list list' list.first (if next = none then prev else list.last)
        fun j e => if next = some j then { e with prev } else e := by
  cases next with
  | none => exact ⟨{ list with last := prev }, rfl, rfl, rfl, rfl, id, fun j => by simp [entry]⟩
  | some q =>
    obtain ⟨e, he⟩ := Option.ne_none_iff_exists'.mp (hnext q rfl)
    obtain ⟨list', hlist', horder, hedited⟩ := modify_spec he fun e => { e with prev }
    refine ⟨list', hlist', hedited.length, hedited.first, by simpa using hedited.last, fun _ => horder, ?_⟩
    intro j
    rw [hedited.entry]
    simp only [Option.some.injEq]

/-- A link between `prev` and `next` goes through `id`. -/
theorem link_spec {e : Entry} (hid : list.entry id = some e) (hprev : ∀ p ∈ prev, list.entry p ≠ none)
    (hnext : ∀ q ∈ next, list.entry q ≠ none) :
    ∃ list', list.link prev id next = some list' ∧ list'.order = none ∧
      Edited list list' (if prev = none then some id else list.first)
        (if next = none then some id else list.last) fun j e =>
          let e := if id = j then { e with prev, next } else e
          let e := if prev = some j then { e with next := some id } else e
          if next = some j then { e with prev := some id } else e := by
  obtain ⟨list₁, h₁, horder₁, hedited₁⟩ := modify_spec hid fun e => { e with prev, next }
  have hlive₁ : ∀ j, list.entry j ≠ none → list₁.entry j ≠ none := by
    intro j hj
    simpa [hedited₁.entry] using hj
  obtain ⟨list₂, h₂, hedited₂⟩ :=
    setNext_spec prev (some id) fun p hp => hlive₁ p (hprev p hp)
  have hlive₂ : ∀ j, list.entry j ≠ none → list₂.entry j ≠ none := by
    intro j hj
    simpa [hedited₂.entry] using hlive₁ j hj
  obtain ⟨list₃, h₃, hedited₃⟩ :=
    setPrev_spec next (some id) fun q hq => hlive₂ q (hnext q hq)
  refine ⟨list₃, ?_, hedited₃.order (hedited₂.order horder₁), ?_, ?_, ?_, ?_, ?_⟩
  · rw [link, h₁]
    change (list₁.setNext prev (some id)).bind _ = _
    rw [h₂]
    exact h₃
  · rw [hedited₃.length, hedited₂.length, hedited₁.length]
  · rw [hedited₃.first, hedited₂.first, hedited₁.first]
  · rw [hedited₃.last, hedited₂.last, hedited₁.last]
  · exact fun _ => hedited₃.order (hedited₂.order horder₁)
  · intro j
    rw [hedited₃.entry, hedited₂.entry, hedited₁.entry, Option.map_map, Option.map_map]
    rfl

theorem allocate_spec (h : list.entries.length < idLimit) (node : Node) :
    ∃ list', list.allocate node = some (list.entries.length, list') ∧
      list'.entries.length = list.entries.length + 1 ∧ list'.first = list.first ∧ list'.last = list.last ∧
      ∀ j, list'.entry j = if list.entries.length = j then some ⟨node, none, none⟩ else list.entry j := by
  refine ⟨{ list with entries := list.entries ++ [some ⟨node, none, none⟩] }, if_pos h, by simp, rfl, rfl, ?_⟩
  intro j
  rw [entry, entry]
  obtain hj | rfl | hj := lt_trichotomy j list.entries.length
  · rw [List.getElem?_append_left hj, if_neg hj.ne']
  · simp
  · have hlen : (list.entries ++ [some (⟨node, none, none⟩ : Entry)]).length ≤ j := by simpa using hj
    rw [List.getElem?_eq_none hlen, if_neg hj.ne, List.getElem?_eq_none hj.le]

/-- Where an element of two joined lists stands. -/
theorem split_append {α : Type} {as bs xs ys : List α} {a : α} (h : xs ++ ys = as ++ a :: bs) :
    (∃ cs, xs = as ++ a :: cs ∧ bs = cs ++ ys) ∨ ∃ cs, as = xs ++ cs ∧ ys = cs ++ a :: bs := by
  obtain ⟨cs, has, hys⟩ | ⟨cs, hxs, hbs⟩ := List.append_eq_append_iff.mp h
  · exact .inr ⟨cs, has, hys⟩
  · cases cs with
    | nil => exact .inr ⟨[], by simpa using hxs.symm, by simpa using hbs.symm⟩
    | cons c cs =>
      cases hbs
      exact .inl ⟨cs, hxs, rfl⟩

theorem idsOf_append (xs ys : List (NodeId × Node)) : idsOf (xs ++ ys) = idsOf xs ++ idsOf ys :=
  List.map_append

theorem idsOf_cons (item : NodeId × Node) (xs : List (NodeId × Node)) :
    idsOf (item :: xs) = item.1 :: idsOf xs := rfl

theorem getLast?_ne {as cs : List (NodeId × Node)} {c : NodeId × Node}
    (h : (idsOf (as ++ (id, node) :: c :: cs)).Nodup) :
    (idsOf (as ++ (id, node) :: c :: cs)).getLast? ≠ some id := by
  rw [idsOf_append, idsOf_cons] at h
  intro hlast
  refine (List.nodup_cons.mp (List.nodup_append.mp h).2.1).1 (List.mem_of_getLast? (l := idsOf (c :: cs)) ?_)
  simpa [idsOf] using hlast

theorem head?_ne {bs cs : List (NodeId × Node)} {c : NodeId × Node}
    (h : (idsOf (c :: cs ++ (id, node) :: bs)).Nodup) : (idsOf (c :: cs ++ (id, node) :: bs)).head? ≠ some id := by
  intro hhead
  cases hhead
  refine (List.nodup_cons.mp h).1 ?_
  simp

theorem Linked.live (h : Linked list items) (hid : id ∈ idsOf items) : list.entry id ≠ none := by
  obtain ⟨item, hitem, rfl⟩ := List.mem_map.mp hid
  obtain ⟨xs, ys, hsplit⟩ := List.append_of_mem hitem
  rw [h.links xs item.1 item.2 ys hsplit]
  exact Option.some_ne_none _

/-- A new element, linked between its neighbours. -/
theorem Linked.insert {list₁ : InsnList} (h : Linked list (xs ++ ys)) (hfresh : list.entry x = none)
    (hfirst : list₁.first = list.first) (hlast : list₁.last = list.last)
    (hentry : ∀ j, list₁.entry j = if x = j then some ⟨node, none, none⟩ else list.entry j) :
    ∃ list', list₁.link (idsOf xs).getLast? x (idsOf ys).head? = some list' ∧ list'.order = none ∧
      list'.entries.length = list₁.entries.length ∧ Linked list' (xs ++ (x, node) :: ys) := by
  have hnodup := h.nodup
  rw [idsOf_append] at hnodup
  obtain ⟨hxs, hys, hdisjoint⟩ := List.nodup_append.mp hnodup
  have hxmem : x ∉ idsOf (xs ++ ys) := fun hmem => h.live hmem hfresh
  have hlive₁ : ∀ j ∈ idsOf (xs ++ ys), list₁.entry j ≠ none := by
    intro j hj
    rw [hentry, if_neg (by rintro rfl; exact hxmem hj)]
    exact h.live hj
  rw [idsOf_append, List.mem_append, not_or] at hxmem
  obtain ⟨hxxs, hxys⟩ := hxmem
  obtain ⟨list', hlist', horder, hedited⟩ := link_spec (by rw [hentry, if_pos rfl])
    (fun p hp => hlive₁ p (by rw [idsOf_append]; exact List.mem_append_left _ (List.mem_of_getLast? hp)))
    (fun q hq => hlive₁ q (by rw [idsOf_append]; exact List.mem_append_right _ (List.mem_of_head? hq)))
  refine ⟨list', hlist', horder, hedited.length, ?_, ?_, ?_, ?_, ?_⟩
  · rw [idsOf_append, idsOf_cons, List.nodup_middle, List.nodup_cons, List.mem_append, not_or]
    exact ⟨⟨hxxs, hxys⟩, hnodup⟩
  · rw [hedited.first, hfirst, h.first, idsOf_append, idsOf_append, idsOf_cons]
    cases xs <;> rfl
  · rw [hedited.last, hlast, h.last, idsOf_append, idsOf_append, idsOf_cons]
    cases ys <;> simp [idsOf]
  · intro as id n bs hsplit
    rw [hedited.entry, hentry]
    obtain ⟨cs, rfl, rfl⟩ | ⟨cs, rfl, hcs⟩ := split_append hsplit
    · -- an element before the new one, which it may come right before
      have hlinks := h.links as id n (cs ++ ys) (by simp)
      have hmem : id ∈ idsOf (as ++ (id, n) :: cs) := by simp [idsOf]
      have hx : x ≠ id := by
        rintro rfl
        exact hxxs hmem
      have hhead : (idsOf ys).head? ≠ some id := fun hhead =>
        hdisjoint _ hmem _ (List.mem_of_head? hhead) rfl
      rw [if_neg hx, hlinks, Option.map_some]
      dsimp only
      rw [if_neg hx, if_neg hhead]
      cases cs with
      | nil => simp [idsOf]
      | cons c cs =>
        rw [if_neg (getLast?_ne hxs)]
        rfl
    · cases cs with
      | nil =>
        cases hcs
        have hlast : (idsOf xs).getLast? ≠ some x := fun hlast => hxxs (List.mem_of_getLast? hlast)
        have hhead : (idsOf ys).head? ≠ some x := fun hhead => hxys (List.mem_of_head? hhead)
        rw [if_pos rfl, Option.map_some]
        dsimp only
        rw [if_pos rfl, if_neg hlast, if_neg hhead, List.append_nil]
      | cons c cs =>
        -- an element after the new one
        rw [List.cons_append] at hcs
        obtain ⟨hc, rfl⟩ := List.cons.inj hcs
        cases hc
        have hlinks := h.links (xs ++ cs) id n bs (by simp)
        have hmem : id ∈ idsOf (cs ++ (id, n) :: bs) := by simp [idsOf]
        have hx : x ≠ id := by
          rintro rfl
          exact hxys hmem
        have hlast : (idsOf xs).getLast? ≠ some id := fun hlast =>
          hdisjoint _ (List.mem_of_getLast? hlast) _ hmem rfl
        rw [if_neg hx, hlinks, Option.map_some]
        dsimp only
        rw [if_neg hx, if_neg hlast]
        cases cs with
        | nil => simp [idsOf]
        | cons c cs =>
          rw [if_neg (head?_ne hys)]
          simp [idsOf, List.getLast?_append, List.getLast?_cons]
  · intro j hj
    rw [idsOf_append, idsOf_cons, List.mem_append, List.mem_cons, not_or, not_or] at hj
    rw [hedited.entry, hentry, if_neg (Ne.symm hj.2.1), h.dead j]
    · rfl
    · rw [idsOf_append, List.mem_append]
      exact fun hmem => hmem.elim hj.1 hj.2.2

/-- An element's neighbours, linked to each other over it. -/
theorem Linked.remove (h : Linked list (xs ++ (x, node) :: ys)) :
    ∃ list', list.remove x = some list' ∧ list'.order = none ∧
      list'.entries.length = list.entries.length ∧ Linked list' (xs ++ ys) := by
  have hx := h.links xs x node ys rfl
  have hnodup := h.nodup
  rw [idsOf_append, idsOf_cons, List.nodup_middle, List.nodup_cons, List.mem_append, not_or] at hnodup
  obtain ⟨⟨hxxs, hxys⟩, hnodup⟩ := hnodup
  obtain ⟨hxs, hys, hdisjoint⟩ := List.nodup_append.mp hnodup
  have hmem : ∀ {j}, j ∈ idsOf xs ∨ j ∈ idsOf ys → j ∈ idsOf (xs ++ (x, node) :: ys) := by
    intro j hj
    rw [idsOf_append, idsOf_cons, List.mem_append, List.mem_cons]
    tauto
  obtain ⟨list₁, h₁, hedited₁⟩ := setNext_spec (idsOf xs).getLast? (idsOf ys).head? fun p hp =>
    h.live (hmem (.inl (List.mem_of_getLast? hp)))
  have hlive₁ : ∀ q ∈ (idsOf ys).head?, list₁.entry q ≠ none := by
    intro q hq
    simpa [hedited₁.entry] using h.live (hmem (.inr (List.mem_of_head? hq)))
  obtain ⟨list₂, h₂, hedited₂⟩ := setPrev_spec (idsOf ys).head? (idsOf xs).getLast? hlive₁
  have hentry : ∀ j, entry { list₂ with entries := list₂.entries.set x none, order := none } j =
      if x = j then none
      else
        ((list.entry j).map fun e =>
          if (idsOf xs).getLast? = some j then { e with next := (idsOf ys).head? } else e).map fun e =>
            if (idsOf ys).head? = some j then { e with prev := (idsOf xs).getLast? } else e := by
    intro j
    rw [← hedited₁.entry, ← hedited₂.entry, entry, entry, List.getElem?_set]
    split_ifs <;> rfl
  refine ⟨{ list₂ with entries := list₂.entries.set x none, order := none }, ?_, rfl, ?_, ?_, ?_, ?_, ?_, ?_⟩
  · rw [InsnList.remove, hx]
    change (list.setNext _ _).bind _ = _
    rw [h₁]
    change (list₁.setPrev _ _).bind _ = _
    rw [h₂]
    rfl
  · rw [List.length_set, hedited₂.length, hedited₁.length]
  · rwa [idsOf_append]
  · change list₂.first = _
    rw [hedited₂.first, hedited₁.first, h.first, idsOf_append, idsOf_append, idsOf_cons]
    cases xs <;> simp [idsOf]
  · change list₂.last = _
    rw [hedited₂.last, hedited₁.last, h.last, idsOf_append, idsOf_append, idsOf_cons]
    cases ys <;> simp [idsOf]
  · intro as id n bs hsplit
    rw [hentry]
    obtain ⟨cs, rfl, rfl⟩ | ⟨cs, rfl, rfl⟩ := split_append hsplit
    · have hlinks := h.links as id n (cs ++ (x, node) :: ys) (by simp)
      have hmem : id ∈ idsOf (as ++ (id, n) :: cs) := by simp [idsOf]
      have hx : x ≠ id := by
        rintro rfl
        exact hxxs hmem
      have hhead : (idsOf ys).head? ≠ some id := fun hhead =>
        hdisjoint _ hmem _ (List.mem_of_head? hhead) rfl
      rw [if_neg hx, hlinks, Option.map_some, Option.map_some]
      dsimp only
      rw [if_neg hhead]
      cases cs with
      | nil => simp [idsOf]
      | cons c cs =>
        rw [if_neg (getLast?_ne hxs)]
        rfl
    · have hlinks := h.links (xs ++ (x, node) :: cs) id n bs (by simp)
      have hmem : id ∈ idsOf (cs ++ (id, n) :: bs) := by simp [idsOf]
      have hx : x ≠ id := by
        rintro rfl
        exact hxys hmem
      have hlast : (idsOf xs).getLast? ≠ some id := fun hlast =>
        hdisjoint _ (List.mem_of_getLast? hlast) _ hmem rfl
      rw [if_neg hx, hlinks, Option.map_some, Option.map_some]
      dsimp only
      rw [if_neg hlast]
      cases cs with
      | nil => simp [idsOf]
      | cons c cs =>
        rw [if_neg (head?_ne hys)]
        simp [idsOf, List.getLast?_append, List.getLast?_cons]
  · intro j hj
    rw [hentry]
    by_cases hxj : x = j
    · rw [if_pos hxj]
    · rw [if_neg hxj, h.dead j]
      · rfl
      · rw [idsOf_append, idsOf_cons, List.mem_append, List.mem_cons]
        rw [idsOf_append, List.mem_append] at hj
        tauto

/-- Another node under the same id. -/
theorem Linked.set (h : Linked list (xs ++ (x, node) :: ys)) (node' : Node) :
    ∃ list', list.set x node' = some list' ∧ list'.order = none ∧
      list'.entries.length = list.entries.length ∧ Linked list' (xs ++ (x, node') :: ys) := by
  have hx := h.links xs x node ys rfl
  have hids : idsOf (xs ++ (x, node') :: ys) = idsOf (xs ++ (x, node) :: ys) := by simp [idsOf]
  have hnodup := h.nodup
  rw [idsOf_append, idsOf_cons, List.nodup_middle, List.nodup_cons, List.mem_append, not_or] at hnodup
  obtain ⟨⟨hxxs, hxys⟩, -⟩ := hnodup
  obtain ⟨list', hlist', horder, hedited⟩ := modify_spec hx fun entry => { entry with node := node' }
  refine ⟨list', hlist', horder, hedited.length, ?_, ?_, ?_, ?_, ?_⟩
  · rw [hids]
    exact h.nodup
  · rw [hedited.first, h.first, hids]
  · rw [hedited.last, h.last, hids]
  · intro as id n bs hsplit
    rw [hedited.entry]
    obtain ⟨cs, rfl, rfl⟩ | ⟨cs, rfl, hcs⟩ := split_append hsplit
    · have hne : x ≠ id := by
        rintro rfl
        exact hxxs (by simp [idsOf])
      rw [h.links as id n (cs ++ (x, node) :: ys) (by simp), Option.map_some, if_neg hne]
      simp [idsOf]
    · cases cs with
      | nil =>
        cases hcs
        rw [hx, Option.map_some, if_pos rfl, List.append_nil]
      | cons c cs =>
        rw [List.cons_append] at hcs
        obtain ⟨hc, rfl⟩ := List.cons.inj hcs
        cases hc
        have hne : x ≠ id := by
          rintro rfl
          exact hxys (by simp [idsOf])
        rw [h.links (xs ++ (x, node) :: cs) id n bs (by simp), Option.map_some, if_neg hne]
        simp [idsOf]
  · intro j hj
    rw [hids] at hj
    rw [hedited.entry, h.dead j hj, Option.map_none]

end Krusty.Jvm.BytecodePasses.InsnList
