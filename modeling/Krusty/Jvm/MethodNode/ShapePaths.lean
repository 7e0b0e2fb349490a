import Krusty.Jvm.MethodNode.StackShape

/-! The stack shapes of a body against the shapes its paths produce. -/
namespace Krusty.Jvm.StackShape

open Relation

section Paths

variable (method : MethodNode)

/-- Control before a node, along some path: the stack, and the stacks the opening markers passed have saved. -/
structure Config where
  index : ℕ
  shape : Shape
  saved : ℕ → Option Shape

/-- What is saved after a node. -/
def Config.saves (c : Config) (node : Node) : ℕ → Option Shape :=
  match bracketSide node with
  | some .opens => Function.update c.saved c.index (some c.shape)
  | _ => c.saved

/-- A path goes on, to a handler or where the node passes control to. -/
inductive Goes (c d : Config) : Prop
  | throws {block : TryCatchBlock} {start stop handler : ℕ} (hc : c.index < method.nodes.length)
      (hblock : block ∈ method.tryCatchBlocks) (hrange : rangeOf method block = .ok (start, stop, handler))
      (hin : start ≤ c.index ∧ c.index < stop) (hd : d = ⟨handler, [.reference], c.saved⟩)
  | passes {node : Node} {shape : Shape} {place : ℕ} (hnode : method.nodes[c.index]? = some node)
      (hshape : shapeAfter method c.index node c.shape c.saved = .ok shape)
      (hplace : .ok place ∈ placesOf method c.index node) (hd : d = ⟨place, shape, c.saves node⟩)

/-- Some path from the first node comes to `c`. -/
def Along : Config → Prop := ReflTransGen (Goes method) ⟨0, [], fun _ => none⟩

/-- Every path can be followed to its end, and paths that meet agree. -/
structure Balanced : Prop where
  ranges : ∀ block ∈ method.tryCatchBlocks, ∃ range, rangeOf method block = .ok range
  follows : ∀ c node, Along method c → method.nodes[c.index]? = some node →
    (∃ shape, shapeAfter method c.index node c.shape c.saved = .ok shape) ∧
      ∀ place ∈ placesOf method c.index node, ∃ index, place = .ok index
  agree : ∀ c d, Along method c → Along method d → c.index < method.nodes.length → c.index = d.index →
    c.shape = d.shape

end Paths

section Enter

variable {method : MethodNode} {state state' state'' : Shaping} {shape : Shape} {index : ℕ}

/-- What entering `places` with a shape changes. -/
structure Enters (places : List ℕ) (shape : Shape) (state state' : Shaping) : Prop where
  length : state'.shapes.length = state.shapes.length
  grows : ∀ j t, state.known j = some t → state'.known j = some t
  recorded : ∀ place ∈ places, place < state.shapes.length → state'.known place = some shape
  fresh : ∀ j t, state'.known j = some t → state.known j = some t ∨ (j ∈ places ∧ t = shape ∧ j ∈ state'.work)
  work : ∀ j ∈ state'.work, j ∈ state.work ∨ ∃ t, state'.known j = some t
  stays : ∀ j ∈ state.work, j ∈ state'.work
  left : state'.shapes.countP Option.isNone + state'.work.length =
    state.shapes.countP Option.isNone + state.work.length

theorem Enters.refl (shape : Shape) (state : Shaping) : Enters [] shape state state where
  length := rfl
  grows _ _ h := h
  recorded _ h := by cases h
  fresh _ _ h := .inl h
  work _ h := .inl h
  stays _ h := h
  left := rfl

theorem Enters.cons {places : List ℕ} (h : Enters [index] shape state state')
    (h' : Enters places shape state' state'') : Enters (index :: places) shape state state'' where
  length := h'.length.trans h.length
  grows j t hj := h'.grows j t (h.grows j t hj)
  recorded := by
    intro place hplace hlt
    obtain rfl | hplace := List.mem_cons.mp hplace
    · exact h'.grows _ _ (h.recorded _ (List.mem_singleton_self _) hlt)
    · exact h'.recorded place hplace (h.length ▸ hlt)
  fresh := by
    intro j t hj
    obtain hj | ⟨hmem, rfl, hwork⟩ := h'.fresh j t hj
    · obtain hj | ⟨hmem, rfl, hwork⟩ := h.fresh j t hj
      · exact .inl hj
      · exact .inr ⟨List.mem_singleton.mp hmem ▸ List.mem_cons_self, rfl, h'.stays j hwork⟩
    · exact .inr ⟨List.mem_cons_of_mem _ hmem, rfl, hwork⟩
  work := by
    intro j hj
    obtain hj | hknown := h'.work j hj
    · obtain hj | ⟨t, ht⟩ := h.work j hj
      · exact .inl hj
      · exact .inr ⟨t, h'.grows j t ht⟩
    · exact .inr hknown
  stays j hj := h'.stays j (h.stays j hj)
  left := h'.left.trans h.left

/-- Coming again to a node with its shape, or past the last node, changes nothing. -/
theorem Enters.stay (h : index < state.shapes.length → state.known index = some shape) :
    Enters [index] shape state state := by
  refine { Enters.refl shape state with recorded := ?_, fresh := fun _ _ hj => .inl hj }
  intro place hplace hlt
  rw [List.mem_singleton.mp hplace] at hlt ⊢
  exact h hlt

theorem known_set {work : List ℕ} (hindex : index < state.shapes.length) (j : ℕ) :
    (⟨state.shapes.set index (some shape), work⟩ : Shaping).known j =
      if j = index then some shape else state.known j := by
  unfold Shaping.known
  split_ifs with hj
  · rw [hj, List.getElem?_set_self hindex]
    rfl
  · rw [List.getElem?_set_ne (Ne.symm hj)]

/-- A node entered for the first time is recorded, and left to be visited. -/
theorem Enters.first (hindex : index < state.shapes.length) (hknown : state.known index = none) :
    Enters [index] shape state ⟨state.shapes.set index (some shape), index :: state.work⟩ where
  length := List.length_set
  grows := by
    intro j t hj
    rw [known_set hindex]
    split_ifs with heq
    · rw [heq, hknown] at hj
      cases hj
    · exact hj
  recorded := by
    intro place hplace _
    rw [List.mem_singleton.mp hplace, known_set hindex, if_pos rfl]
  fresh := by
    intro j t hj
    rw [known_set hindex] at hj
    split_ifs at hj with heq
    · exact .inr ⟨List.mem_singleton.mpr heq, (Option.some.inj hj).symm, heq ▸ List.mem_cons_self⟩
    · exact .inl hj
  work := by
    intro j hj
    obtain rfl | hj := List.mem_cons.mp hj
    · exact .inr ⟨shape, by rw [known_set hindex, if_pos rfl]⟩
    · exact .inl hj
  stays _ hj := List.mem_cons_of_mem _ hj
  left := by
    have hnone : state.shapes[index] = none := by
      simpa [Shaping.known, List.getElem?_eq_getElem hindex] using hknown
    have hpos : 0 < state.shapes.countP Option.isNone :=
      List.countP_pos_iff.mpr ⟨_, List.getElem_mem hindex, by rw [hnone]; rfl⟩
    rw [List.countP_set hindex, hnone]
    simp only [Option.isNone_none, if_true, Option.isNone_some, Bool.false_eq_true, if_false, List.length_cons]
    omega

theorem enters_of_enter (hlength : state.shapes.length = method.nodes.length)
    (h : enter method state index shape = .ok state') : Enters [index] shape state state' := by
  unfold enter at h
  split_ifs at h with hout
  · cases h
    exact .stay fun hlt => by omega
  · split at h
    · rename_i known hknown
      split_ifs at h with heq
      cases h
      exact .stay fun _ => heq ▸ hknown
    · rename_i hknown
      cases h
      exact .first (by omega) hknown

theorem enters_of_enterAll {places : List (Except ShapeError ℕ)} (hlength : state.shapes.length = method.nodes.length)
    (h : enterAll method shape state places = .ok state') :
    ∃ indexes : List ℕ, places = indexes.map .ok ∧ Enters indexes shape state state' := by
  unfold enterAll at h
  induction places generalizing state with
  | nil =>
    cases h
    exact ⟨[], rfl, .refl shape _⟩
  | cons place places ih =>
    rw [List.foldlM_cons] at h
    obtain ⟨next, hnext, h⟩ := Results.bind_ok h
    obtain ⟨index, hplace, hnext⟩ := Results.bind_ok hnext
    have hfirst := enters_of_enter hlength hnext
    obtain ⟨indexes, rfl, hrest⟩ := ih (hfirst.length.trans hlength) h
    exact ⟨index :: indexes, by rw [hplace]; rfl, hfirst.cons hrest⟩

/-- Places whose shape is not known to be another can be entered. -/
theorem exists_enterAll {indexes : List ℕ} (hlength : state.shapes.length = method.nodes.length)
    (h : ∀ index ∈ indexes, index < method.nodes.length → ∀ t, state.known index = some t → t = shape) :
    ∃ state', enterAll method shape state (indexes.map .ok) = .ok state' := by
  unfold enterAll
  induction indexes generalizing state with
  | nil => exact ⟨state, rfl⟩
  | cons index indexes ih =>
    obtain ⟨hindex, hrest⟩ := List.forall_mem_cons.mp h
    obtain ⟨next, hnext⟩ : ∃ next, enter method state index shape = .ok next := by
      unfold enter
      split_ifs with hout
      · exact ⟨_, rfl⟩
      · split
        · rename_i known hknown
          exact ⟨_, if_pos (hindex (by omega) known hknown)⟩
        · exact ⟨_, rfl⟩
    have henters := enters_of_enter hlength hnext
    obtain ⟨state', hstate'⟩ := ih (henters.length.trans hlength) (by
      intro j hj hlt t ht
      obtain ht | ⟨-, rfl, -⟩ := henters.fresh j t ht
      · exact hrest j hj hlt t ht
      · rfl)
    refine ⟨state', ?_⟩
    rw [List.map_cons, List.foldlM_cons]
    change (enter method state index shape >>= _) = _
    rw [hnext]
    exact hstate'

end Enter

section Follow

variable {method : MethodNode} {index : ℕ} {node : Node} {shape after : Shape} {k k' : ℕ → Option Shape}

/-- Knowing more shapes gives the same stack after a node. -/
theorem shapeAfter_mono (hk : ∀ j t, k j = some t → k' j = some t)
    (h : shapeAfter method index node shape k = .ok after) : shapeAfter method index node shape k' = .ok after := by
  unfold shapeAfter at h ⊢
  cases node with
  | label label => exact h
  | line line start => exact h
  | insn insn =>
    obtain ⟨left, hleft, h⟩ := Results.bind_ok h
    dsimp only
    rw [hleft]
    change (follow method index left k').mapError some = _
    unfold follow at h ⊢
    split at h
    · exact h
    · exact h
    · cases hopening : (opening method index).bind k with
      | none =>
        rw [hopening] at h
        cases h
      | some under =>
        obtain ⟨first, hfirst, hunder⟩ := Option.bind_eq_some_iff.mp hopening
        rw [hopening] at h
        rw [hfirst, Option.bind_some, hk first under hunder]
        exact h

end Follow

variable {shapes : List (Option Shape)}

section Runs

variable {method : MethodNode} {ranges : List (ℕ × ℕ × ℕ)} {state state' : Shaping} {index : ℕ} {shape : Shape}

theorem mapError_ok {α β ε : Type} {f : α → β} {x : Except α ε} {a : ε} (h : x.mapError f = .ok a) : x = .ok a := by
  cases x with
  | error e => cases h
  | ok b =>
    cases h
    rfl

/-- What a visit enters. -/
theorem visit_ok (hlength : state.shapes.length = method.nodes.length) (hknown : state.known index = some shape)
    (h : visit method ranges state index = .ok state') : ∃ handlers between node after places,
      handlersAt ranges index = handlers.map .ok ∧ Enters handlers [.reference] state between ∧
      method.nodes[index]? = some node ∧ shapeAfter method index node shape between.known = .ok after ∧
      placesOf method index node = places.map .ok ∧ Enters places after between state' := by
  obtain ⟨between, hbetween, h⟩ := Results.bind_ok h
  obtain ⟨handlers, hhandlers, henters⟩ := enters_of_enterAll hlength (mapError_ok hbetween)
  cases hnode : method.nodes[index]? with
  | none =>
    rw [hnode] at h
    cases h
  | some node =>
    rw [hnode] at h
    obtain ⟨after, hafter, h⟩ := Results.bind_ok h
    rw [hknown] at hafter
    obtain ⟨places, hplaces, henters'⟩ := enters_of_enterAll (henters.length.trans hlength) (mapError_ok h)
    exact ⟨handlers, between, node, after, places, hhandlers, henters, rfl, hafter, hplaces, henters'⟩

/-- A node that has been visited: everything it leads to is known. -/
structure Visited (method : MethodNode) (ranges : List (ℕ × ℕ × ℕ)) (known : ℕ → Option Shape) (index : ℕ)
    (shape : Shape) : Prop where
  handlers : ∀ handler, .ok handler ∈ handlersAt ranges index → handler < method.nodes.length →
    known handler = some [.reference]
  passes : ∀ node, method.nodes[index]? = some node → ∃ after, shapeAfter method index node shape known = .ok after ∧
    ∀ place, .ok place ∈ placesOf method index node → place < method.nodes.length → known place = some after

theorem Visited.mono {k k' : ℕ → Option Shape} (hk : ∀ j t, k j = some t → k' j = some t)
    (h : Visited method ranges k index shape) : Visited method ranges k' index shape where
  handlers handler hmem hlt := hk _ _ (h.handlers handler hmem hlt)
  passes node hnode := by
    obtain ⟨after, hafter, hplaces⟩ := h.passes node hnode
    exact ⟨after, shapeAfter_mono hk hafter, fun place hmem hlt => hk _ _ (hplaces place hmem hlt)⟩

/-- What every run keeps: the nodes known are visited or still to be. -/
structure Running (method : MethodNode) (ranges : List (ℕ × ℕ × ℕ)) (state : Shaping) : Prop where
  length : state.shapes.length = method.nodes.length
  work : ∀ j ∈ state.work, ∃ t, state.known j = some t
  visited : ∀ j t, state.known j = some t → j ∈ state.work ∨ Visited method ranges state.known j t

theorem Running.visit {work : List ℕ} (hrun : Running method ranges ⟨shapes, index :: work⟩)
    (h : StackShape.visit method ranges ⟨shapes, work⟩ index = .ok state') :
    Running method ranges state' ∧ (∀ j t, (⟨shapes, work⟩ : Shaping).known j = some t → state'.known j = some t) ∧
      state'.shapes.countP Option.isNone + state'.work.length = shapes.countP Option.isNone + work.length := by
  obtain ⟨shape, hshape⟩ : ∃ shape, (⟨shapes, work⟩ : Shaping).known index = some shape :=
    hrun.work index List.mem_cons_self
  obtain ⟨handlers, between, node, after, places, hhandlers, henters, hnode, hafter, hplaces, henters'⟩ :=
    visit_ok (by exact hrun.length) hshape h
  have hlength : between.shapes.length = method.nodes.length := henters.length.trans hrun.length
  have hgrows : ∀ j t, (⟨shapes, work⟩ : Shaping).known j = some t → state'.known j = some t :=
    fun j t hj => henters'.grows j t (henters.grows j t hj)
  refine ⟨⟨henters'.length.trans hlength, ?_, ?_⟩, hgrows, henters'.left.trans henters.left⟩
  · intro j hj
    obtain hj | hknown := henters'.work j hj
    · obtain hj | ⟨t, ht⟩ := henters.work j hj
      · obtain ⟨t, ht⟩ := hrun.work j (List.mem_cons_of_mem _ hj)
        exact ⟨t, hgrows j t ht⟩
      · exact ⟨t, henters'.grows j t ht⟩
    · exact hknown
  · intro j t hj
    obtain hj | ⟨-, -, hwork⟩ := henters'.fresh j t hj
    · obtain hj | ⟨-, -, hwork⟩ := henters.fresh j t hj
      · obtain hpending | hvisited := hrun.visited j t hj
        · obtain rfl | hpending := List.mem_cons.mp hpending
          · right
            have heq : t = shape := Option.some.inj (hj.symm.trans hshape)
            subst heq
            refine ⟨?_, ?_⟩
            · intro handler hmem hlt
              rw [hhandlers] at hmem
              obtain ⟨_, hin, heq⟩ := List.mem_map.mp hmem
              cases heq
              exact henters'.grows _ _ (henters.recorded handler hin (hrun.length ▸ hlt))
            · intro node' hnode'
              rw [hnode] at hnode'
              cases hnode'
              refine ⟨after, shapeAfter_mono henters'.grows hafter, ?_⟩
              intro place hmem hlt
              rw [hplaces] at hmem
              obtain ⟨_, hin, heq⟩ := List.mem_map.mp hmem
              cases heq
              exact henters'.recorded place hin (hlength ▸ hlt)
          · exact .inl (henters'.stays j (henters.stays j hpending))
        · exact .inr (hvisited.mono hgrows)
      · exact .inl (henters'.stays j hwork)
    · exact .inl hwork

/-- A run that answers has visited every node it knows. -/
theorem Running.shapeFrom {fuel : ℕ} (hrun : Running method ranges state)
    (h : StackShape.shapeFrom method ranges fuel state = some (.ok shapes)) :
    shapes.length = method.nodes.length ∧ (∀ j t, state.known j = some t → shapes[j]?.join = some t) ∧
      ∀ j t, shapes[j]?.join = some t → Visited method ranges (fun j => shapes[j]?.join) j t := by
  induction fuel generalizing state with
  | zero =>
    obtain ⟨found, work⟩ := state
    cases work with
    | nil =>
      cases h
      exact ⟨hrun.length, fun _ _ hj => hj, fun j t hj => (hrun.visited j t hj).resolve_left List.not_mem_nil⟩
    | cons index work => cases h
  | succ fuel ih =>
    obtain ⟨found, work⟩ := state
    cases work with
    | nil =>
      cases h
      exact ⟨hrun.length, fun _ _ hj => hj, fun j t hj => (hrun.visited j t hj).resolve_left List.not_mem_nil⟩
    | cons index work =>
      rw [StackShape.shapeFrom] at h
      cases hvisit : StackShape.visit method ranges ⟨found, work⟩ index with
      | error e =>
        rw [hvisit] at h
        cases h
      | ok next =>
        rw [hvisit] at h
        obtain ⟨hrun', hgrows, -⟩ := hrun.visit hvisit
        obtain ⟨hlength, hknown, hvisited⟩ := ih hrun' h
        exact ⟨hlength, fun j t hj => hknown j t (hgrows j t hj), hvisited⟩

end Runs

section Sound

variable {method : MethodNode} {ranges : List (ℕ × ℕ × ℕ)} {known : ℕ → Option Shape}

theorem mem_handlersAt (hranges : method.tryCatchBlocks.mapM (rangeOf method) = .ok ranges) {index handler : ℕ} :
    .ok handler ∈ handlersAt ranges index ↔ ∃ block ∈ method.tryCatchBlocks, ∃ start stop,
      rangeOf method block = .ok (start, stop, handler) ∧ start ≤ index ∧ index < stop := by
  unfold handlersAt
  rw [List.mem_map]
  constructor
  · rintro ⟨⟨start, stop, handler'⟩, hmem, heq⟩
    cases heq
    obtain ⟨hrange, hin⟩ := List.mem_filter.mp hmem
    obtain ⟨block, hblock, hof⟩ := Results.exists_of_mem_mapM hranges hrange
    exact ⟨block, hblock, start, stop, hof, of_decide_eq_true hin⟩
  · rintro ⟨block, hblock, start, stop, hof, hin⟩
    obtain ⟨range, hrange, hof'⟩ := Results.mapM_ok_of_mem hranges hblock
    rw [hof] at hof'
    cases hof'
    exact ⟨_, List.mem_filter.mpr ⟨hrange, decide_eq_true hin⟩, rfl⟩

/-- What is saved after a node is what was, and what an opening marker saves. -/
theorem saves_some {c : Config} {node : Node} {j : ℕ} {t : Shape} (h : c.saves node j = some t) :
    (j = c.index ∧ t = c.shape) ∨ c.saved j = some t := by
  unfold Config.saves at h
  cases hside : bracketSide node with
  | none =>
    rw [hside] at h
    exact .inr h
  | some side =>
    rw [hside] at h
    cases side with
    | closes => exact .inr h
    | opens =>
      dsimp only at h
      rw [Function.update_apply] at h
      split_ifs at h with heq
      · exact .inl ⟨heq, (Option.some.inj h).symm⟩
      · exact .inr h

/-- Where every node known has been visited, every path produces the shapes known. -/
theorem known_along (hranges : method.tryCatchBlocks.mapM (rangeOf method) = .ok ranges)
    (hentry : 0 < method.nodes.length → known 0 = some [])
    (hvisited : ∀ j t, known j = some t → Visited method ranges known j t) {c : Config} (h : Along method c) :
    (c.index < method.nodes.length → known c.index = some c.shape) ∧ ∀ j t, c.saved j = some t → known j = some t := by
  induction h with
  | refl => exact ⟨hentry, fun j t hj => by cases hj⟩
  | tail _ hgoes ih =>
    obtain ⟨hshape, hsaved⟩ := ih
    cases hgoes with
    | throws hc hblock hrange hin hd =>
      subst hd
      exact ⟨(hvisited _ _ (hshape hc)).handlers _ ((mem_handlersAt hranges).mpr ⟨_, hblock, _, _, hrange, hin⟩),
        hsaved⟩
    | @passes node after place hnode hafter hplace hd =>
      subst hd
      have hc := (List.getElem?_eq_some_iff.mp hnode).1
      obtain ⟨after', hafter', hplaces⟩ := (hvisited _ _ (hshape hc)).passes node hnode
      rw [shapeAfter_mono hsaved hafter] at hafter'
      cases hafter'
      refine ⟨hplaces place hplace, ?_⟩
      intro j t hj
      obtain ⟨rfl, rfl⟩ | hj := saves_some hj
      · exact hshape hc
      · exact hsaved j t hj

end Sound

section Complete

variable {method : MethodNode} {ranges : List (ℕ × ℕ × ℕ)} {state state' : Shaping} {index : ℕ} {shape : Shape}

/-- Some path through nodes already known comes to the node with the shape known there. -/
def Reached (method : MethodNode) (state : Shaping) (index : ℕ) (shape : Shape) : Prop :=
  ∃ c, Along method c ∧ c.index = index ∧ c.shape = shape ∧ ∀ j t, c.saved j = some t → state.known j = some t

theorem Reached.mono (hgrows : ∀ j t, state.known j = some t → state'.known j = some t)
    (h : Reached method state index shape) : Reached method state' index shape := by
  obtain ⟨c, hc, hindex, hshape, hsaved⟩ := h
  exact ⟨c, hc, hindex, hshape, fun j t hj => hgrows j t (hsaved j t hj)⟩

/-- Places that paths come to with one shape can be entered in a balanced body, and what is known then is
reached. -/
theorem Balanced.enterAll (h : Balanced method) {places : List ℕ} (hlength : state.shapes.length = method.nodes.length)
    (hreached : ∀ j t, state.known j = some t → Reached method state j t)
    (hplaces : ∀ place ∈ places, Reached method state place shape) :
    ∃ state', enterAll method shape state (places.map .ok) = .ok state' ∧ Enters places shape state state' ∧
      ∀ j t, state'.known j = some t → Reached method state' j t := by
  have hsame : ∀ place ∈ places, place < method.nodes.length → ∀ t, state.known place = some t → t = shape := by
    intro place hplace hlt t ht
    obtain ⟨c, hc, hindex, hshape, -⟩ := hplaces place hplace
    obtain ⟨d, hd, hindex', hshape', -⟩ := hreached place t ht
    rw [← hshape, ← hshape']
    exact h.agree d c hd hc (hindex' ▸ hlt) (hindex'.trans hindex.symm)
  obtain ⟨state', hstate'⟩ := exists_enterAll hlength hsame
  obtain ⟨places', heq, henters⟩ := enters_of_enterAll hlength hstate'
  obtain rfl : places = places' := List.map_injective_iff.mpr (fun _ _ h => Except.ok.inj h) heq
  refine ⟨state', hstate', henters, ?_⟩
  intro j t hj
  obtain hj | ⟨hmem, rfl, -⟩ := henters.fresh j t hj
  · exact (hreached j t hj).mono henters.grows
  · exact (hplaces j hmem).mono henters.grows

theorem exists_map_ok {α ε : Type} {places : List (Except ε α)} (h : ∀ place ∈ places, ∃ a, place = .ok a) :
    ∃ as : List α, places = as.map .ok := by
  induction places with
  | nil => exact ⟨[], rfl⟩
  | cons place places ih =>
    obtain ⟨⟨a, rfl⟩, hrest⟩ := List.forall_mem_cons.mp h
    obtain ⟨as, rfl⟩ := ih hrest
    exact ⟨a :: as, rfl⟩

theorem known_lt (h : state.known index = some shape) : index < state.shapes.length := by
  by_contra hout
  rw [Shaping.known, List.getElem?_eq_none (not_lt.mp hout)] at h
  cases h

/-- A visit succeeds in a balanced body, and what is known after it is reached. -/
theorem Balanced.visit (h : Balanced method) (hranges : method.tryCatchBlocks.mapM (rangeOf method) = .ok ranges)
    (hlength : state.shapes.length = method.nodes.length) (hknown : state.known index = some shape)
    (hreached : ∀ j t, state.known j = some t → Reached method state j t) :
    ∃ state', StackShape.visit method ranges state index = .ok state' ∧
      ∀ j t, state'.known j = some t → Reached method state' j t := by
  obtain ⟨c, hc, rfl, rfl, hsaved⟩ := hreached index shape hknown
  have hlt : c.index < method.nodes.length := hlength ▸ known_lt hknown
  obtain ⟨handlers, hhandlers⟩ : ∃ handlers : List ℕ, handlersAt ranges c.index = handlers.map .ok :=
    ⟨_, (List.map_map ..).symm⟩
  have hthrows : ∀ handler ∈ handlers, Reached method state handler [.reference] := by
    intro handler hmem
    have hat : .ok handler ∈ handlersAt ranges c.index := hhandlers ▸ List.mem_map_of_mem hmem
    obtain ⟨block, hblock, start, stop, hrange, hin⟩ := (mem_handlersAt hranges).mp hat
    exact ⟨_, hc.tail (.throws hlt hblock hrange hin rfl), rfl, rfl, hsaved⟩
  obtain ⟨between, hbetween, henters, hreached⟩ := h.enterAll hlength hreached hthrows
  have hnode : method.nodes[c.index]? = some (method.nodes[c.index]) := List.getElem?_eq_getElem hlt
  generalize method.nodes[c.index] = node at hnode
  obtain ⟨⟨after, hafter⟩, hplaces⟩ := h.follows c node hc hnode
  obtain ⟨places, hplaces⟩ := exists_map_ok hplaces
  have hsaved' : ∀ j t, c.saved j = some t → between.known j = some t := fun j t hj => henters.grows j t (hsaved j t hj)
  have hpasses : ∀ place ∈ places, Reached method between place after := by
    intro place hmem
    have hat : .ok place ∈ placesOf method c.index node := hplaces ▸ List.mem_map_of_mem hmem
    refine ⟨_, hc.tail (.passes hnode hafter hat rfl), rfl, rfl, ?_⟩
    intro j t hj
    obtain ⟨rfl, rfl⟩ | hj := saves_some hj
    · exact henters.grows _ _ hknown
    · exact hsaved' j t hj
  obtain ⟨state', hstate', -, hreached⟩ := h.enterAll (henters.length.trans hlength) hreached hpasses
  refine ⟨state', ?_, hreached⟩
  unfold StackShape.visit
  rw [hhandlers, hbetween, hnode, hknown]
  change (shapeAfter method c.index node c.shape between.known >>= _) = _
  rw [shapeAfter_mono hsaved' hafter, hplaces]
  change (StackShape.enterAll method after between (places.map .ok)).mapError some = _
  rw [hstate']
  rfl

/-- With fuel for every node still to be visited, a run through a balanced body answers. -/
theorem Balanced.shapeFrom (h : Balanced method) (hranges : method.tryCatchBlocks.mapM (rangeOf method) = .ok ranges)
    (hrun : Running method ranges state) (hreached : ∀ j t, state.known j = some t → Reached method state j t)
    {fuel : ℕ} (hfuel : state.shapes.countP Option.isNone + state.work.length ≤ fuel) :
    ∃ shapes, StackShape.shapeFrom method ranges fuel state = some (.ok shapes) ∧
      ∀ j t, shapes[j]?.join = some t → ∃ c, Along method c ∧ c.index = j ∧ c.shape = t := by
  have hfound : ∀ j t, state.known j = some t → ∃ c, Along method c ∧ c.index = j ∧ c.shape = t := by
    intro j t hj
    obtain ⟨c, hc, hindex, hshape, -⟩ := hreached j t hj
    exact ⟨c, hc, hindex, hshape⟩
  induction fuel generalizing state with
  | zero =>
    obtain ⟨shapes, work⟩ := state
    cases work with
    | nil => exact ⟨shapes, rfl, hfound⟩
    | cons index work =>
      rw [List.length_cons] at hfuel
      omega
  | succ fuel ih =>
    obtain ⟨shapes, work⟩ := state
    cases work with
    | nil => exact ⟨shapes, rfl, hfound⟩
    | cons index work =>
      obtain ⟨shape, hknown⟩ := hrun.work index List.mem_cons_self
      obtain ⟨state', hvisit, hreached'⟩ : ∃ state', StackShape.visit method ranges ⟨shapes, work⟩ index = .ok state' ∧
          ∀ j t, state'.known j = some t → Reached method state' j t :=
        h.visit hranges hrun.length hknown hreached
      obtain ⟨hrun', -, hleft⟩ := hrun.visit hvisit
      dsimp only at hfuel
      rw [List.length_cons] at hfuel
      obtain ⟨final, hfinal, hrest⟩ := ih hrun' hreached' (by omega) (by
        intro j t hj
        obtain ⟨c, hc, hindex, hshape, -⟩ := hreached' j t hj
        exact ⟨c, hc, hindex, hshape⟩)
      refine ⟨final, ?_, hrest⟩
      rw [StackShape.shapeFrom, hvisit]
      exact hfinal

end Complete

section Start

variable {method : MethodNode} {ranges : List (ℕ × ℕ × ℕ)} {state : Shaping}

/-- Where a run starts: the first node, if there is one, is known to have an empty stack. -/
theorem start_spec (h : enter method ⟨List.replicate method.nodes.length none, []⟩ 0 [] = .ok state) :
    Running method ranges state ∧ (0 < method.nodes.length → state.known 0 = some []) ∧
      (∀ j t, state.known j = some t → Reached method state j t) ∧
      state.shapes.countP Option.isNone + state.work.length = method.nodes.length := by
  have hempty : ∀ j : ℕ, (⟨List.replicate method.nodes.length none, []⟩ : Shaping).known j = none := by
    intro j
    rw [Shaping.known, List.getElem?_replicate]
    split_ifs <;> rfl
  have henters := enters_of_enter List.length_replicate h
  have hfresh : ∀ j t, state.known j = some t → j = 0 ∧ t = [] ∧ j ∈ state.work := by
    intro j t hj
    obtain hj | ⟨hmem, rfl, hwork⟩ := henters.fresh j t hj
    · rw [hempty] at hj
      cases hj
    · exact ⟨List.mem_singleton.mp hmem, rfl, hwork⟩
  refine ⟨⟨henters.length.trans List.length_replicate, ?_, ?_⟩, ?_, ?_, ?_⟩
  · intro j hj
    exact (henters.work j hj).resolve_left List.not_mem_nil
  · exact fun j t hj => .inl (hfresh j t hj).2.2
  · intro hpos
    exact henters.recorded 0 (List.mem_singleton_self 0) (by simpa using hpos)
  · intro j t hj
    obtain ⟨rfl, rfl, -⟩ := hfresh j t hj
    exact ⟨_, .refl, rfl, rfl, fun _ _ h => by cases h⟩
  · rw [henters.left, List.countP_replicate]
    rfl

end Start

theorem getElem?_of_join {index : ℕ} {shape : Shape}
    (h : shapes[index]?.join = some shape) : shapes[index]? = some (some shape) := by
  cases hat : shapes[index]? with
  | none =>
    rw [hat] at h
    cases h
  | some known =>
    rw [hat] at h
    rw [← h]
    rfl

/-- Stack shapes are sound. An instruction that leaves a stack has a word delta, by which the stack differs
just when the values popped have the words popped. When the shapes of a body are found, every path through it
produces them, and in a balanced body they are found, each node on a path having one and no other node. -/
theorem stackShapes_sound :
    (∀ (insn : Insn LabelId) (index : ℕ) (shape shape' : Shape), transfer index insn shape = .ok shape' →
      ∃ delta, wordDelta insn = some (some delta) ∧
        ((words shape' : ℤ) = words shape + delta ↔ PopsFit insn shape)) ∧
    (∀ method shapes, stackShapes method = some (.ok shapes) → shapes.length = method.nodes.length ∧
      ∀ c, Along method c → c.index < method.nodes.length → shapes[c.index]? = some (some c.shape)) ∧
    (∀ method, Balanced method → ∃ shapes, stackShapes method = some (.ok shapes) ∧
      ∀ index, index < method.nodes.length → ∀ shape,
        shapes[index]? = some (some shape) ↔ ∃ c, Along method c ∧ c.index = index ∧ c.shape = shape) := by
  refine ⟨fun insn index shape shape' h => words_transfer h, ?_, ?_⟩
  · intro method shapes h
    unfold stackShapes at h
    cases hranges : method.tryCatchBlocks.mapM (rangeOf method) with
    | error e =>
      rw [hranges] at h
      cases h
    | ok ranges =>
      cases hstart : enter method ⟨List.replicate method.nodes.length none, []⟩ 0 [] with
      | error e =>
        rw [hranges, hstart] at h
        cases h
      | ok state =>
        rw [hranges, hstart] at h
        obtain ⟨hrun, hentry, -, -⟩ := start_spec hstart
        obtain ⟨hlength, hknown, hvisited⟩ := hrun.shapeFrom h
        refine ⟨hlength, ?_⟩
        intro c hc hlt
        have hshape := (known_along hranges (fun hpos => hknown 0 _ (hentry hpos)) hvisited hc).1 hlt
        exact getElem?_of_join hshape
  · intro method h
    obtain ⟨ranges, hranges⟩ := Results.exists_mapM_ok h.ranges
    obtain ⟨state, hstart⟩ : ∃ state, enter method ⟨List.replicate method.nodes.length none, []⟩ 0 [] = .ok state := by
      unfold enter
      split_ifs with hempty
      · exact ⟨_, rfl⟩
      · have hknown : (⟨List.replicate method.nodes.length none, []⟩ : Shaping).known 0 = none := by
          rw [Shaping.known, List.getElem?_replicate]
          split_ifs <;> rfl
        rw [hknown]
        exact ⟨_, rfl⟩
    obtain ⟨hrun, hentry, hreached, hleft⟩ := start_spec hstart
    obtain ⟨shapes, hshapes, hfound⟩ := h.shapeFrom hranges hrun hreached hleft.le
    refine ⟨shapes, ?_, ?_⟩
    · unfold stackShapes
      rw [hranges, hstart]
      exact hshapes
    · obtain ⟨hlength, hknown, hvisited⟩ := hrun.shapeFrom hshapes
      intro index hlt shape
      constructor
      · intro hshape
        exact hfound index shape (by rw [hshape]; rfl)
      · rintro ⟨c, hc, rfl, rfl⟩
        exact getElem?_of_join ((known_along hranges (fun hpos => hknown 0 _ (hentry hpos)) hvisited hc).1 hlt)

/-- A body that returns the long zero. -/
def returnsZero : MethodNode where
  access := 8
  name := "f"
  desc := "()J"
  nodes := [.insn (.op lconst0), .insn (.op 0xad)]
  tryCatchBlocks := []
  localVariables := []
  maxStack := 2
  maxLocals := 0
  labelCount := 0

theorem stackShapes_sound_returnsZero :
    Along returnsZero ⟨1, [.long], fun _ => none⟩ ∧ Balanced returnsZero ∧
      ∃ shapes, stackShapes returnsZero = some (.ok shapes) ∧ shapes[1]? = some (some [.long]) := by
  have hgoes : Goes returnsZero ⟨0, [], fun _ => none⟩ ⟨1, [.long], fun _ => none⟩ :=
    .passes rfl rfl (List.mem_singleton_self _) rfl
  have hall : ∀ c, Along returnsZero c → c = ⟨0, [], fun _ => none⟩ ∨ c = ⟨1, [.long], fun _ => none⟩ := by
    intro c hc
    induction hc with
    | refl => exact .inl rfl
    | tail _ hstep ih =>
      obtain rfl | rfl := ih
      · cases hstep with
        | throws _ hblock => cases hblock
        | passes hnode hshape hplace hd =>
          cases hnode
          cases hshape
          cases List.mem_singleton.mp hplace
          exact .inr hd
      · cases hstep with
        | throws _ hblock => cases hblock
        | passes hnode _ hplace _ =>
          cases hnode
          cases hplace
  have hbalanced : Balanced returnsZero := by
    constructor
    case ranges => exact fun _ hblock => by cases hblock
    case follows =>
      intro c node hc hnode
      obtain rfl | rfl := hall c hc
      · cases hnode
        exact ⟨⟨_, rfl⟩, fun place hplace => ⟨1, List.mem_singleton.mp hplace⟩⟩
      · cases hnode
        exact ⟨⟨_, rfl⟩, fun place hplace => by cases hplace⟩
    case agree =>
      intro c d hc hd _ heq
      obtain rfl | rfl := hall c hc <;> obtain rfl | rfl := hall d hd <;> first | rfl | cases heq
  have halong : Along returnsZero ⟨1, [.long], fun _ => none⟩ := .single hgoes
  obtain ⟨shapes, hshapes, hiff⟩ := stackShapes_sound.2.2 returnsZero hbalanced
  exact ⟨halong, hbalanced, shapes, hshapes, (hiff 1 (by decide) _).mpr ⟨_, halong, rfl, rfl⟩⟩

/-- A store of an int takes a long off the stack whole, as its table entry does not say. -/
theorem not_word_law : ¬ ∀ (insn : Insn LabelId) (index : ℕ) (shape shape' : Shape) (delta : ℤ),
    transfer index insn shape = .ok shape' → wordDelta insn = some (some delta) →
      (words shape' : ℤ) = words shape + delta := by
  intro h
  have hlaw := h (.var istore 0) 0 [.long] [] (-1) (by decide) (by decide)
  exact absurd hlaw (by decide)

end Krusty.Jvm.StackShape
