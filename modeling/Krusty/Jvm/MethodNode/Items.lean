import Krusty.Jvm.MethodNode.Emit

/-! From a node list to its items, and from the items to the place of every node in the code. -/
namespace Krusty.Jvm
open Bytes Results

/-- The items of a node list: its labels, and an encoding in relation `R` to each instruction. -/
inductive ItemsFor (R : Insn LabelId → Encoded → Prop) : List Node → List Item → Prop
  | nil : ItemsFor R [] []
  | label {nodes : List Node} {items : List Item} (l : LabelId) :
    ItemsFor R nodes items → ItemsFor R (.label l :: nodes) (.label l :: items)
  | line {nodes : List Node} {items : List Item} (n : UInt16) (l : LabelId) :
    ItemsFor R nodes items → ItemsFor R (.line n l :: nodes) items
  | insn {nodes : List Node} {items : List Item} {insn : Insn LabelId} {encoded : Encoded} :
    R insn encoded → ItemsFor R nodes items →
      ItemsFor R (.insn insn :: nodes) (.code encoded :: items)

/-- The pool operands of the instructions, in node order. -/
def nodeRequests (nodes : List Node) : List Request :=
  nodes.filterMap fun
    | .insn insn => insn.request
    | _ => none

/-- Everything a body asks the pool for, in the order it asks. -/
def MethodNode.requests (method : MethodNode) : List Request :=
  (method.tryCatchBlocks.filterMap fun block => block.catchType.map .cls) ++
    nodeRequests method.nodes

/-- The pool resolves what `sink` answered for each of the requests. -/
def ConstantSink.Resolves {σ : Type} (sink : ConstantSink σ) (pool : ConstantPoolView)
    (requests : List Request) (s : σ) : Prop :=
  ∀ answer ∈ sink.answers requests s, answer.1.Resolved pool answer.2

def ConstantSink.stateAfter {σ : Type} (sink : ConstantSink σ) (requests : List Request) (s : σ) :
    σ :=
  requests.foldl (fun s r => (sink.answer s r).2) s

variable {items : List Item}

section Items

variable {σ : Type} {sink : ConstantSink σ} {pool : ConstantPoolView} {s s' : σ}

theorem ConstantSink.resolves_append {rs rs' : List Request} :
    sink.Resolves pool (rs ++ rs') s ↔
      sink.Resolves pool rs s ∧ sink.Resolves pool rs' (sink.stateAfter rs s) := by
  induction rs generalizing s with
  | nil => simp [Resolves, answers, stateAfter]
  | cons r rs ih =>
    have hcons : ∀ rs, sink.Resolves pool (r :: rs) s ↔
        r.Resolved pool (sink.answer s r).1 ∧ sink.Resolves pool rs (sink.answer s r).2 := by
      intro rs
      simp [Resolves, answers]
    rw [List.cons_append, hcons, hcons, ih, and_assoc]
    rfl

variable {nodes : List Node}

theorem encodeNodes_encodes (h : encodeNodes sink nodes s = .ok (items, s')) :
    ItemsFor (fun insn encoded => encoded.Encodes insn) nodes items := by
  induction nodes generalizing s s' items with
  | nil =>
    obtain ⟨rfl, -⟩ := Prod.mk.inj (Except.ok.inj h)
    exact .nil
  | cons node nodes ih =>
    cases node with
    | label l =>
      obtain ⟨⟨rest, t⟩, hrest, h⟩ := bind_ok h
      obtain ⟨rfl, -⟩ := Prod.mk.inj (Except.ok.inj h)
      exact .label l (ih hrest)
    | line n l => exact .line n l (ih h)
    | insn insn =>
      obtain ⟨⟨encoded, t⟩, he, h⟩ := bind_ok h
      obtain ⟨⟨rest, u⟩, hrest, h⟩ := bind_ok h
      obtain ⟨rfl, -⟩ := Prod.mk.inj (Except.ok.inj h)
      exact .insn (encode_encodes he) (ih hrest)

/-- A body of well-formed instructions whose operands resolve is encoded so that each of them
reads back. -/
theorem encodeNodes_readsBack (h : encodeNodes sink nodes s = .ok (items, s'))
    (hwf : ∀ insn, Node.insn insn ∈ nodes → insn.WellFormed)
    (hr : sink.Resolves pool (nodeRequests nodes) s) :
    ItemsFor (fun insn encoded => encoded.Encodes insn ∧ encoded.ReadsBack pool insn)
      nodes items := by
  induction nodes generalizing s s' items with
  | nil =>
    obtain ⟨rfl, -⟩ := Prod.mk.inj (Except.ok.inj h)
    exact .nil
  | cons node nodes ih =>
    have hwf' : ∀ insn, Node.insn insn ∈ nodes → insn.WellFormed :=
      fun insn hm => hwf insn (List.mem_cons_of_mem _ hm)
    cases node with
    | label l =>
      obtain ⟨⟨rest, t⟩, hrest, h⟩ := bind_ok h
      obtain ⟨rfl, -⟩ := Prod.mk.inj (Except.ok.inj h)
      exact .label l (ih hrest hwf' hr)
    | line n l => exact .line n l (ih h hwf' hr)
    | insn insn =>
      obtain ⟨⟨encoded, t⟩, he, h⟩ := bind_ok h
      obtain ⟨⟨rest, u⟩, hrest, h⟩ := bind_ok h
      obtain ⟨rfl, -⟩ := Prod.mk.inj (Except.ok.inj h)
      have ht : t = sink.stateAfter insn.request.toList s := by
        rw [encode_state he]
        cases insn.request <;> rfl
      have hsplit : nodeRequests (.insn insn :: nodes) =
          insn.request.toList ++ nodeRequests nodes := by
        cases hreq : insn.request <;> simp [nodeRequests, hreq]
      rw [hsplit, ConstantSink.resolves_append, ← ht] at hr
      have hread : ∀ r ∈ insn.request, r.Resolved pool (sink.answer s r).1 := by
        intro r hmem
        refine hr.1 (r, _) ?_
        rw [Option.mem_def.mp hmem]
        simp [ConstantSink.answers]
      exact .insn ⟨encode_encodes he, encode_readsBack he (hwf insn (List.mem_cons_self ..)) hread⟩
        (ih hrest hwf' hr.2)

/-- Widening jumps does not change what an item list is of. -/
theorem ItemsFor.widened {R : Insn LabelId → Encoded → Prop}
    (hR : ∀ insn op target wide, R insn (.jump op target false) → R insn (.jump op target wide))
    (hR' : ∀ insn op target wide, R insn (.jump op target wide) → R insn (.jump op target false)) {items items' : List Item} (h : ItemsFor R nodes items)
    (hw : items'.map Item.narrowed = items.map Item.narrowed) : ItemsFor R nodes items' := by
  induction h generalizing items' with
  | nil =>
    obtain rfl : items' = [] := by simpa using hw
    exact .nil
  | label l _ ih =>
    obtain ⟨item, rest, rfl, hi, hrest⟩ := List.map_eq_cons_iff.mp hw
    have hi : item = .label l := by
      rcases item with l' | (_ | _ | _ | _) <;> simp_all [Item.narrowed]
    subst hi
    exact .label l (ih hrest)
  | line n l _ ih => exact .line n l (ih hw)
  | insn hr _ ih =>
    obtain ⟨item, rest, rfl, hi, hrest⟩ := List.map_eq_cons_iff.mp hw
    rename_i encoded _
    have hcase : item = .code encoded ∨ ∃ op target w w', item = .code (.jump op target w') ∧
        encoded = .jump op target w := by
      rcases item with l' | (_ | _ | _ | _) <;> rcases encoded with _ | _ | _ | _ <;>
        simp_all [Item.narrowed]
    rcases hcase with rfl | ⟨op, target, w, w', rfl, rfl⟩
    · exact .insn hr (ih hrest)
    · exact .insn (hR _ _ _ _ (hR' _ _ _ _ hr)) (ih hrest)

end Items

/-- A node with the offset the layout gives it, and whether it is a widened jump. -/
structure Placed where
  node : Node
  pos : ℕ
  wide : Bool

def Item.isWide : Item → Bool
  | .code (.jump _ _ wide) => wide
  | _ => false

/-- The nodes at their offsets, laid out from `pos`. Line numbers take no item of their own. -/
def place : List Node → List Item → ℕ → List Placed
  | .line n l :: nodes, items, pos => ⟨.line n l, pos, false⟩ :: place nodes items pos
  | .label l :: nodes, item :: items, pos =>
    ⟨.label l, pos, false⟩ :: place nodes items (pos + item.sizeAt pos)
  | .insn insn :: nodes, item :: items, pos =>
    ⟨.insn insn, pos, item.isWide⟩ :: place nodes items (pos + item.sizeAt pos)
  | _, _, _ => []

namespace Placed

/-- Whether the node is an item of the layout. -/
def isItem (p : Placed) : Bool :=
  match p.node with
  | .line _ _ => false
  | _ => true

/-- The instructions the node reads back as. -/
def decoded (offset : LabelId → ℤ) (p : Placed) : List (ℕ × Insn ℤ) :=
  match p.node with
  | .insn (.jump op target) => (Encoded.jump op target p.wide).decoded offset p.pos (.jump op target)
  | .insn insn => [(p.pos, insn.map offset)]
  | _ => []

end Placed

variable {insn : Insn LabelId} {encoded : Encoded}

theorem decoded_eq (h : encoded.Encodes insn) (offset : LabelId → ℤ) (pos : ℕ) :
    Placed.decoded offset ⟨.insn insn, pos, (Item.code encoded).isWide⟩ =
      encoded.decoded offset pos insn := by
  cases encoded with
  | fixed bytes =>
    cases insn with
    | jump op target => simp [Encoded.Encodes, Insn.jumpTargets] at h
    | _ => rfl
  | jump op target wide =>
    obtain ⟨rfl, -⟩ := h
    rfl
  | tableSwitch low high d ls =>
    obtain ⟨rfl, -⟩ := h
    rfl
  | lookupSwitch d ks ls =>
    obtain ⟨rfl, -⟩ := h
    rfl

def endFrom : List Item → ℕ → ℕ
  | [], pos => pos
  | item :: items, pos => endFrom items (pos + item.sizeAt pos)

theorem getLastD_offsetsFrom (items : List Item) (pos d : ℕ) :
    (offsetsFrom items pos).getLastD d = endFrom items pos := by
  induction items generalizing pos d with
  | nil => rfl
  | cons item items ih => rw [offsetsFrom, List.getLastD_cons, ih, endFrom]

theorem le_endFrom (items : List Item) (pos : ℕ) : pos ≤ endFrom items pos := by
  induction items generalizing pos with
  | nil => exact le_refl pos
  | cons item items ih =>
    have := ih (pos + item.sizeAt pos)
    rw [endFrom]
    omega

theorem le_endFrom_of_mem {pos o : ℕ} (h : o ∈ offsetsFrom items pos) : o ≤ endFrom items pos := by
  induction items generalizing pos with
  | nil =>
    obtain rfl := List.mem_singleton.mp h
    exact le_refl o
  | cons item items ih =>
    rcases List.mem_cons.mp h with rfl | h
    · exact le_endFrom _ _
    · exact ih h

section Placing

variable {R : Insn LabelId → Encoded → Prop} {nodes : List Node} {items : List Item}

theorem place_nodes (h : ItemsFor R nodes items) (pos : ℕ) :
    (place nodes items pos).map Placed.node = nodes := by
  induction h generalizing pos with
  | nil => rfl
  | label l _ ih => simp [place, ih]
  | line n l _ ih => simp [place, ih]
  | insn _ _ ih => simp [place, ih]

theorem place_offsets (h : ItemsFor R nodes items) (pos : ℕ) :
    ((place nodes items pos).filter Placed.isItem).map Placed.pos ++ [endFrom items pos] =
      offsetsFrom items pos := by
  induction h generalizing pos with
  | nil => rfl
  | label l _ ih => exact congrArg (List.cons pos) (ih _)
  | line n l _ ih => simpa [place, Placed.isItem] using ih pos
  | insn _ _ ih => exact congrArg (List.cons pos) (ih _)

/-- The labels of the layout are those of the items, at their offsets. -/
theorem mem_place_label (h : ItemsFor R nodes items) (pos : ℕ) (l : LabelId) (o : ℕ) :
    (∃ p ∈ place nodes items pos, p.node = .label l ∧ p.pos = o) ↔
      (Item.label l, o) ∈ items.zip (offsetsFrom items pos) := by
  induction h generalizing pos with
  | nil => simp [place]
  | label l' _ ih =>
    simp only [place, List.mem_cons, exists_eq_or_imp, ih, offsetsFrom, List.zip_cons_cons,
      Prod.mk.injEq, Node.label.injEq, Item.label.injEq]
    rw [eq_comm, @eq_comm _ pos]
  | line n l' _ ih => simpa [place] using ih pos
  | insn _ _ ih => simpa [place, offsetsFrom] using ih _

/-- What follows a node starts where the node's code ends. -/
theorem place_next (h : ItemsFor R nodes items) {pos : ℕ} {front back : List Placed} {p : Placed}
    (hl : place nodes items pos = front ++ p :: back)
    (hp : p.node = .insn insn) :
    ∃ encoded, R insn encoded ∧ p.wide = (Item.code encoded).isWide ∧
      (Item.code encoded, p.pos) ∈ items.zip (offsetsFrom items pos) ∧
      (back.head?.map Placed.pos).getD (endFrom items pos) = p.pos + encoded.sizeAt p.pos := by
  have hhead : ∀ {nodes items} (pos : ℕ), ItemsFor R nodes items →
      ((place nodes items pos).head?.map Placed.pos).getD (endFrom items pos) = pos := by
    intro nodes items pos h
    cases h <;> simp [place, endFrom]
  induction h generalizing pos front with
  | nil => simp [place] at hl
  | label l _ ih =>
    cases front with
    | nil =>
      obtain ⟨rfl, -⟩ := List.cons.inj hl
      cases hp
    | cons q front =>
      obtain ⟨encoded, hr, hw, hm, hn⟩ := ih (List.cons.inj hl).2
      exact ⟨encoded, hr, hw, List.mem_cons_of_mem _ hm, hn⟩
  | line n l _ ih =>
    cases front with
    | nil =>
      obtain ⟨rfl, -⟩ := List.cons.inj hl
      cases hp
    | cons q front => exact ih (List.cons.inj hl).2
  | insn hr hrest ih =>
    cases front with
    | nil =>
      obtain ⟨rfl, rfl⟩ := List.cons.inj hl
      obtain rfl := Node.insn.inj hp
      exact ⟨_, hr, rfl, List.mem_cons_self .., hhead _ hrest⟩
    | cons q front =>
      obtain ⟨encoded, hr, hw, hm, hn⟩ := ih (List.cons.inj hl).2
      exact ⟨encoded, hr, hw, List.mem_cons_of_mem _ hm, hn⟩

theorem ItemsFor.mono {R' : Insn LabelId → Encoded → Prop} (hR : ∀ insn encoded, R insn encoded →
    R' insn encoded) (h : ItemsFor R nodes items) : ItemsFor R' nodes items := by
  induction h with
  | nil => exact .nil
  | label l _ ih => exact .label l ih
  | line n l _ ih => exact .line n l ih
  | insn hr _ ih => exact .insn (hR _ _ hr) ih

theorem ItemsFor.length_le (h : ItemsFor R nodes items) : items.length ≤ nodes.length := by
  induction h with
  | nil => exact le_refl _
  | label l _ ih => simpa using ih
  | line n l _ ih => exact Nat.le_succ_of_le ih
  | insn _ _ ih => simpa using ih

/-- Every instruction of the list has its item. -/
theorem ItemsFor.exists_item (h : ItemsFor R nodes items)
    (hm : Node.insn insn ∈ nodes) : ∃ encoded, R insn encoded ∧ Item.code encoded ∈ items := by
  induction h with
  | nil => cases hm
  | label l _ ih =>
    obtain ⟨encoded, hr, hi⟩ := ih (by simpa using hm)
    exact ⟨encoded, hr, List.mem_cons_of_mem _ hi⟩
  | line n l _ ih => exact ih (by simpa using hm)
  | insn hr _ ih =>
    rcases List.mem_cons.mp hm with heq | hm
    · obtain rfl := Node.insn.inj heq
      exact ⟨_, hr, List.mem_cons_self ..⟩
    · obtain ⟨encoded, hr, hi⟩ := ih hm
      exact ⟨encoded, hr, List.mem_cons_of_mem _ hi⟩

end Placing

variable {placed : List (Item × ℕ)} {l : LabelId}

section Labels

/-- The labels an item list places, in order. -/
def labelsOf (items : List Item) : List LabelId :=
  items.filterMap fun
    | .label l => some l
    | .code _ => none

theorem checkPlacements_ok {labelCount : ℕ} {placed : List LabelId}
    (h : checkPlacements labelCount items placed = .ok ()) :
    (labelsOf items).Nodup ∧ ∀ l ∈ labelsOf items, l.index < labelCount ∧ l ∉ placed := by
  induction items generalizing placed with
  | nil => simp [labelsOf]
  | cons item items ih =>
    cases item with
    | code encoded => exact ih h
    | label l =>
      simp only [checkPlacements] at h
      split_ifs at h with hlt hmem
      obtain ⟨hnodup, hall⟩ := ih h
      change (l :: labelsOf items).Nodup ∧ ∀ l' ∈ l :: labelsOf items, _
      refine ⟨List.nodup_cons.mpr ⟨fun hl => ?_, hnodup⟩, ?_⟩
      · exact (hall l hl).2 (List.mem_cons_self ..)
      · intro l' hl'
        rcases List.mem_cons.mp hl' with rfl | hl'
        · exact ⟨by omega, hmem⟩
        · obtain ⟨hlt', hn⟩ := hall l' hl'
          exact ⟨hlt', fun hp => hn (List.mem_cons_of_mem _ hp)⟩

theorem labelsOf_narrowed (items : List Item) :
    labelsOf (items.map Item.narrowed) = labelsOf items := by
  induction items with
  | nil => rfl
  | cons item items ih =>
    rcases item with l | (_ | _ | _ | _) <;> simpa [labelsOf, Item.narrowed] using ih

variable {table : List (Option ℕ)}

/-- An entry of the label table is an entry it had, or a label placed since. -/
theorem placeLabel_fold_mem {o : ℕ} (h : (placed.foldl placeLabel table)[l.index]? = some (some o)) :
    table[l.index]? = some (some o) ∨ (Item.label l, o) ∈ placed := by
  induction placed generalizing table with
  | nil => exact .inl h
  | cons head placed ih =>
    rcases ih h with ht | hm
    · rcases head with ⟨l' | e, o'⟩
      · rw [placeLabel, List.getElem?_set] at ht
        split_ifs at ht with heq hlt
        · obtain rfl := Option.some.inj (Option.some.inj ht)
          obtain rfl : l' = l := LabelId.ext heq
          exact .inr (List.mem_cons_self ..)
        · exact .inl ht
      · exact .inl ht
    · exact .inr (List.mem_cons_of_mem _ hm)

theorem placeLabel_fold_keep (h : l ∉ labelsOf (placed.map Prod.fst)) :
    (placed.foldl placeLabel table)[l.index]? = table[l.index]? := by
  induction placed generalizing table with
  | nil => rfl
  | cons head placed ih =>
    rcases head with ⟨l' | e, o⟩
    · have h : l ∉ l' :: labelsOf (placed.map Prod.fst) := h
      obtain ⟨hne, h⟩ := not_or.mp (mt List.mem_cons.mpr h)
      have hne : l'.index ≠ l.index := fun heq => hne (LabelId.ext heq.symm)
      rw [List.foldl_cons, ih h, placeLabel, List.getElem?_set_ne hne]
    · exact ih h

theorem placeLabel_fold_get {o : ℕ} (hn : (labelsOf (placed.map Prod.fst)).Nodup) (hlt : l.index < table.length)
    (hm : (Item.label l, o) ∈ placed) :
    (placed.foldl placeLabel table)[l.index]? = some (some o) := by
  induction placed generalizing table with
  | nil => cases hm
  | cons head placed ih =>
    rcases head with ⟨l' | e, o'⟩
    · obtain ⟨hl', hn⟩ := List.nodup_cons.mp (show (l' :: labelsOf (placed.map Prod.fst)).Nodup from hn)
      rcases List.mem_cons.mp hm with heq | hm
      · obtain ⟨hl, rfl⟩ := Prod.mk.inj heq
        obtain rfl := Item.label.inj hl
        rw [List.foldl_cons, placeLabel_fold_keep hl']
        simp [placeLabel, hlt]
      · exact ih hn (by simpa [placeLabel] using hlt) hm
    · exact ih hn hlt (by simpa using hm)

variable {labelCount : ℕ} {items : List Item} {offsets : List ℕ}

/-- The label table holds exactly the offsets of the placed labels. -/
theorem placeLabels_iff (hlen : items.length ≤ offsets.length) (hn : (labelsOf items).Nodup)
    (hlt : ∀ l ∈ labelsOf items, l.index < labelCount) (l : LabelId) (o : ℕ) :
    (placeLabels labelCount items offsets)[l.index]? = some (some o) ↔
      (Item.label l, o) ∈ items.zip offsets := by
  constructor
  · intro h
    rcases placeLabel_fold_mem h with h | h
    · rw [List.getElem?_replicate] at h
      split_ifs at h
      cases Option.some.inj h
    · exact h
  · intro h
    refine placeLabel_fold_get ?_ ?_ h
    · rwa [List.map_fst_zip hlen]
    · rw [List.length_replicate]
      refine hlt l (List.mem_filterMap.mpr ⟨.label l, (List.of_mem_zip h).1, rfl⟩)

end Labels

section Code

variable {table : List (Option ℕ)} {nodes : List Node} {items : List Item} {code bytes : List UInt8}
  {pool : ConstantPoolView}

theorem emit_cons {item : Item} {here : ℕ} (h : emit table ((item, here) :: placed) = .ok bytes) :
    ∃ front back, emitItem table here item = .ok front ∧ emit table placed = .ok back ∧
      bytes = front ++ back := by
  obtain ⟨front, hf, h⟩ := bind_ok h
  obtain ⟨back, hb, h⟩ := bind_ok h
  exact ⟨front, back, hf, hb, (Except.ok.inj h).symm⟩

/-- The emitted code ends where the layout ends. -/
theorem emit_length {pos : ℕ}
    (hi : ItemsFor (fun insn encoded => encoded.Encodes insn) nodes items)
    (h : emit table (items.zip (offsetsFrom items pos)) = .ok bytes) :
    pos + bytes.length = endFrom items pos := by
  induction hi generalizing pos bytes with
  | nil =>
    obtain rfl := Except.ok.inj h
    rfl
  | label l _ ih =>
    obtain ⟨front, back, hf, hb, rfl⟩ := emit_cons h
    obtain rfl := Except.ok.inj hf
    exact ih hb
  | line n l _ ih => exact ih h
  | insn he _ ih =>
    obtain ⟨front, back, hf, hb, rfl⟩ := emit_cons h
    have hlen := emitItem_length hf he
    have := ih hb
    rw [List.length_append, endFrom, Item.sizeAt, ← hlen]
    rw [Item.sizeAt, ← hlen] at this
    omega

/-- The emitted code, walked from where it is put, is the placed instructions. -/
theorem emit_walks {pos : ℕ} {rest : List UInt8}
    (hi : ItemsFor (fun insn encoded => encoded.Encodes insn ∧ encoded.ReadsBack pool insn)
      nodes items)
    (h : emit table (items.zip (offsetsFrom items pos)) = .ok bytes) (hb : Bounded table)
    (hend : endFrom items pos ≤ 65535) (hcode : code.length ≤ 65535)
    (hd : code.drop pos = bytes ++ rest) :
    Walks code pool pos
      ((place nodes items pos).flatMap (Placed.decoded fun l => labelOffset table l))
      (endFrom items pos) := by
  induction hi generalizing pos bytes with
  | nil => exact .nil pos
  | label l _ ih =>
    obtain ⟨front, back, hf, hback, rfl⟩ := emit_cons h
    obtain rfl := Except.ok.inj hf
    exact ih hback hend hd
  | line n l _ ih => exact ih h hend hd
  | insn hr hrest ih =>
    obtain ⟨front, back, hf, hback, rfl⟩ := emit_cons h
    rw [List.append_assoc] at hd
    have hpos : pos ≤ 65535 := (le_endFrom _ _).trans hend
    have hlen := emitItem_length hf hr.1
    have hw := emitItem_walks hf hr.1 hr.2 hb hpos hcode hd
    have hnext := drop_add hd
    rw [hlen] at hw hnext
    rw [place, List.flatMap_cons, decoded_eq hr.1, endFrom]
    exact hw.append (ih hback hend hnext)

/-- Each item's bytes stand at its offset. -/
theorem emit_at {pos here : ℕ} {rest : List UInt8}
    (hi : ItemsFor (fun insn encoded => encoded.Encodes insn) nodes items)
    (h : emit table (items.zip (offsetsFrom items pos)) = .ok bytes)
    (hd : code.drop pos = bytes ++ rest)
    (hm : (Item.code encoded, here) ∈ items.zip (offsetsFrom items pos)) :
    ∃ front back, emitItem table here (.code encoded) = .ok front ∧
      code.drop here = front ++ back := by
  induction hi generalizing pos bytes with
  | nil => cases hm
  | label l _ ih =>
    obtain ⟨front, back, hf, hback, rfl⟩ := emit_cons h
    obtain rfl := Except.ok.inj hf
    rcases List.mem_cons.mp hm with heq | hm
    · cases (Prod.mk.inj heq).1
    · exact ih hback hd hm
  | line n l _ ih => exact ih h hd hm
  | insn he _ ih =>
    obtain ⟨front, back, hf, hback, rfl⟩ := emit_cons h
    rw [List.append_assoc] at hd
    rcases List.mem_cons.mp hm with heq | hm
    · obtain ⟨hitem, rfl⟩ := Prod.mk.inj heq
      obtain rfl := Item.code.inj hitem
      exact ⟨front, back ++ rest, hf, hd⟩
    · have hnext := drop_add hd
      rw [emitItem_length hf he] at hnext
      exact ih hback hnext hm

/-- Code that was emitted has every label its items name. -/
theorem emit_targets {offsets : List ℕ}
    (h : emit table (items.zip offsets) = .ok bytes) (he : encoded.Encodes insn)
    (hlen : items.length ≤ offsets.length) (hm : Item.code encoded ∈ items)
    (hl : l ∈ insn.jumpTargets) : ∃ o, offsetOf table l = .ok o := by
  induction items generalizing offsets bytes with
  | nil => cases hm
  | cons item items ih =>
    cases offsets with
    | nil => simp at hlen
    | cons here offsets =>
      obtain ⟨front, back, hf, hback, rfl⟩ := emit_cons h
      rcases List.mem_cons.mp hm with rfl | hm
      · exact emitItem_targets hf he hl
      · exact ih hback (by simpa using hlen) hm

theorem emit_ne_panic {pos : ℕ} {message : String}
    (hi : ItemsFor (fun insn encoded => encoded.Encodes insn) nodes items)
    (hr : Reaches table (items.zip (offsetsFrom items pos))) :
    emit table (items.zip (offsetsFrom items pos)) ≠ .error (.panic message) := by
  induction hi generalizing pos with
  | nil => exact fun h => by cases h
  | label l _ ih =>
    refine bind_ne_error (fun h => by cases h) fun _ _ => ?_
    refine bind_ne_error (ih ?_) fun _ _ h => by cases h
    exact fun op target here dest hm => hr op target here dest (List.mem_cons_of_mem _ hm)
  | line n l _ ih => exact ih hr
  | insn he _ ih =>
    refine bind_ne_error (emitItem_ne_panic he ?_) fun _ _ => ?_
    · rintro op target dest rfl hd
      exact hr op target pos dest (List.mem_cons_self ..) hd
    refine bind_ne_error (ih ?_) fun _ _ h => by cases h
    exact fun op target here dest hm => hr op target here dest (List.mem_cons_of_mem _ hm)

end Code

end Krusty.Jvm
