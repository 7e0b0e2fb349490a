import Mathlib.Data.List.Basic
import Krusty.Lib.Results

/-! Items read one after another from a list, each from a stretch of its own that begins where the last ended. -/
namespace Stretches

variable {α β ε σ : Type}

/-- The stretches of the items, laid end to end from a position, are the list. -/
inductive Covers (P : ℕ → α → List β → Prop) : ℕ → List α → List β → Prop
  | nil (start : ℕ) : Covers P start [] []
  | cons {start : ℕ} {item : α} {items : List α} {front rest : List β} (head : P start item front)
      (tail : Covers P (start + front.length) items rest) : Covers P start (item :: items) (front ++ rest)

/-- A reader of one item, which takes a stretch of the list where it begins. -/
def Reads (list : List β) (read : ℕ → Except ε (α × ℕ)) (P : ℕ → α → List β → Prop) : Prop :=
  ∀ start ≤ list.length, ∀ item stop, read start = .ok (item, stop) ↔
    ∃ front rest, list.drop start = front ++ rest ∧ stop = start + front.length ∧ P start item front

/-- Items until the list is read. -/
def readAll (size : ℕ) (read : ℕ → Except ε (α × ℕ))
    (advances : ∀ start item stop, read start = .ok (item, stop) → start < stop) (start : ℕ) :
    Except ε (List α) :=
  if start < size then
    match _h : read start with
    | .error e => .error e
    | .ok (item, next) => (item :: ·) <$> readAll size read advances next
  else .ok []
termination_by size - start
decreasing_by
  have := advances _ _ _ _h
  omega

/-- One item for each input. -/
def readEach (read : σ → ℕ → Except ε (α × ℕ)) : List σ → ℕ → Except ε (List α × ℕ)
  | [], start => .ok ([], start)
  | input :: inputs, start => do
    let (item, next) ← read input start
    let (items, stop) ← readEach read inputs next
    pure (item :: items, stop)

variable {start : ℕ}

theorem length_le_of_drop {list front rest : List β} (hstart : start ≤ list.length)
    (h : list.drop start = front ++ rest) : start + front.length ≤ list.length := by
  have hlength := congrArg List.length h
  rw [List.length_drop, List.length_append] at hlength
  omega

theorem drop_of_drop {list front rest : List β} (h : list.drop start = front ++ rest) :
    list.drop (start + front.length) = rest := by
  rw [← List.drop_drop, h, List.drop_left]

theorem covers_pieces {R : List β → α → Prop} {items : List α} {list : List β} :
    Covers (fun _ item front => R front item) start items list ↔
      ∃ pieces, list = pieces.flatten ∧ List.Forall₂ R pieces items := by
  constructor
  · intro h
    induction h with
    | nil start => exact ⟨[], rfl, .nil⟩
    | cons head tail ih =>
      obtain ⟨pieces, rfl, hpieces⟩ := ih
      exact ⟨_ :: pieces, rfl, .cons head hpieces⟩
  · intro h
    obtain ⟨pieces, rfl, hpieces⟩ := h
    induction hpieces generalizing start with
    | nil => exact .nil start
    | cons head tail ih => exact .cons head ih

/-- Stretches that are the items themselves: the list is the items joined. -/
theorem covers_slices {R : σ → List β → Prop} {inputs : List σ} {items : List (List β)} {list : List β}
    (hlength : items.length = inputs.length) :
    Covers (fun _ (step : σ × List β) front => step.2 = front ∧ R step.1 step.2) start (inputs.zip items) list ↔
      list = items.flatten ∧ List.Forall₂ R inputs items := by
  induction inputs generalizing start items list with
  | nil =>
    obtain rfl := List.eq_nil_of_length_eq_zero hlength
    constructor
    · intro h
      cases h
      exact ⟨rfl, .nil⟩
    · intro h
      obtain ⟨rfl, -⟩ := h
      exact .nil start
  | cons input inputs ih =>
    cases items with
    | nil => cases hlength
    | cons item items =>
      rw [List.zip_cons_cons]
      constructor
      · intro h
        cases h with
        | cons head tail =>
          obtain ⟨rfl, hR⟩ := head
          obtain ⟨rfl, hitems⟩ := (ih (Nat.succ.inj hlength)).mp tail
          exact ⟨rfl, .cons hR hitems⟩
      · intro h
        obtain ⟨rfl, hitems⟩ := h
        cases hitems with
        | cons head tail => exact .cons ⟨rfl, head⟩ ((ih (Nat.succ.inj hlength)).mpr ⟨rfl, tail⟩)

section ReadAll

variable {list : List β} {read : ℕ → Except ε (α × ℕ)} {P : ℕ → α → List β → Prop}
  {advances : ∀ start item stop, read start = .ok (item, stop) → start < stop}

theorem readAll_of_lt (hlt : start < list.length) : readAll list.length read advances start =
      read start >>= fun step => (step.1 :: ·) <$> readAll list.length read advances step.2 := by
  rw [readAll, if_pos hlt]
  split
  next e h => rw [h]; rfl
  next item next h => rw [h]; rfl

/-- The items read are those whose stretches are what is left of the list. -/
theorem readAll_iff (hreads : Reads list read P) (hstart : start ≤ list.length) {items : List α} :
    readAll list.length read advances start = .ok items ↔ Covers P start items (list.drop start) := by
  induction hleft : list.length - start using Nat.strongRecOn generalizing start items with
  | ind left ih =>
    by_cases hlt : start < list.length
    · rw [readAll_of_lt hlt]
      constructor
      · intro h
        obtain ⟨⟨item, next⟩, hitem, h⟩ := Results.bind_ok h
        obtain ⟨later, hlater, rfl⟩ := Results.map_ok h
        have hadvance := advances _ _ _ hitem
        obtain ⟨front, rest, hdrop, rfl, hP⟩ := (hreads start hstart item next).mp hitem
        have hle := length_le_of_drop hstart hdrop
        have htail := (ih _ (by omega) hle rfl).mp hlater
        rw [drop_of_drop hdrop] at htail
        rw [hdrop]
        exact .cons hP htail
      · intro h
        generalize hlist : list.drop start = remaining at h
        cases h with
        | nil =>
          have hlength := congrArg List.length hlist
          rw [List.length_drop, List.length_nil] at hlength
          omega
        | cons hP htail =>
          rename_i item items front rest
          have hitem := (hreads start hstart item _).mpr ⟨front, rest, hlist, rfl, hP⟩
          have hadvance := advances _ _ _ hitem
          have hle := length_le_of_drop hstart hlist
          rw [← drop_of_drop hlist] at htail
          rw [hitem]
          change (item :: ·) <$> readAll list.length read advances (start + front.length) = _
          rw [(ih _ (by omega) hle rfl).mpr htail]
          rfl
    · have hnil : list.drop start = [] := List.drop_eq_nil_of_le (by omega)
      rw [readAll, if_neg hlt, hnil]
      constructor
      · intro h
        cases h
        exact .nil start
      · intro h
        generalize hlist : ([] : List β) = remaining at h
        cases h with
        | nil => rfl
        | cons hP htail =>
          rename_i item items front rest
          obtain ⟨hfront, -⟩ := List.append_eq_nil_iff.mp hlist.symm
          have hitem := (hreads start hstart item _).mpr ⟨front, rest, by rw [hnil, hlist], rfl, hP⟩
          have hadvance := advances _ _ _ hitem
          rw [hfront, List.length_nil] at hadvance
          omega

theorem readAll_ne_error {e : ε} (h : ∀ start ≤ list.length, read start ≠ .error e)
    (hreads : Reads list read P) (hstart : start ≤ list.length) :
    readAll list.length read advances start ≠ .error e := by
  induction hleft : list.length - start using Nat.strongRecOn generalizing start with
  | ind left ih =>
    by_cases hlt : start < list.length
    · rw [readAll_of_lt hlt]
      apply Results.bind_ne_error (h start hstart)
      intro step hstep
      have hadvance := advances _ _ _ hstep
      obtain ⟨front, rest, hdrop, hstop, -⟩ := (hreads start hstart _ _).mp hstep
      have hle := length_le_of_drop hstart hdrop
      rw [← hstop] at hle
      have hlater := ih _ (by omega) hle rfl
      cases hrest : readAll list.length read advances step.2 with
      | error e' =>
        rw [hrest] at hlater
        intro hcontra
        cases hcontra
        exact hlater rfl
      | ok items =>
        intro hcontra
        cases hcontra
    · rw [readAll, if_neg hlt]
      intro hcontra
      cases hcontra

end ReadAll

section ReadEach

variable {list : List β} {read : σ → ℕ → Except ε (α × ℕ)} {P : ℕ → σ × α → List β → Prop}

/-- The items read are those whose stretches, one for each input, come next in the list. -/
theorem readEach_iff {inputs : List σ}
    (hreads : ∀ input ∈ inputs, Reads list (read input) fun position item => P position (input, item))
    {start stop : ℕ} (hstart : start ≤ list.length) {items : List α} :
    readEach read inputs start = .ok (items, stop) ↔
      items.length = inputs.length ∧ ∃ front rest, list.drop start = front ++ rest ∧
        stop = start + front.length ∧ Covers P start (inputs.zip items) front := by
  induction inputs generalizing start items with
  | nil =>
    constructor
    · intro h
      cases h
      exact ⟨rfl, [], _, rfl, rfl, .nil _⟩
    · intro h
      obtain ⟨hlength, front, rest, -, rfl, hcovers⟩ := h
      obtain rfl := List.eq_nil_of_length_eq_zero hlength
      cases hcovers
      rfl
  | cons input inputs ih =>
    have hlater := fun input' hinput => hreads input' (List.mem_cons_of_mem _ hinput)
    have hread := hreads input List.mem_cons_self
    constructor
    · intro h
      obtain ⟨⟨item, next⟩, hitem, h⟩ := Results.bind_ok h
      obtain ⟨⟨later, last⟩, heach, h⟩ := Results.bind_ok h
      cases h
      obtain ⟨front, rest, hdrop, rfl, hP⟩ := (hread start hstart item next).mp hitem
      have hle := length_le_of_drop hstart hdrop
      obtain ⟨hlength, front', rest', hdrop', rfl, hcovers⟩ := (ih hlater hle).mp heach
      rw [drop_of_drop hdrop] at hdrop'
      refine ⟨congrArg (· + 1) hlength, front ++ front', rest', ?_, ?_, .cons hP hcovers⟩
      · rw [hdrop, hdrop', List.append_assoc]
      · rw [List.length_append, Nat.add_assoc]
    · intro h
      obtain ⟨hlength, front, rest, hdrop, rfl, hcovers⟩ := h
      cases items with
      | nil => cases hlength
      | cons item items =>
        rw [List.zip_cons_cons] at hcovers
        cases hcovers with
        | cons hP htail =>
          rename_i first later
          rw [List.append_assoc] at hdrop
          have hitem := (hread start hstart item _).mpr ⟨first, _, hdrop, rfl, hP⟩
          have hle := length_le_of_drop hstart hdrop
          have hstop : start + (first ++ later).length = start + first.length + later.length := by
            rw [List.length_append, Nat.add_assoc]
          have hrest := (ih hlater hle).mpr ⟨Nat.succ.inj hlength, later, rest, drop_of_drop hdrop, hstop, htail⟩
          unfold readEach
          rw [hitem]
          change (readEach read inputs (start + first.length) >>= _) = _
          rw [hrest]
          rfl

theorem readEach_ne_error {inputs : List σ} {e : ε}
    (hreads : ∀ input ∈ inputs, Reads list (read input) fun start item => P start (input, item))
    (h : ∀ input ∈ inputs, ∀ start ≤ list.length, read input start ≠ .error e) (hstart : start ≤ list.length) : readEach read inputs start ≠ .error e := by
  induction inputs generalizing start with
  | nil =>
    intro hcontra
    cases hcontra
  | cons input inputs ih =>
    apply Results.bind_ne_error (h input List.mem_cons_self start hstart)
    intro step hstep
    obtain ⟨front, rest, hdrop, hstop, -⟩ := (hreads input List.mem_cons_self start hstart _ _).mp hstep
    have hle := length_le_of_drop hstart hdrop
    rw [← hstop] at hle
    apply Results.bind_ne_error (ih (fun input' hinput => hreads input' (List.mem_cons_of_mem _ hinput))
      (fun input' hinput => h input' (List.mem_cons_of_mem _ hinput)) hle)
    intro later hlater hcontra
    cases hcontra

end ReadEach

end Stretches
