import Mathlib.Computability.Language

/-! Searches that may run out of depth, and the languages that they decide. -/
namespace Searches

variable {α : Type}

/-- The search ends, and ends in success exactly when the proposition holds. -/
def Decides (search : Option Bool) (p : Prop) : Prop := ∃ b, search = some b ∧ (b = true ↔ p)

theorem Decides.iff {search : Option Bool} {p q : Prop} (h : Decides search p) (hpq : p ↔ q) :
    Decides search q := by
  obtain ⟨b, hb, hiff⟩ := h
  exact ⟨b, hb, hiff.trans hpq⟩

theorem decides_false {p : Prop} (h : ¬ p) : Decides (some false) p :=
  ⟨false, rfl, by simpa using h⟩

theorem Decides.ite {c : Prop} [Decidable c] {search : Option Bool} {p : Prop} (h : c → Decides search p) :
    Decides (if c then search else some false) (c ∧ p) := by
  by_cases hc : c
  · rw [if_pos hc]
    exact (h hc).iff (by simp [hc])
  · rw [if_neg hc]
    exact decides_false fun hp => hc hp.1

/-- Trying one search and then, if it fails, another. -/
theorem Decides.orElse {first second : Option Bool} {p q : Prop} (hp : Decides first p)
    (hq : ¬ p → Decides second q) :
    Decides (first.bind fun found => if found then some true else second) (p ∨ q) := by
  obtain ⟨b, rfl, hb⟩ := hp
  cases b with
  | true => exact ⟨true, rfl, by simpa using Or.inl (hb.mp rfl)⟩
  | false =>
    have hnot : ¬ p := fun h => absurd (hb.mpr h) (by simp)
    exact (hq hnot).iff (by simp [hnot])

variable {p : α → Prop}

theorem Decides.anyM {search : α → Option Bool} {l : List α}
    (h : ∀ a ∈ l, Decides (search a) (p a)) : Decides (l.anyM search) (∃ a ∈ l, p a) := by
  induction l with
  | nil => exact decides_false (by simp)
  | cons a l ih =>
    have hrest := ih fun b hb => h b (List.mem_cons_of_mem _ hb)
    obtain ⟨b, hb, hiff⟩ := (h a List.mem_cons_self).orElse fun _ => hrest
    refine ⟨b, ?_, by simpa using hiff⟩
    rw [← hb, List.anyM]
    cases search a with
    | none => rfl
    | some found => cases found <;> rfl

/-- The words of one letter of some kind. -/
def letter (p : α → Prop) : Language α := {v | ∃ b, p b ∧ v = [b]}

/-- The words with letters of one kind only. -/
def letters (p : α → Prop) : Language α := {v | ∀ b ∈ v, p b}

variable {L : Language α}

/-- Any word, and then a word of a language. -/
theorem mem_top_mul {w : List α} : w ∈ ⊤ * L ↔ ∃ t ∈ w.tails, t ∈ L := by
  rw [Language.mem_mul]
  constructor
  · rintro ⟨a, -, b, hb, rfl⟩
    exact ⟨b, (List.mem_tails b _).mpr (List.suffix_append a b), hb⟩
  · rintro ⟨t, ht, hmem⟩
    obtain ⟨a, rfl⟩ := (List.mem_tails t w).mp ht
    exact ⟨a, trivial, t, hmem, rfl⟩

/-- One letter, and then a word of a language. -/
theorem cons_mem_mul {a : α} {w : List α} : a :: w ∈ letter p * L ↔ p a ∧ w ∈ L := by
  rw [Language.mem_mul]
  constructor
  · rintro ⟨_, ⟨b, hb, rfl⟩, t, ht, heq⟩
    cases heq
    exact ⟨hb, ht⟩
  · rintro ⟨ha, hw⟩
    exact ⟨[a], ⟨a, ha, rfl⟩, w, hw, rfl⟩

theorem nil_notMem_mul : [] ∉ letter p * L := by
  rw [Language.mem_mul]
  rintro ⟨_, ⟨b, -, rfl⟩, t, -, heq⟩
  cases heq

/-- Letters of one kind as long as they last, and then a word of a language. -/
theorem cons_mem_run_mul {a : α} {w : List α} : a :: w ∈ letters p * L ↔
      a :: w ∈ L ∨ p a ∧ w ∈ letters p * L := by
  simp only [Language.mem_mul]
  constructor
  · rintro ⟨v, hv, t, ht, heq⟩
    cases v with
    | nil =>
      rw [List.nil_append] at heq
      exact .inl (heq ▸ ht)
    | cons b v =>
      cases heq
      exact .inr ⟨hv a List.mem_cons_self, v, fun c hc => hv c (List.mem_cons_of_mem _ hc), t, ht, rfl⟩
  · rintro (h | ⟨ha, v, hv, t, ht, rfl⟩)
    · exact ⟨[], fun b hb => absurd hb List.not_mem_nil, a :: w, h, rfl⟩
    · refine ⟨a :: v, fun b hb => ?_, t, ht, rfl⟩
      rcases List.mem_cons.mp hb with rfl | hb
      · exact ha
      · exact hv b hb

theorem nil_mem_run_mul : [] ∈ letters p * L ↔ [] ∈ L := by
  rw [Language.mem_mul]
  constructor
  · rintro ⟨v, -, t, ht, heq⟩
    obtain ⟨-, rfl⟩ := List.append_eq_nil_iff.mp heq
    exact ht
  · intro h
    exact ⟨[], fun b hb => absurd hb List.not_mem_nil, [], h, rfl⟩

end Searches
