import Mathlib.Logic.Relation
import Mathlib.Order.WellFounded

/-! Deterministic programs that do the same, related step by step with stutters on either side. -/
namespace Simulation

open Relation

/-- What one step leads to: another state, or the outcome. -/
inductive Move (α ο : Type*) where
  | goes (a : α)
  | ends (o : ο)

/-- A deterministic program, and what each of its states shows to the outside. -/
structure Program (α ο ν : Type*) where
  step : α → Move α ο
  view : α → ν

variable {α β γ ο ν ω : Type*}

namespace Program

variable (P : Program α ο ν)

def Goes (a a' : α) : Prop := P.step a = .goes a'

/-- Some run from `a` passes `a'`. -/
def Reaches : α → α → Prop := ReflTransGen P.Goes

def Ends (a : α) (o : ο) : Prop := ∃ a', P.Reaches a a' ∧ P.step a' = .ends o

def Shows (a : α) (v : ν) : Prop := ∃ a', P.Reaches a a' ∧ P.view a' = v

variable {P} {a a' : α} {o : ο} {v : ν}

theorem Ends.head (h : P.Goes a a') (hends : P.Ends a' o) : P.Ends a o := by
  obtain ⟨b, hreach, hb⟩ := hends
  exact ⟨b, .head h hreach, hb⟩

theorem Ends.of_reaches (h : P.Reaches a a') (hends : P.Ends a' o) : P.Ends a o := by
  obtain ⟨b, hreach, hb⟩ := hends
  exact ⟨b, h.trans hreach, hb⟩

theorem Goes.unique {b : α} (h : P.Goes a a') (h' : P.Goes a b) : a' = b := by
  have heq : Move.goes a' = Move.goes b := h.symm.trans h'
  cases heq
  rfl

theorem Goes.not_ends (h : P.Goes a a') : P.step a ≠ .ends o := by
  intro hends
  cases h.symm.trans hends

end Program

/-- The programs end with the same outcomes and pass through states that show the same. -/
structure Same (P : Program α ο ν) (Q : Program β ο ν) (a : α) (b : β) : Prop where
  ends : ∀ o, P.Ends a o ↔ Q.Ends b o
  shows : ∀ v, P.Shows a v ↔ Q.Shows b v

namespace Same

variable {P : Program α ο ν} {Q : Program β ο ν} {R : Program γ ο ν} {a : α} {b : β} {c : γ}

theorem refl (P : Program α ο ν) (a : α) : Same P P a a := ⟨fun _ => Iff.rfl, fun _ => Iff.rfl⟩

theorem symm (h : Same P Q a b) : Same Q P b a := ⟨fun o => (h.ends o).symm, fun v => (h.shows v).symm⟩

theorem trans (h : Same P Q a b) (h' : Same Q R b c) : Same P R a c :=
  ⟨fun o => (h.ends o).trans (h'.ends o), fun v => (h.shows v).trans (h'.shows v)⟩

end Same

section Ranked

variable (P : Program α ο ν) (Q : Program β ο ν) (R : α → β → Prop)

/-- What two related states do next: both step, both end alike, or one steps alone and the rank falls. -/
inductive Progress [LT ω] (rank : α → β → ω) (a : α) (b : β) : Prop
  | both {a' : α} {b' : β} (left : P.Goes a a') (right : Q.Goes b b') (related : R a' b')
  | done {o : ο} (left : P.step a = .ends o) (right : Q.step b = .ends o)
  | left {a' : α} (left : P.Goes a a') (related : R a' b) (falls : rank a' b < rank a b)
  | right {b' : β} (right : Q.Goes b b') (related : R a b') (falls : rank a b' < rank a b)

/-- Related states show the same and progress together; the rank excludes endless stutters. -/
structure Ranked [LT ω] (rank : α → β → ω) : Prop where
  view : ∀ {a b}, R a b → P.view a = Q.view b
  progress : ∀ {a b}, R a b → Progress P Q R rank a b

variable {P Q R}

theorem Ranked.symm [LT ω] {rank : α → β → ω} (h : Ranked P Q R rank) :
    Ranked Q P (fun b a => R a b) fun b a => rank a b where
  view hR := (h.view hR).symm
  progress hR := by
    cases h.progress hR with
    | both hl hr hrel => exact .both hr hl hrel
    | done hl hr => exact .done hr hl
    | left hl hrel hlt => exact .right hl hrel hlt
    | right hr hrel hlt => exact .left hr hrel hlt

variable [Preorder ω] [WellFoundedLT ω] {rank : α → β → ω}

/-- The right program catches up with the next step of the left one. -/
theorem Ranked.catches_up (h : Ranked P Q R rank) {a : α} {b : β} (hR : R a b) :
    (∃ o, P.step a = .ends o ∧ Q.Ends b o) ∨
      ∃ a' b', P.Goes a a' ∧ Q.Reaches b b' ∧ R a' b' := by
  -- induction on the rank: only the right program's own stutters delay the next step
  induction hk : rank a b using WellFoundedLT.induction generalizing b with
  | ind k ih =>
    cases h.progress hR with
    | both hl hr hrel => exact .inr ⟨_, _, hl, .single hr, hrel⟩
    | done hl hr => exact .inl ⟨_, hl, b, .refl, hr⟩
    | left hl hrel _ => exact .inr ⟨_, b, hl, .refl, hrel⟩
    | right hr hrel hlt =>
      obtain ⟨o, hl, hends⟩ | ⟨a', b', hl, hreach, hrel'⟩ := ih _ (hk ▸ hlt) hrel rfl
      · exact .inl ⟨o, hl, hends.head hr⟩
      · exact .inr ⟨a', b', hl, .head hr hreach, hrel'⟩

theorem Ranked.reaches (h : Ranked P Q R rank) {a a' : α} (hreach : P.Reaches a a') :
    ∀ {b : β}, R a b → ∃ b', Q.Reaches b b' ∧ R a' b' := by
  induction hreach using ReflTransGen.head_induction_on with
  | refl =>
    intro b hR
    exact ⟨b, .refl, hR⟩
  | head hgoes _ ih =>
    intro b hR
    obtain ⟨o, hl, -⟩ | ⟨a₁, b₁, hl, hreach₁, hrel⟩ := h.catches_up hR
    · exact absurd hl hgoes.not_ends
    · obtain rfl := hgoes.unique hl
      obtain ⟨b', hreach', hrel'⟩ := ih hrel
      exact ⟨b', hreach₁.trans hreach', hrel'⟩

theorem Ranked.ends (h : Ranked P Q R rank) {a : α} {b : β} (hR : R a b) {o : ο} (hends : P.Ends a o) :
    Q.Ends b o := by
  obtain ⟨a', hreach, hstep⟩ := hends
  obtain ⟨b', hreach', hrel⟩ := h.reaches hreach hR
  obtain ⟨o', hl, hends'⟩ | ⟨a₁, b₁, hl, -, -⟩ := h.catches_up hrel
  · have heq : Move.ends o = Move.ends o' := hstep.symm.trans hl
    cases heq
    exact .of_reaches hreach' hends'
  · exact absurd hstep hl.not_ends

theorem Ranked.shows (h : Ranked P Q R rank) {a : α} {b : β} (hR : R a b) {v : ν} (hshows : P.Shows a v) :
    Q.Shows b v := by
  obtain ⟨a', hreach, rfl⟩ := hshows
  obtain ⟨b', hreach', hrel⟩ := h.reaches hreach hR
  exact ⟨b', hreach', (h.view hrel).symm⟩

theorem Ranked.same (h : Ranked P Q R rank) {a : α} {b : β} (hR : R a b) : Same P Q a b where
  ends _ := ⟨h.ends hR, h.symm.ends hR⟩
  shows _ := ⟨h.shows hR, h.symm.shows hR⟩

end Ranked

end Simulation

/-! Programs over the same states that differ only in places nobody looks at. -/
namespace Simulation

open Relation

variable {α ο ν : Type*}

/-- A run of at least one step. The states inside it are hidden, and show what its first one shows. -/
inductive Passage (P : Program α ο ν) (Hidden : α → Prop) : α → α → Prop
  | last {a a' : α} (goes : P.Goes a a') : Passage P Hidden a a'
  | more {a b a' : α} (goes : P.Goes a b) (hidden : Hidden b) (view : P.view b = P.view a)
      (rest : Passage P Hidden b a') : Passage P Hidden a a'

theorem Passage.reaches {P : Program α ο ν} {Hidden : α → Prop} {a a' : α} (h : Passage P Hidden a a') :
    P.Reaches a a' := by
  induction h with
  | last goes => exact .single goes
  | more goes _ _ _ ih => exact .head goes ih

theorem Passage.not_ends {P : Program α ο ν} {Hidden : α → Prop} {a a' : α} {o : ο}
    (h : Passage P Hidden a a') : P.step a ≠ .ends o := by
  cases h with
  | last goes => exact goes.not_ends
  | more goes _ _ _ => exact goes.not_ends

/-- From every state that is not hidden both programs end alike, or pass to the same state. It is enough that
they do so from the safe ones. -/
structure Between (P Q : Program α ο ν) (Hidden Safe : α → Prop) : Prop where
  view : ∀ a, P.view a = Q.view a
  progress : ∀ a, ¬ Hidden a → Safe a → (∃ o, P.step a = .ends o ∧ Q.step a = .ends o) ∨
    ∃ b, ¬ Hidden b ∧ Safe b ∧ Passage P Hidden a b ∧ Passage Q Hidden a b

namespace Between

variable {P Q : Program α ο ν} {Hidden Safe : α → Prop} {a a' x x' y : α} {o : ο} {v : ν}

theorem symm (h : Between P Q Hidden Safe) : Between Q P Hidden Safe where
  view a := (h.view a).symm
  progress a hseen hsafe := by
    obtain ⟨o, hP, hQ⟩ | ⟨b, hb, hsafe', hP, hQ⟩ := h.progress a hseen hsafe
    · exact .inl ⟨o, hQ, hP⟩
    · exact .inr ⟨b, hb, hsafe', hQ, hP⟩

/-- Where the left program is, against the last state of the right one that is not hidden. -/
inductive Behind (P Q : Program α ο ν) (Hidden Safe : α → Prop) : α → α → Prop
  | level {a : α} (seen : ¬ Hidden a) (safe : Safe a) : Behind P Q Hidden Safe a a
  | inside {x y b : α} (seen : ¬ Hidden b) (safe : Safe b) (hidden : Hidden x) (left : Passage P Hidden x b)
      (right : Q.Reaches y b) (view : P.view x = Q.view y) : Behind P Q Hidden Safe x y

theorem behind_step (h : Between P Q Hidden Safe) (hbehind : Behind P Q Hidden Safe x y) (hgoes : P.Goes x x') :
    ∃ y', Q.Reaches y y' ∧ Behind P Q Hidden Safe x' y' := by
  have hpassage : ∀ {b : α}, ¬ Hidden b → Safe b → Passage P Hidden x b → Q.Reaches y b → P.view x = Q.view y →
      ∃ y', Q.Reaches y y' ∧ Behind P Q Hidden Safe x' y' := by
    intro b hseen hsafe hleft hright hview
    cases hleft with
    | last hb =>
      obtain rfl := hgoes.unique hb
      exact ⟨x', hright, .level hseen hsafe⟩
    | more hb hhidden hsame hrest =>
      obtain rfl := hgoes.unique hb
      exact ⟨y, .refl, .inside hseen hsafe hhidden hrest hright (hsame.trans hview)⟩
  cases hbehind with
  | level seen safe =>
    obtain ⟨o, hends, -⟩ | ⟨b, hb, hsafe, hP, hQ⟩ := h.progress x seen safe
    · exact absurd hends hgoes.not_ends
    · exact hpassage hb hsafe hP hQ.reaches (h.view x)
  | inside seen safe _ left right view => exact hpassage seen safe left right view

theorem behind_reaches (h : Between P Q Hidden Safe) (hreach : P.Reaches x x') :
    ∀ {y : α}, Behind P Q Hidden Safe x y → ∃ y', Q.Reaches y y' ∧ Behind P Q Hidden Safe x' y' := by
  induction hreach using ReflTransGen.head_induction_on with
  | refl =>
    intro y hbehind
    exact ⟨y, .refl, hbehind⟩
  | head hgoes _ ih =>
    intro y hbehind
    obtain ⟨y₁, hreach₁, hbehind₁⟩ := h.behind_step hbehind hgoes
    obtain ⟨y', hreach', hbehind'⟩ := ih hbehind₁
    exact ⟨y', hreach₁.trans hreach', hbehind'⟩

theorem reaches (h : Between P Q Hidden Safe) (hseen : ¬ Hidden a) (hsafe : Safe a) (hseen' : ¬ Hidden a')
    (hreach : P.Reaches a a') : Q.Reaches a a' := by
  obtain ⟨y, hreach', hbehind⟩ := h.behind_reaches hreach (.level hseen hsafe)
  cases hbehind with
  | level _ _ => exact hreach'
  | inside _ _ hidden _ _ _ => exact absurd hidden hseen'

theorem ends (h : Between P Q Hidden Safe) (hseen : ¬ Hidden a) (hsafe : Safe a) (hends : P.Ends a o) :
    Q.Ends a o := by
  obtain ⟨a', hreach, hstep⟩ := hends
  obtain ⟨y, hreach', hbehind⟩ := h.behind_reaches hreach (.level hseen hsafe)
  cases hbehind with
  | level seen safe =>
    obtain ⟨o', hP, hQ⟩ | ⟨b, -, -, hP, -⟩ := h.progress a' seen safe
    · have heq : Move.ends o = Move.ends o' := hstep.symm.trans hP
      cases heq
      exact ⟨a', hreach', hQ⟩
    · exact absurd hstep hP.not_ends
  | inside _ _ _ left _ _ => exact absurd hstep left.not_ends

theorem shows (h : Between P Q Hidden Safe) (hseen : ¬ Hidden a) (hsafe : Safe a) (hshows : P.Shows a v) :
    Q.Shows a v := by
  obtain ⟨a', hreach, rfl⟩ := hshows
  obtain ⟨y, hreach', hbehind⟩ := h.behind_reaches hreach (.level hseen hsafe)
  cases hbehind with
  | level _ _ => exact ⟨a', hreach', (h.view a').symm⟩
  | inside _ _ _ _ _ view => exact ⟨y, hreach', view.symm⟩

/-- The programs pass the same states but for the hidden ones. -/
theorem reaches_iff (h : Between P Q Hidden Safe) (hseen : ¬ Hidden a) (hsafe : Safe a) (hseen' : ¬ Hidden a') :
    P.Reaches a a' ↔ Q.Reaches a a' :=
  ⟨h.reaches hseen hsafe hseen', h.symm.reaches hseen hsafe hseen'⟩

theorem same (h : Between P Q Hidden Safe) (hseen : ¬ Hidden a) (hsafe : Safe a) : Same P Q a a where
  ends _ := ⟨h.ends hseen hsafe, h.symm.ends hseen hsafe⟩
  shows _ := ⟨h.shows hseen hsafe, h.symm.shows hseen hsafe⟩

end Between

end Simulation
