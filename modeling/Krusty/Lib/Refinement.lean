import Mathlib.Data.List.Induction
import Mathlib.Logic.Basic

/-! Runs of a machine whose events may or may not be possible in a state. -/
namespace Runs

variable {σ ε : Type} {step : σ → ε → Option σ} {s₀ s s' : σ} {es : List ε} {e : ε}

/-- The state after a sequence of events, when each of them is possible in its turn. -/
def run (step : σ → ε → Option σ) (s : σ) (es : List ε) : Option σ := es.foldlM step s

theorem run_snoc (h : run step s₀ (es ++ [e]) = some s') :
    ∃ s, run step s₀ es = some s ∧ step s e = some s' := by
  unfold run at h
  rw [List.foldlM_append, Option.bind_eq_bind, Option.bind_eq_some_iff] at h
  obtain ⟨s, hs, hstep⟩ := h
  refine ⟨s, hs, ?_⟩
  rw [List.foldlM_cons, Option.bind_eq_bind, Option.bind_eq_some_iff] at hstep
  obtain ⟨s₁, hs₁, hnil⟩ := hstep
  cases hnil
  exact hs₁

/-- What holds at the start and is kept by every event holds after every run, of the state and of the
events so far. -/
theorem run_induction {P : List ε → σ → Prop} (h₀ : P [] s₀)
    (hstep : ∀ es s e s', P es s → step s e = some s' → P (es ++ [e]) s')
    (h : run step s₀ es = some s) : P es s := by
  induction es using List.reverseRecOn generalizing s with
  | nil =>
    cases h
    exact h₀
  | append_singleton es e ih =>
    obtain ⟨s₁, hs₁, he⟩ := run_snoc h
    exact hstep es s₁ e s (ih hs₁) he

end Runs

/-! Components under sequences of operations, and one refining another. No answer is a panic. -/
namespace Refinement

variable {ω α σ τ : Type*}

/-- The answers to operations in order, and the state after them. -/
def run (apply : σ → ω → Option (α × σ)) (s : σ) : List ω → Option (List α × σ)
  | [] => some ([], s)
  | op :: ops => do
    let (answer, s) ← apply s op
    let (answers, s) ← run apply s ops
    return (answer :: answers, s)

/-- The same answer, in related states. -/
def Agree (R : σ → τ → Prop) (a : α × σ) (b : α × τ) : Prop := a.1 = b.1 ∧ R a.2 b.2

theorem rel_map {β γ δ ε : Type*} {R : β → γ → Prop} {Q : δ → ε → Prop} {f : β → δ} {g : γ → ε}
    {x : Option β} {y : Option γ} (hf : ∀ {a b}, R a b → Q (f a) (g b)) (h : Option.Rel R x y) :
    Option.Rel Q (x.map f) (y.map g) := by
  cases h with
  | some h => exact .some (hf h)
  | none => exact .none

theorem rel_bind {β γ δ ε : Type*} {R : β → γ → Prop} {Q : δ → ε → Prop} {f : β → Option δ} {g : γ → Option ε}
    {x : Option β} {y : Option γ} (hf : ∀ {a b}, R a b → Option.Rel Q (f a) (g b)) (h : Option.Rel R x y) :
    Option.Rel Q (x.bind f) (y.bind g) := by
  cases h with
  | some h => exact hf h
  | none => exact .none

theorem rel_trans {β : Type*} {R : β → β → Prop} (htrans : ∀ {a b c}, R a b → R b c → R a c) {x y z : Option β}
    (h : Option.Rel R x y) (h' : Option.Rel R y z) : Option.Rel R x z := by
  cases h with
  | some h =>
    cases h' with
    | some h' => exact .some (htrans h h')
  | none => exact h'

/-- Components that agree on each operation agree on every sequence of them. -/
theorem run_rel {R : σ → τ → Prop} {f : σ → ω → Option (α × σ)} {g : τ → ω → Option (α × τ)}
    (hstep : ∀ {s t} op, R s t → Option.Rel (Agree R) (f s op) (g t op)) {s : σ} {t : τ} (h : R s t)
    (ops : List ω) : Option.Rel (Agree R) (run f s ops) (run g t ops) := by
  induction ops generalizing s t with
  | nil => exact .some ⟨rfl, h⟩
  | cons op ops ih =>
    refine rel_bind (fun {a b} hab => ?_) (hstep op h)
    refine rel_bind (fun {as bs} hrest => ?_) (ih hab.2)
    exact .some ⟨congrArg₂ List.cons hab.1 hrest.1, hrest.2⟩

theorem run_append (f : σ → ω → Option (α × σ)) (s : σ) (ops ops' : List ω) :
    run f s (ops ++ ops') =
      (run f s ops).bind fun a => (run f a.2 ops').map fun b => (a.1 ++ b.1, b.2) := by
  induction ops generalizing s with
  | nil =>
    cases h : run f s ops' <;> simp [run, h]
  | cons op ops ih =>
    simp only [List.cons_append, run]
    cases f s op with
    | none => rfl
    | some a =>
      have hrest := ih a.2
      simp only [Option.bind_eq_bind, Option.bind_some, hrest]
      cases run f a.2 ops with
      | none => rfl
      | some b => cases h : run f b.2 ops' <;> simp [h]

theorem run_singleton (f : σ → ω → Option (α × σ)) (s : σ) (op : ω) :
    run f s [op] = (f s op).map fun a => ([a.1], a.2) := by
  cases h : f s op <;> simp [run, h]

theorem run_snoc {f : σ → ω → Option (α × σ)} {s s' : σ} {ops : List ω} {op : ω} {answers : List α} :
    run f s (ops ++ [op]) = some (answers, s') ↔
      ∃ before s₁ a, run f s ops = some (before, s₁) ∧ f s₁ op = some (a, s') ∧ answers = before ++ [a] := by
  simp only [run_append, run_singleton, Option.bind_eq_some_iff, Option.map_map, Option.map_eq_some_iff,
    Prod.exists, Function.comp, Prod.mk.injEq]
  constructor
  · rintro ⟨before, s₁, hops, a, s₂, hop, rfl, rfl⟩
    exact ⟨before, s₁, a, hops, hop, rfl⟩
  · rintro ⟨before, s₁, a, hops, hop, rfl⟩
    exact ⟨before, s₁, hops, a, s', hop, rfl, rfl⟩

end Refinement
