import Mathlib.Data.List.Forall2

/-! Inverting computations that return a value or an error. -/
namespace Results

variable {ε α β : Type} {f : α → Except ε β} {x : Except ε α}

theorem bind_ok {b : β} (h : x >>= f = .ok b) : ∃ a, x = .ok a ∧ f a = .ok b := by
  cases x with
  | error e => cases h
  | ok a => exact ⟨a, rfl, h⟩

theorem bind_of_ok {a : α} (hx : x = .ok a) : x >>= f = f a := by
  rw [hx]
  rfl

theorem ok_bind {a : α} {b : β} (hx : x = .ok a) (hf : f a = .ok b) : x >>= f = .ok b := by
  rw [hx]
  exact hf

theorem map_ok {f : α → β} {b : β} (h : f <$> x = .ok b) : ∃ a, x = .ok a ∧ f a = b := by
  cases x with
  | error e => cases h
  | ok a => exact ⟨a, rfl, Except.ok.inj h⟩

variable {ys : List β} {xs : List α}

/-- Mapping a fallible function over a list succeeds exactly when it does on every element. -/
theorem mapM_ok : xs.mapM f = .ok ys ↔ List.Forall₂ (fun x y => f x = .ok y) xs ys := by
  induction xs generalizing ys with
  | nil =>
    rw [List.mapM_nil, List.forall₂_nil_left_iff]
    exact ⟨fun h => (Except.ok.inj h).symm, fun h => h ▸ rfl⟩
  | cons x xs ih =>
    rw [List.mapM_cons]
    constructor
    · intro h
      obtain ⟨y, hy, h⟩ := bind_ok h
      obtain ⟨rest, hrest, h⟩ := bind_ok h
      obtain rfl := Except.ok.inj h
      exact .cons hy (ih.mp hrest)
    · intro h
      obtain ⟨y, rest, hy, hrest, rfl⟩ := List.forall₂_cons_left_iff.mp h
      rw [hy, ih.mpr hrest]
      rfl

variable {R : α → β → Prop}

theorem exists_right (h : List.Forall₂ R xs ys) {x : α} (hx : x ∈ xs) : ∃ y ∈ ys, R x y := by
  induction h with
  | nil => cases hx
  | cons hxy _ ih =>
    rcases List.mem_cons.mp hx with rfl | hx
    · exact ⟨_, List.mem_cons_self .., hxy⟩
    · obtain ⟨y, hm, hy⟩ := ih hx
      exact ⟨y, List.mem_cons_of_mem _ hm, hy⟩

theorem exists_left (h : List.Forall₂ R xs ys) {y : β} (hy : y ∈ ys) : ∃ x ∈ xs, R x y :=
  exists_right h.flip hy

theorem mapM_ok_of_mem {x : α} (h : xs.mapM f = .ok ys) (hx : x ∈ xs) : ∃ y ∈ ys, f x = .ok y :=
  exists_right (mapM_ok.mp h) hx

theorem exists_of_mem_mapM {y : β} (h : xs.mapM f = .ok ys) (hy : y ∈ ys) : ∃ x ∈ xs, f x = .ok y :=
  exists_left (mapM_ok.mp h) hy

/-- The same for a function that may have no value. -/
theorem mapM_some {f : α → Option β} : xs.mapM f = some ys ↔ List.Forall₂ (fun x y => f x = some y) xs ys := by
  induction xs generalizing ys with
  | nil =>
    rw [List.mapM_nil, List.forall₂_nil_left_iff]
    exact ⟨fun h => (Option.some.inj h).symm, fun h => h ▸ rfl⟩
  | cons x xs ih =>
    rw [List.mapM_cons]
    constructor
    · intro h
      obtain ⟨y, hy, h⟩ := Option.bind_eq_some_iff.mp h
      obtain ⟨rest, hrest, h⟩ := Option.bind_eq_some_iff.mp h
      obtain rfl := Option.some.inj h
      exact .cons hy (ih.mp hrest)
    · intro h
      obtain ⟨y, rest, hy, hrest, rfl⟩ := List.forall₂_cons_left_iff.mp h
      rw [hy, ih.mpr hrest]
      rfl

theorem exists_mapM_some {f : α → Option β} (h : ∀ x ∈ xs, ∃ y, f x = some y) : ∃ ys, xs.mapM f = some ys := by
  induction xs with
  | nil => exact ⟨[], rfl⟩
  | cons x xs ih =>
    obtain ⟨y, hy⟩ := h x (List.mem_cons_self ..)
    obtain ⟨ys, hys⟩ := ih fun x hx => h x (List.mem_cons_of_mem _ hx)
    exact ⟨y :: ys, mapM_some.mpr (.cons hy (mapM_some.mp hys))⟩

theorem exists_mapM_ok (h : ∀ x ∈ xs, ∃ y, f x = .ok y) : ∃ ys, xs.mapM f = .ok ys := by
  induction xs with
  | nil => exact ⟨[], rfl⟩
  | cons x xs ih =>
    obtain ⟨⟨y, hy⟩, hrest⟩ := List.forall_mem_cons.mp h
    obtain ⟨ys, hys⟩ := ih hrest
    exact ⟨y :: ys, by rw [List.mapM_cons, hy, hys]; rfl⟩

theorem eq_map_of_mapM {r : α → β}
    (h : xs.mapM f = .ok ys) (hr : ∀ x y, f x = .ok y → y = r x) : ys = xs.map r := by
  have hf := mapM_ok.mp h
  clear h
  induction hf with
  | nil => rfl
  | cons hx _ ih => rw [List.map_cons, hr _ _ hx, ih]

/-- A mapped run carried over to related elements. -/
theorem mapM_transport {γ δ : Type} {R : α → γ → Prop} {g : γ → Except ε δ}
    {r : β → δ} {zs : List γ} (h : xs.mapM f = .ok ys)
    (hR : List.Forall₂ R xs zs)
    (hg : ∀ x z y, R x z → f x = .ok y → g z = .ok (r y)) : zs.mapM g = .ok (ys.map r) := by
  have hf := mapM_ok.mp h
  apply mapM_ok.mpr
  clear h
  induction hR generalizing ys with
  | nil =>
    cases hf
    exact .nil
  | cons hxz _ ih =>
    cases hf with
    | cons hy hf => exact .cons (hg _ _ _ hxz hy) (ih hf)

theorem forall₂_comp {γ : Type} {S : β → γ → Prop} {T : α → γ → Prop} {zs : List γ}
    (h : List.Forall₂ R xs ys) (h' : List.Forall₂ S ys zs)
    (hT : ∀ x y z, x ∈ xs → R x y → S y z → T x z) : List.Forall₂ T xs zs := by
  induction h generalizing zs with
  | nil =>
    cases h'
    exact .nil
  | cons hxy _ ih =>
    cases h' with
    | cons hyz h' =>
      refine .cons (hT _ _ _ (List.mem_cons_self ..) hxy hyz) (ih h' ?_)
      exact fun x y z hx => hT x y z (List.mem_cons_of_mem _ hx)

theorem forall₂_filter_map {γ : Type} {p : α → Bool} {q : β → Bool}
    {f : α → γ} {g : β → γ} (h : List.Forall₂ R xs ys)
    (hR : ∀ x y, R x y → p x = q y ∧ f x = g y) :
    (xs.filter p).map f = (ys.filter q).map g := by
  induction h with
  | nil => rfl
  | cons hxy _ ih =>
    obtain ⟨hp, hf⟩ := hR _ _ hxy
    rw [List.filter_cons, List.filter_cons, hp]
    split
    · rw [List.map_cons, List.map_cons, hf, ih]
    · exact ih

/-- Two relations met through a zipped list. -/
theorem forall₂_zip {γ : Type} {g : γ → β} {zs : List γ} (h : List.Forall₂ R xs ys)
    (hz : List.Forall₂ (fun (x : α × β) z => g z = x.2) (xs.zip ys) zs) :
    List.Forall₂ (fun x z => R x (g z)) xs zs := by
  induction h generalizing zs with
  | nil =>
    cases hz
    exact .nil
  | cons hxy _ ih =>
    cases hz with
    | cons hg hz => exact .cons (hg ▸ hxy) (ih hz)

theorem bind_ne_error {e : ε} (hx : x ≠ .error e)
    (hf : ∀ a, x = .ok a → f a ≠ .error e) : x >>= f ≠ .error e := by
  cases x with
  | error e' =>
    intro h
    exact hx (congrArg _ (Except.error.inj h))
  | ok a => exact hf a rfl

theorem mapM_ne_error {e : ε} (h : ∀ x ∈ xs, f x ≠ .error e) : xs.mapM f ≠ .error e := by
  induction xs with
  | nil =>
    intro hn
    cases hn
  | cons x xs ih =>
    rw [List.mapM_cons]
    refine bind_ne_error (h x (List.mem_cons_self ..)) fun y _ => ?_
    refine bind_ne_error (ih fun z hz => h z (List.mem_cons_of_mem _ hz)) fun ys _ => ?_
    intro hn
    cases hn

section Folds

variable {σ : Type} {f : σ → α → Except ε σ} {xs : List α} {s t : σ}

theorem foldlM_congr {g : σ → α → Except ε σ} (h : ∀ s, ∀ x ∈ xs, f s x = g s x) (s : σ) :
    xs.foldlM f s = xs.foldlM g s := by
  induction xs generalizing s with
  | nil => rfl
  | cons x xs ih =>
    rw [List.foldlM_cons, List.foldlM_cons, h s x (List.mem_cons_self ..)]
    congr 1
    funext t
    exact ih (fun s x hx => h s x (List.mem_cons_of_mem _ hx)) t

/-- A fold stopped before and after one of its elements. -/
theorem foldlM_split {before after : List α} {x : α} (h : (before ++ x :: after).foldlM f s = .ok t) :
    ∃ s₁ s₂, before.foldlM f s = .ok s₁ ∧ f s₁ x = .ok s₂ ∧ after.foldlM f s₂ = .ok t := by
  rw [List.foldlM_append] at h
  obtain ⟨s₁, hs₁, h⟩ := bind_ok h
  rw [List.foldlM_cons] at h
  obtain ⟨s₂, hs₂, h⟩ := bind_ok h
  exact ⟨s₁, s₂, hs₁, hs₂, h⟩

/-- What every step relates, a fold relates. -/
theorem foldlM_rel {R : σ → σ → Prop} (hrefl : ∀ s, R s s) (htrans : ∀ s t u, R s t → R t u → R s u)
    (hstep : ∀ x ∈ xs, ∀ s t, f s x = .ok t → R s t) (h : xs.foldlM f s = .ok t) : R s t := by
  induction xs generalizing s with
  | nil => exact Except.ok.inj h ▸ hrefl s
  | cons x xs ih =>
    rw [List.foldlM_cons] at h
    obtain ⟨u, hu, h⟩ := bind_ok h
    have hfirst := hstep x (List.mem_cons_self ..) s u hu
    exact htrans s u t hfirst (ih (fun x hx => hstep x (List.mem_cons_of_mem _ hx)) h)

/-- What every step keeps, a fold keeps. -/
theorem foldlM_invariant {I : σ → Prop} (hstep : ∀ x ∈ xs, ∀ s t, I s → f s x = .ok t → I t)
    (h : xs.foldlM f s = .ok t) (hs : I s) : I t :=
  foldlM_rel (R := fun s t => I s → I t) (fun _ => id) (fun _ _ _ h₁ h₂ hs => h₂ (h₁ hs))
    (fun x hx s t h hs => hstep x hx s t hs h) h hs

theorem foldlM_ne_error {e : ε} (h : ∀ x ∈ xs, ∀ s, f s x ≠ .error e) (s : σ) : xs.foldlM f s ≠ .error e := by
  induction xs generalizing s with
  | nil =>
    intro hn
    cases hn
  | cons x xs ih =>
    rw [List.foldlM_cons]
    refine bind_ne_error (h x (List.mem_cons_self ..) s) fun t _ => ?_
    exact ih (fun x hx => h x (List.mem_cons_of_mem _ hx)) t

/-- A fold whose steps keep a property of the state under which they do not fail so. -/
theorem foldlM_ne_error_of_invariant {I : σ → Prop} {e : ε} (hstep : ∀ x ∈ xs, ∀ s t, I s → f s x = .ok t → I t)
    (h : ∀ x ∈ xs, ∀ s, I s → f s x ≠ .error e) (hs : I s) : xs.foldlM f s ≠ .error e := by
  induction xs generalizing s with
  | nil =>
    intro hn
    cases hn
  | cons x xs ih =>
    rw [List.foldlM_cons]
    apply bind_ne_error (h x List.mem_cons_self s hs)
    intro t ht
    exact ih (fun x hx => hstep x (List.mem_cons_of_mem _ hx)) (fun x hx => h x (List.mem_cons_of_mem _ hx))
      (hstep x List.mem_cons_self s t hs ht)

/-- A fold whose steps succeed exactly on the elements with a property, whatever the state. -/
theorem exists_foldlM_ok {I : σ → Prop} {P : α → Prop}
    (hok : ∀ x ∈ xs, ∀ s, I s → P x → ∃ t, f s x = .ok t ∧ I t)
    (herr : ∀ x ∈ xs, ∀ s, I s → ¬P x → ∃ e, f s x = .error e) (hs : I s) :
    (∃ t, xs.foldlM f s = .ok t) ↔ ∀ x ∈ xs, P x := by
  induction xs generalizing s with
  | nil => simp [pure, Except.pure]
  | cons x xs ih =>
    have hx := List.mem_cons_self (a := x) (l := xs)
    have ih := fun s => ih (fun x hx => hok x (List.mem_cons_of_mem _ hx))
      (fun x hx => herr x (List.mem_cons_of_mem _ hx)) (s := s)
    rw [List.foldlM_cons, List.forall_mem_cons]
    by_cases hp : P x
    · obtain ⟨t, ht, hI⟩ := hok x hx s hs hp
      rw [ht]
      exact (ih t hI).trans (and_iff_right hp).symm
    · obtain ⟨e, he⟩ := herr x hx s hs hp
      rw [he]
      constructor
      · rintro ⟨t, ht⟩
        cases ht
      · rintro ⟨h, -⟩
        exact absurd h hp

end Folds

end Results
