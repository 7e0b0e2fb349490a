import Mathlib.Logic.Relation
import Mathlib.Data.List.Pairwise

/-! Programs made of calls on a shared state: run alone, and run in turns with others that may stop at any
point. -/
namespace Interference

/-- A program is a result, or a call and what to do with its answer. -/
inductive Program (ω : Type) (ρ : ω → Type) (α : Type) where
  | done (result : α)
  | call (o : ω) (next : ρ o → Program ω ρ α)

namespace Program

variable {ω : Type} {ρ : ω → Type} {σ α β : Type}

def bind : Program ω ρ α → (α → Program ω ρ β) → Program ω ρ β
  | done a, f => f a
  | call o next, f => call o fun v => (next v).bind f

instance : Monad (Program ω ρ) where
  pure := done
  bind := bind

/-- One call. -/
def perform (o : ω) : Program ω ρ (ρ o) := call o done

/-- The result of a program that runs alone, and the state it leaves. -/
def run (exec : (o : ω) → σ → ρ o × σ) : Program ω ρ α → σ → α × σ
  | done a, s => (a, s)
  | call o next, s => (next (exec o s).1).run exec (exec o s).2

variable (exec : (o : ω) → σ → ρ o × σ)

@[simp] theorem run_done (a : α) (s : σ) : (done a : Program ω ρ α).run exec s = (a, s) := rfl

@[simp] theorem run_pure (a : α) (s : σ) : (pure a : Program ω ρ α).run exec s = (a, s) := rfl

@[simp] theorem run_perform (o : ω) (s : σ) : (perform o : Program ω ρ (ρ o)).run exec s = exec o s := rfl

@[simp] theorem run_bind (p : Program ω ρ α) (f : α → Program ω ρ β) (s : σ) :
    (p >>= f).run exec s = (f (p.run exec s).1).run exec (p.run exec s).2 := by
  change (p.bind f).run exec s = _
  induction p generalizing s with
  | done a => rfl
  | call o next ih => exact ih _ _

@[simp] theorem run_map (p : Program ω ρ α) (f : α → β) (s : σ) :
    (f <$> p).run exec s = (f (p.run exec s).1, (p.run exec s).2) := run_bind exec p (fun a => done (f a)) s

end Program

/-- The shared state, with the requests that were started. -/
structure World (κ σ : Type) where
  started : List κ
  state : σ

/-- Programs for requests, and what their calls may do: return an answer, or change the state on the way
to it. Requests that are not apart never run in one system. -/
structure System (κ ω : Type) (ρ : ω → Type) (σ α : Type) where
  program : κ → Program ω ρ α
  returns : (o : ω) → σ → ρ o → σ → Prop
  goesOn : ω → σ → σ → Prop
  Apart : κ → κ → Prop

variable {κ ω : Type} {ρ : ω → Type} {σ α β : Type}

/-- The running programs, and the results of those that came to their end. -/
structure Pool (κ ω : Type) (ρ : ω → Type) (σ α : Type) where
  world : World κ σ
  running : List (κ × Program ω ρ α)
  returned : List (κ × α)

namespace System

variable (S : System κ ω ρ σ α)

inductive Step : Pool κ ω ρ σ α → Pool κ ω ρ σ α → Prop
  | start (c : Pool κ ω ρ σ α) (r : κ) (h : ∀ q ∈ c.world.started, S.Apart r q ∧ S.Apart q r) :
      Step c { c with
        world := { c.world with started := r :: c.world.started }
        running := (r, S.program r) :: c.running }
  | turn (c : Pool κ ω ρ σ α) {before after : List (κ × Program ω ρ α)} {r : κ} {o : ω}
      {next : ρ o → Program ω ρ α} {v : ρ o} {s : σ} (h : c.running = before ++ (r, .call o next) :: after)
      (hs : S.returns o c.world.state v s) :
      Step c { c with
        world := { c.world with state := s }
        running := before ++ (r, next v) :: after }
  | partly (c : Pool κ ω ρ σ α) {before after : List (κ × Program ω ρ α)} {r : κ} {o : ω}
      {next : ρ o → Program ω ρ α} {s : σ} (h : c.running = before ++ (r, .call o next) :: after)
      (hs : S.goesOn o c.world.state s) :
      Step c { c with world := { c.world with state := s } }
  | finish (c : Pool κ ω ρ σ α) {before after : List (κ × Program ω ρ α)} {r : κ} {a : α}
      (h : c.running = before ++ (r, .done a) :: after) :
      Step c { c with running := before ++ after, returned := (r, a) :: c.returned }
  | crash (c : Pool κ ω ρ σ α) {before after : List (κ × Program ω ρ α)} {r : κ} {p : Program ω ρ α}
      (h : c.running = before ++ (r, p) :: after) :
      Step c { c with running := before ++ after }

/-- Nothing runs and nothing was started. -/
def initial (s : σ) : Pool κ ω ρ σ α := { world := { started := [], state := s }, running := [], returned := [] }

/-- The pools a run from a state gets to. -/
def Reachable (s : σ) : Pool κ ω ρ σ α → Prop := Relation.ReflTransGen S.Step (initial s)

end System

/-- What a program may rely on and must keep: the invariant of the state, what others may do while it
runs, and what it may do itself. -/
structure Contract (κ σ : Type) where
  inv : World κ σ → Prop
  rely : World κ σ → World κ σ → Prop
  guarantee : World κ σ → World κ σ → Prop

variable {p : Program ω ρ α}

namespace Contract

variable (S : System κ ω ρ σ β) (C : Contract κ σ)

/-- A state that one waiting for a call may find: others went on, or the call itself did. -/
def During (o : ω) : World κ σ → World κ σ → Prop :=
  Relation.ReflTransGen fun w w' => C.rely w w' ∨ ∃ s, S.goesOn o w.state s ∧ w' = { w with state := s }

/-- From here on every change keeps the guarantee, and the result is as promised, whatever others do. -/
def Safe (post : α → World κ σ → Prop) : Program ω ρ α → World κ σ → Prop
  | .done a, w => ∀ w', C.inv w' → Relation.ReflTransGen C.rely w w' → post a w'
  | .call o next, w => ∀ w', C.inv w' → C.During S o w w' →
      (∀ s, S.goesOn o w'.state s → C.guarantee w' { w' with state := s }) ∧
      ∀ v s, S.returns o w'.state v s →
        C.guarantee w' { w' with state := s } ∧ Safe post (next v) { w' with state := s }

variable {S C} {post : α → World κ σ → Prop}

theorem Safe.mono {w w' : World κ σ} (h : C.Safe S post p w) (hw : C.rely w w') : C.Safe S post p w' := by
  cases p with
  | done a => exact fun v hv hr => h v hv (.head hw hr)
  | call o next => exact fun v hv hr => h v hv (.head (.inl hw) hr)

variable {w : World κ σ}

theorem Safe.weaken {post' : α → World κ σ → Prop}
    (h : C.Safe S post p w) (hp : ∀ a w, C.inv w → post a w → post' a w) : C.Safe S post' p w := by
  induction p generalizing w with
  | done a => exact fun w' hi hr => hp a w' hi (h w' hi hr)
  | call o next ih =>
    intro w' hi hr
    obtain ⟨hg, hn⟩ := h w' hi hr
    refine ⟨hg, fun v s hs => ?_⟩
    obtain ⟨hgv, hsv⟩ := hn v s hs
    exact ⟨hgv, ih v hsv⟩

/-- A result, promised by a fact that others leave true. -/
theorem Safe.ret {Q : World κ σ → Prop} {a : α} (hq : Q w)
    (hrely : ∀ w w', Q w → C.rely w w' → Q w') (h : ∀ w, C.inv w → Q w → post a w) :
    C.Safe S post (.done a) w := by
  intro w' hi hr
  refine h w' hi ?_
  clear hi
  induction hr with
  | refl => exact hq
  | tail _ hstep ih => exact hrely _ _ ih hstep

/-- A call, made in a state of which a fact is known that others and the call's own partial effects leave
true. -/
theorem Safe.call {Q : World κ σ → Prop} {o : ω} {next : ρ o → Program ω ρ α} (hq : Q w)
    (hrely : ∀ w w', Q w → C.rely w w' → Q w')
    (hown : ∀ w s, Q w → S.goesOn o w.state s → Q { w with state := s })
    (hpart : ∀ w s, C.inv w → Q w → S.goesOn o w.state s → C.guarantee w { w with state := s })
    (hret : ∀ w v s, C.inv w → Q w → S.returns o w.state v s →
      C.guarantee w { w with state := s } ∧ C.Safe S post (next v) { w with state := s }) :
    C.Safe S post (.call o next) w := by
  intro w' hi hr
  have hq' : Q w' := by
    clear hi
    induction hr with
    | refl => exact hq
    | tail _ hstep ih =>
      rcases hstep with hstep | ⟨s, hs, rfl⟩
      · exact hrely _ _ ih hstep
      · exact hown _ s ih hs
  exact ⟨fun s hs => hpart w' s hi hq' hs, fun v s hs => hret w' v s hi hq' hs⟩

/-- Two programs one after the other: the second starts in any state the first may end in. -/
theorem Safe.bind {γ : Type} {post' : γ → World κ σ → Prop} {f : α → Program ω ρ γ}
    (hp : C.Safe S post p w) (hi : C.inv w) (hg : ∀ w w', C.guarantee w w' → C.inv w')
    (hf : ∀ a w, C.inv w → post a w → C.Safe S post' (f a) w) : C.Safe S post' (p >>= f) w := by
  change C.Safe S post' (p.bind f) w
  induction p generalizing w with
  | done a => exact hf a w hi (hp w hi .refl)
  | call o next ih =>
    intro w' hi' hr
    obtain ⟨hgo, hn⟩ := hp w' hi' hr
    refine ⟨hgo, fun v s hs => ?_⟩
    obtain ⟨hgv, hsv⟩ := hn v s hs
    exact ⟨hgv, ih v hsv (hg _ _ hgv)⟩

/-! ### Rules for programs whose calls are atomic -/

variable (S C)

/-- Others leave it true. -/
def Stable (P : World κ σ → Prop) : Prop := ∀ w w', C.inv w → P w → C.rely w w' → P w'

/-- From every state of which `P` is known the program is safe, and `Q` is known of its result. -/
def Triple (P : World κ σ → Prop) (p : Program ω ρ α) (Q : α → World κ σ → Prop) : Prop :=
  ∀ w, C.inv w → P w → C.Safe S Q p w

/-- No call changes the state on the way to its answer, and others keep the invariant. -/
structure Atomic : Prop where
  call : ∀ o s s', ¬S.goesOn o s s'
  others : ∀ w w', C.inv w → C.rely w w' → C.inv w'

variable {S C} {P P' : World κ σ → Prop} {Q Q' : α → World κ σ → Prop}

/-- What others do one after the other keeps the invariant and what is stable. -/
theorem Stable.run (ha : C.Atomic S) (hP : C.Stable P) {w w' : World κ σ} (hi : C.inv w) (h : P w)
    (hr : Relation.ReflTransGen C.rely w w') : C.inv w' ∧ P w' := by
  induction hr with
  | refl => exact ⟨hi, h⟩
  | tail _ hstep ih => exact ⟨ha.others _ _ ih.1 hstep, hP _ _ ih.1 ih.2 hstep⟩

theorem Stable.and (hP : C.Stable P) (hP' : C.Stable P') : C.Stable fun w => P w ∧ P' w :=
  fun w w' hi h hr => ⟨hP w w' hi h.1 hr, hP' w w' hi h.2 hr⟩

theorem Stable.imp (hP : C.Stable P) (R : Prop) : C.Stable fun w => R → P w :=
  fun w w' hi h hr hR => hP w w' hi (h hR) hr

theorem stable_const (R : Prop) : C.Stable fun _ => R := fun _ _ _ h _ => h

theorem Triple.ret (ha : C.Atomic S) {a : α} (hP : C.Stable P) (h : ∀ w, C.inv w → P w → Q a w) :
    C.Triple S P (pure a : Program ω ρ α) Q := by
  intro w hi hw w' hi' hr
  exact h w' hi' (hP.run ha hi hw hr).2

theorem Triple.perform (ha : C.Atomic S) {o : ω} {R : ρ o → World κ σ → Prop} (hP : C.Stable P)
    (hR : ∀ v, C.Stable (R v))
    (h : ∀ w v s, C.inv w → P w → S.returns o w.state v s →
      C.guarantee w { w with state := s } ∧ C.inv { w with state := s } ∧ R v { w with state := s }) :
    C.Triple S P (Program.perform o) R := by
  intro w hi hw w' hi' hr
  -- nothing but what others do happens before the answer
  have hcalm : Relation.ReflTransGen C.rely w w' := by
    clear hi'
    induction hr with
    | refl => exact .refl
    | tail _ hstep ih =>
      rcases hstep with hstep | ⟨s, hs, -⟩
      · exact .tail ih hstep
      · exact absurd hs (ha.call _ _ _)
  have hw' := (hP.run ha hi hw hcalm).2
  refine ⟨fun s hs => absurd hs (ha.call _ _ _), fun v s hs => ?_⟩
  obtain ⟨hg, hinv, hpost⟩ := h w' v s hi' hw' hs
  exact ⟨hg, fun w'' _ hr' => ((hR v).run ha hinv hpost hr').2⟩

theorem Triple.bind {γ : Type} {R : γ → World κ σ → Prop} {f : α → Program ω ρ γ}
    (hg : ∀ w w', C.guarantee w w' → C.inv w') (hp : C.Triple S P p Q) (hf : ∀ a, C.Triple S (Q a) (f a) R) :
    C.Triple S P (p >>= f) R :=
  fun w hi hw => (hp w hi hw).bind hi hg fun a w' hi' hq => hf a w' hi' hq

theorem Triple.weaken (h : C.Triple S P p Q) (hP : ∀ w, C.inv w → P' w → P w)
    (hQ : ∀ a w, C.inv w → Q a w → Q' a w) : C.Triple S P' p Q' :=
  fun w hi hw => (h w hi (hP w hi hw)).weaken hQ

end Contract

namespace System

variable (S : System κ ω ρ σ α)

/-- The contract of a request: an invariant, and a rely that everyone apart from the request keeps. -/
def contract (inv : World κ σ → Prop) (rely : κ → World κ σ → World κ σ → Prop) (r : κ) : Contract κ σ where
  inv := inv
  rely := rely r
  guarantee w w' := inv w' ∧ ∀ q, S.Apart r q → rely q w w'

/-- Programs that are safe when started, with a promise on their results that later starts leave true. -/
structure Safe (inv : World κ σ → Prop) (rely : κ → World κ σ → World κ σ → Prop)
    (promise : κ → α → List κ → Prop) : Prop where
  start_inv : ∀ r w, inv w → inv { w with started := r :: w.started }
  start_rely : ∀ r q w, rely q w { w with started := r :: w.started }
  start_promise : ∀ r q a started, promise q a started → promise q a (r :: started)
  program : ∀ r w, inv w → r ∈ w.started →
    (S.contract inv rely r).Safe S (fun a w => promise r a w.started) (S.program r) w

/-- What a run keeps: every running program is safe, and no two of them touch one another. -/
structure Kept (inv : World κ σ → Prop) (rely : κ → World κ σ → World κ σ → Prop)
    (promise : κ → α → List κ → Prop) (c : Pool κ ω ρ σ α) : Prop where
  holds : inv c.world
  apart : c.running.Pairwise fun e e' => S.Apart e.1 e'.1 ∧ S.Apart e'.1 e.1
  started : ∀ e ∈ c.running, e.1 ∈ c.world.started
  safe : ∀ e ∈ c.running,
    (S.contract inv rely e.1).Safe S (fun a w => promise e.1 a w.started) e.2 c.world
  promised : ∀ e ∈ c.returned, promise e.1 e.2 c.world.started

variable {S} {inv : World κ σ → Prop} {rely : κ → World κ σ → World κ σ → Prop}
  {promise : κ → α → List κ → Prop} {c c' : Pool κ ω ρ σ α}

/-- A change by one running program leaves the others safe. -/
theorem Kept.others {before after : List (κ × Program ω ρ α)} {r : κ} {s : σ}
    (h : S.Kept inv rely promise c) (hc : c.running = before ++ (r, p) :: after)
    (hg : (S.contract inv rely r).guarantee c.world { c.world with state := s }) :
    ∀ e ∈ before ++ after, (S.contract inv rely e.1).Safe S (fun a w => promise e.1 a w.started) e.2
      { c.world with state := s } := by
  intro e he
  have hp := h.apart
  rw [hc, List.pairwise_append, List.pairwise_cons] at hp
  obtain ⟨-, ⟨hr, -⟩, hb⟩ := hp
  have hapart : S.Apart r e.1 := by
    rcases List.mem_append.mp he with he | he
    · exact (hb e he (r, p) (List.mem_cons_self ..)).2
    · exact (hr e he).1
  have hmem : e ∈ c.running := by
    rw [hc]
    rcases List.mem_append.mp he with he | he
    · exact List.mem_append_left _ he
    · exact List.mem_append_right _ (List.mem_cons_of_mem _ he)
  exact (h.safe e hmem).mono (hg.2 e.1 hapart)

theorem Kept.split {before after : List (κ × Program ω ρ α)} {r : κ}
    (hc : c.running = before ++ (r, p) :: after) (h : S.Kept inv rely promise c) :
    r ∈ c.world.started ∧
      (S.contract inv rely r).Safe S (fun a w => promise r a w.started) p c.world := by
  have hm : (r, p) ∈ c.running := by simp [hc]
  exact ⟨h.started _ hm, h.safe _ hm⟩

theorem Kept.step (hS : S.Safe inv rely promise) (h : S.Kept inv rely promise c) (hstep : S.Step c c') :
    S.Kept inv rely promise c' := by
  cases hstep with
  | start r hr =>
    have hi := hS.start_inv r c.world h.holds
    refine ⟨hi, ?_, ?_, ?_, fun e he => hS.start_promise r e.1 e.2 _ (h.promised e he)⟩
    · rw [List.pairwise_cons]
      exact ⟨fun e he => hr e.1 (h.started e he), h.apart⟩
    · intro e he
      rcases List.mem_cons.mp he with rfl | he
      · exact List.mem_cons_self ..
      · exact List.mem_cons_of_mem _ (h.started e he)
    · intro e he
      rcases List.mem_cons.mp he with rfl | he
      · exact hS.program r _ hi (List.mem_cons_self ..)
      · exact (h.safe e he).mono (hS.start_rely r e.1 c.world)
  | @turn before after r o next v s hc hs =>
    obtain ⟨hr, hsafe⟩ := h.split hc
    obtain ⟨hg, hn⟩ := (hsafe c.world h.holds .refl).2 v s hs
    have hothers := h.others hc hg
    have hp := h.apart
    have hst := h.started
    rw [hc] at hp hst
    refine ⟨hg.1, ?_, ?_, ?_, h.promised⟩
    · rw [List.pairwise_append, List.pairwise_cons] at hp ⊢
      exact ⟨hp.1, ⟨hp.2.1.1, hp.2.1.2⟩, fun e he e' he' => by
        rcases List.mem_cons.mp he' with rfl | he'
        · exact hp.2.2 e he (r, .call o next) (List.mem_cons_self ..)
        · exact hp.2.2 e he e' (List.mem_cons_of_mem _ he')⟩
    · intro e he
      rcases List.mem_append.mp he with he | he
      · exact hst e (List.mem_append_left _ he)
      · rcases List.mem_cons.mp he with rfl | he
        · exact hr
        · exact hst e (List.mem_append_right _ (List.mem_cons_of_mem _ he))
    · intro e he
      rcases List.mem_append.mp he with he | he
      · exact hothers e (List.mem_append_left _ he)
      · rcases List.mem_cons.mp he with rfl | he
        · exact hn
        · exact hothers e (List.mem_append_right _ he)
  | @partly before after r o next s hc hs =>
    obtain ⟨-, hsafe⟩ := h.split hc
    have hg := (hsafe c.world h.holds .refl).1 s hs
    have hothers := h.others hc hg
    refine ⟨hg.1, h.apart, h.started, ?_, h.promised⟩
    intro e he
    rw [hc] at he
    rcases List.mem_append.mp he with he | he
    · exact hothers e (List.mem_append_left _ he)
    · rcases List.mem_cons.mp he with rfl | he
      · exact fun w' hi hd => hsafe w' hi (.head (.inr ⟨s, hs, rfl⟩) hd)
      · exact hothers e (List.mem_append_right _ he)
  | @finish before after r a hc =>
    obtain ⟨-, hsafe⟩ := h.split hc
    have hsub : (before ++ after).Sublist c.running := by
      rw [hc]
      exact (List.sublist_cons_self _ _).append_left _
    refine ⟨h.holds, h.apart.sublist hsub, fun e he => h.started e (hsub.subset he),
      fun e he => h.safe e (hsub.subset he), ?_⟩
    intro e he
    rcases List.mem_cons.mp he with rfl | he
    · exact hsafe c.world h.holds .refl
    · exact h.promised e he
  | @crash before after r p hc =>
    have hsub : (before ++ after).Sublist c.running := by
      rw [hc]
      exact (List.sublist_cons_self _ _).append_left _
    exact ⟨h.holds, h.apart.sublist hsub, fun e he => h.started e (hsub.subset he),
      fun e he => h.safe e (hsub.subset he), h.promised⟩

/-- Whatever the order of the steps, the invariant holds and every result is as promised. -/
theorem reachable_kept (hS : S.Safe inv rely promise) {s : σ} (hs : inv { started := [], state := s })
    (h : S.Reachable s c) : S.Kept inv rely promise c := by
  induction h with
  | refl =>
    exact ⟨hs, .nil, nofun, nofun, nofun⟩
  | tail _ hstep ih => exact ih.step hS hstep

end System

end Interference
