import Krusty.Lsp.OutputQueue

/-! What the client was handed, in every order of the two threads' steps. -/
namespace Krusty.Lsp.Output

open Interference

/-! ### The invariant -/

/-- What the client has yet to get of the accepted frames. -/
def State.unsent (s : State) : List UInt8 :=
  s.hand.drop s.sent ++ s.channel.flatten ++ s.queue.pending.flatten

/-- The bytes of the frames that were not written out and counted. -/
def State.staged (s : State) : ℕ := s.hand.length + s.channel.flatten.length + s.queue.pending.flatten.length

/-- The writer came out of its loop. -/
def Phase.left : Phase → Bool
  | .leaving | .finished | .ended => true
  | _ => false

/-- The counter is the bytes of the frames, as long as no frame was taken off it that stays pending. -/
def State.Exact (s : State) : Prop := s.held = s.staged

structure Inv (limits : Limits) (s : State) : Prop where
  parts : s.output ++ s.unsent = s.accepted.flatten
  within : s.sent ≤ s.hand.length
  fits : s.staged ≤ limits.stagedLimit
  covered : s.hand.length + s.channel.flatten.length ≤ s.held
  exact : s.queue.failed = none → s.Exact
  counted : s.underflowed = false
  waiting : s.phase = .waiting → s.hand = []
  written : s.phase = .written → s.sent = s.hand.length
  left : s.phase.left → s.writerError = none → s.hand = [] ∧ s.channel = [] ∧ s.queue.tx = false
  signal : s.done = true → s.phase = .finished ∨ s.phase = .ended

variable {limits : Limits} {s s' : State}

theorem Inv.initial (limits : Limits) : Inv limits .initial where
  parts := rfl
  within := le_rfl
  fits := Nat.zero_le _
  covered := le_rfl
  exact _ := rfl
  counted := rfl
  waiting _ := rfl
  written h := by cases h
  left h := by cases h
  signal h := by cases h

theorem Inv.output_begins (h : Inv limits s) : s.output <+: s.accepted.flatten := ⟨s.unsent, h.parts⟩

theorem Inv.bounded (h : Inv limits s) : s.accepted.flatten.length - s.output.length ≤ limits.stagedLimit := by
  have hparts := congrArg List.length h.parts
  have hfits := h.fits
  simp only [State.unsent, State.staged, List.length_append, List.length_drop] at hparts hfits
  omega

theorem Inv.allWritten (h : Inv limits s) (hu : s.unsent = []) : s.AllWritten := by
  have hparts := h.parts
  rwa [hu, List.append_nil] at hparts

/-! ### The writer's steps -/

/-- What one move of the writer does, and when it can be made. -/
inductive WriterStep : State → State → Prop
  | receive (s : State) {frame : Frame} {rest : List Frame} (hp : s.phase = .waiting)
      (hc : s.channel = frame :: rest) :
      WriterStep s { s with channel := rest, hand := frame, sent := 0, phase := .writing }
  | closed (s : State) (hp : s.phase = .waiting) (hc : s.channel = []) (ht : s.queue.tx = false) :
      WriterStep s { s with phase := .leaving }
  | put (s : State) {n : ℕ} (hp : s.phase = .writing) (hn : s.sent + n ≤ s.hand.length) :
      WriterStep s { s with output := s.output ++ (s.hand.drop s.sent).take n, sent := s.sent + n }
  | flush (s : State) (hp : s.phase = .writing) (hs : s.sent = s.hand.length) :
      WriterStep s { s with phase := .written }
  | fail (s : State) (message : String) (hp : s.phase = .writing) :
      WriterStep s { s with phase := .failing message }
  | count (s : State) (hp : s.phase = .written) :
      WriterStep s { s.release s.hand.length with hand := [], sent := 0, phase := .waiting }
  | record (s : State) {message : String} (hp : s.phase = .failing message) :
      WriterStep s { s with writerError := some message, phase := .leaving }
  | signal (s : State) (hp : s.phase = .leaving) : WriterStep s { s with done := true, phase := .finished }
  | leave (s : State) (hp : s.phase = .finished) : WriterStep s { s with phase := .ended }
  | panic (s : State) (hp : s.phase = .writing) : WriterStep s { s with phase := .panicked }

theorem writerStep_of_writer {move : WriterMove} (h : s.writer move = some s') : WriterStep s s' := by
  unfold State.writer at h
  split at h
  · next hp =>
    split at h
    · cases h
    · next hc =>
      obtain rfl := Option.some.inj h
      exact .receive s hp hc
  · next hp =>
    split at h
    · next hc =>
      obtain rfl := Option.some.inj h
      rw [Bool.and_eq_true, List.isEmpty_iff, Bool.not_eq_true'] at hc
      exact .closed s hp hc.1 hc.2
    · cases h
  · next hp =>
    split at h
    · next hn =>
      obtain rfl := Option.some.inj h
      exact .put s hp hn.2
    · cases h
  · next hp =>
    split at h
    · next hs =>
      obtain rfl := Option.some.inj h
      exact .flush s hp hs
    · cases h
  · next hp =>
    obtain rfl := Option.some.inj h
    exact .fail s _ hp
  · next hp =>
    obtain rfl := Option.some.inj h
    exact .count s hp
  · next hp =>
    obtain rfl := Option.some.inj h
    exact .record s hp
  · next hp =>
    obtain rfl := Option.some.inj h
    exact .signal s hp
  · next hp =>
    obtain rfl := Option.some.inj h
    exact .leave s hp
  · next hp =>
    obtain rfl := Option.some.inj h
    exact .panic s hp
  · cases h

theorem WriterStep.queue (h : WriterStep s s') : s'.queue = s.queue := by cases h <;> rfl

theorem WriterStep.accepted (h : WriterStep s s') : s'.accepted = s.accepted := by cases h <;> rfl

theorem WriterStep.output (h : WriterStep s s') : s.output <+: s'.output := by
  cases h with
  | put => exact List.prefix_append _ _
  | _ => exact List.prefix_rfl

/-- The writer does nothing more once its receiver is gone. -/
theorem WriterStep.not_gone (h : WriterStep s s') : s.phase.gone = false := by
  cases h with
  | receive hp | closed hp | put hp | flush hp | fail _ hp | count hp | record hp | signal hp | leave hp
  | panic hp => rw [hp]; rfl

theorem WriterStep.writerError (h : WriterStep s s') (he : s.writerError.isSome) : s'.writerError.isSome := by
  cases h with
  | record => rfl
  | _ => exact he

theorem WriterStep.exact (hi : Inv limits s) (h : WriterStep s s') (he : s.Exact) : s'.Exact := by
  unfold State.Exact State.staged at he ⊢
  cases h with
  | receive hp hc =>
    have hhand := hi.waiting hp
    simp only [hhand, hc, List.flatten_cons, List.length_append, List.length_nil] at he ⊢
    omega
  | count =>
    simp only [State.release, List.length_nil]
    omega
  | _ => exact he

theorem Inv.not_done {phase : Phase} (hi : Inv limits s) (hp : s.phase = phase) (hf : phase ≠ .finished)
    (he : phase ≠ .ended) : s.done ≠ true := by
  intro hd
  rcases hi.signal hd with h | h
  · exact hf (hp.symm.trans h)
  · exact he (hp.symm.trans h)

/-- A step that moves nothing: only the writer's phase, its error and its signal change. -/
theorem Inv.turned {phase : Phase} {writerError : Option String} {done : Bool} (hi : Inv limits s)
    (hwaiting : phase ≠ .waiting) (hwritten : phase = .written → s.sent = s.hand.length)
    (hleft : phase.left → writerError = none → s.hand = [] ∧ s.channel = [] ∧ s.queue.tx = false)
    (hsignal : done = true → phase = .finished ∨ phase = .ended) :
    Inv limits { s with phase := phase, writerError := writerError, done := done } :=
  { hi with
    waiting := fun h => absurd h hwaiting
    written := hwritten
    left := hleft
    signal := hsignal }

theorem Inv.writer (hi : Inv limits s) (h : WriterStep s s') : Inv limits s' := by
  have hparts := hi.parts
  have hfits := hi.fits
  have hcovered := hi.covered
  cases h with
  | receive hp hc =>
    have hhand := hi.waiting hp
    simp only [State.unsent, State.staged, hhand, hc, List.flatten_cons, List.drop_nil, List.nil_append,
      List.length_append, List.length_nil] at hparts hfits hcovered
    exact {
      parts := by simpa [State.unsent] using hparts
      within := Nat.zero_le _
      fits := by simpa only [State.staged] using (by omega)
      covered := by simpa only using (by omega)
      exact := fun hf => (WriterStep.receive s hp hc).exact hi (hi.exact hf)
      counted := hi.counted
      waiting := fun h => by cases h
      written := fun h => by cases h
      left := fun h => by cases h
      signal := fun h => absurd h (hi.not_done hp (by simp) (by simp)) }
  | closed hp hc ht =>
    exact hi.turned (by simp) (fun h => by cases h) (fun _ _ => ⟨hi.waiting hp, hc, ht⟩)
      fun h => absurd h (hi.not_done hp (by simp) (by simp))
  | @put n hp hn =>
    exact { hi with
      parts := by
        rw [← hparts]
        simp only [State.unsent, List.append_assoc, ← List.drop_drop]
        rw [← List.append_assoc (List.take _ _), List.take_append_drop]
      within := hn
      waiting := hi.waiting
      written := fun h => by simp [hp] at h }
  | flush hp hs =>
    exact hi.turned (by simp) (fun _ => hs) (fun h => by cases h)
      fun h => absurd h (hi.not_done hp (by simp) (by simp))
  | fail _ hp | panic hp =>
    exact hi.turned (by simp) (fun h => by cases h) (fun h => by cases h)
      fun h => absurd h (hi.not_done hp (by simp) (by simp))
  | count hp =>
    have hsent := hi.written hp
    have hle : s.hand.length ≤ s.held := by omega
    exact {
      parts := by simpa [State.unsent, State.release, hsent] using hparts
      within := le_rfl
      fits := by
        simp only [State.staged, State.release, List.length_nil] at hfits ⊢
        omega
      covered := by
        simp only [State.release, List.length_nil]
        omega
      exact := fun hf => (WriterStep.count s hp).exact hi (hi.exact hf)
      counted := by simpa [State.release, hi.counted] using hle
      waiting := fun _ => rfl
      written := fun h => by cases h
      left := fun h => by cases h
      signal := fun h => absurd h (hi.not_done hp (by simp) (by simp)) }
  | record hp =>
    exact hi.turned (by simp) (fun h => by cases h) (fun _ h => by cases h)
      fun h => absurd h (hi.not_done hp (by simp) (by simp))
  | signal hp =>
    exact hi.turned (by simp) (fun h => by cases h) (fun _ h => hi.left (by rw [hp]; rfl) h) fun _ => .inl rfl
  | leave hp =>
    exact hi.turned (by simp) (fun h => by cases h) (fun _ h => hi.left (by rw [hp]; rfl) h) fun _ => .inr rfl

/-! ### The server's steps -/

/-- A change of what the server's thread owns keeps the invariant, if it keeps the pending frames, does not
forget a failure and makes no new sender. -/
theorem Inv.update {f : Queue → Queue} (hi : Inv limits s) (hpending : (f s.queue).pending = s.queue.pending)
    (hfailed : (f s.queue).failed = none → s.queue.failed = none)
    (htx : s.queue.tx = false → (f s.queue).tx = false) : Inv limits { s with queue := f s.queue } where
  parts := by
    have hparts := hi.parts
    rwa [State.unsent, ← hpending] at hparts
  within := hi.within
  fits := by
    have hfits := hi.fits
    rwa [State.staged, ← hpending] at hfits
  covered := hi.covered
  exact h := by
    have hexact := hi.exact (hfailed h)
    rwa [State.Exact, State.staged, ← hpending] at hexact
  counted := hi.counted
  waiting := hi.waiting
  written := hi.written
  left hl he := by
    obtain ⟨hhand, hchannel, ht⟩ := hi.left hl he
    exact ⟨hhand, hchannel, htx ht⟩
  signal := hi.signal

theorem Inv.reserve {frame : Frame} (hi : Inv limits s) (hf : s.queue.failed = none) :
    Inv limits (s.reserve limits frame).2 := by
  rw [State.reserve]
  split
  · exact hi
  next hfit =>
    have hexact := hi.exact hf
    have hcovered := hi.covered
    simp only [State.Exact, State.staged] at hexact
    exact { hi with
      parts := by
        rw [List.flatten_append, ← hi.parts]
        simp [State.unsent]
      fits := by
        simp only [State.staged, List.flatten_append, List.length_append, List.flatten_singleton]
        omega
      covered := by
        dsimp only
        omega
      exact := fun _ => by
        simp only [State.Exact, State.staged, List.flatten_append, List.length_append, List.flatten_singleton]
        omega }

/-- What one round of `pump` does to an open queue whose counter is exact. -/
theorem trySend_cases (hi : Inv limits s) (he : s.Exact) (ht : s.queue.tx = true) :
    Inv limits (s.trySend limits).2 ∧
      match (s.trySend limits).1 with
      | .disconnected _ => (s.trySend limits).2.queue.failed ≠ none ∧
          (s.trySend limits).2.queue.tx = s.queue.tx ∧ (s.trySend limits).2.queue.join = s.queue.join
      | _ => (s.trySend limits).2.Exact ∧
          (s.trySend limits).2.queue.tx = s.queue.tx ∧ (s.trySend limits).2.queue.join = s.queue.join := by
  rw [State.trySend]
  cases hp : s.queue.pending with
  | nil => exact ⟨hi, he, rfl, rfl⟩
  | cons frame rest =>
    have hexact := he
    have hparts := hi.parts
    have hfits := hi.fits
    simp only [State.Exact, State.staged, hp, List.flatten_cons, List.length_append] at hexact hfits
    simp only [State.unsent, hp, List.flatten_cons] at hparts
    dsimp only
    split
    · refine ⟨?_, by simp, rfl, rfl⟩
      exact { hi with
        parts := by simpa [State.unsent, State.release, hp] using hparts
        fits := by
          simp only [State.staged, State.release, hp, List.flatten_cons, List.length_append]
          omega
        covered := by
          simp only [State.release]
          omega
        exact := fun h => by simp at h
        counted := by
          simp only [State.release, hi.counted, Bool.false_or, decide_eq_false_iff_not]
          omega
        left := hi.left }
    · split
      · refine ⟨?_, ?_, rfl, rfl⟩
        · exact { hi with
            parts := by simpa [State.unsent] using hparts
            fits := by
              simp only [State.staged, List.flatten_append, List.length_append, List.flatten_singleton]
              omega
            covered := by
              simp only [List.flatten_append, List.length_append, List.flatten_singleton]
              omega
            exact := fun _ => by
              simp only [State.Exact, State.staged, List.flatten_append, List.length_append,
                List.flatten_singleton]
              omega
            left := fun hl herr => by
              -- a writer that left without an error found no sender
              have hnone := (hi.left hl herr).2.2
              simp [ht] at hnone }
        · simp only [State.Exact, State.staged, List.flatten_append, List.length_append,
            List.flatten_singleton]
          omega
      · exact ⟨hi, he, rfl, rfl⟩

/-! ### The calls, in turns with the writer -/

/-- A step that learns of the writer's end learns of it with an error known, or with nothing pending and no
panic. -/
def State.sound (s : State) : Access → Bool
  | .received => !s.signalled || s.queue.failed.isSome || s.writerError.isSome ||
      (s.queue.pending.isEmpty && s.phase != .panicked)
  | _ => true

/-- The server's steps, all of them sound where that is asked for. -/
def system (limits : Limits) (guarded : Bool) : System Call Access Access.Answer State Reply where
  program := program limits
  returns a s v s' := (guarded = true → s.sound a = true) ∧ ∃ early, s.access limits early a = some (v, s')
  goesOn _ _ _ := False
  Apart _ _ := False

def contract (limits : Limits) : Contract Call State where
  inv w := Inv limits w.state
  rely w w' := WriterStep w.state w'.state
  guarantee _ w' := Inv limits w'.state

variable {guarded : Bool} {α β : Type} {P R : State → Prop} {Q : α → State → Prop}

theorem atomic (limits : Limits) (guarded : Bool) : (contract limits).Atomic (system limits guarded) where
  call _ _ _ h := h
  others _ _ hi h := Inv.writer hi h

/-- The writer leaves it true. -/
abbrev Stable (limits : Limits) (P : State → Prop) : Prop := (contract limits).Stable fun w => P w.state

/-- Called in a state of which `P` is known, the program ends in one of which `Q` is. -/
abbrev Holds (limits : Limits) (guarded : Bool) (P : State → Prop) (p : Calls α) (Q : α → State → Prop) : Prop :=
  (contract limits).Triple (system limits guarded) (fun w => P w.state) p fun a w => Q a w.state

theorem holds_access {a : Access} {Q : a.Answer → State → Prop} (hP : Stable limits P)
    (hQ : ∀ v, Stable limits (Q v))
    (h : ∀ s v s' early, Inv limits s → P s → (guarded = true → s.sound a = true) →
      s.access limits early a = some (v, s') → Inv limits s' ∧ Q v s') :
    Holds limits guarded P (Program.perform a) Q := by
  refine Contract.Triple.perform (atomic limits guarded) hP hQ fun w v s hi hw hr => ?_
  obtain ⟨hsound, early, ha⟩ := hr
  have hpost := h w.state v s early hi hw hsound ha
  exact ⟨hpost.1, hpost⟩

theorem holds_ret {a : α} (hP : Stable limits P) (h : ∀ s, Inv limits s → P s → Q a s) :
    Holds limits guarded P (pure a) Q :=
  Contract.Triple.ret (atomic limits guarded) hP fun w hi hw => h w.state hi hw

theorem holds_bind {p : Calls α} {f : α → Calls β} {Q' : β → State → Prop} (hp : Holds limits guarded P p Q)
    (hf : ∀ a, Holds limits guarded (Q a) (f a) Q') : Holds limits guarded P (p >>= f) Q' :=
  Contract.Triple.bind (fun _ _ h => h) hp hf

theorem Holds.weaken {p : Calls α} {P' : State → Prop} {Q' : α → State → Prop}
    (h : Holds limits guarded P p Q) (hP : ∀ s, Inv limits s → P' s → P s)
    (hQ : ∀ a s, Inv limits s → Q a s → Q' a s) : Holds limits guarded P' p Q' :=
  Contract.Triple.weaken h (fun w => hP w.state) fun a w => hQ a w.state

/-! ### What the writer leaves true -/

theorem stable_queue (P : Queue → Prop) : Stable limits fun s => P s.queue := by
  intro w w' _ h hr
  change P w'.state.queue
  rwa [WriterStep.queue hr]

theorem stable_exact : Stable limits State.Exact := fun _ _ hi h hr => WriterStep.exact hi hr h

theorem stable_allWritten : Stable limits State.AllWritten := by
  intro w w' hi h hr
  have hnext := (Inv.writer hi hr).output_begins
  have hgrown := WriterStep.output hr
  have haccepted := WriterStep.accepted hr
  have hall : w.state.output = w.state.accepted.flatten := h
  change w'.state.output = w'.state.accepted.flatten
  rw [haccepted, ← hall] at hnext ⊢
  exact (hgrown.eq_of_length_le hnext.length_le).symm

theorem stable_gone (P : State → Prop) : Stable limits fun s => s.phase.gone = true ∧ P s := by
  intro w w' _ h hr
  exact absurd h.1 (by simp [WriterStep.not_gone hr])

/-- A step that answers true once the writer's end can be told has nothing left of the writer but its last
step. -/
theorem WriterStep.of_signalled (hi : Inv limits s) (hs : s.signalled = true) (h : WriterStep s s') :
    s' = { s with phase := .ended } := by
  have hd : s.done = true := by simpa [State.signalled, h.not_gone] using hs
  have hp : s.phase = .finished := by
    rcases hi.signal hd with hp | hp
    · exact hp
    · exact absurd h.not_gone (by simp [hp, Phase.gone])
  cases h with
  | leave => rfl
  | receive hp' | closed hp' | put hp' | flush hp' | fail _ hp' | count hp' | record hp' | signal hp' | panic hp' =>
    rw [hp] at hp'
    cases hp'

/-! ### Reading and changing what the server owns -/

theorem holds_ownQueue (hP : Stable limits P) : Holds limits guarded P ownQueue fun q s => P s ∧ s.queue = q := by
  refine holds_access hP (fun q => hP.and (stable_queue fun q' => q' = q)) fun s v s' early hi h _ ha => ?_
  obtain ⟨rfl, rfl⟩ := Prod.mk.inj (Option.some.inj ha)
  exact ⟨hi, h, rfl⟩

theorem holds_update {f : Queue → Queue} (hP : Stable limits P) (hR : Stable limits R)
    (hpending : ∀ q, (f q).pending = q.pending) (hfailed : ∀ q, (f q).failed = none → q.failed = none)
    (htx : ∀ q, q.tx = false → (f q).tx = false) (h : ∀ s, P s → R { s with queue := f s.queue }) :
    Holds limits guarded P (update f) fun _ => R := by
  refine holds_access hP (fun _ => hR) fun s v s' early hi hs _ ha => ?_
  obtain ⟨-, rfl⟩ := Prod.mk.inj (Option.some.inj ha)
  exact ⟨hi.update (hpending _) (hfailed _) (htx _), h s hs⟩

/-- A program that is never reached. -/
theorem holds_of_false {p : Calls α} (h : ∀ s, ¬P s) : Holds limits guarded P p Q :=
  fun w _ hw => absurd hw (h w.state)

/-- That the queue fails leaves it true. -/
def KeptByFailure (P : State → Prop) : Prop :=
  ∀ s message, P s → P { s with queue := { s.queue with failed := some message } }

theorem holds_fail {message : String} (hP : Stable limits P) (hk : KeptByFailure P) :
    Holds limits guarded P (fail message) fun r s => P s ∧ r ≠ .ok () := by
  refine holds_bind (Q := fun _ => P) ?_ fun _ => holds_ret hP fun s _ h => ⟨h, by simp⟩
  exact holds_update hP hP (fun _ => rfl) (fun _ h => by cases h) (fun _ h => h) fun s h => hk s message h

/-- A poll that finds no failure proves what follows from there being none. -/
theorem holds_poll {E : State → Prop} (hP : Stable limits P) (hE : Stable limits E) (hk : KeptByFailure P)
    (h : ∀ s, Inv limits s → P s → s.queue.failed = none → s.writerError = none → E s) :
    Holds limits guarded P pollWriterFailure fun r s => P s ∧ (r = .ok () → E s) := by
  refine holds_bind (holds_ownQueue hP) fun q => ?_
  have hq : Stable limits fun s => P s ∧ s.queue = q := hP.and (stable_queue fun q' => q' = q)
  cases hf : q.failed with
  | some message => exact holds_ret hq fun s _ hs => ⟨hs.1, fun h => by cases h⟩
  | none =>
    refine holds_bind (Q := fun v s => P s ∧ (v = none → E s)) ?_ fun v => ?_
    · refine holds_access hq (fun v => hP.and (hE.imp _)) fun s v s' early hi hs _ ha => ?_
      obtain ⟨rfl, rfl⟩ := Prod.mk.inj (Option.some.inj ha)
      exact ⟨hi, hs.1, h s hi hs.1 (by rw [hs.2, hf])⟩
    · cases v with
      | some message =>
        refine (holds_fail hP hk).weaken (fun s _ hs => hs.1) fun r s _ hs => ⟨hs.1, fun h => absurd h hs.2⟩
      | none => exact holds_ret (hP.and (hE.imp _)) fun s _ hs => ⟨hs.1, fun _ => hs.2 rfl⟩

/-! ### Calls on an open queue -/

/-- No shutdown has got to the point where it drops the sender. -/
def Open (s : State) : Prop := s.queue.tx = true ∧ s.queue.join = true

theorem stable_open : Stable limits Open := stable_queue fun q => q.tx = true ∧ q.join = true

/-- An open queue whose counter is exact. -/
def Ready (s : State) : Prop := Open s ∧ s.Exact

theorem stable_ready : Stable limits Ready := stable_open.and stable_exact

theorem keptByFailure_open : KeptByFailure Open := fun _ _ h => h

theorem keptByFailure_ready : KeptByFailure Ready := fun _ _ h => h

theorem holds_poll_open :
    Holds limits guarded Open pollWriterFailure fun r s => Open s ∧ (r = .ok () → s.Exact) :=
  holds_poll stable_open stable_exact keptByFailure_open fun _ hi _ hf _ => hi.exact hf

theorem holds_trySend : Holds limits guarded Ready trySend fun v s =>
    Open s ∧ ((∀ message, v ≠ .disconnected message) → s.Exact) := by
  refine holds_access stable_ready (fun v => stable_open.and (stable_exact.imp _)) fun s v s' early hi h _ ha => ?_
  obtain ⟨hinv, hcases⟩ := trySend_cases hi h.2 h.1.1
  have heq : s.trySend limits = (v, s') := Option.some.inj ha
  rw [heq] at hinv hcases
  obtain ⟨ht, hj⟩ := h.1
  cases v with
  | disconnected message =>
    exact ⟨hinv, ⟨hcases.2.1.trans ht, hcases.2.2.trans hj⟩, fun hne => absurd rfl (hne message)⟩
  | nothing | sent | full => exact ⟨hinv, ⟨hcases.2.1.trans ht, hcases.2.2.trans hj⟩, fun _ => hcases.1⟩

theorem holds_handOn (n : ℕ) :
    Holds limits guarded Ready (handOn n) fun r s => Open s ∧ (r = .ok () → s.Exact) := by
  induction n with
  | zero => exact holds_ret stable_ready fun s _ h => ⟨h.1, fun _ => h.2⟩
  | succ n ih =>
    refine holds_bind holds_trySend fun v => ?_
    have hv : Stable limits fun s => Open s ∧ ((∀ message, v ≠ .disconnected message) → s.Exact) :=
      stable_open.and (stable_exact.imp _)
    cases v with
    | sent => exact ih.weaken (fun s _ h => ⟨h.1, h.2 (by simp)⟩) fun r s _ h => h
    | nothing | full => exact holds_ret hv fun s _ h => ⟨h.1, fun _ => h.2 (by simp)⟩
    | disconnected message => exact holds_ret hv fun s _ h => ⟨h.1, fun h => by cases h⟩

theorem holds_pump : Holds limits guarded Ready pump fun r s => Open s ∧ (r = .ok () → s.Exact) := by
  refine holds_bind (holds_ownQueue stable_ready) fun q => ?_
  cases ht : q.tx with
  | true => exact (holds_handOn _).weaken (fun s _ h => h.1) fun r s _ h => h
  | false =>
    refine holds_of_false fun s h => ?_
    have htrue := h.1.1.1
    rw [h.2, ht] at htrue
    cases htrue

theorem holds_accept (frame : Frame) :
    Holds limits guarded Ready (accept limits frame) fun _ s => Ready s := by
  have hhealthy : Stable limits fun s => s.queue.failed = none := stable_queue fun q => q.failed = none
  refine holds_bind (holds_poll stable_ready hhealthy keptByFailure_ready fun _ _ _ hf _ => hf) fun r => ?_
  cases r with
  | error e => exact holds_ret (stable_ready.and (hhealthy.imp _)) fun s _ h => h.1
  | ok _ =>
    dsimp only
    split
    · exact (holds_fail stable_ready keptByFailure_ready).weaken (fun s _ h => h.1) fun r s _ h => h.1
    · refine holds_bind (Q := fun _ s => Ready s) ?_ fun fits => ?_
      · refine holds_access (stable_ready.and (hhealthy.imp _)) (fun _ => stable_ready)
          fun s v s' early hi h _ ha => ?_
        have hf := h.2 rfl
        have hinv : Inv limits (s.reserve limits frame).2 := hi.reserve hf
        have heq : s.reserve limits frame = (v, s') := Option.some.inj ha
        have hqueue : s'.queue.tx = s.queue.tx ∧ s'.queue.join = s.queue.join ∧ s'.queue.failed = s.queue.failed := by
          rw [State.reserve] at heq
          split at heq
          · obtain ⟨-, rfl⟩ := Prod.mk.inj heq
            exact ⟨rfl, rfl, rfl⟩
          · obtain ⟨-, rfl⟩ := Prod.mk.inj heq
            exact ⟨rfl, rfl, rfl⟩
        rw [heq] at hinv
        obtain ⟨ht, hj⟩ := h.1.1
        exact ⟨hinv, ⟨hqueue.1.trans ht, hqueue.2.1.trans hj⟩, hinv.exact (hqueue.2.2.trans hf)⟩
      · cases fits with
        | true => exact holds_ret stable_ready fun s _ h => h
        | false => exact (holds_fail stable_ready keptByFailure_ready).weaken (fun s _ h => h) fun r s _ h => h.1

theorem holds_acceptCurrent :
    Holds limits guarded Ready (acceptCurrent limits) fun _ s => Ready s := by
  refine holds_bind (holds_ownQueue stable_ready) fun q => ?_
  have hq : Stable limits fun s => Ready s ∧ s.queue = q := stable_ready.and (stable_queue fun q' => q' = q)
  split
  · exact holds_ret hq fun s _ h => h.1
  · refine holds_bind (Q := fun _ s => Ready s) ?_ fun _ => holds_accept q.current
    exact holds_update hq stable_ready (fun _ => rfl) (fun _ h => h) (fun _ h => h) fun s h => h.1

/-- Goes on with a queue whose counter is exact, or ends with the failure. -/
theorem holds_try {p : Calls (Except Failure Unit)} {next : Calls (Except Failure β)}
    {Q : Except Failure β → State → Prop} (hp : Holds limits guarded P p fun r s => Open s ∧ (r = .ok () → s.Exact))
    (hfail : ∀ e s, Open s → Q (.error e) s) (hnext : Holds limits guarded Ready next Q) :
    Holds limits guarded P (p >>= fun r => match r with
      | .error e => pure (.error e)
      | .ok () => next) Q := by
  refine holds_bind hp fun r => ?_
  cases r with
  | error e => exact holds_ret (stable_open.and (stable_exact.imp _)) fun s _ h => hfail e s h.1
  | ok _ => exact hnext.weaken (fun s _ h => ⟨h.1, h.2 rfl⟩) fun r s _ h => h

theorem holds_flush : Holds limits guarded Open (flush limits) fun r s => Open s ∧ (r = .ok () → s.Exact) := by
  have hfail (e : Failure) (s : State) (h : Open s) : Open s ∧ ((.error e : Except Failure Unit) = .ok () → s.Exact) :=
    ⟨h, fun h => by cases h⟩
  refine holds_try holds_poll_open hfail (holds_try holds_pump hfail ?_)
  refine holds_bind holds_acceptCurrent fun accepted => ?_
  refine holds_bind holds_pump fun pumped => ?_
  refine holds_try (holds_poll_open.weaken (fun s _ h => h.1) fun r s _ h => h) hfail ?_
  cases accepted with
  | error e => exact holds_ret stable_ready fun s _ h => hfail e s h.1
  | ok _ => exact holds_ret stable_ready fun s _ h => ⟨h.1, fun _ => h.2⟩

/-- An idle queue has handed everything to the client. -/
theorem holds_isIdle :
    Holds limits guarded Open isIdle fun r s => Open s ∧ (r = .ok true → s.AllWritten) := by
  have hfail (e : Failure) (s : State) (h : Open s) :
      Open s ∧ ((.error e : Except Failure Bool) = .ok true → s.AllWritten) := ⟨h, fun h => by cases h⟩
  refine holds_try holds_poll_open hfail (holds_try holds_pump hfail ?_)
  refine holds_try (holds_poll_open.weaken (fun s _ h => h.1) fun r s _ h => h) hfail ?_
  refine holds_bind (holds_ownQueue stable_ready) fun q => ?_
  refine holds_bind (Q := fun v s => Open s ∧ (q.pending = [] ∧ v = 0 → s.AllWritten)) ?_ fun v => ?_
  · refine holds_access (stable_ready.and (stable_queue fun q' => q' = q))
      (fun v => stable_open.and (stable_allWritten.imp _)) fun s v s' early hi h _ ha => ?_
    obtain ⟨rfl, rfl⟩ := Prod.mk.inj (Option.some.inj ha)
    refine ⟨hi, h.1.1, fun hz => hi.allWritten ?_⟩
    obtain ⟨hpending, hheld⟩ := hz
    have hstaged : s.hand.length + s.channel.flatten.length + s.queue.pending.flatten.length = 0 :=
      h.1.2.symm.trans hheld
    have hlen : s.unsent.length = 0 := by
      simp only [State.unsent, List.length_append, List.length_drop]
      omega
    exact List.length_eq_zero_iff.mp hlen
  · refine holds_ret (stable_open.and (stable_allWritten.imp _)) fun s _ h => ⟨h.1, fun hr => h.2 ?_⟩
    have hidle := Except.ok.inj hr
    simp only [Bool.and_eq_true, List.isEmpty_iff, beq_iff_eq] at hidle
    exact ⟨hidle.1.2, hidle.2⟩

theorem holds_drain (n : ℕ) (flushed : Except Failure Unit) :
    Holds limits guarded (fun s => Open s ∧ (flushed = .ok () → s.Exact)) (drain n flushed) fun _ s => Open s := by
  have hpre : ∀ r : Except Failure Unit, Stable limits fun s => Open s ∧ (r = .ok () → s.Exact) :=
    fun r => stable_open.and (stable_exact.imp _)
  induction n generalizing flushed with
  | zero => exact holds_ret (hpre _) fun s _ h => h.1
  | succ n ih =>
    cases flushed with
    | error e => exact holds_ret (hpre _) fun s _ h => h.1
    | ok _ =>
      refine holds_bind (holds_ownQueue (hpre _)) fun q => ?_
      have hq : Stable limits fun s => (Open s ∧ ((.ok () : Except Failure Unit) = .ok () → s.Exact)) ∧ s.queue = q :=
        (hpre _).and (stable_queue fun q' => q' = q)
      cases q.pending.isEmpty with
      | true => exact holds_ret hq fun s _ h => h.1.1
      | false =>
        refine holds_bind (Q := fun _ s => Ready s) ?_ fun early => ?_
        · refine holds_access hq (fun _ => stable_ready) fun s v s' early hi h _ ha => ?_
          obtain ⟨-, rfl⟩ := Prod.mk.inj (Option.some.inj ha)
          exact ⟨hi, h.1.1, h.1.2 rfl⟩
        · cases early with
          | true => exact holds_bind holds_pump fun flushed => ih flushed
          | false => exact holds_ret stable_ready fun s _ h => h.1

/-! ### The end of a shutdown -/

/-- A shutdown has dropped the sender and taken the handle. -/
def Closed (s : State) : Prop := s.queue.tx = false ∧ s.queue.join = false

theorem stable_closed : Stable limits Closed := stable_queue fun q => q.tx = false ∧ q.join = false

/-- An error is known, or nothing is pending and the writer did not panic. -/
def Sound (s : State) : Prop :=
  s.queue.failed.isSome ∨ s.writerError.isSome ∨ s.queue.pending = [] ∧ s.phase ≠ .panicked

/-- The writer's end was told, soundly where that is asked for. -/
def Told (guarded : Bool) (s : State) : Prop := s.signalled = true ∧ (guarded = true → Sound s)

theorem sound_received (hs : s.signalled = true) (h : s.sound .received = true) : Sound s := by
  simp only [State.sound, hs, Bool.not_true, Bool.false_or, Bool.or_eq_true, Bool.and_eq_true,
    List.isEmpty_iff, bne_iff_ne] at h
  rcases h with (h | h) | h
  · exact .inl h
  · exact .inr (.inl h)
  · exact .inr (.inr h)

theorem stable_told : Stable limits (Told guarded) := by
  intro w w' hi h hr
  have hended := WriterStep.of_signalled hi h.1 hr
  change Told guarded w'.state
  rw [hended]
  refine ⟨by simp [State.signalled, Phase.gone], fun hg => ?_⟩
  rcases h.2 hg with hf | he | hp
  · exact .inl hf
  · exact .inr (.inl he)
  · exact .inr (.inr ⟨hp.1, by simp⟩)

/-- A writer that is gone without an error, and not by a panic, wrote everything that it was sent. -/
theorem Inv.allWritten_of_gone (hi : Inv limits s) (hg : s.phase.gone = true) (hs : Sound s)
    (hf : s.queue.failed = none) (he : s.writerError = none) : s.AllWritten := by
  rcases hs with h | h | ⟨hpending, hpanic⟩
  · simp [hf] at h
  · simp [he] at h
  · have hp : s.phase = .ended := by
      cases hp : s.phase with
      | ended => rfl
      | panicked => exact absurd hp hpanic
      | _ => simp [hp, Phase.gone] at hg
    obtain ⟨hhand, hchannel, -⟩ := hi.left (by simp [hp, Phase.left]) he
    exact hi.allWritten (by simp [State.unsent, hhand, hchannel, hpending])

theorem holds_awaitWriter (flushed : Except Failure Unit) :
    Holds limits guarded Closed (awaitWriter flushed) fun r s =>
      Closed s ∧ (guarded = true → r = .ok () → s.AllWritten) := by
  have hdone : ∀ r : Except Failure Unit,
      Stable limits fun s => Closed s ∧ (guarded = true → r = .ok () → s.AllWritten) :=
    fun r => stable_closed.and ((stable_allWritten.imp _).imp _)
  refine holds_bind (Q := fun v s => Closed s ∧ (v = true → Told guarded s)) ?_ fun v => ?_
  · refine holds_access stable_closed (fun _ => stable_closed.and (stable_told.imp _))
      fun s v s' early hi h hsound ha => ?_
    obtain ⟨rfl, rfl⟩ := Prod.mk.inj (Option.some.inj ha)
    exact ⟨hi, h, fun hv => ⟨hv, fun hg => sound_received hv (hsound hg)⟩⟩
  have htold : ∀ v : Bool, Stable limits fun s => Closed s ∧ (v = true → Told guarded s) :=
    fun v => stable_closed.and (stable_told.imp _)
  cases v with
  | false => exact holds_ret (htold _) fun s _ h => ⟨h.1, fun _ h => by cases h⟩
  | true =>
    have hgone : Stable limits fun s => s.phase.gone = true ∧ Closed s ∧ (guarded = true → Sound s) :=
      stable_gone fun s => Closed s ∧ (guarded = true → Sound s)
    refine holds_bind (Q := fun _ s => s.phase.gone = true ∧ Closed s ∧ (guarded = true → Sound s)) ?_ fun _ => ?_
    · refine holds_access (htold _) (fun _ => hgone) fun s v s' early hi h _ ha => ?_
      simp only [State.access] at ha
      split at ha
      · next hg =>
        obtain ⟨-, rfl⟩ := Prod.mk.inj (Option.some.inj ha)
        exact ⟨hi, hg, h.1, (h.2 rfl).2⟩
      · cases ha
    · refine holds_bind (holds_poll (E := fun s => guarded = true → s.AllWritten) hgone
        (stable_allWritten.imp _) ?_ ?_) fun r => ?_
      · intro s message h
        exact ⟨h.1, h.2.1, fun _ => .inl rfl⟩
      · exact fun s hi h hf he hg => hi.allWritten_of_gone h.1 (h.2.2 hg) hf he
      · have hpolled := hgone.and ((stable_allWritten.imp (guarded = true)).imp (r = .ok ()))
        cases r with
        | error e => exact holds_ret hpolled fun s _ h => ⟨h.1.2.1, fun _ h => by cases h⟩
        | ok _ => exact holds_ret hpolled fun s _ h => ⟨h.1.2.1, fun hg _ => h.2 rfl hg⟩

theorem holds_lastFlush :
    Holds limits guarded Open (lastFlush limits) fun r s => Open s ∧ (r = .ok () → s.Exact) := by
  refine holds_bind (holds_ownQueue stable_open) fun q => ?_
  cases ht : q.tx with
  | true => exact holds_flush.weaken (fun s _ h => h.1) fun r s _ h => h
  | false =>
    refine holds_of_false fun s h => ?_
    have htrue := h.1.1
    rw [h.2, ht] at htrue
    cases htrue

theorem holds_shutdown :
    Holds limits guarded Open (shutdown limits) fun r s =>
      Closed s ∧ (guarded = true → r = .ok () → s.AllWritten) := by
  refine holds_bind holds_lastFlush fun flushed => ?_
  refine holds_bind (holds_drain _ flushed) fun flushed => ?_
  have hdropped : Stable limits fun s => s.queue.tx = false ∧ s.queue.join = true :=
    stable_queue fun q => q.tx = false ∧ q.join = true
  refine holds_bind (Q := fun _ s => s.queue.tx = false ∧ s.queue.join = true) ?_ fun _ => ?_
  · exact holds_update stable_open hdropped (fun _ => rfl) (fun _ h => h) (fun _ _ => rfl) fun s h => ⟨rfl, h.2⟩
  refine holds_bind (holds_ownQueue hdropped) fun q => ?_
  cases hj : q.join with
  | true =>
    refine holds_bind (Q := fun _ s => Closed s) ?_ fun _ => holds_awaitWriter flushed
    exact holds_update (hdropped.and (stable_queue fun q' => q' = q)) stable_closed (fun _ => rfl) (fun _ h => h)
      (fun _ h => h) fun s h => ⟨h.1.1, rfl⟩
  | false =>
    refine holds_of_false fun s h => ?_
    have htrue := h.1.2
    rw [h.2, hj] at htrue
    cases htrue

/-! ### Calls on a closed queue -/

/-- A closed queue, of which nothing more need be known. -/
structure Shut (limits : Limits) (P : State → Prop) : Prop where
  stable : Stable limits P
  kept : KeptByFailure P
  closed : ∀ s, P s → Closed s

theorem holds_pump_shut (h : Shut limits P) : Holds limits guarded P pump fun r s => P s ∧ r ≠ .ok () := by
  refine holds_bind (holds_ownQueue h.stable) fun q => ?_
  have hq := h.stable.and (stable_queue fun q' => q' = q)
  cases ht : q.tx with
  | false => exact holds_ret hq fun s _ hs => ⟨hs.1, by simp⟩
  | true =>
    refine holds_of_false fun s hs => ?_
    have hfalse := (h.closed s hs.1).1
    rw [hs.2, ht] at hfalse
    cases hfalse

theorem holds_poll_shut (h : Shut limits P) : Holds limits guarded P pollWriterFailure fun _ s => P s :=
  (holds_poll (E := fun _ => True) h.stable (fun _ _ _ _ _ => trivial) h.kept fun _ _ _ _ _ => trivial).weaken
    (fun _ _ hs => hs) fun _ _ _ hs => hs.1

theorem holds_flush_shut (h : Shut limits P) : Holds limits guarded P (flush limits) fun _ s => P s := by
  refine holds_bind (holds_poll_shut h) fun r => ?_
  cases r with
  | error e => exact holds_ret h.stable fun s _ hs => hs
  | ok _ =>
    refine holds_bind (holds_pump_shut h) fun r => ?_
    cases r with
    | error e => exact holds_ret (h.stable.and (Contract.stable_const _)) fun s _ hs => hs.1
    | ok _ => exact holds_of_false fun s hs => hs.2 rfl

theorem holds_isIdle_shut (h : Shut limits P) :
    Holds limits guarded P isIdle fun r s => P s ∧ r ≠ .ok true := by
  refine holds_bind (holds_poll_shut h) fun r => ?_
  cases r with
  | error e => exact holds_ret h.stable fun s _ hs => ⟨hs, by simp⟩
  | ok _ =>
    refine holds_bind (holds_pump_shut h) fun r => ?_
    cases r with
    | error e => exact holds_ret (h.stable.and (Contract.stable_const _)) fun s _ hs => ⟨hs.1, by simp⟩
    | ok _ => exact holds_of_false fun s hs => hs.2 rfl

theorem holds_drain_shut (h : Shut limits P) (n : ℕ) (flushed : Except Failure Unit) :
    Holds limits guarded P (drain n flushed) fun _ s => P s := by
  induction n generalizing flushed with
  | zero => exact holds_ret h.stable fun s _ hs => hs
  | succ n ih =>
    cases flushed with
    | error e => exact holds_ret h.stable fun s _ hs => hs
    | ok _ =>
      refine holds_bind ((holds_ownQueue h.stable).weaken (fun _ _ hs => hs) fun _ _ _ hs => hs.1) fun q => ?_
      cases q.pending.isEmpty with
      | true => exact holds_ret h.stable fun s _ hs => hs
      | false =>
        refine holds_bind (Q := fun _ s => P s) ?_ fun early => ?_
        · refine holds_access h.stable (fun _ => h.stable) fun s v s' early hi hs _ ha => ?_
          obtain ⟨-, rfl⟩ := Prod.mk.inj (Option.some.inj ha)
          exact ⟨hi, hs⟩
        · cases early with
          | true =>
            exact holds_bind ((holds_pump_shut h).weaken (fun _ _ hs => hs) fun _ _ _ hs => hs.1) fun r => ih r
          | false => exact holds_ret h.stable fun s _ hs => hs

/-- A shutdown that finds the handle taken changes nothing. -/
theorem holds_shutdown_shut (h : Shut limits P)
    (htx : ∀ s, P s → P { s with queue := { s.queue with tx := false } }) :
    Holds limits guarded P (shutdown limits) fun _ s => P s := by
  have hown : Holds limits guarded P ownQueue fun q s => P s ∧ s.queue = q := holds_ownQueue h.stable
  refine holds_bind (Q := fun _ s => P s) ?_ fun flushed => ?_
  · refine holds_bind (hown.weaken (fun _ _ hs => hs) fun _ _ _ hs => hs.1) fun q => ?_
    cases q.tx with
    | true => exact holds_flush_shut h
    | false => exact holds_ret h.stable fun s _ hs => hs
  refine holds_bind (holds_drain_shut h _ flushed) fun flushed => ?_
  refine holds_bind (Q := fun _ s => P s) ?_ fun _ => ?_
  · exact holds_update h.stable h.stable (fun _ => rfl) (fun _ h => h) (fun _ _ => rfl) htx
  refine holds_bind hown fun q => ?_
  cases hj : q.join with
  | false => exact holds_ret (h.stable.and (stable_queue fun q' => q' = q)) fun s _ hs => hs.1
  | true =>
    refine holds_of_false fun s hs => ?_
    have hfalse := (h.closed s hs.1).2
    rw [hs.2, hj] at hfalse
    cases hfalse

/-- Bytes that were not accepted yet change nothing of what is known. -/
theorem holds_write {buf : List UInt8} (hP : Stable limits P) (hk : KeptByFailure P)
    (hcurrent : ∀ s, P s → P { s with queue := { s.queue with current := s.queue.current ++ buf } }) :
    Holds limits guarded P (write buf) fun _ s => P s := by
  refine holds_bind ((holds_poll (E := fun _ => True) hP (fun _ _ _ _ _ => trivial) hk
    fun _ _ _ _ _ => trivial).weaken (fun _ _ hs => hs) fun _ _ _ hs => hs.1) fun r => ?_
  cases r with
  | error e => exact holds_ret hP fun s _ hs => hs
  | ok _ =>
    refine holds_bind (Q := fun _ s => P s) ?_ fun _ => holds_ret hP fun s _ hs => hs
    exact holds_update hP hP (fun _ => rfl) (fun _ h => h) (fun _ h => h) hcurrent

/-! ### Whole runs -/

/-- A shutdown that failed. -/
def Reply.refused : Reply → Bool
  | .down (.error _) => true
  | _ => false

def Server.refused (c : Server) : Bool := c.replies.any Reply.refused

/-- Neither a shutdown after one that failed, nor an unsound receipt of the writer's end. -/
def Server.careful (c : Server) : Event → Bool
  | .begin .shutdown => !c.refused
  | .turn _ =>
    match c.running with
    | some (.call a _) => c.state.sound a
    | _ => true
  | _ => true

/-- Every step, or only the careful ones. -/
def Server.stepWhere (limits : Limits) (guarded : Bool) (c : Server) (event : Event) : Option Server :=
  if guarded && !c.careful event then none else c.step limits event

/-- A closed queue to which everything was written, as far as its shutdowns told. -/
def Settled (guarded refused : Bool) (s : State) : Prop :=
  Closed s ∧ (guarded = true → refused = false → s.AllWritten)

/-- What is known between two calls. -/
def Rest (guarded refused : Bool) (s : State) : Prop := Open s ∨ Settled guarded refused s

/-- What an answer means, and what is known once it was given. -/
structure Honest (guarded refused : Bool) (r : Reply) (s : State) : Prop where
  idle : r = .idle (.ok true) → s.AllWritten
  down : guarded = true → r = .down (.ok ()) → s.AllWritten
  rest : Rest guarded (refused || r.refused) s

variable {refused : Bool}

theorem shut_settled (limits : Limits) : Shut limits (Settled guarded refused) where
  stable := stable_closed.and ((stable_allWritten.imp _).imp _)
  kept _ _ h := h
  closed _ h := h.1

theorem stable_rest : Stable limits (Rest guarded refused) := by
  intro w w' hi h hr
  rcases h with h | h
  · exact .inl (stable_open w w' hi h hr)
  · exact .inr ((shut_settled _).stable w w' hi h hr)

theorem stable_honest (r : Reply) : Stable limits (Honest guarded refused r) := by
  intro w w' hi h hr
  exact {
    idle := (stable_allWritten.imp _) w w' hi h.idle hr
    down := ((stable_allWritten.imp _).imp _) w w' hi h.down hr
    rest := stable_rest w w' hi h.rest hr }

theorem holds_map {p : Calls α} {f : α → β} {Q' : β → State → Prop} (h : Holds limits guarded P p Q)
    (hQ : ∀ a, Stable limits (Q' (f a))) (hf : ∀ a s, Q a s → Q' (f a) s) :
    Holds limits guarded P (f <$> p) Q' := by
  have hp : Holds limits guarded P p fun a => Q' (f a) := h.weaken (fun _ _ hs => hs) fun a s _ hs => hf a s hs
  exact holds_bind hp fun a => holds_ret (hQ a) fun _ _ hs => hs

theorem holds_program_open (call : Call) :
    Holds limits guarded Open (program limits call) (Honest guarded refused) := by
  cases call with
  | write buf =>
    refine holds_map (holds_write stable_open keptByFailure_open fun _ h => h) (fun _ => stable_honest _)
      fun r s h => ?_
    exact { idle := fun h => (by cases h), down := fun _ h => (by cases h), rest := .inl h }
  | flush =>
    refine holds_map holds_flush (fun _ => stable_honest _) fun r s h => ?_
    exact { idle := fun h => (by cases h), down := fun _ h => (by cases h), rest := .inl h.1 }
  | isIdle =>
    refine holds_map holds_isIdle (fun _ => stable_honest _) fun r s h => ?_
    exact { idle := fun hr => h.2 (Reply.idle.inj hr), down := fun _ h => (by cases h), rest := .inl h.1 }
  | shutdown =>
    refine holds_map holds_shutdown (fun _ => stable_honest _) fun r s h => ?_
    exact {
      idle := fun h => by cases h
      down := fun hg hr => h.2 hg (Reply.down.inj hr)
      rest := .inr ⟨h.1, fun hg hr => h.2 hg (by
        rw [Bool.or_eq_false_iff] at hr
        cases r with
        | error e => cases hr.2
        | ok _ => rfl)⟩ }

theorem holds_program_closed (call : Call)
    (hcareful : guarded = true → call = .shutdown → refused = false) :
    Holds limits guarded (Settled guarded refused) (program limits call) (Honest guarded refused) := by
  have hrest : ∀ (r : Reply) (s : State), Settled guarded refused s → Rest guarded (refused || r.refused) s :=
    fun r s h => .inr ⟨h.1, fun hg hr => h.2 hg (Bool.or_eq_false_iff.mp hr).1⟩
  cases call with
  | write buf =>
    refine holds_map (holds_write (shut_settled limits).stable (shut_settled limits).kept fun _ h => h) (fun _ => stable_honest _)
      fun r s h => ?_
    exact { idle := fun h => (by cases h), down := fun _ h => (by cases h), rest := hrest _ s h }
  | flush =>
    refine holds_map (holds_flush_shut (shut_settled limits)) (fun _ => stable_honest _) fun r s h => ?_
    exact { idle := fun h => (by cases h), down := fun _ h => (by cases h), rest := hrest _ s h }
  | isIdle =>
    refine holds_map (holds_isIdle_shut (shut_settled limits)) (fun _ => stable_honest _) fun r s h => ?_
    exact {
      idle := fun hr => absurd (Reply.idle.inj hr) h.2
      down := fun _ h => by cases h
      rest := hrest _ s h.1 }
  | shutdown =>
    refine holds_map (holds_shutdown_shut (shut_settled limits) fun s h => ⟨⟨rfl, h.1.2⟩, h.2⟩) (fun _ => stable_honest _)
      fun r s h => ?_
    exact { idle := fun h => (by cases h), down := fun hg _ => h.2 hg (hcareful hg rfl), rest := hrest _ s h }

/-- What a run keeps. -/
structure Kept (limits : Limits) (guarded : Bool) (c : Server) : Prop where
  inv : Inv limits c.state
  rest : c.running = none → Rest guarded c.refused c.state
  safe : ∀ p, c.running = some p → (contract limits).Safe (system limits guarded)
    (fun r w => Honest guarded c.refused r w.state) p { started := [], state := c.state }

theorem Kept.initial (limits : Limits) (guarded : Bool) : Kept limits guarded .initial where
  inv := .initial limits
  rest _ := .inl ⟨rfl, rfl⟩
  safe p h := by cases h

variable {c c' : Server} {event : Event}

theorem Kept.step (hk : Kept limits guarded c) (h : c.stepWhere limits guarded event = some c') :
    Kept limits guarded c' := by
  rw [Server.stepWhere] at h
  split at h
  · cases h
  next hcareful =>
  have hcare : guarded = true → c.careful event = true := by simpa using hcareful
  unfold Server.step at h
  split at h
  · next call hrun =>
    obtain rfl := Option.some.inj h
    refine { inv := hk.inv, rest := fun h => (by cases h), safe := fun p hp => ?_ }
    obtain rfl := Option.some.inj hp
    rcases hk.rest hrun with hopen | hclosed
    · exact holds_program_open call _ hk.inv hopen
    · refine holds_program_closed call (fun hg hc => ?_) _ hk.inv hclosed
      have hc' := hcare hg
      rw [hc] at hc'
      exact Bool.not_eq_true' _ |>.mp hc'
  · next early a next hrun =>
    rw [Option.map_eq_some_iff] at h
    obtain ⟨r, hr, rfl⟩ := h
    have hsafe := (hk.safe _ hrun { started := [], state := c.state } hk.inv .refl).2 r.1 r.2
      ⟨fun hg => by simpa [Server.careful, hrun] using hcare hg, early, hr⟩
    refine { inv := hsafe.1, rest := fun h => (by cases h), safe := fun p hp => ?_ }
    obtain rfl := Option.some.inj hp
    exact hsafe.2
  · next r hrun =>
    obtain rfl := Option.some.inj h
    have hhonest := hk.safe _ hrun { started := [], state := c.state } hk.inv .refl
    refine { inv := hk.inv, rest := fun _ => ?_, safe := fun p hp => (by cases hp) }
    have hrest := hhonest.rest
    rwa [Bool.or_comm] at hrest
  · next move =>
    rw [Option.map_eq_some_iff] at h
    obtain ⟨s, hs, rfl⟩ := h
    have hstep := writerStep_of_writer hs
    refine { inv := hk.inv.writer hstep, rest := fun h => ?_, safe := fun p hp => ?_ }
    · exact stable_rest { started := [], state := c.state } { started := [], state := s } hk.inv (hk.rest h) hstep
    · exact (hk.safe p hp).mono hstep
  · cases h

theorem run_kept {es : List Event} (h : Runs.run (Server.stepWhere limits guarded) .initial es = some c) :
    Kept limits guarded c :=
  Runs.run_induction (P := fun _ c => Kept limits guarded c) (.initial limits guarded)
    (fun _ _ _ _ hk hstep => hk.step hstep) h

/-- In every order of the steps the client gets the accepted frames from the first on, the counter stays above
zero, the unsent bytes stay within the limit, and an idle queue has written everything. A shutdown that
answers that all is well has too, where every step is careful. -/
theorem output_delivered (limits : Limits) (guarded : Bool) {es : List Event} {c : Server}
    (h : Runs.run (Server.stepWhere limits guarded) .initial es = some c) :
    c.state.output <+: c.state.accepted.flatten ∧ c.state.underflowed = false ∧
      c.state.accepted.flatten.length - c.state.output.length ≤ limits.stagedLimit ∧
      (c.Answers (.idle (.ok true)) → c.state.AllWritten) ∧
      (guarded = true → c.Answers (.down (.ok ())) → c.state.AllWritten) := by
  have hk := run_kept h
  have hhonest : ∀ r, c.Answers r → Honest guarded c.refused r c.state :=
    fun r hr => hk.safe _ hr { started := [], state := c.state } hk.inv .refl
  refine ⟨hk.inv.output_begins, hk.inv.counted, hk.inv.bounded, fun hr => ?_, fun hg hr => ?_⟩
  · exact (hhonest _ hr).idle rfl
  · exact (hhonest _ hr).down hg rfl

/-- The writer takes a frame, writes it and counts it. -/
def takeOne (len : ℕ) : List Event := [.receive, .put len, .flush, .count].map .writer

def turns (n : ℕ) : List Event := List.replicate n (.turn true)

/-- One frame is written and flushed, the writer hands it on, and the server shuts down. -/
def quietRun : List Event :=
  .begin (.write [65]) :: turns 3 ++ .reply :: .begin .flush :: turns 12 ++ .reply :: takeOne 1 ++
    .begin .shutdown :: turns 12 ++ [.closed, .signal, .leave].map .writer ++ turns 4

theorem output_delivered_quiet :
    ∃ c, Runs.run (Server.stepWhere ⟨1, 64, 50⟩ true) .initial quietRun = some c ∧
      c.Answers (.down (.ok ())) ∧ c.state.AllWritten ∧ c.state.output = [65] := by
  refine ⟨_, rfl, rfl, ?_, rfl⟩
  have hrun : Runs.run (Server.stepWhere ⟨1, 64, 50⟩ true) .initial quietRun = some _ := rfl
  exact (output_delivered ⟨1, 64, 50⟩ true hrun).2.2.2.2 rfl rfl

/-- The channel holds one frame and another is pending when the deadline passes. The writer then drains the
channel and is done before the server looks. -/
def lateRun : List Event :=
  .begin (.write [65]) :: turns 3 ++ .reply :: .begin .flush :: turns 12 ++ .reply ::
    .begin (.write [66]) :: turns 3 ++ .reply :: .begin .flush :: turns 12 ++ .reply ::
    .begin .shutdown :: turns 11 ++ .turn false :: turns 3 ++ takeOne 1 ++
    [.closed, .signal, .leave].map .writer ++ turns 4

theorem shutdown_drops_pending :
    ∃ c, Runs.run (Server.step ⟨1, 64, 50⟩) .initial lateRun = some c ∧
      c.Answers (.down (.ok ())) ∧ c.state.output = [65] ∧ c.state.accepted = [[65], [66]] ∧
      ¬c.state.AllWritten := by
  refine ⟨_, rfl, rfl, rfl, rfl, ?_⟩
  change ([65] : List UInt8) ≠ [65, 66]
  decide

end Krusty.Lsp.Output
