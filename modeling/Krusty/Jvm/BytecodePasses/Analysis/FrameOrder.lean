import Krusty.Lib.Joins
import Krusty.Lib.Dataflow
import Krusty.Jvm.BytecodePasses.Analysis.FastAnalyzer

/-! The order of frames an interpreter's merges induce. -/
namespace Krusty.Jvm.BytecodePasses

open Ascending Dataflow

/-- A merge that is the join of a semilattice. -/
structure JoinLaws {V : Type} (merge : V → V → V) : Prop where
  idem : ∀ a, merge a a = a
  comm : ∀ a b, merge a b = merge b a
  assoc : ∀ a b c, merge (merge a b) c = merge a (merge b c)

/-- `b` absorbs `a`. -/
def Below {V : Type} (merge : V → V → V) (a b : V) : Prop := merge b a = b

/-- An interpreter whose merges are joins, of finite height. -/
structure Interpreter.Lattice {V : Type} (I : Interpreter V) : Prop where
  local_laws : JoinLaws I.mergeLocal
  stack_laws : JoinLaws I.mergeStack
  local_height : FiniteHeight (Below I.mergeLocal)
  stack_height : FiniteHeight (Below I.mergeStack)

/-- Frames of one shape, compared value by value. -/
structure Frame.Le {V : Type} (I : Interpreter V) (f g : Frame V) : Prop where
  locals : List.Forall₂ (Below I.mergeLocal) f.locals g.locals
  stack : List.Forall₂ (Below I.mergeStack) f.stack g.stack
  returnValue : f.returnValue = g.returnValue

/-- A monotone transfer: what a higher frame executes a lower one does too, to a lower frame. It neither
adds locals nor touches the return value. -/
structure Executor.Monotone {V : Type} (I : Interpreter V) (execute : Executor V) : Prop where
  mono : ∀ index insn f g g', Frame.Le I f g → execute index insn g = .ok g' →
    ∃ f', execute index insn f = .ok f' ∧ Frame.Le I f' g'
  locals : ∀ index insn f f', execute index insn f = .ok f' → f'.locals.length = f.locals.length
  returnValue : ∀ index insn f f', execute index insn f = .ok f' → f'.returnValue = f.returnValue

section Values

variable {V : Type} {merge : V → V → V} (h : JoinLaws merge)

include h

theorem JoinLaws.below_refl (a : V) : Below merge a a := h.idem a

theorem JoinLaws.below_trans {a b c : V} (hab : Below merge a b) (hbc : Below merge b c) :
    Below merge a c := by
  unfold Below at *
  rw [← hbc, h.assoc, hab]

theorem JoinLaws.below_antisymm {a b : V} (hab : Below merge a b) (hba : Below merge b a) : a = b := by
  unfold Below at *
  rw [← hba, h.comm, hab]

theorem JoinLaws.below_left (a b : V) : Below merge a (merge a b) := by
  unfold Below
  rw [h.comm, ← h.assoc, h.idem]

theorem JoinLaws.below_right (a b : V) : Below merge b (merge a b) := by
  unfold Below
  rw [h.assoc, h.idem]

theorem JoinLaws.merge_below {a b u : V} (ha : Below merge a u) (hb : Below merge b u) :
    Below merge (merge a b) u := by
  unfold Below at *
  rw [← h.assoc, ha, hb]

theorem JoinLaws.forall₂_refl (xs : List V) : List.Forall₂ (Below merge) xs xs :=
  List.forall₂_same.mpr fun x _ => h.below_refl x

theorem JoinLaws.forall₂_trans {xs ys zs : List V} (hxy : List.Forall₂ (Below merge) xs ys)
    (hyz : List.Forall₂ (Below merge) ys zs) : List.Forall₂ (Below merge) xs zs := by
  induction hxy generalizing zs with
  | nil => exact hyz
  | cons hab _ ih =>
    cases hyz with
    | cons hbc hrest => exact .cons (h.below_trans hab hbc) (ih hrest)

theorem JoinLaws.forall₂_antisymm {xs ys : List V} (hxy : List.Forall₂ (Below merge) xs ys)
    (hyx : List.Forall₂ (Below merge) ys xs) : xs = ys := by
  induction hxy with
  | nil => rfl
  | cons hab _ ih =>
    cases hyx with
    | cons hba hrest => rw [h.below_antisymm hab hba, ih hrest]

theorem JoinLaws.meetAll_spec {xs ys : List V} (hlen : xs.length = ys.length) :
    List.Forall₂ (Below merge) xs (meetAll merge xs ys) ∧
      List.Forall₂ (Below merge) ys (meetAll merge xs ys) ∧
      ∀ us, List.Forall₂ (Below merge) xs us → List.Forall₂ (Below merge) ys us →
        List.Forall₂ (Below merge) (meetAll merge xs ys) us := by
  induction xs generalizing ys with
  | nil =>
    cases ys with
    | nil => exact ⟨.nil, .nil, fun us hxs _ => hxs⟩
    | cons y ys => cases hlen
  | cons x xs ih =>
    cases ys with
    | nil => cases hlen
    | cons y ys =>
      obtain ⟨hxs, hys, hleast⟩ := ih (Nat.succ.inj hlen)
      refine ⟨.cons (h.below_left x y) hxs, .cons (h.below_right x y) hys, ?_⟩
      intro us hxu hyu
      cases hxu with
      | cons hxu hxsu =>
        cases hyu with
        | cons hyu hysu => exact .cons (h.merge_below hxu hyu) (hleast _ hxsu hysu)

end Values

section Frames

variable {V : Type} {I : Interpreter V} (h : I.Lattice)

include h

theorem Interpreter.Lattice.isPartialOrder : IsPartialOrder (Frame V) (Frame.Le I) where
  refl := fun f => ⟨h.local_laws.forall₂_refl _, h.stack_laws.forall₂_refl _, rfl⟩
  trans := fun _ _ _ hfg hgk => ⟨h.local_laws.forall₂_trans hfg.locals hgk.locals,
    h.stack_laws.forall₂_trans hfg.stack hgk.stack, hfg.returnValue.trans hgk.returnValue⟩
  antisymm := by
    rintro ⟨ls, st, rv⟩ ⟨ls', st', rv'⟩ hfg hgf
    obtain rfl : ls = ls' := h.local_laws.forall₂_antisymm hfg.locals hgf.locals
    obtain rfl : st = st' := h.stack_laws.forall₂_antisymm hfg.stack hgf.stack
    obtain rfl : rv = rv' := hfg.returnValue
    rfl

theorem Interpreter.Lattice.finiteHeight : FiniteHeight (Frame.Le I) := by
  have hpair : FiniteHeight (PairLe (List.Forall₂ (Below I.mergeLocal))
      (PairLe (List.Forall₂ (Below I.mergeStack)) (@Eq (Option V)))) := by
    apply finiteHeight_pair (finiteHeight_forall₂ h.local_height)
    apply finiteHeight_pair (finiteHeight_forall₂ h.stack_height)
    exact ⟨fun rv => ⟨rv, fun _ habove => absurd habove.1.symm habove.2⟩⟩
  apply finiteHeight_of_map (f := fun frame : Frame V => (frame.locals, frame.stack, frame.returnValue)) _ _ hpair
  · rintro ⟨ls, st, rv⟩ ⟨ls', st', rv'⟩ heq
    cases heq
    rfl
  · intro f g hfg
    exact ⟨hfg.locals, hfg.stack, hfg.returnValue⟩

/-- Two frames of one shape meet in their join. -/
theorem Interpreter.Lattice.meet {f g : Frame V} (hlocals : f.locals.length = g.locals.length)
    (hstack : f.stack.length = g.stack.length) (hrv : f.returnValue = g.returnValue) :
    IsJoin (Frame.Le I) (fun x => x = f ∨ x = g)
      ⟨meetAll I.mergeLocal f.locals g.locals, meetAll I.mergeStack f.stack g.stack, f.returnValue⟩ := by
  obtain ⟨hfl, hgl, hleastl⟩ := h.local_laws.meetAll_spec hlocals
  obtain ⟨hfs, hgs, hleasts⟩ := h.stack_laws.meetAll_spec hstack
  constructor
  · rintro x (rfl | rfl)
    · exact ⟨hfl, hfs, rfl⟩
    · exact ⟨hgl, hgs, hrv.symm⟩
  · intro u hu
    have hf := hu f (.inl rfl)
    have hg := hu g (.inr rfl)
    exact ⟨hleastl _ hf.locals hg.locals, hleasts _ hf.stack hg.stack, hf.returnValue⟩

theorem Interpreter.Lattice.hasJoins : HasJoins (Frame.Le I) := by
  intro f g u hf hg
  have hlocals := hf.locals.length_eq.trans hg.locals.length_eq.symm
  have hstack := hf.stack.length_eq.trans hg.stack.length_eq.symm
  exact ⟨_, h.meet hlocals hstack (hf.returnValue.trans hg.returnValue.symm)⟩

end Frames

end Krusty.Jvm.BytecodePasses
