-- SUMMARY: Networks whose processes can give up waiting, once nothing else can move: where all their runs lead.
import HsmFirmware.Library.Network
import Mathlib.Logic.Relation

/-!
# Timeouts

A process that waits for an item may give up. It waits longer than anything else takes, so
that it gives up only when no other move is left. A run is then one of the untimed network up
to a state where all are waiting or have halted, a timeout, and so on.
-/

namespace Net

section

variable {β σ τ : Type}

/-- One step of a network in which waiting processes give up when nothing else can move. -/
inductive TimedStep (next : σ → Next β σ) (next' : τ → Next β τ) (giveUp : σ → Option σ)
    (giveUp' : τ → Option τ) : Net β σ τ → Net β σ τ → Prop where
  | move {n t : Net β σ τ} (m : Move) (h : step next next' m n = some t) :
      TimedStep next next' giveUp giveUp' n t
  | left {n : Net β σ τ} {s : σ} (hfinal : Final (step next next') n)
      (h : giveUp n.left = some s) : TimedStep next next' giveUp giveUp' n { n with left := s }
  | right {n : Net β σ τ} {t : τ} (hfinal : Final (step next next') n)
      (h : giveUp' n.right = some t) : TimedStep next next' giveUp giveUp' n { n with right := t }

/-- Some run leads from one state to the other. -/
abbrev TimedReaches (next : σ → Next β σ) (next' : τ → Next β τ) (giveUp : σ → Option σ)
    (giveUp' : τ → Option τ) : Net β σ τ → Net β σ τ → Prop :=
  Relation.ReflTransGen (TimedStep next next' giveUp giveUp')

variable {next : σ → Next β σ} {next' : τ → Next β τ} {giveUp : σ → Option σ}
  {giveUp' : τ → Option τ}

theorem Reaches.timed {n t : Net β σ τ} (h : Reaches next next' n t) :
    TimedReaches next next' giveUp giveUp' n t := by
  obtain ⟨k, hk⟩ := h
  induction hk with
  | refl s => exact .refl
  | head m hm _ ih => exact .head (.move m hm) ih

/-- In a state where nothing moves, only timeouts are steps. -/
theorem TimedStep.of_final {n t : Net β σ τ} (hfinal : Final (step next next') n)
    (h : TimedStep next next' giveUp giveUp' n t) :
    (∃ s, giveUp n.left = some s ∧ t = { n with left := s }) ∨
      ∃ s, giveUp' n.right = some s ∧ t = { n with right := s } := by
  cases h with
  | move m hm => exact (Option.some_ne_none _ (hm.symm.trans (hfinal m))).elim
  | left _ hs => exact .inl ⟨_, hs, rfl⟩
  | right _ hs => exact .inr ⟨_, hs, rfl⟩

/-- A run is on its way to the state where nothing moves, or went through it and goes on with a
    timeout there. -/
theorem TimedReaches.through {k : Nat} {n u x : Net β σ τ} (h : Steps (step next next') k n u)
    (hu : Final (step next next') u) (hx : TimedReaches next next' giveUp giveUp' n x) :
    (∃ j, Steps (step next next') j x u) ∨
      ∃ v, TimedStep next next' giveUp giveUp' u v ∧ TimedReaches next next' giveUp giveUp' v x := by
  induction hx using Relation.ReflTransGen.head_induction_on generalizing k with
  | refl => exact .inl ⟨k, h⟩
  | @head n n₁ hstep htail ih =>
    have hpassed : Final (step next next') n → ∃ v, TimedStep next next' giveUp giveUp' u v ∧
        TimedReaches next next' giveUp giveUp' v x := by
      intro hfinal
      cases h with
      | refl => exact ⟨n₁, hstep, htail⟩
      | head m hm => exact (Option.some_ne_none _ (hm.symm.trans (hfinal m))).elim
    cases hstep with
    | move m hm =>
      obtain ⟨j, -, hj⟩ := h.residual (step_commute next next') hu hm
      exact ih hj
    | left hfinal _ => exact .inr (hpassed hfinal)
    | right hfinal _ => exact .inr (hpassed hfinal)

/-! ## Where runs lead -/

/-- All runs lead to one state, where none goes on. -/
inductive Settles (next : σ → Next β σ) (next' : τ → Next β τ) (giveUp : σ → Option σ)
    (giveUp' : τ → Option τ) : Net β σ τ → Net β σ τ → Prop where
  | ended {n t : Net β σ τ} (h : Reaches next next' n t) (hfinal : Final (step next next') t)
      (hstop : ∀ u, ¬ TimedStep next next' giveUp giveUp' t u) :
      Settles next next' giveUp giveUp' n t
  /-- Only one timeout is possible where the untimed runs end. -/
  | timeout {n u v t : Net β σ τ} (h : Reaches next next' n u)
      (hfinal : Final (step next next') u) (hstep : TimedStep next next' giveUp giveUp' u v)
      (honly : ∀ x, TimedStep next next' giveUp giveUp' u x → x = v)
      (rest : Settles next next' giveUp giveUp' v t) : Settles next next' giveUp giveUp' n t

namespace Settles

theorem of_reaches {n m t : Net β σ τ} (h : Reaches next next' n m)
    (h' : Settles next next' giveUp giveUp' m t) : Settles next next' giveUp giveUp' n t := by
  cases h' with
  | ended hr hfinal hstop => exact .ended (h.trans hr) hfinal hstop
  | timeout hr hfinal hstep honly rest => exact .timeout (h.trans hr) hfinal hstep honly rest

theorem reaches {n t : Net β σ τ} (h : Settles next next' giveUp giveUp' n t) :
    TimedReaches next next' giveUp giveUp' n t := by
  induction h with
  | ended hr _ _ => exact hr.timed
  | timeout hr _ hstep _ _ ih => exact hr.timed.trans (.head hstep ih)

/-- Every run can be completed. -/
theorem completes {n t x : Net β σ τ} (h : Settles next next' giveUp giveUp' n t)
    (hx : TimedReaches next next' giveUp giveUp' n x) :
    TimedReaches next next' giveUp giveUp' x t := by
  induction h generalizing x with
  | ended hr hfinal hstop =>
    obtain ⟨k, hk⟩ := hr
    rcases hx.through hk hfinal with ⟨j, hj⟩ | ⟨v, hv, -⟩
    · exact Reaches.timed ⟨j, hj⟩
    · exact (hstop v hv).elim
  | timeout hr hfinal hstep honly rest ih =>
    obtain ⟨k, hk⟩ := hr
    rcases hx.through hk hfinal with ⟨j, hj⟩ | ⟨v, hv, hvx⟩
    · exact (Reaches.timed ⟨j, hj⟩).trans (.head hstep rest.reaches)
    · exact ih (honly v hv ▸ hvx)

end Settles

end

end Net
