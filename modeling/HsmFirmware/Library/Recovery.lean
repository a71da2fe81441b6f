-- SUMMARY: Systems that boot, run commands and lose power at any time, and the rule for what holds over all their runs.
import HsmFirmware.Library.Machine

/-!
# Recovery

A system on a machine that fails has two phases. While it is off, there is the state of the
machine alone. A boot ends with what the system keeps in volatile memory, and commands follow,
each from what the one before has left. Power can be lost inside any of these programs and
between them; what was kept in volatile memory is gone then.

An invariant has two parts: one for the machine, which a power loss must not break, and one for
the machine together with the volatile memory, while the system is on.
-/

namespace Recovery

variable {Op : Type} {Res : Op → Type} {σ ρ β κ : Type}

/-- The program of a boot, from what the volatile memory happens to hold, and the program of a
    command. -/
structure System (Res : Op → Type) (β κ ρ : Type) where
  boot : β → Prog Res ρ
  command : κ → ρ → Prog Res ρ

/-- A system between two programs. -/
inductive Phase (ρ σ : Type) where
  | off (s : σ)
  | on (r : ρ) (s : σ)

section

variable (M : Machine Res σ) (S : System Res β κ ρ) (around : σ → σ → Prop)
  (ok : κ → Schedule → ρ → σ → Prop)

/-- A program of the system, or a change of the state that is not its own. The commands satisfy
    `ok`. -/
inductive Step : Phase ρ σ → Phase ρ σ → Prop where
  | boot (b : β) (fs : Schedule) {s t : σ} {r : ρ} {L : List Op} {rest : Schedule}
      (h : M.exec (S.boot b) fs s = .done r t L rest) : Step (.off s) (.on r t)
  | bootLost (b : β) (fs : Schedule) {s t : σ} {L : List Op}
      (h : M.exec (S.boot b) fs s = .off t L) : Step (.off s) (.off t)
  | command (k : κ) (fs : Schedule) {r r' : ρ} {s t : σ} {L : List Op} {rest : Schedule}
      (hok : ok k fs r s) (h : M.exec (S.command k r) fs s = .done r' t L rest) :
      Step (.on r s) (.on r' t)
  | commandLost (k : κ) (fs : Schedule) {r : ρ} {s t : σ} {L : List Op} (hok : ok k fs r s)
      (h : M.exec (S.command k r) fs s = .off t L) : Step (.on r s) (.off t)
  | lost (r : ρ) (s : σ) : Step (.on r s) (.off s)
  | changes (r : ρ) {s t : σ} (h : around s t) : Step (.on r s) (.on r t)

/-- What a system that is off at first comes to. -/
inductive Run (s : σ) : Phase ρ σ → Prop where
  | init : Run s (.off s)
  | step {p q : Phase ρ σ} (run : Run s p) (h : Step M S around ok p q) : Run s q

/-- `C` holds while the system is off and `I` while it is on, whatever happens. -/
structure Invariant (C : σ → Prop) (I : ρ → σ → Prop) : Prop where
  boot : ∀ b fs s, C s → (M.exec (S.boot b) fs s).Sat (fun r t _ _ => I r t) fun t _ => C t
  command : ∀ k fs r s, ok k fs r s → I r s →
    (M.exec (S.command k r) fs s).Sat (fun r' t _ _ => I r' t) fun t _ => C t
  lost : ∀ r s, I r s → C s
  changes : ∀ r s t, around s t → I r s → I r t

end

/-- One of two conditions, by the phase. -/
def Phase.Holds (C : σ → Prop) (I : ρ → σ → Prop) : Phase ρ σ → Prop
  | .off s => C s
  | .on r s => I r s

section

variable {M : Machine Res σ} {S : System Res β κ ρ} {around : σ → σ → Prop}
  {ok : κ → Schedule → ρ → σ → Prop} {C : σ → Prop} {I : ρ → σ → Prop}

theorem Step.keeps {p q : Phase ρ σ} (hinv : Invariant M S around ok C I)
    (h : Step M S around ok p q) (hp : p.Holds C I) : q.Holds C I := by
  cases h with
  | boot b fs h =>
    have hsat := hinv.boot b fs _ hp
    rw [h] at hsat
    exact hsat
  | bootLost b fs h =>
    have hsat := hinv.boot b fs _ hp
    rw [h] at hsat
    exact hsat
  | command k fs hok h =>
    have hsat := hinv.command k fs _ _ hok hp
    rw [h] at hsat
    exact hsat
  | commandLost k fs hok h =>
    have hsat := hinv.command k fs _ _ hok hp
    rw [h] at hsat
    exact hsat
  | lost r s => exact hinv.lost r s hp
  | changes r h => exact hinv.changes r _ _ h hp

/-- A condition on the commands can be weakened. -/
theorem Step.mono {ok' : κ → Schedule → ρ → σ → Prop} (hok : ∀ k fs r s, ok k fs r s → ok' k fs r s)
    {p q : Phase ρ σ} (h : Step M S around ok p q) : Step M S around ok' p q := by
  cases h with
  | boot b fs h => exact .boot b fs h
  | bootLost b fs h => exact .bootLost b fs h
  | command k fs hcommand h => exact .command k fs (hok k fs _ _ hcommand) h
  | commandLost k fs hcommand h => exact .commandLost k fs (hok k fs _ _ hcommand) h
  | lost r s => exact .lost r s
  | changes r h => exact .changes r h

theorem Run.mono {ok' : κ → Schedule → ρ → σ → Prop} (hok : ∀ k fs r s, ok k fs r s → ok' k fs r s)
    {s : σ} {p : Phase ρ σ} (run : Run M S around ok s p) : Run M S around ok' s p := by
  induction run with
  | init => exact .init
  | step run h ih => exact ih.step (h.mono hok)

/-- An invariant that holds at first holds in every phase of a run. -/
theorem Run.holds {s : σ} {p : Phase ρ σ} (hinv : Invariant M S around ok C I)
    (run : Run M S around ok s p) (hs : C s) : p.Holds C I := by
  induction run with
  | init => exact hs
  | step run h ih => exact h.keeps hinv ih

end

end Recovery
