-- SUMMARY: Services that answer requests one after the other, and refinement between two of them.
import Mathlib.Tactic.Common

/-!
# Services

A service answers a request and goes on from another state. One service refines another
when related states answer alike and stay related; then whole sequences of requests are
answered alike.
-/

/-- What is answered to a request, and the state to go on from. -/
abbrev Service (Req Rep σ : Type) := Req → σ → Rep × σ

namespace Service

variable {Req Rep σ τ : Type}

/-- The answers to a sequence of requests, and the last state. -/
def run (S : Service Req Rep σ) : List Req → σ → List Rep × σ
  | [], s => ([], s)
  | q :: qs, s => ((S q s).1 :: (S.run qs (S q s).2).1, (S.run qs (S q s).2).2)

@[simp] theorem run_nil (S : Service Req Rep σ) (s : σ) : S.run [] s = ([], s) := rfl

@[simp] theorem run_cons (S : Service Req Rep σ) (q : Req) (qs : List Req) (s : σ) :
    S.run (q :: qs) s = ((S q s).1 :: (S.run qs (S q s).2).1, (S.run qs (S q s).2).2) := rfl

/-- On the requests in `ok`, `S` answers as `T` does from every related state. -/
structure Refines (S : Service Req Rep σ) (T : Service Req Rep τ) (ok : Req → Prop)
    (R : σ → τ → Prop) : Prop where
  answers : ∀ q s t, ok q → R s t → (S q s).1 = (T q t).1
  keeps : ∀ q s t, ok q → R s t → R (S q s).2 (T q t).2

/-- So it does for a sequence of them. -/
theorem Refines.run {S : Service Req Rep σ} {T : Service Req Rep τ} {ok : Req → Prop}
    {R : σ → τ → Prop} (h : S.Refines T ok R) {qs : List Req} (hqs : ∀ q ∈ qs, ok q) {s : σ}
    {t : τ} (hst : R s t) :
    (S.run qs s).1 = (T.run qs t).1 ∧ R (S.run qs s).2 (T.run qs t).2 := by
  induction qs generalizing s t with
  | nil => exact ⟨rfl, hst⟩
  | cons q qs ih =>
    have hq : ok q := hqs q List.mem_cons_self
    obtain ⟨hreplies, hlast⟩ := ih (fun q' hq' => hqs q' (List.mem_cons_of_mem q hq'))
      (h.keeps q s t hq hst)
    rw [run_cons, run_cons, h.answers q s t hq hst, hreplies]
    exact ⟨rfl, hlast⟩

end Service
