-- SUMMARY: A program with the failures of its durable operations woven in, so that it can run where nothing fails.
import HsmFirmware.Library.Machine

/-!
# Faults as part of a program

Where programs run beside each other, it is handy to have the failures of the durable
operations in the program and not in a schedule. A failed operation is left out, or its
answer is ignored, and the program goes on as it does after a refusal.
-/

/-- What happens to the durable operations to come, while the power stays on: success, or a
    failure with or without an effect. Past the end of the list all succeed. -/
abbrev Faults := List (Option Bool)

def Faults.schedule (fs : Faults) : Schedule :=
  fs.map fun
    | none => .done
    | some effect => .failed effect

variable {Op : Type} {Res : Op → Type} {σ α : Type}

namespace Machine

/-- The program in which the durable operations of the machine meet these faults. -/
def under (M : Machine Res σ) : Prog Res α → Faults → Prog Res α
  | .ret a, _ => .ret a
  | .call o k, fs =>
    match M.durable o, fs with
    | false, fs => .call o fun r => M.under (k r) fs
    | true, [] => .call o fun r => M.under (k r) []
    | true, none :: fs => .call o fun r => M.under (k r) fs
    | true, some true :: fs => .call o fun _ => M.under (k (M.refuse o)) fs
    | true, some false :: fs => M.under (k (M.refuse o)) fs

section

variable {M : Machine Res σ} {o : Op}

theorem under_call_volatile (ho : M.durable o = false) (k : Res o → Prog Res α) (fs : Faults) :
    M.under (.call o k) fs = .call o fun r => M.under (k r) fs := by
  simp only [under.eq_def M (.call o k), ho]

theorem under_call_nil (ho : M.durable o = true) (k : Res o → Prog Res α) :
    M.under (.call o k) [] = .call o fun r => M.under (k r) [] := by
  simp only [under.eq_def M (.call o k), ho]

theorem under_call_done (ho : M.durable o = true) (k : Res o → Prog Res α) (fs : Faults) :
    M.under (.call o k) (none :: fs) = .call o fun r => M.under (k r) fs := by
  simp only [under.eq_def M (.call o k), ho]

theorem under_call_failed (ho : M.durable o = true) (k : Res o → Prog Res α) (fs : Faults) :
    M.under (.call o k) (some true :: fs) = .call o fun _ => M.under (k (M.refuse o)) fs := by
  simp only [under.eq_def M (.call o k), ho]

theorem under_call_refused (ho : M.durable o = true) (k : Res o → Prog Res α) (fs : Faults) :
    M.under (.call o k) (some false :: fs) = M.under (k (M.refuse o)) fs := by
  simp only [under.eq_def M (.call o k), ho]

/-- A program without durable operations meets no faults. -/
theorem under_of_performs {p : Prog Res α} (hp : p.Performs fun o => M.durable o = false)
    (fs : Faults) : M.under p fs = p := by
  induction p with
  | ret a => rfl
  | call o k ih =>
    rw [under_call_volatile hp.1]
    exact congrArg _ (funext fun r => ih r (hp.2 r))

theorem performs_under {P : Op → Prop} {p : Prog Res α} (hp : p.Performs P) (fs : Faults) :
    (M.under p fs).Performs P := by
  induction p generalizing fs with
  | ret a => trivial
  | call o k ih =>
    cases ho : M.durable o with
    | false =>
      rw [under_call_volatile ho]
      exact ⟨hp.1, fun r => ih r (hp.2 r) fs⟩
    | true =>
      match fs with
      | [] =>
        rw [under_call_nil ho]
        exact ⟨hp.1, fun r => ih r (hp.2 r) []⟩
      | none :: fs =>
        rw [under_call_done ho]
        exact ⟨hp.1, fun r => ih r (hp.2 r) fs⟩
      | some true :: fs =>
        rw [under_call_failed ho]
        exact ⟨hp.1, fun _ => ih _ (hp.2 _) fs⟩
      | some false :: fs =>
        rw [under_call_refused ho]
        exact ih _ (hp.2 _) fs

/-- The program under faults does, where nothing fails, what the program does where they occur. -/
theorem runs_under (M : Machine Res σ) (p : Prog Res α) (fs : Faults) (s : σ) :
    ∃ a s' L fs', M.exec p fs.schedule s = .done a s' L (Faults.schedule fs') ∧
      M.Runs (M.under p fs) s a s' L := by
  induction p generalizing fs s with
  | ret a => exact ⟨a, s, [], fs, rfl, rfl⟩
  | call o k ih =>
    cases ho : M.durable o with
    | false =>
      obtain ⟨a, s', L, fs', hexec, hruns⟩ := ih (M.act o s).1 fs (M.act o s).2
      refine ⟨a, s', L, fs', ?_, ?_⟩
      · rw [exec_call_volatile _ _ _ _ ho, hexec]
      · rw [under_call_volatile ho, Runs, exec_call_volatile _ _ _ _ ho]
        exact hruns
    | true =>
      rcases fs with _ | ⟨_ | _ | _, fs⟩
      · obtain ⟨a, s', L, fs', hexec, hruns⟩ := ih (M.act o s).1 [] (M.act o s).2
        have hexec' : M.exec (k (M.act o s).1) [] (M.act o s).2 = _ := hexec
        refine ⟨a, s', o :: L, fs', ?_, ?_⟩
        · show M.exec (.call o k) [] s = _
          rw [exec_call_nil _ _ _ ho, hexec']
          rfl
        · rw [under_call_nil ho, Runs, exec_call_nil _ _ _ ho, hruns]
          rfl
      · obtain ⟨a, s', L, fs', hexec, hruns⟩ := ih (M.act o s).1 fs (M.act o s).2
        refine ⟨a, s', o :: L, fs', ?_, ?_⟩
        · show M.exec (.call o k) (.done :: Faults.schedule fs) s = _
          rw [exec_call_done _ _ _ _ ho, hexec]
          rfl
        · rw [under_call_done ho, Runs, exec_call_nil _ _ _ ho, hruns]
          rfl
      · obtain ⟨a, s', L, fs', hexec, hruns⟩ := ih (M.refuse o) fs s
        refine ⟨a, s', L, fs', ?_, ?_⟩
        · show M.exec (.call o k) (.failed false :: Faults.schedule fs) s = _
          rw [exec_call_failed _ _ _ _ ho, if_neg Bool.false_ne_true, if_neg Bool.false_ne_true,
            hexec]
          rfl
        · rw [under_call_refused ho]
          exact hruns
      · obtain ⟨a, s', L, fs', hexec, hruns⟩ := ih (M.refuse o) fs (M.act o s).2
        refine ⟨a, s', o :: L, fs', ?_, ?_⟩
        · show M.exec (.call o k) (.failed true :: Faults.schedule fs) s = _
          rw [exec_call_failed _ _ _ _ ho, if_pos rfl, if_pos rfl, hexec]
          rfl
        · rw [under_call_failed ho, Runs, exec_call_nil _ _ _ ho, hruns]
          rfl

end

end Machine
