-- SUMMARY: Running a program on a machine whose durable operations may fail or be cut off by a power loss.
import HsmFirmware.Library.Prog
import Mathlib.Tactic.Common
import Mathlib.Data.List.Basic

/-!
# Machines that fail and lose power

A machine gives each operation its effect on a state. Some operations are
*durable*: their effect outlives a power loss, each of them is atomic, and each
of them may be refused. A schedule says what happens to the durable operations,
one after the other. The log of a run holds the durable operations that took
effect.
-/

/-- What happens to one durable operation. -/
inductive Outcome where
  /-- It is carried out and reports success. -/
  | done
  /-- It reports failure, and took effect or not. -/
  | failed (effect : Bool)
  /-- Power is lost before it. -/
  | powerLost
  deriving DecidableEq, Repr

/-- The outcomes of the durable operations to come. An empty schedule lets all
    of them succeed. -/
abbrev Schedule := List Outcome

namespace Schedule

/-- The next `n` durable operations succeed. -/
def AllDone (n : Nat) (fs : Schedule) : Prop := ∀ o ∈ fs.take n, o = .done

instance (n : Nat) (fs : Schedule) : Decidable (AllDone n fs) :=
  inferInstanceAs (Decidable (∀ o ∈ fs.take n, o = .done))

/-- Power is lost after `k` successful durable operations. -/
def cut (k : Nat) : Schedule := List.replicate k .done ++ [.powerLost]

@[simp] theorem allDone_zero (fs : Schedule) : AllDone 0 fs := by simp [AllDone]
@[simp] theorem allDone_nil (n : Nat) : AllDone n [] := by simp [AllDone]

@[simp] theorem allDone_succ_cons {n : Nat} {o : Outcome} {fs : Schedule} :
    AllDone (n + 1) (o :: fs) ↔ o = .done ∧ AllDone n fs := by
  simp [AllDone]

/-- What answers one of these commands. -/
theorem AllDone.getElem? {n j : Nat} {fs : Schedule} {o : Outcome} (h : AllDone n fs) (hj : j < n)
    (ho : fs[j]? = some o) : o = .done := by
  obtain ⟨hlen, heq⟩ := List.getElem?_eq_some_iff.mp ho
  apply h
  exact List.mem_take_iff_getElem.mpr ⟨j, Nat.lt_min.mpr ⟨hj, hlen⟩, heq⟩

theorem AllDone.mono {m n : Nat} {fs : Schedule} (h : AllDone n fs) (hmn : m ≤ n) :
    AllDone m fs :=
  fun o ho => h o (List.take_subset_take_left fs hmn ho)

theorem allDone_add {m n : Nat} {fs : Schedule} :
    AllDone (m + n) fs ↔ AllDone m fs ∧ AllDone n (fs.drop m) := by
  induction m generalizing fs with
  | zero => simp
  | succ m ih =>
    cases fs with
    | nil => simp
    | cons o fs => rw [Nat.succ_add, allDone_succ_cons, allDone_succ_cons, ih]; simp [and_assoc]

@[simp] theorem cut_zero : cut 0 = [.powerLost] := rfl
@[simp] theorem cut_succ (k : Nat) : cut (k + 1) = .done :: cut k := rfl

theorem allDone_cut {n k : Nat} (h : n ≤ k) : AllDone n (cut k) := by
  intro o ho
  rw [cut, List.take_append_of_le_length (by simpa using h)] at ho
  exact List.eq_of_mem_replicate (List.mem_of_mem_take ho)

/-- What is left of the schedule when `n` operations are attempted up to the first one
    that is refused. -/
def attempt : Nat → Schedule → Schedule
  | 0, fs => fs
  | _ + 1, [] => []
  | n + 1, .done :: fs => attempt n fs
  | _ + 1, .failed _ :: fs => fs
  | _ + 1, .powerLost :: _ => []

theorem attempt_of_allDone {n : Nat} {fs : Schedule} (h : AllDone n fs) :
    attempt n fs = fs.drop n := by
  induction n generalizing fs with
  | zero => rfl
  | succ n ih =>
    cases fs with
    | nil => rfl
    | cons o fs =>
      obtain ⟨rfl, htail⟩ := allDone_succ_cons.mp h
      exact ih htail

theorem attempt_of_failed {n j : Nat} {e : Bool} {fs : Schedule} (hj : j < n) (h : AllDone j fs)
    (hfs : fs[j]? = some (.failed e)) : attempt n fs = fs.drop (j + 1) := by
  induction j generalizing n fs with
  | zero =>
    obtain ⟨n, rfl⟩ := Nat.exists_eq_succ_of_ne_zero (Nat.ne_of_gt hj)
    cases fs with
    | nil => simp at hfs
    | cons o fs =>
      obtain rfl : o = .failed e := by simpa using hfs
      rfl
  | succ j ih =>
    obtain ⟨n, rfl⟩ := Nat.exists_eq_succ_of_ne_zero (Nat.ne_of_gt (Nat.zero_lt_of_lt hj))
    cases fs with
    | nil => simp at hfs
    | cons o fs =>
      obtain ⟨rfl, htail⟩ := allDone_succ_cons.mp h
      exact ih (Nat.lt_of_succ_lt_succ hj) htail (by simpa using hfs)

/-- How many of `n` operations take effect when they are attempted up to the first one that
    is refused. -/
def effects : Nat → Schedule → Nat
  | 0, _ => 0
  | n + 1, [] => n + 1
  | n + 1, .done :: fs => effects n fs + 1
  | _ + 1, .failed e :: _ => e.toNat
  | _ + 1, .powerLost :: _ => 0

/-- The operation behind the next `n` takes effect, if it is attempted at all. -/
def TakesEffect (n : Nat) (fs : Schedule) : Prop := 0 < effects 1 (fs.drop n)

theorem AllDone.takesEffect {n : Nat} {fs : Schedule} (h : AllDone (n + 1) fs) :
    TakesEffect n fs := by
  have hlast := (allDone_add.mp h).2
  unfold TakesEffect
  cases hdrop : fs.drop n with
  | nil => exact Nat.one_pos
  | cons o rest =>
    rw [hdrop] at hlast
    obtain rfl := (allDone_succ_cons.mp hlast).1
    exact Nat.one_pos

/-- An operation that reports a failure says whether it took effect, one without power did not. -/
theorem takesEffect_iff {n : Nat} {o : Outcome} {fs : Schedule} (h : fs[n]? = some o) :
    TakesEffect n fs ↔ 0 < effects 1 [o] := by
  have hdrop : fs.drop n = o :: fs.drop (n + 1) := by
    obtain ⟨hlt, rfl⟩ := List.getElem?_eq_some_iff.mp h
    exact List.drop_eq_getElem_cons hlt
  unfold TakesEffect
  rw [hdrop]
  cases o <;> rfl

/-- One of `n` operations attempted so is refused, with the power on. -/
def refuses : Nat → Schedule → Bool
  | 0, _ => false
  | _ + 1, [] => false
  | n + 1, .done :: fs => refuses n fs
  | _ + 1, .failed _ :: _ => true
  | _ + 1, .powerLost :: _ => false

theorem effects_of_allDone {n : Nat} {fs : Schedule} (h : AllDone n fs) :
    effects n fs = n ∧ refuses n fs = false := by
  induction n generalizing fs with
  | zero => exact ⟨rfl, rfl⟩
  | succ n ih =>
    cases fs with
    | nil => exact ⟨rfl, rfl⟩
    | cons o fs =>
      obtain ⟨rfl, htail⟩ := allDone_succ_cons.mp h
      exact ⟨congrArg Nat.succ (ih htail).1, (ih htail).2⟩

/-- The first operation that does not succeed decides. -/
theorem effects_of_first {n j : Nat} {o : Outcome} {fs : Schedule} (hj : j < n)
    (h : AllDone j fs) (hfs : fs[j]? = some o) (ho : o ≠ .done) :
    effects n fs = j + effects 1 [o] ∧ refuses n fs = refuses 1 [o] := by
  induction j generalizing n fs with
  | zero =>
    obtain ⟨n, rfl⟩ := Nat.exists_eq_succ_of_ne_zero (Nat.ne_of_gt hj)
    cases fs with
    | nil => simp at hfs
    | cons o' fs =>
      obtain rfl : o' = o := by simpa using hfs
      cases o' with
      | done => exact absurd rfl ho
      | failed e => exact ⟨(Nat.zero_add _).symm, rfl⟩
      | powerLost => exact ⟨rfl, rfl⟩
  | succ j ih =>
    obtain ⟨n, rfl⟩ := Nat.exists_eq_succ_of_ne_zero (Nat.ne_of_gt (Nat.zero_lt_of_lt hj))
    cases fs with
    | nil => simp at hfs
    | cons o' fs =>
      obtain ⟨rfl, htail⟩ := allDone_succ_cons.mp h
      obtain ⟨heffects, hrefuses⟩ := ih (Nat.lt_of_succ_lt_succ hj) htail (by simpa using hfs)
      refine ⟨?_, hrefuses⟩
      show effects n fs + 1 = _
      rw [heffects, Nat.add_right_comm]

end Schedule

/-- The effect of each operation on a state, which operations are durable, and
    what a refused one reports. -/
structure Machine {Op : Type} (Res : Op → Type) (σ : Type) where
  durable : Op → Bool
  act : (o : Op) → σ → Res o × σ
  refuse : (o : Op) → Res o

/-- How a run ends: with a result, or with the power off. -/
inductive Halt (Op σ α : Type) where
  | done (a : α) (s : σ) (log : List Op) (rest : Schedule)
  | off (s : σ) (log : List Op)

namespace Halt

variable {Op σ α β γ : Type}

/-- Put operations in front of the log. -/
def logged (l : List Op) : Halt Op σ α → Halt Op σ α
  | .done a s log fs => .done a s (l ++ log) fs
  | .off s log => .off s (l ++ log)

/-- Continue a run that ended with a result. -/
def andThen : Halt Op σ α → (α → σ → Schedule → Halt Op σ β) → Halt Op σ β
  | .done a s log fs, g => (g a s fs).logged log
  | .off s log, _ => .off s log

/-- The state a run ends in. -/
def state : Halt Op σ α → σ
  | .done _ s _ _ => s
  | .off s _ => s

/-- The durable operations that took effect. -/
def log : Halt Op σ α → List Op
  | .done _ _ log _ => log
  | .off _ log => log

/-- `Q` holds of a result, `C` of the state a power loss leaves. -/
def Sat (h : Halt Op σ α) (Q : α → σ → List Op → Schedule → Prop) (C : σ → List Op → Prop) :
    Prop :=
  match h with
  | .done a s log fs => Q a s log fs
  | .off s log => C s log

@[simp] theorem logged_nil (h : Halt Op σ α) : h.logged [] = h := by cases h <;> rfl

@[simp] theorem logged_done (l : List Op) (a : α) (s : σ) (log : List Op) (fs : Schedule) :
    (Halt.done a s log fs).logged l = .done a s (l ++ log) fs := rfl

@[simp] theorem logged_off (l : List Op) (s : σ) (log : List Op) :
    (Halt.off s log : Halt Op σ α).logged l = .off s (l ++ log) := rfl

@[simp] theorem logged_logged (l l' : List Op) (h : Halt Op σ α) :
    (h.logged l').logged l = h.logged (l ++ l') := by
  cases h <;> simp [logged, List.append_assoc]

@[simp] theorem andThen_done (a : α) (s : σ) (log : List Op) (fs : Schedule)
    (g : α → σ → Schedule → Halt Op σ β) :
    (Halt.done a s log fs).andThen g = (g a s fs).logged log := rfl

@[simp] theorem andThen_off (s : σ) (log : List Op) (g : α → σ → Schedule → Halt Op σ β) :
    (Halt.off s log : Halt Op σ α).andThen g = .off s log := rfl

theorem andThen_logged (l : List Op) (h : Halt Op σ α) (g : α → σ → Schedule → Halt Op σ β) :
    (h.logged l).andThen g = (h.andThen g).logged l := by
  cases h <;> simp

@[simp] theorem andThen_ret (h : Halt Op σ α) :
    (h.andThen fun a s fs => .done a s [] fs) = h := by
  cases h <;> simp

@[simp] theorem state_logged (l : List Op) (h : Halt Op σ α) : (h.logged l).state = h.state := by
  cases h <;> rfl

@[simp] theorem log_logged (l : List Op) (h : Halt Op σ α) : (h.logged l).log = l ++ h.log := by
  cases h <;> rfl

end Halt

namespace Machine

variable {Op : Type} {Res : Op → Type} {σ τ α β : Type}

/-- Run a program under a schedule. -/
def exec (M : Machine Res σ) : Prog Res α → Schedule → σ → Halt Op σ α
  | .ret a, fs, s => .done a s [] fs
  | .call o k, fs, s =>
    if M.durable o then
      match fs with
      | [] => (M.exec (k (M.act o s).1) [] (M.act o s).2).logged [o]
      | .done :: fs => (M.exec (k (M.act o s).1) fs (M.act o s).2).logged [o]
      | .failed true :: fs => (M.exec (k (M.refuse o)) fs (M.act o s).2).logged [o]
      | .failed false :: fs => M.exec (k (M.refuse o)) fs s
      | .powerLost :: _ => .off s []
    else M.exec (k (M.act o s).1) fs (M.act o s).2

@[simp] theorem exec_ret (M : Machine Res σ) (a : α) (fs : Schedule) (s : σ) :
    M.exec (.ret a) fs s = .done a s [] fs := rfl

theorem exec_call_volatile (M : Machine Res σ) {o : Op} (k : Res o → Prog Res α) (fs : Schedule)
    (s : σ) (h : M.durable o = false) :
    M.exec (.call o k) fs s = M.exec (k (M.act o s).1) fs (M.act o s).2 := by
  simp [exec, h]

section Durable

variable (M : Machine Res σ) {o : Op} (k : Res o → Prog Res α) (fs : Schedule) (s : σ)

theorem exec_call_nil (h : M.durable o = true) :
    M.exec (.call o k) [] s = (M.exec (k (M.act o s).1) [] (M.act o s).2).logged [o] := by
  simp [exec, h]

theorem exec_call_done (h : M.durable o = true) :
    M.exec (.call o k) (.done :: fs) s =
      (M.exec (k (M.act o s).1) fs (M.act o s).2).logged [o] := by
  simp [exec, h]

theorem exec_call_failed (h : M.durable o = true) (e : Bool) :
    M.exec (.call o k) (.failed e :: fs) s =
      (M.exec (k (M.refuse o)) fs (if e then (M.act o s).2 else s)).logged
        (if e then [o] else []) := by
  cases e <;> simp [exec, h]

theorem exec_call_powerLost (h : M.durable o = true) :
    M.exec (.call o k) (.powerLost :: fs) s = .off s [] := by
  simp [exec, h]

end Durable

/-- A sequence runs its first part, then its continuation. -/
theorem exec_bind (M : Machine Res σ) (p : Prog Res α) (f : α → Prog Res β) (fs : Schedule)
    (s : σ) :
    M.exec (p >>= f) fs s = (M.exec p fs s).andThen (fun a s' fs' => M.exec (f a) fs' s') := by
  induction p generalizing fs s with
  | ret a => simp
  | call o k ih =>
    rw [Prog.call_bind]
    cases h : M.durable o with
    | false => rw [exec_call_volatile _ _ _ _ h, exec_call_volatile _ _ _ _ h, ih]
    | true =>
      match fs with
      | [] => rw [exec_call_nil _ _ _ h, exec_call_nil _ _ _ h, ih, Halt.andThen_logged]
      | .done :: fs =>
        rw [exec_call_done _ _ _ _ h, exec_call_done _ _ _ _ h, ih, Halt.andThen_logged]
      | .failed e :: fs =>
        rw [exec_call_failed _ _ _ _ h, exec_call_failed _ _ _ _ h, ih, Halt.andThen_logged]
      | .powerLost :: fs =>
        rw [exec_call_powerLost _ _ _ _ h, exec_call_powerLost _ _ _ _ h, Halt.andThen_off]

/-! ## Fault-free runs -/

/-- Without faults, `p` ends in `s'` with result `a` and performs `L`. -/
def Runs (M : Machine Res σ) (p : Prog Res α) (s : σ) (a : α) (s' : σ) (L : List Op) : Prop :=
  M.exec p [] s = .done a s' L []

/-- A run of what follows the first operation. -/
theorem Runs.call {M : Machine Res σ} {o : Op} {k : Res o → Prog Res α} {s s' : σ} {a : α}
    {L : List Op} (h : M.Runs (k (M.act o s).1) (M.act o s).2 a s' L) :
    ∃ L', M.Runs (.call o k) s a s' L' := by
  cases hd : M.durable o with
  | false => exact ⟨L, by rw [Runs, exec_call_volatile _ _ _ _ hd]; exact h⟩
  | true => exact ⟨o :: L, by rw [Runs, exec_call_nil _ _ _ hd, h]; rfl⟩

/-- A fault-free run always ends with a result. -/
theorem exists_runs (M : Machine Res σ) (p : Prog Res α) (s : σ) :
    ∃ a s' L, M.Runs p s a s' L := by
  induction p generalizing s with
  | ret a => exact ⟨a, s, [], rfl⟩
  | call o k ih =>
    obtain ⟨a, s', L, h⟩ := ih (M.act o s).1 (M.act o s).2
    obtain ⟨L', h'⟩ := h.call
    exact ⟨a, s', L', h'⟩

theorem Runs.ret (M : Machine Res σ) (a : α) (s : σ) : M.Runs (.ret a) s a s [] := rfl

/-- A program has one fault-free run from a state. -/
theorem Runs.unique {M : Machine Res σ} {p : Prog Res α} {s s₁ s₂ : σ} {a b : α} {L L' : List Op}
    (h : M.Runs p s a s₁ L) (h' : M.Runs p s b s₂ L') : a = b ∧ s₁ = s₂ ∧ L = L' := by
  obtain ⟨ha, hs, hL, -⟩ := Halt.done.inj (h.symm.trans h')
  exact ⟨ha, hs, hL⟩

theorem Runs.bind {M : Machine Res σ} {p : Prog Res α} {f : α → Prog Res β} {s s' s'' : σ}
    {a : α} {b : β} {L L' : List Op} (hp : M.Runs p s a s' L) (hf : M.Runs (f a) s' b s'' L') :
    M.Runs (p >>= f) s b s'' (L ++ L') := by
  rw [Runs, exec_bind, hp, Halt.andThen_done, hf]
  rfl

/-- A schedule that lets every operation of the fault-free run succeed gives
    that run. -/
theorem Runs.exec_allDone {M : Machine Res σ} {p : Prog Res α} {s s' : σ} {a : α} {L : List Op}
    (h : M.Runs p s a s' L) {fs : Schedule} (hfs : fs.AllDone L.length) :
    M.exec p fs s = .done a s' L (fs.drop L.length) := by
  induction p generalizing s L fs with
  | ret b =>
    cases h
    simp
  | call o k ih =>
    cases hd : M.durable o with
    | false =>
      rw [Runs, exec_call_volatile _ _ _ _ hd] at h
      rw [exec_call_volatile _ _ _ _ hd, ih _ h hfs]
    | true =>
      rw [Runs, exec_call_nil _ _ _ hd] at h
      cases hr : M.exec (k (M.act o s).1) [] (M.act o s).2 with
      | off t l => rw [hr] at h; cases h
      | done b t l fs' =>
        rw [hr] at h
        cases h
        match fs with
        | [] => rw [exec_call_nil _ _ _ hd, hr]; simp
        | x :: fs =>
          have hcons : Schedule.AllDone (l.length + 1) (x :: fs) := hfs
          obtain ⟨rfl, htail⟩ := Schedule.allDone_succ_cons.mp hcons
          rw [exec_call_done _ _ _ _ hd, ih _ hr htail]
          simp

/-- Power lost after `k` operations leaves the first `k` operations of the
    fault-free run in the log. -/
theorem Runs.exec_cut {M : Machine Res σ} {p : Prog Res α} {s s' : σ} {a : α} {L : List Op}
    (h : M.Runs p s a s' L) {k : Nat} (hk : k < L.length) :
    ∃ t, M.exec p (Schedule.cut k) s = .off t (L.take k) := by
  induction p generalizing s L k with
  | ret b => cases h; simp at hk
  | call o q ih =>
    cases hd : M.durable o with
    | false =>
      rw [Runs, exec_call_volatile _ _ _ _ hd] at h
      rw [exec_call_volatile _ _ _ _ hd]
      exact ih _ h hk
    | true =>
      rw [Runs, exec_call_nil _ _ _ hd] at h
      cases hr : M.exec (q (M.act o s).1) [] (M.act o s).2 with
      | off t l => rw [hr] at h; cases h
      | done b t l fs' =>
        rw [hr] at h
        cases h
        cases k with
        | zero => exact ⟨s, by rw [Schedule.cut_zero, exec_call_powerLost _ _ _ _ hd]; rfl⟩
        | succ k =>
          obtain ⟨u, hu⟩ := ih _ hr (k := k) (by simpa using hk)
          exact ⟨u, by rw [Schedule.cut_succ, exec_call_done _ _ _ _ hd, hu]; rfl⟩

/-! ## Programs that give up

Most programs stop at the first durable operation that is refused. Under every
schedule such a program completes, gives up, or is cut off, and its log is a
prefix of the log of the fault-free run. -/

/-- The ways such a program ends, when `a`, `s'` and `L` are those of its fault-free
    run and `bad` holds of what it returns when it gives up. -/
inductive Ending (a : α) (s' : σ) (L : List Op) (bad : α → Prop) (fs : Schedule) :
    Halt Op σ α → Prop where
  | completed (h : fs.AllDone L.length) : Ending a s' L bad fs (.done a s' L (fs.drop L.length))
  | gaveUp {j : Nat} {e : Bool} {b : α} {t : σ} (hj : j < L.length) (h : fs.AllDone j)
      (hfs : fs[j]? = some (.failed e)) (hb : bad b) :
      Ending a s' L bad fs (.done b t (L.take (j + e.toNat)) (fs.drop (j + 1)))
  | cutOff {j : Nat} {t : σ} (hj : j < L.length) (h : fs.AllDone j)
      (hfs : fs[j]? = some .powerLost) : Ending a s' L bad fs (.off t (L.take j))

/-- `p` gives up at the first refused operation. -/
def Attempts (M : Machine Res σ) (p : Prog Res α) (s : σ) (a : α) (s' : σ) (L : List Op)
    (bad : α → Prop) : Prop :=
  ∀ fs, Ending a s' L bad fs (M.exec p fs s)

/-- The program ends without a durable operation, with a result in `P`. -/
def Quiet (M : Machine Res σ) (p : Prog Res α) (P : α → Prop) : Prop :=
  ∀ fs s, ∃ a s', M.exec p fs s = .done a s' [] fs ∧ P a

theorem Quiet.ret {M : Machine Res σ} {P : α → Prop} {a : α} (h : P a) : M.Quiet (.ret a) P :=
  fun _ s => ⟨a, s, rfl, h⟩

theorem Quiet.call {M : Machine Res σ} {P : α → Prop} {o : Op} {k : Res o → Prog Res α}
    (ho : M.durable o = false) (h : ∀ r, M.Quiet (k r) P) : M.Quiet (.call o k) P := by
  intro fs s
  obtain ⟨a, s', he, ha⟩ := h (M.act o s).1 fs (M.act o s).2
  exact ⟨a, s', by rw [exec_call_volatile _ _ _ _ ho, he], ha⟩

theorem Attempts.ret (M : Machine Res σ) (a : α) (s : σ) (bad : α → Prop) :
    M.Attempts (.ret a) s a s [] bad := by
  intro fs
  exact Ending.completed (Schedule.allDone_zero fs)

theorem Attempts.call_volatile {M : Machine Res σ} {o : Op} {k : Res o → Prog Res α} {s s' : σ}
    {a : α} {L : List Op} {bad : α → Prop} (ho : M.durable o = false)
    (h : M.Attempts (k (M.act o s).1) (M.act o s).2 a s' L bad) :
    M.Attempts (.call o k) s a s' L bad := by
  intro fs
  rw [exec_call_volatile _ _ _ _ ho]
  exact h fs

theorem Attempts.call_durable {M : Machine Res σ} {o : Op} {k : Res o → Prog Res α} {s s' : σ}
    {a : α} {L : List Op} {bad : α → Prop} (ho : M.durable o = true)
    (h : M.Attempts (k (M.act o s).1) (M.act o s).2 a s' L bad)
    (hbad : M.Quiet (k (M.refuse o)) bad) : M.Attempts (.call o k) s a s' (o :: L) bad := by
  intro fs
  match fs with
  | [] =>
    rw [exec_call_nil _ _ _ ho]
    have hend := h []
    generalize M.exec (k (M.act o s).1) [] (M.act o s).2 = r at hend ⊢
    cases hend with
    | completed _ =>
      have hend' : Ending a s' (o :: L) bad [] _ := .completed (Schedule.allDone_nil _)
      simpa using hend'
    | gaveUp _ _ hfs _ => simp at hfs
    | cutOff _ _ hfs => simp at hfs
  | .done :: fs =>
    rw [exec_call_done _ _ _ _ ho]
    have hend := h fs
    generalize M.exec (k (M.act o s).1) fs (M.act o s).2 = r at hend ⊢
    cases hend with
    | completed hd => exact Ending.completed (Schedule.allDone_succ_cons.mpr ⟨rfl, hd⟩)
    | @gaveUp j e b t hj hd hfs hb =>
      have hend' : Ending a s' (o :: L) bad (.done :: fs)
          (.done b t ((o :: L).take (j + 1 + e.toNat)) (fs.drop (j + 1))) :=
        .gaveUp (Nat.succ_lt_succ hj) (Schedule.allDone_succ_cons.mpr ⟨rfl, hd⟩) hfs hb
      rwa [Nat.succ_add] at hend'
    | cutOff hj hd hfs =>
      exact Ending.cutOff (L := o :: L) (Nat.succ_lt_succ hj)
        (Schedule.allDone_succ_cons.mpr ⟨rfl, hd⟩) hfs
  | .failed e :: fs =>
    rw [exec_call_failed _ _ _ _ ho]
    obtain ⟨b, t, he, hb⟩ := hbad fs (if e then (M.act o s).2 else s)
    have hend : Ending a s' (o :: L) bad (.failed e :: fs)
        (.done b t ((o :: L).take (0 + e.toNat)) fs) :=
      .gaveUp (Nat.zero_lt_succ _) (Schedule.allDone_zero _) rfl hb
    rw [he]
    cases e <;> simpa using hend
  | .powerLost :: fs =>
    rw [exec_call_powerLost _ _ _ _ ho]
    exact Ending.cutOff (L := o :: L) (Nat.zero_lt_succ _) (Schedule.allDone_zero _) rfl

/-- A sequence of two programs that give up, when the second passes the failure of
    the first on. -/
theorem Attempts.bind {M : Machine Res σ} {p : Prog Res α} {f : α → Prog Res β} {s s' s'' : σ}
    {a : α} {b : β} {L L' : List Op} {bad : α → Prop} {bad' : β → Prop}
    (hp : M.Attempts p s a s' L bad) (hf : M.Attempts (f a) s' b s'' L' bad')
    (hbad : ∀ c, bad c → M.Quiet (f c) bad') :
    M.Attempts (p >>= f) s b s'' (L ++ L') bad' := by
  intro fs
  rw [exec_bind]
  have hend := hp fs
  generalize M.exec p fs s = r at hend ⊢
  cases hend with
  | completed hd =>
    rw [Halt.andThen_done]
    have hend' := hf (fs.drop L.length)
    generalize M.exec (f a) (fs.drop L.length) s' = r' at hend' ⊢
    cases hend' with
    | completed hd' =>
      have hall : fs.AllDone (L ++ L').length := by
        rw [List.length_append]
        exact Schedule.allDone_add.mpr ⟨hd, hd'⟩
      have hboth : Ending b s'' (L ++ L') bad' fs _ := .completed hall
      rwa [List.length_append, ← List.drop_drop] at hboth
    | @gaveUp j e c t hj hd' hfs hb =>
      have hboth : Ending b s'' (L ++ L') bad' fs
          (.done c t ((L ++ L').take (L.length + j + e.toNat)) (fs.drop (L.length + j + 1))) :=
        .gaveUp (by simpa using hj) (Schedule.allDone_add.mpr ⟨hd, hd'⟩) (by simpa using hfs) hb
      rw [Nat.add_assoc, Nat.add_assoc, ← List.drop_drop] at hboth
      rwa [List.take_length_add_append] at hboth
    | @cutOff j t hj hd' hfs =>
      have hboth : Ending b s'' (L ++ L') bad' fs (.off t ((L ++ L').take (L.length + j))) :=
        .cutOff (by simpa using hj) (Schedule.allDone_add.mpr ⟨hd, hd'⟩) (by simpa using hfs)
      rwa [List.take_length_add_append] at hboth
  | @gaveUp j e c t hj hd hfs hb =>
    obtain ⟨b', t', he, hb'⟩ := hbad c hb (fs.drop (j + 1)) t
    have hle : j + e.toNat ≤ L.length := by
      cases e
      · exact Nat.le_of_lt hj
      · exact hj
    have hboth : Ending b s'' (L ++ L') bad' fs
        (.done b' t' ((L ++ L').take (j + e.toNat)) (fs.drop (j + 1))) :=
      .gaveUp (by simp only [List.length_append]; omega) hd hfs hb'
    rw [List.take_append_of_le_length hle] at hboth
    simpa [he] using hboth
  | @cutOff j t hj hd hfs =>
    have hboth : Ending b s'' (L ++ L') bad' fs (.off t ((L ++ L').take j)) :=
      .cutOff (by simp only [List.length_append]; omega) hd hfs
    rwa [List.take_append_of_le_length (Nat.le_of_lt hj)] at hboth

/-- Which operations such a program leaves in its log, and how it ends. -/
theorem Ending.effects {a : α} {s' : σ} {L : List Op} {bad : α → Prop} {fs : Schedule}
    {h : Halt Op σ α} (hend : Ending a s' L bad fs h) :
    h.log = L.take (fs.effects L.length) ∧
      h.Sat (fun b _ _ _ => if fs.refuses L.length then bad b else b = a)
        fun _ _ => fs.refuses L.length = false := by
  cases hend with
  | completed hd =>
    obtain ⟨heffects, hrefuses⟩ := Schedule.effects_of_allDone hd
    refine ⟨?_, ?_⟩
    · rw [heffects, List.take_length]
      rfl
    · show if _ then _ else _
      rw [hrefuses]
      rfl
  | gaveUp hj hd hfs hb =>
    obtain ⟨heffects, hrefuses⟩ := Schedule.effects_of_first hj hd hfs (by simp)
    refine ⟨?_, ?_⟩
    · rw [heffects]
      rfl
    · show if _ then _ else _
      rw [hrefuses]
      exact hb
  | cutOff hj hd hfs =>
    obtain ⟨heffects, hrefuses⟩ := Schedule.effects_of_first hj hd hfs (by simp)
    refine ⟨?_, hrefuses⟩
    rw [heffects]
    rfl

/-- Whatever it returns, such a program leaves the schedule behind its attempt, and a
    prefix of its log. -/
theorem Attempts.of_done {M : Machine Res σ} {p : Prog Res α} {s s' t : σ} {a b : α}
    {L l : List Op} {bad : α → Prop} {fs rest : Schedule} (h : M.Attempts p s a s' L bad)
    (hp : M.exec p fs s = .done b t l rest) :
    rest = fs.attempt L.length ∧ (∃ k, l = L.take k) ∧ (b = a ∨ bad b) := by
  have hend := h fs
  rw [hp] at hend
  cases hend with
  | completed hd => exact ⟨(Schedule.attempt_of_allDone hd).symm, ⟨L.length, by simp⟩, .inl rfl⟩
  | gaveUp hj hd hfs hb =>
    exact ⟨(Schedule.attempt_of_failed hj hd hfs).symm, ⟨_, rfl⟩, .inr hb⟩

theorem Attempts.of_off {M : Machine Res σ} {p : Prog Res α} {s s' t : σ} {a : α}
    {L l : List Op} {bad : α → Prop} {fs : Schedule} (h : M.Attempts p s a s' L bad)
    (hp : M.exec p fs s = .off t l) : ∃ k, l = L.take k := by
  have hend := h fs
  rw [hp] at hend
  cases hend with
  | cutOff hj hd hfs => exact ⟨_, rfl⟩

/-- Without faults the program completes. -/
theorem Attempts.runs {M : Machine Res σ} {p : Prog Res α} {s s' : σ} {a : α} {L : List Op}
    {bad : α → Prop} (h : M.Attempts p s a s' L bad) : M.Runs p s a s' L := by
  have hend := h []
  unfold Runs
  generalize M.exec p [] s = r at hend ⊢
  cases hend with
  | completed _ => simp
  | gaveUp _ _ hfs _ => simp at hfs
  | cutOff _ _ hfs => simp at hfs

/-! ## Reachable results -/

/-- What a run returns is among the results of the program. -/
theorem exec_yields {M : Machine Res σ} {P : Op → Prop} {R : α → Prop} {p : Prog Res α}
    (hp : p.Yields P R) (fs : Schedule) (s : σ) :
    (M.exec p fs s).Sat (fun a _ _ _ => R a) fun _ _ => True := by
  induction p generalizing fs s with
  | ret a => exact hp
  | call o k ih =>
    have hlogged : ∀ (h : Halt Op σ α) (l : List Op), h.Sat (fun a _ _ _ => R a) (fun _ _ => True) →
        (h.logged l).Sat (fun a _ _ _ => R a) fun _ _ => True := by
      intro h l hs
      cases h <;> exact hs
    cases hd : M.durable o with
    | false =>
      rw [exec_call_volatile _ _ _ _ hd]
      exact ih _ (hp.2 _) _ _
    | true =>
      match fs with
      | [] =>
        rw [exec_call_nil _ _ _ hd]
        exact hlogged _ _ (ih _ (hp.2 _) _ _)
      | .done :: fs =>
        rw [exec_call_done _ _ _ _ hd]
        exact hlogged _ _ (ih _ (hp.2 _) _ _)
      | .failed e :: fs =>
        rw [exec_call_failed _ _ _ _ hd]
        exact hlogged _ _ (ih _ (hp.2 _) _ _)
      | .powerLost :: fs =>
        rw [exec_call_powerLost _ _ _ _ hd]
        trivial

/-- What takes effect in a run is among the operations of the program. -/
theorem exec_log_performs {M : Machine Res σ} {P : Op → Prop} {p : Prog Res α} (hp : p.Performs P)
    (fs : Schedule) (s : σ) : ∀ o ∈ (M.exec p fs s).log, P o := by
  induction p generalizing fs s with
  | ret a =>
    intro o ho
    cases ho
  | call o k ih =>
    have hcons : ∀ (h : Halt Op σ α), (∀ o' ∈ h.log, P o') → ∀ o' ∈ (h.logged [o]).log, P o' := by
      intro h hlog o' ho'
      rw [Halt.log_logged] at ho'
      cases List.mem_cons.mp ho' with
      | inl heq => exact heq ▸ hp.1
      | inr hmem => exact hlog o' hmem
    cases hd : M.durable o with
    | false =>
      rw [exec_call_volatile _ _ _ _ hd]
      exact ih _ (hp.2 _) _ _
    | true =>
      match fs with
      | [] =>
        rw [exec_call_nil _ _ _ hd]
        exact hcons _ (ih _ (hp.2 _) _ _)
      | .done :: fs =>
        rw [exec_call_done _ _ _ _ hd]
        exact hcons _ (ih _ (hp.2 _) _ _)
      | .failed e :: fs =>
        rw [exec_call_failed _ _ _ _ hd]
        cases e with
        | false =>
          rw [if_neg Bool.false_ne_true, if_neg Bool.false_ne_true, Halt.logged_nil]
          exact ih _ (hp.2 _) _ _
        | true => exact hcons _ (ih _ (hp.2 _) _ _)
      | .powerLost :: fs =>
        rw [exec_call_powerLost _ _ _ _ hd]
        intro o' ho'
        cases ho'

/-- A program without durable operations is never cut off and logs nothing. -/
theorem quiet_of_yields {M : Machine Res σ} {R : α → Prop} {p : Prog Res α}
    (hp : p.Yields (fun o => M.durable o = false) R) : M.Quiet p R := by
  induction p with
  | ret a => exact Quiet.ret hp
  | call o k ih => exact Quiet.call hp.1 fun r => ih r (hp.2 r)

/-! ## The durable part of the state -/

/-- A part of the state that durable operations alone change, by `step`. -/
structure Durable (M : Machine Res σ) (view : σ → τ) (step : Op → τ → τ) : Prop where
  durable : ∀ o s, M.durable o = true → view (M.act o s).2 = step o (view s)
  volatile : ∀ o s, M.durable o = false → view (M.act o s).2 = view s

/-- Carry out a log, oldest operation first. -/
def replay (step : Op → τ → τ) : List Op → τ → τ
  | [], t => t
  | o :: l, t => replay step l (step o t)

@[simp] theorem replay_nil (step : Op → τ → τ) (t : τ) : replay step [] t = t := rfl
@[simp] theorem replay_cons (step : Op → τ → τ) (o : Op) (l : List Op) (t : τ) :
    replay step (o :: l) t = replay step l (step o t) := rfl

theorem replay_append (step : Op → τ → τ) (l l' : List Op) (t : τ) :
    replay step (l ++ l') t = replay step l' (replay step l t) := by
  induction l generalizing t with
  | nil => rfl
  | cons o l ih => exact ih (step o t)

/-- However a run ends, the durable part of the state is its log carried out. -/
theorem Durable.view_exec {M : Machine Res σ} {view : σ → τ} {step : Op → τ → τ}
    (hM : M.Durable view step) (p : Prog Res α) (fs : Schedule) (s : σ) :
    view (M.exec p fs s).state = replay step (M.exec p fs s).log (view s) := by
  induction p generalizing fs s with
  | ret a => rfl
  | call o k ih =>
    cases hd : M.durable o with
    | false => rw [exec_call_volatile _ _ _ _ hd, ih, hM.volatile o s hd]
    | true =>
      match fs with
      | [] => simp [exec_call_nil _ _ _ hd, ih, hM.durable o s hd]
      | .done :: fs => simp [exec_call_done _ _ _ _ hd, ih, hM.durable o s hd]
      | .failed true :: fs => simp [exec_call_failed _ _ _ _ hd, ih, hM.durable o s hd]
      | .failed false :: fs => simp [exec_call_failed _ _ _ _ hd, ih]
      | .powerLost :: fs => rw [exec_call_powerLost _ _ _ _ hd]; rfl

/-- Power lost after `k` operations of a fault-free run, or later: the durable part of the
    state is the first `k` operations carried out. -/
theorem Durable.view_exec_cut {M : Machine Res σ} {view : σ → τ} {step : Op → τ → τ}
    (hM : M.Durable view step) {p : Prog Res α} {s s' : σ} {a : α} {L : List Op}
    (h : M.Runs p s a s' L) (k : Nat) :
    view (M.exec p (Schedule.cut k) s).state = replay step (L.take k) (view s) := by
  have hlog : (M.exec p (Schedule.cut k) s).log = L.take k := by
    by_cases hk : k < L.length
    · obtain ⟨t, ht⟩ := h.exec_cut hk
      rw [ht]
      rfl
    · have hall : (Schedule.cut k).AllDone L.length := Schedule.allDone_cut (Nat.not_lt.mp hk)
      rw [h.exec_allDone hall, List.take_of_length_le (Nat.not_lt.mp hk)]
      rfl
  rw [hM.view_exec, hlog]

end Machine
