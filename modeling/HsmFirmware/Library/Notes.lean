-- SUMMARY: Programs that note events beside their operations: erasing the notes, running with them, and what they can be.
import HsmFirmware.Library.Machine

/-!
# Notes

Some of what a program does leaves no trace in its operations, such as a computation on a secret.
Here a program may note such an event. The notes can be erased, which gives back the program, and
a machine can run a program with its notes, which changes nothing else.
-/

/-- An operation, or the note of an event. -/
inductive Noted (Op E : Type) where
  | op (o : Op)
  | note (e : E)

namespace Noted

variable {Op E : Type} {Res : Op → Type} {σ α β : Type}

def Answer (Res : Op → Type) : Noted Op E → Type
  | .op o => Res o
  | .note _ => Unit

/-- A program that notes nothing. -/
def lift (E : Type) : Prog Res α → Prog (Answer (E := E) Res) α
  | .ret a => .ret a
  | .call o k => .call (.op o) fun r => lift E (k r)

/-- The program without its notes. -/
def erase : Prog (Answer (E := E) Res) α → Prog Res α
  | .ret a => .ret a
  | .call (.op o) k => .call o fun r => erase (k r)
  | .call (.note _) k => erase (k ())

theorem erase_lift (p : Prog Res α) : erase (lift E p) = p := by
  induction p with
  | ret a => rfl
  | call o k ih => exact congrArg (Prog.call o) (funext ih)

theorem erase_bind (p : Prog (Answer (E := E) Res) α) (f : α → Prog (Answer (E := E) Res) β) :
    erase (p >>= f) = (erase p >>= fun a => erase (f a)) := by
  induction p with
  | ret a => rfl
  | call o k ih =>
    cases o with
    | op o => exact congrArg (Prog.call o) (funext ih)
    | note e => exact ih ()

/-! ## Running with notes -/

/-- The machine with the notes taken so far, the oldest first. -/
def noting (M : Machine Res σ) : Machine (Answer (E := E) Res) (σ × List E) where
  durable
    | .op o => M.durable o
    | .note _ => false
  act
    | .op o, s => ((M.act o s.1).1, (M.act o s.1).2, s.2)
    | .note e, s => ((), s.1, s.2 ++ [e])
  refuse
    | .op o => M.refuse o
    | .note _ => ()

/-- How the run ends, without its notes. -/
def unnoted : Halt (Noted Op E) (σ × List E) α → Halt Op σ α
  | .done a s log fs => .done a s.1 (log.filterMap fun | .op o => some o | .note _ => none) fs
  | .off s log => .off s.1 (log.filterMap fun | .op o => some o | .note _ => none)

theorem unnoted_logged (l : List (Noted Op E)) (h : Halt (Noted Op E) (σ × List E) α) :
    unnoted (h.logged l) =
      (unnoted h).logged (l.filterMap fun | .op o => some o | .note _ => none) := by
  cases h with
  | done a s log fs => simp [unnoted, Halt.logged]
  | off s log => simp [unnoted, Halt.logged]

/-- Notes change nothing. -/
theorem unnoted_exec (M : Machine Res σ) (p : Prog (Answer (E := E) Res) α) (fs : Schedule) (s : σ)
    (notes : List E) :
    unnoted ((noting M).exec p fs (s, notes)) = M.exec (erase p) fs s := by
  induction p generalizing fs s notes with
  | ret a => rfl
  | call o k ih =>
    cases o with
    | note e => exact ih () fs s (notes ++ [e])
    | op o =>
      unfold erase
      cases ho : M.durable o with
      | false =>
        have ho' : (noting (E := E) M).durable (.op o) = false := ho
        rw [Machine.exec_call_volatile _ _ _ _ ho', Machine.exec_call_volatile _ _ _ _ ho]
        exact ih _ fs _ notes
      | true =>
        have ho' : (noting (E := E) M).durable (.op o) = true := ho
        match fs with
        | [] =>
          rw [Machine.exec_call_nil _ _ _ ho', Machine.exec_call_nil _ _ _ ho, unnoted_logged]
          exact congrArg (Halt.logged [o]) (ih _ [] _ notes)
        | .done :: fs =>
          rw [Machine.exec_call_done _ _ _ _ ho', Machine.exec_call_done _ _ _ _ ho, unnoted_logged]
          exact congrArg (Halt.logged [o]) (ih _ fs _ notes)
        | .failed true :: fs =>
          rw [Machine.exec_call_failed _ _ _ _ ho', Machine.exec_call_failed _ _ _ _ ho,
            unnoted_logged]
          exact congrArg (Halt.logged [o]) (ih _ fs _ notes)
        | .failed false :: fs =>
          rw [Machine.exec_call_failed _ _ _ _ ho', Machine.exec_call_failed _ _ _ _ ho,
            unnoted_logged]
          exact congrArg (Halt.logged []) (ih _ fs _ notes)
        | .powerLost :: fs =>
          rw [Machine.exec_call_powerLost _ _ _ _ ho', Machine.exec_call_powerLost _ _ _ _ ho]
          rfl

/-- A run beside notes taken before it. -/
def beside (notes : List E) : Halt Op σ α → Halt (Noted Op E) (σ × List E) α
  | .done a s log fs => .done a (s, notes) (log.map .op) fs
  | .off s log => .off (s, notes) (log.map .op)

theorem beside_logged (notes : List E) (l : List Op) (h : Halt Op σ α) :
    beside notes (h.logged l) = (beside notes h).logged (l.map .op) := by
  cases h with
  | done a s log fs => simp [beside, Halt.logged]
  | off s log => simp [beside, Halt.logged]

/-- A program that notes nothing runs as it does without notes. -/
theorem exec_lift (M : Machine Res σ) (p : Prog Res α) (fs : Schedule) (s : σ) (notes : List E) :
    (noting M).exec (lift E p) fs (s, notes) = beside notes (M.exec p fs s) := by
  induction p generalizing fs s with
  | ret a => rfl
  | call o k ih =>
    unfold lift
    cases ho : M.durable o with
    | false =>
      have ho' : (noting (E := E) M).durable (.op o) = false := ho
      rw [Machine.exec_call_volatile _ _ _ _ ho', Machine.exec_call_volatile _ _ _ _ ho]
      exact ih _ fs _
    | true =>
      have ho' : (noting (E := E) M).durable (.op o) = true := ho
      match fs with
      | [] =>
        rw [Machine.exec_call_nil _ _ _ ho', Machine.exec_call_nil _ _ _ ho, beside_logged]
        exact congrArg (Halt.logged [.op o]) (ih _ [] _)
      | .done :: fs =>
        rw [Machine.exec_call_done _ _ _ _ ho', Machine.exec_call_done _ _ _ _ ho, beside_logged]
        exact congrArg (Halt.logged [.op o]) (ih _ fs _)
      | .failed true :: fs =>
        rw [Machine.exec_call_failed _ _ _ _ ho', Machine.exec_call_failed _ _ _ _ ho, beside_logged]
        exact congrArg (Halt.logged [.op o]) (ih _ fs _)
      | .failed false :: fs =>
        rw [Machine.exec_call_failed _ _ _ _ ho', Machine.exec_call_failed _ _ _ _ ho, beside_logged]
        exact congrArg (Halt.logged []) (ih _ fs _)
      | .powerLost :: fs =>
        rw [Machine.exec_call_powerLost _ _ _ _ ho', Machine.exec_call_powerLost _ _ _ _ ho]
        rfl

/-! ## What can be noted -/

/-- From the notes `L` on, all notes taken satisfy `S`, and in the end they fit the result. -/
def Notes (S : List E → Prop) (R : α → List E → Prop) :
    Prog (Answer (E := E) Res) α → List E → Prop
  | .ret a, L => R a L
  | .call (.op _) k, L => ∀ r, Notes S R (k r) L
  | .call (.note e) k, L => S (L ++ [e]) ∧ Notes S R (k ()) (L ++ [e])

namespace Notes

variable {S S' : List E → Prop} {R : α → List E → Prop} {R' : β → List E → Prop} {L : List E}

theorem mono {R'' : α → List E → Prop} {p : Prog (Answer (E := E) Res) α} (hp : Notes S R p L)
    (hS : ∀ L, S L → S' L) (hR : ∀ a L, R a L → R'' a L) : Notes S' R'' p L := by
  induction p generalizing L with
  | ret a => exact hR a L hp
  | call o k ih =>
    cases o with
    | op o => exact fun r => ih r (hp r)
    | note e => exact ⟨hS _ hp.1, ih () hp.2⟩

theorem bind {p : Prog (Answer (E := E) Res) α} {f : α → Prog (Answer (E := E) Res) β}
    (hp : Notes S R p L) (hf : ∀ a L', R a L' → Notes S R' (f a) L') : Notes S R' (p >>= f) L := by
  induction p generalizing L with
  | ret a => exact hf a L hp
  | call o k ih =>
    cases o with
    | op o => exact fun r => ih r (hp r)
    | note e => exact ⟨hp.1, ih () hp.2⟩

theorem lift {p : Prog Res α} (hR : ∀ a, R a L) : Notes S R (Noted.lift E p) L := by
  induction p with
  | ret a => exact hR a
  | call o k ih => exact fun r => ih r

/-- The notes of a run, and those of one that returns. -/
theorem exec_sat {M : Machine Res σ} {p : Prog (Answer (E := E) Res) α} (hp : Notes S R p L)
    (hL : S L) (fs : Schedule) (s : σ) :
    ((noting M).exec p fs (s, L)).Sat (fun a t _ _ => S t.2 ∧ R a t.2) fun t _ => S t.2 := by
  have hlogged : ∀ (h : Halt (Noted Op E) (σ × List E) α) (l : List (Noted Op E)),
      h.Sat (fun a t _ _ => S t.2 ∧ R a t.2) (fun t _ => S t.2) →
      (h.logged l).Sat (fun a t _ _ => S t.2 ∧ R a t.2) fun t _ => S t.2 := by
    intro h l hs
    cases h <;> exact hs
  induction p generalizing fs s L with
  | ret a => exact ⟨hL, hp⟩
  | call o k ih =>
    cases o with
    | note e => exact ih () hp.2 hp.1 fs s
    | op o =>
      cases ho : M.durable o with
      | false =>
        have ho' : (noting (E := E) M).durable (.op o) = false := ho
        rw [Machine.exec_call_volatile _ _ _ _ ho']
        exact ih _ (hp _) hL fs _
      | true =>
        have ho' : (noting (E := E) M).durable (.op o) = true := ho
        match fs with
        | [] =>
          rw [Machine.exec_call_nil _ _ _ ho']
          exact hlogged _ _ (ih _ (hp _) hL [] _)
        | .done :: fs =>
          rw [Machine.exec_call_done _ _ _ _ ho']
          exact hlogged _ _ (ih _ (hp _) hL fs _)
        | .failed true :: fs =>
          rw [Machine.exec_call_failed _ _ _ _ ho']
          exact hlogged _ _ (ih _ (hp _) hL fs _)
        | .failed false :: fs =>
          rw [Machine.exec_call_failed _ _ _ _ ho']
          exact hlogged _ _ (ih _ (hp _) hL fs _)
        | .powerLost :: fs =>
          rw [Machine.exec_call_powerLost _ _ _ _ ho']
          exact hL

theorem exec {M : Machine Res σ} {p : Prog (Answer (E := E) Res) α} (hp : Notes S R p L) (hL : S L)
    (fs : Schedule) (s : σ) : S ((noting M).exec p fs (s, L)).state.2 := by
  have hsat := @exec_sat _ _ _ _ _ S R L M p hp hL fs s
  generalize (noting M).exec p fs (s, L) = res at hsat ⊢
  cases res with
  | done a t log rest => exact hsat.1
  | off t log => exact hsat

theorem exec_done {M : Machine Res σ} {p : Prog (Answer (E := E) Res) α} (hp : Notes S R p L)
    (hL : S L) {fs rest : Schedule} {s : σ} {a : α} {t : σ × List E} {log : List (Noted Op E)}
    (h : (noting M).exec p fs (s, L) = .done a t log rest) : R a t.2 := by
  have hsat := @exec_sat _ _ _ _ _ S R L M p hp hL fs s
  rw [h] at hsat
  exact hsat.2

end Notes

end Noted
