-- SUMMARY: What a program has done when it comes to an operation: paths through it, and what holds along them.
import HsmFirmware.Library.Machine

/-!
# Histories

The history of a program is the list of the operations it has performed, with the response to
each. Some properties of an operation depend on the history before it, such as that a message is
signed only after a certain one has been received. They are shown along the program, part by
part.
-/

namespace Prog

variable {Op : Type} {Res : Op → Type} {α β : Type}

/-- An operation with its response. -/
abbrev Act (Res : Op → Type) : Type := (o : Op) × Res o

/-- The program comes through these operations to what is left of it. -/
inductive Path : Prog Res α → List (Act Res) → Prog Res α → Prop where
  | refl (p : Prog Res α) : Path p [] p
  | step {o : Op} {k : Res o → Prog Res α} {l : List (Act Res)} {q : Prog Res α} (r : Res o)
      (rest : Path (k r) l q) : Path (.call o k) (⟨o, r⟩ :: l) q

theorem Path.trans {p q q' : Prog Res α} {l l' : List (Act Res)} (h : Path p l q)
    (h' : Path q l' q') : Path p (l ++ l') q' := by
  induction h with
  | refl p => exact h'
  | step r _ ih => exact .step r (ih h')

/-- One more operation. -/
theorem Path.snoc {p : Prog Res α} {l : List (Act Res)} {o : Op} {k : Res o → Prog Res α}
    (h : Path p l (.call o k)) (r : Res o) : Path p (l ++ [⟨o, r⟩]) (k r) :=
  h.trans (.step r (.refl _))

/-! ## Properties along a program -/

/-- From the history `l` on, every operation is allowed by the history before it, and every
    result by the whole history. -/
def Follows (I : List (Act Res) → Op → Prop) (R : List (Act Res) → α → Prop) :
    Prog Res α → List (Act Res) → Prop
  | .ret a, l => R l a
  | .call o k, l => I l o ∧ ∀ r, Follows I R (k r) (l ++ [⟨o, r⟩])

namespace Follows

variable {I : List (Act Res) → Op → Prop} {R : List (Act Res) → α → Prop}
  {R' : List (Act Res) → β → Prop} {l : List (Act Res)}

theorem bind {p : Prog Res α} {f : α → Prog Res β} (hp : p.Follows I R l)
    (hf : ∀ l' a, R l' a → (f a).Follows I R' l') : (p >>= f).Follows I R' l := by
  induction p generalizing l with
  | ret a => exact hf l a hp
  | call o k ih => exact ⟨hp.1, fun r => ih r (hp.2 r)⟩

theorem mono {S : List (Act Res) → α → Prop} {p : Prog Res α} (hp : p.Follows I R l)
    (hS : ∀ l' a, R l' a → S l' a) : p.Follows I S l := by
  induction p generalizing l with
  | ret a => exact hS l a hp
  | call o k ih => exact ⟨hp.1, fun r => ih r (hp.2 r)⟩

/-- A program whose operations are allowed by any history that it can have by then. -/
theorem of_yields {P : Op → Prop} {S : α → Prop} {p : Prog Res α} (hp : p.Yields P S)
    (hI : ∀ l', (∀ a ∈ l', P a.1) → ∀ o, P o → I (l ++ l') o) :
    p.Follows I (fun l'' a => ∃ l', l'' = l ++ l' ∧ (∀ a ∈ l', P a.1) ∧ S a) l := by
  induction p generalizing l with
  | ret a =>
    refine ⟨[], (List.append_nil l).symm, ?_, hp⟩
    intro a ha
    cases ha
  | call o k ih =>
    have hcons : ∀ r : Res o, ∀ l', (∀ a ∈ l', P a.1) → ∀ a ∈ (⟨o, r⟩ : Act Res) :: l', P a.1 :=
      fun r l' hl' => List.forall_mem_cons.mpr ⟨hp.1, hl'⟩
    refine ⟨?_, fun r => ?_⟩
    · have h := hI [] (fun a ha => by cases ha) o hp.1
      rwa [List.append_nil] at h
    refine mono (ih r (hp.2 r) ?_) ?_
    · intro l' hl' o' ho'
      rw [List.append_assoc]
      exact hI _ (hcons r l' hl') o' ho'
    · rintro l'' a ⟨l', rfl, hl', ha⟩
      exact ⟨⟨o, r⟩ :: l', List.append_assoc _ _ _, hcons r l' hl', ha⟩

/-- The operations that some history allows. -/
theorem performs {P : Op → Prop} {p : Prog Res α} (hp : p.Follows I R l)
    (hI : ∀ l' o, I l' o → P o) : p.Performs P := by
  induction p generalizing l with
  | ret a => exact performs_ret a
  | call o k ih => exact ⟨hI l o hp.1, fun r => ih r (hp.2 r)⟩

/-- What is left of a program goes on as it began. -/
theorem of_path {p q : Prog Res α} {l' : List (Act Res)} (hp : p.Follows I R l)
    (h : Path p l' q) : q.Follows I R (l ++ l') := by
  induction h generalizing l with
  | refl p => rwa [List.append_nil]
  | step r _ ih =>
    have hrest := ih (hp.2 r)
    rwa [List.append_assoc] at hrest

/-- The operation a program comes to is allowed. -/
theorem allowed {p : Prog Res α} {l' : List (Act Res)} {o : Op} {k : Res o → Prog Res α}
    (hp : p.Follows I R []) (h : Path p l' (.call o k)) : I l' o :=
  (hp.of_path h).1

end Follows

end Prog
