-- SUMMARY: Programs as trees of typed operations: the monad, its laws, and the operations a program can reach.
import Mathlib.Tactic.Common
import Mathlib.Control.Monad.Basic

/-!
# Programs over typed operations

A program is a tree. Each inner node performs one operation and branches on the
response, each leaf returns. What an operation does is not said here: the same
tree is run against a machine that can fail, or stepped against an environment
that answers as it likes.
-/

/-- A program that performs operations `o : Op`, each answered by a `Res o`. -/
inductive Prog {Op : Type} (Res : Op → Type) (α : Type) : Type where
  | ret (a : α) : Prog Res α
  | call (o : Op) (k : Res o → Prog Res α) : Prog Res α

namespace Prog

variable {Op : Type} {Res : Op → Type} {α β γ : Type}

/-- Sequencing: graft the continuation on every leaf. -/
protected def bind : Prog Res α → (α → Prog Res β) → Prog Res β
  | .ret a, f => f a
  | .call o k, f => .call o (fun r => (k r).bind f)

/-- Perform one operation and return its response. -/
def op (o : Op) : Prog Res (Res o) := .call o .ret

instance : Monad (Prog Res) where
  pure := .ret
  bind := Prog.bind

@[simp] theorem pure_eq (a : α) : (pure a : Prog Res α) = .ret a := rfl
@[simp] theorem ret_bind (a : α) (f : α → Prog Res β) : (Prog.ret a >>= f) = f a := rfl
@[simp] theorem call_bind (o : Op) (k : Res o → Prog Res α) (f : α → Prog Res β) :
    (Prog.call o k >>= f) = .call o (fun r => k r >>= f) := rfl
@[simp] theorem op_bind (o : Op) (f : Res o → Prog Res β) :
    (Prog.op o >>= f) = .call o f := rfl

theorem bind_ret (p : Prog Res α) : (p >>= Prog.ret) = p := by
  induction p with
  | ret a => rfl
  | call o k ih =>
    rw [call_bind]
    exact congrArg _ (funext ih)

theorem bind_assoc' (p : Prog Res α) (f : α → Prog Res β) (g : β → Prog Res γ) :
    ((p >>= f) >>= g) = (p >>= fun a => f a >>= g) := by
  induction p with
  | ret a => rfl
  | call o k ih =>
    simp only [call_bind]
    exact congrArg _ (funext ih)

instance : LawfulMonad (Prog Res) :=
  LawfulMonad.mk' _ (fun p => bind_ret p) (fun _ _ => rfl) bind_assoc'

/-! ## Reachable operations -/

/-- Whatever the responses, the program performs only operations in `P`. -/
def Performs (P : Op → Prop) : Prog Res α → Prop
  | .ret _ => True
  | .call o k => P o ∧ ∀ r, (k r).Performs P

@[simp] theorem performs_ret {P : Op → Prop} (a : α) : (Prog.ret a : Prog Res α).Performs P :=
  trivial

@[simp] theorem performs_op {P : Op → Prop} {o : Op} :
    (Prog.op o : Prog Res (Res o)).Performs P ↔ P o :=
  ⟨fun h => h.1, fun h => ⟨h, fun _ => trivial⟩⟩

theorem Performs.bind {P : Op → Prop} {p : Prog Res α} {f : α → Prog Res β}
    (hp : p.Performs P) (hf : ∀ a, (f a).Performs P) : (p >>= f).Performs P := by
  induction p with
  | ret a => exact hf a
  | call o k ih => exact ⟨hp.1, fun r => ih r (hp.2 r)⟩

theorem Performs.mono {P P' : Op → Prop} {p : Prog Res α}
    (h : ∀ o, P o → P' o) (hp : p.Performs P) : p.Performs P' := by
  induction p with
  | ret a => trivial
  | call o k ih => exact ⟨h o hp.1, fun r => ih r (hp.2 r)⟩

/-! ## Reachable results -/

/-- Whatever the responses, the program performs only operations in `P` and returns a result
    in `R`. -/
def Yields (P : Op → Prop) (R : α → Prop) : Prog Res α → Prop
  | .ret a => R a
  | .call o k => P o ∧ ∀ r, (k r).Yields P R

theorem Yields.bind {P : Op → Prop} {R : α → Prop} {S : β → Prop} {p : Prog Res α}
    {f : α → Prog Res β} (hp : p.Yields P R) (hf : ∀ a, R a → (f a).Yields P S) :
    (p >>= f).Yields P S := by
  induction p with
  | ret a => exact hf a hp
  | call o k ih => exact ⟨hp.1, fun r => ih r (hp.2 r)⟩

theorem Yields.mono {P P' : Op → Prop} {R R' : α → Prop} {p : Prog Res α} (hp : p.Yields P R)
    (hP : ∀ o, P o → P' o) (hR : ∀ a, R a → R' a) : p.Yields P' R' := by
  induction p with
  | ret a => exact hR a hp
  | call o k ih => exact ⟨hP o hp.1, fun r => ih r (hp.2 r)⟩

theorem Yields.performs {P : Op → Prop} {R : α → Prop} {p : Prog Res α} (hp : p.Yields P R) :
    p.Performs P := by
  induction p with
  | ret a => trivial
  | call o k ih => exact ⟨hp.1, fun r => ih r (hp.2 r)⟩

/-! ## Interpretation -/

variable {Op' : Type} {Res' : Op' → Type}

/-- The program with each operation performed by a program of its own. -/
def interp (E : (o : Op) → Prog Res' (Res o)) : Prog Res α → Prog Res' α
  | .ret a => .ret a
  | .call o k => E o >>= fun r => (k r).interp E

theorem interp_bind (E : (o : Op) → Prog Res' (Res o)) (p : Prog Res α) (f : α → Prog Res β) :
    (p >>= f).interp E = (p.interp E >>= fun a => (f a).interp E) := by
  induction p with
  | ret a => rfl
  | call o k ih =>
    rw [call_bind, interp, interp, bind_assoc']
    exact congrArg _ (funext ih)

end Prog
