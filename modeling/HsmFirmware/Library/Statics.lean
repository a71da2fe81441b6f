-- SUMMARY: Computations over static variables that leave each of them as it was or zero, whatever it held.
import Mathlib.Tactic.Common
import Mathlib.Logic.Function.Basic

/-!
# Static variables

A module with static buffers works in them and wipes them. A function is well behaved if its
result does not depend on what the buffers held before, and if it leaves each buffer as it was
or zero. The rules below follow a function while some buffers are in use: what they hold is
known, until they are wiped.
-/

namespace Statics

variable {ι : Type} {V : ι → Type}

/-- What the static variables hold. -/
abbrev Store (V : ι → Type) := ∀ x, V x

/-- A computation over them. One that goes out of bounds has no result. -/
abbrev Code (V : ι → Type) := StateT (Store V) Option

def read (x : ι) : Code V (V x) := fun s => some (s x, s)

def write [DecidableEq ι] (x : ι) (v : V x) : Code V Unit := fun s => some ((), Function.update s x v)

/-- A value that may be out of bounds. -/
def checked {α : Type} (o : Option α) : Code V α := fun s => o.map fun a => (a, s)

/-- The variables of a list may have been wiped, and nothing else has happened. -/
def Wiped (z : Store V) (B : List ι) (s s' : Store V) : Prop :=
  ∀ x, s' x = s x ∨ x ∈ B ∧ s' x = z x

/-- Whatever the variables hold, `m` gives `a` and leaves them as they were or zero. -/
def Returns {α : Type} (z : Store V) (B : List ι) (m : Code V α) (a : α) : Prop :=
  ∀ s, ∃ s', m s = some (a, s') ∧ Wiped z B s s'

/-- The same while the variables of `k` are in use, and hold these values. In the end they are
    zero. -/
def Finishes {α : Type} (z : Store V) (B : List ι) (k : ∀ x, Option (V x)) (m : Code V α) (a : α) :
    Prop :=
  ∀ s, (∀ x v, k x = some v → s x = v) → ∃ s', m s = some (a, s') ∧
    ∀ x, s' x = z x ∧ (x ∈ B ∨ k x ≠ none) ∨ s' x = s x ∧ k x = none

/-- Nothing is in use. -/
def unused : ∀ x, Option (V x) := fun _ => none

/-- No variable of the list is in use. -/
def free (k : ∀ x, Option (V x)) (B : List ι) : Bool := B.all fun x => (k x).isNone

variable {z : Store V} {α β : Type} {B B' : List ι} {k : ∀ x, Option (V x)} {m : Code V α} {a : α}
  {f : α → Code V β} {b : β}

theorem Wiped.of_zero {s s' : Store V} (h : Wiped z B s s') (hs : s = z) : s' = z := by
  funext x
  rcases h x with hx | ⟨-, hx⟩
  · rw [hx, hs]
  · exact hx

theorem run_bind {s t : Store V} (h : m s = some (a, t)) : (m >>= f) s = f a t := by
  show StateT.bind m f s = f a t
  unfold StateT.bind
  rw [h]
  rfl

namespace Returns

theorem of_finishes (h : Finishes z B unused m a) : Returns z B m a := by
  intro s
  obtain ⟨s', hm, hs'⟩ := h s fun _ _ hx => nomatch hx
  refine ⟨s', hm, fun x => ?_⟩
  rcases hs' x with ⟨hx, hmem | hne⟩ | ⟨hx, -⟩
  · exact .inr ⟨hmem, hx⟩
  · exact (hne rfl).elim
  · exact .inl hx

theorem pure (a : α) : Returns z B (Pure.pure a) a := fun s => ⟨s, rfl, fun _ => .inl rfl⟩

theorem bind (h : Returns z B m a) (hf : Returns z B (f a) b) : Returns z B (m >>= f) b := by
  intro s
  obtain ⟨t, hm, ht⟩ := h s
  obtain ⟨s', hfa, hs'⟩ := hf t
  refine ⟨s', (run_bind hm).trans hfa, fun x => ?_⟩
  rcases hs' x with hx | hx
  · exact (ht x).imp hx.trans fun ⟨hmem, htx⟩ => ⟨hmem, hx.trans htx⟩
  · exact .inr hx

theorem map {g : α → β} (h : Returns z B m a) : Returns z B (g <$> m) (g a) := by
  rw [map_eq_pure_bind]
  exact h.bind (.pure _)

theorem checked {o : Option α} (ho : o = some a) (hf : Returns z B (f a) b) :
    Returns z B (Statics.checked o >>= f) b := by
  subst ho
  exact hf

theorem mono (h : Returns z B m a) (hB : ∀ x ∈ B, x ∈ B') : Returns z B' m a := by
  intro s
  obtain ⟨s', hm, hs'⟩ := h s
  exact ⟨s', hm, fun x => (hs' x).imp id fun ⟨hmem, hx⟩ => ⟨hB x hmem, hx⟩⟩

end Returns

namespace Finishes

/-- The variables in use are zero by now. -/
theorem pure (h : ∀ x, k x = none ∨ k x = some (z x)) : Finishes z B k (Pure.pure a) a := by
  intro s hs
  refine ⟨s, rfl, fun x => ?_⟩
  rcases h x with hx | hx
  · exact .inr ⟨rfl, hx⟩
  · exact .inl ⟨hs x _ hx, .inr (by rw [hx]; exact Option.some_ne_none _)⟩

theorem of_eq {k' : ∀ x, Option (V x)} (hf : Finishes z B k' m a) (hk : ∀ x, k x = k' x) :
    Finishes z B k m a := by
  rwa [funext hk]

/-- A function that does not touch what is in use. -/
theorem call (h : Returns z B' m a) (hB : ∀ x ∈ B', x ∈ B) (hk : free k B' = true)
    (hf : Finishes z B k (f a) b) : Finishes z B k (m >>= f) b := by
  intro s hs
  obtain ⟨t, hm, ht⟩ := h s
  have hfree : ∀ x ∈ B', k x = none := fun x hx =>
    Option.isNone_iff_eq_none.mp (List.all_eq_true.mp hk x hx)
  have hkt : ∀ x v, k x = some v → t x = v := by
    intro x v hx
    rcases ht x with htx | ⟨hmem, -⟩
    · rw [htx, hs x v hx]
    · rw [hfree x hmem] at hx
      cases hx
  obtain ⟨s', hfa, hs'⟩ := hf t hkt
  refine ⟨s', (run_bind hm).trans hfa, fun x => ?_⟩
  rcases hs' x with hx | ⟨hx, hnone⟩
  · exact .inl hx
  · rcases ht x with htx | ⟨hmem, htx⟩
    · exact .inr ⟨hx.trans htx, hnone⟩
    · exact .inl ⟨hx.trans htx, .inl (hB x hmem)⟩

/-- A variable comes into use, or its value changes. -/
theorem write [DecidableEq ι] {x : ι} {v : V x} {f : Unit → Code V β} (hx : x ∈ B)
    (hf : Finishes z B (Function.update k x (some v)) (f ()) b) :
    Finishes z B k (Statics.write x v >>= f) b := by
  intro s hs
  have hkt : ∀ y w, Function.update k x (some v) y = some w → Function.update s x v y = w := by
    intro y w hy
    by_cases hyx : y = x
    · subst hyx
      rw [Function.update_self] at hy ⊢
      exact Option.some.inj hy
    · rw [Function.update_of_ne hyx] at hy ⊢
      exact hs y w hy
  obtain ⟨s', hfa, hs'⟩ := hf _ hkt
  refine ⟨s', (run_bind rfl).trans hfa, fun y => ?_⟩
  by_cases hyx : y = x
  · subst hyx
    rcases hs' y with ⟨hy, -⟩ | ⟨-, hy⟩
    · exact .inl ⟨hy, .inl hx⟩
    · rw [Function.update_self] at hy
      cases hy
  · have hy := hs' y
    rwa [Function.update_of_ne hyx, Function.update_of_ne hyx] at hy

/-- A variable is wiped and goes out of use. -/
theorem wipe [DecidableEq ι] {x : ι} {f : Unit → Code V β} (hx : x ∈ B)
    (hf : Finishes z B (Function.update k x none) (f ()) b) :
    Finishes z B k (Statics.write x (z x) >>= f) b := by
  intro s hs
  have hkt : ∀ y w, Function.update k x none y = some w → Function.update s x (z x) y = w := by
    intro y w hy
    by_cases hyx : y = x
    · subst hyx
      rw [Function.update_self] at hy
      cases hy
    · rw [Function.update_of_ne hyx] at hy ⊢
      exact hs y w hy
  obtain ⟨s', hfa, hs'⟩ := hf _ hkt
  refine ⟨s', (run_bind rfl).trans hfa, fun y => ?_⟩
  by_cases hyx : y = x
  · subst hyx
    rcases hs' y with ⟨hy, -⟩ | ⟨hy, -⟩
    · exact .inl ⟨hy, .inl hx⟩
    · rw [Function.update_self] at hy
      exact .inl ⟨hy, .inl hx⟩
  · have hy := hs' y
    rwa [Function.update_of_ne hyx, Function.update_of_ne hyx] at hy

/-- A variable in use is read. -/
theorem read {x : ι} {v : V x} {f : V x → Code V β} (hx : k x = some v)
    (hf : Finishes z B k (f v) b) : Finishes z B k (Statics.read x >>= f) b := by
  intro s hs
  obtain ⟨s', hfa, hs'⟩ := hf s hs
  refine ⟨s', ?_, hs'⟩
  rw [run_bind (m := Statics.read x) rfl, hs x v hx]
  exact hfa

/-- A variable that is not in use is read: its value must make no difference. -/
theorem readAny {x : ι} {f : V x → Code V β} (hf : ∀ v, Finishes z B k (f v) b) :
    Finishes z B k (Statics.read x >>= f) b := by
  intro s hs
  obtain ⟨s', hfa, hs'⟩ := hf (s x) s hs
  exact ⟨s', (run_bind rfl).trans hfa, hs'⟩

theorem checked {o : Option α} (ho : o = some a) (hf : Finishes z B k (f a) b) :
    Finishes z B k (Statics.checked o >>= f) b := by
  subst ho
  exact hf

end Finishes

end Statics
