-- SUMMARY: A ring of n cells written at a cursor, and the window of the last n values it shows.
import Mathlib.Tactic.Common
import Mathlib.Algebra.Group.Fin.Basic
import Mathlib.Tactic.Abel

/-!
# Ring buffers

A ring has a cell under its cursor. A value pushed goes into this cell, and the cursor moves on
by one. So the cells show the last `n` values pushed, whatever has been pushed before. Values are
listed with the newest first.
-/

/-- A ring of `n` cells, some of which may be empty. -/
structure RingBuffer (α : Type) (n : Nat) where
  cells : Fin n → Option α
  next : Fin n

namespace RingBuffer

variable {α : Type} {n : Nat} [NeZero n] {r : RingBuffer α n} {a : α} {l : List α}

def push (r : RingBuffer α n) (a : α) : RingBuffer α n where
  cells := Function.update r.cells r.next (some a)
  next := r.next + 1

/-- A value is in one of the cells. -/
def Has (r : RingBuffer α n) (a : α) : Prop := ∃ i, r.cells i = some a

/-- No value is in two cells. -/
def Distinct (r : RingBuffer α n) : Prop :=
  ∀ i j a, r.cells i = some a → r.cells j = some a → i = j

/-- Backwards from the cursor, the cells show the values of a list. -/
def Shows (r : RingBuffer α n) (l : List α) : Prop :=
  ∀ i : Fin n, r.cells (r.next - 1 - i) = l[i.val]?

theorem shows_nil (h : ∀ i, r.cells i = none) : r.Shows [] := by
  intro i
  rw [h, List.getElem?_nil]

theorem sub_sub_self (c j : Fin n) : c - 1 - (c - 1 - j) = j := by abel

/-- Each cell is some steps behind the cursor. -/
theorem Shows.cell (h : r.Shows l) (j : Fin n) : r.cells j = l[(r.next - 1 - j).val]? := by
  rw [← h, sub_sub_self]

theorem val_sub_one_add_one {i : Fin n} (hi : i ≠ 0) : (i - 1).val + 1 = i.val := by
  have hpos := Nat.pos_of_ne_zero fun h => hi (Fin.val_eq_zero_iff.mp h)
  have hone : (1 : Fin n).val = 1 := Nat.mod_eq_of_lt (Nat.lt_of_le_of_lt hpos i.isLt)
  rw [Fin.sub_val_of_le (Fin.le_def.mpr (hone ▸ hpos)), hone]
  exact Nat.sub_add_cancel hpos

theorem Shows.push (h : r.Shows l) (a : α) : (r.push a).Shows (a :: l) := by
  intro i
  unfold RingBuffer.push
  dsimp only
  rw [add_sub_cancel_right]
  by_cases hi : i = 0
  · subst hi
    simp
  · have hne : r.next - i ≠ r.next := fun h => hi (sub_eq_self.mp h)
    have hval : i.val = (i - 1).val + 1 := (val_sub_one_add_one hi).symm
    have hcell : r.next - i = r.next - 1 - (i - 1) := by abel
    rw [Function.update_of_ne hne, hcell, h, hval, List.getElem?_cons_succ]

/-- The cells hold exactly the last `n` values. -/
theorem Shows.has_iff (h : r.Shows l) : r.Has a ↔ a ∈ l.take n := by
  unfold Has
  constructor
  · rintro ⟨j, hj⟩
    rw [h.cell] at hj
    apply List.mem_of_getElem?
    rw [List.getElem?_take_of_lt (r.next - 1 - j).isLt]
    exact hj
  · intro ha
    obtain ⟨i, hi⟩ := List.mem_iff_getElem?.mp ha
    have hlt : i < n := (List.getElem?_eq_some_iff.mp hi).1.trans_le (List.length_take_le _ _)
    rw [List.getElem?_take_of_lt hlt] at hi
    exact ⟨_, (h ⟨i, hlt⟩).trans hi⟩

theorem Shows.distinct (h : r.Shows l) (hl : (l.take n).Nodup) : r.Distinct := by
  intro i j a hi hj
  rw [h.cell, ← List.getElem?_take_of_lt (Fin.isLt _)] at hi hj
  have hval := (List.getElem?_inj (List.getElem?_eq_some_iff.mp hi).1 hl).mp (hi.trans hj.symm)
  exact sub_right_injective (Fin.ext hval)

/-- A value that is not in the window may be pushed. -/
theorem nodup_take_cons (hl : (l.take n).Nodup) (ha : a ∉ l.take n) :
    ((a :: l).take n).Nodup := by
  obtain ⟨m, rfl⟩ := Nat.exists_eq_succ_of_ne_zero (NeZero.ne n)
  rw [List.take_succ_cons]
  have hsub := List.take_sublist_take_left (l := l) (Nat.le_succ m)
  exact List.nodup_cons.mpr ⟨fun hmem => ha (hsub.subset hmem), hl.sublist hsub⟩

end RingBuffer
