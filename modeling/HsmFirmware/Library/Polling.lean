-- SUMMARY: Polling a peripheral with a budget: single polls, the items that have arrived, and loops over polls.
import Mathlib.Tactic.Common
import Mathlib.Data.List.Range

/-!
# Polling

A peripheral is asked again and again, and each poll gives an item or nothing. A schedule says
what every poll gives. Waiting for an item takes polls up to a budget, and a loop around it may
wait any number of times, so that loops have fuel.
-/

namespace Polling

variable {α : Type} (s : Nat → Option α)

/-! ## Waiting for an item -/

/-- Nothing arrives in `b` polls. -/
def Silent (n b : Nat) : Prop := ∀ i < b, s (n + i) = none

/-- Poll for an item, at most `b` times. Gives the number of the next poll, too. -/
def poll : Nat → Nat → Option α × Nat
  | 0, n => (none, n)
  | b + 1, n =>
    match s n with
    | some a => (some a, n + 1)
    | none => poll b (n + 1)

variable {s}

theorem silent_zero (n : Nat) : Silent s n 0 := fun i hi => absurd hi (Nat.not_lt_zero i)

theorem Silent.cons {n b : Nat} (h : s n = none) (ht : Silent s (n + 1) b) : Silent s n (b + 1) := by
  intro i hi
  cases i with
  | zero => exact h
  | succ i =>
    rw [Nat.add_comm i, ← Nat.add_assoc]
    exact ht i (Nat.lt_of_succ_lt_succ hi)

/-- The first item within the budget is the result, and the polls before it were silent. -/
theorem poll_cases (b n : Nat) :
    (∃ i a, i < b ∧ Silent s n i ∧ s (n + i) = some a ∧ poll s b n = (some a, n + i + 1)) ∨
      Silent s n b ∧ poll s b n = (none, n + b) := by
  induction b generalizing n with
  | zero => exact .inr ⟨silent_zero n, rfl⟩
  | succ b ih =>
    unfold poll
    cases hn : s n with
    | some a => exact .inl ⟨0, a, b.succ_pos, silent_zero n, hn, rfl⟩
    | none =>
      have hnext : ∀ i, n + 1 + i = n + (i + 1) := fun i => by rw [Nat.add_assoc, Nat.add_comm 1]
      obtain ⟨i, a, hi, hbefore, ha, hpoll⟩ | ⟨h, hpoll⟩ := ih (n + 1)
      · rw [hnext] at ha hpoll
        exact .inl ⟨i + 1, a, Nat.succ_lt_succ hi, hbefore.cons hn, ha, hpoll⟩
      · rw [hnext] at hpoll
        exact .inr ⟨h.cons hn, hpoll⟩

theorem lt_poll {b : Nat} (h : 0 < b) (n : Nat) : n < (poll s b n).2 := by
  obtain ⟨i, a, -, -, -, hpoll⟩ | ⟨-, hpoll⟩ := @poll_cases α s b n <;> rw [hpoll]
  · exact Nat.lt_succ_of_le (Nat.le_add_right n i)
  · exact Nat.lt_add_of_pos_right h

/-! ## Items that have arrived -/

/-- The items of the first `n` polls. -/
def arrivals (s : Nat → Option α) (n : Nat) : List α := (List.range n).filterMap s

theorem arrivals_succ (n : Nat) : arrivals s (n + 1) = arrivals s n ++ (s n).toList := by
  unfold arrivals
  rw [List.range_succ, List.filterMap_append]
  cases hn : s n <;> simp [hn]

theorem arrivals_silent {n b : Nat} (h : Silent s n b) : arrivals s (n + b) = arrivals s n := by
  induction b with
  | zero => rfl
  | succ b ih =>
    have hb : s (n + b) = none := h b b.lt_succ_self
    rw [← Nat.add_assoc, arrivals_succ, hb, ih fun i hi => h i (hi.trans b.lt_succ_self)]
    exact List.append_nil _

/-- A poll gives the next item, or none has arrived meanwhile. -/
theorem arrivals_poll (b n : Nat) :
    arrivals s (poll s b n).2 = arrivals s n ++ (poll s b n).1.toList := by
  obtain ⟨i, a, -, hbefore, ha, hpoll⟩ | ⟨h, hpoll⟩ := @poll_cases α s b n <;> rw [hpoll]
  · dsimp only
    rw [arrivals_succ, arrivals_silent hbefore, ha]
  · exact (arrivals_silent h).trans (List.append_nil _).symm

theorem arrivals_prefix {n m : Nat} (h : n ≤ m) : arrivals s n <+: arrivals s m := by
  induction h with
  | refl => exact List.prefix_rfl
  | step _ ih =>
    apply ih.trans
    rw [arrivals_succ]
    exact List.prefix_append _ _

/-! ## Items in a row -/

/-- Wait for one item after the other, for each with the same budget. -/
def collect (s : Nat → Option α) (b : Nat) : Nat → Nat → Option (List α × Nat)
  | 0, n => some ([], n)
  | k + 1, n =>
    match poll s b n with
    | (some a, next) => (collect s b k next).map fun r => (a :: r.1, r.2)
    | (none, _) => none

theorem collect_succ (b k n : Nat) :
    collect s b (k + 1) n =
      match poll s b n with
      | (some a, next) => (collect s b k next).map fun r => (a :: r.1, r.2)
      | (none, _) => none := rfl

theorem collect_add (b j k n : Nat) :
    collect s b (j + k) n =
      (collect s b j n).bind fun r => (collect s b k r.2).map fun r' => (r.1 ++ r'.1, r'.2) := by
  induction j generalizing n with
  | zero =>
    rw [Nat.zero_add]
    exact Option.map_id'.symm
  | succ j ih =>
    rw [Nat.succ_add, collect_succ b (j + k), collect_succ b j]
    rcases poll s b n with ⟨_ | a, next⟩
    · rfl
    · dsimp only
      rw [ih]
      cases collect s b j next with
      | none => rfl
      | some r => exact Option.map_map _ _ _

/-! ## Waiting until something is wanted -/

/-- Wait for an item, with a budget or without one. -/
def await (s : Nat → Option α) (budget : Option Nat) (fuel n : Nat) : Option (Option α × Nat) :=
  match budget with
  | some b => some (poll s b n)
  | none =>
    match poll s fuel n with
    | (some a, next) => some (some a, next)
    | (none, _) => none

/-- Wait for item after item until one is wanted, or none arrives. -/
def seek (s : Nat → Option α) (wanted : α → Bool) (budget : Option Nat) :
    Nat → Nat → Option (Bool × Nat)
  | 0, _ => none
  | fuel + 1, n =>
    match await s budget (fuel + 1) n with
    | none => none
    | some (none, next) => some (false, next)
    | some (some a, next) => if wanted a then some (true, next) else seek s wanted budget fuel next

variable {wanted : α → Bool} {budget : Option Nat}

/-- A poll gives an item that is wanted. -/
def Wanted (s : Nat → Option α) (wanted : α → Bool) (m : Nat) : Prop :=
  ∃ a, s m = some a ∧ wanted a = true

/-- From a poll on, nothing arrives within the budget. -/
def Quiet (s : Nat → Option α) (budget : Option Nat) (n : Nat) : Prop :=
  ∃ b, budget = some b ∧ Silent s n b

/-- The first poll that gives an item wanted, where some item has arrived within each budget
    before it. -/
structure FirstWanted (s : Nat → Option α) (wanted : α → Bool) (budget : Option Nat) (n m : Nat) :
    Prop where
  le : n ≤ m
  gives : Wanted s wanted m
  first : ∀ i, n ≤ i → i < m → ¬ Wanted s wanted i
  heard : ∀ b, budget = some b → ∀ g, n ≤ g → g + b ≤ m → ¬ Silent s g b

/-- Nothing arrives within the budget from a poll on, and nothing wanted before. -/
structure LostAt (s : Nat → Option α) (wanted : α → Bool) (budget : Option Nat) (n g : Nat) :
    Prop where
  le : n ≤ g
  quiet : Quiet s budget g
  before : ∀ i, n ≤ i → i < g → ¬ Wanted s wanted i

theorem await_cases (fuel n : Nat) :
    (∃ i a, Silent s n i ∧ s (n + i) = some a ∧ (∀ b, budget = some b → i < b) ∧
        await s budget fuel n = some (some a, n + i + 1)) ∨
      (Quiet s budget n ∧ ∃ next, await s budget fuel n = some (none, next)) ∨
      budget = none ∧ Silent s n fuel ∧ await s budget fuel n = none := by
  cases budget with
  | some b =>
    obtain ⟨i, a, hi, hbefore, ha, hpoll⟩ | ⟨h, hpoll⟩ := @poll_cases α s b n
    · refine .inl ⟨i, a, hbefore, ha, fun b' hb' => Option.some.inj hb' ▸ hi, ?_⟩
      exact congrArg some hpoll
    · exact .inr (.inl ⟨⟨b, rfl, h⟩, _, congrArg some hpoll⟩)
  | none =>
    unfold await
    obtain ⟨i, a, hi, hbefore, ha, hpoll⟩ | ⟨h, hpoll⟩ := @poll_cases α s fuel n
    · refine .inl ⟨i, a, hbefore, ha, ?_, ?_⟩
      · intro b' hb'
        cases hb'
      · rw [hpoll]
    · refine .inr (.inr ⟨rfl, h, ?_⟩)
      rw [hpoll]

theorem not_wanted_of_silent {n b m : Nat} (h : Silent s n b) (hn : n ≤ m) (hm : m < n + b) :
    ¬ Wanted s wanted m := by
  rintro ⟨a, ha, -⟩
  have hnone := h (m - n) (by omega)
  rw [Nat.add_sub_cancel' hn, ha] at hnone
  cases hnone

/-- An item that is not wanted starts the budget anew. -/
theorem heard_after {n i b g : Nat} {a : α} (ha : s (n + i) = some a) (hi : i < b) (hg : n ≤ g)
    (hgap : Silent s g b) : n + i + 1 ≤ g := by
  by_contra hlt
  have hnone := hgap (n + i - g) (by omega)
  rw [Nat.add_sub_cancel' (by omega), ha] at hnone
  cases hnone

/-- How a search ends that ends. -/
theorem seek_cases {fuel n next : Nat} {found : Bool}
    (h : seek s wanted budget fuel n = some (found, next)) :
    (found = true ∧ ∃ m, next = m + 1 ∧ FirstWanted s wanted budget n m) ∨
      found = false ∧ ∃ g, LostAt s wanted budget n g := by
  induction fuel generalizing n with
  | zero => cases h
  | succ fuel ih =>
    unfold seek at h
    obtain ⟨i, a, hbefore, ha, hi, hawait⟩ | ⟨hquiet, next', hawait⟩ | ⟨-, -, hawait⟩ :=
      @await_cases α s budget (fuel + 1) n
    · rw [hawait] at h
      dsimp only at h
      have hearly : ∀ j, n ≤ j → j < n + i → ¬ Wanted s wanted j := fun j hj hlt =>
        not_wanted_of_silent hbefore hj hlt
      split at h
      · rename_i hwanted
        cases h
        refine .inl ⟨rfl, n + i, rfl, Nat.le_add_right n i, ⟨a, ha, hwanted⟩, hearly, ?_⟩
        intro b hb g hg hle hgap
        have hafter := heard_after ha (hi b hb) hg hgap
        omega
      · rename_i hwanted
        have hnot : ∀ j, n ≤ j → j < n + i + 1 → ¬ Wanted s wanted j := by
          intro j hj hlt
          obtain hlt | rfl := Nat.lt_succ_iff_lt_or_eq.mp hlt
          · exact hearly j hj hlt
          · rintro ⟨a', ha', hw⟩
            cases ha.symm.trans ha'
            exact hwanted hw
        obtain ⟨rfl, m, rfl, hfirst⟩ | ⟨rfl, g, hlost⟩ := ih h
        · refine .inl ⟨rfl, m, rfl, (Nat.le_add_right n (i + 1)).trans hfirst.le, hfirst.gives, ?_, ?_⟩
          · intro j hj hlt
            by_cases hlate : n + i + 1 ≤ j
            · exact hfirst.first j hlate hlt
            · exact hnot j hj (Nat.lt_of_not_le hlate)
          · intro b hb g hg hle hgap
            exact hfirst.heard b hb g (heard_after ha (hi b hb) hg hgap) hle hgap
        · refine .inr ⟨rfl, g, (Nat.le_add_right n (i + 1)).trans hlost.le, hlost.quiet, ?_⟩
          intro j hj hlt
          by_cases hlate : n + i + 1 ≤ j
          · exact hlost.before j hlate hlt
          · exact hnot j hj (Nat.lt_of_not_le hlate)
    · rw [hawait] at h
      cases h
      exact .inr ⟨rfl, n, Nat.le_refl n, hquiet, fun i hi hlt => absurd hi (Nat.not_le.mpr hlt)⟩
    · rw [hawait] at h
      cases h

/-- A search with enough fuel ends if an item wanted or a silence comes. -/
theorem seek_ends {fuel n m : Nat} (hn : n ≤ m) (hm : m + 1 ≤ n + fuel)
    (h : Wanted s wanted m ∨ Quiet s budget m) : ∃ r, seek s wanted budget fuel n = some r := by
  induction fuel generalizing n with
  | zero => omega
  | succ fuel ih =>
    unfold seek
    obtain ⟨i, a, hbefore, ha, hi, hawait⟩ | ⟨hquiet, next', hawait⟩ | ⟨hnone, hsilent, hawait⟩ :=
      @await_cases α s budget (fuel + 1) n
    · rw [hawait]
      dsimp only
      split
      · exact ⟨_, rfl⟩
      · rename_i hwanted
        -- What ends the search is behind the item that did not.
        have hafter : n + i + 1 ≤ m := by
          obtain hw | ⟨b, hb, hgap⟩ := h
          · by_contra hlt
            obtain hlt | rfl := Nat.lt_or_eq_of_le (show m ≤ n + i by omega)
            · exact not_wanted_of_silent hbefore hn hlt hw
            · obtain ⟨a', ha', hw⟩ := hw
              cases ha.symm.trans ha'
              exact hwanted hw
          · exact heard_after ha (hi b hb) hn hgap
        exact ih hafter (by omega)
    · rw [hawait]
      exact ⟨_, rfl⟩
    · obtain hw | ⟨b, hb, -⟩ := h
      · exact (not_wanted_of_silent hsilent hn (by omega) hw).elim
      · cases hnone.symm.trans hb

/-- A search does not end in both ways. -/
theorem FirstWanted.not_lost {n m g : Nat} (h : FirstWanted s wanted budget n m) :
    ¬ LostAt s wanted budget n g := by
  rintro ⟨hle, ⟨b, hb, hgap⟩, hbefore⟩
  by_cases hgm : g + b ≤ m
  · exact h.heard b hb g hle hgm hgap
  · by_cases hmg : m < g
    · exact hbefore m h.le hmg h.gives
    · exact not_wanted_of_silent hgap (Nat.le_of_not_lt hmg) (Nat.lt_of_not_le hgm) h.gives

theorem FirstWanted.unique {n m m' : Nat} (h : FirstWanted s wanted budget n m)
    (h' : FirstWanted s wanted budget n m') : m = m' := by
  obtain hlt | rfl | hlt := Nat.lt_trichotomy m m'
  · exact (h'.first m h.le hlt h.gives).elim
  · rfl
  · exact (h.first m' h'.le hlt h'.gives).elim

end Polling
