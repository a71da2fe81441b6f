-- SUMMARY: Two processes that exchange items over ordered channels: all orders of moves lead to the same end.
import Mathlib.Tactic.Common
import Mathlib.Data.List.Basic

/-!
# Networks of two processes

Each process is deterministic and works on its own state. What one puts into its
channel travels on a wire, arrives, and is taken by the other in the same order. Who
moves next is open; but moves of different kinds commute, so that one run to a final
state tells how all runs end.
-/

/-! ## Systems whose moves commute -/

section

variable {Move S : Type}

/-- `n` moves lead from one state to the other. -/
inductive Steps (step : Move → S → Option S) : Nat → S → S → Prop where
  | refl (s : S) : Steps step 0 s s
  | head {n : Nat} {s t u : S} (m : Move) (h : step m s = some t) (tail : Steps step n t u) :
      Steps step (n + 1) s u

/-- No move is possible. -/
def Final (step : Move → S → Option S) (s : S) : Prop := ∀ m, step m s = none

/-- Different moves that are possible in a state can be made in either order. -/
def StepsCommute (step : Move → S → Option S) : Prop :=
  ∀ m m' s t t', m ≠ m' → step m s = some t → step m' s = some t' →
    ∃ u, step m' t = some u ∧ step m t' = some u

variable {step : Move → S → Option S}

theorem Steps.one {s t : S} (m : Move) (h : step m s = some t) : Steps step 1 s t :=
  .head m h (.refl t)

theorem Steps.trans {n k : Nat} {s t u : S} (h : Steps step n s t) (h' : Steps step k t u) :
    Steps step (n + k) s u := by
  induction h with
  | refl s => rwa [Nat.zero_add]
  | @head n s t' t m hm _ ih =>
    rw [Nat.succ_add]
    exact .head m hm (ih h')

/-- A move brings a run to a final state one move closer to it. -/
theorem Steps.residual (hc : StepsCommute step) {n : Nat} {s t u : S} {m : Move}
    (h : Steps step n s u) (hu : Final step u) (hm : step m s = some t) :
    ∃ n', n = n' + 1 ∧ Steps step n' t u := by
  induction h generalizing t with
  | refl s => exact (Option.some_ne_none t (hm.symm.trans (hu m))).elim
  | @head n s s₁ u m₀ h₀ tail ih =>
    by_cases heq : m = m₀
    · subst heq
      obtain rfl : s₁ = t := Option.some.inj (h₀.symm.trans hm)
      exact ⟨n, rfl, tail⟩
    · obtain ⟨v, hv₀, hv⟩ := hc m m₀ s t s₁ heq hm h₀
      obtain ⟨n', rfl, htail⟩ := ih hu hv
      exact ⟨n' + 1, rfl, .head m₀ hv₀ htail⟩

/-- When one run reaches a final state, every run can be completed to it, and none is longer. -/
theorem Steps.complete (hc : StepsCommute step) {n k : Nat} {s t u : S} (h : Steps step n s u)
    (hu : Final step u) (h' : Steps step k s t) : ∃ k', n = k + k' ∧ Steps step k' t u := by
  induction h' generalizing n with
  | refl s => exact ⟨n, (Nat.zero_add n).symm, h⟩
  | @head k s s₁ t m hm _ ih =>
    obtain ⟨n', rfl, hres⟩ := h.residual hc hu hm
    obtain ⟨k', rfl, hrest⟩ := ih hres
    exact ⟨k', by omega, hrest⟩

end

/-! ## Processes and channels -/

/-- What a process does next. A process that waits for an item has a way on for each. -/
inductive Next (β σ : Type) where
  | halt
  | silent (s : σ)
  | put (b : β) (s : σ)
  | take (k : β → σ)

/-- A channel in one direction: the items on the wire and those that have arrived, the oldest
    first. -/
@[ext] structure Channel (β : Type) where
  wire : List β
  arrived : List β

namespace Channel

variable {β : Type}

def empty : Channel β := ⟨[], []⟩

def put (c : Channel β) (b : β) : Channel β := { c with wire := c.wire ++ [b] }

def deliver (c : Channel β) : Option (Channel β) :=
  match c.wire with
  | [] => none
  | b :: wire => some ⟨wire, c.arrived ++ [b]⟩

def take (c : Channel β) : Option (β × Channel β) :=
  match c.arrived with
  | [] => none
  | b :: arrived => some (b, ⟨c.wire, arrived⟩)

theorem deliver_put {c d : Channel β} (h : c.deliver = some d) (b : β) :
    (c.put b).deliver = some (d.put b) := by
  obtain ⟨wire, arrived⟩ := c
  cases wire with
  | nil => cases h
  | cons a wire =>
    obtain rfl : _ = d := Option.some.inj h
    rfl

theorem take_put {c d : Channel β} {a : β} (h : c.take = some (a, d)) (b : β) :
    (c.put b).take = some (a, d.put b) := by
  obtain ⟨wire, arrived⟩ := c
  cases arrived with
  | nil => cases h
  | cons a' arrived =>
    obtain ⟨rfl, rfl⟩ := Prod.mk.inj (Option.some.inj h)
    rfl

theorem take_deliver {c d e : Channel β} {a : β} (h : c.take = some (a, d))
    (h' : c.deliver = some e) : ∃ f, d.deliver = some f ∧ e.take = some (a, f) := by
  obtain ⟨wire, arrived⟩ := c
  cases arrived with
  | nil => cases h
  | cons a' arrived =>
    cases wire with
    | nil => cases h'
    | cons b wire =>
      obtain ⟨rfl, rfl⟩ := Prod.mk.inj (Option.some.inj h)
      obtain rfl : _ = e := Option.some.inj h'
      exact ⟨_, rfl, rfl⟩

/-- All items in the channel, the oldest first. -/
def content (c : Channel β) : List β := c.arrived ++ c.wire

theorem content_deliver {c d : Channel β} (h : c.deliver = some d) : d.content = c.content := by
  obtain ⟨wire, arrived⟩ := c
  cases wire with
  | nil => cases h
  | cons b wire =>
    obtain rfl : _ = d := Option.some.inj h
    rw [content, content, List.append_assoc, List.singleton_append]

theorem eq_empty_of_content {c : Channel β} (h : c.content = []) : c = .empty := by
  obtain ⟨wire, arrived⟩ := c
  obtain ⟨rfl, rfl⟩ := List.append_eq_nil_iff.mp h
  rfl

end Channel

/-- Two processes, and a channel in each direction. -/
structure Net (β σ τ : Type) where
  left : σ
  right : τ
  toRight : Channel β
  toLeft : Channel β

/-- Who moves: a process, or the wire of a channel. -/
inductive Net.Move where
  | left
  | right
  | toRight
  | toLeft
  deriving DecidableEq

section

variable {β σ τ : Type}

/-- A process moves, with the channel it takes from and the one it puts into. -/
def Next.move (next : Next β σ) (input output : Channel β) : Option (σ × Channel β × Channel β) :=
  match next with
  | .halt => none
  | .silent s => some (s, input, output)
  | .put b s => some (s, input, output.put b)
  | .take k => input.take.map fun r => (k r.1, r.2, output)

/-- A process moves as it does after a delivery to its input. -/
theorem Next.move_deliver_input {next : Next β σ} {input input' output output' i : Channel β}
    {s : σ} (h : next.move input output = some (s, input', output'))
    (hi : input.deliver = some i) :
    ∃ i', input'.deliver = some i' ∧ next.move i output = some (s, i', output') := by
  cases next with
  | halt => cases h
  | silent s' =>
    cases h
    exact ⟨i, hi, rfl⟩
  | put b s' =>
    cases h
    exact ⟨i, hi, rfl⟩
  | take k =>
    rw [move, Option.map_eq_some_iff] at h
    obtain ⟨⟨a, d⟩, htake, hr⟩ := h
    cases hr
    obtain ⟨f, hf, htake'⟩ := Channel.take_deliver htake hi
    exact ⟨f, hf, by rw [move, htake']; rfl⟩

/-- A process moves as it does after a delivery from its output. -/
theorem Next.move_deliver_output {next : Next β σ} {input input' output output' o : Channel β}
    {s : σ} (h : next.move input output = some (s, input', output'))
    (ho : output.deliver = some o) :
    ∃ o', output'.deliver = some o' ∧ next.move input o = some (s, input', o') := by
  cases next with
  | halt => cases h
  | silent s' =>
    cases h
    exact ⟨o, ho, rfl⟩
  | put b s' =>
    cases h
    exact ⟨o.put b, Channel.deliver_put ho b, rfl⟩
  | take k =>
    rw [move, Option.map_eq_some_iff] at h
    obtain ⟨⟨a, d⟩, htake, hr⟩ := h
    cases hr
    exact ⟨o, ho, by rw [move, htake]; rfl⟩

/-- Two processes move in either order: what one puts is behind what the other takes. -/
theorem Next.move_move {next : Next β σ} {next' : Next β τ} {a b a₁ b₁ a₂ b₂ : Channel β} {s : σ}
    {t : τ} (h : next.move a b = some (s, a₁, b₁)) (h' : next'.move b a = some (t, b₂, a₂)) :
    ∃ a' b', next'.move b₁ a₁ = some (t, b', a') ∧ next.move a₂ b₂ = some (s, a', b') := by
  cases next with
  | halt => cases h
  | silent s' =>
    cases h
    exact ⟨a₂, b₂, h', rfl⟩
  | put x s' =>
    cases h
    cases next' with
    | halt => cases h'
    | silent t' =>
      cases h'
      exact ⟨_, _, rfl, rfl⟩
    | put y t' =>
      cases h'
      exact ⟨_, _, rfl, rfl⟩
    | take k =>
      rw [move, Option.map_eq_some_iff] at h'
      obtain ⟨⟨y, d⟩, htake, hr⟩ := h'
      cases hr
      exact ⟨a, d.put x, by rw [move, Channel.take_put htake x]; rfl, rfl⟩
  | take k =>
    rw [move, Option.map_eq_some_iff] at h
    obtain ⟨⟨x, d⟩, htake, hr⟩ := h
    cases hr
    cases next' with
    | halt => cases h'
    | silent t' =>
      cases h'
      exact ⟨d, b, rfl, by rw [move, htake]; rfl⟩
    | put y t' =>
      cases h'
      exact ⟨d.put y, b, rfl, by rw [move, Channel.take_put htake y]; rfl⟩
    | take k' =>
      rw [move, Option.map_eq_some_iff] at h'
      obtain ⟨⟨y, d'⟩, htake', hr⟩ := h'
      cases hr
      exact ⟨d, d', by rw [move, htake']; rfl, by rw [move, htake]; rfl⟩

end

namespace Net

variable {β σ τ : Type}

/-- One move of a network, for the programs of its processes. -/
def step (next : σ → Next β σ) (next' : τ → Next β τ) : Move → Net β σ τ → Option (Net β σ τ)
  | .left, n => ((next n.left).move n.toLeft n.toRight).map fun r =>
    { n with left := r.1, toLeft := r.2.1, toRight := r.2.2 }
  | .right, n => ((next' n.right).move n.toRight n.toLeft).map fun r =>
    { n with right := r.1, toRight := r.2.1, toLeft := r.2.2 }
  | .toRight, n => n.toRight.deliver.map fun c => { n with toRight := c }
  | .toLeft, n => n.toLeft.deliver.map fun c => { n with toLeft := c }

section

variable {next : σ → Next β σ} {next' : τ → Next β τ} {n t : Net β σ τ}

theorem step_left (h : step next next' .left n = some t) :
    ∃ s i o, (next n.left).move n.toLeft n.toRight = some (s, i, o) ∧ t = ⟨s, n.right, o, i⟩ := by
  rw [step, Option.map_eq_some_iff] at h
  obtain ⟨⟨s, i, o⟩, hmove, rfl⟩ := h
  exact ⟨s, i, o, hmove, rfl⟩

theorem step_right (h : step next next' .right n = some t) :
    ∃ s i o, (next' n.right).move n.toRight n.toLeft = some (s, i, o) ∧ t = ⟨n.left, s, i, o⟩ := by
  rw [step, Option.map_eq_some_iff] at h
  obtain ⟨⟨s, i, o⟩, hmove, rfl⟩ := h
  exact ⟨s, i, o, hmove, rfl⟩

theorem step_toRight (h : step next next' .toRight n = some t) :
    ∃ c, n.toRight.deliver = some c ∧ t = { n with toRight := c } := by
  rw [step, Option.map_eq_some_iff] at h
  obtain ⟨c, hc, rfl⟩ := h
  exact ⟨c, hc, rfl⟩

theorem step_toLeft (h : step next next' .toLeft n = some t) :
    ∃ c, n.toLeft.deliver = some c ∧ t = { n with toLeft := c } := by
  rw [step, Option.map_eq_some_iff] at h
  obtain ⟨c, hc, rfl⟩ := h
  exact ⟨c, hc, rfl⟩

end

/-- The network with its sides exchanged. -/
def swap (n : Net β σ τ) : Net β τ σ := ⟨n.right, n.left, n.toLeft, n.toRight⟩

/-- The move of the same agent, seen with the sides exchanged. -/
def Move.swap : Move → Move
  | .left => .right
  | .right => .left
  | .toRight => .toLeft
  | .toLeft => .toRight

theorem Move.swap_swap (m : Move) : m.swap.swap = m := by cases m <;> rfl

theorem step_swap (next : σ → Next β σ) (next' : τ → Next β τ) (m : Move) (n : Net β σ τ) :
    step next' next m.swap n.swap = (step next next' m n).map swap := by
  cases m <;> simp only [step, Move.swap, swap, Option.map_map] <;> rfl

/-- The left process moves, and another agent does. -/
theorem step_left_commute {next : σ → Next β σ} {next' : τ → Next β τ} {m : Move}
    {n t t' : Net β σ τ} (hne : m ≠ .left) (h : step next next' .left n = some t)
    (h' : step next next' m n = some t') :
    ∃ u, step next next' m t = some u ∧ step next next' .left t' = some u := by
  obtain ⟨s, i, o, hmove, rfl⟩ := step_left h
  cases m with
  | left => exact (hne rfl).elim
  | right =>
    obtain ⟨s', i', o', hmove', rfl⟩ := step_right h'
    obtain ⟨a, b, hr, hl⟩ := Next.move_move hmove hmove'
    exact ⟨⟨s, s', b, a⟩, by rw [step, hr]; rfl, by rw [step, hl]; rfl⟩
  | toRight =>
    obtain ⟨c, hc, rfl⟩ := step_toRight h'
    obtain ⟨o', ho', hmove'⟩ := Next.move_deliver_output hmove hc
    exact ⟨⟨s, n.right, o', i⟩, by rw [step, ho']; rfl, by rw [step, hmove']; rfl⟩
  | toLeft =>
    obtain ⟨c, hc, rfl⟩ := step_toLeft h'
    obtain ⟨i', hi', hmove'⟩ := Next.move_deliver_input hmove hc
    exact ⟨⟨s, n.right, o, i'⟩, by rw [step, hi']; rfl, by rw [step, hmove']; rfl⟩

theorem step_right_commute {next : σ → Next β σ} {next' : τ → Next β τ} {m : Move}
    {n t t' : Net β σ τ} (hne : m ≠ .right) (h : step next next' .right n = some t)
    (h' : step next next' m n = some t') :
    ∃ u, step next next' m t = some u ∧ step next next' .right t' = some u := by
  have hswap : ∀ {m : Move} {n t : Net β σ τ}, step next next' m n = some t →
      step next' next m.swap n.swap = some t.swap := by
    intro m n t hm
    rw [step_swap, hm]
    rfl
  have hback : ∀ {m : Move} {n : Net β σ τ} {u : Net β τ σ},
      step next' next m.swap n.swap = some u → step next next' m n = some u.swap := by
    intro m n u hm
    rw [step_swap, Option.map_eq_some_iff] at hm
    obtain ⟨t, ht, rfl⟩ := hm
    exact ht
  have hne' : m.swap ≠ .left := fun heq => hne (by rw [← m.swap_swap, heq]; rfl)
  obtain ⟨u, hu, hu'⟩ := step_left_commute hne' (hswap (m := .right) h) (hswap h')
  exact ⟨u.swap, hback hu, hback (m := .right) hu'⟩

/-- The moves of a network commute. -/
theorem step_commute (next : σ → Next β σ) (next' : τ → Next β τ) :
    StepsCommute (step next next') := by
  intro m m' n t t' hne h h'
  cases m with
  | left => exact step_left_commute hne.symm h h'
  | right => exact step_right_commute hne.symm h h'
  | toRight =>
    cases m' with
    | left =>
      obtain ⟨u, hu, hu'⟩ := step_left_commute hne h' h
      exact ⟨u, hu', hu⟩
    | right =>
      obtain ⟨u, hu, hu'⟩ := step_right_commute hne h' h
      exact ⟨u, hu', hu⟩
    | toRight => exact (hne rfl).elim
    | toLeft =>
      obtain ⟨c, hc, rfl⟩ := step_toRight h
      obtain ⟨d, hd, rfl⟩ := step_toLeft h'
      exact ⟨⟨n.left, n.right, c, d⟩, by rw [step, hd]; rfl, by rw [step, hc]; rfl⟩
  | toLeft =>
    cases m' with
    | left =>
      obtain ⟨u, hu, hu'⟩ := step_left_commute hne h' h
      exact ⟨u, hu', hu⟩
    | right =>
      obtain ⟨u, hu, hu'⟩ := step_right_commute hne h' h
      exact ⟨u, hu', hu⟩
    | toRight =>
      obtain ⟨c, hc, rfl⟩ := step_toLeft h
      obtain ⟨d, hd, rfl⟩ := step_toRight h'
      exact ⟨⟨n.left, n.right, d, c⟩, by rw [step, hd]; rfl, by rw [step, hc]; rfl⟩
    | toLeft => exact (hne rfl).elim

/-! ## Runs -/

/-- Some run leads from one state of a network to the other. -/
def Reaches (next : σ → Next β σ) (next' : τ → Next β τ) (n t : Net β σ τ) : Prop :=
  ∃ k, Steps (step next next') k n t

variable {next : σ → Next β σ} {next' : τ → Next β τ}

theorem Reaches.refl (n : Net β σ τ) : Reaches next next' n n := ⟨0, .refl n⟩

theorem Reaches.trans {n t u : Net β σ τ} (h : Reaches next next' n t)
    (h' : Reaches next next' t u) : Reaches next next' n u := by
  obtain ⟨k, hk⟩ := h
  obtain ⟨k', hk'⟩ := h'
  exact ⟨k + k', hk.trans hk'⟩

theorem Reaches.one {n t : Net β σ τ} (m : Move) (h : step next next' m n = some t) :
    Reaches next next' n t :=
  ⟨1, .one m h⟩

theorem Reaches.swap {n t : Net β σ τ} (h : Reaches next next' n t) :
    Reaches next' next n.swap t.swap := by
  obtain ⟨k, hk⟩ := h
  refine ⟨k, ?_⟩
  induction hk with
  | refl s => exact .refl _
  | head m hm _ ih => exact .head m.swap (by rw [step_swap, hm]; rfl) ih

/-- A silent move of the left process. -/
theorem Reaches.silent {n : Net β σ τ} {s : σ} (h : next n.left = .silent s) :
    Reaches next next' n { n with left := s } :=
  .one .left (by rw [step, h]; rfl)

/-- The left process puts an item into an empty channel, where the right one takes it. -/
theorem Reaches.pass {s s' : σ} {t : τ} {b : β} {k : β → τ} {c : Channel β}
    (h : next s = .put b s') (h' : next' t = .take k) :
    Reaches next next' ⟨s, t, .empty, c⟩ ⟨s', k b, .empty, c⟩ := by
  have hput : step next next' .left ⟨s, t, .empty, c⟩ = some ⟨s', t, ⟨[b], []⟩, c⟩ := by
    rw [step, h]
    rfl
  have hdeliver : step next next' .toRight ⟨s', t, ⟨[b], []⟩, c⟩ = some ⟨s', t, ⟨[], [b]⟩, c⟩ := rfl
  have htake : step next next' .right ⟨s', t, ⟨[], [b]⟩, c⟩ = some ⟨s', k b, .empty, c⟩ := by
    rw [step, h']
    rfl
  exact ((Reaches.one _ hput).trans (.one _ hdeliver)).trans (.one _ htake)

/-- The right process takes an item that has arrived. -/
theorem Reaches.take {s : σ} {t : τ} {b : β} {k : β → τ} {wire arrived : List β} {c : Channel β}
    (h' : next' t = .take k) :
    Reaches next next' ⟨s, t, ⟨wire, b :: arrived⟩, c⟩ ⟨s, k b, ⟨wire, arrived⟩, c⟩ :=
  .one .right (by rw [step, h']; rfl)

/-- The wire delivers all it holds. -/
theorem Reaches.deliverAll {s : σ} {t : τ} {c : Channel β} (wire arrived : List β) :
    Reaches next next' ⟨s, t, ⟨wire, arrived⟩, c⟩ ⟨s, t, ⟨[], arrived ++ wire⟩, c⟩ := by
  induction wire generalizing arrived with
  | nil =>
    rw [List.append_nil]
    exact .refl _
  | cons b wire ih =>
    have hrest := ih (arrived ++ [b])
    rw [List.append_assoc, List.singleton_append] at hrest
    exact (Reaches.one .toRight rfl).trans hrest

/-- Both processes have halted and the channels are empty. -/
structure Quiet (next : σ → Next β σ) (next' : τ → Next β τ) (n : Net β σ τ) : Prop where
  left : next n.left = .halt
  right : next' n.right = .halt
  toRight : n.toRight = .empty
  toLeft : n.toLeft = .empty

theorem Quiet.final {n : Net β σ τ} (h : Quiet next next' n) : Final (step next next') n := by
  intro m
  cases m with
  | left =>
    rw [step, h.left]
    rfl
  | right =>
    rw [step, h.right]
    rfl
  | toRight =>
    rw [step, h.toRight]
    rfl
  | toLeft =>
    rw [step, h.toLeft]
    rfl

/-- All runs of a network end in one state: none is longer than some bound, each can be
    completed to that state, and each that cannot go on has reached it. -/
structure EndsIn (next : σ → Next β σ) (next' : τ → Next β τ) (n t : Net β σ τ) : Prop where
  bounded : ∃ k, ∀ k' u, Steps (step next next') k' n u → k' ≤ k
  completed : ∀ u, Reaches next next' n u → Reaches next next' u t
  stuck : ∀ u, Reaches next next' n u → Final (step next next') u → u = t

/-- One run to a quiet state suffices. -/
theorem EndsIn.of_reaches {n t : Net β σ τ} (h : Reaches next next' n t)
    (ht : Quiet next next' t) : EndsIn next next' n t := by
  obtain ⟨k, hk⟩ := h
  have hcomplete := fun k' u (hu : Steps (step next next') k' n u) =>
    hk.complete (step_commute next next') ht.final hu
  refine ⟨⟨k, fun k' u hu => ?_⟩, fun u ⟨k', hu⟩ => ?_, fun u ⟨k', hu⟩ hfinal => ?_⟩
  · obtain ⟨j, rfl, -⟩ := hcomplete k' u hu
    omega
  · obtain ⟨j, -, hj⟩ := hcomplete k' u hu
    exact ⟨j, hj⟩
  · obtain ⟨j, -, hj⟩ := hcomplete k' u hu
    cases hj with
    | refl => rfl
    | head m hm => exact (Option.some_ne_none _ (hm.symm.trans (hfinal m))).elim

end Net
