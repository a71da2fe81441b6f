-- SUMMARY: Agents that run programs in interleaved sessions, any of them cut off at any time, and what one session has done.
import HsmFirmware.Library.History
import Mathlib.Logic.Function.Basic

/-!
# Sessions

Each agent has a state of its own. It can start a session: a program, chosen by a command, that
ends with a new state. Sessions of different agents are interleaved in any order; the responses
to their operations are not restricted, so that whoever answers them is free in what it says. An
agent can be reset at any time, in any state, which cuts its session off.

The trace has an operation twice, when it is issued and when it is answered: what an agent sends
is out before the agent learns so.
-/

namespace Sessions

variable {ι κ σ : Type} {Op : Type} {Res : Op → Type}

/-- What can be seen of the agents. A session goes by the position at which it has started. -/
inductive Event (ι κ σ : Type) (Res : Op → Type) where
  | start (i : ι) (c : κ) (s : σ)
  | issue (n : Nat) (o : Op)
  | answer (n : Nat) (o : Op) (r : Res o)

/-- What an agent is doing. -/
inductive Agent (σ : Type) (Res : Op → Type) where
  | idle (s : σ)
  | ready (n : Nat) (p : Prog Res σ)
  | waiting (n : Nat) (o : Op) (k : Res o → Prog Res σ)

/-- The agents, and the events so far, the oldest first. -/
structure State (ι κ σ : Type) (Res : Op → Type) where
  agents : ι → Agent σ Res
  trace : List (Event ι κ σ Res)

section

variable [DecidableEq ι] (code : ι → κ → σ → Prog Res σ)

/-- One step of one agent. -/
inductive Step : State ι κ σ Res → State ι κ σ Res → Prop where
  | start {g t} (i : ι) (c : κ) (s : σ) (h : g i = .idle s) :
      Step ⟨g, t⟩ ⟨Function.update g i (.ready t.length (code i c s)), t ++ [.start i c s]⟩
  | issue {g t} (i : ι) (n : Nat) (o : Op) (k : Res o → Prog Res σ) (h : g i = .ready n (.call o k)) :
      Step ⟨g, t⟩ ⟨Function.update g i (.waiting n o k), t ++ [.issue n o]⟩
  | answer {g t} (i : ι) (n : Nat) (o : Op) (k : Res o → Prog Res σ) (r : Res o)
      (h : g i = .waiting n o k) :
      Step ⟨g, t⟩ ⟨Function.update g i (.ready n (k r)), t ++ [.answer n o r]⟩
  | finish {g t} (i : ι) (n : Nat) (s : σ) (h : g i = .ready n (.ret s)) :
      Step ⟨g, t⟩ ⟨Function.update g i (.idle s), t⟩
  | reset {g t} (i : ι) (s : σ) : Step ⟨g, t⟩ ⟨Function.update g i (.idle s), t⟩

/-- The states that steps from idle agents reach. -/
inductive Run : State ι κ σ Res → Prop where
  | init (s : ι → σ) : Run ⟨fun i => .idle (s i), []⟩
  | step {a b} (run : Run a) (h : Step code a b) : Run b

end

/-! ## The history of a session -/

/-- The operation that is answered to a session. -/
def Event.act (n : Nat) : Event ι κ σ Res → Option (Prog.Act Res)
  | .start _ _ _ => none
  | .issue _ _ => none
  | .answer m o r => if m = n then some ⟨o, r⟩ else none

theorem Event.act_eq_some {n : Nat} {e : Event ι κ σ Res} {a : Prog.Act Res} :
    e.act n = some a ↔ e = .answer n a.1 a.2 := by
  cases e with
  | start i c s => simp [act]
  | issue m o => simp [act]
  | answer m o r =>
    simp only [act, Option.ite_none_right_eq_some, Option.some.injEq, answer.injEq]
    constructor
    · rintro ⟨rfl, rfl⟩
      exact ⟨rfl, rfl, HEq.rfl⟩
    · obtain ⟨o', r'⟩ := a
      rintro ⟨rfl, rfl, hr⟩
      cases hr
      exact ⟨rfl, rfl⟩

/-- The operations of a session that have been answered. -/
def history (n : Nat) (t : List (Event ι κ σ Res)) : List (Prog.Act Res) :=
  t.filterMap (Event.act n)

@[simp] theorem history_start (n : Nat) (t : List (Event ι κ σ Res)) (i : ι) (c : κ) (s : σ) :
    history n (t ++ [.start i c s]) = history n t := by
  simp [history, Event.act]

@[simp] theorem history_issue (n m : Nat) (t : List (Event ι κ σ Res)) (o : Op) :
    history n (t ++ [.issue m o]) = history n t := by
  simp [history, Event.act]

@[simp] theorem history_answer_self (n : Nat) (t : List (Event ι κ σ Res)) (o : Op) (r : Res o) :
    history n (t ++ [.answer n o r]) = history n t ++ [⟨o, r⟩] := by
  simp [history, Event.act]

theorem history_answer_of_ne {n m : Nat} (h : m ≠ n) (t : List (Event ι κ σ Res)) (o : Op)
    (r : Res o) : history n (t ++ [.answer m o r]) = history n t := by
  simp [history, Event.act, h]

/-- An operation of the history has been answered. -/
theorem mem_history {n : Nat} {t : List (Event ι κ σ Res)} {a : Prog.Act Res} :
    a ∈ history n t ↔ ∃ k : Nat, t[k]? = some (.answer n a.1 a.2) := by
  unfold history
  rw [List.mem_filterMap]
  constructor
  · rintro ⟨e, he, hact⟩
    obtain rfl := Event.act_eq_some.mp hact
    exact List.mem_iff_getElem?.mp he
  · rintro ⟨k, hk⟩
    exact ⟨_, List.mem_iff_getElem?.mpr ⟨k, hk⟩, Event.act_eq_some.mpr rfl⟩

/-- An event of a longer trace. -/
theorem getElem?_concat {α : Type} {t : List α} {e x : α} {k : Nat} :
    (t ++ [e])[k]? = some x ↔ t[k]? = some x ∨ k = t.length ∧ x = e := by
  rcases Nat.lt_trichotomy k t.length with h | h | h
  · rw [List.getElem?_append_left h]
    exact ⟨.inl, fun hx => hx.elim id fun hk => absurd hk.1 (Nat.ne_of_lt h)⟩
  · subst h
    simp [eq_comm]
  · have hlen : (t ++ [e]).length ≤ k := by
      rw [List.length_append]
      exact h
    rw [List.getElem?_eq_none hlen, List.getElem?_eq_none (Nat.le_of_lt h)]
    simp [Nat.ne_of_gt h]

theorem lt_length_of_getElem? {α : Type} {t : List α} {x : α} {k : Nat} (h : t[k]? = some x) :
    k < t.length :=
  (List.getElem?_eq_some_iff.mp h).1

/-- What is in a history up to a position has been answered before it. -/
theorem mem_history_take {n k : Nat} {t : List (Event ι κ σ Res)} {a : Prog.Act Res}
    (h : a ∈ history n (t.take k)) : ∃ j < k, t[j]? = some (.answer n a.1 a.2) := by
  obtain ⟨j, hj⟩ := mem_history.mp h
  have hlt : j < k := Nat.lt_of_lt_of_le (lt_length_of_getElem? hj) (List.length_take_le k t)
  rw [List.getElem?_take_of_lt hlt] at hj
  exact ⟨j, hlt, hj⟩

/-- The events of a session that performs these operations. -/
def performed (n : Nat) (l : List (Prog.Act Res)) : List (Event ι κ σ Res) :=
  l.flatMap fun a => [.issue n a.1, .answer n a.1 a.2]

/-! ## What holds of every run -/

section

variable (code : ι → κ → σ → Prog Res σ) (t : List (Event ι κ σ Res))

/-- A session of an agent has come to a program, all it has issued being answered but an operation
    in `pending`. -/
structure At (i : ι) (n : Nat) (p : Prog Res σ) (pending : Op → Prop) : Prop where
  path : ∃ c s, t[n]? = some (.start i c s) ∧ Prog.Path (code i c s) (history n t) p
  answered : ∀ (j : Nat) (o : Op), t[j]? = some (.issue n o) →
    pending o ∨ ∃ r : Res o, (⟨o, r⟩ : Prog.Act Res) ∈ history n t

/-- The agent is where its session has brought it. -/
def AgentAt (i : ι) : Agent σ Res → Prop
  | .idle _ => True
  | .ready n p => At code t i n p fun _ => False
  | .waiting n o k => At code t i n (.call o k) fun o' => o' = o

/-- By the event `k`, the program of a session has come to an operation. -/
structure Reached (k n : Nat) (o : Op) : Prop where
  before : n < k
  path : ∃ i c s K, t[n]? = some (.start i c s) ∧
    Prog.Path (code i c s) (history n (t.take k)) (.call o K)

/-- An operation is issued where the program of its session has come to it, and all the session
    has issued before is answered. -/
structure Issued (k n : Nat) (o : Op) : Prop extends Reached code t k n o where
  answered : ∀ (j : Nat) (o' : Op), j < k → t[j]? = some (.issue n o') →
    ∃ r : Res o', (⟨o', r⟩ : Prog.Act Res) ∈ history n (t.take k)

end

/-- What holds of every state that is reached. -/
structure Sound (code : ι → κ → σ → Prog Res σ) (a : State ι κ σ Res) : Prop where
  agents : ∀ i, AgentAt code a.trace i (a.agents i)
  answers : ∀ k n o (r : Res o), a.trace[k]? = some (Event.answer n o r) →
    Reached code a.trace k n o
  issues : ∀ k n o, a.trace[k]? = some (Event.issue n o) → Issued code a.trace k n o

section

variable {code : ι → κ → σ → Prog Res σ} {t : List (Event ι κ σ Res)} {e : Event ι κ σ Res}

theorem getElem?_append_of {α : Type} {t t' : List α} {k : Nat} {x : α} (h : t[k]? = some x) :
    (t ++ t')[k]? = some x := by
  rw [List.getElem?_append_left (lt_length_of_getElem? h)]
  exact h

/-- An agent stays where it is when another one makes a step. -/
theorem At.extend {i : ι} {n : Nat} {p : Prog Res σ} {pending : Op → Prop}
    (h : At code t i n p pending) (hhistory : history n (t ++ [e]) = history n t)
    (hissue : ∀ o, e ≠ .issue n o) : At code (t ++ [e]) i n p pending := by
  obtain ⟨⟨c, s, hstart, hpath⟩, hanswered⟩ := h
  refine ⟨⟨c, s, getElem?_append_of hstart, hhistory ▸ hpath⟩, ?_⟩
  intro j o hj
  rw [hhistory]
  obtain hj | ⟨-, heq⟩ := getElem?_concat.mp hj
  · exact hanswered j o hj
  · exact (hissue o heq.symm).elim

/-- A session belongs to the agent that has started it. -/
theorem At.agent_unique {i j : ι} {n : Nat} {p q : Prog Res σ} {pending pending' : Op → Prop}
    (h : At code t i n p pending) (h' : At code t j n q pending') : i = j := by
  obtain ⟨⟨c, s, hstart, -⟩, -⟩ := h
  obtain ⟨⟨c', s', hstart', -⟩, -⟩ := h'
  cases hstart.symm.trans hstart'
  rfl

/-- Only the session of an event is changed by it. -/
def Event.session? : Event ι κ σ Res → Option Nat
  | .start _ _ _ => none
  | .issue n _ => some n
  | .answer n _ _ => some n

theorem AgentAt.extend {i : ι} {x : Agent σ Res} (h : AgentAt code t i x)
    (hother : ∀ n p pending, At code t i n p pending → e.session? ≠ some n) :
    AgentAt code (t ++ [e]) i x := by
  have hat : ∀ n p pending, At code t i n p pending → At code (t ++ [e]) i n p pending := by
    intro n p pending hn
    have hne := hother n p pending hn
    refine hn.extend ?_ ?_
    · cases e with
      | start i c s => exact history_start n t i c s
      | issue m o => exact history_issue n m t o
      | answer m o r => exact history_answer_of_ne (fun hm => hne (congrArg some hm)) t o r
    · rintro o rfl
      exact hne rfl
  cases x with
  | idle s => trivial
  | ready n p => exact hat _ _ _ h
  | waiting n o k => exact hat _ _ _ h

theorem take_concat {α : Type} {t : List α} {e : α} {k : Nat} (hk : k < t.length) :
    (t ++ [e]).take k = t.take k :=
  List.take_append_of_le_length (Nat.le_of_lt hk)

/-- What was reached stays so in a longer trace. -/
theorem Reached.extend {k n : Nat} {o : Op} (h : Reached code t k n o) (hk : k < t.length) :
    Reached code (t ++ [e]) k n o := by
  obtain ⟨hbefore, i, c, s, K, hstart, hpath⟩ := h
  have htake : (t ++ [e]).take k = t.take k := take_concat hk
  exact ⟨hbefore, i, c, s, K, getElem?_append_of hstart, htake ▸ hpath⟩

/-- So does what was issued. -/
theorem Issued.extend {k n : Nat} {o : Op} (h : Issued code t k n o) (hk : k < t.length) :
    Issued code (t ++ [e]) k n o := by
  obtain ⟨hreached, hanswered⟩ := h
  have htake : (t ++ [e]).take k = t.take k := take_concat hk
  refine ⟨hreached.extend hk, ?_⟩
  intro j o' hj hissue
  rw [htake]
  obtain hissue | ⟨hlen, -⟩ := getElem?_concat.mp hissue
  · exact hanswered j o' hj hissue
  · exact absurd hlen (Nat.ne_of_lt (Nat.lt_trans hj hk))

end

section

variable {code : ι → κ → σ → Prog Res σ}

theorem Sound.init (s : ι → σ) : Sound code ⟨fun i => .idle (s i), []⟩ where
  agents _ := trivial
  answers _ _ _ _ h := by cases h
  issues _ _ _ h := by cases h

/-- A new session has no history. -/
theorem Sound.history_fresh {g : ι → Agent σ Res} {t : List (Event ι κ σ Res)}
    (h : Sound code ⟨g, t⟩) : history t.length t = [] := by
  apply List.eq_nil_iff_forall_not_mem.mpr
  rintro ⟨o, r⟩ ha
  obtain ⟨k, hk⟩ := mem_history.mp ha
  exact absurd (h.answers k _ o r hk).before (Nat.not_lt_of_gt (lt_length_of_getElem? hk))

theorem Sound.ready {g : ι → Agent σ Res} {t : List (Event ι κ σ Res)} (h : Sound code ⟨g, t⟩)
    {i : ι} {n : Nat} {p : Prog Res σ} (hi : g i = .ready n p) : At code t i n p fun _ => False := by
  have hagent : AgentAt code t i (g i) := h.agents i
  rwa [hi] at hagent

theorem Sound.waiting {g : ι → Agent σ Res} {t : List (Event ι κ σ Res)} (h : Sound code ⟨g, t⟩)
    {i : ι} {n : Nat} {o : Op} {k : Res o → Prog Res σ} (hi : g i = .waiting n o k) :
    At code t i n (.call o k) fun o' => o' = o := by
  have hagent : AgentAt code t i (g i) := h.agents i
  rwa [hi] at hagent

variable [DecidableEq ι]

/-- The agent that makes a step goes on from what `hself` says, the others stay. -/
theorem Sound.update {g : ι → Agent σ Res} {t : List (Event ι κ σ Res)} (h : Sound code ⟨g, t⟩)
    {i : ι} {x : Agent σ Res} {e : Event ι κ σ Res} (hself : AgentAt code (t ++ [e]) i x)
    (hother : ∀ j, j ≠ i → ∀ n p pending, At code t j n p pending → e.session? ≠ some n) (j : ι) :
    AgentAt code (t ++ [e]) j (Function.update g i x j) := by
  by_cases hj : j = i
  · subst hj
    rwa [Function.update_self]
  · rw [Function.update_of_ne hj]
    exact (h.agents j).extend (hother j hj)

/-- The agent that makes a step without an event. -/
theorem Sound.idle {g : ι → Agent σ Res} {t : List (Event ι κ σ Res)} (h : Sound code ⟨g, t⟩)
    (i : ι) (s : σ) : Sound code ⟨Function.update g i (.idle s), t⟩ where
  agents j := by
    show AgentAt code t j (Function.update g i (.idle s) j)
    by_cases hj : j = i
    · subst hj
      rw [Function.update_self]
      trivial
    · rw [Function.update_of_ne hj]
      exact h.agents j
  answers := h.answers
  issues := h.issues

/-- A new session. -/
theorem Sound.start {g : ι → Agent σ Res} {t : List (Event ι κ σ Res)} (h : Sound code ⟨g, t⟩)
    (i : ι) (c : κ) (s : σ) :
    Sound code ⟨Function.update g i (.ready t.length (code i c s)), t ++ [.start i c s]⟩ := by
  have hfresh : ∀ o, ∀ k : Nat, t[k]? ≠ some (Event.issue t.length o) := by
    intro o k hk
    exact absurd (h.issues k _ o hk).before (Nat.not_lt_of_gt (lt_length_of_getElem? hk))
  refine ⟨h.update ?_ ?_, ?_, ?_⟩
  · refine ⟨⟨c, s, by simp, ?_⟩, ?_⟩
    · rw [history_start, h.history_fresh]
      exact .refl _
    · intro j o hj
      obtain hj | ⟨-, heq⟩ := getElem?_concat.mp hj
      · exact (hfresh o j hj).elim
      · cases heq
  · intro j hj n p pending _ heq
    cases heq
  · intro k n o r hk
    obtain hk | ⟨-, heq⟩ := getElem?_concat.mp hk
    · exact (h.answers k n o r hk).extend (lt_length_of_getElem? hk)
    · cases heq
  · intro k n o hk
    obtain hk | ⟨-, heq⟩ := getElem?_concat.mp hk
    · exact (h.issues k n o hk).extend (lt_length_of_getElem? hk)
    · cases heq

/-- An operation goes out. -/
theorem Sound.issue {g : ι → Agent σ Res} {t : List (Event ι κ σ Res)} (h : Sound code ⟨g, t⟩)
    {i : ι} {n : Nat} {o : Op} {k : Res o → Prog Res σ} (hi : g i = .ready n (.call o k)) :
    Sound code ⟨Function.update g i (.waiting n o k), t ++ [.issue n o]⟩ := by
  obtain ⟨⟨c, s, hstart, hpath⟩, hanswered⟩ := h.ready hi
  refine ⟨h.update ?_ ?_, ?_, ?_⟩
  · refine ⟨⟨c, s, getElem?_append_of hstart, by rwa [history_issue]⟩, ?_⟩
    intro j o' hj
    rw [history_issue]
    obtain hj | ⟨-, heq⟩ := getElem?_concat.mp hj
    · exact .inr ((hanswered j o' hj).resolve_left id)
    · cases heq
      exact .inl rfl
  · rintro j hj m p pending hm heq
    obtain rfl : n = m := Option.some.inj heq
    exact hj (hm.agent_unique (p := p) (q := .call o k) ⟨⟨c, s, hstart, hpath⟩, hanswered⟩)
  · intro k' m o' r hk
    obtain hk | ⟨-, heq⟩ := getElem?_concat.mp hk
    · exact (h.answers k' m o' r hk).extend (lt_length_of_getElem? hk)
    · cases heq
  · intro k' m o' hk
    obtain hk | ⟨rfl, heq⟩ := getElem?_concat.mp hk
    · exact (h.issues k' m o' hk).extend (lt_length_of_getElem? hk)
    · cases heq
      have htake : (t ++ [Event.issue n o]).take t.length = t := by
        rw [List.take_left]
      refine ⟨⟨lt_length_of_getElem? hstart, i, c, s, k, getElem?_append_of hstart, ?_⟩, ?_⟩
      · rwa [htake]
      · intro j o'' hj hissue
        rw [htake]
        obtain hissue | ⟨hlen, -⟩ := getElem?_concat.mp hissue
        · exact (hanswered j o'' hissue).resolve_left id
        · exact absurd hlen (Nat.ne_of_lt hj)

/-- An operation is answered. -/
theorem Sound.answer {g : ι → Agent σ Res} {t : List (Event ι κ σ Res)} (h : Sound code ⟨g, t⟩)
    {i : ι} {n : Nat} {o : Op} {k : Res o → Prog Res σ} (hi : g i = .waiting n o k) (r : Res o) :
    Sound code ⟨Function.update g i (.ready n (k r)), t ++ [.answer n o r]⟩ := by
  obtain ⟨⟨c, s, hstart, hpath⟩, hanswered⟩ := h.waiting hi
  refine ⟨h.update ?_ ?_, ?_, ?_⟩
  · refine ⟨⟨c, s, getElem?_append_of hstart, ?_⟩, ?_⟩
    · rw [history_answer_self]
      exact hpath.snoc r
    · intro j o' hj
      obtain hj | ⟨-, heq⟩ := getElem?_concat.mp hj
      · right
        rw [history_answer_self]
        obtain rfl | ⟨r', hr'⟩ := hanswered j o' hj
        · exact ⟨r, by simp⟩
        · exact ⟨r', List.mem_append_left _ hr'⟩
      · cases heq
  · rintro j hj m p pending hm heq
    obtain rfl : n = m := Option.some.inj heq
    exact hj (hm.agent_unique (p := p) (q := .call o k) ⟨⟨c, s, hstart, hpath⟩, hanswered⟩)
  · intro k' m o' r' hk
    obtain hk | ⟨rfl, heq⟩ := getElem?_concat.mp hk
    · exact (h.answers k' m o' r' hk).extend (lt_length_of_getElem? hk)
    · cases heq
      refine ⟨lt_length_of_getElem? hstart, i, c, s, k, getElem?_append_of hstart, ?_⟩
      rwa [List.take_left]
  · intro k' m o' hk
    obtain hk | ⟨-, heq⟩ := getElem?_concat.mp hk
    · exact (h.issues k' m o' hk).extend (lt_length_of_getElem? hk)
    · cases heq

theorem Sound.step {a b : State ι κ σ Res} (h : Sound code a) (hstep : Step code a b) :
    Sound code b := by
  cases hstep with
  | start i c s hi => exact h.start i c s
  | issue i n o k hi => exact h.issue hi
  | answer i n o k r hi => exact h.answer hi r
  | finish i n s hi => exact h.idle i s
  | reset i s => exact h.idle i s

theorem Run.sound {a : State ι κ σ Res} (run : Run code a) : Sound code a := by
  induction run with
  | init s => exact Sound.init s
  | step _ h ih => exact ih.step h

/-- What is issued in a run is allowed by the history of its session. -/
theorem Run.allowed {a : State ι κ σ Res} (run : Run code a)
    {I : ι → κ → σ → List (Prog.Act Res) → Op → Prop} {R : List (Prog.Act Res) → σ → Prop}
    (hcode : ∀ i c s, (code i c s).Follows (I i c s) R []) {k n : Nat} {o : Op}
    (hissue : a.trace[k]? = some (Event.issue n o)) :
    ∃ i c s, a.trace[n]? = some (Event.start i c s) ∧
      I i c s (history n (a.trace.take k)) o := by
  obtain ⟨i, c, s, K, hstart, hpath⟩ := (run.sound.issues k n o hissue).path
  exact ⟨i, c, s, hstart, (hcode i c s).allowed hpath⟩

/-- So is what is answered, in the sessions of which that much is known. -/
theorem Run.answer_allowed {a : State ι κ σ Res} (run : Run code a) {i : ι} {c : κ} {s : σ}
    {I : List (Prog.Act Res) → Op → Prop} {R : List (Prog.Act Res) → σ → Prop}
    (hcode : (code i c s).Follows I R []) {k n : Nat} {o : Op} {r : Res o}
    (hstart : a.trace[n]? = some (Event.start i c s))
    (hanswer : a.trace[k]? = some (Event.answer n o r)) : I (history n (a.trace.take k)) o := by
  obtain ⟨i', c', s', K, hstart', hpath⟩ := (run.sound.answers k n o r hanswer).path
  cases hstart.symm.trans hstart'
  exact hcode.allowed hpath

/-- An operation that a session cannot perform twice is answered once at most. -/
theorem Run.answered_once {a : State ι κ σ Res} (run : Run code a) {i : ι} {c : κ} {s : σ}
    {P : Op → Prop} {R : List (Prog.Act Res) → σ → Prop}
    (hcode : (code i c s).Follows (fun l o => P o → ∀ x ∈ l, ¬ P x.1) R []) {k k' n : Nat}
    {o o' : Op} {r : Res o} {r' : Res o'} (hstart : a.trace[n]? = some (Event.start i c s))
    (hk : a.trace[k]? = some (Event.answer n o r)) (ho : P o)
    (hk' : a.trace[k']? = some (Event.answer n o' r')) (ho' : P o') : k = k' := by
  have hlast : ∀ {k k' : Nat} {o o' : Op} {r : Res o} {r' : Res o'},
      a.trace[k]? = some (Event.answer n o r) → P o →
      a.trace[k']? = some (Event.answer n o' r') → P o' → ¬ k < k' := by
    intro k k' o o' r r' hk ho hk' ho' hlt
    have hmem : (⟨o, r⟩ : Prog.Act Res) ∈ history n (a.trace.take k') := by
      apply mem_history.mpr
      refine ⟨k, ?_⟩
      rwa [List.getElem?_take_of_lt hlt]
    exact run.answer_allowed hcode hstart hk' ho' _ hmem ho
  obtain hlt | heq | hlt := Nat.lt_trichotomy k k'
  · exact (hlast hk ho hk' ho' hlt).elim
  · exact heq
  · exact (hlast hk' ho' hk ho hlt).elim

/-! ## Performing operations -/

omit [DecidableEq ι] in
theorem start_not_mem_performed {n : Nat} {l : List (Prog.Act Res)} {i : ι} {c : κ} {s : σ} :
    (Event.start i c s : Event ι κ σ Res) ∉ performed n l := by
  simp [performed]

omit [DecidableEq ι] in
theorem mem_performed {n : Nat} {l : List (Prog.Act Res)} {e : Event ι κ σ Res} :
    e ∈ performed n l ↔ ∃ a ∈ l, e = .issue n a.1 ∨ e = .answer n a.1 a.2 := by
  simp [performed]

/-- An agent can perform a part of its program. -/
theorem Run.perform {g : ι → Agent σ Res} {t : List (Event ι κ σ Res)} (run : Run code ⟨g, t⟩)
    {i : ι} {n : Nat} {p q : Prog Res σ} {l : List (Prog.Act Res)} (hi : g i = .ready n p)
    (h : Prog.Path p l q) :
    Run code ⟨Function.update g i (.ready n q), t ++ performed n l⟩ := by
  induction h generalizing g t with
  | refl p =>
    have hg : Function.update g i (.ready n p) = g := by
      rw [← hi, Function.update_eq_self]
    rw [hg]
    simpa [performed] using run
  | @step o k l q r _ ih =>
    have hissue := run.step (.issue i n o k hi)
    have hanswer := hissue.step (.answer i n o k r (Function.update_self _ _ _))
    have hrest := ih hanswer (Function.update_self _ _ _)
    rw [Function.update_idem, Function.update_idem] at hrest
    simpa [performed] using hrest

end

end Sessions
