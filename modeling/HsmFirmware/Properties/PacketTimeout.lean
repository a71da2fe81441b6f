-- SUMMARY: When read_packet_timeout returns, and when it keeps the timeout of its contract, for every schedule of bytes on UART1.
import HsmFirmware.Firmware.SimpleUart
import HsmFirmware.Specs.Input

/-!
# The timeout of a packet

The wait for the magic byte starts anew with every byte that is not one. So it ends if a magic
byte comes, or a silence as long as the timeout, and a peer that sends other bytes holds the
device. Behind the magic byte all waits are bounded.
-/

open Link Polling

/-! ## Behind the magic byte -/

/-- The polls for a byte of a frame on UART1. -/
def frameLoops : Nat := 8000000

theorem uartTimeoutLoops_frame : uartTimeoutLoops (uartFrameTimeoutMs .transfer) = some frameLoops := by
  decide

section

variable {α β : Type} {polls : UartPolls} {uart : Uart} {timeoutMs : UInt32} {fuel : Nat}

theorem onPolls_bind (p : Link α) (f : α → Link β) (n : Nat) :
    onPolls polls uart timeoutMs fuel (p >>= f) n =
      (onPolls polls uart timeoutMs fuel p n).bind fun r =>
        onPolls polls uart timeoutMs fuel (f r.1) r.2 := by
  induction p generalizing n with
  | ret a => rfl
  | call o k ih =>
    cases o with
    | device o => exact ih _ _
    | writebyte b => exact ih _ _
    | readbyte =>
      simp only [Prog.call_bind, onPolls, Option.bind_assoc]
      exact congrArg (Option.bind _) (funext fun r => ih r.1 r.2)
    | readMagic =>
      simp only [Prog.call_bind, onPolls, Option.bind_assoc]
      exact congrArg (Option.bind _) (funext fun r => ih r.1 r.2)

/-- A byte of a frame on UART1. -/
theorem onPolls_readbyte (f : Option UInt8 → Link α) (n : Nat) :
    onPolls polls .transfer timeoutMs fuel (readbyte >>= f) n =
      onPolls polls .transfer timeoutMs fuel (f (poll polls frameLoops n).1)
        (poll polls frameLoops n).2 := by
  show Option.bind (await polls (uartTimeoutLoops (uartFrameTimeoutMs .transfer)) fuel n) _ = _
  rw [uartTimeoutLoops_frame]
  rfl

theorem onPolls_writeAck (f : MsgStatus → Link α) (n : Nat) :
    onPolls polls .transfer timeoutMs fuel (writeAck >>= f) n =
      onPolls polls .transfer timeoutMs fuel (f .ok) n := by
  rw [onPolls_bind]
  rfl

/-- The bytes of a block come, or the block times out. -/
theorem readBlock_onPolls (k : Nat) (p : Bytes) (n : Nat) :
    (∃ bs next, collect polls frameLoops k n = some (bs, next) ∧
        onPolls polls .transfer timeoutMs fuel (readBlock k p) n = some ((true, p ++ bs), next)) ∨
      collect polls frameLoops k n = none ∧ ∃ q next,
        onPolls polls .transfer timeoutMs fuel (readBlock k p) n = some ((false, q), next) := by
  induction k generalizing p n with
  | zero => exact .inl ⟨[], n, rfl, by rw [List.append_nil]; rfl⟩
  | succ k ih =>
    unfold readBlock
    rw [onPolls_readbyte, collect_succ]
    rcases poll polls frameLoops n with ⟨_ | b, next⟩
    · exact .inr ⟨rfl, p, next, rfl⟩
    · dsimp only
      obtain ⟨bs, last, hcollect, hread⟩ | ⟨hcollect, q, last, hread⟩ := ih (p ++ [b]) next
      · rw [hcollect, hread, List.append_assoc, List.singleton_append]
        exact .inl ⟨b :: bs, last, rfl, rfl⟩
      · rw [hcollect, hread]
        exact .inr ⟨rfl, q, last, rfl⟩

/-- The body comes, or times out. -/
theorem readBody_onPolls (len : UInt16) (p : Bytes) (n : Nat) :
    (∃ bs next, collect polls frameLoops len.toNat n = some (bs, next) ∧
        onPolls polls .transfer timeoutMs fuel (readBody len p) n = some ((.ok, p ++ bs), next)) ∨
      collect polls frameLoops len.toNat n = none ∧ ∃ q next,
        onPolls polls .transfer timeoutMs fuel (readBody len p) n = some ((.timeout, q), next) := by
  induction hk : len.toNat using Nat.strong_induction_on generalizing len p n with
  | _ k ih =>
    subst hk
    rw [readBody]
    split
    · rename_i hzero
      subst hzero
      exact .inl ⟨[], n, rfl, by rw [List.append_nil]; rfl⟩
    · rename_i hne
      have hpos := toNat_pos hne
      have hblock := toNat_readBlockLen len
      have hrest := toNat_next_remaining len
      have hsum : len.toNat = (readBlockLen len).toNat + (len - readBlockLen len).toNat := by omega
      rw [hsum, collect_add, onPolls_bind]
      obtain ⟨bs, next, hcollect, hread⟩ | ⟨hcollect, q, next, hread⟩ :=
        @readBlock_onPolls polls timeoutMs fuel (readBlockLen len).toNat p n
      · rw [hcollect, hread]
        simp only [Option.bind_some, Bool.not_true, Bool.false_eq_true, if_false]
        rw [onPolls_writeAck]
        obtain ⟨bs', last, hcollect', hread'⟩ | ⟨hcollect', q, last, hread'⟩ :=
          ih (len - readBlockLen len).toNat (by omega) (len - readBlockLen len) (p ++ bs) next rfl
        · rw [hcollect', hread', List.append_assoc]
          exact .inl ⟨bs ++ bs', last, rfl, rfl⟩
        · rw [hcollect', hread']
          exact .inr ⟨rfl, q, last, rfl⟩
      · rw [hcollect, hread]
        exact .inr ⟨rfl, q, next, rfl⟩

/-- The header or the body of the frame at a poll is cut off by a silence on UART1, and the body is
    not too long for the buffer. -/
def FrameCut (polls : UartPolls) (capacity : UInt16) (n : Nat) : Prop :=
  collect polls frameLoops 3 n = none ∨
    ∃ cmd lo hi next, collect polls frameLoops 3 n = some ([cmd, lo, hi], next) ∧
      ¬ (capacity ≠ 0 ∧ capacity < Codec.u16.decode [lo, hi]) ∧
      collect polls frameLoops (Codec.u16.decode [lo, hi]).toNat next = none

theorem frameCut_complete {capacity : UInt16} {n next : Nat} {cmd lo hi : UInt8}
    (h : collect polls frameLoops 3 n = some ([cmd, lo, hi], next)) :
    FrameCut polls capacity n ↔ ¬ (capacity ≠ 0 ∧ capacity < Codec.u16.decode [lo, hi]) ∧
      collect polls frameLoops (Codec.u16.decode [lo, hi]).toNat next = none := by
  unfold FrameCut
  rw [h]
  constructor
  · rintro (hnone | ⟨cmd', lo', hi', next', heq, hfits, hbody⟩)
    · cases hnone
    · cases heq
      exact ⟨hfits, hbody⟩
  · rintro ⟨hfits, hbody⟩
    exact .inr ⟨cmd, lo, hi, next, rfl, hfits, hbody⟩

/-- The bytes of a header. -/
theorem collect_three (n : Nat) {cmd lo hi : Option UInt8} {n₁ n₂ n₃ : Nat}
    (h₁ : poll polls frameLoops n = (cmd, n₁)) (h₂ : poll polls frameLoops n₁ = (lo, n₂))
    (h₃ : poll polls frameLoops n₂ = (hi, n₃)) :
    collect polls frameLoops 3 n =
      cmd.bind fun cmd => lo.bind fun lo => hi.map fun hi => ([cmd, lo, hi], n₃) := by
  show collect polls frameLoops (2 + 1) n = _
  rw [collect_succ, h₁]
  cases cmd with
  | none => rfl
  | some cmd =>
    show Option.map _ (collect polls frameLoops (1 + 1) n₁) = _
    rw [collect_succ, h₂]
    cases lo with
    | none => rfl
    | some lo =>
      show Option.map _ (Option.map _ (collect polls frameLoops (0 + 1) n₂)) = _
      rw [collect_succ, h₃]
      cases hi <;> rfl

/-- Behind the magic byte, every read ends, and it times out if the frame is cut off. -/
theorem readHeader_onPolls (capacity : UInt16) (n : Nat) :
    ∃ frame next,
      onPolls polls .transfer timeoutMs fuel (readHeader capacity) n = some (frame, next) ∧
        (frame.status = .timeout ↔ FrameCut polls capacity n) := by
  unfold readHeader
  rcases h₁ : poll polls frameLoops n with ⟨cmd, n₁⟩
  rcases h₂ : poll polls frameLoops n₁ with ⟨lo, n₂⟩
  rcases h₃ : poll polls frameLoops n₂ with ⟨hi, n₃⟩
  have hheader := collect_three n h₁ h₂ h₃
  rw [onPolls_readbyte, h₁]
  cases cmd with
  | none => exact ⟨_, _, rfl, iff_of_true rfl (.inl hheader)⟩
  | some cmd =>
    dsimp only
    rw [onPolls_readbyte, h₂, onPolls_readbyte, h₃]
    cases lo with
    | none => exact ⟨_, _, rfl, iff_of_true rfl (.inl hheader)⟩
    | some lo =>
      cases hi with
      | none => exact ⟨_, _, rfl, iff_of_true rfl (.inl hheader)⟩
      | some hi =>
        dsimp only [Option.bind_some, Option.map_some] at hheader ⊢
        rw [onPolls_writeAck, frameCut_complete hheader]
        by_cases hfits : capacity ≠ 0 ∧ capacity < Codec.u16.decode [lo, hi]
        · rw [if_pos hfits]
          exact ⟨_, _, rfl, iff_of_false (fun h => nomatch h) fun h => h.1 hfits⟩
        · rw [if_neg hfits, onPolls_bind, and_iff_right hfits]
          obtain ⟨bs, next, hbody, hread⟩ | ⟨hbody, q, next, hread⟩ :=
            @readBody_onPolls polls timeoutMs fuel (Codec.u16.decode [lo, hi]) [] n₃
          · rw [hread, hbody]
            exact ⟨_, _, rfl, iff_of_false (fun h => nomatch h) fun h => nomatch h⟩
          · rw [hread, hbody]
            exact ⟨_, _, rfl, iff_of_true rfl rfl⟩

end

/-! ## The contract -/

section

variable (polls : UartPolls) (capacity : UInt16) (timeoutMs : UInt32)

/-- A poll is within the timeout. -/
def InTime (m : Nat) : Prop :=
  timeoutMs ≠ uartRxTimeoutMs → m < timeoutMs.toNat * uartTimeoutLoopsPerMs.toNat

/-- A poll gives the magic byte. -/
def MagicAt (m : Nat) : Prop := polls m = some msgMagic

/-- `read_packet_timeout` returns, and with `MSG_TIMEOUT` if no magic byte comes in time. -/
def EndsInTime : Prop :=
  (∃ fuel frame, polledReadPacketTimeout polls .transfer capacity timeoutMs fuel = some frame) ∧
    ((∀ m, InTime timeoutMs m → ¬ MagicAt polls m) →
      ∀ fuel frame, polledReadPacketTimeout polls .transfer capacity timeoutMs fuel = some frame →
        frame.status = .timeout)

/-- The first magic byte is at this poll, and the wait for it is not given up before. -/
def FirstMagicAt (m : Nat) : Prop :=
  FirstWanted polls (· = msgMagic) (uartTimeoutLoops timeoutMs) 0 m

/-- A silence of a whole timeout. -/
def SilenceAt (m : Nat) : Prop := Quiet polls (uartTimeoutLoops timeoutMs) m

variable {polls capacity timeoutMs}

theorem wanted_iff {m : Nat} : Wanted polls (· = msgMagic) m ↔ MagicAt polls m := by
  unfold Wanted MagicAt
  constructor
  · rintro ⟨b, hb, hmagic⟩
    rw [hb, of_decide_eq_true hmagic]
  · intro h
    exact ⟨msgMagic, h, rfl⟩

theorem polledReadPacketTimeout_eq (fuel : Nat) :
    polledReadPacketTimeout polls .transfer capacity timeoutMs fuel =
      (seek polls (· = msgMagic) (uartTimeoutLoops timeoutMs) fuel 0).bind fun r =>
        if r.1 then
          (onPolls polls .transfer timeoutMs fuel (readHeader capacity) r.2).map fun r => r.1
        else some ⟨.timeout, 0, []⟩ := by
  refine Option.map_bind.trans (congrArg (Option.bind _) ?_)
  funext ⟨found, next⟩
  cases found <;> rfl

/-- A call that returns has found its magic byte, or given up in silence. -/
theorem readPacketTimeout_returned {fuel : Nat} {frame : HostFrame}
    (h : polledReadPacketTimeout polls .transfer capacity timeoutMs fuel = some frame) :
    (∃ m, FirstMagicAt polls timeoutMs m ∧
        (frame.status = .timeout ↔ FrameCut polls capacity (m + 1))) ∨
      (∃ g, LostAt polls (· = msgMagic) (uartTimeoutLoops timeoutMs) 0 g) ∧
        frame.status = .timeout := by
  rw [polledReadPacketTimeout_eq, Option.bind_eq_some_iff] at h
  obtain ⟨⟨found, next⟩, hseek, h⟩ := h
  obtain ⟨rfl, m, rfl, hfirst⟩ | ⟨rfl, g, hlost⟩ := seek_cases hseek
  · obtain ⟨frame', last, hread, hcut⟩ :=
      @readHeader_onPolls polls timeoutMs fuel capacity (m + 1)
    rw [if_pos rfl, hread] at h
    cases h
    exact .inl ⟨m, hfirst, hcut⟩
  · cases h
    exact .inr ⟨⟨g, hlost⟩, rfl⟩

/-- A call returns if a magic byte or a silence comes. -/
theorem readPacketTimeout_returns {m : Nat} (h : MagicAt polls m ∨ SilenceAt polls timeoutMs m) :
    ∃ fuel frame, polledReadPacketTimeout polls .transfer capacity timeoutMs fuel = some frame := by
  obtain ⟨⟨found, next⟩, hseek⟩ :=
    @seek_ends _ polls (· = msgMagic) (uartTimeoutLoops timeoutMs) (m + 1) 0 m (Nat.zero_le m)
      (Nat.zero_add _).ge (h.imp_left wanted_iff.mpr)
  refine ⟨m + 1, ?_⟩
  rw [polledReadPacketTimeout_eq, hseek]
  cases found with
  | false => exact ⟨_, rfl⟩
  | true =>
    obtain ⟨frame, last, hread, -⟩ :=
      @readHeader_onPolls polls timeoutMs (m + 1) capacity next
    refine ⟨frame, ?_⟩
    rw [Option.bind_some, if_pos rfl, hread]
    rfl

variable (polls capacity timeoutMs)

/-- The contract is kept exactly if a magic byte or a silence comes, and a frame that starts
    without a silence before it, but too late, is itself cut off. -/
theorem readPacketTimeout_ends_iff :
    EndsInTime polls capacity timeoutMs ↔
      (∃ m, MagicAt polls m ∨ SilenceAt polls timeoutMs m) ∧
        ∀ m, FirstMagicAt polls timeoutMs m → ¬ InTime timeoutMs m →
          FrameCut polls capacity (m + 1) := by
  constructor
  · rintro ⟨⟨fuel, frame, h⟩, hcontract⟩
    constructor
    · obtain ⟨m, hfirst, -⟩ | ⟨⟨g, hlost⟩, -⟩ := readPacketTimeout_returned h
      · exact ⟨m, .inl (wanted_iff.mp hfirst.gives)⟩
      · exact ⟨g, .inr hlost.quiet⟩
    · intro m hfirst hlate
      have hnone : ∀ i, InTime timeoutMs i → ¬ MagicAt polls i := by
        intro i hi hmagic
        by_cases him : i < m
        · exact hfirst.first i (Nat.zero_le i) him (wanted_iff.mpr hmagic)
        · exact hlate fun hne => (Nat.le_of_not_lt him).trans_lt (hi hne)
      have hstatus := hcontract hnone fuel frame h
      obtain ⟨m', hfirst', hcut⟩ | ⟨⟨g, hlost⟩, -⟩ := readPacketTimeout_returned h
      · rw [hfirst.unique hfirst']
        exact hcut.mp hstatus
      · exact (hfirst.not_lost hlost).elim
  · rintro ⟨⟨m, hm⟩, hlate⟩
    refine ⟨readPacketTimeout_returns hm, ?_⟩
    intro hnone fuel frame h
    obtain ⟨m', hfirst, hcut⟩ | ⟨-, hstatus⟩ := readPacketTimeout_returned h
    · have hmagic := wanted_iff.mp hfirst.gives
      exact hcut.mpr (hlate m' hfirst fun hin => hnone m' hin hmagic)
    · exact hstatus

end

/-- A peer that sends one wrong byte after the other holds the device. -/
theorem readPacketTimeout_hangs : ¬ EndsInTime (fun _ => some 0) 0 2000 := by
  rintro ⟨⟨fuel, frame, h⟩, -⟩
  obtain ⟨m, hfirst, -⟩ | ⟨⟨g, hlost⟩, -⟩ := readPacketTimeout_returned h
  · have hmagic : some (0 : UInt8) = some msgMagic := wanted_iff.mp hfirst.gives
    exact absurd hmagic (by decide)
  · obtain ⟨b, hb, hgap⟩ := hlost.quiet
    have hloops : uartTimeoutLoops 2000 = some 8000000 := by decide
    obtain rfl := Option.some.inj (hloops.symm.trans hb)
    cases hgap 0 (by decide)
