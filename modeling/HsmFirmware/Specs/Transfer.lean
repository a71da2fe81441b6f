-- SUMMARY: Packets on UART1: received packets, nonces, a packet sent and answered, and the packets a program can send.
import HsmFirmware.Specs.Gate
import HsmFirmware.Specs.Store

/-!
# Transfers

The steps the handlers of UART1 have in common: they draw a nonce, send a packet and
wait for the answer, or give up with an error message.
-/

/-! ## Packets received -/

/-- A packet that fits is received as it is. -/
theorem Received.fit_eq_packet {capacity : Nat} {r : Received} {cmd : MsgType} {payload : Bytes} :
    r.fit capacity = .packet cmd payload ↔
      r = .packet cmd payload ∧ (capacity = 0 ∨ payload.length ≤ capacity) := by
  cases r with
  | failed st => simp [fit]
  | packet cmd' payload' =>
    simp only [fit]
    by_cases h : capacity ≠ 0 ∧ capacity < payload'.length
    · rw [if_pos h]
      simp only [reduceCtorEq, packet.injEq, false_iff, not_and, not_or]
      rintro ⟨rfl, rfl⟩
      exact ⟨h.1, Nat.not_le.mpr h.2⟩
    · rw [if_neg h]
      simp only [packet.injEq, iff_self_and]
      rintro ⟨rfl, rfl⟩
      by_contra hc
      exact h ⟨fun h0 => hc (.inl h0), Nat.lt_of_not_le fun hle => hc (.inr hle)⟩

/-- A payload of the right size is the encoding of one value. -/
theorem Received.fit_eq_encode {α : Type} (c : Codec α) {r : Received} {cmd : MsgType} {a : α} :
    r.fit c.size = .packet cmd (c.encode a) ↔ r = .packet cmd (c.encode a) := by
  rw [fit_eq_packet]
  simp

/-- The world after a `read_packet_timeout`. -/
def World.received (w : World) : World := { w with recvs := w.recvs + 1 }

@[simp] theorem World.flash_received (w : World) : w.received.flash = w.flash := rfl

/-! ## Packets sent -/

@[simp] theorem World.sent_answered (w : World) (p : Packet) :
    (w.answered p).sent = w.sent ++ [p] := rfl

@[simp] theorem World.sent_after (w : World) (L : List Op) : (w.after L).sent = w.sent := rfl

/-! ## Steps -/

/-- A nonce of the handshake, from the bytes of a draw. -/
def drawnNonce (f : Nat → UInt8) : UInt32 := Codec.u32.decode ((List.range 4).map f)

theorem exec_generateNonce {w : World} {draw : Nat → UInt8} (hdraw : w.rng w.draws = some draw)
    (n : Nat) (fs : Schedule) (ram : Ram) :
    (securityGenerateNonce (n + 1)).exec fs ram w =
      .done (some ((List.range (n + 1)).map draw), ram) w.drawn [] fs := by
  rw [securityGenerateNonce, if_neg (Nat.succ_ne_zero n), Dev.exec_nonce, hdraw]
  rfl

theorem exec_generateNonce_none {w : World} (hdraw : w.rng w.draws = none) (n : Nat)
    (fs : Schedule) (ram : Ram) :
    (securityGenerateNonce (n + 1)).exec fs ram w = .done (none, ram) w.drawn [] fs := by
  rw [securityGenerateNonce, if_neg (Nat.succ_ne_zero n), Dev.exec_nonce, hdraw]
  rfl

/-- Sending a packet, then waiting for the answer. -/
theorem exec_ask (cmd : MsgType) (payload : Bytes) (capacity : Nat) (e : Dev Int)
    (k : Received → Dev Int) (fs : Schedule) (ram : Ram) (t : World) :
    (Dev.send .transfer cmd payload >>= fun rc =>
      if rc ≠ .ok then e else Dev.recv .transfer capacity >>= k).exec fs ram t =
      if t.acks.headD .ok = .ok then
        (k ((t.answered ⟨.transfer, cmd, payload⟩).incoming capacity)).exec fs ram
          (t.answered ⟨.transfer, cmd, payload⟩).received
      else e.exec fs ram (t.answered ⟨.transfer, cmd, payload⟩) := by
  rw [Dev.exec_bind, exec_send_answered, Halt.andThen_done, Halt.logged_nil]
  by_cases hack : t.acks.headD .ok = .ok
  · rw [if_neg (not_not_intro hack), if_pos hack, Dev.exec_bind, Dev.exec_recv, Halt.andThen_done,
      Halt.logged_nil]
    rfl
  · rw [if_pos hack, if_neg hack]

/-- The error packet of a denial. -/
def denialPacket (msg : String) : Packet := ⟨.transfer, errorMsg, ascii msg⟩

@[simp] theorem deny_exec (msg : String) (fs : Schedule) (ram : Ram) (w : World) :
    (deny msg).exec fs ram w = .done (-1, ram) (w.answered (denialPacket msg)) [] fs := rfl

/-! ## The packets a program can send -/

/-- An operation that sends a packet sends one in `Q`. -/
def Op.Sends (Q : Packet → Prop) : Op → Prop
  | .send uart cmd payload => Q ⟨uart, cmd, payload⟩
  | _ => True

/-- The packets of a run, behind those sent before. -/
theorem sent_exec {α : Type} {Q : Packet → Prop} {p : Prog Res α} (hp : p.Performs (Op.Sends Q))
    (fs : Schedule) (w : World) :
    ∃ ps, (hsm.exec p fs w).state.sent = w.sent ++ ps ∧ ∀ p ∈ ps, Q p := by
  induction p generalizing fs w with
  | ret a => exact ⟨[], (List.append_nil _).symm, by simp⟩
  | call o k ih =>
    obtain ⟨ho, hk⟩ := hp
    -- One operation sends one packet at most; a refused one sends nothing.
    have hact : ∃ ps, (hsm.act o w).2.sent = w.sent ++ ps ∧ ∀ p ∈ ps, Q p := by
      cases o with
      | send uart cmd payload => exact ⟨[⟨uart, cmd, payload⟩], rfl, List.forall_mem_singleton.mpr ho⟩
      | _ => exact ⟨[], (List.append_nil _).symm, by simp⟩
    have hnext : ∀ (r : Res o) (fs : Schedule) (t : World),
        (∃ ps, t.sent = w.sent ++ ps ∧ ∀ p ∈ ps, Q p) →
        ∃ ps, (hsm.exec (k r) fs t).state.sent = w.sent ++ ps ∧ ∀ p ∈ ps, Q p := by
      rintro r fs t ⟨ps, hps, hQ⟩
      obtain ⟨qs, hqs, hQ'⟩ := ih r (hk r) fs t
      refine ⟨ps ++ qs, by rw [hqs, hps, List.append_assoc], fun p hp => ?_⟩
      exact (List.mem_append.mp hp).elim (hQ p) (hQ' p)
    have hsame : ∃ ps, w.sent = w.sent ++ ps ∧ ∀ p ∈ ps, Q p :=
      ⟨[], (List.append_nil _).symm, by simp⟩
    cases hd : hsm.durable o with
    | false =>
      rw [Machine.exec_call_volatile _ _ _ _ hd]
      exact hnext _ _ _ hact
    | true =>
      match fs with
      | [] =>
        rw [Machine.exec_call_nil _ _ _ hd, Halt.state_logged]
        exact hnext _ _ _ hact
      | .done :: fs =>
        rw [Machine.exec_call_done _ _ _ _ hd, Halt.state_logged]
        exact hnext _ _ _ hact
      | .failed true :: fs =>
        rw [Machine.exec_call_failed _ _ _ _ hd, Halt.state_logged, if_pos rfl]
        exact hnext _ _ _ hact
      | .failed false :: fs =>
        rw [Machine.exec_call_failed _ _ _ _ hd, Halt.state_logged, if_neg Bool.false_ne_true]
        exact hnext _ _ _ hsame
      | .powerLost :: fs =>
        rw [Machine.exec_call_powerLost _ _ _ _ hd]
        exact hsame

namespace Dev

variable {α β : Type} {Q : Packet → Prop}

/-- A handler that sends packets in `Q` only. -/
def Sends (Q : Packet → Prop) (h : Dev α) : Prop := ∀ ram, (h.run ram).Performs (Op.Sends Q)

theorem Sends.pure (a : α) : (Pure.pure a : Dev α).Sends Q := fun _ => trivial

theorem Sends.bind {h : Dev α} {f : α → Dev β} (hh : h.Sends Q) (hf : ∀ a, (f a).Sends Q) :
    (h >>= f).Sends Q := by
  intro ram
  rw [StateT.run_bind]
  exact (hh ram).bind fun r => hf r.1 r.2

theorem Sends.get : (MonadState.get : Dev Ram).Sends Q := fun _ => trivial
theorem Sends.set (ram : Ram) : (MonadStateOf.set ram : Dev PUnit).Sends Q := fun _ => trivial
theorem Sends.modify (g : Ram → Ram) : (modifyGet (fun ram => (⟨⟩, g ram)) : Dev PUnit).Sends Q := fun _ => trivial

theorem Sends.op {o : Op} (ho : o.Sends Q) : (Dev.op o).Sends Q := fun _ => ⟨ho, fun _ => trivial⟩

theorem Sends.send {uart : Uart} {cmd : MsgType} {payload : Bytes} (h : Q ⟨uart, cmd, payload⟩) :
    (Dev.send uart cmd payload).Sends Q := Sends.op h

theorem Sends.mapped : Dev.mapped.Sends Q := Sends.op trivial

theorem Sends.recv (uart : Uart) (capacity : Nat) : (Dev.recv uart capacity).Sends Q :=
  Sends.op trivial

end Dev

section

variable {Q : Packet → Prop}

theorem reject_sends {msg : String} (h : Q (errorPacket msg)) : (reject msg).Sends Q :=
  (Dev.Sends.send h).bind fun _ => .pure _

theorem deny_sends {msg : String} (h : Q (denialPacket msg)) : (deny msg).Sends Q :=
  (Dev.Sends.send h).bind fun _ => .pure _

theorem denyAndReject_sends {msg hostMsg : String} (h : Q (denialPacket msg))
    (h' : Q (errorPacket hostMsg)) : (denyAndReject msg hostMsg).Sends Q :=
  (Dev.Sends.send h).bind fun _ => reject_sends h'

theorem listenDone_sends (h : Q ⟨.control, listenMsg, []⟩) : listenDone.Sends Q :=
  (Dev.Sends.send h).bind fun _ => .pure _

theorem generateNonce_sends (n : Nat) : (securityGenerateNonce n).Sends Q := by
  rw [securityGenerateNonce]
  split
  · exact .pure _
  · exact .op trivial

theorem checkReplay_sends (nr nt : UInt32) (groupId : UInt16) (op : UInt8) :
    (securitySecureUartCheckAndUpdateReplay nr nt groupId op).Sends Q := by
  refine Dev.Sends.get.bind fun ram => ?_
  split
  · exact .pure _
  · exact (Dev.Sends.modify _).bind fun _ => .pure _

end
