-- SUMMARY: Two devices whose packets answer each other: a run of each alone gives a run of both on the link.
import HsmFirmware.Specs.Keeps
import HsmFirmware.Specs.Link

/-!
# Dialogues

What a handler does can be followed on one device, packet by packet, with the packets of
the other given. When each of two devices sends what the other one reads, in the same
order, they run through on the link to the same ends.
-/

/-! ## One side -/

/-- What happens on UART1. -/
inductive LinkEvent where
  | sent (type : MsgType) (payload : Bytes)
  | got (type : MsgType) (payload : Bytes)

/-- The same event, on the other side. -/
def LinkEvent.dual : LinkEvent → LinkEvent
  | .sent type payload => .got type payload
  | .got type payload => .sent type payload

@[simp] theorem LinkEvent.dual_dual (e : LinkEvent) : e.dual.dual = e := by cases e <;> rfl

/-- A program runs through these events on UART1, all its packets acknowledged and none too
    long, from one world to another. -/
inductive Talks {α : Type} : Prog Res α → World → List LinkEvent → α → World → Prop where
  | ret (a : α) (w : World) : Talks (.ret a) w [] a w
  | device {o : Op} {k : Res o → Prog Res α} {w w' : World} {es : List LinkEvent} {a : α}
      (ho : o.Local) (h : Talks (k (hsm.act o w).1) (hsm.act o w).2 es a w') :
      Talks (.call o k) w es a w'
  | sent {type : MsgType} {payload : Bytes} {k : MsgStatus → Prog Res α} {w w' : World}
      {es : List LinkEvent} {a : α} (hack : needsAck type = true)
      (hlen : payload.length < 65536) (h : Talks (k .ok) w es a w') :
      Talks (.call (.send .transfer type payload) k) w (.sent type payload :: es) a w'
  | got {type : MsgType} {payload : Bytes} {capacity : Nat} {k : Received → Prog Res α}
      {w w' : World} {es : List LinkEvent} {a : α} (hcap : capacity < 65536)
      (hfits : payload.length ≤ capacity) (h : Talks (k (.packet type payload)) w es a w') :
      Talks (.call (.recv .transfer capacity) k) w (.got type payload :: es) a w'

namespace Talks

variable {α β : Type}

theorem bind {p : Prog Res α} {f : α → Prog Res β} {w w' w'' : World} {es es' : List LinkEvent}
    {a : α} {b : β} (h : Talks p w es a w') (h' : Talks (f a) w' es' b w'') :
    Talks (p >>= f) w (es ++ es') b w'' := by
  induction h with
  | ret a w => exact h'
  | device ho _ ih => exact .device ho (ih h')
  | sent hack hlen _ ih => exact .sent hack hlen (ih h')
  | got hcap hfits _ ih => exact .got hcap hfits (ih h')

/-- A fault-free run without UART1. -/
theorem of_runs {p : Prog Res α} (hp : p.Performs Op.Local) {w w' : World} {a : α} {L : List Op}
    (h : hsm.Runs p w a w' L) : Talks p w [] a w' := by
  induction p generalizing w L with
  | ret b =>
    cases h
    exact Talks.ret _ _
  | call o k ih =>
    refine .device hp.1 ?_
    rw [Machine.Runs] at h
    cases hd : hsm.durable o with
    | false =>
      rw [Machine.exec_call_volatile _ _ _ _ hd] at h
      exact ih _ (hp.2 _) h
    | true =>
      rw [Machine.exec_call_nil _ _ _ hd] at h
      cases hrest : hsm.exec (k (hsm.act o w).1) [] (hsm.act o w).2 with
      | off t l =>
        rw [hrest] at h
        cases h
      | done b t l rest =>
        rw [hrest] at h
        cases h
        exact ih _ (hp.2 _) hrest

end Talks

/-- A program comes through these events to what is left of it. -/
inductive TalksTo {α : Type} :
    Prog Res α → World → List LinkEvent → Prog Res α → World → Prop where
  | refl (p : Prog Res α) (w : World) : TalksTo p w [] p w
  | device {o : Op} {k : Res o → Prog Res α} {q : Prog Res α} {w w' : World} {es : List LinkEvent}
      (ho : o.Local) (h : TalksTo (k (hsm.act o w).1) (hsm.act o w).2 es q w') :
      TalksTo (.call o k) w es q w'
  | sent {type : MsgType} {payload : Bytes} {k : MsgStatus → Prog Res α} {q : Prog Res α}
      {w w' : World} {es : List LinkEvent} (hack : needsAck type = true)
      (hlen : payload.length < 65536) (h : TalksTo (k .ok) w es q w') :
      TalksTo (.call (.send .transfer type payload) k) w (.sent type payload :: es) q w'
  | got {type : MsgType} {payload : Bytes} {capacity : Nat} {k : Received → Prog Res α}
      {q : Prog Res α} {w w' : World} {es : List LinkEvent} (hcap : capacity < 65536)
      (hfits : payload.length ≤ capacity) (h : TalksTo (k (.packet type payload)) w es q w') :
      TalksTo (.call (.recv .transfer capacity) k) w (.got type payload :: es) q w'

theorem Talks.talksTo {α : Type} {p : Prog Res α} {w w' : World} {es : List LinkEvent} {a : α}
    (h : Talks p w es a w') : TalksTo p w es (.ret a) w' := by
  induction h with
  | ret a w => exact .refl _ _
  | device ho _ ih => exact .device ho ih
  | sent hack hlen _ ih => exact .sent hack hlen ih
  | got hcap hfits _ ih => exact .got hcap hfits ih

namespace TalksTo

variable {α β : Type} {p q q' : Prog Res α} {w u u' : World} {es es' : List LinkEvent}

/-- Of two runs through the same events, one is a part of the other. -/
theorem compare (h : TalksTo p w es q u) (h' : TalksTo p w (es ++ es') q' u') :
    TalksTo q u es' q' u' ∨ es' = [] ∧ TalksTo q' u' [] q u := by
  induction h with
  | refl p w => exact .inl h'
  | @device o k q w u es ho h ih =>
    generalize hes : es ++ es' = es₁ at h'
    cases h' with
    | refl =>
      obtain ⟨rfl, rfl⟩ := List.append_eq_nil_iff.mp hes
      exact .inr ⟨rfl, .device ho h⟩
    | device _ h' =>
      subst hes
      exact ih h'
    | sent => cases ho
    | got => cases ho
  | sent hack hlen _ ih =>
    cases h' with
    | device ho => cases ho
    | sent _ _ h' => exact ih h'
  | got hcap hfits _ ih =>
    cases h' with
    | device ho => cases ho
    | got _ _ h' => exact ih h'

/-- A program that is about to read reads what comes next. -/
theorem recv_next {capacity : Nat} {k : Received → Prog Res α} {e : LinkEvent}
    (h : TalksTo p w es (.call (.recv .transfer capacity) k) u)
    (h' : TalksTo p w (es ++ e :: es') q' u') :
    ∃ type payload, e = .got type payload ∧ TalksTo (k (.packet type payload)) u es' q' u' := by
  rcases h.compare h' with h' | ⟨hnil, -⟩
  · cases h' with
    | device ho => cases ho
    | got _ _ h' => exact ⟨_, _, rfl, h'⟩
  · cases hnil

/-- A program that is about to send sends next. -/
theorem send_next {type : MsgType} {payload : Bytes} {k : MsgStatus → Prog Res α} {e : LinkEvent}
    (h : TalksTo p w es (.call (.send .transfer type payload) k) u)
    (h' : TalksTo p w (es ++ e :: es') q' u') :
    e = .sent type payload ∧ TalksTo (k .ok) u es' q' u' := by
  rcases h.compare h' with h' | ⟨hnil, -⟩
  · cases h' with
    | device ho => cases ho
    | sent _ _ h' => exact ⟨rfl, h'⟩
  · cases hnil

/-- The packet a run reads first. -/
theorem got_head {type : MsgType} {payload : Bytes} (h : TalksTo p w (.got type payload :: es) q u) :
    ∃ capacity k w', TalksTo p w [] (.call (.recv .transfer capacity) k) w' ∧
      TalksTo (k (.packet type payload)) w' es q u := by
  generalize hes : LinkEvent.got type payload :: es = es₁ at h
  induction h with
  | refl => cases hes
  | device ho _ ih =>
    obtain ⟨capacity, k, w', hto, hrest⟩ := ih hes
    exact ⟨capacity, k, w', .device ho hto, hrest⟩
  | sent => cases hes
  | got _ _ h =>
    cases hes
    exact ⟨_, _, _, .refl _ _, h⟩

/-- The packet a run sends first. -/
theorem sent_head {type : MsgType} {payload : Bytes}
    (h : TalksTo p w (.sent type payload :: es) q u) :
    ∃ k w', TalksTo p w [] (.call (.send .transfer type payload) k) w' ∧
      TalksTo (k .ok) w' es q u := by
  generalize hes : LinkEvent.sent type payload :: es = es₁ at h
  induction h with
  | refl => cases hes
  | device ho _ ih =>
    obtain ⟨k, w', hto, hrest⟩ := ih hes
    exact ⟨k, w', .device ho hto, hrest⟩
  | sent _ _ h =>
    cases hes
    exact ⟨_, _, .refl _ _, h⟩
  | got => cases hes

/-- Two programs that answer each other go through one sequence of events. -/
theorem comparable {p' r r' : Prog Res β} {v x x' : World} {es₂ : List LinkEvent}
    (hp : TalksTo p w es q u) (hp' : TalksTo p' v (es.map LinkEvent.dual) r x)
    (hp₂ : TalksTo p w es₂ q' u') (hp₂' : TalksTo p' v (es₂.map LinkEvent.dual) r' x') :
    es <+: es₂ ∨ es₂ <+: es := by
  induction es generalizing p p' w v es₂ with
  | nil => exact .inl List.nil_prefix
  | cons e es ih =>
    cases es₂ with
    | nil => exact .inr List.nil_prefix
    | cons e₂ es₂ =>
      have hcons : ∀ {l l' : List LinkEvent}, (l <+: l' ∨ l' <+: l) →
          (e :: l <+: e :: l' ∨ e :: l' <+: e :: l) := fun h =>
        h.imp (fun h => (List.prefix_cons_inj e).mpr h) fun h => (List.prefix_cons_inj e).mpr h
      cases e with
      | sent type payload =>
        obtain ⟨k, w', hto, hrest⟩ := hp.sent_head
        obtain ⟨rfl, hrest₂⟩ := hto.send_next hp₂
        obtain ⟨capacity, k', v', hto', hrest'⟩ := got_head hp'
        obtain ⟨type', payload', heq, hrest₂'⟩ := hto'.recv_next hp₂'
        cases heq
        exact hcons (ih hrest hrest' hrest₂ hrest₂')
      | got type payload =>
        obtain ⟨k', v', hto', hrest'⟩ := sent_head hp'
        obtain ⟨heq, hrest₂'⟩ := hto'.send_next hp₂'
        obtain ⟨capacity, k, w', hto, hrest⟩ := hp.got_head
        obtain ⟨type', payload', rfl, hrest₂⟩ := hto.recv_next hp₂
        cases heq
        exact hcons (ih hrest hrest' hrest₂ hrest₂')

end TalksTo

/-! ## Both sides -/

section

variable {α β : Type} {s : World × Link α} {q q' : Prog Res β} {v v' : World}
  {c d : Channel UInt8}

theorem onLink_local {o : Op} (ho : o.Local) (k : Res o → Prog Res β) :
    onLink (.call o k) = .call (.device o) fun r => onLink (k r) := by
  cases o with
  | send uart cmd payload =>
    cases uart with
    | control => rfl
    | transfer => cases ho
  | recv uart capacity =>
    cases uart with
    | control => rfl
    | transfer => cases ho
  | erase | program | mapped | nonce => rfl

/-- An operation of the right device. -/
theorem meets_device {o : Op} (ho : o.Local) (k : Res o → Prog Res β) :
    Meets ⟨s, (v, onLink (.call o k)), c, d⟩
      ⟨s, ((hsm.act o v).2, onLink (k (hsm.act o v).1)), c, d⟩ := by
  rw [onLink_local ho]
  exact Net.Reaches.one .right rfl

/-- The right device goes on without the link. -/
theorem TalksTo.meets_local (h : TalksTo q v [] q' v') :
    Meets ⟨s, (v, onLink q), c, d⟩ ⟨s, (v', onLink q'), c, d⟩ := by
  generalize hes : ([] : List LinkEvent) = es at h
  induction h with
  | refl q v => exact .refl _
  | device ho _ ih => exact (meets_device ho _).trans (ih hes)
  | sent => cases hes
  | got => cases hes

/-- The right device comes to the packet it reads next. -/
theorem TalksTo.meets_got {type : MsgType} {payload : Bytes} {es : List LinkEvent}
    (h : TalksTo q v (.got type payload :: es) q' v') :
    ∃ (capacity : Nat) (k : Received → Prog Res β) (u : World),
      capacity < 65536 ∧ payload.length ≤ capacity ∧
      Meets ⟨s, (v, onLink q), .empty, .empty⟩
        ⟨s, (u, readPacketTimeout (UInt16.ofNat capacity) >>= fun r => onLink (k r)), .empty,
          .empty⟩ ∧
      TalksTo (k (.packet type payload)) u es q' v' := by
  generalize hes : LinkEvent.got type payload :: es = es' at h
  induction h with
  | refl => cases hes
  | device ho _ ih =>
    obtain ⟨capacity, k, u, hcap, hfits, hmeets, htalks⟩ := ih hes
    exact ⟨capacity, k, u, hcap, hfits, (meets_device ho _).trans hmeets, htalks⟩
  | sent => cases hes
  | @got type' payload' capacity k q w w' es hcap hfits h =>
    cases hes
    exact ⟨capacity, k, w, hcap, hfits, .refl _, h⟩

/-- The right device comes to the packet it writes next. -/
theorem TalksTo.meets_sent {type : MsgType} {payload : Bytes} {es : List LinkEvent}
    (h : TalksTo q v (.sent type payload :: es) q' v') :
    ∃ (k : MsgStatus → Prog Res β) (u : World), needsAck type = true ∧ payload.length < 65536 ∧
      Meets ⟨s, (v, onLink q), .empty, .empty⟩
        ⟨s, (u, writePacket type payload (UInt16.ofNat payload.length) >>= fun rc => onLink (k rc)),
          .empty, .empty⟩ ∧
      TalksTo (k .ok) u es q' v' := by
  generalize hes : LinkEvent.sent type payload :: es = es' at h
  induction h with
  | refl => cases hes
  | device ho _ ih =>
    obtain ⟨k, u, hack, hlen, hmeets, htalks⟩ := ih hes
    exact ⟨k, u, hack, hlen, (meets_device ho _).trans hmeets, htalks⟩
  | @sent type' payload' k q w w' es hack hlen h =>
    cases hes
    exact ⟨k, w, hack, hlen, .refl _, h⟩
  | got => cases hes

end

section

variable {α β : Type} {p p' : Prog Res α} {q q' : Prog Res β} {w w' v v' : World} {a : α} {b : β}
  {es : List LinkEvent}

/-- Two devices that answer each other come to what is left of them. -/
theorem TalksTo.meets (h : TalksTo p w es p' w') (h' : TalksTo q v (es.map LinkEvent.dual) q' v') :
    Meets ⟨(w, onLink p), (v, onLink q), .empty, .empty⟩
      ⟨(w', onLink p'), (v', onLink q'), .empty, .empty⟩ := by
  induction h generalizing q v with
  | refl p w => exact h'.meets_local
  | @device o k p' w w' es ho _ ih =>
    have hmove : Meets ⟨(w, onLink (.call o k)), (v, onLink q), .empty, .empty⟩
        ⟨((hsm.act o w).2, onLink (k (hsm.act o w).1)), (v, onLink q), .empty, .empty⟩ := by
      rw [onLink_local ho]
      exact .silent rfl
    exact hmove.trans (ih h')
  | @sent type payload k p' w w' es hack hlen _ ih =>
    obtain ⟨capacity, k', u, hcap, hfits, hmeets, htalks⟩ := h'.meets_got
    have hcapacity : (UInt16.ofNat capacity).toNat = capacity := UInt16.toNat_ofNat_of_lt' hcap
    exact (hmeets.trans (meets_packet hack payload hlen _ (.inr (by rwa [hcapacity])) _ _)).trans
      (ih htalks)
  | @got type payload capacity k p' w w' es hcap hfits _ ih =>
    obtain ⟨k', u, hack, hlen, hmeets, htalks⟩ := h'.meets_sent
    have hcapacity : (UInt16.ofNat capacity).toNat = capacity := UInt16.toNat_ofNat_of_lt' hcap
    have hpacket := Net.Reaches.swap (@meets_packet _ _ u w type hack payload hlen
      (UInt16.ofNat capacity) (.inr (by rwa [hcapacity])) (fun rc => onLink (k' rc))
      fun r => onLink (k r))
    exact (hmeets.trans hpacket).trans (ih htalks)

/-- Two devices that answer each other run through. -/
theorem Talks.meets (h : Talks p w es a w') (h' : Talks q v (es.map LinkEvent.dual) b v') :
    Meets ⟨(w, onLink p), (v, onLink q), .empty, .empty⟩
      ⟨(w', pure a), (v', pure b), .empty, .empty⟩ :=
  h.talksTo.meets h'.talksTo

/-- All their runs on the link end as their own runs do, with nothing left on it. -/
theorem Talks.endsIn (h : Talks p w es a w') (h' : Talks q v (es.map LinkEvent.dual) b v') :
    Net.EndsIn linkNext linkNext ⟨(w, onLink p), (v, onLink q), .empty, .empty⟩
      ⟨(w', pure a), (v', pure b), .empty, .empty⟩ :=
  .of_reaches (h.meets h') ⟨rfl, rfl, rfl, rfl⟩

end

/-! ## Handlers -/

/-- A handler runs through these events on UART1, from one RAM and world to another. -/
abbrev Dev.Says {α : Type} (h : Dev α) (ram : Ram) (w : World) (es : List LinkEvent) (a : α)
    (ram' : Ram) (w' : World) : Prop :=
  Talks (h.run ram) w es (a, ram') w'

namespace Dev.Says

variable {α β γ : Type} {h : Dev α} {f : α → Dev β} {ram ram' ram'' : Ram} {w w' w'' : World}
  {es es' : List LinkEvent} {a : α} {b : β}

theorem pure (a : α) (ram : Ram) (w : World) : (Pure.pure a : Dev α).Says ram w [] a ram w :=
  Talks.ret _ _

theorem bind (hh : h.Says ram w es a ram' w') (hf : (f a).Says ram' w' es' b ram'' w'') :
    (h >>= f).Says ram w (es ++ es') b ram'' w'' := by
  rw [Dev.Says, StateT.run_bind]
  exact Talks.bind hh hf

/-- A part that does not use UART1 comes first. -/
theorem bind_local (hh : h.Says ram w [] a ram' w') (hf : (f a).Says ram' w' es b ram'' w'') :
    (h >>= f).Says ram w es b ram'' w'' :=
  bind hh hf

theorem get_bind {f : Ram → Dev β} (hf : (f ram).Says ram w es b ram' w') :
    (MonadState.get >>= f : Dev β).Says ram w es b ram' w' := hf

theorem set_bind {f : PUnit → Dev β} (hf : (f ⟨⟩).Says ram' w es b ram'' w') :
    (MonadStateOf.set ram' >>= f : Dev β).Says ram w es b ram'' w' := hf

theorem mapped_bind {f : Mem → Dev β} (hf : (f w.flash).Says ram w es b ram' w') :
    (Dev.mapped >>= f).Says ram w es b ram' w' :=
  Talks.device (o := .mapped) trivial hf

theorem send_bind {type : MsgType} {payload : Bytes} {f : MsgStatus → Dev β}
    (hack : needsAck type = true) (hlen : payload.length < 65536)
    (hf : (f .ok).Says ram w es b ram' w') :
    (Dev.send .transfer type payload >>= f).Says ram w (.sent type payload :: es) b ram' w' :=
  Talks.sent hack hlen hf

theorem recv_bind {type : MsgType} {payload : Bytes} {capacity : Nat} {f : Received → Dev β}
    (hcap : capacity < 65536) (hfits : payload.length ≤ capacity)
    (hf : (f (.packet type payload)).Says ram w es b ram' w') :
    (Dev.recv .transfer capacity >>= f).Says ram w (.got type payload :: es) b ram' w' :=
  Talks.got hcap hfits hf

/-- A fault-free run without UART1. -/
theorem of_runs {g : Ram → γ} {L : List Op} (hlocal : h.Keeps Op.Local g)
    (hrun : h.Runs ram w a ram' w' L) : h.Says ram w [] a ram' w' :=
  Talks.of_runs (hlocal ram).performs hrun

end Dev.Says

section

variable {α : Type} {ram ram' : Ram} {w w' : World} {es : List LinkEvent} {rc : Int}

theorem generateNonce_talks {draw : Nat → UInt8} (hdraw : w.rng w.draws = some draw) (n : Nat)
    (ram : Ram) :
    (securityGenerateNonce (n + 1)).Says ram w [] (some ((List.range (n + 1)).map draw)) ram
      w.drawn :=
  .of_runs (generateNonce_keeps (f := fun _ => ()) (n + 1)) (exec_generateNonce hdraw n [] ram)

/-- A packet to the host. -/
theorem send_talks (cmd : MsgType) (payload : Bytes) (ram : Ram) (w : World) :
    (Dev.send .control cmd payload).Says ram w [] (w.acks.headD .ok) ram
      (w.answered ⟨.control, cmd, payload⟩) :=
  .of_runs (send_keeps (f := fun _ => ()) cmd payload) (exec_send_answered .control cmd payload [] ram w)

/-- A command behind the PIN gate. -/
theorem gated_talks {fw : Firmware} {pin : Bytes} {k : Dev Int} (h : PinCorrect fw ram pin)
    (hk : k.Says (ram.setFails 0) (w.after (gateOps ram)) es rc ram' w') :
    (do if (← pinGate fw pin) ≠ 0 then pure (-1) else k : Dev Int).Says ram w es rc ram' w' :=
  .bind_local (.of_runs (pinGate_keepsPin pin) (pinGate_runs_correct h w)) hk

/-- Two handlers on two devices, on an idle link. -/
def dialogue (h : Dev α) (ram : Ram) (w : World) (h' : Dev α) (ram' : Ram) (v : World) :
    LinkNet (α × Ram) (α × Ram) :=
  ⟨(w, onLink (h.run ram)), (v, onLink (h'.run ram')), .empty, .empty⟩

/-- Two devices that have come to their ends, on an idle link. -/
def dialogueEnd (a : α) (ram : Ram) (w : World) (b : α) (ram' : Ram) (v : World) :
    LinkNet (α × Ram) (α × Ram) :=
  ⟨(w, pure (a, ram)), (v, pure (b, ram')), .empty, .empty⟩

/-- Handlers that answer each other run through, in every order of moves. -/
theorem Dev.Says.endsIn {h h' : Dev α} {ram₁ ram₁' ram₂ ram₂' : Ram} {v v' : World} {a b : α}
    (hs : h.Says ram₁ w es a ram₁' w')
    (hs' : h'.Says ram₂ v (es.map LinkEvent.dual) b ram₂' v') :
    Net.EndsIn linkNext linkNext (dialogue h ram₁ w h' ram₂ v)
      (dialogueEnd a ram₁' w' b ram₂' v') :=
  Talks.endsIn hs hs'

end
