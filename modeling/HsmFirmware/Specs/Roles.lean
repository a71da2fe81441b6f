-- SUMMARY: What a session of the main loop may do on UART1, given what it has done, and that the handlers do nothing else.
import HsmFirmware.Library.Sessions
import HsmFirmware.Specs.Outcomes

/-!
# Roles

A command of the host has the device play one of three roles on UART1: it asks for a file, asks
for a list, or answers. A role says which packets the device may send, and what must have
happened before each of them. The answers of the peer, and those of the flash controller and of
the generator, can be anything.
-/

/-! ## Histories -/

/-- What a program of the device has done. -/
abbrev History := List (Prog.Act Res)

/-- A nonce of the handshake has been drawn. -/
def drewNonce (nonce : Bytes) : Prog.Act Res := ⟨.nonce 4, (some nonce : Option Bytes)⟩

/-- A packet has been sent, and acknowledged. -/
def sentPacket (cmd : MsgType) (payload : Bytes) : Prog.Act Res :=
  ⟨.send .transfer cmd payload, MsgStatus.ok⟩

/-- A packet has been received. -/
def gotPacket (capacity : Nat) (cmd : MsgType) (payload : Bytes) : Prog.Act Res :=
  ⟨.recv .transfer capacity, Received.packet cmd payload⟩

/-- The flash has been looked at. -/
def sawFlash (m : Mem) : Prog.Act Res := ⟨.mapped, m⟩

/-- The operation uses UART1. -/
def Op.onLink : Op → Bool
  | .send .transfer _ _ | .recv .transfer _ => true
  | _ => false

theorem Op.onLink_eq_false {o : Op} (h : o.Local) : o.onLink = false := by
  cases o with
  | send uart cmd payload => cases uart <;> first | rfl | cases h
  | recv uart capacity => cases uart <;> first | rfl | cases h
  | _ => rfl

/-- What has happened on UART1. -/
def History.onLink (l : History) : History := l.filter fun a => a.1.onLink

@[simp] theorem History.onLink_drewNonce (l : History) (nonce : Bytes) :
    History.onLink (l ++ [drewNonce nonce]) = l.onLink := by
  simp [History.onLink, drewNonce, Op.onLink]

@[simp] theorem History.onLink_sawFlash (l : History) (m : Mem) :
    History.onLink (l ++ [sawFlash m]) = l.onLink := by
  simp [History.onLink, sawFlash, Op.onLink]

@[simp] theorem History.onLink_sentPacket (l : History) (cmd : MsgType) (payload : Bytes) :
    History.onLink (l ++ [sentPacket cmd payload]) = l.onLink ++ [sentPacket cmd payload] := by
  simp [History.onLink, sentPacket, Op.onLink]

@[simp] theorem History.onLink_gotPacket (l : History) (capacity : Nat) (cmd : MsgType)
    (payload : Bytes) : History.onLink (l ++ [gotPacket capacity cmd payload]) =
      l.onLink ++ [gotPacket capacity cmd payload] := by
  simp [History.onLink, gotPacket, Op.onLink]

theorem History.onLink_append_local {l l' : History} (h : ∀ a ∈ l', a.1.Local) :
    History.onLink (l ++ l') = l.onLink := by
  have hnone : l'.filter (fun a => a.1.onLink) = [] := by
    apply List.filter_eq_nil_iff.mpr
    intro a ha
    rw [Op.onLink_eq_false (h a ha)]
    exact Bool.false_ne_true
  rw [History.onLink, List.filter_append, hnone, List.append_nil]
  rfl

/-! ## What the roles allow -/

section

variable (fw : Firmware) (cmd : MsgType) (buf : Mem) (ram : Ram) (l : History)

/-- A device signs a challenge for a file: it has been asked to by its host with the right PIN, has
    drawn the nonce of the challenge for this slot, and may receive files of the group. -/
structure SignsTransfer (root : Key) (challenge : ReceiveChallenge) : Prop where
  command : cmd = receiveMsg
  pin : PinCorrect fw ram (buf.read 0 pinLength)
  slot : challenge.slot = buf 6
  drawn : ∃ nonce, drewNonce nonce ∈ l ∧ Codec.u32.decode nonce = challenge.requesterNonce
  permitted : validatePermission fw challenge.groupId .permReceive = true
  rootSecret : securityGetRootSecret fw = some root
  before : l.onLink =
    [sentPacket receiveMsg (ReceiveRequest.codec.encode ⟨buf 6, challenge.requesterNonce⟩),
      gotPacket ReceiveChallenge.codec.size receiveMsg (ReceiveChallenge.codec.encode challenge)]

/-- A device sends a file: it has drawn the nonce of its challenge for this slot and group, and got
    a proof of it. -/
structure ReleasesFile (challenge : ReceiveChallenge) (proof : ReceiveProof) (slot : Slot)
    (contents : Bytes) : Prop where
  command : cmd = listenMsg
  occupied : slotOccupied ram challenge.slot = some slot
  groupId : challenge.groupId = (ram.gNameTable slot).groupId
  drawn : ∃ nonce, drewNonce nonce ∈ l ∧ Codec.u32.decode nonce = challenge.targetNonce
  proves : ProvesReceive fw challenge proof
  stored : ∃ m, sawFlash m ∈ l ∧
    recordContents fw m ram.gFat slot none (ram.gNameTable slot).groupId.toUInt32 = some contents
  before : l.onLink =
    [gotPacket InterrogateProof.codec.size receiveMsg
        (ReceiveRequest.codec.encode ⟨challenge.slot, challenge.requesterNonce⟩),
      sentPacket receiveMsg (ReceiveChallenge.codec.encode challenge),
      gotPacket ReceiveProof.codec.size receiveMsg (ReceiveProof.codec.encode proof)]

/-- A device signs a challenge for each group it may receive: it has been asked to by its host with
    the right PIN, and has drawn the nonce of the challenge. -/
structure SignsGroups (root : Key) (challenge : InterrogateChallenge) : Prop where
  command : cmd = interrogateMsg
  pin : PinCorrect fw ram (buf.read 0 pinLength)
  drawn : ∃ nonce, drewNonce nonce ∈ l ∧ Codec.u32.decode nonce = challenge.requesterNonce
  rootSecret : securityGetRootSecret fw = some root
  before : l.onLink =
    [sentPacket interrogateMsg (interrogateRequestCodec.encode challenge.requesterNonce),
      gotPacket InterrogateChallenge.codec.size interrogateMsg
        (InterrogateChallenge.codec.encode challenge)]

/-- A device sends a list: it has drawn the nonce of its challenge, and got proofs of it. -/
structure DisclosesList (challenge : InterrogateChallenge) (proof : InterrogateProof) : Prop where
  command : cmd = listenMsg
  drawn : ∃ nonce, drewNonce nonce ∈ l ∧ Codec.u32.decode nonce = challenge.targetNonce
  proves : ProvesGroups fw challenge proof
  before : l.onLink =
    [gotPacket InterrogateProof.codec.size interrogateMsg
        (interrogateRequestCodec.encode challenge.requesterNonce),
      sentPacket interrogateMsg (InterrogateChallenge.codec.encode challenge),
      gotPacket InterrogateProof.codec.size interrogateMsg (InterrogateProof.codec.encode proof)]

/-- The operations a session may do next. The host has sent `cmd`, with the packet in `buf`, and
    the session has started with the RAM `ram`. -/
inductive RoleStep : Op → Prop where
  | device {o : Op} (h : o.Local) : RoleStep o
  | await (capacity : Nat) : RoleStep (.recv .transfer capacity)
  | deny (msg : Bytes) : RoleStep (.send .transfer errorMsg msg)
  | requestFile (request : ReceiveRequest) (h : cmd = receiveMsg) :
      RoleStep (.send .transfer receiveMsg (ReceiveRequest.codec.encode request))
  | challengeFile (challenge : ReceiveChallenge) (h : cmd = listenMsg) :
      RoleStep (.send .transfer receiveMsg (ReceiveChallenge.codec.encode challenge))
  | proveFile {root : Key} {challenge : ReceiveChallenge}
      (h : SignsTransfer fw cmd buf ram l root challenge) :
      RoleStep (.send .transfer receiveMsg
        (ReceiveProof.codec.encode (signedProof fw root challenge)))
  | sendFile {challenge : ReceiveChallenge} {proof : ReceiveProof} {slot : Slot} {contents : Bytes}
      (h : ReleasesFile fw cmd ram l challenge proof slot contents) :
      RoleStep (.send .transfer receiveMsg
        (ReceiveResponse.codec.encode (fileResponse ram slot contents)))
  | requestList (nonce : UInt32) (h : cmd = interrogateMsg) :
      RoleStep (.send .transfer interrogateMsg (interrogateRequestCodec.encode nonce))
  | challengeList (challenge : InterrogateChallenge) (h : cmd = listenMsg) :
      RoleStep (.send .transfer interrogateMsg (InterrogateChallenge.codec.encode challenge))
  | proveList {root : Key} {challenge : InterrogateChallenge}
      (h : SignsGroups fw cmd buf ram l root challenge) :
      RoleStep (.send .transfer interrogateMsg (InterrogateProof.codec.encode
        (interrogateProof challenge (interrogateGroupProofs fw root challenge))))
  | sendList {challenge : InterrogateChallenge} {proof : InterrogateProof}
      (h : DisclosesList fw cmd l challenge proof) :
      RoleStep (.send .transfer interrogateMsg
        (listResponse (filteredFiles ram (proof.groups.map (·.groupId)))))

end

/-! ## Rules -/

namespace Dev

variable {α β : Type} {I : History → Op → Prop} {l : History} {ram : Ram}
  {R : History → α → Ram → Prop} {S : History → β → Ram → Prop}

/-- Behind the history `l`, the handler does only what its history allows, and leaves a result, a
    RAM and a history in `R`. -/
def Follows (I : History → Op → Prop) (h : Dev α) (ram : Ram) (l : History)
    (R : History → α → Ram → Prop) : Prop :=
  (h.run ram).Follows I (fun l' r => R l' r.1 r.2) l

theorem Follows.pure {a : α} (h : R l a ram) : (Pure.pure a : Dev α).Follows I ram l R := h

theorem Follows.bind {h : Dev α} {f : α → Dev β} (hh : h.Follows I ram l R)
    (hf : ∀ l' a ram', R l' a ram' → (f a).Follows I ram' l' S) :
    (h >>= f).Follows I ram l S := by
  rw [Follows, StateT.run_bind]
  exact Prog.Follows.bind hh fun l' r hr => hf l' r.1 r.2 hr

theorem Follows.get_bind {f : Ram → Dev β} (hf : (f ram).Follows I ram l S) :
    ((get : Dev Ram) >>= f).Follows I ram l S := hf

theorem Follows.set_bind {ram' : Ram} {f : PUnit → Dev β} (hf : (f ⟨⟩).Follows I ram' l S) :
    ((set ram' : Dev PUnit) >>= f).Follows I ram l S := hf

theorem Follows.mapped_bind {f : Mem → Dev β} (ho : I l .mapped)
    (hf : ∀ m, (f m).Follows I ram (l ++ [sawFlash m]) S) :
    (Dev.mapped >>= f).Follows I ram l S := ⟨ho, hf⟩

/-- A nonce is drawn, or not. -/
theorem Follows.nonce_bind {f : Option Bytes → Dev β} (ho : I l (.nonce 4))
    (hsome : ∀ nonce, (f (some nonce)).Follows I ram (l ++ [drewNonce nonce]) S)
    (hnone : ∀ l', (f none).Follows I ram l' S) :
    (securityGenerateNonce 4 >>= f).Follows I ram l S := by
  refine ⟨ho, fun r => ?_⟩
  have hcases : ∀ r : Option Bytes,
      (f r).Follows I ram (l ++ [⟨.nonce 4, (r : Option Bytes)⟩]) S := by
    intro r
    cases r with
    | none => exact hnone _
    | some nonce => exact hsome nonce
  exact hcases r

/-- A packet is sent and answered, or the handler gives up. -/
theorem Follows.ask {cmd : MsgType} {payload : Bytes} {capacity : Nat} {e : Dev β}
    {k : Received → Dev β} (hsend : I l (.send .transfer cmd payload))
    (hrecv : ∀ l', I l' (.recv .transfer capacity)) (he : ∀ l', e.Follows I ram l' S)
    (hfailed : ∀ l' status, (k (.failed status)).Follows I ram l' S)
    (hk : ∀ cmd' payload', (k (.packet cmd' payload')).Follows I ram
      (l ++ [sentPacket cmd payload] ++ [gotPacket capacity cmd' payload']) S) :
    (Dev.send .transfer cmd payload >>= fun rc =>
      if rc ≠ .ok then e else Dev.recv .transfer capacity >>= k).Follows I ram l S := by
  refine ⟨hsend, fun rc => ?_⟩
  have hcases : ∀ rc : MsgStatus,
      (if rc ≠ .ok then e else Dev.recv .transfer capacity >>= k).Follows I ram
        (l ++ [⟨.send .transfer cmd payload, (rc : MsgStatus)⟩]) S := by
    intro rc
    by_cases hrc : rc = .ok
    · subst hrc
      rw [if_neg (not_not_intro rfl)]
      refine ⟨hrecv _, fun r => ?_⟩
      have hreceived : ∀ r : Received, (k r).Follows I ram
          (l ++ [sentPacket cmd payload] ++ [⟨.recv .transfer capacity, (r : Received)⟩]) S := by
        intro r
        cases r with
        | failed status => exact hfailed _ status
        | packet cmd' payload' => exact hk cmd' payload'
      exact hreceived r
    · rw [if_pos hrc]
      exact he _
  exact hcases rc

end Dev

section

variable {fw : Firmware} {cmd : MsgType} {buf : Mem} {ram₀ ram : Ram} {l : History}

/-- A handler that stays off UART1. -/
theorem Dev.Follows.of_local {α γ : Type} {h : Dev α} {f : Ram → γ} (hh : h.Keeps Op.Local f) :
    h.Follows (RoleStep fw cmd buf ram₀) ram l fun l' _ ram' =>
      l'.onLink = l.onLink ∧ (∀ a ∈ l, a ∈ l') ∧ f ram' = f ram := by
  refine Prog.Follows.mono (Prog.Follows.of_yields (hh ram) fun l' _ o ho => .device ho) ?_
  rintro l'' r ⟨l', rfl, hlocal, hr⟩
  exact ⟨History.onLink_append_local hlocal, fun a ha => List.mem_append_left _ ha, hr⟩

/-- So does a session that ends without UART1. -/
theorem Dev.Follows.ends {α γ : Type} {h : Dev α} {f : Ram → γ} (hh : h.Keeps Op.Local f) :
    h.Follows (RoleStep fw cmd buf ram₀) ram l fun _ _ _ => True :=
  Prog.Follows.mono (Dev.Follows.of_local hh) fun _ _ _ => trivial

theorem reject_follows (msg : String) :
    (reject msg).Follows (RoleStep fw cmd buf ram₀) ram l fun _ _ _ => True :=
  .ends (@reject_keeps _ Ram.gPinHash msg)

theorem deny_follows (msg : String) :
    (deny msg).Follows (RoleStep fw cmd buf ram₀) ram l fun _ _ _ => True :=
  ⟨.deny _, fun _ => trivial⟩

theorem denyAndReject_follows (msg hostMsg : String) :
    (denyAndReject msg hostMsg).Follows (RoleStep fw cmd buf ram₀) ram l fun _ _ _ => True :=
  ⟨.deny _, fun _ => reject_follows hostMsg⟩

theorem listenDone_follows :
    listenDone.Follows (RoleStep fw cmd buf ram₀) ram l fun _ _ _ => True :=
  .ends (h := listenDone) (f := Ram.gPinHash) ((send_keeps _ _).bind fun _ => .pure _)

/-- The gate lets the right PIN pass alone, and stays off UART1. -/
theorem pinGate_follows (pin : Bytes) :
    (pinGate fw pin).Follows (RoleStep fw cmd buf ram₀) ram l fun l' rc _ =>
      l'.onLink = l.onLink ∧ (rc = 0 → PinCorrect fw ram pin) := by
  by_cases hpin : PinCorrect fw ram pin
  · exact Prog.Follows.mono (Dev.Follows.of_local (pinGate_keepsPin pin))
      fun l' r hr => ⟨hr.1, fun _ => hpin⟩
  have hyields : ((pinGate fw pin).run ram).Yields Op.Local fun r => r.1 ≠ 0 := by
    have hreject : ∀ msg ram, ((reject msg).run ram).Yields Op.Local fun r => r.1 ≠ 0 :=
      fun msg ram => ⟨trivial, fun _ => (by decide : (-1 : Int) ≠ 0)⟩
    rw [pinGate, if_neg (by decide), StateT.run_bind, checkPin_run_incorrect hpin]
    split
    · rw [Prog.bind_assoc']
      exact (writePinState_keepsPin (ram.setFails (ram.gFailCount + 1))).bind fun r _ =>
        hreject "Invalid pin\n" r.2
    · exact hreject "Invalid pin\n" ram
  refine Prog.Follows.mono (Prog.Follows.of_yields hyields fun l' _ o ho => .device ho) ?_
  rintro l'' r ⟨l', rfl, hlocal, hr⟩
  exact ⟨History.onLink_append_local hlocal, fun hzero => absurd hzero hr⟩

end

/-! ## Requesters -/

section

variable {fw : Firmware} {buf : Mem} {ram₀ ram : Ram} {l : History}

theorem receiveProof_follows {challenge : ReceiveChallenge} {writeSlot : UInt8} {pin : Bytes}
    (h : ∀ root, securityGetRootSecret fw = some root →
      SignsTransfer fw receiveMsg buf ram₀ l root challenge) :
    (receiveProof fw challenge writeSlot pin).Follows (RoleStep fw receiveMsg buf ram₀) ram l
      fun _ _ _ => True := by
  cases hroot : securityGetRootSecret fw with
  | none =>
    rw [receiveProof, hroot]
    exact reject_follows _
  | some root =>
    rw [receiveProof_eq _ hroot]
    apply Dev.Follows.ask
    · exact .proveFile (h root hroot)
    · intro l'
      exact .await _
    · intro l'
      exact reject_follows _
    · intro l' status
      exact .ends (takeResponse_keepsPin _)
    · intro cmd payload
      exact .ends (takeResponse_keepsPin _)

theorem receive_follows (pktLen : UInt16) :
    (receive fw pktLen buf).Follows (RoleStep fw receiveMsg buf ram) ram []
      fun _ _ _ => True := by
  rw [receive]
  split
  · exact reject_follows _
  apply Dev.Follows.bind (pinGate_follows (buf.read 0 pinLength))
  rintro l rc ram' ⟨hlink, hpin⟩
  split
  · exact Dev.Follows.pure trivial
  rename_i hrc
  have hpin := hpin (not_not.mp hrc)
  have hlink : l.onLink = [] := hlink
  rw [receiveRequest]
  apply Dev.Follows.nonce_bind (.device trivial)
  swap
  · intro l'
    exact reject_follows _
  intro nonce
  apply Dev.Follows.ask (k := takeChallenge fw ⟨buf 6, Codec.u32.decode nonce⟩ (buf 7)
    (buf.read 0 pinLength))
  · exact .requestFile _ rfl
  · intro l'
    exact .await _
  · intro l'
    exact reject_follows _
  · intro l' status
    exact reject_follows _
  intro cmd payload
  by_cases haccepted : ∃ challenge : ReceiveChallenge, challenge.slot = buf 6 ∧
      challenge.requesterNonce = Codec.u32.decode nonce ∧
      validatePermission fw challenge.groupId .permReceive = true ∧
      Received.packet cmd payload = .packet receiveMsg (ReceiveChallenge.codec.encode challenge)
  swap
  · obtain ⟨msg, hmsg⟩ := @takeChallenge_refuses fw (buf 7) (buf.read 0 pinLength)
      ⟨buf 6, Codec.u32.decode nonce⟩ (.packet cmd payload) fun challenge hslot hnonce hperm hr =>
        haccepted ⟨challenge, hslot, hnonce, hperm, hr⟩
    rw [hmsg]
    exact reject_follows _
  obtain ⟨challenge, hslot, hnonce, hperm, hr⟩ := haccepted
  cases hr
  rw [takeChallenge_accepts hslot hnonce hperm]
  apply receiveProof_follows
  intro root hroot
  exact
    { command := rfl
      pin := hpin
      slot := hslot
      drawn := ⟨nonce, by simp, hnonce.symm⟩
      permitted := hperm
      rootSecret := hroot
      before := by
        rw [History.onLink_gotPacket, History.onLink_sentPacket, History.onLink_drewNonce, hlink,
          hnonce]
        rfl }

theorem proveGroups_follows {challenge : InterrogateChallenge}
    (h : ∀ root, securityGetRootSecret fw = some root →
      SignsGroups fw interrogateMsg buf ram₀ l root challenge) :
    (proveGroups fw challenge).Follows (RoleStep fw interrogateMsg buf ram₀) ram l
      fun _ _ _ => True := by
  cases hroot : securityGetRootSecret fw with
  | none =>
    rw [proveGroups, hroot]
    exact reject_follows _
  | some root =>
    rw [proveGroups, hroot]
    apply Dev.Follows.ask
    · exact .proveList (h root hroot)
    · intro l'
      exact .await _
    · intro l'
      exact reject_follows _
    · intro l' status
      exact .ends (takeList_keepsPin _)
    · intro cmd payload
      exact .ends (takeList_keepsPin _)

theorem interrogate_follows (pktLen : UInt16) :
    (interrogate fw pktLen buf).Follows (RoleStep fw interrogateMsg buf ram) ram []
      fun _ _ _ => True := by
  rw [interrogate]
  split
  · exact reject_follows _
  apply Dev.Follows.bind (pinGate_follows (buf.read 0 pinLength))
  rintro l rc ram' ⟨hlink, hpin⟩
  split
  · exact Dev.Follows.pure trivial
  rename_i hrc
  have hpin := hpin (not_not.mp hrc)
  have hlink : l.onLink = [] := hlink
  rw [interrogateRequest]
  apply Dev.Follows.nonce_bind (.device trivial)
  swap
  · intro l'
    exact reject_follows _
  intro nonce
  apply Dev.Follows.ask (k := takeInterrogateChallenge fw (Codec.u32.decode nonce))
  · exact .requestList _ rfl
  · intro l'
    exact .await _
  · intro l'
    exact reject_follows _
  · intro l' status
    exact reject_follows _
  intro cmd payload
  rw [takeInterrogateChallenge]
  split
  · exact reject_follows _
  rename_i haccepted
  obtain ⟨rfl, hlen, hnonce⟩ := by simpa only [not_or, not_not] using haccepted
  apply proveGroups_follows
  intro root hroot
  exact
    { command := rfl
      pin := hpin
      drawn := ⟨nonce, by simp, hnonce.symm⟩
      rootSecret := hroot
      before := by
        rw [History.onLink_gotPacket, History.onLink_sentPacket, History.onLink_drewNonce, hlink,
          hnonce, Codec.encode_decode _ hlen]
        rfl }

end

/-! ## The listener -/

section

variable {fw : Firmware} {buf : Mem} {ram₀ ram : Ram} {l : History}

/-- What a fresh pair of nonces lets through. -/
theorem checkReplay_follows {nr nt : UInt32} {groupId : UInt16} {op : UInt8} {f : Bool → Dev Int}
    (hreplayed : (f false).Follows (RoleStep fw listenMsg buf ram₀) ram l fun _ _ _ => True)
    (hfresh : (f true).Follows (RoleStep fw listenMsg buf ram₀) (ram.remember nr nt groupId op) l
      fun _ _ _ => True) :
    (securitySecureUartCheckAndUpdateReplay nr nt groupId op >>= f).Follows
      (RoleStep fw listenMsg buf ram₀) ram l fun _ _ _ => True := by
  rw [Dev.Follows, StateT.run_bind, checkReplay_run]
  split
  · exact hreplayed
  · exact hfresh

/-- The last packet of a session. -/
theorem sendLast_follows {type : MsgType} {payload : Bytes} {msg : String}
    (h : RoleStep fw listenMsg buf ram₀ l (.send .transfer type payload)) :
    (do
      let rc ← Dev.send .transfer type payload
      if rc ≠ .ok then reject msg else listenDone : Dev Int).Follows
        (RoleStep fw listenMsg buf ram₀) ram l fun _ _ _ => True := by
  refine ⟨h, fun rc => ?_⟩
  have hcases : ∀ rc : MsgStatus, ∀ l', (if rc ≠ .ok then reject msg else listenDone).Follows
      (RoleStep fw listenMsg buf ram₀) ram l' fun _ _ _ => True := by
    intro rc l'
    split
    · exact reject_follows _
    · exact listenDone_follows
  exact hcases rc _

theorem listenRelease_follows {slot : Slot}
    (h : ∀ m contents, recordContents fw m ram.gFat slot none
        (ram.gNameTable slot).groupId.toUInt32 = some contents →
      RoleStep fw listenMsg buf ram₀ (l ++ [sawFlash m]) (.send .transfer receiveMsg
        (ReceiveResponse.codec.encode (fileResponse ram slot contents)))) :
    (listenRelease fw slot).Follows (RoleStep fw listenMsg buf ram₀) ram l fun _ _ _ => True := by
  rw [listenRelease]
  apply Dev.Follows.get_bind
  apply Dev.Follows.mapped_bind (.device trivial)
  intro m
  have hreads := @blobReadAllGroupMask_reads fw m ram slot (ram.gNameTable slot).groupId.toUInt32
    (fun _ => 0) 0
  generalize blobReadAllGroupMask fw m ram (UInt8.ofNat slot)
    (ram.gNameTable slot).groupId.toUInt32 (fun _ => 0) 0 maxContentsSize = r at hreads
  apply Dev.Follows.set_bind
  split
  · exact denyAndReject_follows _ _
  rename_i hstatus
  cases hcontents : recordContents fw m ram.gFat slot none
      (ram.gNameTable slot).groupId.toUInt32 with
  | none => exact (hstatus (hreads.fail hcontents)).elim
  | some contents =>
    obtain ⟨-, hout, hlen, hle⟩ := hreads.ok contents hcontents
    rw [if_neg (by omega), hlen, hout]
    exact sendLast_follows (h m contents hcontents)

theorem listenReceive_follows {payload : Bytes}
    (hlink : l.onLink = [gotPacket InterrogateProof.codec.size receiveMsg payload]) :
    (listenReceive fw payload).Follows (RoleStep fw listenMsg buf ram) ram l
      fun _ _ _ => True := by
  rw [listenReceive]
  split
  · exact deny_follows _
  rename_i hlen
  obtain ⟨request, rfl⟩ : ∃ request, payload = ReceiveRequest.codec.encode request :=
    ⟨_, (Codec.encode_decode _ (not_not.mp hlen)).symm⟩
  rw [Codec.decode_encode']
  apply Dev.Follows.get_bind
  cases hslot : slotOccupied ram request.slot with
  | none => exact denyAndReject_follows _ _
  | some slot =>
    apply Dev.Follows.nonce_bind (.device trivial)
    swap
    · intro l'
      exact deny_follows _
    intro nonce
    let challenge : ReceiveChallenge := ⟨request.slot, (ram.gNameTable slot).groupId,
      request.requesterNonce, Codec.u32.decode nonce⟩
    apply Dev.Follows.ask (k := takeReceiveProof fw challenge slot)
    · exact .challengeFile challenge rfl
    · intro l'
      exact .await _
    · intro l'
      exact reject_follows _
    · intro l' status
      exact deny_follows _
    intro cmd payload
    by_cases haccepted : ∃ proof, ProvesReceive fw challenge proof ∧
        Received.packet cmd payload = .packet receiveMsg (ReceiveProof.codec.encode proof)
    swap
    · rw [takeReceiveProof_refuses fun proof hproves hr => haccepted ⟨proof, hproves, hr⟩]
      exact deny_follows _
    obtain ⟨proof, hproves, hr⟩ := haccepted
    cases hr
    rw [takeReceiveProof_accepts hproves, discloseFile]
    apply checkReplay_follows
    · exact deny_follows _
    apply listenRelease_follows
    intro m contents hcontents
    apply @RoleStep.sendFile fw listenMsg buf ram _ challenge proof slot contents
    exact
      { command := rfl
        occupied := hslot
        groupId := rfl
        drawn := ⟨nonce, by simp, rfl⟩
        proves := hproves
        stored := ⟨m, by simp, hcontents⟩
        before := by
          rw [History.onLink_sawFlash, History.onLink_gotPacket, History.onLink_sentPacket,
            History.onLink_drewNonce, hlink]
          rfl }

theorem listenInterrogate_follows {payload : Bytes}
    (hlink : l.onLink = [gotPacket InterrogateProof.codec.size interrogateMsg payload]) :
    (listenInterrogate fw payload).Follows (RoleStep fw listenMsg buf ram) ram l
      fun _ _ _ => True := by
  rw [listenInterrogate]
  split
  · exact deny_follows _
  rename_i hlen
  obtain ⟨nr, rfl⟩ : ∃ nr, payload = interrogateRequestCodec.encode nr :=
    ⟨_, (Codec.encode_decode _ (not_not.mp hlen)).symm⟩
  rw [Codec.decode_encode']
  apply Dev.Follows.nonce_bind (.device trivial)
  swap
  · intro l'
    exact deny_follows _
  intro nonce
  let challenge : InterrogateChallenge := ⟨nr, Codec.u32.decode nonce⟩
  apply Dev.Follows.ask (k := takeInterrogateProof fw challenge)
  · exact .challengeList challenge rfl
  · intro l'
    exact .await _
  · intro l'
    exact Dev.Follows.pure trivial
  · intro l' status
    exact deny_follows _
  intro cmd payload
  by_cases haccepted : ∃ proof, ProvesGroups fw challenge proof ∧
      Received.packet cmd payload = .packet interrogateMsg (InterrogateProof.codec.encode proof)
  swap
  · rw [takeInterrogateProof_refuses fun proof hproves hr => haccepted ⟨proof, hproves, hr⟩]
    exact deny_follows _
  obtain ⟨proof, hproves, hr⟩ := haccepted
  cases hr
  rw [takeInterrogateProof_accepts hproves, discloseList]
  apply checkReplay_follows
  · exact deny_follows _
  apply Dev.Follows.get_bind
  rw [(ram.sameFiles_remember _ _ _ _).filteredFiles_eq]
  apply sendLast_follows
  apply @RoleStep.sendList fw listenMsg buf ram _ challenge proof
  exact
    { command := rfl
      drawn := ⟨nonce, by simp, rfl⟩
      proves := hproves
      before := by
        rw [History.onLink_gotPacket, History.onLink_sentPacket, History.onLink_drewNonce, hlink]
        rfl }

theorem listen_follows :
    (listen fw).Follows (RoleStep fw listenMsg buf ram) ram [] fun _ _ _ => True := by
  rw [listen_waits]
  refine ⟨.await _, fun r => ?_⟩
  have hcases : ∀ r : Received, (takeRequest fw r).Follows (RoleStep fw listenMsg buf ram) ram
      [⟨.recv .transfer InterrogateProof.codec.size, (r : Received)⟩] fun _ _ _ => True := by
    intro r
    cases r with
    | failed status => exact reject_follows _
    | packet cmd payload =>
      rw [takeRequest]
      split
      · rename_i hcmd
        subst hcmd
        exact listenInterrogate_follows rfl
      split
      · rename_i hcmd
        subst hcmd
        exact listenReceive_follows rfl
      · exact reject_follows _
  exact hcases r

/-! ## The nonce of a listener -/

/-- The operation is no second draw. -/
def DrawsOnce (l : History) (o : Op) : Prop := o.Draws → ∀ a ∈ l, ¬ a.1.Draws

/-- Behind its nonce, a handler does not draw. -/
theorem Dev.KeepsDrawn.follows {α : Type} {h : Dev α} (hh : h.KeepsDrawn) :
    h.Follows DrawsOnce ram l fun _ _ _ => True :=
  Prog.Follows.mono
    (Prog.Follows.of_yields (hh ram) fun _ _ _ ho hdraws => (ho.2 hdraws).elim)
    fun _ _ _ => trivial

/-- The nonce, and what comes of it. -/
theorem drawNonce_follows {msg : String} {k : Bytes → Dev Int} (hl : ∀ a ∈ l, ¬ a.1.Draws)
    (hk : ∀ nonce, (k nonce).KeepsDrawn) :
    (securityGenerateNonce 4 >>= fun nonce => match nonce with
      | none => deny msg
      | some nonce => k nonce).Follows DrawsOnce ram l fun _ _ _ => True := by
  apply Dev.Follows.nonce_bind
  · exact fun _ => hl
  · intro nonce
    exact (hk nonce).follows
  · intro l'
    exact (deny_keepsDrawn msg).follows

/-- `listen` draws one nonce at most. -/
theorem listen_drawsOnce : (listen fw).Follows DrawsOnce ram [] fun _ _ _ => True := by
  have hrecv : ∀ r : Res (.recv .transfer InterrogateProof.codec.size), ∀ a ∈
      [(⟨.recv .transfer InterrogateProof.codec.size, r⟩ : Prog.Act Res)], ¬ a.1.Draws := by
    intro r a ha
    cases List.mem_singleton.mp ha
    exact id
  rw [listen_waits]
  refine ⟨fun hdraws => hdraws.elim, fun r => ?_⟩
  have hcases : ∀ r : Received, (takeRequest fw r).Follows DrawsOnce ram
      [⟨.recv .transfer InterrogateProof.codec.size, (r : Received)⟩] fun _ _ _ => True := by
    intro r
    cases r with
    | failed status => exact (reject_keepsDrawn (by decide)).follows
    | packet cmd payload =>
      rw [takeRequest]
      split
      · rw [listenInterrogate]
        split
        · exact (deny_keepsDrawn _).follows
        · exact drawNonce_follows (hrecv _) fun nonce => challengeList_keepsDrawn _
      split
      · rw [listenReceive]
        split
        · exact (deny_keepsDrawn _).follows
        apply Dev.Follows.get_bind
        split
        · exact (denyAndReject_keepsDrawn (by decide)).follows
        · exact drawNonce_follows (hrecv _) fun nonce => challengeFile_keepsDrawn _ _
      · exact (reject_keepsDrawn (by decide)).follows
  exact hcases r

end

/-! ## The main loop -/

section

variable {fw : Firmware}

/-- A handler plays its role. -/
theorem handle_follows {cmd : MsgType} {h : Handler} (hcmd : releaseHandler cmd = some h)
    (pktLen : UInt16) (buf : Mem) (ram : Ram) :
    (handle fw h pktLen buf).Follows (RoleStep fw cmd buf ram) ram [] fun _ _ _ => True := by
  unfold releaseHandler at hcmd
  split at hcmd
  · cases hcmd
    exact .ends (list_keepsPin pktLen buf)
  split at hcmd
  · cases hcmd
    exact .ends (read_keepsPin pktLen buf)
  split at hcmd
  · cases hcmd
    exact .ends (write_keepsPin pktLen buf)
  split at hcmd
  · rename_i heq
    cases hcmd
    subst heq
    exact receive_follows pktLen
  split at hcmd
  · rename_i heq
    cases hcmd
    subst heq
    exact interrogate_follows pktLen
  split at hcmd
  · rename_i heq
    cases hcmd
    subst heq
    exact listen_follows
  · cases hcmd

/-- So does an iteration of the main loop. -/
theorem mainStep_follows (frame : HostFrame) (uartBuf : Mem) (ram : Ram) :
    (mainStep fw frame uartBuf).Follows
      (RoleStep fw frame.cmd (uartBuf.write 0 frame.body) ram) ram [] fun _ _ _ => True := by
  have hprint : ∀ cmd payload, (do
      let _ ← Dev.send .control cmd payload
      pure (uartBuf.write 0 frame.body) : Dev Mem).Follows
        (RoleStep fw frame.cmd (uartBuf.write 0 frame.body) ram) ram [] fun _ _ _ => True :=
    fun cmd payload => ⟨.device trivial, fun _ => trivial⟩
  rw [mainStep]
  apply Dev.Follows.bind (R := fun _ _ _ => True)
  swap
  · intro l' a ram' _
    exact Dev.Follows.pure trivial
  rw [dispatch]
  split
  · exact ⟨.device trivial, fun _ => trivial⟩
  split
  · rename_i h hcmd
    exact (handle_follows hcmd _ _ ram).bind fun l' a ram' _ => Dev.Follows.pure trivial
  · exact ⟨.device trivial, fun _ => trivial⟩

/-- An iteration with `listen` draws one nonce at most. -/
theorem mainStep_drawsOnce {frame : HostFrame} (hcmd : frame.cmd = listenMsg) (uartBuf : Mem)
    (ram : Ram) :
    (mainStep fw frame uartBuf).Follows DrawsOnce ram [] fun _ _ _ => True := by
  rw [mainStep]
  apply Dev.Follows.bind (R := fun _ _ _ => True)
  swap
  · intro l' a ram' _
    exact Dev.Follows.pure trivial
  rw [dispatch, hcmd]
  split
  · exact ⟨fun hdraws => hdraws.elim, fun _ => trivial⟩
  · exact listen_drawsOnce.bind fun l' a ram' _ => Dev.Follows.pure trivial

end

/-! ## Devices -/

section

variable {ι : Type}

/-- A session of a device: an iteration of the main loop for a frame of its host, from the buffer
    and the RAM on that the one before has left. -/
def deviceCode (fw : ι → Firmware) (i : ι) (frame : HostFrame) (s : Mem × Ram) :
    Prog Res (Mem × Ram) :=
  (mainStep (fw i) frame s.1).run s.2

abbrev DeviceEvent (ι : Type) := Sessions.Event ι HostFrame (Mem × Ram) Res

end
