-- SUMMARY: receive, interrogate and listen from one packet to the next, up to every point where something is denied.
import HsmFirmware.Specs.Denial
import HsmFirmware.Specs.Exchange

/-!
# Exchanges step by step

Between two packets each side makes its checks. A check that fails ends the command on one
side, and with or without an error packet to the other.
-/

section

variable {fw : Firmware} {pktLen minLen : UInt16} {buf : Mem} {ram ram' : Ram} {fs : Faults}
  {w : World} {draw : Nat → UInt8} {writeSlot : UInt8} {pin : Bytes} {root : Key}

/-! ## Requests -/

/-- What a command checks before it sends a request. -/
structure Requests (fw : Firmware) (minLen pktLen : UInt16) (buf : Mem) (ram : Ram) (w : World)
    (draw : Nat → UInt8) : Prop where
  length : ¬ pktLen < minLen
  pin : PinCorrect fw ram (buf.read 0 pinLength)
  drawn : w.rng w.draws = some draw

/-- A command that checks the length of its packet and the PIN, then draws a nonce. -/
def noncedCommand (fw : Firmware) (minLen pktLen : UInt16) (buf : Mem) (body : Bytes → Dev Int) :
    Dev Int :=
  if pktLen < minLen then reject "Packet too short\n" else do
  if (← pinGate fw (buf.read 0 pinLength)) ≠ 0 then pure (-1) else do
  match ← securityGenerateNonce 4 with
  | none => reject "Nonce generation failed\n"
  | some nonce => body nonce

theorem noncedCommand_comes (body : Bytes → Dev Int) (hreq : Requests fw minLen pktLen buf ram w draw) (fs : Faults) :
    ∃ fs₁ w₁, ∀ {es : List LinkEvent} {q : Prog Res (Int × Ram)} {u : World},
      (body ((List.range 4).map draw)).Comes (ram.setFails 0) fs₁ w₁ es q u →
      (noncedCommand fw minLen pktLen buf body).Comes ram fs w es q u := by
  obtain ⟨rc, ram₁, w₁, L, fs₁, hexec, hnext⟩ := @Dev.Comes.bind_local _ Int _ _ _
    (@pinGate_keepsPin fw (buf.read 0 pinLength)) ram fs w
  have hend := @pinGate_ending fw (buf.read 0 pinLength) fs.schedule ram w
  rw [hexec] at hend
  generalize fs₁.schedule = rest at hend
  cases hend with
  | refused h => exact (h hreq.pin).elim
  | @passed k h =>
    refine ⟨fs₁, (w.after ((gateOps ram).take k)).drawn, fun hbody => ?_⟩
    rw [noncedCommand, if_neg hreq.length]
    refine hnext ?_
    rw [if_neg (not_not_intro rfl)]
    exact .generateNonce_bind hreq.drawn hbody

/-- A command that does not get to its request does nothing on UART1. -/
theorem noncedCommand_silent (body : Bytes → Dev Int)
    (hreq : ∀ draw, ¬ Requests fw minLen pktLen buf ram w draw) (fs : Faults) :
    ∃ (h : Dev Int) (ram₁ : Ram) (fs₁ : Faults) (w₁ : World), h.KeepsPinLocal ∧
      (noncedCommand fw minLen pktLen buf body).Comes ram fs w [] (h.under ram₁ fs₁) w₁ := by
  rw [noncedCommand]
  by_cases hlen : pktLen < minLen
  · rw [if_pos hlen]
    exact ⟨_, ram, fs, w, reject_keeps _, .refl _ _⟩
  rw [if_neg hlen]
  obtain ⟨rc, ram₁, w₁, L, fs₁, hexec, hnext⟩ := @Dev.Comes.bind_local _ Int _ _ _
    (@pinGate_keepsPin fw (buf.read 0 pinLength)) ram fs w
  have hend := @pinGate_ending fw (buf.read 0 pinLength) fs.schedule ram w
  rw [hexec] at hend
  generalize fs₁.schedule = rest at hend
  cases hend with
  | @refused count _ _ h =>
    refine ⟨pure (-1), ram.setFails count, fs₁,
      (w.after L).answered (errorPacket "Invalid pin\n"), .pure _, hnext ?_⟩
    rw [if_pos (by decide)]
    exact .refl _ _
  | @passed k h =>
    have hdraw : w.rng w.draws = none := by
      apply Option.eq_none_iff_forall_ne_some.mpr
      intro draw hdraw
      exact hreq draw ⟨hlen, h, hdraw⟩
    refine ⟨reject "Nonce generation failed\n", ram.setFails 0, fs₁,
      (w.after ((gateOps ram).take k)).drawn, reject_keeps _, hnext ?_⟩
    rw [if_neg (not_not_intro rfl)]
    exact .generateNonce_none hdraw (.refl _ _)

/-! ## The requester of a file -/

/-- `receive` from its nonce on. -/
def askChallenge (fw : Firmware) (readSlot writeSlot : UInt8) (pin nonce : Bytes) : Dev Int := do
  let request : ReceiveRequest := ⟨readSlot, Codec.u32.decode nonce⟩
  let rc ← Dev.send .transfer receiveMsg (ReceiveRequest.codec.encode request)
  if rc ≠ .ok then reject "No response from target HSM\n" else
  Dev.recv .transfer ReceiveChallenge.codec.size >>= takeChallenge fw request writeSlot pin

theorem receive_eq (fw : Firmware) (pktLen : UInt16) (buf : Mem) :
    receive fw pktLen buf =
      noncedCommand fw 8 pktLen buf (askChallenge fw (buf 6) (buf 7) (buf.read 0 pinLength)) := rfl

theorem receive_asks (hreq : Requests fw 8 pktLen buf ram w draw) (fs : Faults) :
    ∃ fs₁ w₁, (receive fw pktLen buf).Comes ram fs w
      [.sent receiveMsg (ReceiveRequest.codec.encode ⟨buf 6, drawnNonce draw⟩)]
      ((Dev.recv .transfer ReceiveChallenge.codec.size >>= takeChallenge fw
        ⟨buf 6, drawnNonce draw⟩ (buf 7) (buf.read 0 pinLength)).under (ram.setFails 0) fs₁) w₁ := by
  obtain ⟨fs₁, w₁, hcomes⟩ := noncedCommand_comes
    (askChallenge fw (buf 6) (buf 7) (buf.read 0 pinLength)) hreq fs
  refine ⟨fs₁, w₁, ?_⟩
  rw [receive_eq]
  apply hcomes
  refine .send_bind rfl (by simp) ?_
  rw [if_neg (not_not_intro rfl)]
  exact .refl _ _

theorem takeChallenge_givesUp (request : ReceiveRequest) :
    GivesUp (takeChallenge fw request writeSlot pin) where
  failed _ := reject_keeps _
  error payload := by
    rw [takeChallenge, if_pos rfl]
    exact reject_keeps _

theorem receiveProof_sends {challenge : ReceiveChallenge}
    (hroot : securityGetRootSecret fw = some root) :
    (receiveProof fw challenge writeSlot pin).Comes ram fs w
      [.sent receiveMsg (ReceiveProof.codec.encode (signedProof fw root challenge))]
      ((Dev.recv .transfer ReceiveResponse.codec.size >>= takeResponse fw writeSlot pin).under
        ram fs) w := by
  rw [receiveProof_eq _ hroot]
  refine .send_bind rfl (by simp) ?_
  rw [if_neg (not_not_intro rfl)]
  exact .refl _ _

theorem takeResponse_keepsPin (r : Received) : (takeResponse fw writeSlot pin r).KeepsPinLocal := by
  cases r with
  | failed status => exact reject_keeps _
  | packet cmd payload =>
    rw [takeResponse]
    split
    · exact reject_keeps _
    split
    · exact reject_keeps _
    refine (storeReceivedBlob_keepsPin _ _ _ _).bind fun rc => ?_
    split
    · exact .pure _
    · exact (send_keeps _ _).bind fun _ => .pure _

/-! ## The requester of a list -/

/-- What `interrogate` does with the list. -/
def takeList : Received → Dev Int
  | .failed _ => reject "No response from target HSM\n"
  | .packet cmd payload =>
    if cmd ≠ interrogateMsg ∨ listResponseSize < payload.length then
      reject "Opcode mismatch\n"
    else do
      let rc ← Dev.send .control interrogateMsg payload
      pure rc.toInt

/-- `interrogate` from the challenge on. -/
def proveGroups (fw : Firmware) (challenge : InterrogateChallenge) : Dev Int :=
  match securityGetRootSecret fw with
  | none => reject "Crypto error\n"
  | some root => do
    let proof := interrogateProof challenge (interrogateGroupProofs fw root challenge)
    let rc ← Dev.send .transfer interrogateMsg (InterrogateProof.codec.encode proof)
    if rc ≠ .ok then reject "No response from target HSM\n" else
    Dev.recv .transfer listResponseSize >>= takeList

/-- What `interrogate` does with the answer to its request. -/
def takeInterrogateChallenge (fw : Firmware) (requesterNonce : UInt32) : Received → Dev Int
  | .failed _ => reject "No response from target HSM\n"
  | .packet cmd payload =>
    let challenge := InterrogateChallenge.codec.decode payload
    if cmd ≠ interrogateMsg ∨ payload.length ≠ InterrogateChallenge.codec.size ∨
        challenge.requesterNonce ≠ requesterNonce then
      reject "Opcode mismatch\n"
    else proveGroups fw challenge

/-- `interrogate` from its nonce on. -/
def askInterrogateChallenge (fw : Firmware) (nonce : Bytes) : Dev Int := do
  let requesterNonce := Codec.u32.decode nonce
  let rc ← Dev.send .transfer interrogateMsg (interrogateRequestCodec.encode requesterNonce)
  if rc ≠ .ok then reject "No response from target HSM\n" else
  Dev.recv .transfer InterrogateChallenge.codec.size >>= takeInterrogateChallenge fw requesterNonce

theorem interrogate_eq (fw : Firmware) (pktLen : UInt16) (buf : Mem) :
    interrogate fw pktLen buf = noncedCommand fw 6 pktLen buf (askInterrogateChallenge fw) := rfl

theorem interrogate_asks (hreq : Requests fw 6 pktLen buf ram w draw) (fs : Faults) :
    ∃ fs₁ w₁, (interrogate fw pktLen buf).Comes ram fs w
      [.sent interrogateMsg (interrogateRequestCodec.encode (drawnNonce draw))]
      ((Dev.recv .transfer InterrogateChallenge.codec.size >>=
        takeInterrogateChallenge fw (drawnNonce draw)).under (ram.setFails 0) fs₁) w₁ := by
  obtain ⟨fs₁, w₁, hcomes⟩ := noncedCommand_comes (askInterrogateChallenge fw) hreq fs
  refine ⟨fs₁, w₁, ?_⟩
  rw [interrogate_eq]
  apply hcomes
  refine .send_bind rfl (by simp [interrogateRequestCodec]) ?_
  rw [if_neg (not_not_intro rfl)]
  exact .refl _ _

theorem takeInterrogateChallenge_givesUp (requesterNonce : UInt32) :
    GivesUp (takeInterrogateChallenge fw requesterNonce) where
  failed _ := reject_keeps _
  error payload := by
    rw [takeInterrogateChallenge, if_pos (.inl (by decide))]
    exact reject_keeps _

theorem takeInterrogateChallenge_accepts (fw : Firmware) (challenge : InterrogateChallenge) :
    takeInterrogateChallenge fw challenge.requesterNonce
      (.packet interrogateMsg (InterrogateChallenge.codec.encode challenge)) =
        proveGroups fw challenge := by
  simp only [takeInterrogateChallenge, Codec.decode_encode']
  rw [if_neg (by simp)]

theorem proveGroups_sends {challenge : InterrogateChallenge}
    (hroot : securityGetRootSecret fw = some root) :
    (proveGroups fw challenge).Comes ram fs w
      [.sent interrogateMsg (InterrogateProof.codec.encode
        (interrogateProof challenge (interrogateGroupProofs fw root challenge)))]
      ((Dev.recv .transfer listResponseSize >>= takeList).under ram fs) w := by
  rw [proveGroups, hroot]
  refine .send_bind rfl (by simp) ?_
  rw [if_neg (not_not_intro rfl)]
  exact .refl _ _

theorem takeList_keepsPin (r : Received) : (takeList r).KeepsPinLocal := by
  cases r with
  | failed status => exact reject_keeps _
  | packet cmd payload =>
    rw [takeList]
    split
    · exact reject_keeps _
    · exact (send_keeps _ _).bind fun _ => .pure _

/-! ## The listener -/

theorem listen_waits (fw : Firmware) :
    listen fw = (Dev.recv .transfer InterrogateProof.codec.size >>= takeRequest fw) := rfl

/-- The same devices, with a request on the way. -/
theorem listen_takes {type : MsgType} {payload : Bytes} (h : payload.length ≤ 281) :
    (listen fw).Comes ram fs w [.got type payload]
      ((takeRequest fw (.packet type payload)).under ram fs) w := by
  rw [listen_waits]
  exact .takes (by decide) h

section

variable {request : ReceiveRequest} {slot : Slot}

theorem takeRequest_receive (request : ReceiveRequest) :
    takeRequest fw (.packet receiveMsg (ReceiveRequest.codec.encode request)) =
      listenReceive fw (ReceiveRequest.codec.encode request) := by
  rw [takeRequest, if_neg (by decide), if_pos rfl]

/-- There is no such file. -/
theorem listenReceive_unoccupied (hslot : slotOccupied ram request.slot = none) :
    (listenReceive fw (ReceiveRequest.codec.encode request)).Comes ram fs w []
      ((denyAndReject "Could not import file" "File not found\n").under ram fs) w := by
  rw [listenReceive, if_neg (by simp), Codec.decode_encode']
  refine .get_bind ?_
  rw [hslot]
  exact .refl _ _

theorem listenReceive_undrawn (hslot : slotOccupied ram request.slot = some slot)
    (hdraw : w.rng w.draws = none) :
    (listenReceive fw (ReceiveRequest.codec.encode request)).Comes ram fs w []
      ((deny "Could not import file").under ram fs) w.drawn := by
  rw [listenReceive, if_neg (by simp), Codec.decode_encode']
  refine .get_bind ?_
  rw [hslot]
  exact .generateNonce_none hdraw (.refl _ _)

theorem listenReceive_offers (hslot : slotOccupied ram request.slot = some slot)
    (hdraw : w.rng w.draws = some draw) :
    (listenReceive fw (ReceiveRequest.codec.encode request)).Comes ram fs w
      [.sent receiveMsg (ReceiveChallenge.codec.encode (offeredChallenge ram request slot draw))]
      ((Dev.recv .transfer ReceiveProof.codec.size >>=
        takeReceiveProof fw (offeredChallenge ram request slot draw) slot).under ram fs)
      w.drawn := by
  rw [listenReceive, if_neg (by simp), Codec.decode_encode']
  refine .get_bind ?_
  rw [hslot]
  refine .generateNonce_bind hdraw ?_
  refine .send_bind rfl (by simp) ?_
  rw [if_neg (not_not_intro rfl)]
  exact .refl _ _

end

section

variable {nr nt : UInt32} {groupId : UInt16} {op : UInt8} {f : Bool → Dev Int}
  {es : List LinkEvent} {q : Prog Res (Int × Ram)} {u : World}

theorem checkReplay_replayed (h : ram.Replayed nr nt groupId op)
    (hf : (f false).Comes ram fs w es q u) :
    (securitySecureUartCheckAndUpdateReplay nr nt groupId op >>= f).Comes ram fs w es q u := by
  rw [Dev.Comes, Dev.under, StateT.run_bind, checkReplay_run, if_pos h]
  exact hf

theorem checkReplay_fresh (h : ¬ ram.Replayed nr nt groupId op)
    (hf : (f true).Comes (ram.remember nr nt groupId op) fs w es q u) :
    (securitySecureUartCheckAndUpdateReplay nr nt groupId op >>= f).Comes ram fs w es q u := by
  rw [Dev.Comes, Dev.under, StateT.run_bind, checkReplay_run, if_neg h]
  exact hf

end

section

variable {challenge : ReceiveChallenge} {slot : Slot}

theorem discloseFile_replayed (h : ram.Replayed challenge.requesterNonce challenge.targetNonce
    challenge.groupId receiveMsg) :
    (discloseFile fw challenge slot).Comes ram fs w []
      ((deny "Could not import file").under ram fs) w :=
  checkReplay_replayed h (.refl _ _)

theorem discloseFile_fresh (h : ¬ ram.Replayed challenge.requesterNonce challenge.targetNonce
    challenge.groupId receiveMsg) :
    (discloseFile fw challenge slot).Comes ram fs w []
      ((listenRelease fw slot).under (ram.remember challenge.requesterNonce challenge.targetNonce
        challenge.groupId receiveMsg) fs) w :=
  checkReplay_fresh h (.refl _ _)

/-- The record of the slot cannot be read. -/
theorem listenRelease_unreadable (fs : Faults) (hread : recordContents fw w.flash ram.gFat slot none
    (ram.gNameTable slot).groupId.toUInt32 = none) :
    ∃ ram', (listenRelease fw slot).Comes ram fs w []
      ((denyAndReject "Could not import file" "Failed to read file\n").under ram' fs) w := by
  have hreads := @blobReadAllGroupMask_reads fw w.flash ram slot
    (ram.gNameTable slot).groupId.toUInt32 (fun _ => 0) 0
  generalize hr : blobReadAllGroupMask fw w.flash ram (UInt8.ofNat slot)
    (ram.gNameTable slot).groupId.toUInt32 (fun _ => 0) 0 maxContentsSize = r at hreads
  refine ⟨r.ram, .get_bind (.mapped_bind ?_)⟩
  rw [hr]
  refine .set_bind ?_
  rw [if_pos (hreads.fail hread)]
  exact .refl _ _

theorem listenRelease_sendsFile {contents : Bytes} (fs : Faults) (hread : recordContents fw w.flash
    ram.gFat slot none (ram.gNameTable slot).groupId.toUInt32 = some contents) :
    ∃ ram' w', (listenRelease fw slot).Comes ram fs w
      [.sent receiveMsg (ReceiveResponse.codec.encode (fileResponse ram slot contents))]
      ((pure 0 : Dev Int).under ram' fs) w' := by
  obtain ⟨ram', -, hsays⟩ := @listenRelease_talks fw ram w slot contents hread
  exact ⟨ram', _, hsays.comes (listenRelease_keepsDrawn slot).keepsFiles fs⟩

end

section

variable {nr : UInt32}

theorem takeRequest_interrogate (nr : UInt32) :
    takeRequest fw (.packet interrogateMsg (interrogateRequestCodec.encode nr)) =
      listenInterrogate fw (interrogateRequestCodec.encode nr) := by
  rw [takeRequest, if_pos rfl]

theorem listenInterrogate_undrawn (hdraw : w.rng w.draws = none) :
    (listenInterrogate fw (interrogateRequestCodec.encode nr)).Comes ram fs w []
      ((deny "Interrogate denied").under ram fs) w.drawn := by
  rw [listenInterrogate, if_neg (by simp)]
  exact .generateNonce_none hdraw (.refl _ _)

theorem listenInterrogate_offers (hdraw : w.rng w.draws = some draw) :
    (listenInterrogate fw (interrogateRequestCodec.encode nr)).Comes ram fs w
      [.sent interrogateMsg (InterrogateChallenge.codec.encode ⟨nr, drawnNonce draw⟩)]
      ((Dev.recv .transfer InterrogateProof.codec.size >>=
        takeInterrogateProof fw ⟨nr, drawnNonce draw⟩).under ram fs) w.drawn := by
  rw [listenInterrogate, if_neg (by simp), Codec.decode_encode']
  refine .generateNonce_bind hdraw ?_
  refine .send_bind rfl (by simp) ?_
  rw [if_neg (not_not_intro rfl)]
  exact .refl _ _

variable {challenge : InterrogateChallenge} {groups : List UInt16}

theorem discloseList_replayed
    (h : ram.Replayed challenge.requesterNonce challenge.targetNonce 0 interrogateMsg) :
    (discloseList challenge groups).Comes ram fs w []
      ((deny "Interrogate denied").under ram fs) w :=
  checkReplay_replayed h (.refl _ _)

theorem discloseList_sends
    (h : ¬ ram.Replayed challenge.requesterNonce challenge.targetNonce 0 interrogateMsg) :
    (discloseList challenge groups).Comes ram fs w
      [.sent interrogateMsg (listResponse (filteredFiles ram groups))]
      (listenDone.under (ram.remember challenge.requesterNonce challenge.targetNonce 0
        interrogateMsg) fs) w := by
  refine checkReplay_fresh h ?_
  rw [if_neg (by simp)]
  refine .get_bind ?_
  rw [(ram.sameFiles_remember _ _ _ _).filteredFiles_eq]
  refine .send_bind rfl (lt_of_le_of_lt (length_listResponse_le _ _) (by decide)) ?_
  rw [if_neg (not_not_intro rfl)]
  exact .refl _ _

end

end
