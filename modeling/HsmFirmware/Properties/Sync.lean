-- SUMMARY: When an exchange between two devices leaves no byte on UART1: nothing is asked, or nothing is denied.
import HsmFirmware.Specs.Outcomes
import HsmFirmware.Properties.Exchange

/-!
# Ends of an exchange

Two devices start on an idle link. If one asks and the other denies, or if one of them gives
up behind the request, then bytes stay on the link when both have returned: the error packet,
or the acknowledgements that its sender does not wait for. All other exchanges leave nothing.
-/

namespace CleanIff

variable {α β γ : Type} {n : LinkNet α β} {P Q C : Prop}

theorem congr (h : CleanIff n P) (hPQ : P ↔ Q) : CleanIff n Q :=
  ⟨fun hQ => h.clean (hPQ.mpr hQ), fun hQ => h.stray fun hP => hQ (hPQ.mp hP)⟩

/-- A check that denies. -/
theorem check (hpass : C → CleanIff n Q) (hfail : ¬ C → LeavesBytes n) : CleanIff n (C ∧ Q) :=
  ⟨fun ⟨hC, hQ⟩ => (hpass hC).clean hQ, fun hn =>
    (Classical.em C).elim (fun hC => (hpass hC).stray fun hQ => hn ⟨hC, hQ⟩) hfail⟩

/-- A value that may be missing. -/
theorem lookup {o : Option γ} {R : γ → Prop} (hsome : ∀ a, o = some a → CleanIff n (R a))
    (hnone : o = none → LeavesBytes n) : CleanIff n (∃ a, o = some a ∧ R a) := by
  cases o with
  | none => exact .of_stray (fun ⟨_, ha, _⟩ => Option.some_ne_none _ ha.symm) (hnone rfl)
  | some a =>
    refine (hsome a rfl).congr ⟨fun hR => ⟨a, rfl, hR⟩, ?_⟩
    rintro ⟨a', ha, hR⟩
    obtain rfl := Option.some.inj ha
    exact hR

end CleanIff

section

variable {fw fw' : Firmware} {pktLen : UInt16} {buf : Mem} {ram ram' : Ram} {fs fs' : Faults}
  {w v : World} {writeSlot : UInt8} {pin : Bytes}

/-! ## Transfer -/

/-- The checks between a request for a file and the file: the slot is occupied, the listener
    draws a nonce, the requester may receive the group of the file and signs the challenge,
    the listener accepts the proof, has not seen its nonces, and can read the slot. -/
def GrantsFile (fw fw' : Firmware) (request : ReceiveRequest) (ram' : Ram) (v : World) : Prop :=
  ∃ slot, slotOccupied ram' request.slot = some slot ∧
  ∃ draw', v.rng v.draws = some draw' ∧
  validatePermission fw (ram'.gNameTable slot).groupId .permReceive = true ∧
  ∃ root, securityGetRootSecret fw = some root ∧
  ProvesReceive fw' (offeredChallenge ram' request slot draw')
    (signedProof fw root (offeredChallenge ram' request slot draw')) ∧
  ¬ ram'.Replayed request.requesterNonce (drawnNonce draw') (ram'.gNameTable slot).groupId
    receiveMsg ∧
  (readForTransfer fw' v.flash ram' slot).status = .ok

theorem readForTransfer_ok {m : Mem} {slot : Slot} :
    (readForTransfer fw m ram slot).status = .ok ↔
      recordContents fw m ram.gFat slot none (ram.gNameTable slot).groupId.toUInt32 ≠ none := by
  have hreads := @blobReadAllGroupMask_reads fw m ram slot
    (ram.gNameTable slot).groupId.toUInt32 (fun _ => 0) 0
  constructor
  · intro hok hnone
    exact hreads.fail hnone hok
  · intro hne
    obtain ⟨contents, hcontents⟩ := Option.ne_none_iff_exists'.mp hne
    exact (hreads.ok contents hcontents).1

/-- Behind the replay check. -/
theorem release_cleanIff {slot : Slot} :
    CleanIff (exchange (Dev.recv .transfer ReceiveResponse.codec.size >>=
        takeResponse fw writeSlot pin) ram fs w (listenRelease fw' slot) ram' fs' v)
      ((readForTransfer fw' v.flash ram' slot).status = .ok) := by
  refine .congr ?_ readForTransfer_ok.symm
  cases hread : recordContents fw' v.flash ram'.gFat slot none
      (ram'.gNameTable slot).groupId.toUInt32 with
  | none =>
    obtain ⟨ram₁, hcomes⟩ := listenRelease_unreadable fs' hread
    refine .of_stray (not_not_intro rfl) (.of_meets (Dev.Comes.meets (.refl _ _) hcomes) ?_)
    exact leavesBytes_denied ⟨fun _ => takeResponse_keepsPin _, fun _ => takeResponse_keepsPin _⟩
      (by decide) (by decide) (denyAndReject_denies _ (by decide) (by decide))
  | some contents =>
    obtain ⟨ram₁, v₁, hcomes⟩ := listenRelease_sendsFile fs' hread
    refine .of_clean (Option.some_ne_none _)
      (.of_meets (Dev.Comes.meets (.takes (by decide) (by simp)) hcomes) ?_)
    exact leavesNothing_done (takeResponse_keepsPin _) (.pure 0)

/-- Behind the challenge. -/
theorem challenge_cleanIff {request : ReceiveRequest} {slot : Slot} {draw' : Nat → UInt8} :
    CleanIff (exchange (takeChallenge fw request writeSlot pin
          (.packet receiveMsg (ReceiveChallenge.codec.encode
            (offeredChallenge ram' request slot draw')))) ram fs w
        (Dev.recv .transfer ReceiveProof.codec.size >>=
          takeReceiveProof fw' (offeredChallenge ram' request slot draw') slot) ram' fs' v)
      (validatePermission fw (ram'.gNameTable slot).groupId .permReceive = true ∧
        ∃ root, securityGetRootSecret fw = some root ∧
        ProvesReceive fw' (offeredChallenge ram' request slot draw')
          (signedProof fw root (offeredChallenge ram' request slot draw')) ∧
        ¬ ram'.Replayed request.requesterNonce (drawnNonce draw') (ram'.gNameTable slot).groupId
          receiveMsg ∧
        (readForTransfer fw' v.flash ram' slot).status = .ok) := by
  have hwaits : ∀ h : Dev Int, h.KeepsPinLocal → LeavesBytes (exchange h ram fs w
      (Dev.recv .transfer ReceiveProof.codec.size >>=
        takeReceiveProof fw' (offeredChallenge ram' request slot draw') slot) ram' fs' v) :=
    fun h hh => leavesBytes_abandoned hh (deny_denies (by decide) (by decide))
  refine .check (fun hperm => ?_) fun hperm => ?_
  swap
  · obtain ⟨msg, hmsg⟩ := @takeChallenge_refuses fw writeSlot pin request
      (.packet receiveMsg (ReceiveChallenge.codec.encode
        (offeredChallenge ram' request slot draw'))) fun challenge _ _ hp heq => by
      obtain rfl := Codec.encode_injective _ (Received.packet.inj heq).2
      exact hperm hp
    rw [hmsg]
    exact hwaits _ (reject_keeps _)
  rw [takeChallenge_accepts rfl rfl hperm]
  refine .lookup (fun root hroot => ?_) fun hroot => ?_
  swap
  · rw [receiveProof, hroot]
    exact hwaits _ (reject_keeps _)
  refine .of_meets (Dev.Comes.meets (receiveProof_sends hroot) (.takes (by decide) (by simp))) ?_
  have hdenied : ∀ {h : Dev Int} {ram₁ : Ram} {v₁ : World}, h.Denies → LeavesBytes (exchange
      (Dev.recv .transfer ReceiveResponse.codec.size >>= takeResponse fw writeSlot pin) ram fs w
      h ram₁ fs' v₁) := fun hh =>
    leavesBytes_denied ⟨fun _ => takeResponse_keepsPin _, fun _ => takeResponse_keepsPin _⟩
      (by decide) (by decide) hh
  refine .check (fun hproves => ?_) fun hproves => ?_
  swap
  · rw [takeReceiveProof_refuses fun proof hp heq => hproves (by
      obtain rfl := Codec.encode_injective _ (Received.packet.inj heq).2
      exact hp)]
    exact hdenied (deny_denies (by decide) (by decide))
  rw [takeReceiveProof_accepts hproves]
  refine .check (fun hfresh => ?_) fun hreplayed => ?_
  swap
  · exact .of_meets (Dev.Comes.meets (.refl _ _) (discloseFile_replayed (not_not.mp hreplayed)))
      (hdenied (deny_denies (by decide) (by decide)))
  refine .of_meets (Dev.Comes.meets (.refl _ _) (discloseFile_fresh hfresh)) ?_
  exact release_cleanIff.congr (by rw [readForTransfer_ok, readForTransfer_ok]; rfl)

theorem receive_cleanIff :
    CleanIff (exchange (receive fw pktLen buf) ram fs w (listen fw') ram' fs' v)
      (∀ draw, Requests fw 8 pktLen buf ram w draw →
        GrantsFile fw fw' ⟨buf 6, drawnNonce draw⟩ ram' v) := by
  by_cases hreq : ∃ draw, Requests fw 8 pktLen buf ram w draw
  swap
  · -- No request: the listener times out.
    obtain ⟨h, ram₁, fs₁, w₁, hlocal, hcomes⟩ := noncedCommand_silent
      (askChallenge fw (buf 6) (buf 7) (buf.read 0 pinLength))
      (fun draw hd => hreq ⟨draw, hd⟩) fs
    refine .of_clean (fun draw hd => (hreq ⟨draw, hd⟩).elim) ?_
    exact .of_meets (Dev.Comes.meets hcomes (.refl _ _))
      (leavesNothing_unasked hlocal (reject_keeps _))
  obtain ⟨draw, hdraw⟩ := hreq
  have hgrants : GrantsFile fw fw' ⟨buf 6, drawnNonce draw⟩ ram' v ↔
      ∀ draw, Requests fw 8 pktLen buf ram w draw →
        GrantsFile fw fw' ⟨buf 6, drawnNonce draw⟩ ram' v := by
    refine ⟨fun h draw₁ hdraw₁ => ?_, fun h => h draw hdraw⟩
    obtain rfl : draw = draw₁ := Option.some.inj (hdraw.drawn.symm.trans hdraw₁.drawn)
    exact h
  refine .congr ?_ hgrants
  obtain ⟨fs₁, w₁, hasks⟩ := receive_asks hdraw fs
  refine .of_meets (hasks.meets (listen_takes (by simp))) ?_
  rw [takeRequest_receive]
  have hdenied : ∀ {h : Dev Int} {v₁ : World}, h.Denies → LeavesBytes (exchange
      (Dev.recv .transfer ReceiveChallenge.codec.size >>= takeChallenge fw
        ⟨buf 6, drawnNonce draw⟩ (buf 7) (buf.read 0 pinLength)) (ram.setFails 0) fs₁ w₁
      h ram' fs' v₁) := fun hh =>
    leavesBytes_denied (takeChallenge_givesUp _) (by decide) (by decide) hh
  refine .lookup (fun slot hslot => ?_) fun hslot => ?_
  swap
  · exact .of_meets (Dev.Comes.meets (.refl _ _) (listenReceive_unoccupied hslot))
      (hdenied (denyAndReject_denies _ (by decide) (by decide)))
  refine .lookup (fun draw' hdraw' => ?_) fun hdraw' => ?_
  swap
  · exact .of_meets (Dev.Comes.meets (.refl _ _) (listenReceive_undrawn hslot hdraw'))
      (hdenied (deny_denies (by decide) (by decide)))
  refine .of_meets (Dev.Comes.meets (.takes (by decide) (by simp))
    (listenReceive_offers hslot hdraw')) ?_
  exact challenge_cleanIff

/-! ## Interrogation -/

/-- The checks between a request for a list and the list: the listener draws a nonce, the
    requester signs the challenge for its groups, and the listener accepts all its proofs and
    has not seen the nonces. -/
def GrantsList (fw fw' : Firmware) (requesterNonce : UInt32) (ram' : Ram) (v : World) : Prop :=
  ∃ draw', v.rng v.draws = some draw' ∧
  ∃ root, securityGetRootSecret fw = some root ∧
  ProvesGroups fw' ⟨requesterNonce, drawnNonce draw'⟩
    (interrogateProof ⟨requesterNonce, drawnNonce draw'⟩
      (interrogateGroupProofs fw root ⟨requesterNonce, drawnNonce draw'⟩)) ∧
  ¬ ram'.Replayed requesterNonce (drawnNonce draw') 0 interrogateMsg

/-- Behind the challenge. -/
theorem proveGroups_cleanIff {challenge : InterrogateChallenge} :
    CleanIff (exchange (proveGroups fw challenge) ram fs w
        (Dev.recv .transfer InterrogateProof.codec.size >>= takeInterrogateProof fw' challenge)
        ram' fs' v)
      (∃ root, securityGetRootSecret fw = some root ∧
        ProvesGroups fw' challenge
          (interrogateProof challenge (interrogateGroupProofs fw root challenge)) ∧
        ¬ ram'.Replayed challenge.requesterNonce challenge.targetNonce 0 interrogateMsg) := by
  refine .lookup (fun root hroot => ?_) fun hroot => ?_
  swap
  · rw [proveGroups, hroot]
    exact leavesBytes_abandoned (reject_keeps _) (deny_denies (by decide) (by decide))
  refine .of_meets (Dev.Comes.meets (proveGroups_sends hroot) (.takes (by decide) (by simp))) ?_
  have hdenied : ∀ {h : Dev Int} {v₁ : World}, h.Denies → LeavesBytes (exchange
      (Dev.recv .transfer listResponseSize >>= takeList) ram fs w h ram' fs' v₁) := fun hh =>
    leavesBytes_denied ⟨fun _ => takeList_keepsPin _, fun _ => takeList_keepsPin _⟩
      (by decide) (by decide) hh
  refine .check (fun hproves => ?_) fun hproves => ?_
  swap
  · rw [takeInterrogateProof_refuses fun proof hp heq => hproves (by
      obtain rfl := Codec.encode_injective _ (Received.packet.inj heq).2
      exact hp)]
    exact hdenied (deny_denies (by decide) (by decide))
  rw [takeInterrogateProof_accepts hproves]
  by_cases hreplayed : ram'.Replayed challenge.requesterNonce challenge.targetNonce 0 interrogateMsg
  · refine .of_stray (not_not_intro hreplayed) ?_
    exact .of_meets (Dev.Comes.meets (.refl _ _) (discloseList_replayed hreplayed))
      (hdenied (deny_denies (by decide) (by decide)))
  · refine .of_clean hreplayed ?_
    refine .of_meets (Dev.Comes.meets (.takes (by decide) (length_listResponse_le _ _))
      (discloseList_sends hreplayed)) ?_
    exact leavesNothing_done (takeList_keepsPin _) ((send_keeps _ _).bind fun _ => .pure _)

theorem interrogate_cleanIff :
    CleanIff (exchange (interrogate fw pktLen buf) ram fs w (listen fw') ram' fs' v)
      (∀ draw, Requests fw 6 pktLen buf ram w draw →
        GrantsList fw fw' (drawnNonce draw) ram' v) := by
  by_cases hreq : ∃ draw, Requests fw 6 pktLen buf ram w draw
  swap
  · obtain ⟨h, ram₁, fs₁, w₁, hlocal, hcomes⟩ := noncedCommand_silent
      (askInterrogateChallenge fw) (fun draw hd => hreq ⟨draw, hd⟩) fs
    refine .of_clean (fun draw hd => (hreq ⟨draw, hd⟩).elim) ?_
    exact .of_meets (Dev.Comes.meets hcomes (.refl _ _))
      (leavesNothing_unasked hlocal (reject_keeps _))
  obtain ⟨draw, hdraw⟩ := hreq
  have hgrants : GrantsList fw fw' (drawnNonce draw) ram' v ↔
      ∀ draw, Requests fw 6 pktLen buf ram w draw →
        GrantsList fw fw' (drawnNonce draw) ram' v := by
    refine ⟨fun h draw₁ hdraw₁ => ?_, fun h => h draw hdraw⟩
    obtain rfl : draw = draw₁ := Option.some.inj (hdraw.drawn.symm.trans hdraw₁.drawn)
    exact h
  refine .congr ?_ hgrants
  obtain ⟨fs₁, w₁, hasks⟩ := interrogate_asks hdraw fs
  refine .of_meets (hasks.meets (listen_takes (by simp [interrogateRequestCodec]))) ?_
  rw [takeRequest_interrogate]
  refine .lookup (fun draw' hdraw' => ?_) fun hdraw' => ?_
  swap
  · refine .of_meets (Dev.Comes.meets (.refl _ _) (listenInterrogate_undrawn hdraw')) ?_
    exact leavesBytes_denied (takeInterrogateChallenge_givesUp _) (by decide) (by decide)
      (deny_denies (by decide) (by decide))
  refine .of_meets (Dev.Comes.meets (.takes (by decide) (by simp))
    (listenInterrogate_offers hdraw')) ?_
  have haccepts := takeInterrogateChallenge_accepts fw ⟨drawnNonce draw, drawnNonce draw'⟩
  rw [haccepts]
  exact proveGroups_cleanIff

/-! ## Both -/

/-- An exchange leaves UART1 in sync just when no request is sent or none of the checks behind
    the request denies it. -/
theorem exchange_inSync_iff (fw fw' : Firmware) (pktLen : UInt16) (buf : Mem) (ram ram' : Ram)
    (fs fs' : Faults) (w v : World) :
    (InSync (exchange (receive fw pktLen buf) ram fs w (listen fw') ram' fs' v) ↔
      ∀ draw, Requests fw 8 pktLen buf ram w draw →
        GrantsFile fw fw' ⟨buf 6, drawnNonce draw⟩ ram' v) ∧
    (InSync (exchange (interrogate fw pktLen buf) ram fs w (listen fw') ram' fs' v) ↔
      ∀ draw, Requests fw 6 pktLen buf ram w draw →
        GrantsList fw fw' (drawnNonce draw) ram' v) :=
  ⟨receive_cleanIff.inSync_iff, interrogate_cleanIff.inSync_iff⟩

end

/-- A device that asks another one for a file it does not have. -/
theorem exchange_inSync_fails :
    ¬ InSync (exchange (receive .sample 8 (sampleReceive 0 1)) .sample [] .sample
      (listen .sample) .sample [] .sample) := by
  have hpin : (sampleReceive 0 1).read 0 pinLength = ascii "a1b2c3" := by decide
  intro hsync
  have hreq : Requests .sample 8 8 (sampleReceive 0 1) .sample .sample fun _ => 0 := by
    refine ⟨by decide, ?_, rfl⟩
    rw [hpin]
    exact Ram.sample_pinCorrect
  obtain ⟨slot, hslot, -⟩ := receive_cleanIff.inSync_iff.mp hsync _ hreq
  cases hslot
