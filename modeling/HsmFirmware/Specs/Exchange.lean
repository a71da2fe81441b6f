-- SUMMARY: The runs of receive, interrogate and listen with an honest peer, packet by packet.
import HsmFirmware.Specs.Dialogue
import HsmFirmware.Specs.Receive

/-!
# Honest exchanges

What each side of a transfer sends and takes when the other side is a device of the same
build: the events of one side are those of the other, seen from there.
-/

/-! ## Interrogation -/

/-- The packets of an interrogation, as the interrogator sees them. -/
def interrogateEvents (challenge : InterrogateChallenge) (proof : InterrogateProof)
    (list : Bytes) : List LinkEvent :=
  [.sent interrogateMsg (interrogateRequestCodec.encode challenge.requesterNonce),
    .got interrogateMsg (InterrogateChallenge.codec.encode challenge),
    .sent interrogateMsg (InterrogateProof.codec.encode proof),
    .got interrogateMsg list]

section

variable {fw : Firmware} {pktLen : UInt16} {buf : Mem} {ram : Ram} {w : World} {root : Key}
  {draw : Nat → UInt8}

theorem interrogate_talks {challenge : InterrogateChallenge} {list : Bytes}
    (hlen : ¬ pktLen < 6) (hpin : PinCorrect fw ram (buf.read 0 pinLength))
    (hdraw : w.rng w.draws = some draw) (hroot : securityGetRootSecret fw = some root)
    (hnonce : challenge.requesterNonce = drawnNonce draw)
    (hlist : list.length ≤ listResponseSize) :
    (interrogate fw pktLen buf).Says ram w
      (interrogateEvents challenge
        (interrogateProof challenge (interrogateGroupProofs fw root challenge)) list)
      (w.acks.headD .ok).toInt (ram.setFails 0)
      ((w.after (gateOps ram)).drawn.answered ⟨.control, interrogateMsg, list⟩) := by
  rw [interrogate, if_neg hlen]
  refine gated_talks hpin ?_
  refine .bind_local (generateNonce_talks (w := w.after (gateOps ram)) hdraw 3 _) ?_
  rw [interrogateEvents, hnonce]
  refine .send_bind rfl (by simp [interrogateRequestCodec]) ?_
  rw [if_neg (not_not_intro rfl)]
  refine .recv_bind (by decide) (by simp) ?_
  dsimp only
  rw [Codec.decode_encode', if_neg (by simp [hnonce, drawnNonce]), hroot]
  refine .send_bind rfl (by simp) ?_
  rw [if_neg (not_not_intro rfl)]
  refine .recv_bind (by decide) hlist ?_
  dsimp only
  rw [if_neg (by simpa using hlist)]
  exact .bind_local (send_talks interrogateMsg list _ _) (.pure _ _ _)

/-- Nonces the target has not seen pass the replay check. -/
theorem checkReplay_talks {nr nt : UInt32} {groupId : UInt16} {op : UInt8}
    (h : ¬ ram.Replayed nr nt groupId op) (w : World) :
    (securitySecureUartCheckAndUpdateReplay nr nt groupId op).Says ram w [] true
      (ram.remember nr nt groupId op) w := by
  refine .of_runs (g := fun _ => ()) (L := []) ?_ ?_
  · refine Dev.Keeps.get.bind fun ram => ?_
    split
    · exact .pure _
    · exact (Dev.Keeps.modify fun _ => by rfl).bind fun _ => .pure _
  · exact (exec_checkReplay nr nt groupId op [] ram w).trans (if_neg h)

theorem listen_lists_talks {challenge : InterrogateChallenge} {proof : InterrogateProof}
    (hdraw : w.rng w.draws = some draw) (hnonce : challenge.targetNonce = drawnNonce draw)
    (hproves : ProvesGroups fw challenge proof)
    (hfresh : ¬ ram.Replayed challenge.requesterNonce challenge.targetNonce 0 interrogateMsg) :
    (listen fw).Says ram w
      ((interrogateEvents challenge proof
        (listResponse (filteredFiles ram (proof.groups.map (·.groupId))))).map LinkEvent.dual)
      0 (ram.remember challenge.requesterNonce challenge.targetNonce 0 interrogateMsg)
      (w.drawn.answered ⟨.control, listenMsg, []⟩) := by
  obtain ⟨nr, nt⟩ := challenge
  obtain rfl : nt = drawnNonce draw := hnonce
  show (Dev.recv .transfer InterrogateProof.codec.size >>= takeRequest fw).Says _ _ _ _ _ _
  refine .recv_bind (by decide) (by simp [interrogateRequestCodec]) ?_
  rw [takeRequest, if_pos rfl, listenInterrogate, if_neg (by simp), Codec.decode_encode']
  refine .bind_local (generateNonce_talks hdraw 3 ram) ?_
  refine .send_bind rfl (by simp) ?_
  rw [if_neg (not_not_intro rfl)]
  refine .recv_bind (by decide) (by simp) ?_
  show (takeInterrogateProof fw ⟨nr, drawnNonce draw⟩ (.packet _ _)).Says _ _ _ _ _ _
  rw [takeInterrogateProof_accepts hproves, discloseList]
  refine .bind_local (checkReplay_talks hfresh _) ?_
  rw [if_neg (by simp)]
  refine .get_bind ?_
  rw [(ram.sameFiles_remember _ _ _ _).filteredFiles_eq]
  refine .send_bind rfl (lt_of_le_of_lt (length_listResponse_le _ _) (by decide)) ?_
  rw [if_neg (not_not_intro rfl)]
  exact .bind_local (send_talks listenMsg [] _ _) (.pure _ _ _)

/-! ## Transfer -/

/-- The packets of a transfer, as the receiver sees them. -/
def receiveEvents (challenge : ReceiveChallenge) (proof : ReceiveProof) (resp : ReceiveResponse) :
    List LinkEvent :=
  [.sent receiveMsg (ReceiveRequest.codec.encode ⟨challenge.slot, challenge.requesterNonce⟩),
    .got receiveMsg (ReceiveChallenge.codec.encode challenge),
    .sent receiveMsg (ReceiveProof.codec.encode proof),
    .got receiveMsg (ReceiveResponse.codec.encode resp)]

/-- The store of the file in a response. -/
def responseStore (resp : ReceiveResponse) (writeSlot : UInt8) (pin : Bytes) : StoreCommand :=
  .byReceive writeSlot resp.uuid resp.file pin

theorem receive_talks {challenge : ReceiveChallenge} {resp : ReceiveResponse} {slot : Slot}
    {r : BlobRecord} (hgcm : fw.prim.GcmLaws) (hlen : ¬ pktLen < 8)
    (hpin : PinCorrect fw ram (buf.read 0 pinLength)) (hdraw : w.rng w.draws = some draw)
    (hroot : securityGetRootSecret fw = some root) (hslot : challenge.slot = buf 6)
    (hnonce : challenge.requesterNonce = drawnNonce draw)
    (hperm : validatePermission fw challenge.groupId .permReceive = true)
    (haccepted : (responseStore resp (buf 7) (buf.read 0 pinLength)).Accepted fw)
    (hwrite : slotIsValid (buf 7) = some slot)
    (hsetup : (responseStore resp (buf 7) (buf.read 0 pinLength)).setup fw slot ram.gPinHash
      w.drawn = some r) :
    (receive fw pktLen buf).Says ram w (receiveEvents challenge (signedProof fw root challenge) resp)
      0 ((responseStore resp (buf 7) (buf.read 0 pinLength)).storedRam (ram.setFails 0) r)
      (((responseStore resp (buf 7) (buf.read 0 pinLength)).storedWorld fw (ram.setFails 0)
        (w.after (gateOps ram)).drawn r).answered ⟨.control, receiveMsg, []⟩) := by
  rw [receive, if_neg hlen]
  refine gated_talks hpin ?_
  refine .bind_local (generateNonce_talks (w := w.after (gateOps ram)) hdraw 3 _) ?_
  rw [receiveEvents, hnonce, hslot]
  refine .send_bind rfl (by simp) ?_
  rw [if_neg (not_not_intro rfl)]
  refine .recv_bind (by decide) (by simp) ?_
  show (takeChallenge fw ⟨buf 6, drawnNonce draw⟩ (buf 7) (buf.read 0 pinLength)
    (.packet receiveMsg (ReceiveChallenge.codec.encode challenge))).Says _ _ _ _ _ _
  rw [takeChallenge_accepts hslot hnonce hperm, receiveProof_eq _ hroot]
  refine .send_bind rfl (by simp) ?_
  rw [if_neg (not_not_intro rfl)]
  refine .recv_bind (by decide) (by simp) ?_
  rw [takeResponse, if_neg (by decide), if_neg (by simp), Codec.decode_encode']
  have hhash : getPinHash fw (buf.read 0 pinLength) = some ram.gPinHash :=
    hpin.pinHash (Mem.length_read _ _ _)
  refine .bind_local (.of_runs (storeReceivedBlob_keepsPin _ _ _ _)
    (StoreCommand.runs (c := responseStore resp (buf 7) (buf.read 0 pinLength)) hgcm trivial
      haccepted hwrite hhash hsetup)) ?_
  rw [if_neg (not_not_intro rfl)]
  exact .bind_local (send_talks receiveMsg [] _ _) (.pure _ _ _)

/-- The response that carries a file with these contents. -/
def fileResponse (ram : Ram) (slot : Slot) (contents : Bytes) : ReceiveResponse where
  uuid := (ram.gFat slot).uuid
  file :=
    { inUse := fileInUse
      groupId := (ram.gNameTable slot).groupId
      name := (ram.gNameTable slot).name.set 31 0 lastNameByte
      contentsLen := UInt16.ofNat contents.length
      nonce := .replicate 12 0
      tag := .replicate 16 0
      contents := (Codec.bytes 8192).decode ((Mem.write (fun _ => 0) 0 contents).read 0 8192) }

theorem listenRelease_talks {slot : Slot} {contents : Bytes}
    (hread : recordContents fw w.flash ram.gFat slot none (ram.gNameTable slot).groupId.toUInt32 =
      some contents) :
    ∃ ram', ram'.files = ram.files ∧ (listenRelease fw slot).Says ram w
      [.sent receiveMsg (ReceiveResponse.codec.encode (fileResponse ram slot contents))] 0 ram'
      (w.answered ⟨.control, listenMsg, []⟩) := by
  have hreads := @blobReadAllGroupMask_reads fw w.flash ram slot
    (ram.gNameTable slot).groupId.toUInt32 (fun _ => 0) 0
  generalize hr : blobReadAllGroupMask fw w.flash ram (UInt8.ofNat slot)
    (ram.gNameTable slot).groupId.toUInt32 (fun _ => 0) 0 maxContentsSize = r at hreads
  obtain ⟨⟨st, aad, hram⟩, hok, -⟩ := hreads
  obtain ⟨hstatus, hout, hlen, hle⟩ := hok contents hread
  refine ⟨r.ram, by rw [hram]; rfl, ?_⟩
  refine .get_bind (.mapped_bind ?_)
  rw [hr]
  refine .set_bind ?_
  rw [if_neg (not_not_intro hstatus), if_neg (by omega), hlen, hout]
  refine .send_bind rfl (by simp) ?_
  rw [if_neg (not_not_intro rfl)]
  exact .bind_local (send_talks listenMsg [] _ _) (.pure _ _ _)

theorem listen_releases_talks {challenge : ReceiveChallenge} {proof : ReceiveProof} {slot : Slot}
    {contents : Bytes} (hdraw : w.rng w.draws = some draw)
    (hslot : slotOccupied ram challenge.slot = some slot)
    (hgroup : challenge.groupId = (ram.gNameTable slot).groupId)
    (hnonce : challenge.targetNonce = drawnNonce draw) (hproves : ProvesReceive fw challenge proof)
    (hfresh : ¬ ram.Replayed challenge.requesterNonce challenge.targetNonce challenge.groupId
      receiveMsg)
    (hread : recordContents fw w.flash ram.gFat slot none (ram.gNameTable slot).groupId.toUInt32 =
      some contents) :
    ∃ ram', ram'.files = ram.files ∧ (listen fw).Says ram w
      ((receiveEvents challenge proof (fileResponse ram slot contents)).map LinkEvent.dual) 0 ram'
      (w.drawn.answered ⟨.control, listenMsg, []⟩) := by
  obtain ⟨number, group, nr, nt⟩ := challenge
  obtain rfl : nt = drawnNonce draw := hnonce
  obtain rfl : group = (ram.gNameTable slot).groupId := hgroup
  obtain ⟨ram', hfiles, hrelease⟩ := @listenRelease_talks fw (ram.remember nr (drawnNonce draw)
    (ram.gNameTable slot).groupId receiveMsg) w.drawn slot contents hread
  refine ⟨ram', hfiles, ?_⟩
  show (Dev.recv .transfer InterrogateProof.codec.size >>= takeRequest fw).Says _ _ _ _ _ _
  refine .recv_bind (by decide) (by simp) ?_
  rw [takeRequest, if_neg (by decide), if_pos rfl, listenReceive, if_neg (by simp),
    Codec.decode_encode']
  refine .get_bind ?_
  rw [hslot]
  refine .bind_local (generateNonce_talks hdraw 3 ram) ?_
  refine .send_bind rfl (by simp) ?_
  rw [if_neg (not_not_intro rfl)]
  refine .recv_bind (by decide) (by simp) ?_
  show (takeReceiveProof fw ⟨number, (ram.gNameTable slot).groupId, nr, drawnNonce draw⟩ slot
    (.packet receiveMsg (ReceiveProof.codec.encode proof))).Says _ _ _ _ _ _
  rw [takeReceiveProof_accepts hproves, discloseFile]
  refine .bind_local (checkReplay_talks hfresh _) ?_
  rw [if_neg (by simp)]
  exact hrelease

end
