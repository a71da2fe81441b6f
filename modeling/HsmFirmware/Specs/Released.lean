-- SUMMARY: The packets that carry a file, to the host and to a peer, and what must be true when one is sent.
import HsmFirmware.Specs.Read
import HsmFirmware.Specs.Roles

/-!
# Released files

A file leaves the device in two packets: in the answer of `read` to the host, and in the last
packet of `listen` to a peer. Whatever fails, and wherever the run is cut off, such a packet is sent
only when the checks in front of it have passed.
-/

/-- A packet for a peer that is as long as one with a file. -/
def Packet.IsFile (p : Packet) : Prop :=
  p.uart = .transfer ∧ p.cmd = receiveMsg ∧ p.payload.length = ReceiveResponse.codec.size

theorem not_isFile_error (msg : String) : ¬ (errorPacket msg).IsFile :=
  fun h => nomatch h.1

theorem not_isFile_denial (msg : String) : ¬ (denialPacket msg).IsFile :=
  fun h => absurd h.2.1 (by simp [denialPacket, errorMsg, receiveMsg])

theorem not_isFile_done : ¬ (⟨.control, listenMsg, []⟩ : Packet).IsFile :=
  fun h => nomatch h.1

theorem not_isFile_challenge (challenge : ReceiveChallenge) :
    ¬ (receiveChallengePacket challenge).IsFile :=
  fun h => absurd ((ReceiveChallenge.codec.length_encode challenge).symm.trans h.2.2) (by decide)

/-- The packets that a run has added satisfy `Q`. -/
def Adds (Q : Packet → Prop) {α : Type} (w : World) (res : Halt Op World α) : Prop :=
  ∃ ps, res.state.sent = w.sent ++ ps ∧ ∀ p ∈ ps, Q p

section

variable {Q : Packet → Prop} {α : Type} {w t : World} {res : Halt Op World α}

theorem Adds.of_sends {h : Dev α} (hh : h.Sends Q) (fs : Schedule) (ram : Ram) (w : World) :
    Adds Q w (h.exec fs ram w) := sent_exec (hh ram) fs w

theorem Adds.nothing (h : res.state.sent = w.sent) : Adds Q w res :=
  ⟨[], by rw [h, List.append_nil], fun _ hp => (List.not_mem_nil hp).elim⟩

/-- A packet in front of those of a run. -/
theorem Adds.behind {p : Packet} (h : Adds Q t res) (ht : t.sent = w.sent ++ [p]) (hp : Q p) :
    Adds Q w res := by
  obtain ⟨ps, hps, hQ⟩ := h
  refine ⟨p :: ps, ?_, List.forall_mem_cons.mpr ⟨hp, hQ⟩⟩
  rw [hps, ht, List.append_assoc]
  rfl

theorem Adds.mono {Q' : Packet → Prop} (h : Adds Q w res) (hQ : ∀ p, Q p → Q' p) : Adds Q' w res := by
  obtain ⟨ps, hps, hall⟩ := h
  exact ⟨ps, hps, fun p hp => hQ p (hall p hp)⟩

end

/-! ## To the host -/

/-- The packet with a file for the host, when the file may be read. -/
structure ReadAllowed (fw : Firmware) (ram : Ram) (m : Mem) (slotNum : UInt8) (slot : Slot)
    (p : Packet) : Prop where
  occupied : slotOccupied ram slotNum = some slot
  permitted : validatePermission fw (ram.gNameTable slot).groupId .permRead = true
  contents : ∃ d, recordContents fw m ram.gFat slot (some ram.gPinHash) 0xFFFFFFFF = some d ∧
    p = ⟨.control, readMsg, (ram.gNameTable slot).name.toList ++ d⟩

section

variable {fw : Firmware} {ram : Ram} {w : World}

theorem readCheckedAnswer_allowed {m : Mem} {slotNum : UInt8}
    (h : (readCheckedAnswer fw ram m slotNum).cmd = readMsg) :
    ∃ slot, ReadAllowed fw ram m slotNum slot (readCheckedAnswer fw ram m slotNum) := by
  have herror : ∀ msg, (errorPacket msg).cmd ≠ readMsg := by
    intro msg
    simp [errorPacket, errorMsg, readMsg]
  unfold readCheckedAnswer at h ⊢
  cases hslot : slotOccupied ram slotNum with
  | none =>
    rw [hslot] at h
    exact (herror _ h).elim
  | some slot =>
    rw [hslot] at h
    dsimp only at h ⊢
    by_cases hperm : validatePermission fw (ram.gNameTable slot).groupId .permRead = true
    swap
    · rw [if_neg hperm] at h
      exact (herror _ h).elim
    rw [if_pos hperm] at h ⊢
    cases hcontents : recordContents fw m ram.gFat slot (some ram.gPinHash) 0xFFFFFFFF with
    | none =>
      rw [readSlotAnswer, hcontents] at h
      exact (herror _ h).elim
    | some d =>
      refine ⟨slot, hslot, hperm, d, hcontents, ?_⟩
      rw [readSlotAnswer, hcontents]
      rfl

/-- What `read` sends. -/
theorem read_adds (pktLen : UInt16) (buf : Mem) (fs : Schedule) (ram : Ram) (w : World) :
    Adds (fun p => p.cmd = readMsg → ∃ slot, ReadAllowed fw ram w.flash (buf 6) slot p) w
      ((read fw pktLen buf).exec fs ram w) := by
  have herror : ∀ (msg : String) (P : Prop), (errorPacket msg).cmd = readMsg → P := by
    intro msg P h
    simp [errorPacket, errorMsg, readMsg] at h
  rw [read_eq]
  by_cases hlen : pktLen < 7
  · rw [if_pos hlen]
    apply Adds.of_sends
    apply reject_sends
    exact herror _ _
  rw [if_neg hlen]
  have hend := @gated_ending fw (buf.read 0 pinLength) ram
    (readChecked fw (buf 6) (buf.read 0 pinLength)) fs w
  generalize Dev.exec _ fs ram w = res at hend ⊢
  cases hend with
  | @refused count L rest h hL =>
    exact ⟨[_], rfl, List.forall_mem_singleton.mpr (herror _ _)⟩
  | cut hL => exact .nothing rfl
  | @entered j hpin =>
    have hL : ∀ o ∈ (gateOps ram).take j, o.Within pinStateAddr (pinStateAddr + pageSize) :=
      fun o ho => gateOps_within ram o (List.mem_of_mem_take ho)
    have hkept : Mem.Agree (w.after ((gateOps ram).take j)).flash w.flash 0 pinStateAddr :=
      agree_replay hL (.inl (Nat.le_refl _)) w.flash
    have hflash : Mem.Agree (w.after ((gateOps ram).take j)).flash w.flash 0 fatAddr :=
      hkept.mono (Nat.le_refl _) (by decide)
    obtain ⟨ram', -, hexec⟩ := @readChecked_exec fw (buf 6) (buf.read 0 pinLength) (ram.setFails 0)
      hpin (Mem.length_read _ _ _) (fs.attempt (gateOps ram).length)
      (w.after ((gateOps ram).take j))
    rw [hexec, readCheckedAnswer_congr (Ram.SameFiles.setFails ram 0) hflash]
    exact ⟨[_], rfl, List.forall_mem_singleton.mpr readCheckedAnswer_allowed⟩

end

/-! ## To a peer -/

/-- A session in which `listen` accepts the proof of a peer that asks for a file. -/
structure FileSession (fw : Firmware) (ram : Ram) (w : World) where
  request : ReceiveRequest
  slot : Slot
  draw : Nat → UInt8
  proof : ReceiveProof
  requested : w.peer w.recvs w.sent = .packet receiveMsg (ReceiveRequest.codec.encode request)
  occupied : slotOccupied ram request.slot = some slot
  drawn : w.rng w.draws = some draw
  answered : w.acks.headD .ok = .ok
  proved : w.peer (w.recvs + 1)
      (w.sent ++ [receiveChallengePacket (offeredChallenge ram request slot draw)]) =
    .packet receiveMsg (ReceiveProof.codec.encode proof)
  proves : ProvesReceive fw (offeredChallenge ram request slot draw) proof
  fresh : ¬ ram.Replayed request.requesterNonce (drawnNonce draw) (ram.gNameTable slot).groupId
    receiveMsg

/-- The packet with the file of a session, which the record of its slot gives under the group
    proved. -/
def FileSession.Sends {fw : Firmware} {ram : Ram} {w : World} (x : FileSession fw ram w)
    (p : Packet) : Prop :=
  ∃ d, recordContents fw w.flash ram.gFat x.slot none (ram.gNameTable x.slot).groupId.toUInt32 =
      some d ∧
    p = ⟨.transfer, receiveMsg, ReceiveResponse.codec.encode (fileResponse ram x.slot d)⟩

section

variable {fw : Firmware} {ram : Ram} {w t : World} {slot : Slot} {fs : Schedule}

theorem deny_unfiled (msg : String) : (deny msg).Sends fun p => ¬ p.IsFile :=
  deny_sends (not_isFile_denial msg)

/-- A handler that carries no file adds none. -/
theorem Adds.unfiled {Q : Packet → Prop} {h : Dev Int} (hh : h.Sends fun p => ¬ p.IsFile)
    (fs : Schedule) (ram : Ram) (w : World) :
    Adds (fun p => p.IsFile → Q p) w (h.exec fs ram w) :=
  (Adds.of_sends hh fs ram w).mono fun _ hp hfile => (hp hfile).elim

theorem listenRelease_adds : Adds (fun p => p.IsFile →
      ∃ d, recordContents fw t.flash ram.gFat slot none (ram.gNameTable slot).groupId.toUInt32 =
          some d ∧
        p = ⟨.transfer, receiveMsg, ReceiveResponse.codec.encode (fileResponse ram slot d)⟩) t
    ((listenRelease fw slot).exec fs ram t) := by
  have hreads := @blobReadAllGroupMask_reads fw t.flash ram slot
    (ram.gNameTable slot).groupId.toUInt32 (fun _ => 0) 0
  have hset : ∀ ram' : Ram, (MonadStateOf.set ram' : Dev PUnit).exec fs ram t =
      .done (⟨⟩, ram') t [] fs := fun _ => rfl
  simp only [listenRelease, Dev.exec_bind, Dev.exec_get, Dev.exec_mapped, hset, Halt.andThen_done,
    Halt.logged_nil]
  generalize blobReadAllGroupMask fw t.flash ram (UInt8.ofNat slot)
    (ram.gNameTable slot).groupId.toUInt32 (fun _ => 0) 0 maxContentsSize = r at hreads ⊢
  by_cases hstatus : r.status = .ok
  swap
  · rw [if_pos hstatus]
    apply Adds.unfiled (h := denyAndReject "Could not import file" "Failed to read file\n")
    exact denyAndReject_sends (not_isFile_denial _) (not_isFile_error _)
  rw [if_neg (not_not_intro hstatus)]
  cases hcontents : recordContents fw t.flash ram.gFat slot none
      (ram.gNameTable slot).groupId.toUInt32 with
  | none => exact (hreads.fail hcontents hstatus).elim
  | some d =>
    obtain ⟨-, hout, hlen, hle⟩ := hreads.ok d hcontents
    rw [if_neg (by omega), hlen, hout]
    apply Adds.of_sends
    -- The packet with the file, then the one that ends the command.
    apply (Dev.Sends.send fun _ => ⟨d, rfl, rfl⟩).bind
    intro rc
    split
    · exact reject_sends fun h => (not_isFile_error _ h).elim
    · exact listenDone_sends fun h => (not_isFile_done h).elim

theorem discloseFile_adds {challenge : ReceiveChallenge} : Adds (fun p => p.IsFile →
      ¬ ram.Replayed challenge.requesterNonce challenge.targetNonce challenge.groupId receiveMsg ∧
      ∃ d, recordContents fw t.flash ram.gFat slot none (ram.gNameTable slot).groupId.toUInt32 =
          some d ∧
        p = ⟨.transfer, receiveMsg, ReceiveResponse.codec.encode (fileResponse ram slot d)⟩) t
    ((discloseFile fw challenge slot).exec fs ram t) := by
  rw [discloseFile, Dev.exec_bind, exec_checkReplay]
  by_cases hreplayed : ram.Replayed challenge.requesterNonce challenge.targetNonce
      challenge.groupId receiveMsg
  · rw [if_pos hreplayed]
    exact .unfiled (deny_unfiled _) fs ram t
  · rw [if_neg hreplayed, Halt.andThen_done, Halt.logged_nil]
    apply (@listenRelease_adds fw (ram.remember challenge.requesterNonce challenge.targetNonce
      challenge.groupId receiveMsg) t slot fs).mono
    intro p hp hfile
    exact ⟨hreplayed, hp hfile⟩

theorem listenReceive_adds {request : ReceiveRequest}
    (hrequest : w.peer w.recvs w.sent =
      .packet receiveMsg (ReceiveRequest.codec.encode request)) :
    Adds (fun p => p.IsFile → ∃ x : FileSession fw ram w, x.Sends p) w
      ((listenReceive fw (ReceiveRequest.codec.encode request)).exec fs ram w.received) := by
  cases hslot : slotOccupied ram request.slot with
  | none =>
    rw [listenReceive_notFound hslot]
    exact .unfiled (denyAndReject_sends (not_isFile_denial _) (not_isFile_error _)) fs ram w.received
  | some slot =>
  cases hdraw : w.rng w.draws with
  | none =>
    have hdraw' : w.received.rng w.received.draws = none := hdraw
    rw [listenReceive_noNonce hslot hdraw']
    exact .unfiled (deny_unfiled _) fs ram w.received.drawn
  | some draw =>
  have hdraw' : w.received.rng w.received.draws = some draw := hdraw
  rw [listenReceive_exec hslot hdraw']
  have hchallenge := not_isFile_challenge (offeredChallenge ram request slot draw)
  by_cases hack : w.acks.headD .ok = .ok
  swap
  · have hack' : ¬ w.received.acks.headD .ok = .ok := hack
    rw [if_neg hack']
    exact ⟨[_, _], List.append_assoc _ _ _, List.forall_mem_cons.mpr
      ⟨fun h => (hchallenge h).elim,
        List.forall_mem_singleton.mpr fun h => (not_isFile_error _ h).elim⟩⟩
  have hack' : w.received.acks.headD .ok = .ok := hack
  rw [if_pos hack']
  refine Adds.behind (t := (w.received.drawn.answered (receiveChallengePacket
    (offeredChallenge ram request slot draw))).received) ?_ rfl fun h => (hchallenge h).elim
  by_cases haccepted : ∃ proof, ProvesReceive fw (offeredChallenge ram request slot draw) proof ∧
      w.peer (w.recvs + 1)
          (w.sent ++ [receiveChallengePacket (offeredChallenge ram request slot draw)]) =
        .packet receiveMsg (ReceiveProof.codec.encode proof)
  swap
  · have hrefused : ∀ proof, ProvesReceive fw (offeredChallenge ram request slot draw) proof →
        (w.received.drawn.answered (receiveChallengePacket
          (offeredChallenge ram request slot draw))).incoming ReceiveProof.codec.size ≠
            .packet receiveMsg (ReceiveProof.codec.encode proof) := by
      intro proof hproves hin
      exact haccepted ⟨proof, hproves, (Received.fit_eq_encode _).mp hin⟩
    rw [takeReceiveProof_refuses hrefused]
    exact .unfiled (deny_unfiled _) fs ram _
  obtain ⟨proof, hproves, hin⟩ := haccepted
  have hfits : (w.received.drawn.answered (receiveChallengePacket
      (offeredChallenge ram request slot draw))).incoming ReceiveProof.codec.size =
        .packet receiveMsg (ReceiveProof.codec.encode proof) := (Received.fit_eq_encode _).mpr hin
  rw [hfits, takeReceiveProof_accepts hproves]
  apply discloseFile_adds.mono
  intro p hp hfile
  obtain ⟨hfresh, hsends⟩ := hp hfile
  exact ⟨⟨request, slot, draw, proof, hrequest, hslot, hdraw, hack, hin, hproves, hfresh⟩, hsends⟩

theorem listenInterrogate_unfiled (payload : Bytes) :
    (listenInterrogate fw payload).Sends fun p => ¬ p.IsFile := by
  have hother : ∀ payload, ¬ (⟨.transfer, interrogateMsg, payload⟩ : Packet).IsFile :=
    fun payload h => absurd h.2.1 (by simp [interrogateMsg, receiveMsg])
  rw [listenInterrogate]
  split
  · exact deny_unfiled _
  refine (generateNonce_sends 4).bind fun nonce => ?_
  split
  · exact deny_unfiled _
  refine (Dev.Sends.send (hother _)).bind fun rc => ?_
  split
  · exact .pure _
  refine (Dev.Sends.recv _ _).bind fun r => ?_
  split
  · exact deny_unfiled _
  dsimp only
  split
  · exact deny_unfiled _
  split
  · exact deny_unfiled _
  split
  · exact deny_unfiled _
  refine (checkReplay_sends _ _ _ _).bind fun ok => ?_
  split
  · exact deny_unfiled _
  refine Dev.Sends.get.bind fun ram => (Dev.Sends.send (hother _)).bind fun rc => ?_
  split
  · exact reject_sends (not_isFile_error _)
  · exact listenDone_sends not_isFile_done

/-- What `listen` sends. -/
theorem listen_adds (fs : Schedule) (ram : Ram) (w : World) :
    Adds (fun p => p.IsFile → ∃ x : FileSession fw ram w, x.Sends p) w
      ((listen fw).exec fs ram w) := by
  rw [listen_exec]
  have hquiet : ∀ k : Dev Int, (k.Sends fun p => ¬ p.IsFile) →
      Adds (fun p => p.IsFile → ∃ x : FileSession fw ram w, x.Sends p) w
        (k.exec fs ram w.received) :=
    fun k hk => .unfiled hk fs ram w.received
  cases hr : w.incoming InterrogateProof.codec.size with
  | failed st => exact hquiet _ (reject_sends (not_isFile_error _))
  | packet cmd payload =>
    rw [takeRequest]
    by_cases hlist : cmd = interrogateMsg
    · rw [if_pos hlist]
      exact hquiet _ (listenInterrogate_unfiled payload)
    rw [if_neg hlist]
    by_cases hcmd : cmd = receiveMsg
    swap
    · rw [if_neg hcmd]
      exact hquiet _ (reject_sends (not_isFile_error _))
    rw [if_pos hcmd]
    subst hcmd
    by_cases hlen : payload.length = ReceiveRequest.codec.size
    swap
    · rw [listenReceive_badLength hlen]
      exact hquiet _ (deny_unfiled _)
    obtain ⟨request, rfl⟩ : ∃ request, payload = ReceiveRequest.codec.encode request :=
      ⟨_, (Codec.encode_decode _ hlen).symm⟩
    exact listenReceive_adds (Received.fit_eq_packet.mp hr).1

/-- A record that can be read is sent first. -/
theorem listenRelease_gives {d : Bytes}
    (hd : recordContents fw t.flash ram.gFat slot none (ram.gNameTable slot).groupId.toUInt32 =
      some d) (fs : Schedule) :
    ∃ ps, ((listenRelease fw slot).exec fs ram t).state.sent = t.sent ++
      (⟨.transfer, receiveMsg, ReceiveResponse.codec.encode (fileResponse ram slot d)⟩ : Packet) :: ps := by
  have hreads := @blobReadAllGroupMask_reads fw t.flash ram slot
    (ram.gNameTable slot).groupId.toUInt32 (fun _ => 0) 0
  have hset : ∀ ram' : Ram, (MonadStateOf.set ram' : Dev PUnit).exec fs ram t =
      .done (⟨⟩, ram') t [] fs := fun _ => rfl
  simp only [listenRelease, Dev.exec_bind, Dev.exec_get, Dev.exec_mapped, hset, Halt.andThen_done,
    Halt.logged_nil]
  generalize blobReadAllGroupMask fw t.flash ram (UInt8.ofNat slot)
    (ram.gNameTable slot).groupId.toUInt32 (fun _ => 0) 0 maxContentsSize = r at hreads ⊢
  obtain ⟨hstatus, hout, hlen, hle⟩ := hreads.ok d hd
  rw [if_neg (not_not_intro hstatus), if_neg (by omega), hlen, hout, Dev.exec_bind, Dev.exec_send,
    Halt.andThen_done, Halt.logged_nil]
  have hrest : ∀ rc : MsgStatus, Dev.Sends (fun _ => True)
      (if rc ≠ .ok then reject "Transfer write failed\n" else listenDone) := by
    intro rc
    split
    · exact reject_sends trivial
    · exact listenDone_sends trivial
  obtain ⟨ps, hps, -⟩ := sent_exec (hrest _ _) fs _
  exact ⟨ps, hps.trans (List.append_assoc _ _ _)⟩

/-- A session in which the record can be read ends with its file. -/
theorem FileSession.gives (x : FileSession fw ram w) {d : Bytes}
    (hd : recordContents fw w.flash ram.gFat x.slot none (ram.gNameTable x.slot).groupId.toUInt32 =
      some d) (fs : Schedule) :
    ⟨.transfer, receiveMsg, ReceiveResponse.codec.encode (fileResponse ram x.slot d)⟩ ∈
      ((listen fw).exec fs ram w).state.sent.drop w.sent.length := by
  have hfirst : w.incoming InterrogateProof.codec.size =
      .packet receiveMsg (ReceiveRequest.codec.encode x.request) :=
    Received.fit_eq_packet.mpr ⟨x.requested, .inr (by simp)⟩
  have hproof : (w.received.drawn.answered (receiveChallengePacket
      (offeredChallenge ram x.request x.slot x.draw))).incoming ReceiveProof.codec.size =
        .packet receiveMsg (ReceiveProof.codec.encode x.proof) :=
    (Received.fit_eq_encode _).mpr x.proved
  have hack : w.received.acks.headD .ok = .ok := x.answered
  have hdraw : w.received.rng w.received.draws = some x.draw := x.drawn
  have hfresh : ¬ ram.Replayed (offeredChallenge ram x.request x.slot x.draw).requesterNonce
      (offeredChallenge ram x.request x.slot x.draw).targetNonce
      (offeredChallenge ram x.request x.slot x.draw).groupId receiveMsg := x.fresh
  obtain ⟨ps, hps⟩ := @listenRelease_gives fw
    (ram.remember x.request.requesterNonce (drawnNonce x.draw) (ram.gNameTable x.slot).groupId
      receiveMsg)
    (w.received.drawn.answered (receiveChallengePacket
      (offeredChallenge ram x.request x.slot x.draw))).received x.slot d hd fs
  have hsent : ((listen fw).exec fs ram w).state.sent = w.sent ++
      receiveChallengePacket (offeredChallenge ram x.request x.slot x.draw) ::
        ⟨.transfer, receiveMsg, ReceiveResponse.codec.encode (fileResponse ram x.slot d)⟩ :: ps := by
    rw [listen_exec, hfirst, takeRequest, if_neg (by decide), if_pos rfl,
      listenReceive_exec x.occupied hdraw, if_pos hack, hproof, takeReceiveProof_accepts x.proves,
      discloseFile, Dev.exec_bind, exec_checkReplay, if_neg hfresh, Halt.andThen_done,
      Halt.logged_nil]
    exact hps.trans (List.append_assoc _ _ _)
  rw [hsent, List.drop_left]
  exact List.mem_cons_of_mem _ List.mem_cons_self

end
