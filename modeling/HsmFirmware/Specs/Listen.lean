-- SUMMARY: The listen command in closed form: its challenges, the proofs it accepts, and what it sends for them.
import HsmFirmware.Specs.Transfer
import HsmFirmware.Specs.Read

/-!
# Listening

`listen` answers a request with a challenge and waits for a proof of it. Only behind an
accepted proof, whose nonces it has not seen before, does it send a list or a file.
-/

/-! ## Proofs -/

/-- A message of proofs the target accepts for its challenge. -/
structure ProvesGroups (fw : Firmware) (challenge : InterrogateChallenge)
    (proof : InterrogateProof) : Prop where
  count : ¬ 8 < proof.proofCount
  requesterNonce : proof.requesterNonce = challenge.requesterNonce
  targetNonce : proof.targetNonce = challenge.targetNonce
  verified : ∃ root, securityGetRootSecret fw = some root ∧ ∀ entry ∈ proof.groups,
    entry.proof = secureCryptoReceiveProofSign fw.prim root entry.groupId
      (interrogateProofMessage challenge entry.groupId)

/-- The proofs of a message are those put into it. -/
theorem groups_interrogateProof (challenge : InterrogateChallenge)
    {proofs : List InterrogateGroupProof} (h : proofs.length ≤ 8) :
    (interrogateProof challenge proofs).groups = proofs := by
  have hcount : (UInt8.ofNat proofs.length).toNat = proofs.length := by
    rw [UInt8.toNat_ofNat', Nat.mod_eq_of_lt (by omega)]
  apply List.ext_getElem
  · simp [InterrogateProof.groups, interrogateProof, hcount, h]
  · intro i h₁ h₂
    simp only [InterrogateProof.groups, interrogateProof, List.getElem_take, List.getElem_ofFn]
    exact List.getD_eq_getElem _ _ h₂

theorem length_interrogateGroupProofs (fw : Firmware) (root : Key)
    (challenge : InterrogateChallenge) : (interrogateGroupProofs fw root challenge).length ≤ 8 := by
  rw [interrogateGroupProofs, List.length_map]
  exact (List.length_filter_le _ _).trans (by simp)

/-- The proofs of a device with the same root secret are accepted. -/
theorem provesGroups_interrogateProof {fw fw' : Firmware} {root : Key}
    (hroot : securityGetRootSecret fw = some root) (hprim : fw'.prim = fw.prim)
    (challenge : InterrogateChallenge) :
    ProvesGroups fw challenge
      (interrogateProof challenge (interrogateGroupProofs fw' root challenge)) where
  count := by
    have h := length_interrogateGroupProofs fw' root challenge
    rw [UInt8.lt_iff_toNat_lt, Nat.not_lt, interrogateProof, UInt8.toNat_ofNat',
      Nat.mod_eq_of_lt (by omega)]
    exact h
  requesterNonce := rfl
  targetNonce := rfl
  verified := by
    refine ⟨root, hroot, ?_⟩
    rw [groups_interrogateProof _ (length_interrogateGroupProofs fw' root challenge)]
    intro entry he
    obtain ⟨i, -, rfl⟩ := List.mem_map.mp he
    rw [hprim]

/-- The nonces of a session are in the replay cache. -/
def Ram.Replayed (ram : Ram) (nr nt : UInt32) (groupId : UInt16) (op : UInt8) : Prop :=
  ∃ i, (ram.gReplayCache i).isFor nr nt groupId op = true

instance (ram : Ram) (nr nt : UInt32) (groupId : UInt16) (op : UInt8) :
    Decidable (ram.Replayed nr nt groupId op) :=
  inferInstanceAs (Decidable (∃ i, (ram.gReplayCache i).isFor nr nt groupId op = true))

/-- The RAM with the nonces of a session in the replay cache. -/
def Ram.remember (ram : Ram) (nr nt : UInt32) (groupId : UInt16) (op : UInt8) : Ram :=
  { ram with
    gReplayCache := Function.update ram.gReplayCache ram.gReplayNext ⟨nr, nt, groupId, op, true⟩
    gReplayNext := ram.gReplayNext + 1 }

theorem Ram.sameFiles_remember (ram : Ram) (nr nt : UInt32) (groupId : UInt16) (op : UInt8) :
    ram.SameFiles (ram.remember nr nt groupId op) := ⟨rfl, rfl, rfl, rfl⟩

theorem checkReplay_run (nr nt : UInt32) (groupId : UInt16) (op : UInt8) (ram : Ram) :
    (securitySecureUartCheckAndUpdateReplay nr nt groupId op).run ram =
      if ram.Replayed nr nt groupId op then .ret (false, ram)
      else .ret (true, ram.remember nr nt groupId op) := by
  have hany : ((List.finRange 8).any fun i => (ram.gReplayCache i).isFor nr nt groupId op) = true ↔
      ram.Replayed nr nt groupId op := by
    simp [Ram.Replayed]
  rw [securitySecureUartCheckAndUpdateReplay, StateT.run_bind]
  by_cases h : ram.Replayed nr nt groupId op
  · rw [if_pos h]
    show StateT.run (if _ then _ else _) ram = _
    rw [if_pos (hany.mpr h)]
    rfl
  · rw [if_neg h]
    show StateT.run (if _ then _ else _) ram = _
    rw [if_neg (mt hany.mp h)]
    rfl

theorem exec_checkReplay (nr nt : UInt32) (groupId : UInt16) (op : UInt8) (fs : Schedule)
    (ram : Ram) (w : World) :
    (securitySecureUartCheckAndUpdateReplay nr nt groupId op).exec fs ram w =
      if ram.Replayed nr nt groupId op then .done (false, ram) w [] fs
      else .done (true, ram.remember nr nt groupId op) w [] fs := by
  rw [Dev.exec, checkReplay_run]
  split <;> rfl

/-! ## Interrogation -/

section

variable {fw : Firmware}

/-- The challenge `listen` sends to an interrogator. -/
def interrogateChallengePacket (challenge : InterrogateChallenge) : Packet :=
  ⟨.transfer, interrogateMsg, InterrogateChallenge.codec.encode challenge⟩

/-- The list of files for the groups proved. -/
def listPacket (ram : Ram) (groups : List UInt16) : Packet :=
  ⟨.transfer, interrogateMsg, listResponse (filteredFiles ram groups)⟩

/-- What `listen` does with proofs it has verified. -/
def discloseList (challenge : InterrogateChallenge) (groups : List UInt16) : Dev Int := do
  if !(← securitySecureUartCheckAndUpdateReplay challenge.requesterNonce
      challenge.targetNonce 0 interrogateMsg) then
    deny "Interrogate denied"
  else do
  let files := filteredFiles (← get) groups
  let rc ← Dev.send .transfer interrogateMsg (listResponse files)
  if rc ≠ .ok then reject "Transfer write failed\n" else listenDone

/-- What `listen` does with the answer to its challenge. -/
def takeInterrogateProof (fw : Firmware) (challenge : InterrogateChallenge) : Received → Dev Int
  | .failed _ => deny "Interrogate denied"
  | .packet cmd payload =>
    let proof := InterrogateProof.codec.decode payload
    if cmd ≠ interrogateMsg ∨ payload.length ≠ InterrogateProof.codec.size ∨
        8 < proof.proofCount ∨ proof.requesterNonce ≠ challenge.requesterNonce ∨
        proof.targetNonce ≠ challenge.targetNonce then
      deny "Interrogate denied"
    else
      match securityGetRootSecret fw with
      | none => deny "Interrogate denied"
      | some root =>
        if !proof.groups.all fun entry =>
            secureCryptoReceiveProofVerify fw.prim root entry.groupId
              (interrogateProofMessage challenge entry.groupId) entry.proof then
          deny "Interrogate denied"
        else discloseList challenge (proof.groups.map (·.groupId))

theorem listenInterrogate_exec {t : World} {draw : Nat → UInt8} (hdraw : t.rng t.draws = some draw)
    (nr : UInt32) (fs : Schedule) (ram : Ram) :
    (listenInterrogate fw (interrogateRequestCodec.encode nr)).exec fs ram t =
      if t.acks.headD .ok = .ok then
        (takeInterrogateProof fw ⟨nr, drawnNonce draw⟩
          ((t.drawn.answered (interrogateChallengePacket ⟨nr, drawnNonce draw⟩)).incoming
            InterrogateProof.codec.size)).exec fs ram
          (t.drawn.answered (interrogateChallengePacket ⟨nr, drawnNonce draw⟩)).received
      else .done (-1, ram)
        (t.drawn.answered (interrogateChallengePacket ⟨nr, drawnNonce draw⟩)) [] fs := by
  rw [listenInterrogate, if_neg (by simp), Dev.exec_bind, exec_generateNonce hdraw,
    Halt.andThen_done, Halt.logged_nil, Codec.decode_encode']
  exact exec_ask interrogateMsg _ InterrogateProof.codec.size _
    (takeInterrogateProof fw ⟨nr, drawnNonce draw⟩) fs ram t.drawn

theorem takeInterrogateProof_accepts {challenge : InterrogateChallenge} {proof : InterrogateProof}
    (h : ProvesGroups fw challenge proof) :
    takeInterrogateProof fw challenge
        (.packet interrogateMsg (InterrogateProof.codec.encode proof)) =
      discloseList challenge (proof.groups.map (·.groupId)) := by
  obtain ⟨root, hroot, hverified⟩ := h.verified
  have hall : (proof.groups.all fun entry => secureCryptoReceiveProofVerify fw.prim root
      entry.groupId (interrogateProofMessage challenge entry.groupId) entry.proof) = true :=
    List.all_eq_true.mpr fun entry he =>
      secureCryptoReceiveProofVerify_iff.mpr (hverified entry he)
  simp only [takeInterrogateProof, Codec.decode_encode', hroot, hall]
  rw [if_neg (by simp [h.count, h.requesterNonce, h.targetNonce]), if_neg (by simp)]

/-- Any other answer is denied. -/
theorem takeInterrogateProof_refuses {challenge : InterrogateChallenge} {r : Received}
    (h : ∀ proof, ProvesGroups fw challenge proof →
      r ≠ .packet interrogateMsg (InterrogateProof.codec.encode proof)) :
    takeInterrogateProof fw challenge r = deny "Interrogate denied" := by
  cases r with
  | failed st => rfl
  | packet cmd payload =>
    rw [takeInterrogateProof]
    by_cases hbad : cmd ≠ interrogateMsg ∨ payload.length ≠ InterrogateProof.codec.size ∨
        8 < (InterrogateProof.codec.decode payload).proofCount ∨
        (InterrogateProof.codec.decode payload).requesterNonce ≠ challenge.requesterNonce ∨
        (InterrogateProof.codec.decode payload).targetNonce ≠ challenge.targetNonce
    · exact if_pos hbad
    rw [if_neg hbad]
    obtain ⟨rfl, hlen, hcount, hnr, hnt⟩ := by simpa only [not_or, not_not] using hbad
    cases hroot : securityGetRootSecret fw with
    | none => rfl
    | some root =>
      dsimp only
      by_cases hall : ((InterrogateProof.codec.decode payload).groups.all fun entry =>
          secureCryptoReceiveProofVerify fw.prim root entry.groupId
            (interrogateProofMessage challenge entry.groupId) entry.proof) = true
      · refine (h (InterrogateProof.codec.decode payload) ?_ ?_).elim
        · exact ⟨hcount, hnr, hnt, root, hroot, fun entry he =>
            secureCryptoReceiveProofVerify_iff.mp (List.all_eq_true.mp hall entry he)⟩
        · rw [Codec.encode_decode _ hlen]
      · exact if_pos (by simpa using hall)

theorem discloseList_exec (challenge : InterrogateChallenge) (groups : List UInt16) (fs : Schedule)
    (ram : Ram) (t : World) :
    (discloseList challenge groups).exec fs ram t =
      if ram.Replayed challenge.requesterNonce challenge.targetNonce 0 interrogateMsg then
        .done (-1, ram) (t.answered (denialPacket "Interrogate denied")) [] fs
      else if t.acks.headD .ok = .ok then
        .done (0, ram.remember challenge.requesterNonce challenge.targetNonce 0 interrogateMsg)
          ((t.answered (listPacket ram groups)).answered ⟨.control, listenMsg, []⟩) [] fs
      else
        .done (-1, ram.remember challenge.requesterNonce challenge.targetNonce 0 interrogateMsg)
          ((t.answered (listPacket ram groups)).answered (errorPacket "Transfer write failed\n"))
          [] fs := by
  rw [discloseList, Dev.exec_bind, exec_checkReplay]
  by_cases hreplay : ram.Replayed challenge.requesterNonce challenge.targetNonce 0 interrogateMsg
  · rw [if_pos hreplay, if_pos hreplay]
    rfl
  rw [if_neg hreplay, if_neg hreplay]
  have hfiles := (ram.sameFiles_remember challenge.requesterNonce challenge.targetNonce 0
    interrogateMsg).filteredFiles_eq groups
  simp only [Halt.andThen_done, Halt.logged_nil, Bool.not_true, Bool.false_eq_true, if_false,
    Dev.exec_bind, Dev.exec_get, exec_send_answered, hfiles]
  by_cases hack : t.acks.headD .ok = .ok
  · rw [if_neg (not_not_intro hack), if_pos hack]
    rfl
  · rw [if_pos hack, if_neg hack]
    rfl

/-! ## Transfer -/

/-- The challenge `listen` answers a request for an occupied slot with. -/
def offeredChallenge (ram : Ram) (request : ReceiveRequest) (slot : Slot) (draw : Nat → UInt8) :
    ReceiveChallenge :=
  ⟨request.slot, (ram.gNameTable slot).groupId, request.requesterNonce, drawnNonce draw⟩

def receiveChallengePacket (challenge : ReceiveChallenge) : Packet :=
  ⟨.transfer, receiveMsg, ReceiveChallenge.codec.encode challenge⟩

/-- A message that proves the challenge. -/
structure ProvesReceive (fw : Firmware) (challenge : ReceiveChallenge) (proof : ReceiveProof) :
    Prop where
  slot : proof.slot = challenge.slot
  groupId : proof.groupId = challenge.groupId
  requesterNonce : proof.requesterNonce = challenge.requesterNonce
  targetNonce : proof.targetNonce = challenge.targetNonce
  verified : ∃ root, securityGetRootSecret fw = some root ∧
    proof.proof = secureCryptoReceiveProofSign fw.prim root challenge.groupId
      (ReceiveChallenge.codec.encode challenge)

/-- What `listen` does with a proof it has verified. -/
def discloseFile (fw : Firmware) (challenge : ReceiveChallenge) (slot : Slot) : Dev Int := do
  if !(← securitySecureUartCheckAndUpdateReplay challenge.requesterNonce challenge.targetNonce
      challenge.groupId receiveMsg) then
    deny "Could not import file"
  else listenRelease fw slot

/-- What `listen` does with the answer to its challenge. -/
def takeReceiveProof (fw : Firmware) (challenge : ReceiveChallenge) (slot : Slot) :
    Received → Dev Int
  | .failed _ => deny "Could not import file"
  | .packet cmd payload =>
    let proof := ReceiveProof.codec.decode payload
    if cmd ≠ receiveMsg ∨ payload.length ≠ ReceiveProof.codec.size ∨
        proof.slot ≠ challenge.slot ∨ proof.groupId ≠ challenge.groupId ∨
        proof.requesterNonce ≠ challenge.requesterNonce ∨
        proof.targetNonce ≠ challenge.targetNonce then
      deny "Could not import file"
    else
      match securityGetRootSecret fw with
      | none => deny "Could not import file"
      | some root => do
        if !secureCryptoReceiveProofVerify fw.prim root proof.groupId
            (ReceiveChallenge.codec.encode challenge) proof.proof then
          deny "Could not import file"
        else do
        if !(← securitySecureUartCheckAndUpdateReplay proof.requesterNonce proof.targetNonce
            proof.groupId receiveMsg) then
          deny "Could not import file"
        else listenRelease fw slot

theorem listenReceive_exec {t : World} {ram : Ram} {request : ReceiveRequest} {slot : Slot}
    {draw : Nat → UInt8} (hslot : slotOccupied ram request.slot = some slot)
    (hdraw : t.rng t.draws = some draw) (fs : Schedule) :
    (listenReceive fw (ReceiveRequest.codec.encode request)).exec fs ram t =
      if t.acks.headD .ok = .ok then
        (takeReceiveProof fw (offeredChallenge ram request slot draw) slot
          ((t.drawn.answered
            (receiveChallengePacket (offeredChallenge ram request slot draw))).incoming
              ReceiveProof.codec.size)).exec fs ram
          (t.drawn.answered
            (receiveChallengePacket (offeredChallenge ram request slot draw))).received
      else .done (-1, ram)
        ((t.drawn.answered
          (receiveChallengePacket (offeredChallenge ram request slot draw))).answered
            (errorPacket "Transfer write failed\n")) [] fs := by
  rw [listenReceive, if_neg (by simp), Dev.exec_bind, Dev.exec_get, Halt.andThen_done,
    Halt.logged_nil, Codec.decode_encode', hslot]
  dsimp only
  rw [Dev.exec_bind, exec_generateNonce hdraw, Halt.andThen_done, Halt.logged_nil]
  exact exec_ask receiveMsg _ ReceiveProof.codec.size _
    (takeReceiveProof fw (offeredChallenge ram request slot draw) slot) fs ram t.drawn

theorem takeReceiveProof_accepts {challenge : ReceiveChallenge} {slot : Slot} {proof : ReceiveProof}
    (h : ProvesReceive fw challenge proof) :
    takeReceiveProof fw challenge slot (.packet receiveMsg (ReceiveProof.codec.encode proof)) =
      discloseFile fw challenge slot := by
  obtain ⟨root, hroot, hverified⟩ := h.verified
  have hverify : secureCryptoReceiveProofVerify fw.prim root challenge.groupId
      (ReceiveChallenge.codec.encode challenge) proof.proof = true :=
    secureCryptoReceiveProofVerify_iff.mpr hverified
  simp only [takeReceiveProof, Codec.decode_encode', hroot, h.slot, h.groupId, h.requesterNonce,
    h.targetNonce, hverify]
  rw [if_neg (by simp), if_neg (by simp), discloseFile]

theorem takeReceiveProof_refuses {challenge : ReceiveChallenge} {slot : Slot} {r : Received}
    (h : ∀ proof, ProvesReceive fw challenge proof →
      r ≠ .packet receiveMsg (ReceiveProof.codec.encode proof)) :
    takeReceiveProof fw challenge slot r = deny "Could not import file" := by
  cases r with
  | failed st => rfl
  | packet cmd payload =>
    rw [takeReceiveProof]
    by_cases hbad : cmd ≠ receiveMsg ∨ payload.length ≠ ReceiveProof.codec.size ∨
        (ReceiveProof.codec.decode payload).slot ≠ challenge.slot ∨
        (ReceiveProof.codec.decode payload).groupId ≠ challenge.groupId ∨
        (ReceiveProof.codec.decode payload).requesterNonce ≠ challenge.requesterNonce ∨
        (ReceiveProof.codec.decode payload).targetNonce ≠ challenge.targetNonce
    · exact if_pos hbad
    rw [if_neg hbad]
    obtain ⟨rfl, hlen, hslot, hgroup, hnr, hnt⟩ := by simpa only [not_or, not_not] using hbad
    cases hroot : securityGetRootSecret fw with
    | none => rfl
    | some root =>
      dsimp only
      by_cases hverify : secureCryptoReceiveProofVerify fw.prim root
          (ReceiveProof.codec.decode payload).groupId (ReceiveChallenge.codec.encode challenge)
          (ReceiveProof.codec.decode payload).proof = true
      · refine (h (ReceiveProof.codec.decode payload) ?_ ?_).elim
        · have hsigned := secureCryptoReceiveProofVerify_iff.mp hverify
          rw [hgroup] at hsigned
          exact ⟨hslot, hgroup, hnr, hnt, root, hroot, hsigned⟩
        · rw [Codec.encode_decode _ hlen]
      · exact if_pos (by simpa using hverify)

/-! ## The command -/

/-- What `listen` does with the first packet. -/
def takeRequest (fw : Firmware) : Received → Dev Int
  | .failed _ => reject "No request on transfer UART\n"
  | .packet cmd payload =>
    if cmd = interrogateMsg then listenInterrogate fw payload
    else if cmd = receiveMsg then listenReceive fw payload
    else reject "Bad message type"

theorem listen_exec (fs : Schedule) (ram : Ram) (w : World) :
    (listen fw).exec fs ram w =
      (takeRequest fw (w.incoming InterrogateProof.codec.size)).exec fs ram w.received := by
  show (Dev.recv .transfer InterrogateProof.codec.size >>= takeRequest fw).exec fs ram w = _
  rw [Dev.exec_bind, Dev.exec_recv, Halt.andThen_done, Halt.logged_nil]
  rfl

theorem listenInterrogate_badLength {payload : Bytes}
    (h : payload.length ≠ interrogateRequestCodec.size) :
    listenInterrogate fw payload = deny "Interrogate denied" := by
  rw [listenInterrogate, if_pos h]

theorem listenInterrogate_noNonce {t : World} (hdraw : t.rng t.draws = none) (nr : UInt32)
    (fs : Schedule) (ram : Ram) :
    (listenInterrogate fw (interrogateRequestCodec.encode nr)).exec fs ram t =
      .done (-1, ram) (t.drawn.answered (denialPacket "Interrogate denied")) [] fs := by
  rw [listenInterrogate, if_neg (by simp), Dev.exec_bind, exec_generateNonce_none hdraw]
  rfl

theorem listenReceive_badLength {payload : Bytes} (h : payload.length ≠ ReceiveRequest.codec.size) :
    listenReceive fw payload = deny "Could not import file" := by
  rw [listenReceive, if_pos h]

theorem listenReceive_notFound {ram : Ram} {request : ReceiveRequest}
    (hslot : slotOccupied ram request.slot = none) (fs : Schedule) (t : World) :
    (listenReceive fw (ReceiveRequest.codec.encode request)).exec fs ram t =
      .done (-1, ram) ((t.answered (denialPacket "Could not import file")).answered
        (errorPacket "File not found\n")) [] fs := by
  rw [listenReceive, if_neg (by simp), Dev.exec_bind, Dev.exec_get, Halt.andThen_done,
    Halt.logged_nil, Codec.decode_encode', hslot]
  rfl

theorem listenReceive_noNonce {ram : Ram} {request : ReceiveRequest} {slot : Slot} {t : World}
    (hslot : slotOccupied ram request.slot = some slot) (hdraw : t.rng t.draws = none)
    (fs : Schedule) :
    (listenReceive fw (ReceiveRequest.codec.encode request)).exec fs ram t =
      .done (-1, ram) (t.drawn.answered (denialPacket "Could not import file")) [] fs := by
  rw [listenReceive, if_neg (by simp), Dev.exec_bind, Dev.exec_get, Halt.andThen_done,
    Halt.logged_nil, Codec.decode_encode', hslot]
  dsimp only
  rw [Dev.exec_bind, exec_generateNonce_none hdraw]
  rfl

theorem listenRelease_sends (slot : Slot) :
    (listenRelease fw slot).Sends fun p => p.cmd ≠ interrogateMsg := by
  refine Dev.Sends.get.bind fun ram => Dev.Sends.mapped.bind fun flash => ?_
  refine (Dev.Sends.set _).bind fun _ => ?_
  split
  · exact denyAndReject_sends (by decide) (by decide)
  split
  · exact denyAndReject_sends (by decide) (by decide)
  refine (Dev.Sends.send (show receiveMsg ≠ interrogateMsg by decide)).bind fun rc => ?_
  split
  · exact reject_sends (by decide)
  · exact listenDone_sends (by decide)

/-- The packets of the transfer of a file are none of an interrogation. -/
theorem listenReceive_sends (payload : Bytes) :
    (listenReceive fw payload).Sends fun p => p.cmd ≠ interrogateMsg := by
  rw [listenReceive]
  split
  · exact deny_sends (by decide)
  refine Dev.Sends.get.bind fun ram => ?_
  split
  · exact denyAndReject_sends (by decide) (by decide)
  refine (generateNonce_sends 4).bind fun nonce => ?_
  split
  · exact deny_sends (by decide)
  refine (Dev.Sends.send (show receiveMsg ≠ interrogateMsg by decide)).bind fun rc => ?_
  split
  · exact reject_sends (by decide)
  refine (Dev.Sends.recv _ _).bind fun r => ?_
  split
  · exact deny_sends (by decide)
  dsimp only
  split
  · exact deny_sends (by decide)
  split
  · exact deny_sends (by decide)
  split
  · exact deny_sends (by decide)
  refine (checkReplay_sends _ _ _ _).bind fun ok => ?_
  split
  · exact deny_sends (by decide)
  · exact listenRelease_sends _

/-! ## Lists -/

/-- The occupied slots of the groups proved, in order. -/
def Ram.slotsOf (ram : Ram) (groups : List UInt16) : List Slot :=
  (List.finRange maxSlots).filter fun slot =>
    decide ((ram.gNameTable slot).groupId ∈ groups) && ram.occupied slot

theorem filteredFiles_eq_slotsOf (ram : Ram) (groups : List UInt16) :
    filteredFiles ram groups = (ram.slotsOf groups).map (fileMetadata ram) := by
  rw [filteredFiles, generateListFiles, List.filter_map, List.filter_filter]
  rfl

theorem length_listResponse (files : List FileMetadata) :
    (listResponse files).length = 4 + 35 * files.length := by
  have hlen : (files.map FileMetadata.codec.encode).flatten.length = 35 * files.length := by
    induction files with
    | nil => rfl
    | cons f files ih =>
      rw [List.map_cons, List.flatten_cons, List.length_append, ih, Codec.length_encode,
        List.length_cons, Nat.mul_succ, Nat.add_comm]
      rfl
  rw [listResponse, List.length_append, hlen, Codec.length_encode]
  rfl

/-- A list fits the buffer of the interrogator. -/
theorem length_listResponse_le (ram : Ram) (groups : List UInt16) :
    (listResponse (filteredFiles ram groups)).length ≤ listResponseSize := by
  have hfiles : (filteredFiles ram groups).length ≤ 8 := by
    rw [filteredFiles_eq_slotsOf, List.length_map]
    exact (List.length_filter_le _ _).trans (by simp)
  rw [length_listResponse, listResponseSize]
  omega

/-- A session in which `listen` accepts the proofs of an interrogator. -/
structure ListSession (fw : Firmware) (ram : Ram) (w : World) where
  nr : UInt32
  draw : Nat → UInt8
  proof : InterrogateProof
  requested : w.peer w.recvs w.sent =
    .packet interrogateMsg (interrogateRequestCodec.encode nr)
  drawn : w.rng w.draws = some draw
  answered : w.acks.headD .ok = .ok
  proved : w.peer (w.recvs + 1)
      (w.sent ++ [interrogateChallengePacket ⟨nr, drawnNonce draw⟩]) =
    .packet interrogateMsg (InterrogateProof.codec.encode proof)
  proves : ProvesGroups fw ⟨nr, drawnNonce draw⟩ proof
  fresh : ¬ ram.Replayed nr (drawnNonce draw) 0 interrogateMsg

namespace ListSession

variable {ram : Ram} {w : World}

/-- The challenge of this session. -/
def challenge (x : ListSession fw ram w) : InterrogateChallenge := ⟨x.nr, drawnNonce x.draw⟩

/-- The groups proved, in the order of the message. -/
def groups (x : ListSession fw ram w) : List UInt16 := x.proof.groups.map (·.groupId)

/-- The world when the proofs are in. -/
def world (x : ListSession fw ram w) : World :=
  (w.received.drawn.answered (interrogateChallengePacket x.challenge)).received

theorem sent_world (x : ListSession fw ram w) :
    x.world.sent = w.sent ++ [interrogateChallengePacket x.challenge] := rfl

theorem exec_eq (x : ListSession fw ram w) (fs : Schedule) :
    (listen fw).exec fs ram w = (discloseList x.challenge x.groups).exec fs ram x.world := by
  have hrequest : w.incoming InterrogateProof.codec.size =
      .packet interrogateMsg (interrogateRequestCodec.encode x.nr) := by
    rw [World.incoming, Received.fit_eq_packet]
    exact ⟨x.requested, .inr (by simp [interrogateRequestCodec])⟩
  have hproof : (w.received.drawn.answered (interrogateChallengePacket x.challenge)).incoming
      InterrogateProof.codec.size =
        .packet interrogateMsg (InterrogateProof.codec.encode x.proof) :=
    (Received.fit_eq_encode _).mpr x.proved
  have hdrawn : w.received.rng w.received.draws = some x.draw := x.drawn
  have hanswered : w.received.acks.headD .ok = .ok := x.answered
  rw [listen_exec, hrequest, takeRequest, if_pos rfl, listenInterrogate_exec hdrawn,
    if_pos hanswered]
  exact congrArg (fun k : Dev Int => k.exec fs ram x.world)
    ((congrArg _ hproof).trans (takeInterrogateProof_accepts x.proves))

end ListSession

end
