-- SUMMARY: The receive command in closed form: the handshake that gets it to store a file, and what it does with any other peer.
import HsmFirmware.Specs.FileCommands
import HsmFirmware.Specs.Transfer

/-!
# Receiving

`receive` sends a request and a proof, and takes a challenge and a response. A
handshake that passes all checks hands the file of the response to
`store_received_blob`; any other peer leaves flash and RAM alone.
-/

open Machine (replay)

/-! ## Packets -/

/-- The request of `receive`. -/
def requestPacket (readSlot : UInt8) (nonce : UInt32) : Packet :=
  ⟨.transfer, receiveMsg, ReceiveRequest.codec.encode ⟨readSlot, nonce⟩⟩

/-- The challenge with the signature of a device that knows the root secret. -/
def signedProof (fw : Firmware) (root : Key) (challenge : ReceiveChallenge) : ReceiveProof where
  slot := challenge.slot
  groupId := challenge.groupId
  requesterNonce := challenge.requesterNonce
  targetNonce := challenge.targetNonce
  proof := secureCryptoReceiveProofSign fw.prim root challenge.groupId
    (ReceiveChallenge.codec.encode challenge)

/-- The proof of `receive`. -/
def proofPacket (fw : Firmware) (root : Key) (challenge : ReceiveChallenge) : Packet :=
  ⟨.transfer, receiveMsg, ReceiveProof.codec.encode (signedProof fw root challenge)⟩

/-! ## The handshake -/

/-- A handshake that gets `receive` to store a file, with a peer as in `w`. -/
structure ReceiveExchange (fw : Firmware) (readSlot : UInt8) (w : World) where
  draw : Nat → UInt8
  challenge : ReceiveChallenge
  root : Key
  resp : ReceiveResponse
  drawn : w.rng w.draws = some draw
  requested : w.acks.headD .ok = .ok
  challenged : w.peer w.recvs (w.sent ++ [requestPacket readSlot (drawnNonce draw)]) =
    .packet receiveMsg (ReceiveChallenge.codec.encode challenge)
  sameSlot : challenge.slot = readSlot
  sameNonce : challenge.requesterNonce = drawnNonce draw
  permitted : validatePermission fw challenge.groupId .permReceive = true
  rootSecret : securityGetRootSecret fw = some root
  proved : w.acks.tail.headD .ok = .ok
  responded : w.peer (w.recvs + 1)
      (w.sent ++ [requestPacket readSlot (drawnNonce draw)] ++ [proofPacket fw root challenge]) =
    .packet receiveMsg (ReceiveResponse.codec.encode resp)

namespace ReceiveExchange

variable {fw : Firmware} {readSlot writeSlot : UInt8} {pin : Bytes} {w : World}

/-- The packets `receive` sends in the handshake. -/
def packets (x : ReceiveExchange fw readSlot w) : List Packet :=
  [requestPacket readSlot (drawnNonce x.draw), proofPacket fw x.root x.challenge]

/-- The world in which the file is stored. -/
def world (x : ReceiveExchange fw readSlot w) : World :=
  ((w.drawn.answered (requestPacket readSlot (drawnNonce x.draw))).received.answered
    (proofPacket fw x.root x.challenge)).received

/-- The store of the received file. -/
def store (x : ReceiveExchange fw readSlot w) (writeSlot : UInt8) (pin : Bytes) : StoreCommand :=
  .byReceive writeSlot x.resp.uuid x.resp.file pin

@[simp] theorem flash_world (x : ReceiveExchange fw readSlot w) : x.world.flash = w.flash := rfl

@[simp] theorem rng_world (x : ReceiveExchange fw readSlot w) :
    x.world.rng x.world.draws = w.rng (w.draws + 1) := rfl

theorem sent_world (x : ReceiveExchange fw readSlot w) :
    x.world.sent = w.sent ++ x.packets := by
  simp [world, packets, World.received, World.answered, World.drawn]

/-- There is one such handshake at most. -/
theorem unique (x y : ReceiveExchange fw readSlot w) : x = y := by
  obtain ⟨draw, challenge, root, resp, hdraw, -, hch, -, -, -, hroot, -, hresp⟩ := x
  obtain ⟨draw', challenge', root', resp', hdraw', -, hch', -, -, -, hroot', -, hresp'⟩ := y
  obtain rfl : draw = draw' := Option.some.inj (hdraw.symm.trans hdraw')
  obtain rfl : challenge = challenge' :=
    Codec.encode_injective _ (Received.packet.inj (hch.symm.trans hch')).2
  obtain rfl : root = root' := Option.some.inj (hroot.symm.trans hroot')
  obtain rfl : resp = resp' :=
    Codec.encode_injective _ (Received.packet.inj (hresp.symm.trans hresp')).2
  rfl

end ReceiveExchange

section

variable {fw : Firmware} {readSlot writeSlot : UInt8} {pin : Bytes} {w : World}

/-- What follows the store in `receive`. -/
def receiveReport (r : Int × Ram) (t : World) (rest : Schedule) : Halt Op World (Int × Ram) :=
  if r.1 ≠ 0 then .done (-1, r.2) t [] rest
  else .done (0, r.2) (t.answered ⟨.control, receiveMsg, []⟩) [] rest

/-- Printing an error after packets that touch neither flash nor RAM. -/
def Refuses (fs : Schedule) (ram : Ram) (w : World) (res : Halt Op World (Int × Ram)) : Prop :=
  ∃ (msg : String) (t : World),
    res = .done (-1, ram) (t.answered (errorPacket msg)) [] fs ∧ t.flash = w.flash

theorem exec_receiveReport (h : Dev Int) (fs : Schedule) (ram : Ram) (w : World) :
    (do
      if (← h) ≠ 0 then pure (-1) else do
      let _ ← Dev.send .control receiveMsg []
      pure 0 : Dev Int).exec fs ram w = (h.exec fs ram w).andThen receiveReport := by
  rw [Dev.exec_bind]
  congr 1
  funext r t rest
  rw [receiveReport]
  by_cases hrc : r.1 ≠ 0
  · rw [if_pos hrc, if_pos hrc]
    rfl
  · rw [if_neg hrc, if_neg hrc]
    rfl

/-- What `receive` does with the answer to its proof. -/
def takeResponse (fw : Firmware) (writeSlot : UInt8) (pin : Bytes) : Received → Dev Int
  | .failed _ => reject "No response from target HSM\n"
  | .packet cmd payload =>
    if cmd = errorMsg then reject "Could not import file\n"
    else if cmd ≠ receiveMsg ∨ payload.length ≠ ReceiveResponse.codec.size then
      reject "Opcode mismatch\n"
    else do
      let resp := ReceiveResponse.codec.decode payload
      if (← storeReceivedBlob fw writeSlot resp.uuid resp.file pin) ≠ 0 then pure (-1) else do
      let _ ← Dev.send .control receiveMsg []
      pure 0

/-- What `receive` does with the answer to its request. -/
def takeChallenge (fw : Firmware) (request : ReceiveRequest) (writeSlot : UInt8) (pin : Bytes) :
    Received → Dev Int
  | .failed _ => reject "No response from target HSM\n"
  | .packet cmd payload =>
    let challenge := ReceiveChallenge.codec.decode payload
    if cmd = errorMsg then reject "Could not import file\n"
    else if cmd ≠ receiveMsg ∨ payload.length ≠ ReceiveChallenge.codec.size ∨
        challenge.slot ≠ request.slot ∨ challenge.requesterNonce ≠ request.requesterNonce then
      reject "Opcode mismatch\n"
    else if !validatePermission fw challenge.groupId .permReceive then
      reject "Invalid permission\n"
    else receiveProof fw challenge writeSlot pin

theorem receiveProof_eq (challenge : ReceiveChallenge) {root : Key}
    (hroot : securityGetRootSecret fw = some root) :
    receiveProof fw challenge writeSlot pin =
      (Dev.send .transfer receiveMsg (ReceiveProof.codec.encode (signedProof fw root challenge)) >>=
        fun rc => if rc ≠ .ok then reject "No response from target HSM\n"
          else Dev.recv .transfer ReceiveResponse.codec.size >>= takeResponse fw writeSlot pin) := by
  simp only [receiveProof, hroot]
  rfl

theorem takeResponse_accepts (resp : ReceiveResponse) (fs : Schedule) (ram : Ram) (t : World) :
    (takeResponse fw writeSlot pin
        (.packet receiveMsg (ReceiveResponse.codec.encode resp))).exec fs ram t =
      ((storeReceivedBlob fw writeSlot resp.uuid resp.file pin).exec fs ram t).andThen
        receiveReport := by
  rw [← exec_receiveReport, takeResponse, if_neg (by decide), if_neg (by simp),
    Codec.decode_encode']

/-- Any other answer is refused. -/
theorem takeResponse_refuses {r : Received}
    (h : ∀ resp, r ≠ .packet receiveMsg (ReceiveResponse.codec.encode resp)) :
    ∃ msg, takeResponse fw writeSlot pin r = reject msg := by
  cases r with
  | failed st => exact ⟨_, rfl⟩
  | packet cmd payload =>
    rw [takeResponse]
    by_cases herr : cmd = errorMsg
    · exact ⟨_, if_pos herr⟩
    rw [if_neg herr]
    by_cases hbad : cmd ≠ receiveMsg ∨ payload.length ≠ ReceiveResponse.codec.size
    · exact ⟨_, if_pos hbad⟩
    obtain ⟨rfl, hlen⟩ := by simpa only [not_or, not_not] using hbad
    refine (h (ReceiveResponse.codec.decode payload) ?_).elim
    rw [Codec.encode_decode _ hlen]

theorem takeChallenge_accepts {request : ReceiveRequest} {challenge : ReceiveChallenge}
    (hslot : challenge.slot = request.slot)
    (hnonce : challenge.requesterNonce = request.requesterNonce)
    (hperm : validatePermission fw challenge.groupId .permReceive = true) :
    takeChallenge fw request writeSlot pin
        (.packet receiveMsg (ReceiveChallenge.codec.encode challenge)) =
      receiveProof fw challenge writeSlot pin := by
  simp only [takeChallenge, Codec.decode_encode', hslot, hnonce, hperm]
  rw [if_neg (by decide), if_neg (by simp), if_neg (by simp)]

theorem takeChallenge_refuses {request : ReceiveRequest} {r : Received}
    (h : ∀ challenge : ReceiveChallenge, challenge.slot = request.slot →
      challenge.requesterNonce = request.requesterNonce →
      validatePermission fw challenge.groupId .permReceive = true →
      r ≠ .packet receiveMsg (ReceiveChallenge.codec.encode challenge)) :
    ∃ msg, takeChallenge fw request writeSlot pin r = reject msg := by
  cases r with
  | failed st => exact ⟨_, rfl⟩
  | packet cmd payload =>
    rw [takeChallenge]
    by_cases herr : cmd = errorMsg
    · exact ⟨_, if_pos herr⟩
    rw [if_neg herr]
    by_cases hbad : cmd ≠ receiveMsg ∨ payload.length ≠ ReceiveChallenge.codec.size ∨
        (ReceiveChallenge.codec.decode payload).slot ≠ request.slot ∨
        (ReceiveChallenge.codec.decode payload).requesterNonce ≠ request.requesterNonce
    · exact ⟨_, if_pos hbad⟩
    obtain ⟨rfl, hlen, hslot, hnonce⟩ := by simpa only [not_or, not_not] using hbad
    rw [if_neg hbad]
    by_cases hperm : validatePermission fw (ReceiveChallenge.codec.decode payload).groupId
        .permReceive = true
    · refine (h (ReceiveChallenge.codec.decode payload) hslot hnonce hperm ?_).elim
      rw [Codec.encode_decode _ hlen]
    · exact ⟨_, if_pos (by simpa using hperm)⟩

/-- The request, once a nonce is drawn. -/
theorem receiveRequest_exec {draw : Nat → UInt8} (hdraw : w.rng w.draws = some draw)
    (fs : Schedule) (ram : Ram) :
    (receiveRequest fw readSlot writeSlot pin).exec fs ram w =
      if w.acks.headD .ok = .ok then
        (takeChallenge fw ⟨readSlot, drawnNonce draw⟩ writeSlot pin
          ((w.drawn.answered (requestPacket readSlot (drawnNonce draw))).incoming
            ReceiveChallenge.codec.size)).exec fs ram
          (w.drawn.answered (requestPacket readSlot (drawnNonce draw))).received
      else .done (-1, ram) ((w.drawn.answered (requestPacket readSlot (drawnNonce draw))).answered
        (errorPacket "No response from target HSM\n")) [] fs := by
  rw [receiveRequest, Dev.exec_bind, exec_generateNonce hdraw, Halt.andThen_done, Halt.logged_nil]
  exact exec_ask receiveMsg _ ReceiveChallenge.codec.size _
    (takeChallenge fw ⟨readSlot, drawnNonce draw⟩ writeSlot pin) fs ram w.drawn

/-- With a handshake that passes, `receive` stores the file. -/
theorem receiveRequest_stores (x : ReceiveExchange fw readSlot w) (fs : Schedule) (ram : Ram) :
    (receiveRequest fw readSlot writeSlot pin).exec fs ram w =
      (((x.store writeSlot pin).run fw).exec fs ram x.world).andThen receiveReport := by
  have hchallenge : (w.drawn.answered (requestPacket readSlot (drawnNonce x.draw))).incoming
      ReceiveChallenge.codec.size =
        .packet receiveMsg (ReceiveChallenge.codec.encode x.challenge) :=
    (Received.fit_eq_encode _).mpr x.challenged
  have hresponse : ((w.drawn.answered (requestPacket readSlot (drawnNonce x.draw))).received.answered
      (proofPacket fw x.root x.challenge)).incoming ReceiveResponse.codec.size =
        .packet receiveMsg (ReceiveResponse.codec.encode x.resp) :=
    (Received.fit_eq_encode _).mpr x.responded
  have hproved : (w.drawn.answered (requestPacket readSlot (drawnNonce x.draw))).received.acks.headD
      .ok = .ok := x.proved
  rw [receiveRequest_exec x.drawn, if_pos x.requested, hchallenge,
    takeChallenge_accepts x.sameSlot x.sameNonce x.permitted, receiveProof_eq _ x.rootSecret,
    exec_ask, if_pos hproved]
  rw [show (⟨.transfer, receiveMsg, _⟩ : Packet) = proofPacket fw x.root x.challenge from rfl,
    hresponse, takeResponse_accepts]
  rfl

/-- With any other peer, `receive` prints an error. -/
theorem receiveRequest_refuses (h : IsEmpty (ReceiveExchange fw readSlot w)) (fs : Schedule)
    (ram : Ram) : Refuses fs ram w ((receiveRequest fw readSlot writeSlot pin).exec fs ram w) := by
  cases hdraw : w.rng w.draws with
  | none =>
    refine ⟨"Nonce generation failed\n", w.drawn, ?_, rfl⟩
    rw [receiveRequest, Dev.exec_bind, exec_generateNonce_none hdraw]
    rfl
  | some draw =>
    rw [receiveRequest_exec hdraw]
    by_cases hack : w.acks.headD .ok = .ok
    swap
    · rw [if_neg hack]
      exact ⟨_, _, rfl, rfl⟩
    rw [if_pos hack]
    by_cases hch : ∃ challenge : ReceiveChallenge, challenge.slot = readSlot ∧
        challenge.requesterNonce = drawnNonce draw ∧
        validatePermission fw challenge.groupId .permReceive = true ∧
        (w.drawn.answered (requestPacket readSlot (drawnNonce draw))).incoming
          ReceiveChallenge.codec.size =
            .packet receiveMsg (ReceiveChallenge.codec.encode challenge)
    swap
    · obtain ⟨msg, hmsg⟩ := @takeChallenge_refuses fw writeSlot pin ⟨readSlot, drawnNonce draw⟩ _
        fun challenge hs hn hp hr => hch ⟨challenge, hs, hn, hp, hr⟩
      rw [hmsg, reject_exec]
      exact ⟨_, _, rfl, rfl⟩
    obtain ⟨challenge, hslot, hnonce, hperm, hin⟩ := hch
    rw [hin, takeChallenge_accepts hslot hnonce hperm]
    cases hroot : securityGetRootSecret fw with
    | none =>
      rw [receiveProof, hroot, reject_exec]
      exact ⟨_, _, rfl, rfl⟩
    | some root =>
      rw [receiveProof_eq _ hroot, exec_ask]
      by_cases hproved : (w.drawn.answered
          (requestPacket readSlot (drawnNonce draw))).received.acks.headD .ok = .ok
      swap
      · rw [if_neg hproved]
        exact ⟨_, _, rfl, rfl⟩
      obtain ⟨msg, hmsg⟩ := @takeResponse_refuses fw writeSlot pin
        ((((w.drawn.answered (requestPacket readSlot (drawnNonce draw))).received.answered
          (proofPacket fw root challenge)).incoming ReceiveResponse.codec.size)) fun resp hr =>
        h.false
          { draw, challenge, root, resp
            drawn := hdraw
            requested := hack
            challenged := (Received.fit_eq_encode _).mp hin
            sameSlot := hslot
            sameNonce := hnonce
            permitted := hperm
            rootSecret := hroot
            proved := hproved
            responded := (Received.fit_eq_encode _).mp hr }
      rw [if_pos hproved]
      exact ⟨msg, _, (congrArg (fun k : Dev Int => k.exec fs ram _) hmsg).trans
        (reject_exec _ _ _ _), rfl⟩

/-! ## The command -/

/-- The PIN gate changes flash alone, which the handshake does not see. -/
def ReceiveExchange.after (x : ReceiveExchange fw readSlot w) (L : List Op) :
    ReceiveExchange fw readSlot (w.after L) :=
  { x with }

theorem ReceiveExchange.of_after {L : List Op} (x : ReceiveExchange fw readSlot (w.after L)) :
    Nonempty (ReceiveExchange fw readSlot w) :=
  ⟨{ x with }⟩

/-- The ways `receive` can end. -/
inductive ReceiveEnding (fw : Firmware) (pktLen : UInt16) (buf : Mem) (ram : Ram) (w : World)
    (fs : Schedule) : Halt Op World (Int × Ram) → Prop where
  /-- Refused before the store. -/
  | refused {ram' : Ram} {t : World} {L : List Op} {rest : Schedule}
      (h : pktLen < 8 ∨ ¬ PinCorrect fw ram (buf.read 0 pinLength) ∨
        IsEmpty (ReceiveExchange fw (buf 6) w))
      (hram : ram.SameFiles ram')
      (hL : ∀ o ∈ L, o.Within pinStateAddr (pinStateAddr + pageSize)) :
      ReceiveEnding fw pktLen buf ram w fs (.done (-1, ram') t L rest)
  /-- Cut off in the gate. -/
  | cut {t : World} {L : List Op} (hL : ∀ o ∈ L, o.Within pinStateAddr (pinStateAddr + pageSize)) :
      ReceiveEnding fw pktLen buf ram w fs (.off t L)
  /-- Past the handshake, the store decides. -/
  | entered {j : Nat} (hlen : ¬ pktLen < 8) (hpin : PinCorrect fw ram (buf.read 0 pinLength))
      (x : ReceiveExchange fw (buf 6) w) :
      ReceiveEnding fw pktLen buf ram w fs
        (((((x.store (buf 7) (buf.read 0 pinLength)).run fw).exec
          (fs.attempt (gateOps ram).length) (ram.setFails 0)
          (x.world.after ((gateOps ram).take j))).andThen receiveReport).logged
            ((gateOps ram).take j))

theorem receive_ending (pktLen : UInt16) (buf : Mem) (fs : Schedule) (ram : Ram) (w : World) :
    ReceiveEnding fw pktLen buf ram w fs ((receive fw pktLen buf).exec fs ram w) := by
  rw [receive]
  by_cases hlen : pktLen < 8
  · rw [if_pos hlen, reject_exec]
    exact .refused (.inl hlen) (.refl ram) (by simp)
  rw [if_neg hlen]
  have hend := @gated_ending fw (buf.read 0 pinLength) ram
    (receiveRequest fw (buf 6) (buf 7) (buf.read 0 pinLength)) fs w
  generalize Dev.exec _ fs ram w = res at hend ⊢
  cases hend with
  | refused h hL => exact .refused (.inr (.inl h)) (.setFails ram _) hL
  | cut hL => exact .cut hL
  | @entered j h =>
    have hL : ∀ o ∈ (gateOps ram).take j, o.Within pinStateAddr (pinStateAddr + pageSize) :=
      fun o ho => gateOps_within ram o (List.mem_of_mem_take ho)
    rcases isEmpty_or_nonempty (ReceiveExchange fw (buf 6) w) with hno | ⟨⟨x⟩⟩
    · have hno' : IsEmpty (ReceiveExchange fw (buf 6) (w.after ((gateOps ram).take j))) :=
        ⟨fun x => x.of_after.elim hno.false⟩
      obtain ⟨msg, t, hexec, -⟩ := @receiveRequest_refuses fw (buf 6) (buf 7)
        (buf.read 0 pinLength) _ hno' (fs.attempt (gateOps ram).length) (ram.setFails 0)
      rw [hexec, Halt.logged_done, List.append_nil]
      exact .refused (.inr (.inr hno)) (.setFails ram 0) hL
    · rw [receiveRequest_stores (x.after _)]
      exact .entered hlen h x

end

/-! ## Success -/

section

variable {fw : Firmware} {pktLen : UInt16} {buf : Mem} {ram ram' : Ram} {w w' : World}

/-- A store that returns 0 has sent nothing. -/
theorem storeFile_sent {slotNum : UInt8} {slot : Slot} {groupId : UInt16} {pin : Bytes}
    {pinHash : Digest} {name : Vector UInt8 32} {uuid : Vector UInt8 16} {contents : Bytes}
    (hgcm : fw.prim.GcmLaws) (hslot : slotIsValid slotNum = some slot)
    (hpin : getPinHash fw pin = some pinHash) {fs rest : Schedule} {L : List Op}
    (hrun : (storeFile fw slotNum name groupId uuid contents pin).exec fs ram w =
      .done (0, ram') w' L rest) : w'.sent = w.sent := by
  have hend := @storeFile_ending fw slotNum slot groupId pin pinHash name uuid contents hgcm hslot
    hpin fs ram w
  rw [hrun] at hend
  generalize blobWriteSetup fw slot contents pinHash groupId.toUInt32 (w.rng w.draws) = setup at hend
  cases hend with
  | stored hr hfs => rfl

theorem storeReceivedBlob_sent (hgcm : fw.prim.GcmLaws) {slotNum : UInt8} {uuid : Vector UInt8 16}
    {file : File} {pin : Bytes} {fs rest : Schedule} {L : List Op} {r : BlobRecord}
    {pinHash : Digest} {ram₁ : Ram}
    (hsuccess : (StoreCommand.byReceive slotNum uuid file pin).Success fw ram w ram₁ L r pinHash)
    (hrun : (storeReceivedBlob fw slotNum uuid file pin).exec fs ram w =
      .done (0, ram') w' L rest) : w'.sent = w.sent := by
  obtain ⟨hlen, hperm⟩ := hsuccess.accepted
  rw [storeReceivedBlob, if_neg hlen, if_neg (by simpa using hperm)] at hrun
  exact storeFile_sent hgcm hsuccess.slotIs hsuccess.pinIs hrun

/-- What `receive` has done when it returns 0: a handshake that passed, and the store of the
    file of its response. -/
theorem receive_success (hgcm : fw.prim.GcmLaws) {fs rest : Schedule} {L : List Op}
    (hrun : (receive fw pktLen buf).exec fs ram w = .done (0, ram') w' L rest) :
    ∃ (x : ReceiveExchange fw (buf 6) w) (r : BlobRecord) (pinHash : Digest) (L₁ L₂ : List Op),
      L = L₁ ++ L₂ ∧ (x.store (buf 7) (buf.read 0 pinLength)).Success fw (ram.setFails 0)
        (x.world.after L₁) ram' L₂ r pinHash ∧
      w'.sent = w.sent ++ x.packets ++ [⟨.control, receiveMsg, []⟩] := by
  have hend := @receive_ending fw pktLen buf fs ram w
  generalize (receive fw pktLen buf).exec fs ram w = res at hend hrun
  cases hend with
  | refused => cases hrun
  | cut => cases hrun
  | @entered j hlen hpin x =>
    cases hstore : ((x.store (buf 7) (buf.read 0 pinLength)).run fw).exec
        (fs.attempt (gateOps ram).length) (ram.setFails 0)
        (x.world.after ((gateOps ram).take j)) with
    | off t l =>
      rw [hstore] at hrun
      cases hrun
    | done r t l rest' =>
      obtain ⟨rc, ram₁⟩ := r
      rw [hstore, Halt.andThen_done, receiveReport] at hrun
      by_cases hrc : rc ≠ 0
      · rw [if_pos hrc] at hrun
        cases hrun
      obtain rfl : rc = 0 := not_not.mp hrc
      rw [if_neg hrc, Halt.logged_done, Halt.logged_done, List.append_nil] at hrun
      cases hrun
      obtain ⟨r, pinHash, hsuccess⟩ := StoreCommand.success hgcm hstore
      refine ⟨x, r, pinHash, _, _, rfl, hsuccess, ?_⟩
      rw [World.sent_answered, storeReceivedBlob_sent hgcm hsuccess hstore, World.sent_after,
        x.sent_world]

/-- Without flash failures, a handshake that passes ends with the file stored. -/
theorem receive_runs (hgcm : fw.prim.GcmLaws) {slot : Slot} {r : BlobRecord} {pinHash : Digest}
    (hlen : ¬ pktLen < 8) (hpasses : PinCorrect fw ram (buf.read 0 pinLength))
    (x : ReceiveExchange fw (buf 6) w)
    (haccepted : (x.store (buf 7) (buf.read 0 pinLength)).Accepted fw)
    (hslot : slotIsValid (buf 7) = some slot)
    (hpin : getPinHash fw (buf.read 0 pinLength) = some pinHash)
    (hsetup : (x.store (buf 7) (buf.read 0 pinLength)).setup fw slot pinHash x.world = some r) :
    (receive fw pktLen buf).Runs ram w 0
      ((x.store (buf 7) (buf.read 0 pinLength)).storedRam (ram.setFails 0) r)
      (((x.store (buf 7) (buf.read 0 pinLength)).storedWorld fw (ram.setFails 0)
        (x.world.after (gateOps ram)) r).answered ⟨.control, receiveMsg, []⟩)
      (gateOps ram ++ (x.store (buf 7) (buf.read 0 pinLength)).storeOps fw (ram.setFails 0) r) := by
  rw [receive, if_neg hlen]
  refine gated_runs hpasses ?_
  have hstore := @StoreCommand.runs fw (ram.setFails 0) (x.world.after (gateOps ram))
    (x.store (buf 7) (buf.read 0 pinLength)) slot pinHash r hgcm trivial haccepted hslot hpin hsetup
  show Dev.exec _ [] _ _ = _
  rw [receiveRequest_stores (x.after (gateOps ram))]
  have hexec : (((x.after (gateOps ram)).store (buf 7) (buf.read 0 pinLength)).run fw).exec []
      (ram.setFails 0) (x.after (gateOps ram)).world = _ := hstore
  rw [hexec, Halt.andThen_done, receiveReport, if_neg (not_not_intro rfl), Halt.logged_done,
    List.append_nil]
  rfl

end
