-- SUMMARY: What listen lets its peer see of the files: lists for proved groups alone, but offers of files to anyone.
import HsmFirmware.Specs.FileCommands
import HsmFirmware.Specs.Listen

/-!
# Disclosure

A peer gets the list of the files of groups it has proved, and of no others. Before any
proof, an interrogator sees nothing of the files; a peer that asks for a file learns
whether the slot is occupied, and its group.
-/

/-! ## Lists -/

/-- The packets a run has sent. -/
def Dev.packets {α : Type} (h : Dev α) (fs : Schedule) (ram : Ram) (w : World) : List Packet :=
  (h.exec fs ram w).state.sent.drop w.sent.length

/-- A packet of an interrogation on UART1 that is not a challenge. -/
def Packet.IsList (p : Packet) : Prop :=
  p.uart = .transfer ∧ p.cmd = interrogateMsg ∧
    p.payload.length ≠ InterrogateChallenge.codec.size

section

variable {fw : Firmware} {ram : Ram} {w : World} {p : Packet}

theorem not_isList_challenge (challenge : InterrogateChallenge) :
    ¬ (interrogateChallengePacket challenge).IsList :=
  fun h => h.2.2 (InterrogateChallenge.codec.length_encode challenge)

/-- A list is longer or shorter than a challenge. -/
theorem length_listResponse_ne (files : List FileMetadata) :
    (listResponse files).length ≠ InterrogateChallenge.codec.size := by
  rw [length_listResponse, InterrogateChallenge.codec_size]
  omega

theorem not_isList_denial (msg : String) : ¬ (denialPacket msg).IsList :=
  fun h => absurd h.2.1 (by simp [denialPacket, errorMsg, interrogateMsg])

theorem not_isList_error (msg : String) : ¬ (errorPacket msg).IsList :=
  fun h => nomatch h.1

/-- A run that appends packets, none of them a list. -/
def Unlisted (w : World) (res : Halt Op World (Int × Ram)) : Prop :=
  ∃ ps, res.state.sent = w.sent ++ ps ∧ ∀ p ∈ ps, ¬ p.IsList

theorem Unlisted.of_sends {h : Dev Int} (hh : h.Sends fun p => p.cmd ≠ interrogateMsg)
    (fs : Schedule) (ram : Ram) (w : World) : Unlisted w (h.exec fs ram w) := by
  obtain ⟨ps, hps, hcmd⟩ := sent_exec (hh ram) fs w
  exact ⟨ps, hps, fun p hp hlist => hcmd p hp hlist.2.1⟩

/-- A denied request gets no list. -/
theorem listenInterrogate_unlisted {t : World} {nr : UInt32} (fs : Schedule)
    (h : ∀ draw proof, t.rng t.draws = some draw → t.acks.headD .ok = .ok →
      t.peer t.recvs (t.sent ++ [interrogateChallengePacket ⟨nr, drawnNonce draw⟩]) =
        .packet interrogateMsg (InterrogateProof.codec.encode proof) →
      ProvesGroups fw ⟨nr, drawnNonce draw⟩ proof →
      ram.Replayed nr (drawnNonce draw) 0 interrogateMsg) :
    Unlisted t
      ((listenInterrogate fw (interrogateRequestCodec.encode nr)).exec fs ram t) := by
  cases hdraw : t.rng t.draws with
  | none =>
    rw [listenInterrogate_noNonce hdraw]
    exact ⟨[_], rfl, List.forall_mem_singleton.mpr (not_isList_denial _)⟩
  | some draw =>
    rw [listenInterrogate_exec hdraw]
    by_cases hack : t.acks.headD .ok = .ok
    swap
    · rw [if_neg hack]
      exact ⟨[_], rfl, List.forall_mem_singleton.mpr (not_isList_challenge _)⟩
    rw [if_pos hack]
    have hdenied : ∀ msg, Unlisted t (.done (-1, ram) ((t.drawn.answered
        (interrogateChallengePacket ⟨nr, drawnNonce draw⟩)).received.answered
          (denialPacket msg)) [] fs) :=
      fun msg => ⟨[_, _], List.append_assoc _ _ _, List.forall_mem_cons.mpr
        ⟨not_isList_challenge _, List.forall_mem_singleton.mpr (not_isList_denial msg)⟩⟩
    by_cases hproof : ∃ proof, ProvesGroups fw ⟨nr, drawnNonce draw⟩ proof ∧
        (t.drawn.answered (interrogateChallengePacket ⟨nr, drawnNonce draw⟩)).incoming
          InterrogateProof.codec.size =
            .packet interrogateMsg (InterrogateProof.codec.encode proof)
    · obtain ⟨proof, hproves, hin⟩ := hproof
      have hreplayed := h draw proof hdraw hack ((Received.fit_eq_encode _).mp hin) hproves
      rw [hin, takeInterrogateProof_accepts hproves, discloseList_exec, if_pos hreplayed]
      exact hdenied _
    · rw [takeInterrogateProof_refuses fun proof hproves hin => hproof ⟨proof, hproves, hin⟩,
        deny_exec]
      exact hdenied _

/-- Without a session that passes, no list is sent. -/
theorem listen_unlisted (h : IsEmpty (ListSession fw ram w)) (fs : Schedule) :
    Unlisted w ((listen fw).exec fs ram w) := by
  rw [listen_exec]
  have hquiet : ∀ k : Dev Int, k.Sends (fun p => p.cmd ≠ interrogateMsg) →
      Unlisted w (k.exec fs ram w.received) :=
    fun k hk => Unlisted.of_sends hk fs ram w.received
  cases hr : w.incoming InterrogateProof.codec.size with
  | failed st => exact hquiet _ (reject_sends (by decide))
  | packet cmd payload =>
    rw [takeRequest]
    by_cases hcmd : cmd = interrogateMsg
    swap
    · rw [if_neg hcmd]
      split
      · exact hquiet _ (listenReceive_sends payload)
      · exact hquiet _ (reject_sends (by decide))
    rw [if_pos hcmd]
    subst hcmd
    by_cases hlen : payload.length = interrogateRequestCodec.size
    swap
    · rw [listenInterrogate_badLength hlen]
      exact hquiet _ (deny_sends (by decide))
    obtain ⟨nr, rfl⟩ : ∃ nr, payload = interrogateRequestCodec.encode nr :=
      ⟨_, (Codec.encode_decode _ hlen).symm⟩
    refine @listenInterrogate_unlisted fw ram w.received nr fs
      fun draw proof hdraw hack hpeer hproves => ?_
    by_contra hfresh
    exact h.false
      { nr, draw, proof
        requested := (Received.fit_eq_packet.mp hr).1
        drawn := hdraw
        answered := hack
        proved := hpeer
        proves := hproves
        fresh := hfresh }

/-- What a session that passes sends. -/
theorem ListSession.sent (x : ListSession fw ram w) (fs : Schedule) :
    ∃ p, ¬ p.IsList ∧ ((listen fw).exec fs ram w).state.sent =
      w.sent ++ [interrogateChallengePacket x.challenge, listPacket ram x.groups, p] := by
  have hfresh : ¬ ram.Replayed x.challenge.requesterNonce x.challenge.targetNonce 0 interrogateMsg :=
    x.fresh
  rw [x.exec_eq, discloseList_exec, if_neg hfresh]
  split
  · refine ⟨⟨.control, listenMsg, []⟩, (fun h => nomatch h.1), ?_⟩
    simp only [Halt.state, World.sent_answered, x.sent_world, List.append_assoc]
    rfl
  · refine ⟨errorPacket "Transfer write failed\n", not_isList_error _, ?_⟩
    simp only [Halt.state, World.sent_answered, x.sent_world, List.append_assoc]
    rfl

end

/-- If `listen` sends a list, every entry of the peer's message was a proof for its group of the
    challenge of this session, whose nonces were not in the replay cache, and the list is that
    of the occupied slots of these groups. -/
theorem listen_lists (fw : Firmware) (fs : Schedule) (ram : Ram) (w : World) (p : Packet)
    (hp : p ∈ (listen fw).packets fs ram w) (hlist : p.IsList) :
    ∃ x : ListSession fw ram w,
      p.payload = listResponse ((ram.slotsOf x.groups).map (fileMetadata ram)) := by
  rcases isEmpty_or_nonempty (ListSession fw ram w) with hno | ⟨⟨x⟩⟩
  · obtain ⟨ps, hps, hunlisted⟩ := listen_unlisted hno fs
    rw [Dev.packets, hps, List.drop_left] at hp
    exact (hunlisted p hp hlist).elim
  · obtain ⟨q, hq, hps⟩ := x.sent fs
    rw [Dev.packets, hps, List.drop_left] at hp
    refine ⟨x, ?_⟩
    obtain rfl | rfl | rfl : p = interrogateChallengePacket x.challenge ∨
        p = listPacket ram x.groups ∨ p = q := by simpa using hp
    · exact (not_isList_challenge _ hlist).elim
    · rw [listPacket, filteredFiles_eq_slotsOf]
    · exact (hq hlist).elim

/-- The sample device, faced with an interrogator that holds the root secret. -/
def World.sampleInterrogated : World :=
  { World.sample with
    peer := fun n _ =>
      if n = 0 then .packet interrogateMsg (interrogateRequestCodec.encode 0)
      else .packet interrogateMsg (InterrogateProof.codec.encode
        (interrogateProof ⟨0, drawnNonce fun _ => 0⟩ (interrogateGroupProofs .sample
          (toKey (Firmware.sample.globalSecrets.drop 97)) ⟨0, drawnNonce fun _ => 0⟩))) }

/-- The sample device with a file of group 1. -/
def World.storedInterrogated : World :=
  { World.sampleStored with
    peer := World.sampleInterrogated.peer
    recvs := 0 }

def ListSession.sample : ListSession .sample .sampleStored .storedInterrogated where
  nr := 0
  draw _ := 0
  proof := interrogateProof ⟨0, drawnNonce fun _ => 0⟩ (interrogateGroupProofs .sample
    (toKey (Firmware.sample.globalSecrets.drop 97)) ⟨0, drawnNonce fun _ => 0⟩)
  requested := rfl
  drawn := rfl
  answered := rfl
  proved := rfl
  proves := provesGroups_interrogateProof Firmware.sample_rootSecret rfl _
  fresh h := by
    obtain ⟨i, hi⟩ := h
    cases hi

/-- The interrogator has proved group 1, and the list has the file in slot 0. -/
theorem listen_lists_sample :
    ∃ p, p ∈ (listen .sample).packets [] .sampleStored .storedInterrogated ∧ p.IsList ∧
      ∃ x : ListSession .sample .sampleStored .storedInterrogated,
        p.payload = listResponse ((Ram.sampleStored.slotsOf x.groups).map
          (fileMetadata .sampleStored)) := by
  obtain ⟨q, -, hps⟩ := ListSession.sample.sent []
  have hp : listPacket .sampleStored ListSession.sample.groups ∈
      (listen .sample).packets [] .sampleStored .storedInterrogated := by
    rw [Dev.packets, hps, List.drop_left]
    simp
  have hlist : (listPacket .sampleStored ListSession.sample.groups).IsList :=
    ⟨rfl, rfl, length_listResponse_ne _⟩
  exact ⟨_, hp, hlist, listen_lists .sample [] .sampleStored .storedInterrogated _ hp hlist⟩

/-! ## Before a proof -/

/-- What a peer on UART1 sees: the packets sent there, and how many were asked for. -/
def World.traffic (w : World) : List Packet × Nat :=
  (w.sent.filter fun p => p.uart = .transfer, w.recvs)

/-- Messages for the host are not seen there. -/
theorem World.traffic_error (w : World) (msg : String) :
    (w.answered (errorPacket msg)).traffic = w.traffic := by
  simp [traffic, answered, errorPacket]

/-- The device with other files: tables in RAM. -/
def Ram.withFiles (ram : Ram) (fat : Slot → FatEntry) (names : Slot → NameEntry) : Ram :=
  { ram with gFat := fat, gNameTable := names }

/-- The device with other files: flash. -/
def World.withFlash (w : World) (m : Mem) : World := { w with flash := m }

/-- The group of the file in a slot, if there is one. -/
def Ram.offers (ram : Ram) (slotNum : UInt8) : Option UInt16 :=
  (slotOccupied ram slotNum).map fun slot => (ram.gNameTable slot).groupId

/-- The peer sends no proof that verifies for the challenge of the session. -/
structure Unproved (fw : Firmware) (ram : Ram) (w : World) : Prop where
  interrogation : ∀ nr draw proof root, w.rng w.draws = some draw →
    w.peer w.recvs w.sent = .packet interrogateMsg (interrogateRequestCodec.encode nr) →
    w.peer (w.recvs + 1) (w.sent ++ [interrogateChallengePacket ⟨nr, drawnNonce draw⟩]) =
      .packet interrogateMsg (InterrogateProof.codec.encode proof) →
    securityGetRootSecret fw = some root → ∀ entry ∈ proof.groups,
      entry.proof ≠ secureCryptoReceiveProofSign fw.prim root entry.groupId
        (interrogateProofMessage ⟨nr, drawnNonce draw⟩ entry.groupId)
  transfer : ∀ request slot draw proof, w.rng w.draws = some draw →
    w.peer w.recvs w.sent = .packet receiveMsg (ReceiveRequest.codec.encode request) →
    slotOccupied ram request.slot = some slot →
    w.peer (w.recvs + 1)
        (w.sent ++ [receiveChallengePacket (offeredChallenge ram request slot draw)]) =
      .packet receiveMsg (ReceiveProof.codec.encode proof) →
    ¬ ProvesReceive fw (offeredChallenge ram request slot draw) proof

/-- The two states offer a request of the peer the same file. -/
def SameOffer (ram ram' : Ram) (w : World) : Prop :=
  ∀ request, w.peer w.recvs w.sent = .packet receiveMsg (ReceiveRequest.codec.encode request) →
    w.rng w.draws ≠ none → ram.offers request.slot = ram'.offers request.slot

section

variable {fw : Firmware} {ram : Ram} {w : World} {fat : Slot → FatEntry}
  {names : Slot → NameEntry} {m : Mem}

/-- A message without a proof that verifies gets the same answer whatever the files. -/
theorem takeInterrogateProof_traffic {challenge : InterrogateChallenge} {r : Received}
    (h : ∀ proof root, r = .packet interrogateMsg (InterrogateProof.codec.encode proof) →
      securityGetRootSecret fw = some root → ∀ entry ∈ proof.groups,
        entry.proof ≠ secureCryptoReceiveProofSign fw.prim root entry.groupId
          (interrogateProofMessage challenge entry.groupId)) (fs : Schedule) (t : World) :
    ((takeInterrogateProof fw challenge r).exec fs ram t).state.traffic =
      ((takeInterrogateProof fw challenge r).exec fs (ram.withFiles fat names)
        (t.withFlash m)).state.traffic := by
  by_cases hproof : ∃ proof, ProvesGroups fw challenge proof ∧
      r = .packet interrogateMsg (InterrogateProof.codec.encode proof)
  · obtain ⟨proof, hproves, rfl⟩ := hproof
    obtain ⟨root, hroot, hverified⟩ := hproves.verified
    -- Only a message of no proofs at all is accepted, and its list is empty.
    have hnone : proof.groups = [] := List.eq_nil_iff_forall_not_mem.mpr fun entry he =>
      h proof root rfl hroot entry he (hverified entry he)
    have hempty : ∀ ram : Ram, listPacket ram [] = ⟨.transfer, interrogateMsg, listResponse []⟩ :=
      fun ram => by simp [listPacket, filteredFiles]
    rw [takeInterrogateProof_accepts hproves, hnone, List.map_nil, discloseList_exec,
      discloseList_exec, hempty, hempty]
    have hreplay : (ram.withFiles fat names).Replayed challenge.requesterNonce
        challenge.targetNonce 0 interrogateMsg = ram.Replayed challenge.requesterNonce
          challenge.targetNonce 0 interrogateMsg := rfl
    have hack : (t.withFlash m).acks = t.acks := rfl
    simp only [hreplay, hack]
    split
    · rfl
    · split <;> rfl
  · rw [takeInterrogateProof_refuses fun proof hproves hr => hproof ⟨proof, hproves, hr⟩]
    rfl

/-- The answer to a request for a file. -/
def offerPacket (request : ReceiveRequest) (draw : Nat → UInt8) : Option UInt16 → Packet
  | none => denialPacket "Could not import file"
  | some groupId => receiveChallengePacket
      ⟨request.slot, groupId, request.requesterNonce, drawnNonce draw⟩

/-- The answer tells apart an empty slot, and the groups of a file. -/
theorem offerPacket_injective (request : ReceiveRequest) (draw : Nat → UInt8) :
    Function.Injective (offerPacket request draw) := by
  intro o o' h
  cases o with
  | none =>
    cases o' with
    | none => rfl
    | some g' => exact absurd (congrArg Packet.cmd h) (by decide : errorMsg ≠ receiveMsg)
  | some g =>
    cases o' with
    | none => exact absurd (congrArg Packet.cmd h) (by decide : receiveMsg ≠ errorMsg)
    | some g' =>
      have hchallenge := Codec.encode_injective ReceiveChallenge.codec (congrArg Packet.payload h)
      exact congrArg some (congrArg ReceiveChallenge.groupId hchallenge)

/-- What the peer sees when it asks for a file and sends no proof. -/
def offerTraffic (t : World) (request : ReceiveRequest) (draw : Nat → UInt8)
    (offer : Option UInt16) : List Packet × Nat :=
  let offered := t.answered (offerPacket request draw offer)
  if offer.isSome ∧ t.acks.headD .ok = .ok then
    (offered.received.answered (denialPacket "Could not import file")).traffic
  else offered.traffic

theorem offerTraffic_first (t : World) (request : ReceiveRequest) (draw : Nat → UInt8)
    (offer : Option UInt16) :
    ∃ rest, (offerTraffic t request draw offer).1 =
      (t.sent.filter fun p => p.uart = .transfer) ++ offerPacket request draw offer :: rest := by
  have huart : (offerPacket request draw offer).uart = .transfer := by
    cases offer <;> rfl
  rw [offerTraffic]
  split
  · refine ⟨[denialPacket "Could not import file"], ?_⟩
    simp [World.traffic, World.received, World.answered, huart, denialPacket]
  · exact ⟨[], by simp [World.traffic, World.answered, huart]⟩

theorem offerTraffic_injective (t : World) (request : ReceiveRequest) (draw : Nat → UInt8) :
    Function.Injective (offerTraffic t request draw) := by
  intro o o' h
  obtain ⟨rest, hfirst⟩ := offerTraffic_first t request draw o
  obtain ⟨rest', hfirst'⟩ := offerTraffic_first t request draw o'
  rw [h, hfirst'] at hfirst
  exact (offerPacket_injective request draw
    (List.cons.inj (List.append_cancel_left hfirst)).1).symm

/-- A request for a file, and no proof. -/
theorem listenReceive_traffic {t : World} {request : ReceiveRequest} {draw : Nat → UInt8}
    (hdraw : t.rng t.draws = some draw)
    (h : ∀ slot proof, slotOccupied ram request.slot = some slot →
      t.peer t.recvs
          (t.sent ++ [receiveChallengePacket (offeredChallenge ram request slot draw)]) =
        .packet receiveMsg (ReceiveProof.codec.encode proof) →
      ¬ ProvesReceive fw (offeredChallenge ram request slot draw) proof) (fs : Schedule) :
    ((listenReceive fw (ReceiveRequest.codec.encode request)).exec fs ram t).state.traffic =
      offerTraffic t request draw (ram.offers request.slot) := by
  cases hslot : slotOccupied ram request.slot with
  | none =>
    rw [listenReceive_notFound hslot, Ram.offers, hslot, offerTraffic, if_neg fun h => nomatch h.1]
    exact World.traffic_error _ _
  | some slot =>
    rw [listenReceive_exec hslot hdraw, Ram.offers, hslot, offerTraffic]
    by_cases hack : t.acks.headD .ok = .ok
    · rw [if_pos hack, if_pos ⟨rfl, hack⟩, takeReceiveProof_refuses, deny_exec]
      · rfl
      · exact fun proof hproves hin =>
          h slot proof hslot ((Received.fit_eq_encode _).mp hin) hproves
    · rw [if_neg hack, if_neg fun h => hack h.2]
      exact World.traffic_error _ _

theorem listen_traffic_transfer {request : ReceiveRequest} (h : Unproved fw ram w)
    (hrequest : w.peer w.recvs w.sent =
      .packet receiveMsg (ReceiveRequest.codec.encode request))
    {draw : Nat → UInt8} (hdraw : w.rng w.draws = some draw) (fs : Schedule) :
    ((listen fw).exec fs ram w).state.traffic =
      offerTraffic w.received request draw (ram.offers request.slot) := by
  have hin : w.incoming InterrogateProof.codec.size =
      .packet receiveMsg (ReceiveRequest.codec.encode request) :=
    Received.fit_eq_packet.mpr ⟨hrequest, .inr (by simp)⟩
  have hdraw' : w.received.rng w.received.draws = some draw := hdraw
  rw [listen_exec, hin, takeRequest, if_neg (by decide), if_pos rfl]
  exact listenReceive_traffic hdraw' (fun slot proof hslot hpeer =>
    h.transfer request slot draw proof hdraw hrequest hslot hpeer) fs

/-- With no request for a file, or no nonce to draw, the files make no difference. -/
theorem listen_traffic_other (h : Unproved fw ram w)
    (hno : ∀ request, w.peer w.recvs w.sent =
      .packet receiveMsg (ReceiveRequest.codec.encode request) → w.rng w.draws = none)
    (fs : Schedule) :
    ((listen fw).exec fs ram w).state.traffic =
      ((listen fw).exec fs (ram.withFiles fat names) (w.withFlash m)).state.traffic := by
  have hsame : (w.withFlash m).incoming InterrogateProof.codec.size =
      w.incoming InterrogateProof.codec.size := rfl
  rw [listen_exec, listen_exec, hsame]
  cases hr : w.incoming InterrogateProof.codec.size with
  | failed st => rfl
  | packet cmd payload =>
    have hpeer : w.peer w.recvs w.sent = .packet cmd payload := (Received.fit_eq_packet.mp hr).1
    rw [takeRequest]
    by_cases hcmd : cmd = interrogateMsg
    · rw [if_pos hcmd]
      subst hcmd
      by_cases hlen : payload.length = interrogateRequestCodec.size
      swap
      · rw [listenInterrogate_badLength hlen]
        rfl
      obtain ⟨nr, rfl⟩ : ∃ nr, payload = interrogateRequestCodec.encode nr :=
        ⟨_, (Codec.encode_decode _ hlen).symm⟩
      cases hdraw : w.rng w.draws with
      | none =>
        have hdraw₁ : w.received.rng w.received.draws = none := hdraw
        have hdraw₂ : (w.withFlash m).received.rng (w.withFlash m).received.draws = none := hdraw
        rw [listenInterrogate_noNonce hdraw₁, listenInterrogate_noNonce hdraw₂]
        rfl
      | some draw =>
        have hdraw₁ : w.received.rng w.received.draws = some draw := hdraw
        have hdraw₂ : (w.withFlash m).received.rng (w.withFlash m).received.draws = some draw :=
          hdraw
        rw [listenInterrogate_exec hdraw₁, listenInterrogate_exec hdraw₂]
        have hack : (w.withFlash m).received.acks = w.received.acks := rfl
        rw [hack]
        split
        · exact takeInterrogateProof_traffic (fun proof root hin hroot =>
            h.interrogation nr draw proof root hdraw hpeer ((Received.fit_eq_encode _).mp hin) hroot)
            fs _
        · rfl
    rw [if_neg hcmd]
    by_cases hcmd' : cmd = receiveMsg
    swap
    · rw [if_neg hcmd']
      rfl
    rw [if_pos hcmd']
    subst hcmd'
    by_cases hlen : payload.length = ReceiveRequest.codec.size
    swap
    · rw [listenReceive_badLength hlen]
      rfl
    obtain ⟨request, rfl⟩ : ∃ request, payload = ReceiveRequest.codec.encode request :=
      ⟨_, (Codec.encode_decode _ hlen).symm⟩
    -- Whether the slot is occupied or not, the denial is the same.
    have hdenied : ∀ (ram : Ram) (t : World), t.rng t.draws = none →
        ((listenReceive fw (ReceiveRequest.codec.encode request)).exec fs ram t).state.traffic =
          (t.answered (denialPacket "Could not import file")).traffic := by
      intro ram t hdraw
      cases hslot : slotOccupied ram request.slot with
      | none =>
        rw [listenReceive_notFound hslot]
        exact World.traffic_error _ _
      | some slot =>
        rw [listenReceive_noNonce hslot hdraw]
        rfl
    rw [hdenied ram w.received (hno request hpeer),
      hdenied (ram.withFiles fat names) (w.withFlash m).received (hno request hpeer)]
    rfl

/-- A peer that asks for a file learns from the answer what `offers` says of its slot. -/
theorem traffic_transfer_iff {request : ReceiveRequest} (h : Unproved fw ram w)
    (h' : Unproved fw (ram.withFiles fat names) w)
    (hpeer : w.peer w.recvs w.sent = .packet receiveMsg (ReceiveRequest.codec.encode request))
    {draw : Nat → UInt8} (hdraw : w.rng w.draws = some draw) (fs : Schedule) (m : Mem) :
    ((listen fw).exec fs ram w).state.traffic =
        ((listen fw).exec fs (ram.withFiles fat names) (w.withFlash m)).state.traffic ↔
      ram.offers request.slot = (ram.withFiles fat names).offers request.slot := by
  have hflash : Unproved fw (ram.withFiles fat names) (w.withFlash m) :=
    ⟨h'.interrogation, h'.transfer⟩
  rw [listen_traffic_transfer h hpeer hdraw,
    listen_traffic_transfer (w := w.withFlash m) hflash hpeer hdraw]
  constructor
  · intro heq
    exact offerTraffic_injective w.received request draw heq
  · intro hsame
    rw [hsame]
    rfl

end

/-- As long as a peer sends no proof that verifies, it sees the same of two devices that differ
    in their files alone, exactly when the slot of a file it asks for has the same occupancy and
    the same group in both, or no nonce can be drawn. -/
theorem listen_reveals_iff (fw : Firmware) (fs : Schedule) (ram : Ram) (w : World)
    (fat : Slot → FatEntry) (names : Slot → NameEntry) (m : Mem) (h : Unproved fw ram w)
    (h' : Unproved fw (ram.withFiles fat names) w) :
    ((listen fw).exec fs ram w).state.traffic =
        ((listen fw).exec fs (ram.withFiles fat names) (w.withFlash m)).state.traffic ↔
      SameOffer ram (ram.withFiles fat names) w := by
  by_cases hreq : ∃ request, w.peer w.recvs w.sent =
      .packet receiveMsg (ReceiveRequest.codec.encode request) ∧ w.rng w.draws ≠ none
  · obtain ⟨request, hpeer, hne⟩ := hreq
    obtain ⟨draw, hdraw⟩ := Option.ne_none_iff_exists'.mp hne
    rw [traffic_transfer_iff h h' hpeer hdraw]
    constructor
    · intro hsame request' hpeer' _
      obtain rfl : request = request' :=
        Codec.encode_injective _ (Received.packet.inj (hpeer.symm.trans hpeer')).2
      exact hsame
    · intro hsame
      exact hsame request hpeer hne
  · have hno : ∀ request, w.peer w.recvs w.sent =
        .packet receiveMsg (ReceiveRequest.codec.encode request) → w.rng w.draws = none :=
      fun request hpeer => by_contra fun hne => hreq ⟨request, hpeer, hne⟩
    exact iff_of_true (listen_traffic_other h hno fs)
      fun request hpeer hne => (hne (hno request hpeer)).elim

/-- The sample device, asked for the file in slot 0 and then left alone. -/
def World.sampleAsked : World :=
  { World.sample with
    peer := fun n _ =>
      if n = 0 then .packet receiveMsg (ReceiveRequest.codec.encode ⟨0, 0⟩) else .failed .timeout }

/-- The sample device before its first transfer, but with a file of group 1 in slot 0. -/
def Ram.sampleHolding : Ram :=
  Ram.sample.withFiles Ram.sampleStored.gFat Ram.sampleStored.gNameTable

theorem Ram.occupied_withFiles (ram ram' : Ram) (slot : Slot) :
    (ram.withFiles ram'.gFat ram'.gNameTable).occupied slot = ram'.occupied slot := rfl

theorem unproved_sampleAsked (ram : Ram) : Unproved .sample ram .sampleAsked where
  interrogation _ _ _ _ _ hpeer := nomatch hpeer
  transfer _ _ _ _ _ _ _ hpeer := nomatch hpeer

theorem listen_reveals_iff_sample :
    ((listen .sample).exec [] .sample .sampleAsked).state.traffic =
        ((listen .sample).exec [] .sampleHolding
          (World.sampleAsked.withFlash World.sampleStored.flash)).state.traffic ↔
      SameOffer .sample .sampleHolding .sampleAsked :=
  listen_reveals_iff .sample [] .sample .sampleAsked _ _ _ (unproved_sampleAsked _)
    (unproved_sampleAsked _)

/-- Asked for a file, the sample device shows without any proof whether it has one. -/
theorem listen_revealsOccupancy :
    Unproved .sample .sample .sampleAsked ∧ Unproved .sample .sampleHolding .sampleAsked ∧
      ((listen .sample).exec [] .sample .sampleAsked).state.traffic ≠
        ((listen .sample).exec [] .sampleHolding
          (World.sampleAsked.withFlash World.sampleStored.flash)).state.traffic := by
  have hpeer : World.sampleAsked.peer 0 [] = .packet receiveMsg (ReceiveRequest.codec.encode ⟨0, 0⟩) :=
    rfl
  refine ⟨unproved_sampleAsked _, unproved_sampleAsked _, fun heq => ?_⟩
  have hoffer : Ram.sample.offers 0 = Ram.sampleHolding.offers 0 :=
    (traffic_transfer_iff (unproved_sampleAsked _) (unproved_sampleAsked _) hpeer rfl [] _).mp heq
  have hoccupied : Ram.sampleHolding.occupied 0 = true := by
    rw [Ram.sampleHolding, Ram.occupied_withFiles]
    exact StoreCommand.occupied_storedRam _ _ _
  have hholds : Ram.sampleHolding.offers 0 = some (Ram.sampleHolding.gNameTable 0).groupId := by
    have hslot : slotOccupied .sampleHolding 0 = some 0 := by
      show Option.filter Ram.sampleHolding.occupied (some 0) = some 0
      rw [Option.filter_some, hoccupied]
      rfl
    rw [Ram.offers, hslot, Option.map_some]
  rw [hholds] at hoffer
  cases hoffer
