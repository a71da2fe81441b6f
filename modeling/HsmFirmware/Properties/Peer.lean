-- SUMMARY: What receive checks of its peer: it takes files from anyone, and files of another group than the challenge named.
import HsmFirmware.Specs.Receive

/-!
# Peers of receive

The handshake proves to the peer that the requester may receive the group. Nothing in
the response proves anything to the requester: a peer without any key that echoes the
request gets a file stored, and the group of that file need not be the group of the
challenge.
-/

open Machine (replay)

/-! ## Peers -/

/-- A peer on UART1: what it sends for the `n`-th packet asked for, from the packets it has
    seen. It has no key. -/
abbrev PeerStrategy := (n : Nat) → (seen : List Packet) → Received

/-- The world with such a peer on UART1. -/
def World.facing (w : World) (s : PeerStrategy) (acks : List MsgStatus) : World :=
  { w with
    peer := fun n sent => s n (sent.filter fun p => p.uart = .transfer)
    acks := acks }

/-- A file without contents or name. -/
def File.blank (groupId : UInt16) : File where
  inUse := fileInUse
  groupId := groupId
  name := .replicate 32 0
  contentsLen := 0
  nonce := .replicate 12 0
  tag := .replicate 16 0
  contents := .replicate 8192 0

/-- The peer that echoes slot and nonce of a request in a challenge for one group, and
    answers anything else with a blank file of another. -/
def impostor (challengeGroup fileGroup : UInt16) : PeerStrategy := fun _ seen =>
  match seen.getLast? with
  | none => .failed .timeout
  | some p =>
    if p.payload.length = ReceiveRequest.codec.size then
      let request := ReceiveRequest.codec.decode p.payload
      .packet receiveMsg (ReceiveChallenge.codec.encode
        ⟨request.slot, challengeGroup, request.requesterNonce, 0⟩)
    else
      .packet receiveMsg (ReceiveResponse.codec.encode ⟨.replicate 16 0, .blank fileGroup⟩)

section

variable {fw : Firmware} {readSlot : UInt8} {w : World}

/-- The handshake with the impostor passes every check of `receive`. -/
def ReceiveExchange.withImpostor {draw : Nat → UInt8} {root : Key} (challengeGroup : UInt16)
    (fileGroup : UInt16) (hdraw : w.rng w.draws = some draw)
    (hroot : securityGetRootSecret fw = some root)
    (hperm : validatePermission fw challengeGroup .permReceive = true) :
    ReceiveExchange fw readSlot (w.facing (impostor challengeGroup fileGroup) []) where
  draw := draw
  challenge := ⟨readSlot, challengeGroup, drawnNonce draw, 0⟩
  root := root
  resp := ⟨.replicate 16 0, .blank fileGroup⟩
  drawn := hdraw
  requested := rfl
  challenged := by
    simp [World.facing, impostor, requestPacket]
  sameSlot := rfl
  sameNonce := rfl
  permitted := hperm
  rootSecret := hroot
  proved := rfl
  responded := by
    simp [World.facing, impostor, proofPacket]

end

/-! ## Taking files from anyone -/

/-- The commands touch neither the slots nor the FAT. -/
def OutsideFiles (L : List Op) : Prop :=
  ∀ o ∈ L, o.Within nameTableAddr (pinStateAddr + pageSize)

/-- However a command ends, it does not return 0 and stores no file. -/
def StoresNothing (ram : Ram) (res : Halt Op World (Int × Ram)) : Prop :=
  res.Sat (fun r _ L _ => r.1 ≠ 0 ∧ r.2.gFat = ram.gFat ∧ OutsideFiles L) fun _ L => OutsideFiles L

theorem OutsideFiles.append {L L' : List Op} (h : OutsideFiles L) (h' : OutsideFiles L') :
    OutsideFiles (L ++ L') :=
  fun o ho => (List.mem_append.mp ho).elim (h o) (h' o)

theorem OutsideFiles.take {L : List Op} (h : OutsideFiles L) (k : Nat) : OutsideFiles (L.take k) :=
  fun o ho => h o (List.mem_of_mem_take ho)

theorem OutsideFiles.ofPin {L : List Op}
    (h : ∀ o ∈ L, o.Within pinStateAddr (pinStateAddr + pageSize)) : OutsideFiles L :=
  fun o ho => (h o ho).mono (by decide) (Nat.le_refl _)

theorem outsideFiles_nameOps (ram : Ram) (slot : Slot) (entry : NameEntry) :
    OutsideFiles (nameOps ram slot entry) :=
  pageOps_within (by decide) (by simp) (Nat.le_refl _) (by decide)

section

variable {fw : Firmware} {pktLen : UInt16} {buf : Mem} {ram : Ram} {w : World}

/-- A PIN can be right only on a device with a root secret. -/
theorem PinCorrect.rootSecret {pin : Bytes} (h : PinCorrect fw ram pin) :
    ∃ root, securityGetRootSecret fw = some root := by
  have hhash := h.2
  rw [computePinHash] at hhash
  cases hroot : securityGetRootSecret fw with
  | none =>
    rw [hroot] at hhash
    cases hhash
  | some root => exact ⟨root, rfl⟩

theorem StoresNothing.report {res : Halt Op World (Int × Ram)} {ram' : Ram} {L : List Op}
    (h : StoresNothing ram' res) (hram : ram'.gFat = ram.gFat) (hL : OutsideFiles L) :
    StoresNothing ram ((res.andThen receiveReport).logged L) := by
  cases res with
  | off t l => exact hL.append h
  | done r t l rest =>
    obtain ⟨hrc, hfat, hl⟩ := h
    rw [Halt.andThen_done, receiveReport, if_pos hrc, Halt.logged_done, Halt.logged_done,
      List.append_nil]
    exact ⟨by simp, hfat.trans hram, hL.append hl⟩

/-- A store that gets no nonce for its record writes the name page only. -/
theorem storeReceivedBlob_storesNothing (hgcm : fw.prim.GcmLaws) {slotNum : UInt8}
    {uuid : Vector UInt8 16} {file : File} {pin : Bytes}
    (h : slotIsValid slotNum = none ∨ w.rng w.draws = none) (fs : Schedule) :
    StoresNothing ram ((storeReceivedBlob fw slotNum uuid file pin).exec fs ram w) := by
  have hquiet : ∀ msg : String, StoresNothing ram
      (.done (-1, ram) (w.answered (errorPacket msg)) [] fs) :=
    fun msg => ⟨by simp, rfl, fun o ho => (List.not_mem_nil ho).elim⟩
  rw [storeReceivedBlob]
  by_cases hlen : maxContentsSize < file.contentsLen.toNat
  · rw [if_pos hlen, reject_exec]
    exact hquiet _
  by_cases hperm : validatePermission fw file.groupId .permReceive = true
  swap
  · rw [if_neg hlen, if_pos (by simpa using hperm), reject_exec]
    exact hquiet _
  rw [if_neg hlen, if_neg (by simpa using hperm)]
  by_cases hdeclined : getPinHash fw pin = none ∨ slotIsValid slotNum = none
  · obtain ⟨msg, hexec⟩ := @StoreRequest.store_declines fw ram w ⟨slotNum, file.name, file.groupId,
      uuid, file.contents.toList.take file.contentsLen.toNat, pin⟩ hdeclined fs
    rw [StoreRequest.store] at hexec
    rw [hexec]
    exact hquiet msg
  obtain ⟨pinHash, hpin⟩ := Option.ne_none_iff_exists'.mp fun h => hdeclined (.inl h)
  obtain ⟨slot, hslot⟩ := Option.ne_none_iff_exists'.mp fun h => hdeclined (.inr h)
  have hdraw : w.rng w.draws = none := h.resolve_left fun h => hdeclined (.inr h)
  have hend := @storeFile_ending fw slotNum slot file.groupId pin pinHash file.name uuid
    (file.contents.toList.take file.contentsLen.toNat) hgcm hslot hpin fs ram w
  have hsetup : blobWriteSetup fw slot (file.contents.toList.take file.contentsLen.toNat) pinHash
      file.groupId.toUInt32 (w.rng w.draws) = none := by
    rw [hdraw, blobWriteSetup]
    split <;> [rfl; (split <;> rfl)]
  rw [hsetup] at hend
  have hname := outsideFiles_nameOps ram slot
  generalize (storeFile fw slotNum file.name file.groupId uuid
    (file.contents.toList.take file.contentsLen.toNat) pin).exec fs ram w = res at hend ⊢
  cases hend with
  | stored hr => cases hr
  | recordCut hr => cases hr
  | nameRefused hk => exact ⟨by simp, rfl, (hname _).take _⟩
  | nameCut hk hfs hlost => exact (hname _).take _
  | @undone B k aad t rest hB =>
    obtain ⟨-, rfl⟩ | ⟨r, j, hr, -⟩ := hB
    · exact ⟨by simp, rfl, (hname _).append ((hname _).take _)⟩
    · cases hr
  | @undoneCut B k t hB =>
    obtain ⟨-, rfl⟩ | ⟨r, j, hr, -⟩ := hB
    · exact (hname _).append ((hname _).take _)
    · cases hr

/-- The condition under which `receive` refuses every peer. -/
def RefusesEveryPeer (fw : Firmware) (pktLen : UInt16) (buf : Mem) (ram : Ram) (w : World) : Prop :=
  pktLen < 8 ∨ ¬ PinCorrect fw ram (buf.read 0 pinLength) ∨ w.rng w.draws = none ∨
    w.rng (w.draws + 1) = none ∨ slotIsValid (buf 7) = none ∨
      ∀ groupId, validatePermission fw groupId .permReceive = false

/-- The impostor gets its blank file stored in the slot asked for. -/
theorem receive_runs_impostor (hgcm : fw.prim.GcmLaws) {slot : Slot}
    {challengeGroup fileGroup : UInt16} (hlen : ¬ pktLen < 8)
    (hpin : PinCorrect fw ram (buf.read 0 pinLength)) (hdraw : w.rng w.draws ≠ none)
    (hdraw' : w.rng (w.draws + 1) ≠ none) (hslot : slotIsValid (buf 7) = some slot)
    (hchallenge : validatePermission fw challengeGroup .permReceive = true)
    (hfile : validatePermission fw fileGroup .permReceive = true) :
    ∃ (x : ReceiveExchange fw (buf 6) (w.facing (impostor challengeGroup fileGroup) []))
      (r : BlobRecord) (w' : World) (L : List Op), r.slot = slot ∧
        x.challenge.groupId = challengeGroup ∧ x.resp.file.groupId = fileGroup ∧
        (receive fw pktLen buf).Runs ram (w.facing (impostor challengeGroup fileGroup) []) 0
          ((x.store (buf 7) (buf.read 0 pinLength)).storedRam (ram.setFails 0) r) w' L := by
  obtain ⟨draw, hdraw⟩ := Option.ne_none_iff_exists'.mp hdraw
  obtain ⟨draw', hdraw'⟩ := Option.ne_none_iff_exists'.mp hdraw'
  obtain ⟨root, hroot⟩ := hpin.rootSecret
  let x : ReceiveExchange fw (buf 6) (w.facing (impostor challengeGroup fileGroup) []) :=
    .withImpostor challengeGroup fileGroup hdraw hroot hchallenge
  have haccepted : (x.store (buf 7) (buf.read 0 pinLength)).Accepted fw :=
    ⟨show ¬ maxContentsSize < (0 : UInt16).toNat by decide, hfile⟩
  have hsetup : (x.store (buf 7) (buf.read 0 pinLength)).setup fw slot ram.gPinHash x.world = some
      { slot := slot
        data := []
        ownerPinHash := ram.gPinHash
        groupMask := fileGroup.toUInt32
        nonce := (Codec.bytes 12).decode ((List.range 12).map draw')
        masterKey := secureCryptoDeriveFileEncKey fw.prim root fileGroup } := by
    show blobWriteSetup fw slot [] ram.gPinHash fileGroup.toUInt32 (w.rng (w.draws + 1)) = _
    rw [blobWriteSetup, if_neg (by simp), hroot, Option.bind_some, deriveFileKey_toUInt32, hdraw']
    rfl
  exact ⟨x, _, _, _, rfl, rfl, rfl, receive_runs hgcm hlen hpin x haccepted hslot
    (hpin.pinHash (Mem.length_read _ _ _)) hsetup⟩

/-- A device in a state in which some peer gets a file stored lets the impostor do it. -/
theorem receive_stores_impostor (hgcm : fw.prim.GcmLaws)
    (h : ¬ RefusesEveryPeer fw pktLen buf ram w) :
    ∃ groupId ram' w' L, (receive fw pktLen buf).Runs ram (w.facing (impostor groupId groupId) [])
      0 ram' w' L := by
  simp only [RefusesEveryPeer, not_or, not_not] at h
  obtain ⟨hlen, hpin, hdraw, hdraw', hslot, hperm⟩ := h
  obtain ⟨groupId, hperm⟩ := not_forall.mp hperm
  obtain ⟨slot, hslot⟩ := Option.ne_none_iff_exists'.mp hslot
  have hperm : validatePermission fw groupId .permReceive = true := by simpa using hperm
  obtain ⟨x, r, w', L, -, -, -, hrun⟩ :=
    receive_runs_impostor hgcm hlen hpin hdraw hdraw' hslot hperm hperm
  exact ⟨groupId, _, w', L, hrun⟩

/-- Such a state lets no peer at all get a file stored. -/
theorem receive_storesNothing (hgcm : fw.prim.GcmLaws) (h : RefusesEveryPeer fw pktLen buf ram w)
    (s : PeerStrategy) (acks : List MsgStatus) (fs : Schedule) :
    StoresNothing ram ((receive fw pktLen buf).exec fs ram (w.facing s acks)) := by
  have hend := @receive_ending fw pktLen buf fs ram (w.facing s acks)
  generalize (receive fw pktLen buf).exec fs ram (w.facing s acks) = res at hend ⊢
  cases hend with
  | refused _ hram hL => exact ⟨by simp, hram.gFat, .ofPin hL⟩
  | cut hL => exact .ofPin hL
  | @entered j hlen hpin x =>
    have hlate : slotIsValid (buf 7) = none ∨ w.rng (w.draws + 1) = none := by
      rcases h with h | h | h | h | h | h
      · exact (hlen h).elim
      · exact (h hpin).elim
      · exact (Option.some_ne_none _ (x.drawn.symm.trans h)).elim
      · exact .inr h
      · exact .inl h
      · exact (Bool.false_ne_true ((h x.challenge.groupId).symm.trans x.permitted)).elim
    refine @StoresNothing.report ram _ (ram.setFails 0) _ ?_ rfl
      ((OutsideFiles.ofPin (gateOps_within ram)).take j)
    exact storeReceivedBlob_storesNothing hgcm hlate _

end

/-- `receive` lets no peer get a file stored exactly in the states in which it lets the impostor
    store none, which has no key: the packet is short, the PIN wrong, a nonce cannot be drawn, the
    slot to write is out of range, or the device may receive no group. -/
theorem receive_authentic_iff (fw : Firmware) (hgcm : fw.prim.GcmLaws) (pktLen : UInt16) (buf : Mem)
    (ram : Ram) (w : World) :
    ((∀ (s : PeerStrategy) (acks : List MsgStatus) (fs : Schedule),
      StoresNothing ram ((receive fw pktLen buf).exec fs ram (w.facing s acks))) ↔
      RefusesEveryPeer fw pktLen buf ram w) ∧
    ((∀ groupId, StoresNothing ram
      ((receive fw pktLen buf).exec [] ram (w.facing (impostor groupId groupId) []))) ↔
      RefusesEveryPeer fw pktLen buf ram w) := by
  have hforged : (∀ groupId, StoresNothing ram
      ((receive fw pktLen buf).exec [] ram (w.facing (impostor groupId groupId) []))) →
      RefusesEveryPeer fw pktLen buf ram w := by
    intro hnothing
    by_contra hnot
    obtain ⟨groupId, ram', w', L, hrun⟩ := receive_stores_impostor hgcm hnot
    have hexec : (receive fw pktLen buf).exec [] ram (w.facing (impostor groupId groupId) []) = _ :=
      hrun
    have hstored := hnothing groupId
    rw [hexec] at hstored
    exact hstored.1 rfl
  constructor
  · constructor
    · intro hall
      exact hforged fun groupId => hall (impostor groupId groupId) [] []
    · exact receive_storesNothing hgcm
  · constructor
    · exact hforged
    · intro hrefuses groupId
      exact receive_storesNothing hgcm hrefuses (impostor groupId groupId) [] []

theorem receive_authentic_iff_sample :
    ¬ ∀ groupId, StoresNothing .sample ((receive .sample 8 (sampleReceive 0 1)).exec [] .sample
      (World.sample.facing (impostor groupId groupId) [])) := by
  have hpin : (sampleReceive 0 1).read 0 pinLength = ascii "a1b2c3" := by decide
  rw [(receive_authentic_iff .sample Firmware.sample_gcmLaws 8 (sampleReceive 0 1) .sample .sample).2,
    RefusesEveryPeer, hpin]
  rintro (hlen | hwrong | hdraw | hdraw | hslot | hperm)
  · exact absurd hlen (by decide)
  · exact hwrong Ram.sample_pinCorrect
  · cases hdraw
  · cases hdraw
  · exact absurd hslot (by decide)
  · exact absurd (hperm 1) (by decide)

/-- The sample device takes a file of group 1 from a peer without a key. -/
theorem receive_takesForgery :
    ∃ ram' w' L, (receive .sample 8 (sampleReceive 0 1)).exec [] .sample
        (World.sample.facing (impostor 1 1) []) = .done (0, ram') w' L [] ∧
      (Ram.sample.gFat 1).isEmpty = true ∧ (ram'.gFat 1).isEmpty = false := by
  obtain ⟨x, r, w', L, hslot, -, -, hrun⟩ := @receive_runs_impostor .sample 8 (sampleReceive 0 1)
    .sample .sample Firmware.sample_gcmLaws 1 1 1 (by decide) Ram.sample_pinCorrect (by simp [World.sample])
    (by simp [World.sample]) (by decide) (by decide) (by decide)
  refine ⟨_, w', L, hrun, rfl, ?_⟩
  rw [(StoreCommand.sameTables_storedRam _ _ r).2.1, ← hslot, Function.update_self]
  exact BlobRecord.isEmpty_fatEntry _

/-! ## Taking files of another group -/

/-- A well-formed file of a group is stored in a slot. -/
structure StoredFile (fw : Firmware) (ram : Ram) (m : Mem) (slot : Slot) (groupId : UInt16) :
    Prop where
  entry : (ram.gNameTable slot).groupId = groupId
  terminated : (ram.gNameTable slot).name.get ⟨31, lastNameByte⟩ = 0
  record : ∃ header, loadHeader m ram.gFat slot = .ok header ∧
    header.groupMask = groupId.toUInt32 ∧ header.plaintextLen.toNat ≤ maxContentsSize
  permitted : validatePermission fw groupId .permReceive = true

/-- The file a run of `receive` stored, under the group of the challenge it signed. -/
def BoundToChallenge (fw : Firmware) (buf : Mem) (w w' : World) (ram' : Ram) : Prop :=
  ∃ slot proof, slotIsValid (buf 7) = some slot ∧
    (w'.sent.drop w.sent.length)[1]? =
      some ⟨.transfer, receiveMsg, ReceiveProof.codec.encode proof⟩ ∧
    StoredFile fw ram' w'.flash slot proof.groupId

section

variable {fw : Firmware} {pktLen : UInt16} {buf : Mem} {ram ram' : Ram} {w w' : World}

/-- The file that `store_received_blob` stores is well formed, and of its own group. -/
theorem storedFile_of_success (hgcm : fw.prim.GcmLaws) {slotNum : UInt8} {uuid : Vector UInt8 16}
    {file : File} {pin : Bytes} {L : List Op} {r : BlobRecord} {pinHash : Digest}
    (h : (StoreCommand.byReceive slotNum uuid file pin).Success fw ram w ram' L r pinHash) (m : Mem) :
    StoredFile fw ram' (replay flashStep L m) r.slot file.groupId := by
  obtain ⟨hlen, hperm⟩ := h.accepted
  have hcontents : (StoreCommand.byReceive slotNum uuid file pin).request.contents.length ≤
      maxContentsSize :=
    (List.length_take_le _ _).trans (Nat.not_lt.mp hlen)
  have hrlen : r.data.length ≤ maxContentsSize := by rwa [h.data]
  refine ⟨?_, ?_, ⟨_, (h.storedIn hgcm hcontents m).loads hrlen h.fatEntry, ?_, ?_⟩, hperm⟩
  · rw [h.nameEntry]
    rfl
  · rw [h.nameEntry]
    exact Vector.getElem_set_self _
  · exact h.groupMask
  · rw [BlobRecord.toNat_plaintextLen hrlen]
    exact hrlen

/-- The file stored is the one of the response, and the challenge signed the one received. -/
theorem boundToChallenge_iff (hgcm : fw.prim.GcmLaws) {fs rest : Schedule} {L : List Op}
    (hrun : (receive fw pktLen buf).exec fs ram w = .done (0, ram') w' L rest)
    (x : ReceiveExchange fw (buf 6) w) :
    BoundToChallenge fw buf w w' ram' ↔ x.resp.file.groupId = x.challenge.groupId := by
  obtain ⟨y, r, pinHash, L₁, L₂, rfl, hsuccess, hsent⟩ := receive_success hgcm hrun
  obtain rfl := x.unique y
  have hflash : w'.flash = replay flashStep L₂ (replay flashStep L₁ w.flash) := by
    have hall := (receive fw pktLen buf).flash_exec fs ram w
    rw [hrun, Halt.log, Machine.replay_append] at hall
    exact hall
  have hstored := storedFile_of_success hgcm hsuccess (replay flashStep L₁ w.flash)
  rw [← hflash] at hstored
  have hproof : (w'.sent.drop w.sent.length)[1]? = some (proofPacket fw x.root x.challenge) := by
    rw [hsent, List.append_assoc, List.drop_left]
    rfl
  constructor
  · rintro ⟨slot, proof, hslot, hpacket, hfile⟩
    obtain rfl : r.slot = slot := Option.some.inj (hsuccess.slotIs.symm.trans hslot)
    have hencode := congrArg Packet.payload (Option.some.inj (hproof.symm.trans hpacket))
    obtain rfl : signedProof fw x.root x.challenge = proof :=
      Codec.encode_injective ReceiveProof.codec hencode
    exact hstored.entry.symm.trans hfile.entry
  · intro hgroup
    refine ⟨r.slot, signedProof fw x.root x.challenge, hsuccess.slotIs, hproof, ?_⟩
    rw [hgroup] at hstored
    exact hstored

end

/-- A file that `receive` stored is well formed and of the group of the challenge it signed in
    the same run, exactly when the peer names that group in its response too. -/
theorem receive_bound_iff (fw : Firmware) (hgcm : fw.prim.GcmLaws) (pktLen : UInt16) (buf : Mem)
    (fs : Schedule) (ram : Ram) (w : World) (ram' : Ram) (w' : World) (L : List Op)
    (rest : Schedule) (hrun : (receive fw pktLen buf).exec fs ram w = .done (0, ram') w' L rest) :
    BoundToChallenge fw buf w w' ram' ↔
      ∃ x : ReceiveExchange fw (buf 6) w, x.resp.file.groupId = x.challenge.groupId := by
  constructor
  · intro hbound
    obtain ⟨x, -⟩ := receive_success hgcm hrun
    exact ⟨x, (boundToChallenge_iff hgcm hrun x).mp hbound⟩
  · rintro ⟨x, hgroup⟩
    exact (boundToChallenge_iff hgcm hrun x).mpr hgroup

theorem receive_bound_iff_sample :
    ∃ ram' w' L, (receive .sample 8 (sampleReceive 0 1)).exec [] .sample
        (World.sample.facing (impostor 1 1) []) = .done (0, ram') w' L [] ∧
      (BoundToChallenge .sample (sampleReceive 0 1) (World.sample.facing (impostor 1 1) []) w' ram' ↔
        ∃ x : ReceiveExchange .sample (sampleReceive 0 1 6)
          (World.sample.facing (impostor 1 1) []), x.resp.file.groupId = x.challenge.groupId) := by
  obtain ⟨x, r, w', L, -, -, -, hrun⟩ := @receive_runs_impostor .sample 8 (sampleReceive 0 1)
    .sample .sample Firmware.sample_gcmLaws 1 1 1 (by decide) Ram.sample_pinCorrect
    (by simp [World.sample]) (by simp [World.sample]) (by decide) (by decide) (by decide)
  exact ⟨_, w', L, hrun, receive_bound_iff .sample Firmware.sample_gcmLaws 8 (sampleReceive 0 1) []
    .sample _ _ w' L [] hrun⟩

/-- A build that may receive two groups. -/
def Firmware.sampleReceiver : Firmware :=
  { Firmware.sample with
    globalPermissions := fun i => if i = 0 then ⟨1, true, true, true⟩ else ⟨2, true, true, true⟩ }

/-- Asked for a file of group 1, the peer sends one of group 2, which is stored. -/
theorem receive_storesOtherGroup :
    ∃ ram' w' L, (receive .sampleReceiver 8 (sampleReceive 0 1)).exec [] .sample
        (World.sample.facing (impostor 1 2) []) = .done (0, ram') w' L [] ∧
      ¬ BoundToChallenge .sampleReceiver (sampleReceive 0 1)
        (World.sample.facing (impostor 1 2) []) w' ram' := by
  have hgcm : Firmware.sampleReceiver.prim.GcmLaws := Primitives.release_gcmLaws _
  have hhash : computePinHash .sampleReceiver (ascii "a1b2c3") =
      computePinHash .sample (ascii "a1b2c3") := by
    simp only [computePinHash, securityGetRootSecret, Firmware.sampleReceiver]
  have hpin : PinCorrect .sampleReceiver .sample (ascii "a1b2c3") :=
    ⟨Ram.sample_pinCorrect.1, hhash.trans Ram.sample_pinCorrect.2⟩
  obtain ⟨x, r, w', L, -, hchallenge, hfile, hrun⟩ := @receive_runs_impostor .sampleReceiver 8
    (sampleReceive 0 1) .sample .sample hgcm 1 1 2 (by decide) hpin (by simp [World.sample])
    (by simp [World.sample]) (by decide) (by decide) (by decide)
  refine ⟨_, w', L, hrun, fun hbound => ?_⟩
  have hgroup := (boundToChallenge_iff hgcm hrun x).mp hbound
  rw [hchallenge, hfile] at hgroup
  exact absurd hgroup (by decide)
