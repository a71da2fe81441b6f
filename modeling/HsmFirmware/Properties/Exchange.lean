-- SUMMARY: Honest exchanges end to end: the list an interrogation delivers, and the file a transfer copies.
import HsmFirmware.Specs.Exchange
import HsmFirmware.Specs.Images

/-!
# Exchanges between honest devices

Two devices with the same root secret and a link that loses nothing: whatever the order in
which they move and the bytes arrive, `interrogate` delivers the list of the files the
interrogator may receive, and `receive` stores a copy of the file it asks for.
-/

/-! ## Interrogation -/

/-- A group that the device may receive, by some row of its permission table. -/
def Firmware.MayReceive (fw : Firmware) (groupId : UInt16) : Prop :=
  ∃ i, (fw.globalPermissions i).groupId = groupId ∧ (fw.globalPermissions i).receive = true

theorem mem_groups_interrogateGroupProofs {fw : Firmware} {root : Key}
    {challenge : InterrogateChallenge} {groupId : UInt16} :
    groupId ∈ (interrogateGroupProofs fw root challenge).map (·.groupId) ↔
      fw.MayReceive groupId := by
  simp only [interrogateGroupProofs, List.map_map, List.mem_map, List.mem_filter,
    List.mem_finRange, true_and, Function.comp_apply, Firmware.MayReceive]
  exact exists_congr fun i => and_comm

theorem Ram.mem_slotsOf {ram : Ram} {groups : List UInt16} {slot : Slot} :
    slot ∈ ram.slotsOf groups ↔
      (ram.gNameTable slot).groupId ∈ groups ∧ ram.occupied slot = true := by
  simp [slotsOf]

theorem Ram.slotsOf_sorted (ram : Ram) (groups : List UInt16) :
    (ram.slotsOf groups).Pairwise (· < ·) :=
  (List.pairwise_lt_finRange maxSlots).filter _

/-- The list delivered to the host of the interrogator has its number of entries in front. The
    entries are the metadata of the occupied slots of the target whose group the interrogator
    may receive, in ascending order. -/
theorem interrogate_exact (fw fw' : Firmware) (root : Key) (draw draw' : Nat → UInt8)
    (pktLen : UInt16) (buf : Mem) (ram ram' : Ram) (w v : World)
    (hroot : securityGetRootSecret fw = some root) (hroot' : securityGetRootSecret fw' = some root)
    (hprim : fw.prim = fw'.prim) (hlen : ¬ pktLen < 6)
    (hpin : PinCorrect fw ram (buf.read 0 pinLength)) (hdraw : w.rng w.draws = some draw)
    (hdraw' : v.rng v.draws = some draw')
    (hfresh : ¬ ram'.Replayed (drawnNonce draw) (drawnNonce draw') 0 interrogateMsg) :
    ∃ (slots : List Slot) (nFiles : UInt32),
      slots.Pairwise (· < ·) ∧
      (∀ slot, slot ∈ slots ↔
        ram'.occupied slot = true ∧ fw.MayReceive (ram'.gNameTable slot).groupId) ∧
      nFiles.toNat = slots.length ∧
      Net.EndsIn linkNext linkNext
        (dialogue (interrogate fw pktLen buf) ram w (listen fw') ram' v)
        (dialogueEnd (w.acks.headD .ok).toInt (ram.setFails 0)
          ((w.after (gateOps ram)).drawn.answered ⟨.control, interrogateMsg,
            Codec.u32.encode nFiles ++
              (slots.map fun slot => FileMetadata.codec.encode (fileMetadata ram' slot)).flatten⟩)
          0 (ram'.remember (drawnNonce draw) (drawnNonce draw') 0 interrogateMsg)
          (v.drawn.answered ⟨.control, listenMsg, []⟩)) := by
  let challenge : InterrogateChallenge := ⟨drawnNonce draw, drawnNonce draw'⟩
  let proofs := interrogateGroupProofs fw root challenge
  have hgroups : (interrogateProof challenge proofs).groups = proofs :=
    groups_interrogateProof _ (length_interrogateGroupProofs fw root challenge)
  have hlisten := @listen_lists_talks fw' ram' v draw' challenge (interrogateProof challenge proofs)
    hdraw' rfl (provesGroups_interrogateProof hroot' hprim challenge) hfresh
  rw [hgroups] at hlisten
  have hends := Dev.Says.endsIn
    (interrogate_talks hlen hpin hdraw hroot rfl (length_listResponse_le ram' _)) hlisten
  refine ⟨ram'.slotsOf (proofs.map (·.groupId)),
    UInt32.ofNat ((ram'.slotsOf (proofs.map (·.groupId))).map (fileMetadata ram')).length,
    ram'.slotsOf_sorted _, fun slot => ?_, ?_, ?_⟩
  · rw [Ram.mem_slotsOf, mem_groups_interrogateGroupProofs, and_comm]
  · have hle : (ram'.slotsOf (proofs.map (·.groupId))).length ≤ 8 :=
      (List.length_filter_le _ _).trans (by simp)
    rw [List.length_map, UInt32.toNat_ofNat', Nat.mod_eq_of_lt (by omega)]
  · rw [listResponse, filteredFiles_eq_slotsOf, List.map_map] at hends
    exact hends

/-- The sample device interrogates a device of the same build with a file in slot 0. -/
theorem interrogate_exact_sample :
    ∃ (slots : List Slot) (nFiles : UInt32),
      slots.Pairwise (· < ·) ∧
      (∀ slot, slot ∈ slots ↔ Ram.sampleStored.occupied slot = true ∧
        Firmware.sample.MayReceive (Ram.sampleStored.gNameTable slot).groupId) ∧
      nFiles.toNat = slots.length ∧
      Net.EndsIn linkNext linkNext
        (dialogue (interrogate .sample 6 (sampleWrite 0 1 "a")) .sample .sample (listen .sample)
          .sampleStored .sampleStored)
        (dialogueEnd (World.sample.acks.headD .ok).toInt (Ram.sample.setFails 0)
          ((World.sample.after (gateOps .sample)).drawn.answered ⟨.control, interrogateMsg,
            Codec.u32.encode nFiles ++ (slots.map fun slot =>
              FileMetadata.codec.encode (fileMetadata .sampleStored slot)).flatten⟩)
          0 (Ram.sampleStored.remember (drawnNonce fun _ => 0) (drawnNonce fun _ => 0) 0
            interrogateMsg)
          (World.sampleStored.drawn.answered ⟨.control, listenMsg, []⟩)) := by
  have hpin : (sampleWrite 0 1 "a").read 0 pinLength = ascii "a1b2c3" := by decide
  refine interrogate_exact .sample .sample _ (fun _ => 0) (fun _ => 0) 6 (sampleWrite 0 1 "a")
    .sample .sampleStored .sample .sampleStored Firmware.sample_rootSecret
    Firmware.sample_rootSecret rfl (by decide) ?_ rfl rfl ?_
  · rw [hpin]
    exact Ram.sample_pinCorrect
  · rintro ⟨i, hi⟩
    cases hi

/-! ## Transfer -/

open Machine (replay)

/-- A whole read that gave these contents. -/
structure BlobRead.Gives (r : BlobRead) (contents : Bytes) : Prop where
  status : r.status = .ok
  out : r.out.read 0 r.outLen = contents

/-- `blob_read_all_group_mask` of a slot, for its group in the name table. -/
def readForTransfer (fw : Firmware) (m : Mem) (ram : Ram) (slot : Slot) : BlobRead :=
  blobReadAllGroupMask fw m ram (UInt8.ofNat slot) (ram.gNameTable slot).groupId.toUInt32
    (fun _ => 0) 0 maxContentsSize

/-- `blob_read_all` of a slot, for the PIN of the device and all groups. -/
def readForOwner (fw : Firmware) (m : Mem) (ram : Ram) (slot : Slot) : BlobRead :=
  blobReadAll fw m ram (UInt8.ofNat slot) ram.gPinHash 0xFFFFFFFF (fun _ => 0) 0 maxContentsSize

theorem ReadsContents.gives {ram : Ram} {contents : Option Bytes} {r : BlobRead} {d : Bytes}
    (h : ReadsContents ram (fun _ => 0) 0 contents r) : r.Gives d ↔ contents = some d := by
  constructor
  · rintro ⟨hstatus, hout⟩
    cases contents with
    | none => exact (h.fail rfl hstatus).elim
    | some d' =>
      obtain ⟨-, hwrite, hlen, -⟩ := h.ok d' rfl
      rw [hwrite, hlen, Mem.read_write] at hout
      rw [hout]
  · rintro rfl
    obtain ⟨hstatus, hwrite, hlen, -⟩ := h.ok d rfl
    exact ⟨hstatus, by rw [hwrite, hlen, Mem.read_write]⟩

/-- The slot as `s`, with the group and uuid of `s` and the name of `s` up to its last byte. -/
structure Copied (ram : Ram) (s : Slot) (ram' : Ram) (t : Slot) : Prop where
  occupied : ram'.occupied t = true
  name : (ram'.gNameTable t).name = (ram.gNameTable s).name.set 31 0 lastNameByte
  groupId : (ram'.gNameTable t).groupId = (ram.gNameTable s).groupId
  uuid : (ram'.gFat t).uuid = (ram.gFat s).uuid

/-- The slot keeps its entries in both tables and its pages in flash. -/
structure SlotKept (ram : Ram) (m : Mem) (ram' : Ram) (m' : Mem) (t : Slot) : Prop where
  gNameTable : ram'.gNameTable t = ram.gNameTable t
  gFat : ram'.gFat t = ram.gFat t
  flash : Mem.Agree m' m (blobSlotBase t) (blobSlotBase t + slotSize)

/-- The file of a response is the one read. -/
theorem take_contents_fileResponse {ram : Ram} {slot : Slot} {contents : Bytes}
    (h : contents.length ≤ maxContentsSize) :
    (fileResponse ram slot contents).file.contents.toList.take
      (fileResponse ram slot contents).file.contentsLen.toNat = contents := by
  have hmax : contents.length ≤ 8192 := h
  have hlen : (UInt16.ofNat contents.length).toNat = contents.length :=
    UInt16.toNat_ofNat_of_lt' (show contents.length < 65536 by omega)
  have hbytes : ∀ (n : Nat) (m : Mem), ((Codec.bytes n).decode (m.read 0 n)).toList = m.read 0 n :=
    fun n m => (Codec.bytes n).encode_decode (Mem.length_read m 0 n)
  rw [fileResponse, hlen, hbytes, Mem.take_read _ _ _ _ hmax, Mem.read_write]

/-- A file read for a transfer has a group with a bit in common with its record's. -/
theorem groupId_ne_zero {fw : Firmware} {m : Mem} {fat : Slot → FatEntry} {slot : Slot}
    {groupId : UInt16} {contents : Bytes}
    (h : recordContents fw m fat slot none groupId.toUInt32 = some contents) : groupId ≠ 0 := by
  rintro rfl
  obtain ⟨header, -, hmask, -⟩ := recordContents_some h
  exact hmask (UInt32.zero_and)

section

variable {fw : Firmware} {ram ram' : Ram} {w : World} {s t : Slot} {contents pin : Bytes}
  {writeSlot : UInt8} {pinHash : Digest} {r : BlobRecord}

/-- The file in the store of a response. -/
theorem contents_responseStore (hmax : contents.length ≤ maxContentsSize) :
    (responseStore (fileResponse ram' s contents) writeSlot pin).request.contents = contents :=
  take_contents_fileResponse hmax

/-- With a key and a nonce, the store of a response makes a record. -/
theorem responseStore_setup {root : Key} (hroot : securityGetRootSecret fw = some root)
    (hmax : contents.length ≤ maxContentsSize) (hnonce : w.rng w.draws ≠ none) :
    ∃ r, (responseStore (fileResponse ram' s contents) writeSlot pin).setup fw t pinHash w =
      some r := by
  obtain ⟨draw, hdraw⟩ := Option.ne_none_iff_exists'.mp hnonce
  have hfits : ¬ tagsOffset - headerSize < contents.length := by
    rw [tagsOffset_eq]
    exact Nat.not_lt.mpr (Nat.le_trans hmax (by decide))
  rw [StoreCommand.setup, contents_responseStore hmax, blobWriteSetup, if_neg hfits, hroot,
    Option.bind_some, deriveFileKey_toUInt32, hdraw]
  exact ⟨_, rfl⟩

/-- The name of the copy. -/
theorem name_responseStore : (((responseStore (fileResponse ram' s contents) writeSlot pin).storedRam
    ram r).gNameTable r.slot).name = (ram'.gNameTable s).name.set 31 0 lastNameByte := by
  obtain ⟨hname, -, -⟩ :=
    (responseStore (fileResponse ram' s contents) writeSlot pin).sameTables_storedRam ram r
  rw [hname, Function.update_self]
  exact Vector.set_set _ _

/-- The slot written is a copy of the slot sent. -/
theorem copied_responseStore : Copied ram' s
    ((responseStore (fileResponse ram' s contents) writeSlot pin).storedRam ram r) r.slot := by
  obtain ⟨hname, hfat, -⟩ :=
    (responseStore (fileResponse ram' s contents) writeSlot pin).sameTables_storedRam ram r
  refine ⟨StoreCommand.occupied_storedRam _ _ _, name_responseStore, ?_, ?_⟩
  · rw [hname, Function.update_self]
    rfl
  · rw [hfat, Function.update_self]
    rfl

/-- Its owner reads the file sent. -/
theorem readForOwner_responseStore (hgcm : fw.prim.GcmLaws)
    (hmax : contents.length ≤ maxContentsSize)
    (hgroup : (ram'.gNameTable s).groupId ≠ 0)
    (hsetup : (responseStore (fileResponse ram' s contents) writeSlot pin).setup fw t ram.gPinHash w =
      some r) (u : World) :
    (readForOwner fw
      ((responseStore (fileResponse ram' s contents) writeSlot pin).storedWorld fw ram u r).flash
      ((responseStore (fileResponse ram' s contents) writeSlot pin).storedRam ram r) r.slot).Gives
        contents := by
  obtain ⟨rfl, hdata, howner, hmask, -, hkey⟩ := blobWriteSetup_some hsetup
  obtain ⟨-, hfat, hhash⟩ :=
    (responseStore (fileResponse ram' s contents) writeSlot pin).sameTables_storedRam ram r
  rw [contents_responseStore hmax] at hdata
  have hlen : r.data.length ≤ maxContentsSize := by rwa [hdata]
  have hblob : ((responseStore (fileResponse ram' s contents) writeSlot pin).storedRam ram r).gFat
      r.slot = r.fatEntry (ram'.gFat s).uuid := by
    rw [hfat, Function.update_self]
    rfl
  have hstored : r.StoredIn fw ((responseStore (fileResponse ram' s contents) writeSlot
      pin).storedWorld fw ram u r).flash := by
    rw [StoreCommand.flash_storedWorld, StoreCommand.storeOps, Machine.replay_append]
    exact BlobRecord.storedIn_ops hgcm hlen _ _ _
  rw [← hmask] at hkey
  refine (blobReadAll_reads _ _ r.slot _ _ _ 0).gives.mpr ?_
  rw [hstored.contents hgcm hlen hkey hblob, hmask, howner, hhash, hdata]
  refine if_neg ?_
  rintro (hzero | ⟨-, hne⟩)
  · exact hgroup (mask_eq_zero.mp hzero)
  · exact hne rfl

/-- All other slots are kept. -/
theorem slotKept_responseStore (hgcm : fw.prim.GcmLaws) (hlen : r.data.length ≤ maxContentsSize)
    {u : Slot} (hu : u ≠ r.slot) : SlotKept ram w.flash
      ((responseStore (fileResponse ram' s contents) writeSlot pin).storedRam ram r)
      ((responseStore (fileResponse ram' s contents) writeSlot pin).storedWorld fw ram w r).flash u := by
  obtain ⟨hname, hfat, -⟩ :=
    (responseStore (fileResponse ram' s contents) writeSlot pin).sameTables_storedRam ram r
  refine ⟨?_, ?_, ?_⟩
  · rw [hname, Function.update_of_ne hu]
  · rw [hfat, Function.update_of_ne hu]
  · rw [StoreCommand.flash_storedWorld, StoreCommand.storeOps]
    exact BlobRecord.agree_stored hgcm hlen hu

end

/-- `receive` of a slot that the target can read for its group, into any slot: both commands
    return 0, and the slot written is listed with the name, the group and the uuid of the slot
    read and gives its owner the same contents. All other slots of the receiver are kept, its
    tables in flash are those in RAM, and the target keeps its files. The byte behind a name
    of full length becomes NUL, which it is in every entry a store has made. -/
theorem transfer_exact (fw fw' : Firmware) (hgcm : fw.prim.GcmLaws) (root : Key)
    (draw draw' : Nat → UInt8) (pktLen : UInt16) (buf : Mem) (ram ram' : Ram) (w v : World)
    (s t : Slot) (contents : Bytes)
    (hroot : securityGetRootSecret fw = some root) (hroot' : securityGetRootSecret fw' = some root)
    (hprim : fw.prim = fw'.prim) (hlen : ¬ pktLen < 8)
    (hpin : PinCorrect fw ram (buf.read 0 pinLength))
    (hperm : validatePermission fw (ram'.gNameTable s).groupId .permReceive = true)
    (hdraw : w.rng w.draws = some draw) (hnonce : w.rng (w.draws + 1) ≠ none)
    (hdraw' : v.rng v.draws = some draw')
    (hfresh : ¬ ram'.Replayed (drawnNonce draw) (drawnNonce draw') (ram'.gNameTable s).groupId
      receiveMsg)
    (hs : slotOccupied ram' (buf 6) = some s) (ht : slotIsValid (buf 7) = some t)
    (hread : (readForTransfer fw' v.flash ram' s).Gives contents) :
    ∃ (ram₁ : Ram) (w₁ : World) (ram₂ : Ram),
      Net.EndsIn linkNext linkNext (dialogue (receive fw pktLen buf) ram w (listen fw') ram' v)
        (dialogueEnd 0 ram₁ w₁ 0 ram₂ (v.drawn.answered ⟨.control, listenMsg, []⟩)) ∧
      Copied ram' s ram₁ t ∧
      ((ram'.gNameTable s).name.get ⟨31, lastNameByte⟩ = 0 →
        (ram₁.gNameTable t).name = (ram'.gNameTable s).name) ∧
      (readForOwner fw w₁.flash ram₁ t).Gives contents ∧
      ram₁.gPinHash = ram.gPinHash ∧
      (∀ u ≠ t, SlotKept ram w.flash ram₁ w₁.flash u) ∧
      (∀ u, nameAt w₁.flash u = ram₁.gNameTable u ∧ fatAt w₁.flash u = ram₁.gFat u) ∧
      ram₂.files = ram'.files := by
  have hcontents : recordContents fw' v.flash ram'.gFat s none
      (ram'.gNameTable s).groupId.toUInt32 = some contents :=
    (blobReadAllGroupMask_reads v.flash ram' s _ _ 0).gives.mp hread
  have hmax : contents.length ≤ maxContentsSize := recordContents_length_le hcontents
  let challenge : ReceiveChallenge :=
    ⟨buf 6, (ram'.gNameTable s).groupId, drawnNonce draw, drawnNonce draw'⟩
  let resp := fileResponse ram' s contents
  let c := responseStore resp (buf 7) (buf.read 0 pinLength)
  have haccepted : c.Accepted fw := by
    refine ⟨?_, hperm⟩
    show ¬ maxContentsSize < (UInt16.ofNat contents.length).toNat
    rw [UInt16.toNat_ofNat_of_lt' (Nat.lt_of_le_of_lt hmax (by decide))]
    exact Nat.not_lt.mpr hmax
  -- The record the requester is about to write.
  obtain ⟨r, hsetup⟩ : ∃ r, c.setup fw t ram.gPinHash w.drawn = some r :=
    responseStore_setup hroot hmax hnonce
  have hproves : ProvesReceive fw' challenge (signedProof fw root challenge) := by
    refine ⟨rfl, rfl, rfl, rfl, root, hroot', ?_⟩
    rw [signedProof, hprim]
  obtain ⟨ram₂, hfiles, hlisten⟩ := @listen_releases_talks fw' ram' v draw' challenge
    (signedProof fw root challenge) s contents hdraw' hs rfl rfl hproves hfresh hcontents
  have hreceive := @receive_talks fw pktLen buf ram w root draw challenge resp t r hgcm hlen hpin
    hdraw hroot rfl rfl hperm haccepted ht hsetup
  obtain ⟨rfl, hdata, -⟩ := blobWriteSetup_some hsetup
  have hrlen : r.data.length ≤ maxContentsSize := by
    rw [hdata]
    exact (contents_responseStore hmax).symm ▸ hmax
  have hgate : Mem.Agree (w.after (gateOps ram)).flash w.flash 0 pinStateAddr :=
    agree_replay (gateOps_within ram) (.inl (Nat.le_refl _)) _
  let w₁ := (c.storedWorld fw (ram.setFails 0) (w.after (gateOps ram)).drawn r).answered
    ⟨.control, receiveMsg, []⟩
  refine ⟨c.storedRam (ram.setFails 0) r, w₁, ram₂, Dev.Says.endsIn hreceive hlisten,
    copied_responseStore, fun hnul => ?_, ?_, rfl, fun u hu => ?_, fun u => ?_, hfiles⟩
  · rw [name_responseStore]
    conv_lhs => rw [← hnul]
    exact Vector.set_getElem_self _
  · exact @readForOwner_responseStore fw (ram.setFails 0) _ _ _ _ _ _ _ _ hgcm hmax
      (groupId_ne_zero hcontents) hsetup _
  · obtain ⟨hname, hfat, hflash⟩ := @slotKept_responseStore fw (ram.setFails 0) ram'
      (w.after (gateOps ram)).drawn s contents (buf.read 0 pinLength) (buf 7) r hgcm hrlen u hu
    refine ⟨hname, hfat, hflash.trans ?_⟩
    exact hgate.mono (Nat.zero_le _) ((blobSlotBase_lt u).trans (by decide))
  · exact c.tables_storedWorld _ _ r hgcm hrlen u

theorem sampleStored_gives :
    (readForTransfer .sample World.sampleStored.flash .sampleStored 0).Gives
      sampleContents := by
  refine (blobReadAllGroupMask_reads World.sampleStored.flash .sampleStored 0 _ _ 0).gives.mpr ?_
  exact (sampleStored_contents none _).trans (if_neg (by decide))

/-- The sample device copies the file in slot 0 of a device of the same build into its slot 1. -/
theorem transfer_exact_sample :
    ∃ (ram₁ : Ram) (w₁ : World) (ram₂ : Ram),
      Net.EndsIn linkNext linkNext
        (dialogue (receive .sample 8 (sampleReceive 0 1)) .sample .sample (listen .sample)
          .sampleStored .sampleStored)
        (dialogueEnd 0 ram₁ w₁ 0 ram₂ (World.sampleStored.drawn.answered ⟨.control, listenMsg, []⟩)) ∧
      Copied .sampleStored 0 ram₁ 1 ∧
      ((Ram.sampleStored.gNameTable 0).name.get ⟨31, lastNameByte⟩ = 0 →
        (ram₁.gNameTable 1).name = (Ram.sampleStored.gNameTable 0).name) ∧
      (readForOwner .sample w₁.flash ram₁ 1).Gives sampleContents ∧
      ram₁.gPinHash = Ram.sample.gPinHash ∧
      (∀ u ≠ 1, SlotKept .sample World.sample.flash ram₁ w₁.flash u) ∧
      (∀ u, nameAt w₁.flash u = ram₁.gNameTable u ∧ fatAt w₁.flash u = ram₁.gFat u) ∧
      ram₂.files = Ram.sampleStored.files := by
  have hpin : (sampleReceive 0 1).read 0 pinLength = ascii "a1b2c3" := by decide
  refine transfer_exact .sample .sample Firmware.sample_gcmLaws _ (fun _ => 0) (fun _ => 0) 8
    (sampleReceive 0 1) .sample .sampleStored .sample .sampleStored 0 1 sampleContents
    Firmware.sample_rootSecret Firmware.sample_rootSecret rfl (by decide) ?_ (by decide) rfl
    (by simp [World.sample]) rfl ?_ (by decide) (by decide) sampleStored_gives
  · rw [hpin]
    exact Ram.sample_pinCorrect
  · rintro ⟨i, hi⟩
    cases hi
