-- SUMMARY: A device refines the file map: over any sequence of requests and reboots it answers as the map does.
import HsmFirmware.Firmware.Main
import HsmFirmware.Specs.FileMap
import HsmFirmware.Specs.PinState
import HsmFirmware.Specs.Reboot
import HsmFirmware.Properties.FailureCount
import HsmFirmware.Properties.PinChange

/-!
# Devices refine the file map

A device represents a map when the tables in RAM are those in flash and each file of the map
is a record in its slot, sealed under the PIN of the device. Every handler keeps a map
represented, and answers as the map does.
-/

open Machine (replay)

/-! ## The device as a service -/

/-- A device between two requests. -/
structure HsmState where
  ram : Ram
  world : World

/-- The packets a handler sends when nothing fails, and the device it leaves. -/
def HsmState.perform {α : Type} (s : HsmState) (h : Dev α) (ram : Ram) : List Packet × HsmState :=
  match h.exec [] ram s.world with
  | .done (_, ram') w' _ _ => (w'.sent.drop s.world.sent.length, ⟨ram', w'⟩)
  | .off w' _ => ([], ⟨ram, w'⟩)

/-- The device as a service. A reboot starts from RAM that is zero. -/
def HsmState.serve (fw : Firmware) : Service FileRequest (List Packet) HsmState
  | .store c, s => s.perform (c.command.run fw) s.ram
  | .read pktLen buf, s => s.perform (read fw pktLen buf) s.ram
  | .list pktLen buf, s => s.perform (list fw pktLen buf) s.ram
  | .deleteFile pktLen buf, s => s.perform (deleteFile fw pktLen buf) s.ram
  | .reboot, s => s.perform (init fw) .reset

/-- The device after its first boot. -/
def HsmState.firstBoot (fw : Firmware) (w : World) : HsmState :=
  ((HsmState.mk .reset w).perform (init fw) .reset).2

/-- What a device with this PIN hash lets through. -/
def Policy.ofBuild (fw : Firmware) (hash : Digest) : Policy where
  knows pin := computePinHash fw pin == some hash
  permits perm groupId := validatePermission fw groupId perm

/-- The blob of a transfer is stored under the PIN that `receive` has checked. -/
def FileRequest.UnderPin (fw : Firmware) (hash : Digest) : FileRequest → Prop
  | .store ⟨.byReceive _ _ _ pin, _, _⟩ => getPinHash fw pin = some hash
  | _ => True

/-! ## Representation -/

/-- The name entry of a file. -/
def KeptFile.entry (f : KeptFile) : NameEntry where
  name := f.name
  groupId := f.groupId
  inUse := nameInUseTag
  reserved := .replicate 29 0xFF

section

variable (fw : Firmware) (hash : Digest)

/-- The record is the one of the file, it is in flash, and both tables say so. -/
structure Keeps (ram : Ram) (m : Mem) (f : KeptFile) (r : BlobRecord) : Prop where
  data : r.data = f.contents
  owner : r.ownerPinHash = hash
  group : r.groupMask = f.groupId.toUInt32
  key : (securityGetRootSecret fw).bind (fun root => deriveFileKey fw root r.groupMask) =
    some r.masterKey
  stored : r.StoredIn fw m
  fat : ram.gFat r.slot = r.fatEntry f.uuid
  name : ram.gNameTable r.slot = f.entry

/-- What a slot of the device is, for the entry of the map. -/
def Shows (ram : Ram) (m : Mem) (slot : Slot) : Option KeptFile → Prop
  | none => ram.occupied slot = false
  | some f => ∃ r, r.slot = slot ∧ Keeps fw hash ram m f r

structure Represents (ram : Ram) (w : World) (t : FileMap) : Prop where
  started : ram.gInitialized = true
  pinHash : ram.gPinHash = hash
  page : hashAt w.flash = hash
  names : nameAt w.flash = ram.gNameTable
  fat : fatAt w.flash = ram.gFat
  slots : ∀ slot, Shows fw hash ram w.flash slot (t slot)
  /-- `security_generate_nonce` does not fail. -/
  draws : ∀ n, w.rng n ≠ none

/-- The handler answers so, and leaves the device with that map. -/
def AnswersAs {α : Type} (h : Dev α) (ram : Ram) (w : World) (answer : List Packet × FileMap) : Prop :=
  ∃ a ram' w' L, h.Runs ram w a ram' w' L ∧ w'.sent = w.sent ++ answer.1 ∧
    Represents fw hash ram' w' answer.2

end

section

variable {fw : Firmware} {hash : Digest} {ram ram' : Ram} {w w' : World} {t : FileMap}
  {slot : Slot} {f : KeptFile} {r : BlobRecord}

/-! ## What is kept -/

theorem Keeps.fits (h : Keeps fw hash ram w.flash f r) : r.data.length ≤ maxContentsSize := by
  rw [h.data]
  exact f.fits

/-- A slot keeps its file while its entries and its pages stay. -/
theorem Shows.congr {m m' : Mem} {entry : Option KeptFile} (h : Shows fw hash ram m slot entry)
    (hname : ram'.gNameTable slot = ram.gNameTable slot) (hfat : ram'.gFat slot = ram.gFat slot)
    (hpages : Mem.Agree m' m (blobSlotBase slot) (blobSlotBase slot + slotSize)) :
    Shows fw hash ram' m' slot entry := by
  cases entry with
  | none =>
    show ram'.occupied slot = false
    unfold Ram.occupied
    rw [hname, hfat]
    exact h
  | some f =>
    obtain ⟨r, rfl, hkept⟩ := h
    have hlen : r.data.length ≤ maxContentsSize := by
      rw [hkept.data]
      exact f.fits
    exact ⟨r, rfl, hkept.data, hkept.owner, hkept.group, hkept.key,
      hkept.stored.of_agree hlen hpages, hfat.trans hkept.fat, hname.trans hkept.name⟩

namespace Represents

/-- The map is about the files, the PIN and the pages below the PIN page. -/
theorem of_sameFiles (h : Represents fw hash ram w t) (hram : ram.SameFiles ram')
    (hflash : Mem.Agree w'.flash w.flash 0 pinStateAddr) (hpage : hashAt w'.flash = hash)
    (hrng : w'.rng = w.rng) : Represents fw hash ram' w' t where
  started := hram.gInitialized.trans h.started
  pinHash := hram.gPinHash.trans h.pinHash
  page := hpage
  names := by
    rw [hram.gNameTable, ← h.names]
    funext slot
    exact nameAt_congr (hflash.mono (Nat.zero_le _) (by decide)) slot
  fat := by
    rw [hram.gFat, ← h.fat]
    funext slot
    exact fatAt_congr (hflash.mono (Nat.zero_le _) (by decide)) slot
  slots slot := (h.slots slot).congr (by rw [hram.gNameTable]) (by rw [hram.gFat])
    (hflash.mono (Nat.zero_le _) ((blobSlotBase_lt slot).trans (by decide)))
  draws := by
    rw [hrng]
    exact h.draws

/-- Packets do not matter to it. -/
theorem answered (h : Represents fw hash ram w t) (hram : ram.SameFiles ram') (p : Packet) :
    Represents fw hash ram' (w.answered p) t :=
  h.of_sameFiles hram (.refl _ _ _) h.page rfl

/-- Nor does the count of failures, wherever it is written. -/
theorem setFails (h : Represents fw hash ram w t) (count : UInt32) :
    Represents fw hash (ram.setFails count) (w.after (pinOps (ram.setFails count))) t := by
  refine h.of_sameFiles (.setFails ram count) ?_ ?_ rfl
  · exact agree_replay (pinOps_within _) (.inl (Nat.le_refl _)) w.flash
  · exact (hashAt_pinOps _ w.flash).trans h.pinHash

theorem pinCorrect_iff (h : Represents fw hash ram w t) (pin : Bytes) :
    PinCorrect fw ram pin ↔ (Policy.ofBuild fw hash).knows pin = true := by
  unfold PinCorrect
  rw [h.pinHash, and_iff_right h.started]
  exact beq_iff_eq.symm

theorem occupied_eq (h : Represents fw hash ram w t) (slot : Slot) :
    ram.occupied slot = (t slot).isSome := by
  have hslot := h.slots slot
  cases hfile : t slot with
  | none =>
    rw [hfile] at hslot
    exact hslot
  | some f =>
    rw [hfile] at hslot
    obtain ⟨r, rfl, hkept⟩ := hslot
    rw [Ram.occupied, hkept.name, hkept.fat, BlobRecord.isEmpty_fatEntry]
    rfl

theorem nameEntry (h : Represents fw hash ram w t) (hfile : t slot = some f) :
    ram.gNameTable slot = f.entry := by
  have hslot := h.slots slot
  rw [hfile] at hslot
  obtain ⟨r, rfl, hkept⟩ := hslot
  exact hkept.name

/-- A reader with the PIN gets the contents. -/
theorem contents (h : Represents fw hash ram w t) (hgcm : fw.prim.GcmLaws)
    (hfile : t slot = some f) :
    recordContents fw w.flash ram.gFat slot (some hash) 0xFFFFFFFF = some f.contents := by
  have hslot := h.slots slot
  rw [hfile] at hslot
  obtain ⟨r, rfl, hkept⟩ := hslot
  rw [hkept.stored.contents hgcm hkept.fits hkept.key hkept.fat, hkept.owner, hkept.group,
    hkept.data, if_neg]
  rintro (hgroup | ⟨-, howner⟩)
  · exact f.hasGroup (mask_eq_zero.mp hgroup)
  · exact howner rfl

theorem slotOccupied_eq (h : Represents fw hash ram w t) (slotNum : UInt8) :
    slotOccupied ram slotNum = (slotIsValid slotNum).filter fun slot => (t slot).isSome := by
  unfold slotOccupied
  congr 1
  funext slot
  exact h.occupied_eq slot

/-- The list of the device is the list of the map. -/
theorem listFiles_eq (h : Represents fw hash ram w t) : generateListFiles ram = t.files := by
  unfold generateListFiles FileMap.files
  rw [← List.filterMap_eq_map, ← List.filterMap_eq_filter, List.filterMap_filterMap]
  congr 1
  funext slot
  cases hfile : t slot with
  | none =>
    rw [Option.guard, h.occupied_eq, hfile]
    rfl
  | some f =>
    rw [Option.guard, h.occupied_eq, hfile]
    show some (fileMetadata ram slot) = _
    unfold fileMetadata
    rw [h.nameEntry hfile]
    rfl

end Represents

/-! ## Answers -/

/-- A handler that answers leaves the device it says. -/
theorem AnswersAs.perform {α : Type} {h : Dev α} {s : HsmState} {answer : List Packet × FileMap}
    (ha : AnswersAs fw hash h ram s.world answer) :
    (s.perform h ram).1 = answer.1 ∧
      Represents fw hash (s.perform h ram).2.ram (s.perform h ram).2.world answer.2 := by
  obtain ⟨a, ram', w', L, hrun, hsent, hrep⟩ := ha
  have hexec : h.exec [] ram s.world = .done (a, ram') w' L [] := hrun
  unfold HsmState.perform
  rw [hexec]
  refine ⟨?_, hrep⟩
  dsimp only
  rw [hsent, List.drop_left]

/-- An error message. -/
theorem Represents.rejects (h : Represents fw hash ram w t) (msg : String) :
    AnswersAs fw hash (reject msg) ram w (t.refuse msg) :=
  ⟨-1, ram, w.answered (errorPacket msg), [], reject_exec msg [] ram w, rfl,
    h.answered (.refl ram) _⟩

/-- The PIN gate keeps the map, and tells a wrong PIN. -/
theorem Represents.gate (h : Represents fw hash ram w t) (pin : Bytes) :
    if (Policy.ofBuild fw hash).knows pin then
      ∃ ram' w' L, (pinGate fw pin).Runs ram w 0 ram' w' L ∧ w'.sent = w.sent ∧
        Represents fw hash ram' w' t
    else
      ∃ ram' w' L, (pinGate fw pin).Runs ram w (-1) ram' w' L ∧
        w'.sent = w.sent ++ [errorPacket "Invalid pin\n"] ∧ Represents fw hash ram' w' t := by
  split
  · rename_i hknown
    have hruns := pinGate_runs_correct ((h.pinCorrect_iff pin).mpr hknown) w
    refine ⟨_, _, _, hruns, rfl, ?_⟩
    unfold gateOps
    split
    · exact h.of_sameFiles (.setFails ram 0) (.refl _ _ _) h.page rfl
    · exact h.setFails 0
  · rename_i hunknown
    have hexec := pinGate_exec_incorrect (mt (h.pinCorrect_iff pin).mp hunknown) [] w
    split at hexec
    · have hrun : writePinState.exec [] (ram.setFails (ram.gFailCount + 1)) w = _ :=
        (writePinState_attempts (ram.setFails (ram.gFailCount + 1)) w).runs
      rw [hrun, Halt.andThen_done, Halt.logged_done, List.append_nil] at hexec
      exact ⟨_, _, _, hexec, rfl, (h.setFails _).answered (.refl _) _⟩
    · exact ⟨_, _, _, hexec, rfl, h.answered (.refl ram) _⟩

/-- A command behind the gate. -/
theorem Represents.behindGate (h : Represents fw hash ram w t) {pin : Bytes} {k : Dev Int}
    {answer : List Packet × FileMap}
    (hk : (Policy.ofBuild fw hash).knows pin = true → ∀ ram' w', Represents fw hash ram' w' t →
      AnswersAs fw hash k ram' w' answer) :
    AnswersAs fw hash (do if (← pinGate fw pin) ≠ 0 then pure (-1) else k : Dev Int) ram w
      (t.guarded (Policy.ofBuild fw hash) pin answer) := by
  have hgate := h.gate pin
  unfold FileMap.guarded
  split at hgate
  · rename_i hknown
    obtain ⟨ram', w', L, hruns, hsent, hrep⟩ := hgate
    obtain ⟨rc, ram'', w'', L', hruns', hsent', hrep'⟩ := hk hknown ram' w' hrep
    rw [if_pos hknown]
    exact ⟨rc, ram'', w'', _, Dev.Runs.bind hruns hruns', by rw [hsent', hsent], hrep'⟩
  · rename_i hunknown
    obtain ⟨ram', w', L, hruns, hsent, hrep⟩ := hgate
    rw [if_neg hunknown]
    exact ⟨-1, ram', w', _, Dev.Runs.bind_quiet hruns rfl, hsent, hrep⟩

end

section

variable {fw : Firmware} {hash : Digest} {ram ram' : Ram} {w w' : World} {t : FileMap}
  {slot : Slot} {f : KeptFile} {r : BlobRecord}

/-! ## Reading and listing -/

theorem Represents.readCheckedAnswer_eq (h : Represents fw hash ram w t) (hgcm : fw.prim.GcmLaws)
    (slotNum : UInt8) :
    ([readCheckedAnswer fw ram w.flash slotNum], t) =
      t.readFile (Policy.ofBuild fw hash) slotNum := by
  unfold readCheckedAnswer FileMap.readFile FileMap.lookup
  rw [h.slotOccupied_eq]
  cases hslot : slotIsValid slotNum with
  | none => rfl
  | some slot =>
    rw [Option.bind_some]
    cases hfile : t slot with
    | none =>
      rw [Option.filter_some, hfile]
      rfl
    | some f =>
      rw [Option.filter_some, hfile, Option.isSome_some, if_pos rfl]
      dsimp only
      rw [readSlotAnswer, h.nameEntry hfile, h.pinHash, h.contents hgcm hfile]
      show ([if validatePermission fw f.groupId .permRead then _ else _], t) =
        if validatePermission fw f.groupId .permRead then _ else _
      split <;> rfl

theorem Represents.reads (h : Represents fw hash ram w t) (hgcm : fw.prim.GcmLaws)
    (pktLen : UInt16) (buf : Mem) :
    AnswersAs fw hash (read fw pktLen buf) ram w
      (t.read (Policy.ofBuild fw hash) pktLen buf) := by
  rw [read_eq]
  unfold FileMap.read
  split
  · exact h.rejects _
  apply h.behindGate
  intro hknown ram' w' h'
  obtain ⟨ram'', hsame, hexec⟩ := @readChecked_exec fw (buf 6) _ ram'
    ((h'.pinCorrect_iff _).mpr hknown) (Mem.length_read _ _ _) [] w'
  rw [← h'.readCheckedAnswer_eq hgcm]
  exact ⟨_, _, _, _, hexec, rfl, h'.answered hsame _⟩

theorem Represents.lists (h : Represents fw hash ram w t) (pktLen : UInt16) (buf : Mem) :
    AnswersAs fw hash (list fw pktLen buf) ram w
      (t.list (Policy.ofBuild fw hash) pktLen buf) := by
  unfold list FileMap.list
  split
  · exact h.rejects _
  apply h.behindGate
  intro _ ram' w' h'
  rw [← h'.listFiles_eq, ← listResponse_eq]
  exact ⟨0, _, _, [], rfl, rfl, h'.answered (.refl ram') _⟩

/-! ## Changing a slot -/

/-- A command that rewrites a slot, its entries and nothing else. -/
theorem Represents.updated (h : Represents fw hash ram w t) {L : List Op}
    {entry : Option KeptFile} (hram : ram'.gInitialized = ram.gInitialized)
    (hpin : ram'.gPinHash = ram.gPinHash) (hflash : w'.flash = replay flashStep L w.flash)
    (hrng : w'.rng = w.rng)
    (hwithin : ∀ o ∈ L, o.Within (blobSlotBase slot) (blobSlotBase slot + slotSize) ∨
      o.Within fatAddr pinStateAddr)
    (hnames : nameAt w'.flash = ram'.gNameTable) (hfat : fatAt w'.flash = ram'.gFat)
    (hothers : ∀ other, other ≠ slot →
      ram'.gNameTable other = ram.gNameTable other ∧ ram'.gFat other = ram.gFat other)
    (hslot : Shows fw hash ram' w'.flash slot entry) :
    Represents fw hash ram' w' (Function.update t slot entry) where
  started := hram.trans h.started
  pinHash := hpin.trans h.pinHash
  page := by
    rw [← h.page, hflash]
    apply hashAt_congr
    apply agree_replay_apart
    intro o ho
    have hbase := (blobSlotBase_lt slot).trans (show fatAddr ≤ pinStateAddr by decide)
    rcases hwithin o ho with ho | ho
    · exact ⟨_, _, ho, .inr hbase⟩
    · exact ⟨_, _, ho, .inr (Nat.le_refl _)⟩
  names := hnames
  fat := hfat
  slots other := by
    by_cases hother : other = slot
    · subst hother
      rwa [Function.update_self]
    · obtain ⟨hname, hentry⟩ := hothers other hother
      rw [Function.update_of_ne hother]
      apply (h.slots other).congr hname hentry
      rw [hflash]
      apply agree_replay_apart
      intro o ho
      rcases hwithin o ho with ho | ho
      · exact ⟨_, _, ho, blobSlotBase_apart hother⟩
      · exact ⟨_, _, ho, .inl (blobSlotBase_lt other)⟩
  draws := by
    rw [hrng]
    exact h.draws

theorem nameOps_tables (ram : Ram) (slot : Slot) (entry : NameEntry) :
    ∀ o ∈ nameOps ram slot entry, o.Within fatAddr pinStateAddr := fun o ho =>
  (nameOps_within ram slot entry o ho).mono (by decide) (by decide)

theorem fatOps_tables (fat : Slot → FatEntry) (slot : Slot) (entry : FatEntry) :
    ∀ o ∈ fatOps fat slot entry, o.Within fatAddr pinStateAddr := fun o ho =>
  (BlobRecord.fatOps_within fat slot entry o ho).mono (Nat.le_refl _) (by decide)

/-! ## Deleting -/

theorem Represents.deleted (h : Represents fw hash ram w t) (slot : Slot) :
    Represents fw hash (ram.deleted slot)
      ((w.after (deleteOps ram slot)).answered deletedPacket) (Function.update t slot none) := by
  have hnames : nameAt (replay flashStep (deleteOps ram slot) w.flash) =
      (ram.deleted slot).gNameTable := by
    funext other
    rw [deleteOps, Machine.replay_append]
    exact nameAt_pageOps _
  have hfat : fatAt (replay flashStep (deleteOps ram slot) w.flash) = (ram.deleted slot).gFat := by
    funext other
    rw [deleteOps, Machine.replay_append,
      fatAt_replay (nameOps_within _ _ _) (.inl (by decide)), blobDeleteOps, Machine.replay_append]
    exact fatAt_pageOps _
  refine @Represents.updated _ _ _ _ _ _ _ _ h (deleteOps ram slot) none rfl rfl rfl rfl ?_ hnames
    hfat ?_ ?_
  · intro o ho
    rcases List.mem_append.mp ho with ho | ho
    · rcases List.mem_append.mp ho with ho | ho
      · exact .inl (eraseSlotOps_within slot o ho)
      · exact .inr (fatOps_tables _ _ _ o ho)
    · exact .inr (nameOps_tables _ _ _ o ho)
  · intro other hother
    exact ⟨Function.update_of_ne hother _ _, Function.update_of_ne hother _ _⟩
  · show (ram.deleted slot).occupied slot = false
    have hname : (ram.deleted slot).gNameTable slot = .erased := Function.update_self _ _ _
    unfold Ram.occupied
    rw [hname]
    rfl

theorem deleteChecked_rejects {slotNum : UInt8} (h : slotOccupied ram slotNum = none) (w : World) :
    (deleteChecked slotNum).exec [] ram w = (reject "File not found\n").exec [] ram w := by
  unfold deleteChecked
  rw [Dev.exec_bind, Dev.exec_get, Halt.andThen_done, Halt.logged_nil]
  dsimp only
  rw [h]
  rfl

theorem Represents.removes (h : Represents fw hash ram w t) (slotNum : UInt8) :
    AnswersAs fw hash (deleteChecked slotNum) ram w (t.remove slotNum) := by
  have hocc := h.slotOccupied_eq slotNum
  have hmissing : slotOccupied ram slotNum = none →
      AnswersAs fw hash (deleteChecked slotNum) ram w (t.refuse "File not found\n") := by
    intro hnone
    obtain ⟨rc, ram', w', L, hrun, hanswer⟩ := h.rejects "File not found\n"
    exact ⟨rc, ram', w', L, (deleteChecked_rejects hnone w).trans hrun, hanswer⟩
  unfold FileMap.remove
  cases hslot : slotIsValid slotNum with
  | none =>
    rw [hslot] at hocc
    exact hmissing hocc
  | some slot =>
    rw [hslot, Option.filter_some] at hocc
    dsimp only
    cases hfile : t slot with
    | none =>
      rw [hfile] at hocc
      exact hmissing hocc
    | some f =>
      rw [hfile] at hocc
      exact ⟨0, _, _, _, deleteChecked_runs hocc, rfl, h.deleted slot⟩

theorem Represents.deletes (h : Represents fw hash ram w t) (pktLen : UInt16) (buf : Mem) :
    AnswersAs fw hash (deleteFile fw pktLen buf) ram w
      (t.deleteFile (Policy.ofBuild fw hash) pktLen buf) := by
  rw [deleteFile_eq]
  unfold FileMap.deleteFile
  split
  · exact h.rejects _
  apply h.behindGate
  intro _ ram' w' h'
  exact h'.removes (buf 6)

/-! ## Storing -/

/-- A store that gets past its checks finds a key and a nonce. -/
theorem Represents.setup (h : Represents fw hash ram w t) {contents : Bytes} {pin : Bytes}
    (hfits : contents.length ≤ maxContentsSize) (hpin : getPinHash fw pin = some hash) (slot : Slot)
    (groupId : UInt16) :
    ∃ r, blobWriteSetup fw slot contents hash groupId.toUInt32 (w.rng w.draws) = some r := by
  obtain ⟨draw, hdraw⟩ := Option.ne_none_iff_exists'.mp (h.draws w.draws)
  have hmax : contents.length ≤ 8192 := hfits
  unfold getPinHash at hpin
  split at hpin
  · cases hpin
  unfold computePinHash at hpin
  split at hpin
  · cases hpin
  rename_i root hroot
  unfold blobWriteSetup
  rw [if_neg (by simp only [tagsOffset_eq, headerSize]; omega), hroot, Option.bind_some,
    deriveFileKey_toUInt32, hdraw]
  exact ⟨_, rfl⟩

/-- The device after a store. -/
theorem Represents.stored (h : Represents fw hash ram w t) (hgcm : fw.prim.GcmLaws) {s : FileStore}
    {draw : Option (Nat → UInt8)}
    (hsetup : blobWriteSetup fw slot s.command.request.contents hash
      s.command.request.groupId.toUInt32 draw = some r) :
    Represents fw hash
      (((ram.setName slot s.command.request.entry).setAad (buildAad r.draft)).setFat slot
        (r.fatEntry s.command.request.uuid))
      ((w.after (nameOps ram slot s.command.request.entry)).drawn.after
        (r.ops fw ram.gFat s.command.request.uuid))
      (Function.update t slot (some s.file)) := by
  obtain ⟨rfl, hdata, howner, hgroup, -, hkey⟩ := blobWriteSetup_some hsetup
  have hlen : r.data.length ≤ maxContentsSize := by
    rw [hdata]
    exact s.fits
  have hflash : ((w.after (nameOps ram r.slot s.command.request.entry)).drawn.after
      (r.ops fw ram.gFat s.command.request.uuid)).flash =
      replay flashStep (nameOps ram r.slot s.command.request.entry ++
        r.ops fw ram.gFat s.command.request.uuid) w.flash := (Machine.replay_append _ _ _ _).symm
  refine @Represents.updated _ _ _ _ _ _ _ _ h _ _ rfl rfl hflash rfl ?_ ?_ ?_ ?_ ?_
  · intro o ho
    rcases List.mem_append.mp ho with ho | ho
    · exact .inr (nameOps_tables _ _ _ o ho)
    rcases List.mem_append.mp ho with ho | ho
    · exact .inl (BlobRecord.slotOps_within hgcm hlen o ho)
    · exact .inr (fatOps_tables _ _ _ o ho)
  · rw [hflash]
    funext other
    exact BlobRecord.nameAt_stored hgcm hlen
  · rw [hflash]
    funext other
    exact BlobRecord.fatAt_stored
  · intro other hother
    exact ⟨Function.update_of_ne hother _ _, Function.update_of_ne hother _ _⟩
  · refine ⟨r, rfl, hdata, howner, hgroup, ?_, ?_, Function.update_self _ _ _,
      Function.update_self _ _ _⟩
    · rw [hgroup]
      exact hkey
    · exact BlobRecord.storedIn_ops hgcm hlen _ _ _

/-- A store behind the checks of its command. -/
theorem Represents.puts (h : Represents fw hash ram w t) (hgcm : fw.prim.GcmLaws) (s : FileStore)
    (hpin : getPinHash fw s.command.request.pin = some hash) :
    match slotIsValid s.command.request.slotNum with
    | none => (s.command.request.store fw).exec [] ram w =
        (reject "Name store failed\n").exec [] ram w
    | some slot => ∃ ram' w' L, (s.command.request.store fw).Runs ram w 0 ram' w' L ∧
        w'.sent = w.sent ∧ Represents fw hash ram' w' (Function.update t slot (some s.file)) := by
  unfold StoreRequest.store
  cases hslot : slotIsValid s.command.request.slotNum with
  | none =>
    simp only [storeFile, hpin, saveNameEntry, setNameEntry_invalid hslot]
    rfl
  | some slot =>
    obtain ⟨r, hsetup⟩ := h.setup s.fits hpin slot s.command.request.groupId
    exact ⟨_, _, _, storeFile_runs hgcm hslot hpin ram w hsetup, rfl, h.stored hgcm hsetup⟩

end

section

variable {fw : Firmware} {hash : Digest} {ram : Ram} {w : World} {t : FileMap}

theorem Policy.pinHash {pin : Bytes} (h : (Policy.ofBuild fw hash).knows pin = true)
    (hlen : pin.length = pinLength) : getPinHash fw pin = some hash := by
  unfold getPinHash
  rw [hlen, if_neg (by decide)]
  exact beq_iff_eq.mp h

/-- A file without a slot is refused; any other is stored and then reported. -/
theorem Represents.puts_then (h : Represents fw hash ram w t) (hgcm : fw.prim.GcmLaws)
    (s : FileStore) (hpin : getPinHash fw s.command.request.pin = some hash) {k : Dev Int}
    {acknowledgement : List Packet}
    (hrefused : ∀ msg, (s.command.request.store fw).exec [] ram w = (reject msg).exec [] ram w →
      k.exec [] ram w = (reject msg).exec [] ram w)
    (hdone : ∀ ram' w' L, (s.command.request.store fw).Runs ram w 0 ram' w' L →
      ∃ w'', k.Runs ram w 0 ram' w'' L ∧ w''.sent = w'.sent ++ acknowledgement ∧
        w''.flash = w'.flash ∧ w''.rng = w'.rng) :
    AnswersAs fw hash k ram w (t.put s acknowledgement) := by
  have hputs := h.puts hgcm s hpin
  unfold FileMap.put
  cases hslot : slotIsValid s.command.request.slotNum with
  | none =>
    rw [hslot] at hputs
    obtain ⟨rc, ram', w', L, hrun, hanswer⟩ := h.rejects "Name store failed\n"
    exact ⟨rc, ram', w', L, (hrefused _ hputs).trans hrun, hanswer⟩
  | some slot =>
    rw [hslot] at hputs
    obtain ⟨ram', w', L, hrun, hsent, hrep⟩ := hputs
    obtain ⟨w'', hrun', hsent', hflash, hrng⟩ := hdone ram' w' L hrun
    refine ⟨0, ram', w'', L, hrun', by rw [hsent', hsent], ?_⟩
    apply hrep.of_sameFiles (.refl ram')
    · rw [hflash]
      exact .refl _ _ _
    · rw [hflash]
      exact hrep.page
    · exact hrng

theorem Represents.stores (h : Represents fw hash ram w t) (hgcm : fw.prim.GcmLaws)
    (s : FileStore) (hunder : FileRequest.UnderPin fw hash (.store s)) :
    AnswersAs fw hash (s.command.run fw) ram w (t.store (Policy.ofBuild fw hash) s) := by
  obtain ⟨c, fits, hasGroup⟩ := s
  cases c with
  | byWrite pktLen buf =>
    unfold StoreCommand.run write FileMap.store
    dsimp only
    split
    · exact h.rejects _
    apply h.behindGate
    intro hknown ram' w' h'
    have hpin := Policy.pinHash hknown (Mem.length_read _ _ _)
    unfold writeChecked
    show AnswersAs fw hash (if !validatePermission fw _ .permWrite then _ else _) ram' w'
      (if !validatePermission fw _ .permWrite then _ else _)
    split
    · exact h'.rejects _
    split
    · exact h'.rejects _
    refine h'.puts_then hgcm ⟨.byWrite pktLen buf, fits, hasGroup⟩ hpin ?_ ?_
    · intro msg hrefused
      rw [StoreCommand.exec_writeStore]
      exact congrArg (Halt.andThen · _) hrefused
    · intro ram'' w'' L hrun
      refine ⟨w''.answered ⟨.control, writeMsg, []⟩, ?_, rfl, rfl, rfl⟩
      exact Dev.Runs.bind_quiet hrun rfl
  | byReceive slotNum uuid file pin =>
    unfold StoreCommand.run storeReceivedBlob FileMap.store
    dsimp only
    split
    · exact h.rejects _
    show AnswersAs fw hash (if !validatePermission fw _ .permReceive then _ else _) ram w
      (if !validatePermission fw _ .permReceive then _ else _)
    split
    · exact h.rejects _
    refine h.puts_then hgcm ⟨.byReceive slotNum uuid file pin, fits, hasGroup⟩ hunder ?_ ?_
    · intro msg hrefused
      exact hrefused
    · intro ram' w' L hrun
      exact ⟨w', hrun, (List.append_nil _).symm, rfl, rfl⟩

/-! ## Booting -/

/-- A boot whose PIN state can be had loads both tables. -/
theorem init_runs {ram' : Ram} {w' : World} {L : List Op}
    (hpin : (pinInit fw).Runs .reset w 0 ram' w' L) (hcold : ram'.sInitialized = false) :
    (init fw).Runs .reset w () (ram'.loaded w'.flash) w' L := by
  have htables : initCommands.Runs ram' w' 0 (ram'.loaded w'.flash) w' [] :=
    initCommands_exec hcold [] w'
  unfold init
  refine Dev.Runs.bind_quiet hpin ?_
  rw [if_neg (by decide)]
  exact Dev.Runs.bind_quiet htables rfl

/-- A reboot is invisible. -/
theorem Represents.reboots (h : Represents fw hash ram w t) (hhash : ¬ Blank hash) :
    AnswersAs fw hash (init fw) .reset w ([], t) := by
  have hheld := @pinInit_runs_held fw .reset w (by rw [h.page]; exact hhash)
  refine ⟨(), _, w, [], init_runs hheld rfl, (List.append_nil _).symm, ?_⟩
  refine ⟨rfl, h.page, h.page, rfl, rfl, ?_, h.draws⟩
  intro slot
  exact (h.slots slot).congr (congrFun h.names slot) (congrFun h.fat slot) (.refl _ _ _)

/-- The first boot provisions the PIN and finds no file. -/
theorem init_represents (hprovisioned : provisionedHash fw = some hash)
    (hpage : Blank (hashAt w.flash)) (hnames : ∀ slot, nameAt w.flash slot = .erased)
    (hdraws : ∀ n, w.rng n ≠ none) :
    AnswersAs fw hash (init fw) .reset w ([], FileMap.empty) := by
  have hwrite := pinOps_within (Ram.reset.setPin hash 0)
  refine ⟨(), _, _, _, init_runs (pinInit_runs_provisions hpage hprovisioned) rfl,
    (List.append_nil _).symm, ?_⟩
  refine ⟨rfl, rfl, hashAt_pinOps _ _, rfl, rfl, ?_, hdraws⟩
  intro slot
  have hname : nameAt (replay flashStep (pinOps (Ram.reset.setPin hash 0)) w.flash) slot =
      .erased := by
    rw [nameAt_replay hwrite (.inl (by decide))]
    exact hnames slot
  have hunused : (nameAt (replay flashStep (pinOps (Ram.reset.setPin hash 0)) w.flash) slot).inUse ≠
      nameInUseTag := by
    rw [hname]
    exact NameEntry.erased_unused
  show Ram.occupied _ slot = false
  rw [← Bool.not_eq_true, Ram.occupied_iff]
  intro hocc
  exact hunused hocc.1

/-! ## Runs -/

/-- The device answers each request as the map does. -/
theorem HsmState.refines (hgcm : fw.prim.GcmLaws) (hhash : ¬ Blank hash) :
    (HsmState.serve fw).Refines (FileMap.serve (Policy.ofBuild fw hash))
      (FileRequest.UnderPin fw hash) fun s t => Represents fw hash s.ram s.world t := by
  have hserves : ∀ q (s : HsmState) (t : FileMap), q.UnderPin fw hash →
      Represents fw hash s.ram s.world t →
      (HsmState.serve fw q s).1 = (FileMap.serve (Policy.ofBuild fw hash) q t).1 ∧
        Represents fw hash (HsmState.serve fw q s).2.ram (HsmState.serve fw q s).2.world
          (FileMap.serve (Policy.ofBuild fw hash) q t).2 := by
    intro q s t hq h
    cases q with
    | store c =>
      simp only [HsmState.serve, FileMap.serve]
      exact (h.stores hgcm c hq).perform
    | read pktLen buf =>
      simp only [HsmState.serve, FileMap.serve]
      exact (h.reads hgcm pktLen buf).perform
    | list pktLen buf =>
      simp only [HsmState.serve, FileMap.serve]
      exact (h.lists pktLen buf).perform
    | deleteFile pktLen buf =>
      simp only [HsmState.serve, FileMap.serve]
      exact (h.deletes pktLen buf).perform
    | reboot =>
      simp only [HsmState.serve, FileMap.serve]
      exact (h.reboots hhash).perform
  exact ⟨fun q s t hq h => (hserves q s t hq h).1, fun q s t hq h => (hserves q s t hq h).2⟩

end

/-- From blank flash on, over any sequence of requests and reboots, a device answers as the map
    does that starts empty, and represents what has become of it: each file of the map, its uuid
    included, is the record in its slot, and the tables in flash are those in RAM. In the map a
    request changes its own slot at most, and nothing when it is refused. -/
theorem device_refines_fileMap (fw : Firmware) (hgcm : fw.prim.GcmLaws) (hash : Digest)
    (hprovisioned : provisionedHash fw = some hash) (hhash : ¬ Blank hash) (w : World)
    (hblank : Mem.Erased w.flash nameTableAddr (pinStateAddr + pageSize))
    (hdraws : ∀ n, w.rng n ≠ none) (qs : List FileRequest)
    (hpin : ∀ q ∈ qs, q.UnderPin fw hash) :
    ((HsmState.serve fw).run qs (.firstBoot fw w)).1 =
        ((FileMap.serve (.ofBuild fw hash)).run qs .empty).1 ∧
      Represents fw hash ((HsmState.serve fw).run qs (.firstBoot fw w)).2.ram
        ((HsmState.serve fw).run qs (.firstBoot fw w)).2.world
        ((FileMap.serve (.ofBuild fw hash)).run qs .empty).2 ∧
      nameAt ((HsmState.serve fw).run qs (.firstBoot fw w)).2.world.flash =
        ((HsmState.serve fw).run qs (.firstBoot fw w)).2.ram.gNameTable ∧
      fatAt ((HsmState.serve fw).run qs (.firstBoot fw w)).2.world.flash =
        ((HsmState.serve fw).run qs (.firstBoot fw w)).2.ram.gFat ∧
      ∀ (m : FileMap) q, m.Confined q.target (FileMap.serve (.ofBuild fw hash) q m) := by
  have hpage : Blank (hashAt w.flash) :=
    hashAt_blank (hblank.mono (by decide) (Nat.le_refl _))
  have hnames : ∀ slot, nameAt w.flash slot = .erased := by
    intro slot
    have hslot : slot.val < 8 := slot.isLt
    apply nameAt_erased
    apply hblank.mono (by omega)
    simp only [nameTableAddr, pinStateAddr, pageSize]
    omega
  have hboot := (@AnswersAs.perform _ _ _ _ _ (HsmState.mk .reset w) _
    (init_represents hprovisioned hpage hnames hdraws)).2
  obtain ⟨hreplies, hlast⟩ := (HsmState.refines hgcm hhash).run hpin hboot
  exact ⟨hreplies, hlast, hlast.names, hlast.fat, fun m q => FileMap.serve_confined q⟩

/-! ## A sample -/

/-- Write a file, reboot, read and list it. -/
def sampleRequests : List FileRequest :=
  [.store ⟨.byWrite 359 (sampleWrite 0 1 "a"), sampleWrite_fits 0 1 "a", by decide⟩, .reboot,
    .read 7 (sampleWrite 0 1 "a"), .list 6 (sampleWrite 0 1 "a")]

theorem device_refines_fileMap_sample :
    ∃ hash, provisionedHash (.withPin (ascii "a1b2c3")) = some hash ∧
      ((HsmState.serve (.withPin (ascii "a1b2c3"))).run sampleRequests
        (.firstBoot (.withPin (ascii "a1b2c3")) .sample)).1 =
      ((FileMap.serve (.ofBuild (.withPin (ascii "a1b2c3")) hash)).run sampleRequests .empty).1 ∧
      Represents (.withPin (ascii "a1b2c3")) hash
        ((HsmState.serve (.withPin (ascii "a1b2c3"))).run sampleRequests
          (.firstBoot (.withPin (ascii "a1b2c3")) .sample)).2.ram
        ((HsmState.serve (.withPin (ascii "a1b2c3"))).run sampleRequests
          (.firstBoot (.withPin (ascii "a1b2c3")) .sample)).2.world
        ((FileMap.serve (.ofBuild (.withPin (ascii "a1b2c3")) hash)).run sampleRequests .empty).2 := by
  obtain ⟨key, hkey⟩ := Firmware.withPin_computePinHash (ascii "a1b2c3")
  obtain ⟨hash, hhash⟩ : ∃ hash, provisionedHash (.withPin (ascii "a1b2c3")) = some hash := by
    unfold provisionedHash
    rw [if_neg (by decide)]
    exact ⟨_, hkey _⟩
  have hsome : ¬ Blank hash :=
    Firmware.withPin_noBlankHash _ _ _ (provisionedHash_eq hhash).1 (provisionedHash_eq hhash).2
  obtain ⟨hreplies, hrepresents, -⟩ := device_refines_fileMap (.withPin (ascii "a1b2c3"))
    Firmware.copying_gcmLaws hash hhash hsome .sample (fun _ _ _ => rfl)
    (fun _ => Option.some_ne_none _) sampleRequests (by
      intro q hq
      simp only [sampleRequests, List.mem_cons, List.not_mem_nil, or_false] at hq
      rcases hq with rfl | rfl | rfl | rfl <;> trivial)
  exact ⟨hash, hhash, hreplies, hrepresents⟩
