-- SUMMARY: The commands that store and delete files as a whole: what they check, how they can end, and their fault-free runs.
import HsmFirmware.Specs.Read
import HsmFirmware.Specs.Store
import HsmFirmware.Firmware.Release

/-!
# Storing and deleting as commands

`write` and `store_received_blob` check their input and hand a file to the same
store. `write` stands behind the PIN gate, `store_received_blob` is called by
`receive`, which has passed it.
-/

open Machine (replay)

/-! ## Store commands -/

/-- The file a command asks to store. -/
structure StoreRequest where
  slotNum : UInt8
  name : Vector UInt8 32
  groupId : UInt16
  uuid : Vector UInt8 16
  contents : Bytes
  pin : Bytes

namespace StoreRequest

/-- The name entry of the file. -/
def entry (q : StoreRequest) : NameEntry := .named q.name q.groupId

def store (fw : Firmware) (q : StoreRequest) : Dev Int :=
  storeFile fw q.slotNum q.name q.groupId q.uuid q.contents q.pin

end StoreRequest

/-- The two commands that store a file. -/
inductive StoreCommand where
  | byWrite (pktLen : UInt16) (buf : Mem)
  | byReceive (slotNum : UInt8) (uuid : Vector UInt8 16) (file : File) (pin : Bytes)

namespace StoreCommand

def run (fw : Firmware) : StoreCommand → Dev Int
  | .byWrite pktLen buf => write fw pktLen buf
  | .byReceive slotNum uuid file pin => storeReceivedBlob fw slotNum uuid file pin

def request : StoreCommand → StoreRequest
  | .byWrite _ buf =>
    let cmd := WriteCommand.ofBuf buf
    ⟨cmd.slot, cmd.name, cmd.groupId, cmd.uuid, cmd.contents, cmd.pin⟩
  | .byReceive slotNum uuid file pin =>
    ⟨slotNum, file.name, file.groupId, uuid, file.contents.toList.take file.contentsLen.toNat, pin⟩

/-- The checks of the command besides the PIN: lengths and permission. -/
def Accepted (fw : Firmware) : StoreCommand → Prop
  | .byWrite pktLen buf =>
    ¬ pktLen < writeCmdMinLen ∧
      validatePermission fw (WriteCommand.ofBuf buf).groupId .permWrite = true ∧
      ¬ pktLen - writeCmdMinLen < (WriteCommand.ofBuf buf).contentsLen
  | .byReceive _ _ file _ =>
    ¬ maxContentsSize < file.contentsLen.toNat ∧
      validatePermission fw file.groupId .permReceive = true

/-- The PIN of a `write` passes the gate. -/
def PinPasses (fw : Firmware) (ram : Ram) : StoreCommand → Prop
  | .byWrite _ buf => PinCorrect fw ram (WriteCommand.ofBuf buf).pin
  | .byReceive .. => True

/-- The flash commands of the PIN gate in front of the store. -/
def gate (ram : Ram) : StoreCommand → List Op
  | .byWrite .. => gateOps ram
  | .byReceive .. => []

/-- The RAM behind the gate. -/
def behindGate (ram : Ram) : StoreCommand → Ram
  | .byWrite .. => ram.setFails 0
  | .byReceive .. => ram

/-- `write` reports a success to the host itself. -/
def report (rc : Int) (w : World) : StoreCommand → World
  | .byWrite .. =>
    if rc ≠ 0 then w else w.answered ⟨.control, writeMsg, []⟩
  | .byReceive .. => w

variable {fw : Firmware} {ram : Ram} {w : World} {fs : Schedule} {c : StoreCommand}

/-- Contents that `write` accepts lie behind the fixed part of the packet. -/
theorem contentsLen_le {pktLen : UInt16} {buf : Mem} (h : (byWrite pktLen buf).Accepted fw) :
    59 + (WriteCommand.ofBuf buf).contentsLen.toNat ≤ pktLen.toNat := by
  obtain ⟨hlen, -, hfits⟩ := h
  have hmin : 59 ≤ pktLen.toNat := le_of_not_short hlen
  have hsub : (pktLen - writeCmdMinLen).toNat = pktLen.toNat - 59 :=
    UInt16.toNat_sub_of_le pktLen writeCmdMinLen (UInt16.le_iff_toNat_le.mpr hmin)
  have hle := le_of_not_short hfits
  rw [hsub] at hle
  exact Nat.add_le_of_le_sub' hmin hle

theorem sameFiles_behindGate (c : StoreCommand) (ram : Ram) : ram.SameFiles (c.behindGate ram) := by
  cases c with
  | byWrite => exact .setFails ram 0
  | byReceive => exact .refl ram

theorem gate_within (c : StoreCommand) (ram : Ram) :
    ∀ o ∈ c.gate ram, o.Within pinStateAddr (pinStateAddr + pageSize) := by
  cases c with
  | byWrite => exact gateOps_within ram
  | byReceive => simp [gate]

@[simp] theorem flash_report (c : StoreCommand) (rc : Int) (w : World) :
    (c.report rc w).flash = w.flash := by
  cases c with
  | byWrite =>
    simp only [report]
    split <;> rfl
  | byReceive => rfl

/-- The ways a store command can end. -/
inductive Ending (fw : Firmware) (c : StoreCommand) (ram : Ram) (w : World) (fs : Schedule) :
    Halt Op World (Int × Ram) → Prop where
  /-- Refused before the store. -/
  | refused {ram' : Ram} {t : World} {L : List Op} {rest : Schedule}
      (h : ¬ (c.PinPasses fw ram ∧ c.Accepted fw)) (hram : ram.SameFiles ram')
      (hL : ∀ o ∈ L, o.Within pinStateAddr (pinStateAddr + pageSize)) :
      Ending fw c ram w fs (.done (-1, ram') t L rest)
  /-- Cut off in the gate. -/
  | cut {t : World} {L : List Op} (hL : ∀ o ∈ L, o.Within pinStateAddr (pinStateAddr + pageSize)) :
      Ending fw c ram w fs (.off t L)
  /-- Past the checks, the store decides. -/
  | entered {j : Nat} (hpin : c.PinPasses fw ram) (h : c.Accepted fw) :
      Ending fw c ram w fs
        ((((c.request.store fw).exec (fs.attempt (c.gate ram).length) (c.behindGate ram)
          (w.after ((c.gate ram).take j))).andThen fun r t rest =>
            .done r (c.report r.1 t) [] rest).logged ((c.gate ram).take j))

theorem exec_writeStore (cmd : WriteCommand) (fs : Schedule) (ram : Ram) (w : World) :
    (writeStore fw cmd).exec fs ram w =
      ((storeFile fw cmd.slot cmd.name cmd.groupId cmd.uuid cmd.contents cmd.pin).exec fs ram
        w).andThen fun r t rest =>
          .done r (if r.1 ≠ 0 then t else t.answered ⟨.control, writeMsg, []⟩) [] rest := by
  rw [writeStore, Dev.exec_bind]
  congr 1
  funext r t rest
  by_cases hrc : r.1 = 0
  · rw [if_neg (not_not_intro hrc), if_neg (not_not_intro hrc)]
    obtain ⟨rc, ram'⟩ := r
    obtain rfl : rc = 0 := hrc
    rfl
  · rw [if_pos hrc, if_pos hrc]
    rfl

theorem ending (c : StoreCommand) (fs : Schedule) (ram : Ram) (w : World) :
    Ending fw c ram w fs ((c.run fw).exec fs ram w) := by
  cases c with
  | byWrite pktLen buf =>
    rw [run, write]
    by_cases hlen : pktLen < writeCmdMinLen
    · rw [if_pos hlen, reject_exec]
      exact .refused (fun h => h.2.1 hlen) (.refl ram) (by simp)
    rw [if_neg hlen]
    have hend := @gated_ending fw (WriteCommand.ofBuf buf).pin ram
      (writeChecked fw pktLen (WriteCommand.ofBuf buf)) fs w
    generalize Dev.exec _ fs ram w = res at hend ⊢
    cases hend with
    | refused h hL => exact .refused (fun hc => h hc.1) (.setFails ram _) hL
    | cut hL => exact .cut hL
    | @entered j h =>
      have hL : ∀ o ∈ (gateOps ram).take j, o.Within pinStateAddr (pinStateAddr + pageSize) :=
        fun o ho => gateOps_within ram o (List.mem_of_mem_take ho)
      rw [writeChecked]
      by_cases hperm : validatePermission fw (WriteCommand.ofBuf buf).groupId .permWrite = true
      · rw [if_neg (by simpa using hperm)]
        by_cases hshort : pktLen - writeCmdMinLen < (WriteCommand.ofBuf buf).contentsLen
        · rw [if_pos hshort, reject_exec, Halt.logged_done, List.append_nil]
          exact .refused (fun hc => hc.2.2.2 hshort) (.setFails ram 0) hL
        · rw [if_neg hshort, exec_writeStore]
          exact .entered (c := .byWrite pktLen buf) h ⟨hlen, hperm, hshort⟩
      · rw [if_pos (by simpa using hperm), reject_exec, Halt.logged_done, List.append_nil]
        exact .refused (fun hc => hperm hc.2.2.1) (.setFails ram 0) hL
  | byReceive slotNum uuid file pin =>
    rw [run, storeReceivedBlob]
    by_cases hlen : maxContentsSize < file.contentsLen.toNat
    · rw [if_pos hlen, reject_exec]
      exact .refused (fun h => h.2.1 hlen) (.refl ram) (by simp)
    rw [if_neg hlen]
    by_cases hperm : validatePermission fw file.groupId .permReceive = true
    · rw [if_neg (by simpa using hperm)]
      have hentered := @Ending.entered fw (.byReceive slotNum uuid file pin) ram w fs 0 trivial
        ⟨hlen, hperm⟩
      simp only [gate, report, List.take_nil, Halt.andThen_ret, Halt.logged_nil] at hentered
      exact hentered
    · rw [if_pos (by simpa using hperm), reject_exec]
      exact .refused (fun hc => hperm hc.2.2) (.refl ram) (by simp)

end StoreCommand

/-! ## Without faults -/

/-- A slot number out of range, or a PIN of the wrong length, ends a store at once. -/
theorem StoreRequest.store_declines {fw : Firmware} {ram : Ram} {w : World} {q : StoreRequest}
    (h : getPinHash fw q.pin = none ∨ slotIsValid q.slotNum = none) (fs : Schedule) :
    ∃ msg, (q.store fw).exec fs ram w = .done (-1, ram) (w.answered (errorPacket msg)) [] fs := by
  rw [store, storeFile]
  cases hpin : getPinHash fw q.pin with
  | none => exact ⟨_, rfl⟩
  | some pinHash =>
    have hslot := h.resolve_left (by simp [hpin])
    simp only [saveNameEntry, setNameEntry_invalid hslot]
    exact ⟨_, rfl⟩

section

variable {fw : Firmware} {slotNum : UInt8} {slot : Slot} {groupId : UInt16} {pin : Bytes}
  {pinHash : Digest} {name : Vector UInt8 32} {uuid : Vector UInt8 16} {contents : Bytes}
  {r : BlobRecord}

theorem storeFile_runs (hgcm : fw.prim.GcmLaws) (hslot : slotIsValid slotNum = some slot)
    (hpin : getPinHash fw pin = some pinHash) (ram : Ram) (w : World)
    (hsetup : blobWriteSetup fw slot contents pinHash groupId.toUInt32 (w.rng w.draws) = some r) :
    (storeFile fw slotNum name groupId uuid contents pin).Runs ram w 0
      (((ram.setName slot (.named name groupId)).setAad (buildAad r.draft)).setFat slot
        (r.fatEntry uuid))
      ((w.after (nameOps ram slot (.named name groupId))).drawn.after (r.ops fw ram.gFat uuid))
      (nameOps ram slot (.named name groupId) ++ r.ops fw ram.gFat uuid) := by
  simp only [storeFile, hpin]
  refine Dev.Runs.bind (setNameEntry_attempts hslot (.named name groupId) ram w).runs ?_
  exact Dev.Runs.bind_quiet (@blobWrite_attempts fw slotNum slot contents uuid pinHash
    groupId.toUInt32 (ram.setName slot (.named name groupId))
    (w.after (nameOps ram slot (.named name groupId))) r hgcm hslot hsetup).runs rfl

/-- Without a record the name entry is written, then cleared. -/
theorem storeFile_runs_unsealed (hslot : slotIsValid slotNum = some slot)
    (hpin : getPinHash fw pin = some pinHash) (ram : Ram) (w : World)
    (hsetup : blobWriteSetup fw slot contents pinHash groupId.toUInt32 (w.rng w.draws) = none) :
    ∃ ram' w', (storeFile fw slotNum name groupId uuid contents pin).Runs ram w (-1) ram' w'
      (nameOps ram slot (.named name groupId) ++ nameOps ram slot .erased) := by
  obtain ⟨rc, t, hexec, hrc⟩ := @blobWrite_refused fw slotNum slot contents uuid pinHash
    groupId.toUInt32 (ram.setName slot (.named name groupId))
    (w.after (nameOps ram slot (.named name groupId))) hslot hsetup []
  have hclear := (setNameEntry_attempts hslot .erased (ram.setName slot (.named name groupId)) t).runs
  have hops : nameOps (ram.setName slot (.named name groupId)) slot .erased =
      nameOps ram slot .erased := nameOps_setName ram slot _ _ ram.gAad
  rw [hops] at hclear
  simp only [storeFile, hpin]
  refine ⟨(ram.setName slot (.named name groupId)).setName slot .erased,
    (t.after (nameOps ram slot .erased)).answered (errorPacket "Store failed\n"),
    Dev.Runs.bind (setNameEntry_attempts hslot (.named name groupId) ram w).runs ?_⟩
  refine @Dev.Runs.bind _ _ _ _ _ _ _ _ _ _ rc _ [] _ hexec ?_
  rw [if_pos hrc]
  exact Dev.Runs.bind_quiet hclear rfl

/-- A store returns 0 only when every command was carried out. -/
theorem storeFile_success (hgcm : fw.prim.GcmLaws) (hslot : slotIsValid slotNum = some slot)
    (hpin : getPinHash fw pin = some pinHash) {fs rest : Schedule} {ram ram' : Ram} {w w' : World}
    {L : List Op} (hrun : (storeFile fw slotNum name groupId uuid contents pin).exec fs ram w =
      .done (0, ram') w' L rest) :
    ∃ r, blobWriteSetup fw slot contents pinHash groupId.toUInt32 (w.rng w.draws) = some r ∧
      ram' = ((ram.setName slot (.named name groupId)).setAad (buildAad r.draft)).setFat slot
        (r.fatEntry uuid) ∧
      L = nameOps ram slot (.named name groupId) ++ r.ops fw ram.gFat uuid := by
  have hend := @storeFile_ending fw slotNum slot groupId pin pinHash name uuid contents hgcm hslot
    hpin fs ram w
  rw [hrun] at hend
  generalize blobWriteSetup fw slot contents pinHash groupId.toUInt32 (w.rng w.draws) = setup at hend
  cases hend with
  | @stored r hr hfs => exact ⟨r, hr, rfl, rfl⟩

/-- When the flush of the name table is refused at once, the new entry stays in RAM. -/
theorem storeFile_flushRefused (hslot : slotIsValid slotNum = some slot)
    (hpin : getPinHash fw pin = some pinHash) (fs : Schedule) (ram : Ram) (w : World) :
    (storeFile fw slotNum name groupId uuid contents pin).exec (.failed false :: fs) ram w =
      .done (-1, ram.setName slot (.named name groupId)) (w.answered (errorPacket "Name store failed\n")) [] fs := by
  simp only [storeFile, hpin, saveNameEntry, setNameEntry, hslot]
  rfl

end

namespace StoreCommand

/-- The record a command that passes all checks is about to write into `slot`. -/
def setup (fw : Firmware) (c : StoreCommand) (slot : Slot) (pinHash : Digest) (w : World) :
    Option BlobRecord :=
  blobWriteSetup fw slot c.request.contents pinHash c.request.groupId.toUInt32 (w.rng w.draws)

variable {fw : Firmware} {ram : Ram} {w : World} {c : StoreCommand} {slot : Slot}
  {pinHash : Digest} {r : BlobRecord}

/-- The flash commands of a store behind the gate. -/
def storeOps (fw : Firmware) (c : StoreCommand) (ram : Ram) (r : BlobRecord) : List Op :=
  nameOps ram r.slot c.request.entry ++ r.ops fw ram.gFat c.request.uuid

/-- The RAM after a store that succeeds. -/
def storedRam (c : StoreCommand) (ram : Ram) (r : BlobRecord) : Ram :=
  (((c.behindGate ram).setName r.slot c.request.entry).setAad (buildAad r.draft)).setFat r.slot
    (r.fatEntry c.request.uuid)

theorem pinCorrect_storedRam : PinCorrect fw (c.storedRam ram r) = PinCorrect fw ram := by
  cases c <;> rfl

/-- The world after a store that succeeds. -/
def storedWorld (fw : Firmware) (c : StoreCommand) (ram : Ram) (w : World) (r : BlobRecord) : World :=
  c.report 0 (((w.after (c.gate ram)).after (nameOps ram r.slot c.request.entry)).drawn.after
    (r.ops fw ram.gFat c.request.uuid))

/-- A store without faults, behind the gate and the checks of its command. -/
theorem runs_of_store {rc : Int} {ram' : Ram} {w' : World} {L : List Op}
    (hpasses : c.PinPasses fw ram) (haccepted : c.Accepted fw)
    (hstore : (c.request.store fw).Runs (c.behindGate ram) (w.after (c.gate ram)) rc ram' w' L) :
    (c.run fw).Runs ram w rc ram' (c.report rc w') (c.gate ram ++ L) := by
  cases c with
  | byWrite pktLen buf =>
    obtain ⟨hlen, hperm, hshort⟩ := haccepted
    rw [run, write, if_neg hlen]
    refine gated_runs hpasses ?_
    rw [writeChecked, if_neg (by simpa using hperm), if_neg hshort, writeStore]
    refine Dev.Runs.bind_quiet hstore ?_
    rw [report]
    split
    · rfl
    · rename_i hrc
      obtain rfl : rc = 0 := not_not.mp hrc
      rfl
  | byReceive slotNum uuid file pin =>
    obtain ⟨hlen, hperm⟩ := haccepted
    rw [run, storeReceivedBlob, if_neg hlen, if_neg (by simpa using hperm)]
    exact hstore

theorem runs (hgcm : fw.prim.GcmLaws) (hpasses : c.PinPasses fw ram) (haccepted : c.Accepted fw)
    (hslot : slotIsValid c.request.slotNum = some slot)
    (hpin : getPinHash fw c.request.pin = some pinHash)
    (hsetup : c.setup fw slot pinHash w = some r) :
    (c.run fw).Runs ram w 0 (c.storedRam ram r) (c.storedWorld fw ram w r)
      (c.gate ram ++ c.storeOps fw ram r) := by
  obtain ⟨rfl, -⟩ := blobWriteSetup_some hsetup
  refine runs_of_store hpasses haccepted ?_
  have hstore := @storeFile_runs fw c.request.slotNum r.slot c.request.groupId c.request.pin pinHash
    c.request.name c.request.uuid c.request.contents r hgcm hslot hpin (c.behindGate ram)
    (w.after (c.gate ram)) hsetup
  cases c <;> exact hstore

end StoreCommand

namespace StoreCommand

/-- What a store command has done when it returns 0. -/
structure Success (fw : Firmware) (c : StoreCommand) (ram : Ram) (w : World) (ram' : Ram)
    (L : List Op) (r : BlobRecord) (pinHash : Digest) : Prop where
  pinPasses : c.PinPasses fw ram
  accepted : c.Accepted fw
  slotIs : slotIsValid c.request.slotNum = some r.slot
  pinIs : getPinHash fw c.request.pin = some pinHash
  setupIs : c.setup fw r.slot pinHash w = some r
  ramIs : ram' = c.storedRam ram r
  logIs : ∃ j, L = (c.gate ram).take j ++ c.storeOps fw ram r

theorem success {fw : Firmware} {c : StoreCommand} {fs rest : Schedule} {ram ram' : Ram}
    {w w' : World} {L : List Op} (hgcm : fw.prim.GcmLaws)
    (hrun : (c.run fw).exec fs ram w = .done (0, ram') w' L rest) :
    ∃ r pinHash, Success fw c ram w ram' L r pinHash := by
  have hend := @ending fw c fs ram w
  generalize (c.run fw).exec fs ram w = res at hend hrun
  cases hend with
  | refused => cases hrun
  | cut => cases hrun
  | @entered j hpasses haccepted =>
    by_cases hdeclined : getPinHash fw c.request.pin = none ∨ slotIsValid c.request.slotNum = none
    · obtain ⟨msg, hexec⟩ := @StoreRequest.store_declines fw (c.behindGate ram)
        (w.after ((c.gate ram).take j)) c.request hdeclined (fs.attempt (c.gate ram).length)
      rw [hexec] at hrun
      cases hrun
    obtain ⟨pinHash, hpin⟩ := Option.ne_none_iff_exists'.mp fun h => hdeclined (.inl h)
    obtain ⟨slot, hslot⟩ := Option.ne_none_iff_exists'.mp fun h => hdeclined (.inr h)
    cases hstore : (c.request.store fw).exec (fs.attempt (c.gate ram).length) (c.behindGate ram)
        (w.after ((c.gate ram).take j)) with
    | off t l =>
      rw [hstore] at hrun
      cases hrun
    | done r t l rest' =>
      rw [hstore] at hrun
      simp only [Halt.andThen_done, Halt.logged_done, List.append_nil] at hrun
      cases hrun
      obtain ⟨r, hr, rfl, rfl⟩ := storeFile_success hgcm hslot hpin hstore
      obtain ⟨rfl, -⟩ := blobWriteSetup_some hr
      refine ⟨r, pinHash, hpasses, haccepted, hslot, hpin, hr, rfl, j, ?_⟩
      cases c <;> rfl

end StoreCommand

theorem mask_eq_zero {groupId : UInt16} : 0xFFFFFFFF &&& groupId.toUInt32 = 0 ↔ groupId = 0 := by
  have hand : (0xFFFFFFFF : UInt32) &&& groupId.toUInt32 = groupId.toUInt32 := UInt32.neg_one_and
  rw [hand]
  constructor
  · intro h
    have hnat := congrArg UInt32.toNat h
    apply UInt16.toNat.inj
    simpa using hnat
  · rintro rfl
    rfl

namespace StoreCommand

variable {fw : Firmware} {c : StoreCommand} {ram ram' : Ram} {w : World} {L : List Op}
  {r : BlobRecord} {pinHash : Digest}

theorem sameTables_storedRam (c : StoreCommand) (ram : Ram) (r : BlobRecord) :
    (c.storedRam ram r).gNameTable = Function.update ram.gNameTable r.slot c.request.entry ∧
      (c.storedRam ram r).gFat = Function.update ram.gFat r.slot (r.fatEntry c.request.uuid) ∧
      (c.storedRam ram r).gPinHash = ram.gPinHash := by
  cases c <;> exact ⟨rfl, rfl, rfl⟩

/-- The slot of a store that succeeded is occupied. -/
theorem occupied_storedRam (c : StoreCommand) (ram : Ram) (r : BlobRecord) :
    (c.storedRam ram r).occupied r.slot = true := by
  obtain ⟨hname, hfat, -⟩ := sameTables_storedRam c ram r
  simp only [Ram.occupied, hname, hfat, Function.update_self, BlobRecord.isEmpty_fatEntry]
  rfl

namespace Success

variable (h : Success fw c ram w ram' L r pinHash)

include h

theorem groupMask : r.groupMask = c.request.groupId.toUInt32 :=
  (blobWriteSetup_some h.setupIs).2.2.2.1

theorem data : r.data = c.request.contents := (blobWriteSetup_some h.setupIs).2.1

theorem ownerPinHash : r.ownerPinHash = pinHash := (blobWriteSetup_some h.setupIs).2.2.1

/-- The record of the file is in flash afterwards, if the file fits. -/
theorem storedIn (hgcm : fw.prim.GcmLaws) (hlen : c.request.contents.length ≤ maxContentsSize)
    (m : Mem) : r.StoredIn fw (replay flashStep L m) := by
  have hrlen : r.data.length ≤ maxContentsSize := by rwa [h.data]
  obtain ⟨j, rfl⟩ := h.logIs
  rw [storeOps, ← List.append_assoc, Machine.replay_append]
  exact BlobRecord.storedIn_ops hgcm hrlen _ _ _

theorem fatEntry : ram'.gFat r.slot = r.fatEntry c.request.uuid := by
  rw [h.ramIs, (sameTables_storedRam c ram r).2.1, Function.update_self]

theorem nameEntry : ram'.gNameTable r.slot = c.request.entry := by
  rw [h.ramIs, (sameTables_storedRam c ram r).1, Function.update_self]

/-- What a reader with every group gets from the slot afterwards, if the file fits. -/
theorem contents (hgcm : fw.prim.GcmLaws) (hlen : c.request.contents.length ≤ maxContentsSize)
    (owner : Digest) :
    recordContents fw (replay flashStep L w.flash) ram'.gFat r.slot (some owner) 0xFFFFFFFF =
      if c.request.groupId = 0 ∨ owner ≠ pinHash then none else some c.request.contents := by
  have hrlen : r.data.length ≤ maxContentsSize := by rwa [h.data]
  have hkey := (blobWriteSetup_some h.setupIs).2.2.2.2.2
  rw [← h.groupMask] at hkey
  rw [(h.storedIn hgcm hlen w.flash).contents hgcm hrlen hkey h.fatEntry, h.groupMask, h.ownerPinHash, h.data]
  simp only [mask_eq_zero, ne_eq, reduceCtorEq, not_false_eq_true, Option.some.injEq, true_and]

end Success

end StoreCommand

/-- A `write` whose first flash command is refused leaves its name entry in RAM. -/
theorem StoreCommand.write_flushRefused {fw : Firmware} {ram : Ram} {w : World} {slot : Slot}
    {pktLen : UInt16} {buf : Mem} (hpin : PinCorrect fw ram (WriteCommand.ofBuf buf).pin)
    (hcount : ram.gFailCount = 0) (haccepted : (byWrite pktLen buf).Accepted fw)
    (hslot : slotIsValid (WriteCommand.ofBuf buf).slot = some slot) (fs : Schedule) :
    ((byWrite pktLen buf).run fw).exec (.failed false :: fs) ram w =
      .done (-1, ram.setName slot (byWrite pktLen buf).request.entry)
        (w.answered (errorPacket "Name store failed\n")) [] fs := by
  obtain ⟨hlen, hperm, hshort⟩ := haccepted
  rw [run, write, if_neg hlen, Dev.exec_bind, pinGate_exec_correct hpin, if_pos hcount,
    Halt.andThen_done, if_neg (by simp), writeChecked, if_neg (by simpa using hperm), if_neg hshort,
    exec_writeStore, storeFile_flushRefused hslot (hpin.pinHash (Mem.length_read _ _ _))]
  rfl

/-! ## The sample device -/

theorem Ram.sample_pinCorrect : PinCorrect .sample .sample (ascii "a1b2c3") := by
  obtain ⟨hash, h⟩ := Option.isSome_iff_exists.mp (Firmware.sample_computePinHash (ascii "a1b2c3"))
  refine ⟨rfl, ?_⟩
  rw [Ram.sample, h]
  rfl

/-- The record of a file on the sample device. -/
def sampleRecord (slot : Slot) (groupId : UInt16) : BlobRecord where
  slot := slot
  data := sampleContents
  ownerPinHash := Ram.sample.gPinHash
  groupMask := groupId.toUInt32
  nonce := (Codec.bytes 12).decode ((List.range 12).map fun _ => 0)
  masterKey := secureCryptoDeriveFileEncKey Firmware.sample.prim
    (toKey (Firmware.sample.globalSecrets.drop 97)) groupId

theorem sampleRecord_setup (slot : Slot) (groupId : UInt16) (n : Nat) :
    blobWriteSetup .sample slot sampleContents Ram.sample.gPinHash groupId.toUInt32 (World.sample.rng n) =
      some (sampleRecord slot groupId) := by
  have hfits : ¬ tagsOffset - headerSize < sampleContents.length := by
    rw [length_sampleContents]
    decide
  rw [blobWriteSetup, Firmware.sample_rootSecret, if_neg hfits]
  simp [World.sample, sampleRecord]

/-- Writing a file on the sample device. -/
theorem sampleWrite_runs {slotNum : UInt8} {slot : Slot} {groupId : UInt16} {name : String}
    (hpin : (StoreCommand.byWrite 359 (sampleWrite slotNum groupId name)).request.pin =
      ascii "a1b2c3")
    (hgroup : (StoreCommand.byWrite 359 (sampleWrite slotNum groupId name)).request.groupId = groupId)
    (haccepted : (StoreCommand.byWrite 359 (sampleWrite slotNum groupId name)).Accepted .sample)
    (hslot : slotIsValid (StoreCommand.byWrite 359 (sampleWrite slotNum groupId name)).request.slotNum =
      some slot) :
    (write .sample 359 (sampleWrite slotNum groupId name)).Runs .sample .sample 0
      ((StoreCommand.byWrite 359 (sampleWrite slotNum groupId name)).storedRam .sample
        (sampleRecord slot groupId))
      ((StoreCommand.byWrite 359 (sampleWrite slotNum groupId name)).storedWorld .sample .sample .sample
        (sampleRecord slot groupId))
      ((StoreCommand.byWrite 359 (sampleWrite slotNum groupId name)).storeOps .sample .sample
        (sampleRecord slot groupId)) := by
  have hpasses : (StoreCommand.byWrite 359 (sampleWrite slotNum groupId name)).PinPasses .sample
      .sample := by
    rw [StoreCommand.PinPasses, show (WriteCommand.ofBuf (sampleWrite slotNum groupId name)).pin =
      ascii "a1b2c3" from hpin]
    exact Ram.sample_pinCorrect
  have hhash : getPinHash .sample
      (StoreCommand.byWrite 359 (sampleWrite slotNum groupId name)).request.pin =
      some Ram.sample.gPinHash := by
    rw [hpin]
    exact Ram.sample_pinCorrect.pinHash (by decide)
  have hsetup : (StoreCommand.byWrite 359 (sampleWrite slotNum groupId name)).setup .sample slot
      Ram.sample.gPinHash .sample = some (sampleRecord slot groupId) := by
    have hcontents : (StoreCommand.byWrite 359 (sampleWrite slotNum groupId name)).request.contents =
        sampleContents := sampleWrite_contents slotNum groupId name
    rw [StoreCommand.setup, hcontents, hgroup]
    exact sampleRecord_setup slot groupId 0
  have hgate : (StoreCommand.byWrite 359 (sampleWrite slotNum groupId name)).gate .sample = [] := rfl
  have hruns := StoreCommand.runs Firmware.sample_gcmLaws hpasses haccepted hslot hhash hsetup
  rw [hgate, List.nil_append] at hruns
  exact hruns

/-- The sample device with a file of group 1 in slot 0. -/
def Ram.sampleStored : Ram :=
  (StoreCommand.byWrite 359 (sampleWrite 0 1 "a")).storedRam .sample (sampleRecord 0 1)

def World.sampleStored : World :=
  (StoreCommand.byWrite 359 (sampleWrite 0 1 "a")).storedWorld .sample .sample .sample
    (sampleRecord 0 1)

theorem sampleStored_runs :
    (write .sample 359 (sampleWrite 0 1 "a")).Runs .sample .sample 0 .sampleStored .sampleStored
      ((StoreCommand.byWrite 359 (sampleWrite 0 1 "a")).storeOps .sample .sample
        (sampleRecord 0 1)) :=
  sampleWrite_runs (by decide) (by decide) ⟨by decide, by decide, by decide⟩ (by decide)

theorem Ram.sampleStored_pinCorrect : PinCorrect .sample .sampleStored (ascii "a1b2c3") := by
  rw [Ram.sampleStored, StoreCommand.pinCorrect_storedRam]
  exact Ram.sample_pinCorrect

theorem sampleStored_storedIn : (sampleRecord 0 1).StoredIn .sample World.sampleStored.flash := by
  rw [World.sampleStored, StoreCommand.storedWorld, StoreCommand.flash_report, World.flash_after]
  exact BlobRecord.storedIn_ops Firmware.sample_gcmLaws sampleContents_fits _ _ _

/-- What a reader of the file gets. -/
theorem sampleStored_contents (owner : Option Digest) (groupMask : UInt32) :
    recordContents .sample World.sampleStored.flash Ram.sampleStored.gFat 0 owner groupMask =
      if groupMask &&& (sampleRecord 0 1).groupMask = 0 ∨
          (owner ≠ none ∧ owner ≠ some (sampleRecord 0 1).ownerPinHash) then none
      else some sampleContents := by
  have hkey : (securityGetRootSecret .sample).bind
      (fun root => deriveFileKey .sample root (sampleRecord 0 1).groupMask) =
        some (sampleRecord 0 1).masterKey := by
    rw [Firmware.sample_rootSecret, Option.bind_some]
    exact deriveFileKey_toUInt32 _ _ 1
  exact BlobRecord.StoredIn.contents Firmware.sample_gcmLaws sampleStored_storedIn sampleContents_fits hkey
    rfl owner groupMask
