-- SUMMARY: What deleting a file does without faults, and what a power loss inside a command behind the PIN gate leaves in flash.
import HsmFirmware.Specs.FileCommands
import HsmFirmware.Specs.Images

/-!
# Deleting a file

A delete erases the slot, then clears its entry in the FAT, then in the name table. It
has no failure path of its own that touches flash: it only stops.
-/

open Machine (replay)

section

variable {fw : Firmware} {slotNum : UInt8} {slot : Slot} {ram : Ram} {w : World}

/-! ## Commands -/

/-- The commands of `blob_delete`. -/
def blobDeleteOps (fat : Slot → FatEntry) (slot : Slot) : List Op :=
  eraseSlotOps slot ++ fatOps fat slot .erased

/-- The commands of a delete behind its checks. -/
def deleteOps (ram : Ram) (slot : Slot) : List Op :=
  blobDeleteOps ram.gFat slot ++ nameOps ram slot .erased

@[simp] theorem length_blobDeleteOps (fat : Slot → FatEntry) (slot : Slot) :
    (blobDeleteOps fat slot).length = 29 := by
  simp [blobDeleteOps]

/-- The RAM after a delete. -/
def Ram.deleted (ram : Ram) (slot : Slot) : Ram := (ram.setFat slot .erased).setName slot .erased

/-- The packet that acknowledges a delete. -/
def deletedPacket : Packet := ⟨.control, deleteFileMsg, []⟩

/-! ## Without faults -/

theorem blobDelete_runs (hslot : slotIsValid slotNum = some slot)
    (hused : (ram.gFat slot).isEmpty = false) :
    (blobDelete slotNum).Runs ram w .ok (ram.setFat slot .erased)
      (w.after (blobDeleteOps ram.gFat slot)) (blobDeleteOps ram.gFat slot) := by
  have hcommit : (do
      let rc ← eraseSlotPages slot
      if rc ≠ .ok then pure rc else commitFatEntry slot .erased : Dev BlobStatus).Runs ram w .ok
      (ram.setFat slot .erased) (w.after (blobDeleteOps ram.gFat slot))
      (blobDeleteOps ram.gFat slot) := by
    refine Dev.Runs.bind (eraseSlotPages_attempts slot ram w).runs ?_
    rw [blobDeleteOps, World.after_append]
    exact (commitFatEntry_attempts slot .erased ram _).runs
  have hnot : ¬ (ram.gFat slot).isEmpty = true := by
    rw [hused]
    exact Bool.false_ne_true
  rw [blobDelete, hslot]
  refine @Dev.Runs.bind _ _ get _ ram ram _ w w _ ram _ [] _ rfl ?_
  rw [if_neg hnot]
  exact hcommit

theorem deleteSlot_runs (hslot : slotIsValid slotNum = some slot)
    (hused : (ram.gFat slot).isEmpty = false) :
    (deleteSlot slotNum).Runs ram w 0 (ram.deleted slot)
      ((w.after (deleteOps ram slot)).answered deletedPacket) (deleteOps ram slot) := by
  have hclear : (clearNameEntry slotNum).Runs (ram.setFat slot .erased)
      (w.after (blobDeleteOps ram.gFat slot)) 0 (ram.deleted slot)
      (w.after (deleteOps ram slot)) (nameOps ram slot .erased) := by
    rw [deleteOps, World.after_append]
    exact (setNameEntry_attempts hslot .erased (ram.setFat slot .erased) _).runs
  rw [deleteSlot]
  refine Dev.Runs.bind (blobDelete_runs hslot hused) ?_
  exact Dev.Runs.bind_quiet hclear rfl

theorem deleteChecked_runs (hocc : slotOccupied ram slotNum = some slot) :
    (deleteChecked slotNum).Runs ram w 0 (ram.deleted slot)
      ((w.after (deleteOps ram slot)).answered deletedPacket) (deleteOps ram slot) := by
  obtain ⟨hslot, hoccupied⟩ := slotOccupied_some hocc
  have hused : (ram.gFat slot).isEmpty = false := by
    simp only [Ram.occupied, Bool.and_eq_true, Bool.not_eq_true'] at hoccupied
    exact hoccupied.2
  have hsome : ¬ (slotOccupied ram slotNum).isNone = true := by
    rw [hocc]
    exact Bool.false_ne_true
  rw [deleteChecked]
  refine @Dev.Runs.bind _ _ get _ ram ram _ w w _ ram _ [] _ rfl ?_
  rw [if_neg hsome]
  exact deleteSlot_runs hslot hused

theorem deleteFile_eq (pktLen : UInt16) (buf : Mem) :
    deleteFile fw pktLen buf =
      (if pktLen < 7 then reject "Packet too short\n" else do
        if (← pinGate fw (buf.read 0 pinLength)) ≠ 0 then pure (-1) else deleteChecked (buf 6)) := rfl

theorem deleteFile_runs {pktLen : UInt16} {buf : Mem} (hlen : ¬ pktLen < 7)
    (hpin : PinCorrect fw ram (buf.read 0 pinLength))
    (hocc : slotOccupied ram (buf 6) = some slot) :
    (deleteFile fw pktLen buf).Runs ram w 0 ((ram.setFails 0).deleted slot)
      (((w.after (gateOps ram)).after (deleteOps ram slot)).answered deletedPacket)
      (gateOps ram ++ deleteOps ram slot) := by
  rw [deleteFile_eq, if_neg hlen]
  apply gated_runs hpin
  apply deleteChecked_runs
  rw [(Ram.SameFiles.setFails ram 0).slotOccupied_eq]
  exact hocc

end
