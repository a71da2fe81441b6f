-- SUMMARY: The other slots after a power loss inside a store or a delete: which of their files a boot still finds.
import HsmFirmware.Specs.PowerLoss

/-!
# Power loss and the other slots

The name table and the FAT are a page each, erased and then programmed in pieces of 64
bytes. While an entry is not programmed again its file is lost, whichever slot the
command is about.
-/

open Machine (replay)

/-- The packet of a `write` lies in `uart_buf`. -/
def FileCommand.InBuffer : FileCommand → Prop
  | .store (.byWrite pktLen _) => pktLen.toNat ≤ maxMsgSize
  | _ => True

/-- A slot with entries in these states shows after a boot what it showed before: nothing, if one
    of them is blank; else the file of the entries a boot finds is the one of the entries in RAM. -/
def EntriesKept (fw : Firmware) (ram : Ram) (m : Mem) (t : Slot) : EntryState → EntryState → Prop
  | .blank, _ => ram.occupied t = false
  | _, .blank => ram.occupied t = false
  | names, entries => stagedFile fw m t ram names entries = ram.file fw m t

/-- Another slot is kept when power is lost behind `k` flash commands. -/
def FileCommand.Spares (fw : Firmware) (cmd : FileCommand) (ram : Ram) (w : World) (k : Nat)
    (t : Slot) : Prop :=
  (cmd.Entered fw ram → EntriesKept fw ram w.flash t
    (cmd.nameState fw w (k - (cmd.gate ram).length) t)
    (cmd.fatState fw w (k - (cmd.gate ram).length) t)) ∧
  (¬ cmd.Entered fw ram → EntriesKept fw ram w.flash t .old .old)

section

variable {fw : Firmware} {cmd : FileCommand} {ram : Ram} {w : World} {slot t : Slot}

theorem entriesKept_iff {m : Mem} {names entries : EntryState} :
    EntriesKept fw ram m t names entries ↔ stagedFile fw m t ram names entries = ram.file fw m t := by
  have hblank : ram.occupied t = false ↔ none = ram.file fw m t :=
    Ram.file_eq_none.symm.trans eq_comm
  cases names <;> cases entries <;> first | exact hblank | exact Iff.rfl

theorem FileCommand.fits_of_entered (h : cmd.Entered fw ram) (hbuf : cmd.InBuffer) : cmd.Fits := by
  cases cmd with
  | delete => trivial
  | store c =>
    obtain ⟨-, haccepted, -⟩ := h
    cases c with
    | byWrite pktLen buf =>
      have hle := (StoreCommand.contentsLen_le haccepted).trans hbuf
      show (buf.read 59 _).length ≤ maxContentsSize
      rw [Mem.length_read]
      exact Nat.le_of_add_le_add_left hle
    | byReceive slotNum uuid file pin =>
      show (file.contents.toList.take file.contentsLen.toNat).length ≤ maxContentsSize
      rw [List.length_take]
      exact (Nat.min_le_left _ _).trans (Nat.not_lt.mp haccepted.1)

/-- The memory a command past its checks starts from shows the same as flash did. -/
theorem stagedFile_congr {m m' : Mem} (h : Mem.Agree m' m 0 pinStateAddr)
    (names entries : EntryState) :
    stagedFile fw m' t ram names entries = stagedFile fw m t ram names entries := by
  have hname : nameAt m' t = nameAt m t :=
    nameAt_congr (h.mono (Nat.zero_le _) (Nat.le_refl _)) t
  have hfat : fatAt m' t = fatAt m t := fatAt_congr (h.mono (Nat.zero_le _) (by decide)) t
  have hpages : Mem.Agree m' m (blobSlotBase t) (blobSlotBase t + slotSize) :=
    h.mono (Nat.zero_le _) ((blobSlotBase_lt t).trans (by decide))
  cases names <;> cases entries <;>
    simp only [stagedFile, hname, hfat, slotFile_congr hpages]

/-- What a boot finds in another slot. -/
theorem FileCommand.bootFile_entered (hgcm : fw.prim.GcmLaws)
    (hslot : slotIsValid cmd.slotNum = some slot) (hbuf : cmd.InBuffer) (ht : t ≠ slot)
    (hentered : cmd.Entered fw ram) (k : Nat) :
    bootFile fw (cmd.cutFlash fw ram w k) t =
      stagedFile fw w.flash t ram (cmd.nameState fw w (k - (cmd.gate ram).length) t)
        (cmd.fatState fw w (k - (cmd.gate ram).length) t) := by
  have hfits := FileCommand.fits_of_entered hentered hbuf
  obtain ⟨m, hm, hflash⟩ := FileCommand.cutFlash_entered (w := w) hgcm hslot hentered k
  have hname := @FileCommand.nameAt_body fw cmd ram w slot t hgcm hentered hfits
    (k - (cmd.gate ram).length) m
  have hfat := @FileCommand.fatAt_body fw cmd ram w slot t hgcm hentered hfits
    (k - (cmd.gate ram).length) m
  rw [Function.update_of_ne ht] at hname hfat
  have hpages := @FileCommand.body_agree fw cmd ram w slot t hgcm hfits ht
    (k - (cmd.gate ram).length) m
  rw [hflash, bootFile_of_finds hname hfat hpages]
  exact stagedFile_congr hm _ _

theorem FileCommand.bootFile_refused (hslot : slotIsValid cmd.slotNum = some slot)
    (h : ¬ cmd.Entered fw ram) (k : Nat) :
    bootFile fw (cmd.cutFlash fw ram w k) t = stagedFile fw w.flash t ram .old .old := by
  have hagree := @FileCommand.cutFlash_refused fw cmd ram w slot hslot h k
  rw [← stagedFile_congr hagree]
  rfl

end

/-- For every state and every power-loss point of a store or delete, the file a boot finds in
    another slot is the one of before exactly when the entries of that slot are spared. -/
theorem cut_isolated_iff (fw : Firmware) (hgcm : fw.prim.GcmLaws) (cmd : FileCommand) (slot : Slot)
    (hslot : slotIsValid cmd.slotNum = some slot) (hbuf : cmd.InBuffer) (ram : Ram) (w : World)
    (k : Nat) (t : Slot) (ht : t ≠ slot) :
    bootFile fw (cmd.cutFlash fw ram w k) t = ram.file fw w.flash t ↔ cmd.Spares fw ram w k t := by
  unfold FileCommand.Spares
  by_cases hentered : cmd.Entered fw ram
  · rw [FileCommand.bootFile_entered hgcm hslot hbuf ht hentered k, ← entriesKept_iff]
    exact ⟨fun h => ⟨fun _ => h, fun hnot => absurd hentered hnot⟩, fun h => h.1 hentered⟩
  · rw [FileCommand.bootFile_refused hslot hentered k, ← entriesKept_iff]
    exact ⟨fun h => ⟨fun hyes => absurd hyes hentered, fun _ => h⟩, fun h => h.2 hentered⟩

/-! ## On the sample device -/

/-- A second file, for slot 1. -/
def sampleSecond : FileCommand := .store (.byWrite 359 (sampleWrite 1 1 "b"))

theorem sampleSecond_inBuffer : sampleSecond.InBuffer := by
  show (359 : UInt16).toNat ≤ maxMsgSize
  decide

theorem sampleSecond_entered : sampleSecond.Entered .sample .sampleStored := by
  refine ⟨Ram.sampleStored_pinCorrect, ⟨by decide, by decide, by decide⟩, ?_⟩
  rw [show (StoreCommand.byWrite 359 (sampleWrite 1 1 "b")).request.pin = ascii "a1b2c3" from by decide,
    Ram.sampleStored_pinCorrect.pinHash (by decide)]
  exact Option.some_ne_none _

/-- Power is lost behind the erase of the name page: the file of slot 0 is gone. -/
theorem cut_loses_neighbour :
    ¬ ∀ fw : Firmware, fw.prim.GcmLaws → ∀ (cmd : FileCommand) (slot : Slot),
      slotIsValid cmd.slotNum = some slot → cmd.InBuffer → ∀ (ram : Ram) (w : World) (k : Nat) (t : Slot),
        t ≠ slot → bootFile fw (cmd.cutFlash fw ram w k) t = ram.file fw w.flash t := by
  intro h
  have hsame := h .sample Firmware.sample_gcmLaws sampleSecond 1 (by decide)
    sampleSecond_inBuffer .sampleStored .sampleStored 1 0 (by decide)
  rw [@FileCommand.bootFile_entered .sample sampleSecond .sampleStored .sampleStored 1 0
    Firmware.sample_gcmLaws (by decide) sampleSecond_inBuffer (by decide) sampleSecond_entered] at hsame
  have hfree : Ram.sampleStored.occupied 0 = false := Ram.file_eq_none.mp hsame.symm
  rw [show Ram.sampleStored.occupied 0 = true from StoreCommand.occupied_storedRam _ _ _] at hfree
  cases hfree

theorem cut_isolated_iff_sample :
    bootFile .sample (sampleSecond.cutFlash .sample .sampleStored .sampleStored 1) 0 =
        Ram.sampleStored.file .sample World.sampleStored.flash 0 ↔
      sampleSecond.Spares .sample .sampleStored .sampleStored 1 0 :=
  cut_isolated_iff .sample Firmware.sample_gcmLaws sampleSecond 1 (by decide)
    sampleSecond_inBuffer .sampleStored .sampleStored 1 0 (by decide)
