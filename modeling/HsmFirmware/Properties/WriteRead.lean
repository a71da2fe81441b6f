-- SUMMARY: Reading a file right after write has acknowledged it: when the contents come back.
import HsmFirmware.Specs.FileCommands

/-!
# Write, then read

`write` acknowledges files of up to 11680 bytes for every group the device may
write. `read` has a buffer for 8192 bytes, and group 0 has no bit in common with
any group mask, so that it denies every record of that group.
-/

open Machine (replay)

section

variable {fw : Firmware} {pktLen pktLen' : UInt16} {buf buf' : Mem} {ram ram' : Ram} {w w' : World}
  {fs rest : Schedule} {L : List Op}

/-- The answer of the `read` that follows a `write`: what the record of the slot gives. -/
theorem read_after_write (hgcm : fw.prim.GcmLaws)
    (hwrite : (write fw pktLen buf).exec fs ram w = .done (0, ram') w' L rest)
    (hperm : validatePermission fw (WriteCommand.ofBuf buf).groupId .permRead = true)
    (hlen : ¬ pktLen' < 7) (hpin : buf'.read 0 pinLength = (WriteCommand.ofBuf buf).pin)
    (hslot : buf' 6 = (WriteCommand.ofBuf buf).slot) (fs' : Schedule) :
    ∃ contents ram'',
      (read fw pktLen' buf').exec fs' ram' w' =
        .done (readStatus w' (contentsAnswer
            (.named (WriteCommand.ofBuf buf).name (WriteCommand.ofBuf buf).groupId) contents), ram'')
          (w'.answered (contentsAnswer
            (.named (WriteCommand.ofBuf buf).name (WriteCommand.ofBuf buf).groupId) contents)) [] fs' ∧
      (∀ d, contents = some d → d.length ≤ maxContentsSize) ∧
      ((WriteCommand.ofBuf buf).contents.length ≤ maxContentsSize →
        contents = if (WriteCommand.ofBuf buf).groupId = 0 then none
          else some (WriteCommand.ofBuf buf).contents) := by
  obtain ⟨r, pinHash, h⟩ := @StoreCommand.success fw (.byWrite pktLen buf) fs rest ram ram' w w' L
    hgcm hwrite
  have hflash : w'.flash = replay flashStep L w.flash := by
    have hall := (write fw pktLen buf).flash_exec fs ram w
    rwa [hwrite] at hall
  obtain ⟨hname, -, hhash⟩ := StoreCommand.sameTables_storedRam (.byWrite pktLen buf) ram r
  rw [← h.ramIs] at hname hhash
  have howner : ram'.gPinHash = pinHash := by
    have hpass := h.pinPasses.pinHash (Mem.length_read _ _ _)
    rw [hhash]
    exact Option.some.inj (hpass.symm.trans h.pinIs)
  have hpass : PinCorrect fw ram' (buf'.read 0 pinLength) := by
    rw [h.ramIs, StoreCommand.pinCorrect_storedRam, hpin]
    exact h.pinPasses
  have hcount : ram'.gFailCount = 0 := by
    rw [h.ramIs]
    rfl
  have hocc : slotOccupied ram' (buf' 6) = some r.slot := by
    rw [hslot]
    refine slotOccupied_eq_some h.slotIs ?_
    rw [h.ramIs]
    exact StoreCommand.occupied_storedRam _ _ _
  have hentry : ram'.gNameTable r.slot =
      .named (WriteCommand.ofBuf buf).name (WriteCommand.ofBuf buf).groupId := by
    rw [hname, Function.update_self]
    rfl
  have hanswer : readCheckedAnswer fw ram' w'.flash (buf' 6) =
      contentsAnswer (.named (WriteCommand.ofBuf buf).name (WriteCommand.ofBuf buf).groupId)
        (recordContents fw w'.flash ram'.gFat r.slot (some pinHash) 0xFFFFFFFF) := by
    rw [readCheckedAnswer, hocc, ← howner, ← hentry]
    refine if_pos ?_
    rw [hentry]
    exact hperm
  obtain ⟨ram'', -, hread⟩ := read_exec hlen hpass hcount fs' w'
  rw [hanswer] at hread
  refine ⟨_, ram'', hread, fun d hd => recordContents_length_le hd, fun hle => ?_⟩
  rw [hflash, h.contents hgcm hle]
  simp only [ne_eq, not_true_eq_false, or_false]
  rfl

end

/-- After a `write` that returned 0, a `read` of the slot with the same PIN sends the name with
    its last byte NUL and the contents, exactly when the group is not 0 and the contents have at
    most 8192 bytes. The device may read the group. -/
theorem write_read_iff (fw : Firmware) (hgcm : fw.prim.GcmLaws) (pktLen : UInt16) (buf : Mem)
    (ram : Ram) (w : World) (fs : Schedule) (ram' : Ram) (w' : World) (L : List Op)
    (rest : Schedule) (hwrite : (write fw pktLen buf).exec fs ram w = .done (0, ram') w' L rest)
    (hperm : validatePermission fw (WriteCommand.ofBuf buf).groupId .permRead = true)
    (pktLen' : UInt16) (buf' : Mem) (fs' : Schedule) (hlen : ¬ pktLen' < 7)
    (hpin : buf'.read 0 pinLength = (WriteCommand.ofBuf buf).pin)
    (hslot : buf' 6 = (WriteCommand.ofBuf buf).slot) :
    (∃ ram'', (read fw pktLen' buf').exec fs' ram' w' =
      .done ((w'.acks.headD .ok).toInt, ram'')
        (w'.answered ⟨.control, readMsg,
          ((WriteCommand.ofBuf buf).name.set 31 0 lastNameByte).toList ++ (WriteCommand.ofBuf buf).contents⟩)
        [] fs') ↔
      (WriteCommand.ofBuf buf).groupId ≠ 0 ∧
        (WriteCommand.ofBuf buf).contents.length ≤ maxContentsSize := by
  obtain ⟨contents, ram'', hread, hmax, hfits⟩ :=
    read_after_write hgcm hwrite hperm hlen hpin hslot fs'
  rw [hread]
  constructor
  · rintro ⟨ram₃, heq⟩
    obtain ⟨-, hpacket, -⟩ := Halt.done.inj heq
    have hpacket := World.answered_inj hpacket
    cases contents with
    | none => cases congrArg Packet.cmd hpacket
    | some d =>
      have hd : d = (WriteCommand.ofBuf buf).contents :=
        List.append_cancel_left (congrArg Packet.payload hpacket)
      have hle := hmax d rfl
      rw [hd] at hle
      refine ⟨fun hgroup => ?_, hle⟩
      have hnone := hfits hle
      rw [if_pos hgroup] at hnone
      cases hnone
  · rintro ⟨hgroup, hle⟩
    rw [hfits hle, if_neg hgroup]
    exact ⟨ram'', rfl⟩

/-! ## On the sample device -/

/-- The sample device may read and write group 0. A file of that group is acknowledged, and
    the `read` that follows is refused. -/
theorem write_read_groupZero :
    ∃ ram' w' L, (write .sample 359 (sampleWrite 0 0 "a")).exec [] .sample .sample =
        .done (0, ram') w' L [] ∧ validatePermission .sample 0 .permRead = true ∧
      ∃ ram'', (read .sample 7 (sampleWrite 0 0 "a")).exec [] ram' w' =
        .done (-1, ram'') (w'.answered (errorPacket "Read failed\n")) [] [] := by
  have hwrite := @sampleWrite_runs 0 0 0 "a" (by decide) (by decide)
    ⟨by decide, by decide, by decide⟩ (by decide)
  refine ⟨_, _, _, hwrite, by decide, ?_⟩
  obtain ⟨contents, ram'', hread, -, hfits⟩ := @read_after_write .sample 359 7 (sampleWrite 0 0 "a")
    (sampleWrite 0 0 "a") .sample _ .sample _ [] [] _ Firmware.sample_gcmLaws hwrite (by decide)
    (by decide) rfl rfl []
  obtain rfl : contents = none := (hfits (sampleWrite_fits 0 0 "a")).trans (if_pos (by decide))
  exact ⟨ram'', hread⟩

theorem write_read_iff_sample :
    (∃ ram'', (read .sample 7 (sampleWrite 0 1 "a")).exec [] .sampleStored .sampleStored =
      .done ((World.sampleStored.acks.headD .ok).toInt, ram'')
        (World.sampleStored.answered ⟨.control, readMsg,
          ((WriteCommand.ofBuf (sampleWrite 0 1 "a")).name.set 31 0 lastNameByte).toList ++
            (WriteCommand.ofBuf (sampleWrite 0 1 "a")).contents⟩) [] []) ↔
      (WriteCommand.ofBuf (sampleWrite 0 1 "a")).groupId ≠ 0 ∧
        (WriteCommand.ofBuf (sampleWrite 0 1 "a")).contents.length ≤ maxContentsSize :=
  write_read_iff .sample Firmware.sample_gcmLaws 359 (sampleWrite 0 1 "a") .sample .sample [] _ _ _ []
    sampleStored_runs (by decide) 7 (sampleWrite 0 1 "a") [] (by decide) rfl rfl
