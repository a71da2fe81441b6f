-- SUMMARY: From blank flash on: no file is released under another group, in runs whose stores settle the entry of their slot.
import HsmFirmware.Properties.GroupRelease

/-!
# Cross-group release

A store gives its slot the new group before it erases the old record. When it stops in between, the
old file is in the slot under the new group: in RAM after a refused flush, in flash after a power
loss. A run without such a store releases every file under its own group.
-/

open Recovery (Run)

/-- Over any run of the device from blank flash, whose commands may fail and lose power anywhere as
    long as their stores settle the entries of their slots, a file leaves the device only under the
    group of its record. -/
theorem no_cross_group_release (fw : Firmware) (hgcm : fw.prim.GcmLaws) (w₀ : World)
    (hblank : w₀.flash.Erased 0 (pinStateAddr + pageSize)) (uartBuf : Mem) (ram : Ram) (w : World)
    (hrun : Run hsm (mainSystem fw) SameFlash (StoresSettle fw) w₀ (.on (uartBuf, ram) w))
    (frame : HostFrame) (fs : Schedule) (p : Packet)
    (hp : p ∈ (mainStep fw frame uartBuf).packets fs ram w) :
    ReleasesByGroup fw frame uartBuf ram w p := by
  apply releases_of_namesRight hp
  intro slot
  apply hrun.holds (mainSystem_namesRight hgcm slot)
  show EntryRight w₀.flash slot (nameAt w₀.flash slot)
  rw [nameAt_blank hblank]
  exact .erased _ slot

/-! ## A refused flush -/

/-- The flash refuses what the PIN gate writes, if anything, and then the erase of the name page. -/
def refusedFlush (ram : Ram) : Schedule :=
  if ram.gFailCount = 0 then [.failed false] else [.failed false, .failed false]

/-- The name entry of the sample file. -/
def sampleNameEntry (groupId : UInt16) : NameEntry :=
  (StoreCommand.byWrite 359 (sampleWrite 0 groupId "a")).request.entry

section

variable {fw : Firmware} {ram : Ram} {w : World} {hash : Digest} {m : FileMap} {f : KeptFile}
  {uartBuf : Mem} {groupId : UInt16}

theorem exec_writePinState_refused (fs : Schedule) (ram : Ram) (w : World) :
    writePinState.exec (.failed false :: fs) ram w = .done (-1, ram) w [] fs := rfl

/-- The gate lets the right PIN through all the same. -/
theorem exec_pinGate_refused {pin : Bytes} (h : PinCorrect fw ram pin) (w : World) :
    (pinGate fw pin).exec (refusedFlush ram) ram w =
      .done (0, ram.setFails 0) w [] [.failed false] := by
  rw [pinGate_exec_correct h, refusedFlush]
  split
  · rename_i hcount
    rw [Ram.setFails_self hcount]
  · rw [exec_writePinState_refused]
    rfl

/-- A sample write whose name page cannot be erased leaves its entry in RAM. -/
theorem mainStep_refused (hpin : PinCorrect fw ram (WriteCommand.ofBuf (sampleWrite 0 groupId "a")).pin)
    (haccepted : (StoreCommand.byWrite 359 (sampleWrite 0 groupId "a")).Accepted fw)
    (hslot : slotIsValid (WriteCommand.ofBuf (sampleWrite 0 groupId "a")).slot = some 0)
    (uartBuf : Mem) (w : World) :
    (mainStep fw (sampleWriteFrame groupId) uartBuf).exec (refusedFlush ram) ram w =
      .done (uartBuf.write 0 (sampleWriteFrame groupId).body,
        (ram.setFails 0).setName 0 (sampleNameEntry groupId))
        (w.answered (errorPacket "Name store failed\n")) [] [] := by
  have hpin' : PinCorrect fw (ram.setFails 0) (WriteCommand.ofBuf (sampleWrite 0 groupId "a")).pin :=
    hpin
  have hwrite : (write fw 359 (sampleWrite 0 groupId "a")).exec (refusedFlush ram) ram w =
      (write fw 359 (sampleWrite 0 groupId "a")).exec [.failed false] (ram.setFails 0) w := by
    rw [write, if_neg haccepted.1, Dev.exec_bind, Dev.exec_bind, exec_pinGate_refused hpin,
      pinGate_exec_correct hpin', if_pos (Ram.gFailCount_setFails ram 0)]
  have hbehind : (write fw 359 (sampleWrite 0 groupId "a")).exec [.failed false] (ram.setFails 0) w = _ :=
    StoreCommand.write_flushRefused hpin' rfl haccepted hslot []
  rw [mainStep_exec (h := .write) rfl rfl, handle_sampleWriteFrame,
    show handle fw .write 359 (sampleWrite 0 groupId "a") = write fw 359 (sampleWrite 0 groupId "a") from
      rfl, hwrite, hbehind]
  rfl

/-- The owner of the PIN gets the old contents under the new entry. -/
theorem Represents.readsRenamed (hgcm : fw.prim.GcmLaws) (h : Represents fw hash ram w m)
    (hknown : (Policy.ofBuild fw hash).knows (ascii "a1b2c3") = true) (hfile : m 0 = some f)
    (entry : NameEntry) (hused : entry.inUse = nameInUseTag)
    (hperm : validatePermission fw entry.groupId .permRead = true) (uartBuf : Mem) (p : Packet) :
    ⟨.control, readMsg, entry.name.toList ++ f.contents⟩ ∈
      (mainStep fw sampleReadFrame uartBuf).packets [] ((ram.setFails 0).setName 0 entry)
        (w.answered p) := by
  let ram' := (ram.setFails 0).setName 0 entry
  have hname : ram'.gNameTable 0 = entry := by
    show Function.update ram.gNameTable 0 entry 0 = entry
    exact Function.update_self _ _ _
  have hoccupied : ram'.occupied 0 = true := by
    have hbefore := Ram.occupied_iff.mp ((h.occupied_eq 0).trans (by rw [hfile]; rfl))
    rw [Ram.occupied_iff, hname]
    exact ⟨hused, hbefore.2⟩
  have hcontents : recordContents fw (w.answered p).flash ram'.gFat 0 (some ram'.gPinHash)
      0xFFFFFFFF = some f.contents := by
    have hread := h.contents hgcm hfile
    rw [← h.pinHash] at hread
    exact hread
  have hanswer : readCheckedAnswer fw ram' (w.answered p).flash (uartBuf.write 0 sampleReadFrame.body 6) =
      ⟨.control, readMsg, entry.name.toList ++ f.contents⟩ := by
    rw [sampleReadFrame_slot, readCheckedAnswer, slotOccupied_eq_some rfl hoccupied]
    dsimp only
    rw [hname, if_pos hperm, readSlotAnswer, hcontents, hname]
    rfl
  have hpin : PinCorrect fw ram' ((uartBuf.write 0 sampleReadFrame.body).read 0 pinLength) := by
    rw [sampleReadFrame_pin]
    exact (h.pinCorrect_iff _).mpr hknown
  obtain ⟨ram'', -, hexec⟩ := @read_exec fw 7 _ ram' (by decide) hpin rfl [] (w.answered p)
  have hrun : (mainStep fw sampleReadFrame uartBuf).exec [] ram' (w.answered p) = _ :=
    mainStep_runs (h := .read) rfl rfl hexec
  rw [Dev.packets, hrun, Halt.state, hanswer, World.sent_answered (w.answered p), List.drop_left]
  exact List.mem_singleton_self _

/-- A write of the group that the record has already. -/
theorem StoresSettle.of_sameGroup {frame : HostFrame} {fs : Schedule} (hcmd : frame.cmd = writeMsg)
    (hfits : frame.body.length ≤ maxMsgSize)
    (hgroup : ∀ slot, slotIsValid (WriteCommand.ofBuf (uartBuf.write 0 frame.body)).slot = some slot →
      RecordGroup w.flash slot (WriteCommand.ofBuf (uartBuf.write 0 frame.body)).groupId) :
    StoresSettle fw frame fs (uartBuf, ram) w := by
  refine ⟨hfits, ?_⟩
  rw [hcmd]
  intro c ram' w' fs' hcomes slot hslot _ _
  cases hcomes with
  | write => exact .inl (hgroup slot hslot)

end

/-- The sample device when it has booted and stored a file of the group. -/
theorem sample_stores {hash : Digest} (hhash : provisionedHash .copying = some hash)
    (groupId : UInt16) (hgroup : groupId = 1 ∨ groupId = 2) :
    ∃ uartBuf ram w f, Run hsm (mainSystem .copying) SameFlash (StoresSettle .copying) .sample
        (.on (uartBuf, ram) w) ∧ f.groupId = groupId ∧
      Represents .copying hash ram w (Function.update FileMap.empty 0 (some f)) := by
  have hknown : (Policy.ofBuild .copying hash).knows (ascii "a1b2c3") = true :=
    beq_iff_eq.mpr (provisionedHash_eq hhash).2
  obtain ⟨ram₀, w₀, hboots, hempty⟩ := sample_boots hhash
  obtain ⟨f, ram, w, hstep, hf, hrep⟩ := hempty.storesSample Firmware.copying_gcmLaws hknown
    (fun _ => 0) groupId (by rcases hgroup with rfl | rfl <;> decide)
    (by rcases hgroup with rfl | rfl <;> decide) (by rcases hgroup with rfl | rfl <;> decide)
    (by rcases hgroup with rfl | rfl <;> decide) (by rcases hgroup with rfl | rfl <;> decide)
    (by rcases hgroup with rfl | rfl <;> decide)
  exact ⟨_, ram, w, f, (hboots.step hstep).mono fun _ _ _ _ hok => hok.settles, hf, hrep⟩

/-- The record has the group of the file. -/
theorem sample_groupMask {hash : Digest} {uartBuf : Mem} {ram : Ram} {w : World} {f : KeptFile}
    (hrun : Run hsm (mainSystem .copying) SameFlash (StoresSettle .copying) .sample
      (.on (uartBuf, ram) w))
    (hrep : Represents .copying hash ram w (Function.update FileMap.empty 0 (some f))) :
    NamesRight 0 ram w.flash ∧ (headerAt w.flash 0).groupMask = f.groupId.toUInt32 := by
  have hright : NamesRight 0 ram w.flash := by
    apply hrun.holds (mainSystem_namesRight Firmware.copying_gcmLaws 0)
    show EntryRight World.sample.flash 0 (nameAt World.sample.flash 0)
    rw [nameAt_blank sample_blank]
    exact .erased _ 0
  have hfile : Function.update FileMap.empty 0 (some f) 0 = some f := Function.update_self _ _ _
  have hmask := hright.groupMask ((hrep.occupied_eq 0).trans (by rw [hfile]; rfl))
    (hrep.contents Firmware.copying_gcmLaws hfile)
  rw [hrep.nameEntry hfile] at hmask
  exact ⟨hright, hmask⟩

/-- A file of group 2 is in slot 0, which may not be read. When a write of group 1 to the slot finds
    that the name page cannot be erased, the file is given to the host. -/
theorem refused_flush_releases : World.sample.flash.Erased 0 (pinStateAddr + pageSize) ∧
    ∃ uartBuf ram w p,
      Run hsm (mainSystem .copying) SameFlash (fun _ _ _ _ => True) .sample (.on (uartBuf, ram) w) ∧
      p ∈ (mainStep .copying sampleReadFrame uartBuf).packets [] ram w ∧
      ¬ ReleasesByGroup .copying sampleReadFrame uartBuf ram w p := by
  obtain ⟨hash, hhash⟩ := copying_provisionedHash
  have hknown : (Policy.ofBuild .copying hash).knows (ascii "a1b2c3") = true :=
    beq_iff_eq.mpr (provisionedHash_eq hhash).2
  obtain ⟨uartBuf, ram, w, f, hrun, hgroup, hrep⟩ := sample_stores hhash 2 (.inr rfl)
  obtain ⟨-, hmask⟩ := sample_groupMask hrun hrep
  have hpin := (hrep.pinCorrect_iff _).mpr hknown
  have hrefused := @mainStep_refused .copying ram 1 hpin ⟨by decide, by decide, by decide⟩ (by decide)
    uartBuf w
  have hreads := hrep.readsRenamed Firmware.copying_gcmLaws hknown (Function.update_self _ _ _)
    (sampleNameEntry 1) rfl (by decide) (uartBuf.write 0 (sampleWriteFrame 1).body)
    (errorPacket "Name store failed\n")
  refine ⟨sample_blank, _, _, _, _, (hrun.mono fun _ _ _ _ _ => trivial).step
    (.command (sampleWriteFrame 1) (refusedFlush ram) trivial hrefused), hreads, ?_⟩
  intro hreleases
  obtain ⟨slot, groupId, hallowed, hheader, hperm⟩ := hreleases.1 rfl rfl
  have hslot := (slotOccupied_some hallowed.occupied).1
  rw [sampleReadFrame_slot] at hslot
  obtain rfl : (0 : Slot) = slot := Option.some.inj hslot
  have hsame : groupId = 2 := by
    rw [← hgroup]
    exact UInt16.toUInt32_inj.mp (hheader.symm.trans hmask)
  subst hsame
  revert hperm
  decide

/-- A write of group 1 over a file of group 1, under the same fault: what the host gets then is of the
    group it may read. -/
theorem no_cross_group_release_sample : ∃ uartBuf ram w p,
    Run hsm (mainSystem .copying) SameFlash (StoresSettle .copying) .sample (.on (uartBuf, ram) w) ∧
    p ∈ (mainStep .copying sampleReadFrame uartBuf).packets [] ram w ∧
    ReleasesByGroup .copying sampleReadFrame uartBuf ram w p := by
  obtain ⟨hash, hhash⟩ := copying_provisionedHash
  have hknown : (Policy.ofBuild .copying hash).knows (ascii "a1b2c3") = true :=
    beq_iff_eq.mpr (provisionedHash_eq hhash).2
  obtain ⟨uartBuf, ram, w, f, hrun, hgroup, hrep⟩ := sample_stores hhash 1 (.inl rfl)
  obtain ⟨-, hmask⟩ := sample_groupMask hrun hrep
  have hpin := (hrep.pinCorrect_iff _).mpr hknown
  have hrefused := @mainStep_refused .copying ram 1 hpin ⟨by decide, by decide, by decide⟩ (by decide)
    uartBuf w
  have hreads := hrep.readsRenamed Firmware.copying_gcmLaws hknown (Function.update_self _ _ _)
    (sampleNameEntry 1) rfl (by decide) (uartBuf.write 0 (sampleWriteFrame 1).body)
    (errorPacket "Name store failed\n")
  have hsettles : StoresSettle .copying (sampleWriteFrame 1) (refusedFlush ram) (uartBuf, ram) w := by
    have hframe := WriteCommand.ofBuf_congr (show ¬ (359 : UInt16) < writeCmdMinLen by decide)
      (Mem.agree_write_read uartBuf (sampleWrite 0 1 "a") 0 359).symm
    apply StoresSettle.of_sameGroup rfl
    · rw [sampleWriteFrame_length]
      decide
    intro slot hslot
    rw [sampleWriteFrame, hframe] at hslot ⊢
    obtain rfl : (0 : Slot) = slot := Option.some.inj hslot
    intro _
    rw [hmask, hgroup]
    show (1 : UInt16).toUInt32 = (WriteCommand.ofBuf (sampleWrite 0 1 "a")).groupId.toUInt32
    decide
  have hstep := hrun.step (.command (sampleWriteFrame 1) (refusedFlush ram) hsettles hrefused)
  exact ⟨_, _, _, _, hstep, hreads, no_cross_group_release .copying Firmware.copying_gcmLaws .sample
    sample_blank _ _ _ hstep sampleReadFrame [] _ hreads⟩
