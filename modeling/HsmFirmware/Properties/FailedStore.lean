-- SUMMARY: A store that fails before it erases its slot: when the tables and the answers to the host stay as they were.
import HsmFirmware.Specs.FileCommands
import HsmFirmware.Specs.Images

/-!
# Stores that fail early

A store puts the new name entry into RAM before anything else. When it fails
without having erased a page of the slot, the entry stays there if the flush of
the name table failed, and is replaced by an empty one if the blob layer failed.
In both cases the old entry is gone, unless it was equal to what replaces it.
-/

open Machine (replay)

/-- The command erases a page of the slot. -/
def Op.ErasesSlot (slot : Slot) : Op → Prop
  | .erase addr => blobSlotBase slot ≤ addr ∧ addr < blobSlotBase slot + slotSize
  | _ => False

/-- The tables in RAM and the answers to every `list` and `read` are the same. -/
structure Unchanged (fw : Firmware) (ram : Ram) (w : World) (ram' : Ram) (w' : World) : Prop where
  gNameTable : ram'.gNameTable = ram.gNameTable
  gFat : ram'.gFat = ram.gFat
  list : ∀ pktLen buf, (list fw pktLen buf).replies ram' w' = (list fw pktLen buf).replies ram w
  read : ∀ pktLen buf, (read fw pktLen buf).replies ram' w' = (read fw pktLen buf).replies ram w

/-- The command fails before it changes the name entry, or what it leaves in RAM is what
    was there: the new entry when the flush fails, else the empty one. -/
def StoreCommand.FailsUnseen (fw : Firmware) (c : StoreCommand) (ram : Ram) (fs : Schedule) : Prop :=
  ¬ c.Accepted fw ∨ getPinHash fw c.request.pin = none ∨
    match slotIsValid c.request.slotNum with
    | none => True
    | some slot =>
      if (fs.attempt (c.gate ram).length).AllDone 17 then ram.gNameTable slot = .erased
      else ram.gNameTable slot = c.request.entry

section

variable {fw : Firmware} {ram ram' : Ram} {w w' : World} {L : List Op}

theorem Unchanged.of_sameFiles (hram : ram.SameFiles ram')
    (hflash : Mem.Agree w'.flash w.flash 0 fatAddr) : Unchanged fw ram w ram' w' where
  gNameTable := hram.gNameTable
  gFat := hram.gFat
  list pktLen buf := by rw [list_replies, list_replies, listAnswer_congr hram]
  read pktLen buf := by rw [read_replies, read_replies, readAnswer_congr hram hflash]

/-- A changed name entry is seen, and an unchanged one leaves everything as it was. -/
theorem unchanged_setName_iff {slot : Slot} {entry : NameEntry} {ram0 : Ram} {aad : Bytes}
    (hram : ram.SameFiles ram0) (hflash : Mem.Agree w'.flash w.flash 0 fatAddr) :
    Unchanged fw ram w ((ram0.setName slot entry).setAad aad) w' ↔
      ram.gNameTable slot = entry := by
  constructor
  · intro h
    have hslot := congrFun h.gNameTable slot
    simpa using hslot.symm
  · intro h
    refine .of_sameFiles ⟨hram.gFat, ?_, hram.gPinHash, hram.gInitialized⟩ hflash
    show Function.update ram0.gNameTable slot entry = ram.gNameTable
    rw [hram.gNameTable, ← h, Function.update_eq_self]

/-- The first command of `blob_write` erases a page of its slot. -/
theorem BlobRecord.erases_ops {r : BlobRecord} {fat : Slot → FatEntry} {uuid : Vector UInt8 16}
    {j : Nat} (hj : j ≠ 0) : ∃ o ∈ (r.ops fw fat uuid).take j, o.ErasesSlot r.slot := by
  obtain ⟨j, rfl⟩ := Nat.exists_eq_succ_of_ne_zero hj
  refine ⟨.erase (blobSlotBase r.slot + 0 * pageSize), ?_, ?_⟩
  · have hops : r.ops fw fat uuid = .erase (blobSlotBase r.slot + 0 * pageSize) ::
        (r.ops fw fat uuid).tail := rfl
    rw [hops, List.take_succ_cons]
    exact List.mem_cons_self
  · simp only [Op.ErasesSlot, slotSize_eq]
    omega

/-- How a store that fails and spares its slot leaves the RAM. -/
theorem storeFile_spares {q : StoreRequest} {slot : Slot} {pinHash : Digest} {fs rest : Schedule}
    (hgcm : fw.prim.GcmLaws) (hslot : slotIsValid q.slotNum = some slot)
    (hpin : getPinHash fw q.pin = some pinHash)
    (hrun : (q.store fw).exec fs ram w = .done (-1, ram') w' L rest)
    (hspare : ∀ o ∈ L, ¬ o.ErasesSlot slot) :
    (∃ aad, ram' = (ram.setName slot (if fs.AllDone 17 then .erased else q.entry)).setAad aad) ∧
      Mem.Agree (replay flashStep L w.flash) w.flash 0 fatAddr := by
  have hend := @storeFile_ending fw q.slotNum slot q.groupId q.pin pinHash q.name q.uuid q.contents
    hgcm hslot hpin fs ram w
  rw [StoreRequest.store] at hrun
  rw [hrun] at hend
  have hsetup : ∀ r, blobWriteSetup fw slot q.contents pinHash q.groupId.toUInt32
      (w.rng w.draws) = some r → r.slot = slot := fun r hr => (blobWriteSetup_some hr).1
  generalize blobWriteSetup fw slot q.contents pinHash q.groupId.toUInt32 (w.rng w.draws) = setup
    at hend hsetup
  cases hend with
  | @nameRefused k j e t rest hk hj hfs hfailed =>
    have hrefused : ¬ fs.AllDone 17 := by
      intro hall
      cases hall.getElem? hj hfailed
    rw [if_neg hrefused]
    exact ⟨⟨ram.gAad, rfl⟩, nameOps_agree ram slot _ k w.flash⟩
  | @undone B k aad t rest hB hk hfs hfirst =>
    -- Had `blob_write` given a command, the first one would have erased.
    have hnil : B = [] := by
      rcases hB with ⟨-, hB⟩ | ⟨r, j, hr, rfl⟩
      · exact hB
      · by_cases hj : j = 0
        · rw [hj, List.take_zero]
        · obtain ⟨o, ho, her⟩ := @BlobRecord.erases_ops fw r ram.gFat q.uuid j hj
          rw [hsetup r hr] at her
          exact absurd her (hspare o (by simp [ho]))
    subst hnil
    rw [if_pos hfs]
    refine ⟨⟨aad, rfl⟩, ?_⟩
    rw [Machine.replay_append, List.nil_append]
    have htake : nameOps ram slot (.named q.name q.groupId) =
        (nameOps ram slot (.named q.name q.groupId)).take 17 :=
      (List.take_of_length_le (length_nameOps _ _ _).le).symm
    refine (nameOps_agree ram slot .erased k _).trans ?_
    rw [htake]
    exact nameOps_agree ram slot _ 17 w.flash

/-- The store of a command that got past its checks. -/
theorem StoreCommand.unchanged_iff_of_store {c : StoreCommand} {j : Nat} {fs rest : Schedule}
    {t : World} {l : List Op} (hgcm : fw.prim.GcmLaws) (haccepted : c.Accepted fw)
    (hstore : (c.request.store fw).exec (fs.attempt (c.gate ram).length) (c.behindGate ram)
      (w.after ((c.gate ram).take j)) = .done (-1, ram') t l rest)
    (hspare : ∀ slot, slotIsValid c.request.slotNum = some slot → ∀ o ∈ l, ¬ o.ErasesSlot slot)
    (hflash : w'.flash = replay flashStep ((c.gate ram).take j ++ l) w.flash) :
    Unchanged fw ram w ram' w' ↔ c.FailsUnseen fw ram fs := by
  have hsame := c.sameFiles_behindGate ram
  have hgate : Mem.Agree (replay flashStep ((c.gate ram).take j) w.flash) w.flash 0 fatAddr :=
    agree_replay (fun o ho => c.gate_within ram o (List.mem_of_mem_take ho)) (.inl (by decide)) _
  rw [Machine.replay_append] at hflash
  by_cases hdeclined : getPinHash fw c.request.pin = none ∨ slotIsValid c.request.slotNum = none
  · -- Nothing happened at all.
    obtain ⟨msg, hexec⟩ := @StoreRequest.store_declines fw (c.behindGate ram)
      (w.after ((c.gate ram).take j)) c.request hdeclined (fs.attempt (c.gate ram).length)
    rw [hexec] at hstore
    cases hstore
    refine iff_of_true (.of_sameFiles hsame (by rw [hflash]; exact hgate)) (.inr ?_)
    rcases hdeclined with h | h
    · exact .inl h
    · exact .inr (by rw [h]; trivial)
  · obtain ⟨pinHash, hpin⟩ := Option.ne_none_iff_exists'.mp fun h => hdeclined (.inl h)
    obtain ⟨slot, hslot⟩ := Option.ne_none_iff_exists'.mp fun h => hdeclined (.inr h)
    obtain ⟨⟨aad, rfl⟩, hkept⟩ := storeFile_spares hgcm hslot hpin hstore (hspare slot hslot)
    have hagree : Mem.Agree w'.flash w.flash 0 fatAddr := by
      rw [hflash]
      exact hkept.trans hgate
    rw [unchanged_setName_iff hsame hagree]
    simp only [FailsUnseen, haccepted, not_true_eq_false, hpin, hslot, false_or, reduceCtorEq]
    split <;> rfl

/-- A store command that fails without erasing a page of its slot leaves the tables and all
    answers as they were exactly when it fails unseen. -/
theorem failed_store_unchanged_iff (fw : Firmware) (hgcm : fw.prim.GcmLaws) (c : StoreCommand)
    (ram : Ram) (w : World) (fs : Schedule) (hpin : c.PinPasses fw ram) (ram' : Ram) (w' : World)
    (L : List Op) (rest : Schedule)
    (hrun : (c.run fw).exec fs ram w = .done (-1, ram') w' L rest)
    (hspare : ∀ slot, slotIsValid c.request.slotNum = some slot → ∀ o ∈ L, ¬ o.ErasesSlot slot) :
    Unchanged fw ram w ram' w' ↔ c.FailsUnseen fw ram fs := by
  have hflash := (c.run fw).flash_exec fs ram w
  have hend := @StoreCommand.ending fw c fs ram w
  rw [hrun] at hflash
  generalize (c.run fw).exec fs ram w = res at hend hrun
  cases hend with
  | refused h hram hL =>
    cases hrun
    refine iff_of_true (.of_sameFiles hram ?_) (.inl fun haccepted => h ⟨hpin, haccepted⟩)
    rw [show w'.flash = _ from hflash]
    exact agree_replay hL (.inl (by decide)) _
  | cut => cases hrun
  | @entered j _ haccepted =>
    cases hstore : (c.request.store fw).exec (fs.attempt (c.gate ram).length) (c.behindGate ram)
        (w.after ((c.gate ram).take j)) with
    | off t l =>
      rw [hstore] at hrun
      cases hrun
    | done r t l rest' =>
      rw [hstore] at hrun
      simp only [Halt.andThen_done, Halt.logged_done, List.append_nil] at hrun
      cases hrun
      exact StoreCommand.unchanged_iff_of_store hgcm haccepted hstore
        (fun slot hslot o ho => hspare slot hslot o (List.mem_append_right _ ho)) hflash

end

/-! ## On the sample device -/

/-- The first flash command of a second write is refused: the file of slot 0 is renamed. -/
theorem refused_flush_renames :
    ∃ ram' w' L rest,
      ((StoreCommand.byWrite 359 (sampleWrite 0 1 "b")).run .sample).exec [.failed false]
        .sampleStored .sampleStored = .done (-1, ram') w' L rest ∧
      (∀ o ∈ L, ¬ o.ErasesSlot 0) ∧ ¬ Unchanged .sample .sampleStored .sampleStored ram' w' := by
  have hexec := @StoreCommand.write_flushRefused .sample .sampleStored .sampleStored 0 359
    (sampleWrite 0 1 "b") Ram.sampleStored_pinCorrect rfl ⟨by decide, by decide, by decide⟩ (by decide) []
  refine ⟨_, _, _, _, hexec, by simp, fun h => ?_⟩
  have hname := congrArg (fun table => (table 0).name.toList) h.gNameTable
  revert hname
  decide

theorem failed_store_unchanged_iff_sample :
    Unchanged .sample .sampleStored .sampleStored
        (Ram.sampleStored.setName 0 (StoreCommand.byWrite 359 (sampleWrite 0 1 "a")).request.entry)
        (World.sampleStored.answered (errorPacket "Name store failed\n")) ↔
      (StoreCommand.byWrite 359 (sampleWrite 0 1 "a")).FailsUnseen .sample .sampleStored
        [.failed false] := by
  have hexec := @StoreCommand.write_flushRefused .sample .sampleStored .sampleStored 0 359
    (sampleWrite 0 1 "a") Ram.sampleStored_pinCorrect rfl ⟨by decide, by decide, by decide⟩ (by decide) []
  exact failed_store_unchanged_iff .sample Firmware.sample_gcmLaws
    (.byWrite 359 (sampleWrite 0 1 "a")) .sampleStored .sampleStored [.failed false]
    Ram.sampleStored_pinCorrect _ _ _ _ hexec (by simp)
