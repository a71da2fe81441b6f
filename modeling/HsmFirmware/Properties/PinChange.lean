-- SUMMARY: What change_pin does to the files: they stay in flash, bound to the PIN they were written under.
import HsmFirmware.Specs.PinState
import HsmFirmware.Specs.Read
import HsmFirmware.Properties.WriteRead

/-!
# Changing the PIN

A record carries the hash of the PIN it was written under, and `blob_read_init`
refuses a reader with another one. `change_pin` rewrites the PIN page and no record.
-/

open Machine (replay)

/-- The packet of a change that succeeded. -/
def changedPacket : Packet := ⟨.control, changePinMsg, []⟩

section

variable {fw : Firmware} {ram ram' : Ram} {w w' : World} {fs rest : Schedule} {L : List Op}

/-! ## The change -/

theorem pinChange_onFlash (oldPin newPin : Bytes) : (pinChange fw oldPin newPin).OnFlash := by
  refine Dev.OnFlash.bind (fun _ => trivial) fun ram => ?_
  split
  · exact Dev.OnFlash.pure _
  split
  · exact Dev.OnFlash.pure _
  split
  · exact Dev.OnFlash.pure _
  split
  · exact Dev.OnFlash.pure _
  split
  · refine Dev.OnFlash.bind (fun _ => trivial) fun _ => ?_
    exact Dev.OnFlash.bind writePinState_onFlash fun _ => Dev.OnFlash.pure _
  split
  · exact Dev.OnFlash.pure _
  · exact Dev.OnFlash.bind (fun _ => trivial) fun _ => writePinState_onFlash

/-- The PIN page is all `pin_change` touches outside of RAM. -/
theorem pinChange_world {oldPin newPin : Bytes} {rc : Int}
    (h : (pinChange fw oldPin newPin).exec fs ram w = .done (rc, ram') w' L rest) :
    w' = w.after L := by
  have hstate := exec_onFlash (@pinChange_onFlash fw oldPin newPin ram) fs w
  unfold Dev.exec at h
  rwa [h] at hstate

/-- A change that is refused returns -1. -/
theorem pinChange_refused {oldPin newPin : Bytes}
    (hpin : ¬ (PinLen oldPin ∧ PinLen newPin ∧ PinCorrect fw ram oldPin)) {rc : Int}
    (h : (pinChange fw oldPin newPin).exec fs ram w = .done (rc, ram') w' L rest) : rc = -1 := by
  unfold Dev.exec at h
  rw [pinChange_run_refused hpin] at h
  split at h
  · rw [Machine.exec_bind] at h
    cases hwrite : hsm.exec (writePinState.run (ram.setFails (ram.gFailCount + 1))) fs w with
    | done r t l fs' =>
      rw [hwrite] at h
      cases h
      rfl
    | off t l =>
      rw [hwrite] at h
      cases h
  · cases h
    rfl

/-- A change that returns 0 found the old PIN right, and has put the new one in its place. -/
theorem pinChange_done {oldPin newPin : Bytes}
    (h : (pinChange fw oldPin newPin).exec fs ram w = .done (0, ram') w' L rest) :
    PinCorrect fw ram oldPin ∧
      ∃ hash, computePinHash fw newPin = some hash ∧ ram' = ram.setPin hash 0 ∧ w' = w.after L ∧
        ∀ o ∈ L, o.Within pinStateAddr (pinStateAddr + pageSize) := by
  by_cases hpin : PinLen oldPin ∧ PinLen newPin ∧ PinCorrect fw ram oldPin
  · obtain ⟨hold, hnew, hpin⟩ := hpin
    obtain ⟨hash, hhash⟩ := computePinHash_isSome (by rw [hpin.2]; rfl) newPin
    have hwrite : writePinState.exec fs (ram.setPin hash 0) w = .done (0, ram') w' L rest := by
      unfold Dev.exec at h ⊢
      rwa [pinChange_run_correct hold hnew hpin hhash] at h
    obtain ⟨-, ⟨k, hk⟩, hr⟩ :=
      Machine.Attempts.of_done (writePinState_attempts (ram.setPin hash 0) w) hwrite
    have hram : ram' = ram.setPin hash 0 := by
      rcases hr with hr | hr
      · exact congrArg Prod.snd hr
      · cases hr
    refine ⟨hpin, hash, hhash, hram, pinChange_world h, ?_⟩
    intro o ho
    apply pinOps_within (ram.setPin hash 0)
    rw [hk] at ho
    exact List.mem_of_mem_take ho
  · exact absurd (pinChange_refused hpin h) (by decide)

/-- A change that is answered as a success keeps the files and the pages of the slots. -/
theorem changePin_done {pktLen : UInt16} {buf : Mem} {rc : Int}
    (h : (changePin fw pktLen buf).exec fs ram w = .done (rc, ram') w' L rest)
    (hreply : w'.sent = w.sent ++ [changedPacket]) :
    PinCorrect fw ram (buf.read 0 pinLength) ∧
      ∃ hash, computePinHash fw (buf.read 6 pinLength) = some hash ∧ ram' = ram.setPin hash 0 ∧
        Mem.Agree w'.flash w.flash 0 pinStateAddr := by
  have hsent : ∀ msg, w.sent ++ [errorPacket msg] ≠ w.sent ++ [changedPacket] := by
    intro msg heq
    have hpacket := List.append_cancel_left heq
    cases congrArg Packet.cmd (List.cons.inj hpacket).1
  unfold changePin at h
  split at h
  · cases h
    exact absurd hreply (hsent _)
  · rw [if_neg (by simp [pinIsLocked]), Dev.exec_bind] at h
    cases hchange : (pinChange fw (buf.read 0 pinLength) (buf.read 6 pinLength)).exec fs ram w with
    | off t l =>
      rw [hchange] at h
      cases h
    | done r t l fs' =>
      obtain ⟨rc', ram₁⟩ := r
      rw [hchange, Halt.andThen_done] at h
      split at h
      · have hworld := pinChange_world hchange
        subst hworld
        rw [if_neg (by simp [pinIsLocked]), reject_exec] at h
        cases h
        exact absurd hreply (hsent _)
      · rename_i hrc
        obtain rfl : rc' = 0 := not_not.mp hrc
        obtain ⟨hpin, hash, hhash, hram, hworld, hL⟩ := pinChange_done hchange
        subst hworld
        cases h
        exact ⟨hpin, hash, hhash, hram, agree_replay hL (.inl (Nat.le_refl _)) w.flash⟩

/-! ## Reading -/

/-- The owner of a record is the reader with its PIN hash, and nobody else. -/
theorem recordContents_owner {m : Mem} {fat : Slot → FatEntry} {slot : Slot} {owner : Digest}
    {groupMask : UInt32} {d : Bytes}
    (h : recordContents fw m fat slot (some owner) groupMask = some d) {other : Digest}
    (hother : other ≠ owner) : recordContents fw m fat slot (some other) groupMask = none := by
  obtain ⟨header, hload, -, howner, -, -⟩ := recordContents_some h
  have howner : owner = header.ownerPinHash := by
    rcases howner with howner | howner
    · cases howner
    · exact Option.some.inj howner
  unfold recordContents
  rw [hload]
  apply if_pos
  right
  left
  refine ⟨by simp, fun heq => hother ?_⟩
  rw [howner]
  exact Option.some.inj heq

/-- What the answer with a file says about the device. -/
theorem readAnswer_file {m : Mem} {pktLen : UInt16} {buf : Mem} {data : Bytes}
    (h : readAnswer fw ram m pktLen buf = ⟨.control, readMsg, data⟩) :
    ∃ slot d, slotOccupied ram (buf 6) = some slot ∧
      validatePermission fw (ram.gNameTable slot).groupId .permRead = true ∧
      recordContents fw m ram.gFat slot (some ram.gPinHash) 0xFFFFFFFF = some d ∧
      data = (ram.gNameTable slot).name.toList ++ d := by
  have herror : ∀ msg, errorPacket msg ≠ ⟨.control, readMsg, data⟩ := by
    intro msg heq
    cases congrArg Packet.cmd heq
  unfold readAnswer at h
  split at h
  · exact absurd h (herror _)
  split at h
  · exact absurd h (herror _)
  unfold readCheckedAnswer at h
  split at h
  · exact absurd h (herror _)
  · rename_i slot hslot
    split at h
    · rename_i hperm
      unfold readSlotAnswer at h
      cases hcontents : recordContents fw m ram.gFat slot (some ram.gPinHash) 0xFFFFFFFF with
      | none =>
        rw [hcontents] at h
        exact absurd h (herror _)
      | some d =>
        rw [hcontents] at h
        exact ⟨slot, d, hslot, hperm, hcontents, (congrArg Packet.payload h).symm⟩
    · exact absurd h (herror _)

/-- After a change, the new PIN gets what the record gives to its hash. -/
theorem read_after_change {pktLen₁ pktLen₂ : UInt16} {buf₁ buf₂ : Mem} {m m' : Mem} {data : Bytes}
    {hash : Digest} (hflash : Mem.Agree m' m 0 pinStateAddr) (hinit : ram.gInitialized = true)
    (hread : readAnswer fw ram m pktLen₁ buf₁ = ⟨.control, readMsg, data⟩)
    (hlen : ¬ pktLen₂ < 7) (hslot : buf₂ 6 = buf₁ 6)
    (hnew : computePinHash fw (buf₂.read 0 pinLength) = some hash) :
    readAnswer fw (ram.setPin hash 0) m' pktLen₂ buf₂ =
      if hash = ram.gPinHash then ⟨.control, readMsg, data⟩ else errorPacket "Read failed\n" := by
  obtain ⟨slot, d, hocc, hperm, hcontents, hdata⟩ := readAnswer_file hread
  have hpass : PinCorrect fw (ram.setPin hash 0) (buf₂.read 0 pinLength) := ⟨hinit, hnew⟩
  have hocc : slotOccupied (ram.setPin hash 0) (buf₂ 6) = some slot := by
    rw [hslot]
    exact hocc
  have hbase := blobSlotBase_lt slot
  have hpages : Mem.Agree m' m (blobSlotBase slot) (blobSlotBase slot + slotSize) :=
    hflash.mono (Nat.zero_le _) (hbase.trans (by decide))
  have hsame : recordContents fw m' (ram.setPin hash 0).gFat slot (some hash) 0xFFFFFFFF =
      recordContents fw m ram.gFat slot (some hash) 0xFFFFFFFF := recordContents_congr rfl hpages
  have hanswer : readAnswer fw (ram.setPin hash 0) m' pktLen₂ buf₂ =
      contentsAnswer (ram.gNameTable slot)
        (recordContents fw m ram.gFat slot (some hash) 0xFFFFFFFF) := by
    unfold readAnswer readCheckedAnswer
    rw [if_neg hlen, if_neg (not_not_intro hpass), hocc, ← hsame]
    exact if_pos hperm
  rw [hanswer]
  split
  · rename_i heq
    rw [heq, hcontents, hdata]
    rfl
  · rename_i hne
    rw [recordContents_owner hcontents hne]
    rfl

end

/-- A change of the PIN that is answered as a success leaves every file where it is, under the
    PIN it was written with. The new PIN reads a file that the old one read exactly if both have
    the same hash, and gets an error otherwise; back under the old PIN the file is read again. -/
theorem changePin_reads (fw : Firmware) (pktLen : UInt16) (buf : Mem) (ram : Ram) (w : World)
    (fs : Schedule) (rc : Int) (ram' : Ram) (w' : World) (L : List Op) (rest : Schedule)
    (hchange : (changePin fw pktLen buf).exec fs ram w = .done (rc, ram') w' L rest)
    (hreply : w'.sent = w.sent ++ [changedPacket])
    (pktLen₁ : UInt16) (buf₁ : Mem) (data : Bytes)
    (hread : (read fw pktLen₁ buf₁).replies ram w = [⟨.control, readMsg, data⟩])
    (pktLen₂ : UInt16) (buf₂ : Mem) (hlen : ¬ pktLen₂ < 7)
    (hnew : buf₂.read 0 pinLength = buf.read 6 pinLength) (hslot : buf₂ 6 = buf₁ 6) :
    ((read fw pktLen₂ buf₂).replies ram' w' = [⟨.control, readMsg, data⟩] ↔
        computePinHash fw (buf.read 6 pinLength) = computePinHash fw (buf.read 0 pinLength)) ∧
      (computePinHash fw (buf.read 6 pinLength) ≠ computePinHash fw (buf.read 0 pinLength) →
        (read fw pktLen₂ buf₂).replies ram' w' = [errorPacket "Read failed\n"]) ∧
      ∀ (pktLen' : UInt16) (buf' : Mem) (fs' : Schedule) (rc' : Int) (ram'' : Ram) (w'' : World)
        (L' : List Op) (rest' : Schedule),
        (changePin fw pktLen' buf').exec fs' ram' w' = .done (rc', ram'') w'' L' rest' →
        w''.sent = w'.sent ++ [changedPacket] → buf'.read 6 pinLength = buf.read 0 pinLength →
        (read fw pktLen₁ buf₁).replies ram'' w'' = [⟨.control, readMsg, data⟩] := by
  obtain ⟨hpin, hash, hhash, rfl, hflash⟩ := changePin_done hchange hreply
  rw [read_replies] at hread
  have hanswer : readAnswer fw ram w.flash pktLen₁ buf₁ = ⟨.control, readMsg, data⟩ :=
    List.singleton_inj.mp hread
  have hafter := read_after_change hflash hpin.1 hanswer hlen hslot (by rw [hnew]; exact hhash)
  have hsame : computePinHash fw (buf.read 6 pinLength) = computePinHash fw (buf.read 0 pinLength) ↔
      hash = ram.gPinHash := by
    rw [hhash, hpin.2, Option.some.injEq]
  rw [read_replies, hafter, hsame]
  refine ⟨?_, ?_, ?_⟩
  · constructor
    · intro h
      by_contra hne
      rw [if_neg hne] at h
      cases congrArg Packet.cmd (List.singleton_inj.mp h)
    · intro h
      rw [if_pos h]
  · intro hne
    rw [if_neg (fun heq => hne (by rw [hhash, hpin.2, heq]))]
  · intro pktLen' buf' fs' rc' ram'' w'' L' rest' hback hreply' hpin'
    obtain ⟨-, hash', hhash', rfl, hflash'⟩ := changePin_done hback hreply'
    have heq : hash' = ram.gPinHash := by
      rw [hpin', hpin.2] at hhash'
      exact (Option.some.inj hhash').symm
    have hfiles : ram.SameFiles ((ram.setPin hash 0).setPin hash' 0) := by
      rw [heq]
      exact ⟨rfl, rfl, rfl, rfl⟩
    have hslots : Mem.Agree w''.flash w.flash 0 fatAddr :=
      (hflash'.trans hflash).mono (Nat.le_refl _) (by decide)
    rw [read_replies, readAnswer_congr hfiles hslots, hanswer]

/-! ## On a sample device -/

theorem changePin_runs {fw : Firmware} {pktLen : UInt16} {buf : Mem} {ram : Ram} {hash : Digest}
    (hlen : ¬ pktLen < 12) (hpin : PinCorrect fw ram (buf.read 0 pinLength))
    (hhash : computePinHash fw (buf.read 6 pinLength) = some hash) (w : World) :
    (changePin fw pktLen buf).Runs ram w 0 (ram.setPin hash 0)
      ((w.after (pinOps (ram.setPin hash 0))).answered changedPacket) (pinOps (ram.setPin hash 0)) := by
  have hlen₁ : PinLen (buf.read 0 pinLength) := by
    unfold PinLen
    rw [Mem.length_read]
    decide
  have hlen₂ : PinLen (buf.read 6 pinLength) := by
    unfold PinLen
    rw [Mem.length_read]
    decide
  have hrun : (pinChange fw (buf.read 0 pinLength) (buf.read 6 pinLength)).exec [] ram w = _ :=
    pinChange_runs_correct hlen₁ hlen₂ hpin hhash
  show (changePin fw pktLen buf).exec [] ram w = _
  unfold changePin
  rw [if_neg hlen, if_neg (by simp [pinIsLocked]), Dev.exec_bind, hrun, Halt.andThen_done,
    if_neg (by simp), Dev.exec_bind, exec_send_answered, Halt.andThen_done, Dev.exec_pure]
  simp only [Halt.logged_done, List.append_nil]
  rfl

/-- The commands of the sample. -/
def sampleRead (pin : String) : Mem := Mem.write (fun _ => 0) 0 (ascii pin)

/-- The RAM of the build whose MAC copies, after its first boot. -/
def Ram.copying : Ram :=
  Ram.sample.setPin ((computePinHash .copying (ascii "a1b2c3")).getD (.replicate 32 0)) 0

theorem Firmware.copying_computePinHash :
    ∃ key, ∀ pin, computePinHash .copying pin = some (Primitives.copying.hmac key pin) := by
  have hroot : securityGetRootSecret .copying = securityGetRootSecret .sample := by
    unfold securityGetRootSecret
    rfl
  unfold computePinHash
  rw [hroot, Firmware.sample_rootSecret]
  exact ⟨_, fun pin => rfl⟩

theorem Ram.copying_pinCorrect : PinCorrect .copying .copying (ascii "a1b2c3") := by
  obtain ⟨key, hkey⟩ := Firmware.copying_computePinHash
  have hhash : Ram.copying.gPinHash = Primitives.copying.hmac key (ascii "a1b2c3") := by
    rw [Ram.copying, Ram.gPinHash_setPin, hkey, Option.getD_some]
  have hinit : Ram.copying.gInitialized = true := by
    rw [Ram.copying, Ram.gInitialized_setPin]
    rfl
  exact ⟨hinit, by rw [hhash, hkey]⟩

/-- The two PINs of the sample have different hashes. -/
theorem Firmware.copying_pins_differ :
    computePinHash .copying (ascii "d4e5f6") ≠ computePinHash .copying (ascii "a1b2c3") := by
  obtain ⟨key, hkey⟩ := Firmware.copying_computePinHash
  rw [hkey, hkey]
  intro h
  have heq := Primitives.copying_hmac_inj (by decide) (by decide) (Option.some.inj h)
  exact absurd heq (by decide)

theorem Firmware.copying_gcmLaws : Firmware.copying.prim.GcmLaws where
  encrypts key nonce aad pt := ⟨_, _, rfl⟩
  inverts {key nonce aad pt ct tag} h := by
    cases h
    exact AesGcm.identity.inverts key nonce aad pt

/-- The owner writes a file and reads it. -/
theorem copying_written :
    ∃ ram w L, (write .copying 359 (sampleWrite 0 1 "a")).exec [] .copying .sample =
        .done (0, ram) w L [] ∧ PinCorrect .copying ram (ascii "a1b2c3") ∧
      ∃ data, (read .copying 7 (sampleRead "a1b2c3")).replies ram w = [⟨.control, readMsg, data⟩] := by
  have hpin : (WriteCommand.ofBuf (sampleWrite 0 1 "a")).pin = ascii "a1b2c3" := by decide
  have hpasses : (StoreCommand.byWrite 359 (sampleWrite 0 1 "a")).PinPasses .copying .copying := by
    rw [StoreCommand.PinPasses, hpin]
    exact Ram.copying_pinCorrect
  have hhash : getPinHash .copying (StoreCommand.byWrite 359 (sampleWrite 0 1 "a")).request.pin =
      some Ram.copying.gPinHash := by
    rw [show (StoreCommand.byWrite 359 (sampleWrite 0 1 "a")).request.pin = ascii "a1b2c3" from hpin]
    exact Ram.copying_pinCorrect.pinHash (by decide)
  have hroot : ∃ root, securityGetRootSecret .copying = some root := by
    have hlen : Firmware.copying.globalSecrets.length = 129 := List.length_replicate
    unfold securityGetRootSecret secureCryptoRootSecretFromGlobalSecrets
    rw [hlen]
    exact ⟨_, rfl⟩
  obtain ⟨root, hroot⟩ := hroot
  obtain ⟨r, hr⟩ : ∃ r, (StoreCommand.byWrite 359 (sampleWrite 0 1 "a")).setup .copying 0
      Ram.copying.gPinHash .sample = some r := by
    unfold StoreCommand.setup blobWriteSetup
    have hcontents : (StoreCommand.byWrite 359 (sampleWrite 0 1 "a")).request.contents =
        sampleContents := sampleWrite_contents 0 1 "a"
    have hfits : ¬ tagsOffset - headerSize < sampleContents.length := by
      rw [length_sampleContents]
      decide
    rw [hroot, hcontents, if_neg hfits]
    simp [World.sample]
  have hslot : slotIsValid (StoreCommand.byWrite 359 (sampleWrite 0 1 "a")).request.slotNum = some 0 := by
    decide
  have haccepted : (StoreCommand.byWrite 359 (sampleWrite 0 1 "a")).Accepted .copying :=
    ⟨by decide, by decide, by decide⟩
  have hwrite := StoreCommand.runs Firmware.copying_gcmLaws hpasses haccepted hslot hhash hr
  have hpass : PinCorrect .copying
      ((StoreCommand.byWrite 359 (sampleWrite 0 1 "a")).storedRam .copying r) (ascii "a1b2c3") := by
    rw [StoreCommand.pinCorrect_storedRam]
    exact Ram.copying_pinCorrect
  have hperm : validatePermission .copying (WriteCommand.ofBuf (sampleWrite 0 1 "a")).groupId
        .permRead = true := by decide
  obtain ⟨contents, ram'', hread, -, hfits⟩ := @read_after_write .copying 359 7 (sampleWrite 0 1 "a")
    (sampleRead "a1b2c3") .copying _ .sample _ [] [] _ Firmware.copying_gcmLaws hwrite hperm
    (by decide) (by decide) (by decide) []
  have hcontents := (hfits (sampleWrite_fits 0 1 "a")).trans (if_neg (by decide))
  rw [hcontents] at hread
  refine ⟨_, _, _, hwrite, hpass, (NameEntry.named (WriteCommand.ofBuf (sampleWrite 0 1 "a")).name
    (WriteCommand.ofBuf (sampleWrite 0 1 "a")).groupId).name.toList ++
      (WriteCommand.ofBuf (sampleWrite 0 1 "a")).contents, ?_⟩
  unfold Dev.replies
  rw [hread]
  simp only [Halt.state, World.answered, List.drop_left, contentsAnswer]

/-- From the old PIN of the sample to a new one. -/
def sampleChange : Mem := Mem.write (fun _ => 0) 0 (ascii "a1b2c3" ++ ascii "d4e5f6")

/-- The owner changes the PIN. -/
theorem copying_changed {ram : Ram} (hpin : PinCorrect .copying ram (ascii "a1b2c3")) (w : World) :
    ∃ hash w', computePinHash .copying (ascii "d4e5f6") = some hash ∧
      (changePin .copying 12 sampleChange).exec [] ram w =
        .done (0, ram.setPin hash 0) w' (pinOps (ram.setPin hash 0)) [] ∧
      w'.sent = w.sent ++ [changedPacket] := by
  obtain ⟨key, hkey⟩ := Firmware.copying_computePinHash
  have hold : sampleChange.read 0 pinLength = ascii "a1b2c3" := by decide
  have hnew : sampleChange.read 6 pinLength = ascii "d4e5f6" := by decide
  have hrun := @changePin_runs .copying 12 sampleChange ram
    (Primitives.copying.hmac key (ascii "d4e5f6")) (by decide) (by rw [hold]; exact hpin)
    (by rw [hnew, hkey]) w
  exact ⟨_, _, hkey _, hrun, rfl⟩

theorem changePin_reads_sample :
    ∃ ram w L, (write .copying 359 (sampleWrite 0 1 "a")).exec [] .copying .sample =
        .done (0, ram) w L [] ∧
      ∃ ram' w' L', (changePin .copying 12 sampleChange).exec [] ram w = .done (0, ram') w' L' [] ∧
        (read .copying 7 (sampleRead "d4e5f6")).replies ram' w' = [errorPacket "Read failed\n"] := by
  obtain ⟨ram, w, L, hwrite, hpin, data, hread⟩ := copying_written
  obtain ⟨hash, w', hhash, hchange, hreply⟩ := copying_changed hpin w
  have hreads := changePin_reads .copying 12 sampleChange ram w [] 0 _ w' _ [] hchange hreply 7
    (sampleRead "a1b2c3") data hread 7 (sampleRead "d4e5f6") (by decide) (by decide) (by decide)
  refine ⟨ram, w, L, hwrite, _, w', _, hchange, hreads.2.1 ?_⟩
  rw [show sampleChange.read 6 pinLength = ascii "d4e5f6" by decide,
    show sampleChange.read 0 pinLength = ascii "a1b2c3" by decide]
  exact Firmware.copying_pins_differ

/-- The new PIN does not get the file that the old one got. -/
theorem changePin_loses_file :
    ∃ ram w L data ram' w' L', (write .copying 359 (sampleWrite 0 1 "a")).exec [] .copying .sample =
        .done (0, ram) w L [] ∧
      (read .copying 7 (sampleRead "a1b2c3")).replies ram w = [⟨.control, readMsg, data⟩] ∧
      (changePin .copying 12 sampleChange).exec [] ram w = .done (0, ram') w' L' [] ∧
      w'.sent = w.sent ++ [changedPacket] ∧
      (read .copying 7 (sampleRead "d4e5f6")).replies ram' w' ≠ [⟨.control, readMsg, data⟩] := by
  obtain ⟨ram, w, L, hwrite, hpin, data, hread⟩ := copying_written
  obtain ⟨hash, w', hhash, hchange, hreply⟩ := copying_changed hpin w
  refine ⟨ram, w, L, data, _, w', _, hwrite, hread, hchange, hreply, ?_⟩
  obtain ⟨-, hash', -, -, hflash⟩ := changePin_done hchange hreply
  rw [read_replies] at hread ⊢
  have hafter := @read_after_change .copying ram 7 7 (sampleRead "a1b2c3") (sampleRead "d4e5f6")
    w.flash w'.flash data hash hflash hpin.1 (List.singleton_inj.mp hread) (by decide) (by decide)
    (by rw [show (sampleRead "d4e5f6").read 0 pinLength = ascii "d4e5f6" by decide]; exact hhash)
  rw [hafter, if_neg]
  · intro h
    cases congrArg Packet.cmd (List.singleton_inj.mp h)
  · rintro rfl
    exact Firmware.copying_pins_differ (hhash.trans hpin.2.symm)
