-- SUMMARY: A command that changes a file, cut off behind some of its flash commands: its log, and the state of every table entry.
import HsmFirmware.Specs.Reboot

/-!
# Cutting off a command

The flash commands of a store or a delete in the order they are given: the PIN gate, then
the pages of the command. What a power loss leaves of each page depends only on how many
of them come before it.
-/

open Machine (replay)

/-! ## Commands that change a file -/

/-- A store, or a delete. -/
inductive FileCommand where
  | store (c : StoreCommand)
  | delete (pktLen : UInt16) (buf : Mem)

/-- The record a store that gets past its checks is about to write. -/
def StoreCommand.record (fw : Firmware) (c : StoreCommand) (slot : Slot) (w : World) :
    Option BlobRecord :=
  (getPinHash fw c.request.pin).bind fun pinHash => c.setup fw slot pinHash w

namespace FileCommand

def run (fw : Firmware) : FileCommand → Dev Int
  | .store c => c.run fw
  | .delete pktLen buf => deleteFile fw pktLen buf

def slotNum : FileCommand → UInt8
  | .store c => c.request.slotNum
  | .delete _ buf => buf 6

/-- The command gets past its checks. -/
def Entered (fw : Firmware) (ram : Ram) : FileCommand → Prop
  | .store c => c.PinPasses fw ram ∧ c.Accepted fw ∧ getPinHash fw c.request.pin ≠ none
  | .delete pktLen buf =>
    ¬ pktLen < 7 ∧ PinCorrect fw ram (buf.read 0 pinLength) ∧ slotOccupied ram (buf 6) ≠ none

/-- The flash commands of the PIN gate in front. -/
def gate (ram : Ram) : FileCommand → List Op
  | .store c => c.gate ram
  | .delete .. => gateOps ram

/-- The flash commands behind it. A store without a record clears the name entry it has
    written. -/
def body (fw : Firmware) (ram : Ram) (w : World) (slot : Slot) : FileCommand → List Op
  | .store c =>
    match c.record fw slot w with
    | none => nameOps ram slot c.request.entry ++ nameOps ram slot .erased
    | some r => nameOps ram slot c.request.entry ++ r.ops fw ram.gFat c.request.uuid
  | .delete .. => deleteOps ram slot

/-- The flash after a power loss behind `k` flash commands. -/
def cutFlash (fw : Firmware) (cmd : FileCommand) (ram : Ram) (w : World) (k : Nat) : Mem :=
  ((cmd.run fw).exec (Schedule.cut k) ram w).state.flash

section

variable {fw : Firmware} {cmd : FileCommand} {ram : Ram} {w : World} {slot : Slot}

theorem gate_within (cmd : FileCommand) (ram : Ram) :
    ∀ o ∈ cmd.gate ram, o.Within pinStateAddr (pinStateAddr + pageSize) := by
  cases cmd with
  | store c => exact c.gate_within ram
  | delete => exact gateOps_within ram

/-- The fault-free run of a command past its checks. -/
theorem runs (hgcm : fw.prim.GcmLaws) (hslot : slotIsValid cmd.slotNum = some slot)
    (hentered : cmd.Entered fw ram) :
    ∃ rc ram' w', (cmd.run fw).Runs ram w rc ram' w' (cmd.gate ram ++ cmd.body fw ram w slot) := by
  cases cmd with
  | store c =>
    obtain ⟨hpasses, haccepted, hhash⟩ := hentered
    obtain ⟨pinHash, hpin⟩ := Option.ne_none_iff_exists'.mp hhash
    have hrecord : c.record fw slot w = c.setup fw slot pinHash w := by
      rw [StoreCommand.record, hpin, Option.bind_some]
    cases hsetup : c.setup fw slot pinHash w with
    | none =>
      obtain ⟨ram', w', hstore⟩ := @storeFile_runs_unsealed fw c.request.slotNum slot
        c.request.groupId c.request.pin pinHash c.request.name c.request.uuid c.request.contents
        hslot hpin (c.behindGate ram) (w.after (c.gate ram)) hsetup
      have hops : nameOps (c.behindGate ram) slot = nameOps ram slot := by cases c <;> rfl
      rw [hops] at hstore
      refine ⟨-1, ram', c.report (-1) w', ?_⟩
      rw [body, hrecord, hsetup]
      exact StoreCommand.runs_of_store hpasses haccepted hstore
    | some r =>
      refine ⟨0, c.storedRam ram r, c.storedWorld fw ram w r, ?_⟩
      have hruns := StoreCommand.runs hgcm hpasses haccepted hslot hpin hsetup
      obtain ⟨hr, -⟩ := blobWriteSetup_some hsetup
      rw [StoreCommand.storeOps, hr] at hruns
      rw [body, hrecord, hsetup]
      exact hruns
  | delete pktLen buf =>
    obtain ⟨hlen, hpin, hocc⟩ := hentered
    obtain ⟨s, hs⟩ := Option.ne_none_iff_exists'.mp hocc
    obtain rfl : s = slot := Option.some.inj ((slotOccupied_some hs).1.symm.trans hslot)
    exact ⟨0, _, _, deleteFile_runs hlen hpin hs⟩

/-- Past its checks, a command that is cut off has given some of its commands behind a gate that
    changed the PIN page at most. -/
theorem cutFlash_entered (hgcm : fw.prim.GcmLaws) (hslot : slotIsValid cmd.slotNum = some slot)
    (hentered : cmd.Entered fw ram) (k : Nat) :
    ∃ m, Mem.Agree m w.flash 0 pinStateAddr ∧ cmd.cutFlash fw ram w k =
      replay flashStep ((cmd.body fw ram w slot).take (k - (cmd.gate ram).length)) m := by
  obtain ⟨rc, ram', w', hruns⟩ := @runs fw cmd ram w slot hgcm hslot hentered
  refine ⟨replay flashStep ((cmd.gate ram).take k) w.flash, ?_, ?_⟩
  · apply agree_replay
    · intro o ho
      exact cmd.gate_within ram o (List.mem_of_mem_take ho)
    · exact .inl (Nat.le_refl _)
  · rw [cutFlash, hruns.flash_cut, List.take_append, Machine.replay_append]

/-- A command that is refused changes the PIN page at most. -/
theorem cutFlash_refused (hslot : slotIsValid cmd.slotNum = some slot)
    (h : ¬ cmd.Entered fw ram) (k : Nat) :
    Mem.Agree (cmd.cutFlash fw ram w k) w.flash 0 pinStateAddr := by
  have hpage : ∀ L : List Op, (∀ o ∈ L, o.Within pinStateAddr (pinStateAddr + pageSize)) →
      Mem.Agree (replay flashStep L w.flash) w.flash 0 pinStateAddr := by
    intro L hL
    exact agree_replay hL (.inl (Nat.le_refl _)) w.flash
  have hflash := (cmd.run fw).flash_exec (Schedule.cut k) ram w
  rw [cutFlash, hflash]
  apply hpage
  cases cmd with
  | store c =>
    have hend := @StoreCommand.ending fw c (Schedule.cut k) ram w
    rw [run]
    generalize (c.run fw).exec (Schedule.cut k) ram w = res at hend ⊢
    cases hend with
    | refused _ _ hL => exact hL
    | cut hL => exact hL
    | @entered j hpin haccepted =>
      -- Only a PIN of the wrong length can stop it here, and it does so at once.
      have hnone : getPinHash fw c.request.pin = none := by
        apply not_not.mp
        intro hsome
        exact h ⟨hpin, haccepted, hsome⟩
      obtain ⟨msg, hexec⟩ := @StoreRequest.store_declines fw (c.behindGate ram)
        (w.after ((c.gate ram).take j)) c.request (.inl hnone)
        ((Schedule.cut k).attempt (c.gate ram).length)
      rw [hexec, Halt.andThen_done, Halt.logged_nil, Halt.logged_done, List.append_nil]
      intro o ho
      exact c.gate_within ram o (List.mem_of_mem_take ho)
  | delete pktLen buf =>
    rw [run, deleteFile_eq]
    split
    · intro o ho
      cases ho
    rename_i hlen
    have hend := @gated_ending fw (buf.read 0 pinLength) ram (deleteChecked (buf 6))
      (Schedule.cut k) w
    generalize Dev.exec _ (Schedule.cut k) ram w = res at hend ⊢
    cases hend with
    | refused _ hL => exact hL
    | cut hL => exact hL
    | @entered j hpin =>
      have hnone : slotOccupied ram (buf 6) = none := by
        apply not_not.mp
        intro hsome
        exact h ⟨hlen, hpin, hsome⟩
      have hexec : (deleteChecked (buf 6)).exec ((Schedule.cut k).attempt (gateOps ram).length)
          (ram.setFails 0) (w.after ((gateOps ram).take j)) =
          .done (-1, ram.setFails 0)
            ((w.after ((gateOps ram).take j)).answered (errorPacket "File not found\n")) []
            ((Schedule.cut k).attempt (gateOps ram).length) := by
        simp only [deleteChecked, Dev.exec_bind, Dev.exec_get, Halt.andThen_done, Halt.logged_nil,
          (Ram.SameFiles.setFails ram 0).slotOccupied_eq, hnone, Option.isNone_none, if_true,
          reject_exec]
      rw [hexec, Halt.logged_done, List.append_nil]
      intro o ho
      exact gateOps_within ram o (List.mem_of_mem_take ho)

end

/-! ## Where its commands work -/

section

variable {fw : Firmware} {cmd : FileCommand} {ram : Ram} {w : World} {slot t : Slot} {m : Mem}

/-- The contents of a store fit a slot. -/
def Fits : FileCommand → Prop
  | .store c => c.request.contents.length ≤ maxContentsSize
  | .delete .. => True

theorem record_some {c : StoreCommand} {r : BlobRecord} (h : c.record fw slot w = some r) :
    r.slot = slot ∧ r.data = c.request.contents ∧ r.groupMask = c.request.groupId.toUInt32 ∧
      getPinHash fw c.request.pin = some r.ownerPinHash ∧
      (securityGetRootSecret fw).bind (fun root => deriveFileKey fw root r.groupMask) =
        some r.masterKey := by
  obtain ⟨pinHash, hpin, hsetup⟩ := Option.bind_eq_some_iff.mp h
  obtain ⟨hslot, hdata, howner, hgroup, -, hkey⟩ := blobWriteSetup_some hsetup
  rw [← howner] at hpin
  rw [← hgroup] at hkey
  exact ⟨hslot, hdata, hgroup, hpin, hkey⟩

/-- Every command is one on the slot, or on one of the table pages. -/
theorem body_within (hgcm : fw.prim.GcmLaws) (hfits : cmd.Fits) :
    ∀ o ∈ cmd.body fw ram w slot, o.Within (blobSlotBase slot) (blobSlotBase slot + slotSize) ∨
      o.Within fatAddr nameTableAddr ∨ o.Within nameTableAddr pinStateAddr := by
  have hnames : ∀ entry, ∀ o ∈ nameOps ram slot entry,
      o.Within (blobSlotBase slot) (blobSlotBase slot + slotSize) ∨
        o.Within fatAddr nameTableAddr ∨ o.Within nameTableAddr pinStateAddr := by
    intro entry o ho
    exact .inr (.inr (nameOps_within ram slot entry o ho))
  have hfat : ∀ entry, ∀ o ∈ fatOps ram.gFat slot entry,
      o.Within (blobSlotBase slot) (blobSlotBase slot + slotSize) ∨
        o.Within fatAddr nameTableAddr ∨ o.Within nameTableAddr pinStateAddr := by
    intro entry o ho
    exact .inr (.inl (BlobRecord.fatOps_within ram.gFat slot entry o ho))
  intro o ho
  cases cmd with
  | store c =>
    rw [body] at ho
    cases hrecord : c.record fw slot w with
    | none =>
      rw [hrecord] at ho
      exact (List.mem_append.mp ho).elim (hnames _ o) (hnames _ o)
    | some r =>
      obtain ⟨hr, hdata, -⟩ := record_some hrecord
      subst hr
      have hlen : r.data.length ≤ maxContentsSize := by
        rw [hdata]
        exact hfits
      rw [hrecord] at ho
      rcases List.mem_append.mp ho with ho | ho
      · exact hnames _ o ho
      · rcases List.mem_append.mp ho with ho | ho
        · exact .inl (BlobRecord.slotOps_within hgcm hlen o ho)
        · exact hfat _ o ho
  | delete =>
    rcases List.mem_append.mp ho with ho | ho
    · rcases List.mem_append.mp ho with ho | ho
      · exact .inl (eraseSlotOps_within slot o ho)
      · exact hfat _ o ho
    · exact hnames _ o ho

/-- The pages of the other slots stay as they are. -/
theorem body_agree (hgcm : fw.prim.GcmLaws) (hfits : cmd.Fits) (ht : t ≠ slot) (k : Nat) (m : Mem) :
    Mem.Agree (replay flashStep ((cmd.body fw ram w slot).take k) m) m (blobSlotBase t)
      (blobSlotBase t + slotSize) := by
  have hbase := blobSlotBase_lt t
  apply agree_replay_apart
  intro o ho
  rcases body_within hgcm hfits o (List.mem_of_mem_take ho) with h | h | h
  · exact ⟨_, _, h, blobSlotBase_apart ht⟩
  · exact ⟨_, _, h, .inl hbase⟩
  · exact ⟨_, _, h, .inl (hbase.trans (by decide))⟩

end

/-! ## Entries behind a power loss -/

end FileCommand

/-- Key and nonce for a record can be had. -/
def canSeal (fw : Firmware) (w : World) : Bool :=
  (securityGetRootSecret fw).isSome && (w.rng w.draws).isSome

/-- The number of flash commands that put a record of `len` bytes into its slot: the erases of 12
    pages, the chunks with their tags, and the header in two pieces. -/
def recordCommands (len : Nat) : Nat := 14 + (len + 63) / 64 + numChunks len

theorem length_areaOps_chunks {fw : Firmware} {masterKey : Key} {nonce : Nonce} {aad data : Bytes}
    {base i n : Nat} (hgcm : fw.prim.GcmLaws) (h : i + n = numChunks data.length) :
    (areaOps (chunksAreas fw masterKey nonce aad base data i n)).length =
      (data.length - 256 * i + 63) / 64 + n := by
  induction n generalizing i with
  | zero =>
    simp only [numChunks] at h
    rw [chunksAreas_zero, areaOps, List.flatMap_nil, List.length_nil]
    omega
  | succ n ih =>
    have hchunk : (areaOps (chunkAreas fw masterKey nonce aad base data i)).length =
        (chunkLen data.length i + 63) / 64 + 1 := by
      simp only [areaOps, chunkAreas, List.flatMap_cons, List.flatMap_nil, List.append_nil,
        List.length_append, length_writeOps, length_sealChunk hgcm, Vector.length_toList]
    rw [chunksAreas_succ, areaOps_append, List.length_append, hchunk, ih (by omega)]
    simp only [numChunks] at h
    simp only [chunkLen]
    omega

theorem BlobRecord.length_slotOps {fw : Firmware} {r : BlobRecord} (hgcm : fw.prim.GcmLaws) :
    (r.slotOps fw).length = recordCommands r.data.length := by
  have hheader : (writeOps r.base (Header.codec.encode (r.header fw))).length = 2 := by
    rw [length_writeOps, Codec.length_encode]
    rfl
  have hchunks : (areaOps (r.chunks fw)).length =
      (r.data.length + 63) / 64 + numChunks r.data.length :=
    length_areaOps_chunks hgcm (Nat.zero_add _)
  rw [slotOps_eq, List.length_append, List.length_append, length_eraseSlotOps, hchunks, hheader,
    recordCommands]
  omega

namespace FileCommand

/-- Where the name entry of a slot stands after `k` commands behind the gate. -/
def nameState (fw : Firmware) (w : World) (k : Nat) (t : Slot) : FileCommand → EntryState
  | .store _ =>
    if k ≤ 17 ∨ canSeal fw w then entryState (t + 1) k else entryState (t + 1) (k - 17)
  | .delete .. => entryState (t + 1) (k - 29)

/-- Where its FAT entry stands. -/
def fatState (fw : Firmware) (w : World) (k : Nat) (t : Slot) : FileCommand → EntryState
  | .store c =>
    if canSeal fw w then
      entryState (fatPieces t) (k - (17 + recordCommands c.request.contents.length))
    else .old
  | .delete .. => entryState (fatPieces t) (k - 12)

/-- The name entry that is being written for the slot of the command. -/
def newName (fw : Firmware) (w : World) (k : Nat) : FileCommand → NameEntry
  | .store c => if k ≤ 17 ∨ canSeal fw w then c.request.entry else .erased
  | .delete .. => .erased

/-- The FAT entry that is being written for it. -/
def newFat (slot : Slot) : FileCommand → FatEntry
  | .store c =>
    { uuid := c.request.uuid
      length := UInt16.ofNat (headerSize + c.request.contents.length)
      padding := 0
      flashAddr := UInt32.ofNat (blobSlotBase slot) }
  | .delete .. => .erased

section

variable {fw : Firmware} {cmd : FileCommand} {ram : Ram} {w : World} {slot t : Slot} {m : Mem}

/-- A store of contents that fit has a record just when key and nonce can be had. -/
theorem isSome_record {c : StoreCommand} (hpin : getPinHash fw c.request.pin ≠ none)
    (hfits : c.request.contents.length ≤ maxContentsSize) :
    (c.record fw slot w).isSome = canSeal fw w := by
  obtain ⟨pinHash, hpin⟩ := Option.ne_none_iff_exists'.mp hpin
  have hlen : ¬ tagsOffset - headerSize < c.request.contents.length := by
    simp only [maxContentsSize] at hfits
    simp only [tagsOffset_eq, headerSize]
    omega
  rw [StoreCommand.record, hpin, Option.bind_some, StoreCommand.setup, blobWriteSetup, if_neg hlen,
    canSeal]
  cases securityGetRootSecret fw with
  | none => rfl
  | some root =>
    rw [Option.bind_some, deriveFileKey_toUInt32, Option.isSome_map]
    rfl

theorem record_newFat {c : StoreCommand} {r : BlobRecord} (h : c.record fw slot w = some r) :
    r.fatEntry c.request.uuid = newFat slot (.store c) := by
  obtain ⟨hr, hdata, -⟩ := record_some h
  rw [BlobRecord.fatEntry, newFat, hdata, BlobRecord.base, hr]

theorem blobOps_elsewhere {r : BlobRecord} {fat : Slot → FatEntry} {uuid : Vector UInt8 16}
    (hgcm : fw.prim.GcmLaws) (hlen : r.data.length ≤ maxContentsSize) (k : Nat) (m : Mem) :
    nameAt (replay flashStep ((r.ops fw fat uuid).take k) m) t = nameAt m t := by
  refine nameAt_congr (agree_replay_apart ?_ m) t
  intro o ho
  rcases List.mem_append.mp (List.mem_of_mem_take ho) with ho | ho
  · exact ⟨_, _, BlobRecord.slotOps_within hgcm hlen o ho,
      .inr ((blobSlotBase_lt r.slot).trans (by decide))⟩
  · exact ⟨_, _, BlobRecord.fatOps_within fat r.slot _ o ho, .inr (by decide)⟩

/-- What a boot finds in the name table. -/
theorem nameAt_body (hgcm : fw.prim.GcmLaws) (hentered : cmd.Entered fw ram) (hfits : cmd.Fits)
    (k : Nat) (m : Mem) :
    (cmd.nameState fw w k t).Finds (·.inUse ≠ nameInUseTag) (nameAt m t)
      (Function.update ram.gNameTable slot (cmd.newName fw w k) t)
      (nameAt (replay flashStep ((cmd.body fw ram w slot).take k) m) t) := by
  cases cmd with
  | store c =>
    have hsome := @isSome_record fw w slot c hentered.2.2 hfits
    rw [nameState, newName, body]
    cases hrecord : c.record fw slot w with
    | none =>
      rw [hrecord] at hsome
      have hsealed : canSeal fw w = false := hsome.symm
      rw [hsealed]
      by_cases hk : k ≤ 17
      · rw [if_pos (.inl hk), if_pos (.inl hk)]
        rw [List.take_append_of_le_length (by rwa [length_nameOps])]
        exact nameAt_finds _ k
      · have hnot : ¬ (k ≤ 17 ∨ false = true) := by
          rintro (h | h)
          · exact hk h
          · cases h
        rw [if_neg hnot, if_neg hnot, List.take_append, Machine.replay_append, length_nameOps]
        exact (nameAt_finds _ (k - 17)).of_pos (by omega)
    | some r =>
      obtain ⟨-, hdata, -⟩ := record_some hrecord
      have hlen : r.data.length ≤ maxContentsSize := by
        rw [hdata]
        exact hfits
      rw [hrecord] at hsome
      rw [if_pos (.inr hsome.symm), if_pos (.inr hsome.symm), List.take_append,
        Machine.replay_append, blobOps_elsewhere hgcm hlen]
      exact nameAt_finds _ k
  | delete pktLen buf =>
    have helsewhere : nameAt (replay flashStep ((blobDeleteOps ram.gFat slot).take k) m) t =
        nameAt m t := by
      refine nameAt_congr (agree_replay_apart ?_ m) t
      intro o ho
      rcases List.mem_append.mp (List.mem_of_mem_take ho) with ho | ho
      · exact ⟨_, _, eraseSlotOps_within slot o ho,
          .inr ((blobSlotBase_lt slot).trans (by decide))⟩
      · exact ⟨_, _, BlobRecord.fatOps_within ram.gFat slot _ o ho, .inr (by decide)⟩
    have hfinds := @nameAt_finds (replay flashStep ((blobDeleteOps ram.gFat slot).take k) m) t
      (Function.update ram.gNameTable slot .erased) (k - 29)
    rw [helsewhere] at hfinds
    rw [nameState, newName, body, deleteOps, List.take_append, Machine.replay_append,
      length_blobDeleteOps]
    exact hfinds

/-- What a boot finds in the FAT. -/
theorem fatAt_body (hgcm : fw.prim.GcmLaws) (hentered : cmd.Entered fw ram) (hfits : cmd.Fits)
    (k : Nat) (m : Mem) :
    (cmd.fatState fw w k t).Finds (·.isEmpty = true) (fatAt m t)
      (Function.update ram.gFat slot (cmd.newFat slot) t)
      (fatAt (replay flashStep ((cmd.body fw ram w slot).take k) m) t) := by
  have hnames : ∀ entry k (m : Mem),
      fatAt (replay flashStep ((nameOps ram slot entry).take k) m) t = fatAt m t := by
    intro entry k m
    have hwithin : ∀ o ∈ (nameOps ram slot entry).take k,
        o.Within nameTableAddr (nameTableAddr + pageSize) :=
      fun o ho => nameOps_within ram slot entry o (List.mem_of_mem_take ho)
    exact fatAt_replay hwithin (.inl (by decide))
  cases cmd with
  | store c =>
    have hsome := @isSome_record fw w slot c hentered.2.2 hfits
    rw [fatState, body]
    cases hrecord : c.record fw slot w with
    | none =>
      rw [hrecord] at hsome
      have hsealed : canSeal fw w = false := hsome.symm
      rw [hsealed, if_neg Bool.false_ne_true, List.take_append, Machine.replay_append, hnames,
        hnames]
      exact rfl
    | some r =>
      obtain ⟨hr, hdata, -⟩ := record_some hrecord
      have hlen : r.data.length ≤ maxContentsSize := by
        rw [hdata]
        exact hfits
      have hslotOps : ∀ k (m : Mem), fatAt (replay flashStep ((r.slotOps fw).take k) m) t =
          fatAt m t := by
        intro k m
        exact fatAt_replay (fun o ho => BlobRecord.slotOps_within hgcm hlen o
          (List.mem_of_mem_take ho)) (.inr (blobSlotBase_lt r.slot))
      rw [hrecord] at hsome
      have hsealed : canSeal fw w = true := hsome.symm
      rw [hsealed, if_pos rfl, List.take_append, Machine.replay_append, length_nameOps,
        BlobRecord.ops, List.take_append, Machine.replay_append, BlobRecord.length_slotOps hgcm,
        hdata, Nat.sub_sub, record_newFat hrecord, hr]
      have hfinds := @fatAt_finds (replay flashStep ((r.slotOps fw).take (k - 17))
        (replay flashStep ((nameOps ram slot c.request.entry).take k) m)) t
        (Function.update ram.gFat slot (newFat slot (.store c)))
        (k - (17 + recordCommands c.request.contents.length))
      rw [hslotOps, hnames] at hfinds
      exact hfinds
  | delete pktLen buf =>
    have hfinds := @fatAt_finds (replay flashStep ((eraseSlotOps slot).take k) m) t
      (Function.update ram.gFat slot .erased) (k - 12)
    rw [fatAt_replay (fun o ho => eraseSlotOps_within slot o (List.mem_of_mem_take ho))
      (.inr (blobSlotBase_lt slot))] at hfinds
    rw [fatState, newFat, body, deleteOps, List.take_append, Machine.replay_append, hnames,
      blobDeleteOps, List.take_append, Machine.replay_append, length_eraseSlotOps]
    exact hfinds

end

end FileCommand
