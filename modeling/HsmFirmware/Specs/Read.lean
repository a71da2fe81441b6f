-- SUMMARY: The packet that answers a read or list command, as a function of the tables, the flash and the command.
import HsmFirmware.Specs.Gate
import HsmFirmware.Specs.Opening

/-!
# Answers

`read` and `list` send one packet to the host. Which one depends on the PIN, the
two tables in RAM and the pages of the slot, and not on what happens to the PIN
page meanwhile.
-/

/-- The host sees the same files and the same PIN through both. -/
structure Ram.SameFiles (ram ram' : Ram) : Prop where
  gFat : ram'.gFat = ram.gFat
  gNameTable : ram'.gNameTable = ram.gNameTable
  gPinHash : ram'.gPinHash = ram.gPinHash
  gInitialized : ram'.gInitialized = ram.gInitialized

namespace Ram.SameFiles

theorem refl (ram : Ram) : ram.SameFiles ram := ⟨rfl, rfl, rfl, rfl⟩

theorem trans {a b c : Ram} (h : a.SameFiles b) (h' : b.SameFiles c) : a.SameFiles c :=
  ⟨h'.gFat.trans h.gFat, h'.gNameTable.trans h.gNameTable, h'.gPinHash.trans h.gPinHash,
    h'.gInitialized.trans h.gInitialized⟩

theorem setFails (ram : Ram) (count : UInt32) : ram.SameFiles (ram.setFails count) :=
  ⟨rfl, rfl, rfl, rfl⟩

variable {ram ram' : Ram} (h : ram.SameFiles ram')

include h

theorem pinCorrect_eq (fw : Firmware) : PinCorrect fw ram' = PinCorrect fw ram := by
  funext pin
  simp only [PinCorrect, h.gPinHash, h.gInitialized]

theorem occupied_eq (slot : Slot) : ram'.occupied slot = ram.occupied slot := by
  simp only [Ram.occupied, h.gFat, h.gNameTable]

theorem slotOccupied_eq (slotNum : UInt8) : slotOccupied ram' slotNum = slotOccupied ram slotNum := by
  simp only [slotOccupied, h.occupied_eq]

theorem listFiles_eq : generateListFiles ram' = generateListFiles ram := by
  have hmeta : fileMetadata ram' = fileMetadata ram := by
    funext slot
    simp only [fileMetadata, h.gNameTable]
  simp only [generateListFiles, h.occupied_eq, hmeta]

theorem filteredFiles_eq (groups : List UInt16) :
    filteredFiles ram' groups = filteredFiles ram groups := by
  simp only [filteredFiles, h.listFiles_eq]

end Ram.SameFiles

/-- A packet that passes a minimum length has that many bytes. -/
theorem le_of_not_short {pktLen n : UInt16} (h : ¬ pktLen < n) : n.toNat ≤ pktLen.toNat :=
  Nat.not_lt.mp fun hlt => h (UInt16.lt_iff_toNat_lt.mpr hlt)

/-! ## The packets -/

/-- The packet for the contents of a file, if they could be read. -/
def contentsAnswer (entry : NameEntry) : Option Bytes → Packet
  | none => errorPacket "Read failed\n"
  | some contents => ⟨.control, readMsg, entry.name.toList ++ contents⟩

/-- The answer to `read` once PIN, slot and permission are found right. -/
def readSlotAnswer (fw : Firmware) (ram : Ram) (m : Mem) (slot : Slot) (pinHash : Digest) : Packet :=
  contentsAnswer (ram.gNameTable slot)
    (recordContents fw m ram.gFat slot (some pinHash) 0xFFFFFFFF)

/-- The answer to `read` once the PIN is found right. -/
def readCheckedAnswer (fw : Firmware) (ram : Ram) (m : Mem) (slotNum : UInt8) : Packet :=
  match slotOccupied ram slotNum with
  | none => errorPacket "File not found\n"
  | some slot =>
    if validatePermission fw (ram.gNameTable slot).groupId .permRead then
      readSlotAnswer fw ram m slot ram.gPinHash
    else errorPacket "Invalid permission\n"

open Classical in
/-- The answer to a `read` command. -/
noncomputable def readAnswer (fw : Firmware) (ram : Ram) (m : Mem) (pktLen : UInt16) (buf : Mem) :
    Packet :=
  if pktLen < 7 then errorPacket "Packet too short\n"
  else if ¬ PinCorrect fw ram (buf.read 0 pinLength) then errorPacket "Invalid pin\n"
  else readCheckedAnswer fw ram m (buf 6)

/-- A number in `n` bytes, the low one first. -/
def littleEndian : Nat → Nat → Bytes
  | 0, _ => []
  | n + 1, x => UInt8.ofNat x :: littleEndian n (x / 256)

/-- A list as a host takes it apart: how many files there are in four bytes, then for each of them
    its slot in one byte, its group in two and its name in 32. -/
def listBytes (files : List FileMetadata) : Bytes :=
  littleEndian 4 files.length ++
    files.flatMap fun f => f.slot :: (littleEndian 2 f.groupId.toNat ++ f.name.toList)

theorem u16_encode_eq (x : UInt16) : Codec.u16.encode x = littleEndian 2 x.toNat := by
  simp [Codec.u16, littleEndian]

theorem u32_encode_ofNat (n : Nat) : Codec.u32.encode (UInt32.ofNat n) = littleEndian 4 n := by
  have hbyte : ∀ a b : Nat, a % 256 = b % 256 → UInt8.ofNat a = UInt8.ofNat b :=
    fun a b h => UInt8.toNat.inj (by simpa using h)
  have hmod : (UInt32.ofNat n).toNat = n % 4294967296 := UInt32.toNat_ofNat'
  show _ = [UInt8.ofNat n, UInt8.ofNat (n / 256), UInt8.ofNat (n / 256 / 256),
    UInt8.ofNat (n / 256 / 256 / 256)]
  simp only [Codec.u32, hmod, List.cons.injEq, and_true]
  exact ⟨hbyte _ _ (by omega), hbyte _ _ (by omega), hbyte _ _ (by omega), hbyte _ _ (by omega)⟩

/-- The list the firmware sends has this layout. -/
theorem listResponse_eq (files : List FileMetadata) : listResponse files = listBytes files := by
  have hentry : ∀ f : FileMetadata, FileMetadata.codec.encode f =
      f.slot :: (littleEndian 2 f.groupId.toNat ++ f.name.toList) := by
    intro f
    rw [← u16_encode_eq]
    rfl
  rw [listResponse, listBytes, u32_encode_ofNat, List.flatMap_def, List.map_congr_left
    fun f _ => hentry f]

open Classical in
/-- The answer to a `list` command. -/
noncomputable def listAnswer (fw : Firmware) (ram : Ram) (pktLen : UInt16) (buf : Mem) : Packet :=
  if pktLen < 6 then errorPacket "Packet too short\n"
  else if ¬ PinCorrect fw ram (buf.read 0 pinLength) then errorPacket "Invalid pin\n"
  else ⟨.control, listMsg, listResponse (generateListFiles ram)⟩

/-- A command that sends one packet, changes no file, and writes the PIN page at most. -/
inductive Answered (ram : Ram) (w : World) (p : Packet) : Halt Op World (Int × Ram) → Prop where
  | done {rc : Int} {ram' : Ram} {L : List Op} {rest : Schedule} (hram : ram.SameFiles ram')
      (hL : ∀ o ∈ L, o.Within pinStateAddr (pinStateAddr + pageSize)) :
      Answered ram w p (.done (rc, ram') ((w.after L).answered p) L rest)
  | off {t : World} {L : List Op}
      (hL : ∀ o ∈ L, o.Within pinStateAddr (pinStateAddr + pageSize)) : Answered ram w p (.off t L)

theorem Answered.quiet {ram ram' : Ram} {w : World} {p : Packet} {rc : Int} {rest : Schedule}
    (hram : ram.SameFiles ram') : Answered ram w p (.done (rc, ram') (w.answered p) [] rest) :=
  @Answered.done ram w p rc ram' [] rest hram fun _ ho => (List.not_mem_nil ho).elim

theorem Answered.logged {ram ram' : Ram} {w : World} {p : Packet} {res : Halt Op World (Int × Ram)}
    {L : List Op} (h : Answered ram' (w.after L) p res) (hram : ram.SameFiles ram')
    (hL : ∀ o ∈ L, o.Within pinStateAddr (pinStateAddr + pageSize)) :
    Answered ram w p (res.logged L) := by
  cases h with
  | done hram' hL' =>
    rw [Halt.logged_done, ← World.after_append]
    exact .done (hram.trans hram') fun o ho => (List.mem_append.mp ho).elim (hL o) (hL' o)
  | off hL' =>
    rw [Halt.logged_off]
    exact .off fun o ho => (List.mem_append.mp ho).elim (hL o) (hL' o)

/-! ## Reading -/

section

variable {fw : Firmware}

/-- A PIN that passes has the hash the device holds. -/
theorem PinCorrect.pinHash {ram : Ram} {pin : Bytes} (h : PinCorrect fw ram pin)
    (hlen : pin.length = pinLength) : getPinHash fw pin = some ram.gPinHash := by
  have hrange : ¬ (pin.length < pinLength ∨ pinMaxLen < pin.length) := by
    rw [hlen]
    decide
  rw [getPinHash, if_neg hrange, h.2]

/-- `read` returns the status of the packet with the contents, and -1 after an error. -/
def readStatus (w : World) (p : Packet) : Int :=
  if p.cmd = readMsg then (w.acks.headD .ok).toInt else -1

theorem readSlot_exec (slot : Slot) (pinHash : Digest) (fs : Schedule) (ram : Ram) (w : World) :
    ∃ ram', ram.SameFiles ram' ∧ (readSlot fw slot pinHash).exec fs ram w =
      .done (readStatus w (readSlotAnswer fw ram w.flash slot pinHash), ram')
        (w.answered (readSlotAnswer fw ram w.flash slot pinHash)) [] fs := by
  have hreads := @blobReadAll_reads fw w.flash ram slot pinHash 0xFFFFFFFF
    (Mem.write (fun _ => 0) 0 (ram.gNameTable slot).name.toList) maxNameSize
  simp only [readSlot, Dev.exec_bind, Dev.exec_get, Dev.exec_mapped, Halt.andThen_done,
    Halt.logged_nil]
  generalize blobReadAll fw w.flash ram (UInt8.ofNat slot) pinHash 0xFFFFFFFF
    (Mem.write (fun _ => 0) 0 (ram.gNameTable slot).name.toList) maxNameSize maxContentsSize = r
    at hreads ⊢
  obtain ⟨⟨st, aad, hram⟩, hok, hfail⟩ := hreads
  have hsame : ram.SameFiles r.ram := by
    rw [hram]
    exact ⟨rfl, rfl, rfl, rfl⟩
  refine ⟨r.ram, hsame, ?_⟩
  cases hcontents : recordContents fw w.flash ram.gFat slot (some pinHash) 0xFFFFFFFF with
  | none =>
    have hpacket : readSlotAnswer fw ram w.flash slot pinHash = errorPacket "Read failed\n" := by
      rw [readSlotAnswer, hcontents]
      rfl
    rw [hpacket, if_pos (hfail hcontents)]
    rfl
  | some d =>
    obtain ⟨hstatus, hout, hlen, -⟩ := hok d hcontents
    have hpacket : readSlotAnswer fw ram w.flash slot pinHash =
        ⟨.control, readMsg, (ram.gNameTable slot).name.toList ++ d⟩ := by
      rw [readSlotAnswer, hcontents]
      rfl
    have hname : (ram.gNameTable slot).name.toList.length = maxNameSize := by simp [maxNameSize]
    have hbuf : r.out.read 0 (maxNameSize + r.outLen) = (ram.gNameTable slot).name.toList ++ d := by
      have hwrite := Mem.write_append (fun _ => 0) 0 (ram.gNameTable slot).name.toList d
      rw [hname, Nat.zero_add] at hwrite
      have hread := Mem.read_write (fun _ => 0) 0 ((ram.gNameTable slot).name.toList ++ d)
      rw [List.length_append, hname] at hread
      rw [hout, hlen, hwrite, hread]
    rw [hpacket, if_neg (by simp [hstatus]), hbuf]
    rfl

theorem readChecked_exec {slotNum : UInt8} {pin : Bytes} {ram : Ram} (hpin : PinCorrect fw ram pin)
    (hlen : pin.length = pinLength) (fs : Schedule) (w : World) :
    ∃ ram', ram.SameFiles ram' ∧ (readChecked fw slotNum pin).exec fs ram w =
      .done (readStatus w (readCheckedAnswer fw ram w.flash slotNum), ram')
        (w.answered (readCheckedAnswer fw ram w.flash slotNum)) [] fs := by
  rw [readCheckedAnswer]
  simp only [readChecked, Dev.exec_bind, Dev.exec_get, Halt.andThen_done, Halt.logged_nil]
  cases hslot : slotOccupied ram slotNum with
  | none => exact ⟨ram, .refl ram, rfl⟩
  | some slot =>
    dsimp only
    by_cases hperm : validatePermission fw (ram.gNameTable slot).groupId .permRead = true
    · rw [if_pos hperm, if_neg (by simpa using hperm)]
      simp only [hpin.pinHash hlen]
      exact readSlot_exec slot ram.gPinHash fs ram w
    · rw [if_neg hperm, if_pos (by simpa using hperm)]
      exact ⟨ram, .refl ram, rfl⟩

/-! ## Behind the gate -/

/-- A command behind the PIN gate answers as it does behind it. -/
theorem gated_answered {ram : Ram} {w : World} {p : Packet} {pin : Bytes} {k : Dev Int}
    (hk : PinCorrect fw ram pin → ∀ fs w', Mem.Agree w'.flash w.flash 0 pinStateAddr →
      Answered (ram.setFails 0) w' p (k.exec fs (ram.setFails 0) w'))
    (hbad : ¬ PinCorrect fw ram pin → p = errorPacket "Invalid pin\n") (fs : Schedule) :
    Answered ram w p
      ((do if (← pinGate fw pin) ≠ 0 then pure (-1) else k : Dev Int).exec fs ram w) := by
  have hend := @gated_ending fw pin ram k fs w
  generalize (do if (← pinGate fw pin) ≠ 0 then pure (-1) else k : Dev Int).exec fs ram w = res
    at hend ⊢
  cases hend with
  | @entered j h =>
    have hL : ∀ o ∈ (gateOps ram).take j, o.Within pinStateAddr (pinStateAddr + pageSize) :=
      fun o ho => gateOps_within ram o (List.mem_of_mem_take ho)
    have hkept : Mem.Agree (w.after ((gateOps ram).take j)).flash w.flash 0 pinStateAddr :=
      agree_replay hL (.inl (Nat.le_refl _)) w.flash
    exact (hk h _ _ hkept).logged (Ram.SameFiles.setFails ram 0) hL
  | @refused count L rest h hL =>
    rw [hbad h]
    exact .done (.setFails ram count) hL
  | cut hL => exact .off hL

theorem slotOccupied_some {ram : Ram} {slotNum : UInt8} {slot : Slot}
    (h : slotOccupied ram slotNum = some slot) :
    slotIsValid slotNum = some slot ∧ ram.occupied slot = true := by
  rw [slotOccupied, Option.filter_eq_some_iff] at h
  exact h

theorem slotOccupied_eq_some {ram : Ram} {slotNum : UInt8} {slot : Slot}
    (hslot : slotIsValid slotNum = some slot) (h : ram.occupied slot = true) :
    slotOccupied ram slotNum = some slot := by
  rw [slotOccupied, hslot, Option.filter_some, if_pos h]

/-- What a reader gets is read from the slots. -/
theorem readSlotAnswer_congr {ram ram' : Ram} {m m' : Mem} {slot : Slot} {pinHash : Digest}
    (hram : ram.SameFiles ram') (h : Mem.Agree m' m 0 fatAddr) :
    readSlotAnswer fw ram' m' slot pinHash = readSlotAnswer fw ram m slot pinHash := by
  have hbase := blobSlotBase_lt slot
  have hslot : Mem.Agree m' m (blobSlotBase slot) (blobSlotBase slot + slotSize) :=
    h.mono (Nat.zero_le _) hbase
  rw [readSlotAnswer, readSlotAnswer, recordContents_congr (congrFun hram.gFat slot) hslot,
    hram.gNameTable]

theorem readCheckedAnswer_congr {ram ram' : Ram} {m m' : Mem} {slotNum : UInt8}
    (hram : ram.SameFiles ram') (h : Mem.Agree m' m 0 fatAddr) :
    readCheckedAnswer fw ram' m' slotNum = readCheckedAnswer fw ram m slotNum := by
  simp only [readCheckedAnswer, hram.slotOccupied_eq, hram.gNameTable, hram.gPinHash,
    readSlotAnswer_congr hram h]

theorem read_eq (pktLen : UInt16) (buf : Mem) :
    read fw pktLen buf =
      (if pktLen < 7 then reject "Packet too short\n" else do
        if (← pinGate fw (buf.read 0 pinLength)) ≠ 0 then pure (-1)
        else readChecked fw (buf 6) (buf.read 0 pinLength)) := rfl

theorem read_answers (pktLen : UInt16) (buf : Mem) (fs : Schedule) (ram : Ram) (w : World) :
    Answered ram w (readAnswer fw ram w.flash pktLen buf) ((read fw pktLen buf).exec fs ram w) := by
  rw [read_eq, readAnswer]
  by_cases hlen : pktLen < 7
  · rw [if_pos hlen, if_pos hlen]
    exact .quiet (.refl ram)
  rw [if_neg hlen, if_neg hlen]
  refine gated_answered (fun hpin fs' w' hflash => ?_) (fun hpin => if_pos hpin) fs
  have hslots := hflash.mono (Nat.le_refl _) (show fatAddr ≤ pinStateAddr by decide)
  rw [if_neg (not_not_intro hpin), ← readCheckedAnswer_congr (Ram.SameFiles.setFails ram 0) hslots]
  obtain ⟨ram', hsame, hexec⟩ := @readChecked_exec fw (buf 6) (buf.read 0 pinLength)
    (ram.setFails 0) hpin (Mem.length_read _ _ _) fs' w'
  rw [hexec]
  exact .quiet hsame

/-- With no failed attempt to clear, `read` gives no flash command. -/
theorem read_exec {pktLen : UInt16} {buf : Mem} {ram : Ram} (hlen : ¬ pktLen < 7)
    (hpin : PinCorrect fw ram (buf.read 0 pinLength)) (hcount : ram.gFailCount = 0) (fs : Schedule)
    (w : World) :
    ∃ ram', ram.SameFiles ram' ∧ (read fw pktLen buf).exec fs ram w =
      .done (readStatus w (readCheckedAnswer fw ram w.flash (buf 6)), ram')
        (w.answered (readCheckedAnswer fw ram w.flash (buf 6))) [] fs := by
  rw [read_eq, if_neg hlen, Dev.exec_bind, pinGate_exec_correct hpin, if_pos hcount,
    Halt.andThen_done, if_neg (by simp), Halt.logged_nil]
  exact readChecked_exec hpin (Mem.length_read _ _ _) fs w

theorem list_answers (pktLen : UInt16) (buf : Mem) (fs : Schedule) (ram : Ram) (w : World) :
    Answered ram w (listAnswer fw ram pktLen buf) ((list fw pktLen buf).exec fs ram w) := by
  rw [list, listAnswer]
  by_cases hlen : pktLen < 6
  · rw [if_pos hlen, if_pos hlen]
    exact .quiet (.refl ram)
  rw [if_neg hlen, if_neg hlen]
  refine gated_answered (fun hpin fs' w' hflash => ?_) (fun hpin => if_pos hpin) fs
  rw [if_neg (not_not_intro hpin)]
  simp only [Dev.exec_bind, Dev.exec_get, exec_send_answered, Dev.exec_pure, Halt.andThen_done,
    Halt.logged_nil]
  rw [(Ram.SameFiles.setFails ram 0).listFiles_eq]
  exact .quiet (.refl _)

/-! ## Replies -/

theorem Answered.replies {h : Dev Int} {ram : Ram} {w : World} {p : Packet}
    (ha : Answered ram w p (h.exec [] ram w)) : h.replies ram w = [p] := by
  obtain ⟨⟨rc, ram'⟩, w', L, hrun⟩ := hsm.exists_runs (h.run ram) w
  have hexec : h.exec [] ram w = .done (rc, ram') w' L [] := hrun
  rw [hexec] at ha
  cases ha with
  | done hram hL =>
    rw [Dev.replies, hexec]
    simp [Halt.state, World.answered, World.after]

theorem read_replies (pktLen : UInt16) (buf : Mem) (ram : Ram) (w : World) :
    (read fw pktLen buf).replies ram w = [readAnswer fw ram w.flash pktLen buf] :=
  (read_answers pktLen buf [] ram w).replies

theorem list_replies (pktLen : UInt16) (buf : Mem) (ram : Ram) (w : World) :
    (list fw pktLen buf).replies ram w = [listAnswer fw ram pktLen buf] :=
  (list_answers pktLen buf [] ram w).replies

/-- Answers depend on the tables, the PIN and the pages of the slots. -/
theorem readAnswer_congr {ram ram' : Ram} {m m' : Mem} (hram : ram.SameFiles ram')
    (h : Mem.Agree m' m 0 fatAddr) (pktLen : UInt16) (buf : Mem) :
    readAnswer fw ram' m' pktLen buf = readAnswer fw ram m pktLen buf := by
  rw [readAnswer, hram.pinCorrect_eq, readCheckedAnswer_congr hram h]
  rfl

theorem listAnswer_congr {ram ram' : Ram} (hram : ram.SameFiles ram') (pktLen : UInt16)
    (buf : Mem) : listAnswer fw ram' pktLen buf = listAnswer fw ram pktLen buf := by
  rw [listAnswer, hram.pinCorrect_eq, hram.listFiles_eq]
  rfl

end
