-- SUMMARY: What storing and deleting a file do under every schedule: the commands given, the RAM left, and how they can end.
import HsmFirmware.Specs.Pages
import HsmFirmware.Specs.Opening

/-!
# Storing and deleting

A store rewrites the name page, erases and programs the slot, and rewrites the
FAT page; each part gives up at the first refused command. When the blob layer
gives up, the name entry is cleared, which is a page rewrite of its own.
-/

open Machine (replay)

/-! ## Erasing a slot -/

/-- The commands of `erase_slot_pages`. -/
def eraseSlotOps (slot : Slot) : List Op :=
  (List.range 12).map fun i => .erase (blobSlotBase slot + i * pageSize)

@[simp] theorem length_eraseSlotOps (slot : Slot) : (eraseSlotOps slot).length = 12 := by
  simp [eraseSlotOps]

theorem erasePages_attempts (addresses : List Nat) (ram : Ram) (w : World) :
    (erasePages addresses).Attempts ram w .ok ram (w.after (addresses.map .erase))
      (addresses.map .erase) (· = (.ioError, ram)) := by
  induction addresses generalizing w with
  | nil => exact Dev.Attempts.pure
  | cons a addresses ih =>
    refine Dev.Attempts.bind (L := [.erase a]) (flashSimpleErasePage_attempts a ram w)
      (ih (w.after [.erase a])) ?_
    rintro c ram' hc
    cases hc
    exact Dev.Quiet.pure rfl

theorem eraseSlotPages_attempts (slot : Slot) (ram : Ram) (w : World) :
    (eraseSlotPages slot).Attempts ram w .ok ram (w.after (eraseSlotOps slot))
      (eraseSlotOps slot) (· = (.ioError, ram)) := by
  have h := erasePages_attempts
    ((List.range (slotSize / pageSize)).map fun i => blobSlotBase slot + i * pageSize) ram w
  rw [List.map_map] at h
  exact h

theorem blobSlotBase_div (slot : Slot) (i : Nat) :
    blobSlotBase slot + i * pageSize = (blobSlotBase slot / pageSize + i) * pageSize := by
  simp only [blobSlotBase, flashBase, slotSize_eq, pageSize]
  omega

/-- The first `j` erases leave the first `j` pages of the slot erased. -/
theorem erased_take_eraseSlotOps (slot : Slot) (j : Nat) (hj : j ≤ 12) (m : Mem) :
    Mem.Erased (replay flashStep ((eraseSlotOps slot).take j) m) (blobSlotBase slot)
      (blobSlotBase slot + j * pageSize) := by
  induction j with
  | zero =>
    intro x h₁ h₂
    omega
  | succ j ih =>
    have hget : (eraseSlotOps slot)[j]? = some (.erase (blobSlotBase slot + j * pageSize)) := by
      simp only [eraseSlotOps, List.getElem?_map]
      rw [List.getElem?_range (by omega)]
      rfl
    have htake : (eraseSlotOps slot).take (j + 1) =
        (eraseSlotOps slot).take j ++ [.erase (blobSlotBase slot + j * pageSize)] := by
      rw [List.take_add_one, hget]
      rfl
    rw [htake, Machine.replay_append]
    generalize replay flashStep ((eraseSlotOps slot).take j) m = m' at ih
    have hold := (ih (by omega)).erase pageSize (blobSlotBase slot + j * pageSize)
    have hnew := Mem.erased_erase (k := blobSlotBase slot / pageSize + j) m'
      (show 0 < pageSize by decide)
    rw [← blobSlotBase_div] at hnew
    intro x h₁ h₂
    by_cases hx : x < blobSlotBase slot + j * pageSize
    · exact hold x h₁ hx
    · refine hnew x (by omega) ?_
      have := blobSlotBase_div slot (j + 1)
      rw [Nat.add_assoc, ← this]
      exact h₂

theorem erased_eraseSlotOps (slot : Slot) (m : Mem) :
    Mem.Erased (replay flashStep (eraseSlotOps slot) m) (blobSlotBase slot)
      (blobSlotBase slot + slotSize) := by
  have h := erased_take_eraseSlotOps slot 12 (Nat.le_refl _) m
  rwa [List.take_of_length_le (by simp)] at h

theorem eraseSlotOps_within (slot : Slot) :
    ∀ o ∈ eraseSlotOps slot, o.Within (blobSlotBase slot) (blobSlotBase slot + slotSize) := by
  intro o ho
  obtain ⟨i, hi, rfl⟩ := List.mem_map.mp ho
  have hi' := List.mem_range.mp hi
  simp only [Op.Within, blobSlotBase, flashBase, slotSize_eq, pageSize]
  omega

/-! ## RAM updates -/

/-- The RAM with the FAT entry of one slot replaced. -/
def Ram.setFat (ram : Ram) (slot : Slot) (entry : FatEntry) : Ram :=
  { ram with gFat := Function.update ram.gFat slot entry }

/-- The RAM with the name entry of one slot replaced. -/
def Ram.setName (ram : Ram) (slot : Slot) (entry : NameEntry) : Ram :=
  { ram with gNameTable := Function.update ram.gNameTable slot entry }

/-- The RAM with other associated data in the scratch buffer. -/
def Ram.setAad (ram : Ram) (aad : Bytes) : Ram := { ram with gAad := aad }

section RamUpdates

variable (ram : Ram) (slot : Slot) (fatEntry : FatEntry) (nameEntry : NameEntry) (aad : Bytes)

@[simp] theorem Ram.gFat_setFat :
    (ram.setFat slot fatEntry).gFat = Function.update ram.gFat slot fatEntry := rfl
@[simp] theorem Ram.gNameTable_setFat : (ram.setFat slot fatEntry).gNameTable = ram.gNameTable := rfl
@[simp] theorem Ram.gFat_setName : (ram.setName slot nameEntry).gFat = ram.gFat := rfl
@[simp] theorem Ram.gNameTable_setName :
    (ram.setName slot nameEntry).gNameTable = Function.update ram.gNameTable slot nameEntry := rfl
@[simp] theorem Ram.gFat_setAad : (ram.setAad aad).gFat = ram.gFat := rfl
@[simp] theorem Ram.gNameTable_setAad : (ram.setAad aad).gNameTable = ram.gNameTable := rfl

end RamUpdates

/-! ## Committing entries -/

/-- The commands that rewrite the FAT after an entry is replaced. -/
def fatOps (fat : Slot → FatEntry) (slot : Slot) (entry : FatEntry) : List Op :=
  pageOps fatAddr (fatPage (Function.update fat slot entry))

@[simp] theorem length_fatOps (fat : Slot → FatEntry) (slot : Slot) (entry : FatEntry) :
    (fatOps fat slot entry).length = 17 := length_pageOps (length_fatPage _)

theorem commitFatEntry_attempts (slot : Slot) (entry : FatEntry) (ram : Ram) (w : World) :
    (commitFatEntry slot entry).Attempts ram w .ok (ram.setFat slot entry)
      (w.after (fatOps ram.gFat slot entry)) (fatOps ram.gFat slot entry)
      (· = (.ioError, ram)) := by
  have hdone : (do
      modify fun ram => { ram with gFat := Function.update ram.gFat slot entry }
      pure .ok : Dev BlobStatus).Attempts ram (w.after (fatOps ram.gFat slot entry)) .ok
      (ram.setFat slot entry) (w.after (fatOps ram.gFat slot entry)) [] (· = (.ioError, ram)) :=
    Dev.Attempts.modify_bind Dev.Attempts.pure
  have h := @rewritePage_attempts BlobStatus fatAddr _ .ioError .ok _ ram _ w _ [] (· = (.ioError, ram))
    hdone rfl
  rw [List.append_nil] at h
  exact h

/-- The commands that flush the table after a name entry is replaced. -/
def nameOps (ram : Ram) (slot : Slot) (entry : NameEntry) : List Op :=
  pageOps nameTableAddr (namePage (Function.update ram.gNameTable slot entry))

@[simp] theorem length_nameOps (ram : Ram) (slot : Slot) (entry : NameEntry) :
    (nameOps ram slot entry).length = 17 := length_pageOps (length_namePage _)

theorem setNameEntry_attempts {slotNum : UInt8} {slot : Slot} (hslot : slotIsValid slotNum = some slot)
    (entry : NameEntry) (ram : Ram) (w : World) :
    (setNameEntry slotNum entry).Attempts ram w 0 (ram.setName slot entry)
      (w.after (nameOps ram slot entry)) (nameOps ram slot entry)
      (· = (-1, ram.setName slot entry)) := by
  rw [setNameEntry, hslot]
  refine Dev.Attempts.modify_bind (Dev.Attempts.get_bind ?_)
  have h := @rewritePage_attempts Int nameTableAddr (namePage (ram.setName slot entry).gNameTable)
    (-1) 0 (pure 0) (ram.setName slot entry) (ram.setName slot entry) w _ _
    (· = (-1, ram.setName slot entry)) Dev.Attempts.pure rfl
  rw [List.append_nil] at h
  exact h

theorem setNameEntry_invalid {slotNum : UInt8} (hslot : slotIsValid slotNum = none)
    (entry : NameEntry) : setNameEntry slotNum entry = pure (-1) := by
  rw [setNameEntry, hslot]

/-! ## Writing a blob -/

namespace BlobRecord

variable (fw : Firmware) (r : BlobRecord)

/-- The commands that write the record into its slot. -/
def slotOps : List Op := eraseSlotOps r.slot ++ areaOps (r.areas fw)

/-- The commands of `blob_write`. -/
def ops (fat : Slot → FatEntry) (uuid : Vector UInt8 16) : List Op :=
  r.slotOps fw ++ fatOps fat r.slot (r.fatEntry uuid)

variable {fw r}

theorem slotOps_eq : r.slotOps fw = eraseSlotOps r.slot ++ areaOps (r.chunks fw) ++
    writeOps r.base (Header.codec.encode (r.header fw)) := by
  simp [slotOps, areas, areaOps]

/-- `blob_write` behind its chunks: header, then FAT entry. -/
theorem commitRecord_attempts (uuid : Vector UInt8 16) (ram : Ram) (w : World) :
    (do
      if (← flashSimpleWrite r.base (Header.codec.encode (r.header fw))) ≠ 0 then pure .ioError else
      commitFatEntry r.slot (r.fatEntry uuid) : Dev BlobStatus).Attempts ram w .ok
      (ram.setFat r.slot (r.fatEntry uuid))
      (w.after (writeOps r.base (Header.codec.encode (r.header fw)) ++
        fatOps ram.gFat r.slot (r.fatEntry uuid)))
      (writeOps r.base (Header.codec.encode (r.header fw)) ++
        fatOps ram.gFat r.slot (r.fatEntry uuid)) (· = (.ioError, ram)) := by
  refine checkedWrite_attempts ?_ rfl
  rw [World.after_append]
  exact commitFatEntry_attempts r.slot (r.fatEntry uuid) ram _

theorem writeRecord_attempts (hgcm : fw.prim.GcmLaws) (hlen : r.data.length < UInt32.size)
    (uuid : Vector UInt8 16) (ram : Ram) (w : World) :
    (blobWriteRecord fw r.slot r.data uuid r.masterKey r.draft).Attempts ram w .ok
      ((ram.setAad (buildAad r.draft)).setFat r.slot (r.fatEntry uuid))
      (w.after (r.ops fw ram.gFat uuid)) (r.ops fw ram.gFat uuid)
      (· = (.ioError, ram.setAad (buildAad r.draft))) := by
  have hops : r.ops fw ram.gFat uuid = eraseSlotOps r.slot ++ (areaOps (r.chunks fw) ++
      (writeOps r.base (Header.codec.encode (r.header fw)) ++
        fatOps ram.gFat r.slot (r.fatEntry uuid))) := by
    rw [ops, slotOps_eq]
    simp only [List.append_assoc]
  have hchunks : (blobWriteChunks fw r.masterKey r.nonce (buildAad r.draft) r.base r.data 0 0
      []).Attempts (ram.setAad (buildAad r.draft)) (w.after (eraseSlotOps r.slot))
      (.ok (r.tags fw)) (ram.setAad (buildAad r.draft))
      ((w.after (eraseSlotOps r.slot)).after (areaOps (r.chunks fw))) (areaOps (r.chunks fw))
      (· = (.error .ioError, ram.setAad (buildAad r.draft))) :=
    @blobWriteChunks_attempts fw r.masterKey r.nonce (buildAad r.draft) hgcm r.base r.data hlen 0
      (numChunks r.data.length) 0 [] rfl (Nat.zero_le _) (fun _ => rfl) _ _
  rw [hops]
  refine Dev.Attempts.modify_bind (Dev.Attempts.bind
    (eraseSlotPages_attempts r.slot (ram.setAad (buildAad r.draft)) w) ?_ ?_)
  · refine Dev.Attempts.bind hchunks ?_ ?_
    · rw [World.after_append, World.after_append]
      exact commitRecord_attempts uuid (ram.setAad (buildAad r.draft)) _
    · rintro c ram' hc
      cases hc
      exact Dev.Quiet.pure rfl
  · rintro c ram' hc
    cases hc
    exact Dev.Quiet.pure rfl

theorem fatOps_within (fat : Slot → FatEntry) (slot : Slot) (entry : FatEntry) :
    ∀ o ∈ fatOps fat slot entry, o.Within fatAddr (fatAddr + pageSize) :=
  pageOps_within rfl (by simp) (Nat.le_refl _) (Nat.le_refl _)

/-- The commands of a record leave it in its slot. -/
theorem storedIn_ops (hgcm : fw.prim.GcmLaws) (hlen : r.data.length ≤ maxContentsSize)
    (fat : Slot → FatEntry) (uuid : Vector UInt8 16) (m : Mem) :
    r.StoredIn fw (replay flashStep (r.ops fw fat uuid) m) := by
  have hslot : r.StoredIn fw (replay flashStep (r.slotOps fw) m) := by
    rw [slotOps, Machine.replay_append, replay_areaOps]
    exact storedIn_programAll hgcm hlen (erased_eraseSlotOps r.slot m)
  rw [ops, Machine.replay_append]
  exact hslot.of_agree hlen
    (agree_replay (fatOps_within _ _ _) (.inl (blobSlotBase_lt r.slot)) _)

end BlobRecord

/-- The world after a draw from the random number generator. -/
def World.drawn (w : World) : World := { w with draws := w.draws + 1 }

@[simp] theorem World.flash_drawn (w : World) : w.drawn.flash = w.flash := rfl

/-- The record `blob_write` is about to write, when its checks, the key derivation and
    the draw of a nonce let it. -/
def blobWriteSetup (fw : Firmware) (slot : Slot) (data : Bytes) (ownerPinHash : Digest)
    (groupMask : UInt32) (draw : Option (Nat → UInt8)) : Option BlobRecord :=
  if tagsOffset - headerSize < data.length then none
  else
    match (securityGetRootSecret fw).bind fun root => deriveFileKey fw root groupMask with
    | none => none
    | some masterKey =>
      draw.map fun f =>
        { slot := slot
          data := data
          ownerPinHash := ownerPinHash
          groupMask := groupMask
          nonce := (Codec.bytes 12).decode ((List.range 12).map f)
          masterKey := masterKey }

section

variable {fw : Firmware} {slotNum : UInt8} {slot : Slot} {data : Bytes} {uuid : Vector UInt8 16}
  {ownerPinHash : Digest} {groupMask : UInt32} {ram : Ram} {w : World} {r : BlobRecord}

/-- What a set-up record holds. -/
theorem blobWriteSetup_some {draw : Option (Nat → UInt8)}
    (h : blobWriteSetup fw slot data ownerPinHash groupMask draw = some r) :
    r.slot = slot ∧ r.data = data ∧ r.ownerPinHash = ownerPinHash ∧ r.groupMask = groupMask ∧
      data.length ≤ tagsOffset - headerSize ∧
      (securityGetRootSecret fw).bind (fun root => deriveFileKey fw root groupMask) =
        some r.masterKey := by
  rw [blobWriteSetup] at h
  split at h
  · cases h
  · rename_i hlen
    split at h
    · cases h
    · rename_i masterKey hkey
      obtain ⟨f, -, rfl⟩ := Option.map_eq_some_iff.mp h
      exact ⟨rfl, rfl, rfl, rfl, Nat.not_lt.mp hlen, hkey⟩

theorem findWriteSlot_of_valid (hslot : slotIsValid slotNum = some slot) (fat : Slot → FatEntry) :
    findWriteSlot fat slotNum = .ok slot := by
  have hne : slotNum ≠ autoSlot := by
    rintro rfl
    cases hslot
  rw [findWriteSlot, if_pos hne, hslot]

theorem blobWrite_check {len : Nat} :
    (tagsOffset - headerSize < len ∨ 0xFFFFFFFF < len ∨ 0xFFFF < headerSize + len) ↔
      tagsOffset - headerSize < len := by
  simp only [tagsOffset_eq, headerSize]
  omega

theorem blobWrite_attempts (hgcm : fw.prim.GcmLaws) (hslot : slotIsValid slotNum = some slot)
    (hsetup : blobWriteSetup fw slot data ownerPinHash groupMask (w.rng w.draws) = some r) :
    (blobWrite fw slotNum data uuid ownerPinHash groupMask).Attempts ram w .ok
      ((ram.setAad (buildAad r.draft)).setFat slot (r.fatEntry uuid))
      (w.drawn.after (r.ops fw ram.gFat uuid)) (r.ops fw ram.gFat uuid)
      (· = (.ioError, ram.setAad (buildAad r.draft))) := by
  have hsome := blobWriteSetup_some hsetup
  rw [blobWriteSetup] at hsetup
  split at hsetup
  · cases hsetup
  rename_i hlen
  cases hroot : securityGetRootSecret fw with
  | none => simp [hroot] at hsetup
  | some root =>
    cases hkey : deriveFileKey fw root groupMask with
    | none => simp [hroot, hkey] at hsetup
    | some masterKey =>
      simp only [hroot, hkey, Option.bind_some] at hsetup
      obtain ⟨f, hf, rfl⟩ := Option.map_eq_some_iff.mp hsetup
      rw [blobWrite, if_neg (mt blobWrite_check.mp hlen)]
      refine Dev.Attempts.get_bind ?_
      simp only [findWriteSlot_of_valid hslot, hroot, hkey]
      refine Machine.Attempts.call_volatile rfl ?_
      have hdraw : (hsm.act (.nonce 12) w).1 = some ((List.range 12).map f) := by
        show (w.rng w.draws).map (fun f => (List.range 12).map f) = _
        rw [hf, Option.map_some]
      rw [hdraw]
      have hlen32 : data.length < UInt32.size := by
        have := Nat.not_lt.mp hlen
        simp only [tagsOffset_eq, headerSize] at this
        simp only [UInt32.size]
        omega
      exact BlobRecord.writeRecord_attempts
        (r := ⟨slot, data, ownerPinHash, groupMask, (Codec.bytes 12).decode ((List.range 12).map f),
          masterKey⟩) hgcm hlen32 uuid ram w.drawn

/-- Without a set-up record `blob_write` refuses before it touches flash or RAM. -/
theorem blobWrite_refused (hslot : slotIsValid slotNum = some slot)
    (hsetup : blobWriteSetup fw slot data ownerPinHash groupMask (w.rng w.draws) = none)
    (fs : Schedule) :
    ∃ rc w', (blobWrite fw slotNum data uuid ownerPinHash groupMask).exec fs ram w =
      .done (rc, ram) w' [] fs ∧ rc ≠ .ok := by
  rw [blobWriteSetup] at hsetup
  rw [blobWrite]
  split at hsetup
  · rename_i hlen
    rw [if_pos (blobWrite_check.mpr hlen)]
    exact ⟨_, w, rfl, by simp⟩
  rename_i hlen
  rw [if_neg (mt blobWrite_check.mp hlen)]
  simp only [Dev.exec_bind, Dev.exec_get, Halt.andThen_done, Halt.logged_nil,
    findWriteSlot_of_valid hslot]
  cases hroot : securityGetRootSecret fw with
  | none => exact ⟨_, w, rfl, by simp⟩
  | some root =>
    simp only
    cases hkey : deriveFileKey fw root groupMask with
    | none => exact ⟨_, w, rfl, by simp⟩
    | some masterKey =>
      simp only [hroot, hkey, Option.bind_some, Option.map_eq_none_iff] at hsetup
      refine ⟨.cryptoError, w.drawn, ?_, by simp⟩
      simp only [securityGenerateNonce, show ¬ (12 = 0) by decide, if_false, Dev.exec_bind,
        Dev.exec_nonce, hsetup, Option.map_none, Halt.andThen_done, Halt.logged_nil, Dev.exec_pure]
      rfl

end

/-! ## Storing a file -/

theorem Ram.setName_setAad_setName (ram : Ram) (slot : Slot) (entry entry' : NameEntry)
    (aad : Bytes) : ((ram.setName slot entry).setAad aad).setName slot entry' =
      (ram.setName slot entry').setAad aad := by
  simp [Ram.setName, Ram.setAad]

theorem nameOps_setName (ram : Ram) (slot : Slot) (entry entry' : NameEntry) (aad : Bytes) :
    nameOps ((ram.setName slot entry).setAad aad) slot entry' = nameOps ram slot entry' := by
  simp [nameOps]

/-- The commands of `blob_write` up to where it fails: none without a record. -/
def RecordCommands (fw : Firmware) (ram : Ram) (uuid : Vector UInt8 16) (setup : Option BlobRecord)
    (B : List Op) : Prop :=
  (setup = none ∧ B = []) ∨ ∃ r j, setup = some r ∧ B = (r.ops fw ram.gFat uuid).take j

/-- The ways a store behind its PIN hash can end, for the record `setup` gives. In `undone`
    and `undoneCut` the commands `B` of `blob_write` come before the first `k` of those that
    clear the name entry. -/
inductive StoreEnding (fw : Firmware) (ram : Ram) (w : World) (fs : Schedule) (slot : Slot)
    (entry : NameEntry) (uuid : Vector UInt8 16) (setup : Option BlobRecord) :
    Halt Op World (Int × Ram) → Prop where
  | stored {r : BlobRecord} (hr : setup = some r)
      (hfs : fs.AllDone (17 + (r.ops fw ram.gFat uuid).length)) :
      StoreEnding fw ram w fs slot entry uuid setup
        (.done
          (0, ((ram.setName slot entry).setAad (buildAad r.draft)).setFat slot (r.fatEntry uuid))
          ((w.after (nameOps ram slot entry)).drawn.after (r.ops fw ram.gFat uuid))
          (nameOps ram slot entry ++ r.ops fw ram.gFat uuid)
          (fs.drop (17 + (r.ops fw ram.gFat uuid).length)))
  | nameRefused {k j : Nat} {e : Bool} {t : World} {rest : Schedule} (hk : k ≤ 17) (hj : j < 17)
      (hfs : fs.AllDone j) (hfailed : fs[j]? = some (.failed e)) :
      StoreEnding fw ram w fs slot entry uuid setup
        (.done (-1, ram.setName slot entry) t ((nameOps ram slot entry).take k) rest)
  | nameCut {k : Nat} {t : World} (hk : k < 17) (hfs : fs.AllDone k)
      (hlost : fs[k]? = some .powerLost) :
      StoreEnding fw ram w fs slot entry uuid setup (.off t ((nameOps ram slot entry).take k))
  | recordCut {r : BlobRecord} {j : Nat} {t : World} (hr : setup = some r)
      (hj : j < (r.ops fw ram.gFat uuid).length) (hfs : fs.AllDone (17 + j))
      (hlost : fs[17 + j]? = some .powerLost) :
      StoreEnding fw ram w fs slot entry uuid setup
        (.off t (nameOps ram slot entry ++ (r.ops fw ram.gFat uuid).take j))
  | undone {B : List Op} {k : Nat} {aad : Bytes} {t : World} {rest : Schedule}
      (hB : RecordCommands fw ram uuid setup B) (hk : k ≤ 17)
      (hfs : fs.AllDone 17)
      (hfirst : fs.TakesEffect 17 ∨ setup ≠ none ∧ fs.TakesEffect 18 → B ≠ [] ∨ k ≠ 0) :
      StoreEnding fw ram w fs slot entry uuid setup
        (.done (-1, (ram.setName slot .erased).setAad aad) t
          (nameOps ram slot entry ++ (B ++ (nameOps ram slot .erased).take k)) rest)
  | undoneCut {B : List Op} {k : Nat} {t : World}
      (hB : RecordCommands fw ram uuid setup B) (hk : k ≤ 17)
      (hfs : fs.AllDone 17)
      (hfirst : fs.TakesEffect 17 ∨ setup ≠ none ∧ fs.TakesEffect 18 → B ≠ [] ∨ k ≠ 0) :
      StoreEnding fw ram w fs slot entry uuid setup
        (.off t (nameOps ram slot entry ++ (B ++ (nameOps ram slot .erased).take k)))

section

variable {fw : Firmware} {slotNum : UInt8} {slot : Slot} {groupId : UInt16} {pin : Bytes}
  {pinHash : Digest} {name : Vector UInt8 32} {uuid : Vector UInt8 16} {contents : Bytes}

/-- Clearing the name entry and reporting the failure: some prefix of the commands is given,
    none only when the first one is refused. -/
theorem clearNameEntry_ending (hslot : slotIsValid slotNum = some slot) (msg : String)
    (fs : Schedule) (ram : Ram) (w : World) :
    ∃ k t rest, k ≤ 17 ∧ (fs.TakesEffect 0 → k ≠ 0) ∧
      ((do let _ ← clearNameEntry slotNum; reject msg : Dev Int).exec fs ram w =
          .done (-1, ram.setName slot .erased) t ((nameOps ram slot .erased).take k) rest ∨
        (do let _ ← clearNameEntry slotNum; reject msg : Dev Int).exec fs ram w =
          .off t ((nameOps ram slot .erased).take k)) := by
  rw [Dev.exec_bind]
  have hend : Machine.Ending _ _ _ _ fs ((clearNameEntry slotNum).exec fs ram w) :=
    (setNameEntry_attempts hslot .erased ram w).ending fs
  generalize (clearNameEntry slotNum).exec fs ram w = res at hend ⊢
  have hlen : (nameOps ram slot .erased).length = 17 := length_nameOps _ _ _
  cases hend with
  | completed hd =>
    have htake : (nameOps ram slot .erased).take 17 = nameOps ram slot .erased :=
      List.take_of_length_le (by omega)
    simp only [Halt.andThen_done, reject_exec, Halt.logged_done, List.append_nil]
    exact ⟨17, _, _, Nat.le_refl _, fun _ => by decide, .inl (by rw [htake])⟩
  | @gaveUp j e b t hj hd hfs hb =>
    subst hb
    simp only [Halt.andThen_done, reject_exec, Halt.logged_done, List.append_nil]
    refine ⟨j + e.toNat, _, _, ?_, fun h1 => ?_, .inl rfl⟩
    · have := Bool.toNat_le e
      omega
    · rintro hzero
      obtain ⟨rfl, he⟩ := Nat.add_eq_zero_iff.mp hzero
      exact Nat.ne_of_gt ((Schedule.takesEffect_iff hfs).mp h1) he
  | @cutOff j t hj hd hfs =>
    refine ⟨j, t, [], by omega, fun h1 => ?_, .inr (by rw [Halt.andThen_off])⟩
    rintro rfl
    exact Nat.lt_irrefl 0 ((Schedule.takesEffect_iff hfs).mp h1)

/-- A store whose record has failed clears the name entry. -/
theorem undo_ending (hslot : slotIsValid slotNum = some slot) {fs fs' : Schedule} {ram : Ram}
    {w t : World} {setup : Option BlobRecord} {B : List Op} (hB : RecordCommands fw ram uuid setup B)
    (hd : fs.AllDone 17)
    (hfirst : fs.TakesEffect 17 ∨ setup ≠ none ∧ fs.TakesEffect 18 → B ≠ [] ∨ fs'.TakesEffect 0)
    (aad : Bytes) :
    StoreEnding fw ram w fs slot (.named name groupId) uuid setup
      ((((do let _ ← clearNameEntry slotNum; reject "Store failed\n" : Dev Int).exec fs'
        ((ram.setName slot (.named name groupId)).setAad aad) t).logged B).logged
        (nameOps ram slot (.named name groupId))) := by
  obtain ⟨k, t', rest, hk, hk0, hcase⟩ := clearNameEntry_ending hslot "Store failed\n" fs'
    ((ram.setName slot (.named name groupId)).setAad aad) t
  rw [nameOps_setName, Ram.setName_setAad_setName] at hcase
  have hfirst' : fs.TakesEffect 17 ∨ setup ≠ none ∧ fs.TakesEffect 18 → B ≠ [] ∨ k ≠ 0 :=
    fun h => (hfirst h).imp id hk0
  rcases hcase with hcase | hcase
  · rw [hcase, Halt.logged_done, Halt.logged_done]
    exact .undone hB hk hd hfirst'
  · rw [hcase, Halt.logged_off, Halt.logged_off]
    exact .undoneCut hB hk hd hfirst'

/-- The record of a store whose name page is written, under the rest of the schedule. -/
theorem record_ending (hgcm : fw.prim.GcmLaws) (hslot : slotIsValid slotNum = some slot)
    {fs : Schedule} {ram : Ram} {w : World} {r : BlobRecord} (hd : fs.AllDone 17)
    (hsetup : blobWriteSetup fw slot contents pinHash groupId.toUInt32 (w.rng w.draws) = some r) :
    StoreEnding fw ram w fs slot (.named name groupId) uuid (some r)
      (((do
          let rc ← blobWrite fw slotNum contents uuid pinHash groupId.toUInt32
          if rc ≠ .ok then do
            let _ ← clearNameEntry slotNum
            reject "Store failed\n"
          else pure 0 : Dev Int).exec (fs.drop 17) (ram.setName slot (.named name groupId))
        (w.after (nameOps ram slot (.named name groupId)))).logged
          (nameOps ram slot (.named name groupId))) := by
  rw [Dev.exec_bind]
  have hwrite : Machine.Ending _ _ _ _ (fs.drop 17)
      ((blobWrite fw slotNum contents uuid pinHash groupId.toUInt32).exec (fs.drop 17)
        (ram.setName slot (.named name groupId))
        (w.after (nameOps ram slot (.named name groupId)))) :=
    (@blobWrite_attempts fw slotNum slot contents uuid pinHash groupId.toUInt32
      (ram.setName slot (.named name groupId))
      (w.after (nameOps ram slot (.named name groupId))) r hgcm hslot hsetup).ending
      (fs.drop 17)
  generalize (blobWrite fw slotNum contents uuid pinHash groupId.toUInt32).exec (fs.drop 17)
    (ram.setName slot (.named name groupId))
    (w.after (nameOps ram slot (.named name groupId))) = res at hwrite ⊢
  obtain ⟨rfl, -⟩ := blobWriteSetup_some hsetup
  simp only [Ram.gFat_setName] at hwrite
  cases hwrite with
  | completed hd' =>
    rw [Halt.andThen_done, if_neg (by simp), Dev.exec_pure, Halt.logged_done,
      Halt.logged_done, List.append_nil, List.drop_drop]
    exact .stored rfl (Schedule.allDone_add.mpr ⟨hd, hd'⟩)
  | @cutOff j t hj hd' hlost =>
    rw [Halt.andThen_off, Halt.logged_off]
    exact .recordCut rfl hj (Schedule.allDone_add.mpr ⟨hd, hd'⟩) (by simpa using hlost)
  | @gaveUp j e b t hj hd' hfs hb =>
    subst hb
    rw [Halt.andThen_done, if_pos (by simp)]
    refine undo_ending hslot (.inr ⟨r, _, rfl, rfl⟩) hd (fun h => ?_) (buildAad r.draft)
    by_cases hzero : j + e.toNat = 0
    · -- The first command of `blob_write` was refused; the next one clears the name entry.
      obtain ⟨rfl, he⟩ := Nat.add_eq_zero_iff.mp hzero
      right
      rcases h with h | ⟨-, h⟩
      · have hpos := (Schedule.takesEffect_iff (by simpa using hfs)).mp h
        exact absurd he (Nat.ne_of_gt hpos)
      · unfold Schedule.TakesEffect at h ⊢
        rwa [List.drop_zero, List.drop_drop]
    · left
      intro hnil
      have hlength := congrArg List.length hnil
      simp only [List.length_take, List.length_nil] at hlength
      omega

theorem storeFile_ending (hgcm : fw.prim.GcmLaws) (hslot : slotIsValid slotNum = some slot)
    (hpin : getPinHash fw pin = some pinHash) (fs : Schedule) (ram : Ram) (w : World) :
    StoreEnding fw ram w fs slot (.named name groupId) uuid
      (blobWriteSetup fw slot contents pinHash groupId.toUInt32 (w.rng w.draws))
      ((storeFile fw slotNum name groupId uuid contents pin).exec fs ram w) := by
  simp only [storeFile, hpin]
  rw [Dev.exec_bind]
  have hname : Machine.Ending _ _ _ _ fs ((saveNameEntry slotNum name groupId).exec fs ram w) :=
    (setNameEntry_attempts hslot (.named name groupId) ram w).ending fs
  generalize (saveNameEntry slotNum name groupId).exec fs ram w = res at hname ⊢
  have hlen : (nameOps ram slot (.named name groupId)).length = 17 := length_nameOps _ _ _
  cases hname with
  | @gaveUp j e b t hj hd hfs hb =>
    subst hb
    rw [Halt.andThen_done, if_pos (by simp), reject_exec, Halt.logged_done, List.append_nil]
    have hle := Bool.toNat_le e
    exact .nameRefused (by omega) (by omega) hd hfs
  | cutOff hj hd hfs =>
    rw [Halt.andThen_off]
    exact .nameCut (by omega) hd hfs
  | completed hd =>
    rw [hlen] at hd ⊢
    rw [Halt.andThen_done, if_neg (by simp)]
    -- The entry is written; now the record, under the rest of the schedule.
    cases hsetup : blobWriteSetup fw slot contents pinHash groupId.toUInt32 (w.rng w.draws) with
    | none =>
      obtain ⟨rc, w', hexec, hrc⟩ := @blobWrite_refused fw slotNum slot contents uuid pinHash
        groupId.toUInt32 (ram.setName slot (.named name groupId))
        (w.after (nameOps ram slot (.named name groupId))) hslot hsetup (fs.drop 17)
      rw [Dev.exec_bind, hexec, Halt.andThen_done, if_pos hrc]
      refine undo_ending hslot (.inl ⟨rfl, rfl⟩) hd (fun h => .inr ?_) ram.gAad
      unfold Schedule.TakesEffect
      rw [List.drop_zero]
      exact h.resolve_right fun hsome => hsome.1 rfl
    | some r => exact record_ending hgcm hslot hd hsetup

end
