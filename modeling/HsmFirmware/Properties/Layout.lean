-- SUMMARY: Where blob_write writes: inside its slot and the FAT page, each flash word once, for the lengths a slot can hold.
import HsmFirmware.Specs.FileCommands
import HsmFirmware.Specs.Images

/-!
# Slot isolation

A slot has room for the tags of 32 chunks. For files of up to 8192 bytes the
areas of header, chunks and tags are apart and end within the slot. `blob_write`
accepts longer files; the tag of chunk 32 stands behind the end of the slot.
-/

open Machine (replay)

/-! ## Flash words -/

/-- The command programs a byte of the flash word, of 8 bytes, with this number. -/
def Op.Programs (word : Nat) : Op → Prop
  | .program address data => address < 8 * (word + 1) ∧ 8 * word < address + data.length
  | _ => False

/-- No flash word is programmed twice. -/
def ProgramsOnce (L : List Op) : Prop :=
  L.Pairwise fun o o' => ∀ word, ¬ (o.Programs word ∧ o'.Programs word)

/-- All that a command programs lies in `[lo, hi)`. -/
theorem Op.Within.programs {lo hi : Nat} {o : Op} (h : o.Within lo hi) {word : Nat}
    (hp : o.Programs word) : lo < 8 * (word + 1) ∧ 8 * word < hi := by
  cases o with
  | program address data =>
    obtain ⟨h₁, h₂⟩ := h
    obtain ⟨hp₁, hp₂⟩ := hp
    exact ⟨by omega, by omega⟩
  | _ => cases hp

/-- Commands within ranges of whole flash words that do not overlap. -/
theorem programs_apart {lo hi lo' hi' : Nat} {o o' : Op} (h : o.Within lo hi)
    (h' : o'.Within lo' hi') (hd : (hi ≤ lo' ∧ 8 ∣ lo') ∨ (hi' ≤ lo ∧ 8 ∣ lo)) (word : Nat) :
    ¬ (o.Programs word ∧ o'.Programs word) := by
  rintro ⟨hp, hp'⟩
  obtain ⟨h₁, h₂⟩ := h.programs hp
  obtain ⟨h₃, h₄⟩ := h'.programs hp'
  rcases hd with ⟨hle, hdvd⟩ | ⟨hle, hdvd⟩ <;> omega

theorem programsOnce_of_erases {L : List Op} (h : ∀ o ∈ L, ∃ a, o = .erase a) : ProgramsOnce L := by
  refine List.Pairwise.imp_of_mem (R := fun _ _ => True) (fun ho _ _ word hp => ?_)
    (List.pairwise_of_forall fun _ _ => trivial)
  obtain ⟨a, rfl⟩ := h _ ho
  exact hp.1

theorem ProgramsOnce.append {L L' : List Op} (h : ProgramsOnce L) (h' : ProgramsOnce L')
    (hd : ∀ o ∈ L, ∀ o' ∈ L', ∀ word, ¬ (o.Programs word ∧ o'.Programs word)) :
    ProgramsOnce (L ++ L') :=
  List.pairwise_append.mpr ⟨h, h', hd⟩

/-- `flash_simple_write` programs its pieces side by side. -/
theorem programsOnce_writeOps {address : Nat} (ha : 8 ∣ address) (buffer : Bytes) :
    ProgramsOnce (writeOps address buffer) := by
  rw [ProgramsOnce, writeOps, List.pairwise_map]
  refine List.Pairwise.imp (R := (· < ·)) (fun {i j} hij => ?_) List.pairwise_lt_range
  refine @programs_apart (address + 64 * i) (address + 64 * i + 64) (address + 64 * j)
    (address + 64 * j + 64) _ _ ⟨Nat.le_refl _, ?_⟩ ⟨Nat.le_refl _, ?_⟩ (.inl ⟨by omega, ?_⟩)
  · rw [length_programWords (by simp)]
    simp only [List.length_take, List.length_drop]
    omega
  · rw [length_programWords (by simp)]
    simp only [List.length_take, List.length_drop]
    omega
  · omega

theorem programsOnce_pageOps {address : Nat} (ha : 8 ∣ address) (page : Bytes) :
    ProgramsOnce (pageOps address page) := by
  refine List.Pairwise.cons (fun o _ word hp => hp.1) (programsOnce_writeOps ha page)

/-- Areas that are apart, at addresses of flash words, are programmed once. -/
theorem programsOnce_areaOps {areas : List (Nat × Bytes)} (hd : areas.Pairwise WordsApart)
    (ha : ∀ p ∈ areas, 8 ∣ p.1) : ProgramsOnce (areaOps areas) := by
  induction areas with
  | nil => exact List.Pairwise.nil
  | cons p areas ih =>
    obtain ⟨hp, hd⟩ := List.pairwise_cons.mp hd
    have hpa := ha p List.mem_cons_self
    have hrest := fun q hq => ha q (List.mem_cons_of_mem p hq)
    refine (programsOnce_writeOps hpa p.2).append (ih hd hrest) fun o ho o' ho' => ?_
    obtain ⟨q, hq, ho'⟩ := List.mem_flatMap.mp ho'
    have hapart := hp q hq
    refine programs_apart (writeOps_within (Nat.le_refl _) (Nat.le_refl _) o ho)
      (writeOps_within (Nat.le_refl _) (Nat.le_refl _) o' ho') ?_
    simp only [WordsApart, padded] at hapart
    rcases hapart with h | h
    · exact .inl ⟨h, hrest q hq⟩
    · exact .inr ⟨h, hpa⟩

/-! ## Isolation -/

/-- The commands of a `blob_write` into `slot`: they work in the slot, then on the FAT page;
    no flash word is programmed twice, and the other slots keep their bytes. -/
structure Isolated (ram : Ram) (m : Mem) (slot : Slot) (L : List Op) : Prop where
  split : ∃ S F entry, L = S ++ F ∧
    (∀ o ∈ S, o.Within (blobSlotBase slot) (blobSlotBase slot + slotSize)) ∧
    F <+: fatOps ram.gFat slot entry
  once : ProgramsOnce L
  others : ∀ t ≠ slot,
    Mem.Agree (replay flashStep L m) m (blobSlotBase t) (blobSlotBase t + slotSize)

/-- The call is isolated however it ends, and keeps the other FAT entries: in RAM, and in
    flash when it succeeds. -/
def RunsIsolated (ram : Ram) (w : World) (slot : Slot) (res : Halt Op World (BlobStatus × Ram)) :
    Prop :=
  res.Sat
    (fun r w' L _ => Isolated ram w.flash slot L ∧ (∀ t ≠ slot, r.2.gFat t = ram.gFat t) ∧
      (r.1 = .ok → ∀ t ≠ slot, fatAt w'.flash t = ram.gFat t))
    (fun _ L => Isolated ram w.flash slot L)

section

variable {fw : Firmware} {ram : Ram} {w : World} {slot : Slot} {data : Bytes}
  {uuid : Vector UInt8 16} {ownerPinHash : Digest} {groupMask : UInt32} {r : BlobRecord}

theorem isolated_nil (ram : Ram) (m : Mem) (slot : Slot) : Isolated ram m slot [] where
  split := ⟨[], [], .erased, rfl, by simp, List.nil_prefix⟩
  once := List.Pairwise.nil
  others t _ := Mem.Agree.refl _ _ _

namespace BlobRecord

/-- Every area of a record starts at a flash word. -/
theorem areas_aligned : ∀ p ∈ r.areas fw, 8 ∣ p.1 := by
  intro p hp
  have hbase : 8 ∣ r.base := by
    simp only [base, blobSlotBase, flashBase, slotSize_eq]
    omega
  cases List.mem_append.mp hp with
  | inl hp =>
    obtain ⟨i, -, -, rfl | rfl⟩ := mem_chunksAreas.mp hp
    · simp only [chunkAddr, headerSize]
      omega
    · simp only [tagAddr, tagsOffset_eq]
      omega
  | inr hp =>
    obtain rfl := List.mem_singleton.mp hp
    exact hbase

section

variable (hgcm : fw.prim.GcmLaws) (hlen : r.data.length ≤ maxContentsSize)

include hgcm hlen

theorem programsOnce_ops (fat : Slot → FatEntry) : ProgramsOnce (r.ops fw fat uuid) := by
  have herases : ∀ o ∈ eraseSlotOps r.slot, ∃ a, o = .erase a := by
    intro o ho
    obtain ⟨i, -, rfl⟩ := List.mem_map.mp ho
    exact ⟨_, rfl⟩
  have hslot : ProgramsOnce (r.slotOps fw) := by
    refine (programsOnce_of_erases herases).append
      (programsOnce_areaOps (areas_pairwise hgcm hlen) areas_aligned) fun o ho o' _ word hp => ?_
    obtain ⟨a, rfl⟩ := herases o ho
    exact hp.1
  refine hslot.append (programsOnce_pageOps (by decide) _) fun o ho o' ho' => ?_
  exact programs_apart (slotOps_within hgcm hlen o ho) (fatOps_within _ _ _ o' ho')
    (.inl ⟨blobSlotBase_lt r.slot, by decide⟩)

/-- Every prefix of the commands of a record is isolated. -/
theorem isolated_take (m : Mem) (k : Nat) :
    Isolated ram m r.slot ((r.ops fw ram.gFat uuid).take k) := by
  have hsplit : (r.ops fw ram.gFat uuid).take k = (r.slotOps fw).take k ++
      (fatOps ram.gFat r.slot (r.fatEntry uuid)).take (k - (r.slotOps fw).length) :=
    List.take_append
  have hS : ∀ o ∈ (r.slotOps fw).take k,
      o.Within (blobSlotBase r.slot) (blobSlotBase r.slot + slotSize) := fun o ho =>
    slotOps_within hgcm hlen o (List.mem_of_mem_take ho)
  constructor
  · exact ⟨_, _, _, hsplit, hS, List.take_prefix _ _⟩
  · exact List.Pairwise.sublist (List.take_sublist _ _) (programsOnce_ops hgcm hlen ram.gFat)
  · intro t ht
    rw [hsplit]
    exact agree_of_split ht hS
      (fun o ho => BlobRecord.fatOps_within _ _ _ o (List.mem_of_mem_take ho)) m

end

/-- A complete run leaves the FAT in flash that it leaves in RAM. -/
theorem fatAt_ops (fat : Slot → FatEntry) (m : Mem) (t : Slot) :
    fatAt (replay flashStep (r.ops fw fat uuid) m) t =
      Function.update fat r.slot (r.fatEntry uuid) t := by
  rw [ops, Machine.replay_append, fatOps, replay_pageOps (length_fatPage _)]
  exact fatAt_rewritten_of_le (fatPieces_le t)

end BlobRecord

/-- A call that is refused at its entry does nothing. -/
theorem blobWrite_isolated_of_none
    (hsetup : blobWriteSetup fw slot data ownerPinHash groupMask (w.rng w.draws) = none)
    (fs : Schedule) :
    RunsIsolated ram w slot
      ((blobWrite fw (UInt8.ofNat slot) data uuid ownerPinHash groupMask).exec fs ram w) := by
  obtain ⟨rc, w', hexec, hrc⟩ := @blobWrite_refused fw _ slot data uuid ownerPinHash groupMask
    ram w (slotIsValid_ofNat slot) hsetup fs
  rw [hexec]
  exact ⟨isolated_nil _ _ _, fun _ _ => rfl, fun h => absurd h hrc⟩

/-- For a length that fits, `blob_write` is isolated under every schedule. -/
theorem blobWrite_isolated (hgcm : fw.prim.GcmLaws) (hlen : data.length ≤ maxContentsSize)
    (fs : Schedule) :
    RunsIsolated ram w slot
      ((blobWrite fw (UInt8.ofNat slot) data uuid ownerPinHash groupMask).exec fs ram w) := by
  cases hsetup : blobWriteSetup fw slot data ownerPinHash groupMask (w.rng w.draws) with
  | none => exact blobWrite_isolated_of_none hsetup fs
  | some r =>
    obtain ⟨rfl, rfl, -⟩ := blobWriteSetup_some hsetup
    have htake := @BlobRecord.isolated_take fw ram uuid r hgcm hlen w.flash
    have hflash := (blobWrite fw (UInt8.ofNat r.slot) r.data uuid ownerPinHash groupMask).flash_exec
      fs ram w
    have hend := (@blobWrite_attempts fw _ r.slot r.data uuid ownerPinHash groupMask ram w r hgcm
      (slotIsValid_ofNat r.slot) hsetup).ending fs
    generalize (blobWrite fw (UInt8.ofNat r.slot) r.data uuid ownerPinHash groupMask).exec fs ram
      w = res at hend hflash ⊢
    cases hend with
    | completed hd =>
      have hfull := htake (r.ops fw ram.gFat uuid).length
      rw [List.take_length] at hfull
      refine ⟨hfull, fun t ht => Function.update_of_ne ht _ _, fun _ t ht => ?_⟩
      rw [World.flash_after, World.flash_drawn, BlobRecord.fatAt_ops]
      exact Function.update_of_ne ht _ _
    | gaveUp hj hd hfs hb =>
      subst hb
      exact ⟨htake _, fun _ _ => rfl, fun h => by cases h⟩
    | cutOff hj hd hfs => exact htake _

/-- The tag of chunk 32 is programmed behind the end of the slot. -/
theorem BlobRecord.overflows (hlen : maxContentsSize < r.data.length) :
    Op.program (r.base + slotSize) (programWords
      (sealChunk fw r.masterKey r.nonce (buildAad r.draft) r.data 32).2.toList) ∈
      areaOps (r.chunks fw) := by
  refine List.mem_flatMap.mpr ⟨(tagAddr r.base 32, _), mem_chunksAreas.mpr
    ⟨32, Nat.zero_le _, ?_, .inr rfl⟩, ?_⟩
  · simp only [maxContentsSize] at hlen
    simp only [numChunks]
    omega
  · have hne : (sealChunk fw r.masterKey r.nonce (buildAad r.draft) r.data 32).2.toList ≠ [] :=
      List.ne_nil_of_length_pos (by simp)
    rw [writeOps_cons hne, List.take_of_length_le (by simp)]
    exact List.mem_cons_self

/-- A longer file is not isolated even without faults. -/
theorem blobWrite_not_isolated (hgcm : fw.prim.GcmLaws) (hlen : maxContentsSize < data.length)
    (hsetup : blobWriteSetup fw slot data ownerPinHash groupMask (w.rng w.draws) = some r) :
    ¬ RunsIsolated ram w slot
      ((blobWrite fw (UInt8.ofNat slot) data uuid ownerPinHash groupMask).exec [] ram w) := by
  intro h
  have hruns := (@blobWrite_attempts fw _ slot data uuid ownerPinHash groupMask ram w r hgcm
    (slotIsValid_ofNat slot) hsetup).runs
  obtain ⟨rfl, rfl, -⟩ := blobWriteSetup_some hsetup
  rw [show Dev.exec _ [] ram w = _ from hruns] at h
  obtain ⟨⟨⟨S, F, entry, hL, hS, hF⟩, -, -⟩, -, -⟩ := h
  -- The command behind the slot is not in `S`, and comes before the FAT is erased.
  have hmem := @BlobRecord.overflows fw r hlen
  have hout : Op.program (r.base + slotSize) (programWords
      (sealChunk fw r.masterKey r.nonce (buildAad r.draft) r.data 32).2.toList) ∉ S := by
    intro hin
    have hwithin := hS _ hin
    have hpos : 0 < (programWords
        (sealChunk fw r.masterKey r.nonce (buildAad r.draft) r.data 32).2.toList).length := by
      rw [length_programWords (by simp)]
      simp
    obtain ⟨-, h₂⟩ := hwithin
    simp only [BlobRecord.base] at h₂
    omega
  have hnoErase : ∀ o ∈ eraseSlotOps r.slot ++ areaOps (r.chunks fw), o ≠ .erase fatAddr := by
    rintro o ho rfl
    cases List.mem_append.mp ho with
    | inl ho =>
      have hwithin := eraseSlotOps_within r.slot _ ho
      have hbase := blobSlotBase_lt r.slot
      simp only [Op.Within, fatAddr, pageSize] at hwithin hbase
      omega
    | inr ho =>
      obtain ⟨p, -, ho⟩ := List.mem_flatMap.mp ho
      obtain ⟨i, -, hi⟩ := List.mem_map.mp ho
      cases hi
  rw [BlobRecord.ops, BlobRecord.slotOps_eq, List.append_assoc] at hL
  have hin := List.mem_append_right (eraseSlotOps r.slot) hmem
  rcases List.append_eq_append_iff.mp hL with ⟨l, rfl, -⟩ | ⟨l, hP, hFl⟩
  · exact hout (List.mem_append_left _ hin)
  · cases l with
    | nil =>
      rw [List.append_nil] at hP
      exact hout (hP ▸ hin)
    | cons o l =>
      rw [hFl] at hF
      obtain ⟨rfl, -⟩ := List.cons_prefix_cons.mp hF
      exact hnoErase (.erase fatAddr) (by simp [hP]) rfl

/-- `blob_write` is isolated under every schedule exactly when the file has at most 8192
    bytes, or it is refused before the first flash command. -/
theorem blobWrite_isolated_iff (fw : Firmware) (hgcm : fw.prim.GcmLaws) (slot : Slot) (data : Bytes)
    (uuid : Vector UInt8 16) (ownerPinHash : Digest) (groupMask : UInt32) (ram : Ram) (w : World) :
    (∀ fs, RunsIsolated ram w slot
      ((blobWrite fw (UInt8.ofNat slot) data uuid ownerPinHash groupMask).exec fs ram w)) ↔
      data.length ≤ maxContentsSize ∨
        blobWriteSetup fw slot data ownerPinHash groupMask (w.rng w.draws) = none := by
  constructor
  · intro h
    by_contra hcon
    obtain ⟨hlen, hsetup⟩ := not_or.mp hcon
    obtain ⟨r, hr⟩ := Option.ne_none_iff_exists'.mp hsetup
    exact blobWrite_not_isolated hgcm (Nat.not_le.mp hlen) hr (h [])
  · rintro (hlen | hnone) fs
    · exact blobWrite_isolated hgcm hlen fs
    · exact blobWrite_isolated_of_none hnone fs

end

/-! ## On the sample device -/

/-- A file of 8193 bytes is accepted, and its last tag is programmed behind the slot. -/
theorem blobWrite_overflows :
    ¬ RunsIsolated .sample .sample 0
      ((blobWrite .sample (UInt8.ofNat (0 : Slot)) (List.replicate 8193 0) (.replicate 16 0)
        (.replicate 32 0) 1).exec [] .sample .sample) := by
  have hlen : (List.replicate 8193 (0 : UInt8)).length = 8193 := List.length_replicate
  have hsetup : ∃ r, blobWriteSetup .sample 0 (List.replicate 8193 0) (.replicate 32 0) 1
      (World.sample.rng World.sample.draws) = some r := by
    rw [blobWriteSetup, Firmware.sample_rootSecret, hlen, if_neg (by decide), Option.bind_some,
      show (1 : UInt32) = (1 : UInt16).toUInt32 from rfl, deriveFileKey_toUInt32]
    exact ⟨_, rfl⟩
  obtain ⟨r, hr⟩ := hsetup
  exact blobWrite_not_isolated Firmware.sample_gcmLaws (by rw [hlen]; decide) hr

theorem blobWrite_isolated_iff_sample :
    (∀ fs, RunsIsolated .sample .sample 0
      ((blobWrite .sample (UInt8.ofNat (0 : Slot)) sampleContents (.replicate 16 0) (.replicate 32 0)
        1).exec fs .sample .sample)) ↔
      sampleContents.length ≤ maxContentsSize ∨
        blobWriteSetup .sample 0 sampleContents (.replicate 32 0) 1
          (World.sample.rng World.sample.draws) = none :=
  blobWrite_isolated_iff .sample Firmware.sample_gcmLaws 0 sampleContents _ _ 1 .sample .sample
