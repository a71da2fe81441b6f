-- SUMMARY: Reading a slot through any FAT entry and behind any prefix of a record write: what is still readable, and what already.
import HsmFirmware.Specs.PowerLoss

/-!
# Partial records

A record is readable when its header is valid, the FAT entry gives its place and length,
and its chunks and blob tag are intact. The first erase of a rewrite destroys the header,
and the header is programmed last, in two pieces.
-/

open Machine (replay)

/-! ## Headers and FAT entries -/

/-- The entry stands for a record of `len` bytes in its slot. -/
def FatEntry.Locates (entry : FatEntry) (slot : Slot) (len : Nat) : Prop :=
  entry.flashAddr = UInt32.ofNat (blobSlotBase slot) ∧ entry.length.toNat = headerSize + len

instance (entry : FatEntry) (slot : Slot) (len : Nat) : Decidable (entry.Locates slot len) :=
  inferInstanceAs (Decidable (_ ∧ _))

/-- The header is one of a record in its slot. -/
def Header.Valid (header : Header) (slot : Slot) : Prop :=
  header.magic = blobMagic ∧ header.version = blobVersion ∧ header.slot = UInt16.ofNat slot ∧
    header.plaintextLen.toNat ≤ slotSize - headerSize

/-- The header flash holds for a slot. -/
def headerAt (m : Mem) (slot : Slot) : Header :=
  Header.codec.decode (m.read (blobSlotBase slot) headerSize)

section

variable {fw : Firmware} {m m' : Mem} {slot : Slot} {fat fat' : Slot → FatEntry} {header : Header}
  {owner : Option Digest} {groupMask : UInt32} {d : Bytes}

theorem FatEntry.Locates.isEmpty {entry : FatEntry} {len : Nat} (h : entry.Locates slot len) :
    entry.isEmpty = false := by
  have hbase := blobSlotBase_lt slot
  simp only [slotSize_eq, fatAddr] at hbase
  rw [FatEntry.isEmpty, beq_eq_false_iff_ne, h.1]
  intro heq
  have hnat := congrArg UInt32.toNat heq
  rw [toNat_blobSlotBase] at hnat
  have hempty : blobEmptyU32.toNat = 4294967295 := rfl
  omega

/-- A header is loaded when it is valid and the entry gives its place and length. -/
theorem loadHeader_eq_ok : loadHeader m fat slot = .ok header ↔
    header = headerAt m slot ∧ header.Valid slot ∧
      (fat slot).Locates slot header.plaintextLen.toNat := by
  constructor
  · intro h
    simp only [loadHeader] at h
    split at h
    · cases h
    rename_i hused
    split at h
    · cases h
    rename_i hentry
    split at h
    · cases h
    rename_i hheader
    have haddr : (fat slot).flashAddr = UInt32.ofNat (blobSlotBase slot) :=
      not_not.mp fun hne => hentry (.inl hne)
    rw [haddr, toNat_blobSlotBase] at h hheader
    obtain rfl := Except.ok.inj h
    simp only [not_or, not_not, Nat.not_lt] at hheader
    obtain ⟨hmagic, hversion, hslot, hmax, hlen⟩ := hheader
    exact ⟨rfl, ⟨hmagic, hversion, hslot, hmax⟩, haddr, hlen⟩
  · rintro ⟨rfl, ⟨hmagic, hversion, hslot, hmax⟩, haddr, hlen⟩
    have hused : ¬ (fat slot).isEmpty = true := by
      rw [FatEntry.Locates.isEmpty ⟨haddr, hlen⟩]
      exact Bool.false_ne_true
    have hentry : ¬ ((fat slot).flashAddr ≠ UInt32.ofNat (blobSlotBase slot) ∨
        (fat slot).length.toNat < headerSize ∨ slotSize < (fat slot).length.toNat) := by
      simp only [slotSize_eq, headerSize] at hmax hlen ⊢
      rintro (h | h | h)
      · exact h haddr
      · omega
      · omega
    simp only [loadHeader]
    rw [if_neg hused, if_neg hentry, haddr, toNat_blobSlotBase]
    refine if_neg ?_
    rintro (h | h | h | h | h)
    · exact h hmagic
    · exact h hversion
    · exact h hslot
    · exact Nat.not_lt.mpr hmax h
    · exact h hlen

/-- Nothing is readable behind an erased header. -/
theorem recordContents_erased
    (h : m.Erased (blobSlotBase slot) (blobSlotBase slot + headerSize)) :
    recordContents fw m fat slot owner groupMask = none := by
  cases hcontents : recordContents fw m fat slot owner groupMask with
  | none => rfl
  | some d =>
    obtain ⟨header, hload, -⟩ := recordContents_some hcontents
    obtain ⟨rfl, ⟨hmagic, -⟩, -⟩ := loadHeader_eq_ok.mp hload
    rw [headerAt, h.read (Nat.le_refl _) (Nat.le_refl _)] at hmagic
    exact absurd hmagic (by decide)

end

/-- The first erase of a slot is the one of the page of the header. -/
theorem erased_header_take (slot : Slot) {j : Nat} (hj : j ≠ 0) (m : Mem) :
    Mem.Erased (replay flashStep ((eraseSlotOps slot).take j) m) (blobSlotBase slot)
      (blobSlotBase slot + headerSize) := by
  have hpages := erased_take_eraseSlotOps slot (min j 12) (Nat.min_le_right _ _) m
  have htake : (eraseSlotOps slot).take (min j 12) = (eraseSlotOps slot).take j := by
    rw [← length_eraseSlotOps slot, ← List.take_eq_take_min]
  rw [htake] at hpages
  apply hpages.mono (Nat.le_refl _)
  have hpos : 1 ≤ min j 12 := by omega
  have hpage : 1 * pageSize ≤ min j 12 * pageSize := Nat.mul_le_mul_right _ hpos
  simp only [pageSize, headerSize] at hpage ⊢
  omega

/-! ## Records with another blob tag -/

namespace BlobRecord

variable {fw : Firmware} {r : BlobRecord} {m m' : Mem} {tag : Digest}

/-- The header with another blob tag. -/
def headerWith (r : BlobRecord) (tag : Digest) : Header := { r.draft with blobTag := tag }

/-- Flash holds the chunks of the record, and its header with this blob tag. -/
structure HeldWith (fw : Firmware) (r : BlobRecord) (tag : Digest) (m : Mem) : Prop where
  header : m.read r.base headerSize = Header.codec.encode (r.headerWith tag)
  ct : ∀ i < numChunks r.data.length, m.read (chunkAddr r.base i) (chunkLen r.data.length i) =
    (sealChunk fw r.masterKey r.nonce (buildAad r.draft) r.data i).1
  tag : ∀ i < numChunks r.data.length, storedTag m r.base i =
    (sealChunk fw r.masterKey r.nonce (buildAad r.draft) r.data i).2

/-- The blob tag of the record. -/
def blobTag (fw : Firmware) (r : BlobRecord) : Digest := (r.header fw).blobTag

/-- What the chunks read as decides what they open to. -/
theorem openChunks_reads {masterKey : Key} {nonce : Nonce} {aad : Bytes} {base len i n : Nat}
    (hct : ∀ j < i + n, m.read (chunkAddr base j) (chunkLen len j) =
      m'.read (chunkAddr base j) (chunkLen len j))
    (htag : ∀ j < i + n, storedTag m base j = storedTag m' base j) :
    openChunks fw masterKey nonce aad m base len i n =
      openChunks fw masterKey nonce aad m' base len i n := by
  induction n generalizing i with
  | zero => rfl
  | succ n ih =>
    have hrest := @ih (i + 1) (fun j hj => hct j (by omega)) (fun j hj => htag j (by omega))
    simp only [openChunks, openChunk, hct i (by omega), htag i (by omega), hrest]

theorem storedTags_reads {base i n : Nat}
    (htag : ∀ j < i + n, storedTag m base j = storedTag m' base j) :
    storedTags m base i n = storedTags m' base i n := by
  induction n generalizing i with
  | zero => rw [storedTags_zero, storedTags_zero]
  | succ n ih =>
    rw [storedTags_succ, storedTags_succ, htag i (by omega), ih fun j hj => htag j (by omega)]

/-- The chunks of a record open to its data, and their tags are those of the blob tag. -/
theorem HeldWith.opens (hgcm : fw.prim.GcmLaws) (h : r.HeldWith fw tag m)
    (hlen : r.data.length ≤ maxContentsSize) :
    openChunks fw r.masterKey r.nonce (buildAad r.draft) m r.base r.data.length 0
        (numChunks r.data.length) = some r.data ∧
      fw.prim.hmac r.masterKey.toList (fw.prim.sha256
        (storedTags m r.base 0 (numChunks r.data.length))).toList = r.blobTag fw := by
  -- As in a memory that holds the whole record.
  have hstored : r.StoredIn fw (Mem.programAll (r.areas fw) fun _ => 0xFF) :=
    storedIn_programAll hgcm hlen fun _ _ _ => rfl
  have hct : ∀ j < 0 + numChunks r.data.length,
      m.read (chunkAddr r.base j) (chunkLen r.data.length j) =
        (Mem.programAll (r.areas fw) fun _ => 0xFF).read (chunkAddr r.base j)
          (chunkLen r.data.length j) := by
    intro j hj
    rw [Nat.zero_add] at hj
    exact (h.ct j hj).trans (hstored.ct j hj).symm
  have htag : ∀ j < 0 + numChunks r.data.length, storedTag m r.base j =
      storedTag (Mem.programAll (r.areas fw) fun _ => 0xFF) r.base j := by
    intro j hj
    rw [Nat.zero_add] at hj
    exact (h.tag j hj).trans (hstored.tag j hj).symm
  rw [openChunks_reads hct htag, storedTags_reads htag, hstored.tags_eq (Nat.zero_add _).le]
  exact ⟨hstored.opens hgcm (Nat.zero_add _), rfl⟩

/-- What a reader gets when the record is readable: the data, if group and owner are right. -/
def contentsFor (r : BlobRecord) (owner : Option Digest) (groupMask : UInt32) : Option Bytes :=
  if groupMask &&& r.groupMask = 0 ∨ (owner ≠ none ∧ owner ≠ some r.ownerPinHash) then none
  else some r.data

/-- A record is readable just when the FAT entry gives its place and length and the blob tag is
    right. -/
theorem HeldWith.contents (hgcm : fw.prim.GcmLaws) (h : r.HeldWith fw tag m)
    (hlen : r.data.length ≤ maxContentsSize)
    (hkey : (securityGetRootSecret fw).bind (fun root => deriveFileKey fw root r.groupMask) =
      some r.masterKey) {fat : Slot → FatEntry} {owner : Option Digest} {groupMask : UInt32} :
    recordContents fw m fat r.slot owner groupMask =
      if (fat r.slot).Locates r.slot r.data.length ∧ tag = r.blobTag fw then
        r.contentsFor owner groupMask
      else none := by
  have hheader : headerAt m r.slot = r.headerWith tag := by
    rw [headerAt, show blobSlotBase r.slot = r.base from rfl, h.header, Codec.decode_encode']
  have hplain : (r.headerWith tag).plaintextLen.toNat = r.data.length := @toNat_plaintextLen fw r hlen
  obtain ⟨hopen, htag⟩ := h.opens hgcm hlen
  split
  · rename_i hright
    obtain ⟨hlocates, rfl⟩ := hright
    have hload : loadHeader m fat r.slot = .ok (r.headerWith (r.blobTag fw)) := by
      refine loadHeader_eq_ok.mpr ⟨hheader.symm, ⟨rfl, rfl, rfl, ?_⟩, ?_⟩
      · rw [hplain]
        exact hlen.trans (by decide)
      · rw [hplain]
        exact hlocates
    have hrecord : openRecord fw m r.slot (r.headerWith (r.blobTag fw)) = some r.data := by
      simp only [openRecord, show (r.headerWith (r.blobTag fw)).groupMask = r.groupMask from rfl,
        hkey, hplain]
      have hchunks : openChunks fw r.masterKey (r.headerWith (r.blobTag fw)).nonce
          (buildAad (r.headerWith (r.blobTag fw))) m (blobSlotBase r.slot) r.data.length 0
          (numChunks r.data.length) = some r.data := hopen
      rw [hchunks]
      exact if_pos htag
    have hfits : ¬ maxContentsSize < (r.headerWith (r.blobTag fw)).plaintextLen.toNat := by
      rw [hplain]
      exact Nat.not_lt.mpr hlen
    simp only [recordContents, hload, hrecord, hfits, or_false]
    exact rfl
  · rename_i hnot
    cases hcontents : recordContents fw m fat r.slot owner groupMask with
    | none => rfl
    | some d =>
      obtain ⟨header, hload, -, -, -, hrecord⟩ := recordContents_some hcontents
      obtain ⟨rfl, -, hlocates⟩ := loadHeader_eq_ok.mp hload
      rw [hheader, hplain] at hlocates
      obtain ⟨masterKey, hkey', -, hmac⟩ := openRecord_some hrecord
      rw [hheader] at hkey' hmac
      obtain rfl : r.masterKey = masterKey := Option.some.inj (hkey.symm.trans hkey')
      rw [hplain] at hmac
      exact absurd ⟨hlocates, hmac.symm.trans htag⟩ hnot

/-! ## A record in the making -/

/-- The first commands of a record erase its slot; what has been programmed of the header by the
    end is in front of the erased rest of it. -/
theorem replay_take_slotOps (hgcm : fw.prim.GcmLaws) (hlen : r.data.length ≤ maxContentsSize)
    {j : Nat} (hj : j ≠ 0) (m : Mem) :
    ∃ m', Mem.Erased m' r.base (r.base + headerSize) ∧
      replay flashStep ((r.slotOps fw).take j) m = m'.program r.base
        ((Header.codec.encode (r.header fw)).take (64 * (j + 2 - (r.slotOps fw).length))) := by
  have hlength : (r.slotOps fw).length = 12 + (areaOps (r.chunks fw)).length + 2 := by
    rw [slotOps_eq, List.length_append, List.length_append, length_eraseSlotOps, length_writeOps,
      Codec.length_encode]
    rfl
  refine ⟨replay flashStep ((areaOps (r.chunks fw)).take (j - 12))
    (replay flashStep ((eraseSlotOps r.slot).take j) m), ?_, ?_⟩
  · have hfirst : Mem.Erased (replay flashStep ((eraseSlotOps r.slot).take j) m) r.base
        (r.base + headerSize) := erased_header_take r.slot hj m
    have hchunks : ∀ o ∈ (areaOps (r.chunks fw)).take (j - 12),
        o.Within (r.base + headerSize) (r.base + slotSize) := by
      intro o ho
      exact areaOps_within (chunksAreas_within hgcm hlen (Nat.zero_add _).le) o
        (List.mem_of_mem_take ho)
    exact hfirst.of_agree (agree_replay hchunks (.inl (Nat.le_refl _)) _)
  · rw [slotOps_eq, List.take_append, List.take_append, Machine.replay_append,
      Machine.replay_append, replay_take_writeOps, List.length_append, length_eraseSlotOps,
      ← slotOps_eq, hlength]
    congr 3
    omega

end BlobRecord
