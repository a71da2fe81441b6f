-- SUMMARY: Records in closed form: the chunks of a file, sealed and opened one by one, and where they stand in a slot.
import HsmFirmware.Specs.Flash
import HsmFirmware.Firmware.SecureBlobStore

/-!
# Records

A file is cut into chunks of 256 bytes. Chunk `i` is encrypted under a key of its
own, its ciphertext stands behind the header and its tag in the tag area. Here
this is said chunk by chunk; the two loops of the blob store are shown to agree.
-/

open Machine (replay)

/-! ## Chunks -/

/-- The number of chunks of a file of `len` bytes. -/
def numChunks (len : Nat) : Nat := (len + 255) / 256

/-- Chunk `i` of a file. -/
def chunk (data : Bytes) (i : Nat) : Bytes := (data.drop (256 * i)).take 256

/-- The size of chunk `i` of a file of `len` bytes. -/
def chunkLen (len i : Nat) : Nat := min (len - 256 * i) 256

@[simp] theorem length_chunk (data : Bytes) (i : Nat) :
    (chunk data i).length = chunkLen data.length i := by
  simp [chunk, chunkLen, Nat.min_comm]

theorem chunkLen_le (len i : Nat) : chunkLen len i ≤ 256 := Nat.min_le_right _ _

section

variable (fw : Firmware) (masterKey : Key) (nonce : Nonce) (aad : Bytes)

/-! ## Sealing -/

/-- The ciphertext and the tag of chunk `i`. -/
def sealChunk (data : Bytes) (i : Nat) : Bytes × Tag :=
  (secureCryptoAesGcmEncrypt fw.prim
    (secureCryptoDeriveChunkKey fw.prim masterKey (UInt32.ofNat i)) nonce aad
    (chunk data i)).getD ([], .replicate 16 0)

/-- The tags of chunks `i` to `i + n - 1`. -/
def sealedTags (data : Bytes) (i n : Nat) : Bytes :=
  (List.range' i n).flatMap fun j => (sealChunk fw masterKey nonce aad data j).2.toList

/-- Where the ciphertext of chunk `i` stands. -/
def chunkAddr (base i : Nat) : Nat := base + headerSize + 256 * i

/-- Where the tag of chunk `i` stands. -/
def tagAddr (base i : Nat) : Nat := base + tagsOffset + 16 * i

/-- The two areas of chunk `i`. -/
def chunkAreas (base : Nat) (data : Bytes) (i : Nat) : List (Nat × Bytes) :=
  [(chunkAddr base i, (sealChunk fw masterKey nonce aad data i).1),
    (tagAddr base i, (sealChunk fw masterKey nonce aad data i).2.toList)]

/-- The commands that write areas one after the other. -/
def areaOps (areas : List (Nat × Bytes)) : List Op :=
  areas.flatMap fun p => writeOps p.1 p.2

/-- The areas of the chunks from `i` on. -/
def chunksAreas (base : Nat) (data : Bytes) (i n : Nat) : List (Nat × Bytes) :=
  (List.range' i n).flatMap (chunkAreas fw masterKey nonce aad base data)

end

theorem areaOps_append (areas areas' : List (Nat × Bytes)) :
    areaOps (areas ++ areas') = areaOps areas ++ areaOps areas' := by
  simp [areaOps]

theorem replay_areaOps (areas : List (Nat × Bytes)) (m : Mem) :
    replay flashStep (areaOps areas) m = Mem.programAll areas m := by
  induction areas generalizing m with
  | nil => rfl
  | cons p areas ih =>
    rw [show areaOps (p :: areas) = writeOps p.1 p.2 ++ areaOps areas from rfl,
      Machine.replay_append, replay_writeOps, ih, Mem.programAll]

section

variable {fw : Firmware} {masterKey : Key} {nonce : Nonce} {aad : Bytes}

theorem encrypt_chunk (hgcm : fw.prim.GcmLaws) (data : Bytes) (i : Nat) :
    secureCryptoAesGcmEncrypt fw.prim
        (secureCryptoDeriveChunkKey fw.prim masterKey (UInt32.ofNat i)) nonce aad (chunk data i) =
      some (sealChunk fw masterKey nonce aad data i) := by
  obtain ⟨ct, tag, h⟩ := hgcm.encrypts
    (secureCryptoDeriveChunkKey fw.prim masterKey (UInt32.ofNat i)) nonce aad (chunk data i)
  rw [sealChunk, h, Option.getD_some]

theorem length_sealChunk (hgcm : fw.prim.GcmLaws) (data : Bytes) (i : Nat) :
    (sealChunk fw masterKey nonce aad data i).1.length = chunkLen data.length i := by
  have h := @encrypt_chunk fw masterKey nonce aad hgcm data i
  exact (secureCryptoAesGcmEncrypt_length h).trans (length_chunk data i)

@[simp] theorem chunksAreas_zero (base : Nat) (data : Bytes) (i : Nat) :
    chunksAreas fw masterKey nonce aad base data i 0 = [] := rfl

theorem chunksAreas_succ (base : Nat) (data : Bytes) (i n : Nat) :
    chunksAreas fw masterKey nonce aad base data i (n + 1) =
      chunkAreas fw masterKey nonce aad base data i ++
        chunksAreas fw masterKey nonce aad base data (i + 1) n := by
  simp [chunksAreas, List.range'_succ]

theorem areaOps_chunkAreas (base : Nat) (data : Bytes) (i : Nat) :
    areaOps (chunkAreas fw masterKey nonce aad base data i) =
      writeOps (chunkAddr base i) (sealChunk fw masterKey nonce aad data i).1 ++
        writeOps (tagAddr base i) (sealChunk fw masterKey nonce aad data i).2.toList := by
  simp [areaOps, chunkAreas]

theorem areaOps_chunksAreas_succ (base : Nat) (data : Bytes) (i n : Nat) :
    areaOps (chunksAreas fw masterKey nonce aad base data i (n + 1)) =
      writeOps (chunkAddr base i) (sealChunk fw masterKey nonce aad data i).1 ++
        (writeOps (tagAddr base i) (sealChunk fw masterKey nonce aad data i).2.toList ++
          areaOps (chunksAreas fw masterKey nonce aad base data (i + 1) n)) := by
  rw [chunksAreas_succ, areaOps_append, areaOps_chunkAreas, List.append_assoc]

@[simp] theorem sealedTags_zero (data : Bytes) (i : Nat) :
    sealedTags fw masterKey nonce aad data i 0 = [] := rfl

theorem sealedTags_succ (data : Bytes) (i n : Nat) :
    sealedTags fw masterKey nonce aad data i (n + 1) =
      (sealChunk fw masterKey nonce aad data i).2.toList ++
        sealedTags fw masterKey nonce aad data (i + 1) n := by
  simp [sealedTags, List.range'_succ]

/-- The loop of `blob_write` writes the areas of the chunks that are left. -/
theorem blobWriteChunks_attempts (hgcm : fw.prim.GcmLaws) (base : Nat) (data : Bytes)
    (hlen : data.length < UInt32.size) {i n processed : Nat} {shaCtx : Bytes}
    (hn : n = numChunks data.length - i) (hi : i ≤ numChunks data.length)
    (hp : n ≠ 0 → processed = 256 * i) (ram : Ram) (w : World) :
    (blobWriteChunks fw masterKey nonce aad base (data.drop (256 * i)) processed
        (UInt32.ofNat i) shaCtx).Attempts ram w
      (.ok (shaCtx ++ sealedTags fw masterKey nonce aad data i n)) ram
      (w.after (areaOps (chunksAreas fw masterKey nonce aad base data i n)))
      (areaOps (chunksAreas fw masterKey nonce aad base data i n))
      (· = (.error .ioError, ram)) := by
  induction n generalizing i processed shaCtx w with
  | zero =>
    have hnil : data.drop (256 * i) = [] := by
      simp only [numChunks] at hn hi
      exact List.drop_eq_nil_of_le (by omega)
    rw [blobWriteChunks, if_pos hnil, show sealedTags fw masterKey nonce aad data i 0 = [] from rfl,
      List.append_nil]
    exact Dev.Attempts.pure
  | succ n ih =>
    have hne : data.drop (256 * i) ≠ [] := by
      simp only [numChunks] at hn hi
      exact List.ne_nil_of_length_pos (by simp; omega)
    have hidx : (UInt32.ofNat i).toNat = i := by
      simp only [numChunks] at hn
      exact UInt32.toNat_ofNat_of_lt' (by omega)
    have hproc := hp (Nat.succ_ne_zero n)
    subst hproc
    rw [blobWriteChunks, if_neg hne]
    simp only [show (data.drop (256 * i)).take chunkSize = chunk data i from rfl,
      encrypt_chunk hgcm data i, hidx]
    -- Ciphertext, tag, and the rest of the loop.
    have hrest := @ih (i + 1) (256 * i + (chunk data i).length)
      (shaCtx ++ (sealChunk fw masterKey nonce aad data i).2.toList) (by omega) (by omega)
      (by
        intro hn0
        simp only [numChunks] at hn
        simp only [length_chunk, chunkLen]
        omega)
      (w.after (areaOps (chunkAreas fw masterKey nonce aad base data i)))
    rw [show 256 * (i + 1) = 256 * i + chunkSize from rfl, ← List.drop_drop,
      show UInt32.ofNat (i + 1) = UInt32.ofNat i + 1 from UInt32.ofNat_add i 1,
      List.append_assoc, ← sealedTags_succ,
      ← World.after_append, ← areaOps_append, ← chunksAreas_succ] at hrest
    have haddr : base + tagsOffset + i * tagSize = tagAddr base i := by
      simp only [tagAddr, tagSize]
      omega
    rw [haddr, areaOps_chunksAreas_succ]
    refine checkedWrite_attempts ?_ rfl
    refine checkedWrite_attempts ?_ rfl
    rw [areaOps_chunkAreas, areaOps_chunksAreas_succ] at hrest
    rw [← World.after_append]
    exact hrest

/-! ## Layout

The size of an area as it is programmed, in whole flash words, is what must not
overlap. -/

/-- The bytes programmed for a write of `n` bytes. -/
def padded (n : Nat) : Nat := (n + 7) / 8 * 8

/-- Two areas have no flash word in common. -/
def WordsApart (p q : Nat × Bytes) : Prop :=
  p.1 + padded p.2.length ≤ q.1 ∨ q.1 + padded q.2.length ≤ p.1

theorem WordsApart.apart {p q : Nat × Bytes} (h : WordsApart p q) : Mem.Apart p q := by
  simp only [WordsApart, padded] at h
  simp only [Mem.Apart]
  omega

theorem mem_chunksAreas {base : Nat} {data : Bytes} {i n : Nat} {p : Nat × Bytes} :
    p ∈ chunksAreas fw masterKey nonce aad base data i n ↔
      ∃ j, i ≤ j ∧ j < i + n ∧
        (p = (chunkAddr base j, (sealChunk fw masterKey nonce aad data j).1) ∨
          p = (tagAddr base j, (sealChunk fw masterKey nonce aad data j).2.toList)) := by
  simp only [chunksAreas, List.mem_flatMap, List.mem_range'_1, chunkAreas, List.mem_cons,
    List.not_mem_nil, or_false]
  constructor
  · rintro ⟨j, ⟨h₁, h₂⟩, h⟩
    exact ⟨j, h₁, h₂, h⟩
  · rintro ⟨j, h₁, h₂, h⟩
    exact ⟨j, ⟨h₁, h₂⟩, h⟩

section Layout

variable (hgcm : fw.prim.GcmLaws) {base : Nat} {data : Bytes} {header : Header}

include hgcm

/-- The areas of the chunks of a file lie between the header and the end of the slot,
    as long as the file has at most 32 chunks. -/
theorem chunksAreas_within (hlen : data.length ≤ maxContentsSize) {i n : Nat}
    (hn : i + n ≤ numChunks data.length) :
    ∀ p ∈ chunksAreas fw masterKey nonce aad base data i n,
      base + headerSize ≤ p.1 ∧ p.1 + padded p.2.length ≤ base + slotSize := by
  intro p hp
  obtain ⟨j, hij, hj, hp⟩ := mem_chunksAreas.mp hp
  simp only [numChunks, maxContentsSize] at hn hlen
  rcases hp with rfl | rfl
  · simp only [chunkAddr, headerSize, padded, length_sealChunk hgcm, chunkLen, slotSize_eq]
    omega
  · simp only [tagAddr, tagsOffset_eq, headerSize, padded, Vector.length_toList, slotSize_eq]
    omega

theorem chunksAreas_pairwise (hlen : data.length ≤ maxContentsSize) {i n : Nat}
    (hn : i + n ≤ numChunks data.length) :
    (chunksAreas fw masterKey nonce aad base data i n).Pairwise WordsApart := by
  induction n generalizing i with
  | zero => exact List.Pairwise.nil
  | succ n ih =>
    simp only [maxContentsSize] at hlen
    have hn' := hn
    simp only [numChunks] at hn'
    rw [chunksAreas_succ, List.pairwise_append]
    refine ⟨?_, ih (by omega), ?_⟩
    · refine List.pairwise_pair.mpr (.inl ?_)
      simp only [chunkAddr, tagAddr, tagsOffset_eq, headerSize, padded, length_sealChunk hgcm,
        chunkLen]
      omega
    · intro p hp q hq
      obtain ⟨j, hij, hj, hq⟩ := mem_chunksAreas.mp hq
      have hp' : p = (chunkAddr base i, (sealChunk fw masterKey nonce aad data i).1) ∨
          p = (tagAddr base i, (sealChunk fw masterKey nonce aad data i).2.toList) := by
        simpa [chunkAreas] using hp
      rcases hp' with rfl | rfl <;> rcases hq with rfl | rfl <;>
        simp only [WordsApart, chunkAddr, tagAddr, tagsOffset_eq, headerSize, padded,
          length_sealChunk hgcm, chunkLen, Vector.length_toList] <;> omega

end Layout

end

/-! ## Records of the blob store -/

/-- What one `blob_write` puts into a slot, besides the uuid. -/
structure BlobRecord where
  slot : Slot
  data : Bytes
  ownerPinHash : Digest
  groupMask : UInt32
  nonce : Nonce
  masterKey : Key

namespace BlobRecord

variable (fw : Firmware) (r : BlobRecord)

/-- Where the slot begins. -/
def base : Nat := blobSlotBase r.slot

/-- The header before the blob tag is known. -/
def draft : Header :=
  blobWriteHeader r.slot r.data.length r.ownerPinHash r.groupMask r.nonce

/-- The tags of all chunks. -/
def tags : Bytes :=
  sealedTags fw r.masterKey r.nonce (buildAad r.draft) r.data 0 (numChunks r.data.length)

def header : Header :=
  { r.draft with blobTag := fw.prim.hmac r.masterKey.toList (fw.prim.sha256 (r.tags fw)).toList }

def fatEntry (uuid : Vector UInt8 16) : FatEntry where
  uuid := uuid
  length := UInt16.ofNat (headerSize + r.data.length)
  padding := 0
  flashAddr := UInt32.ofNat r.base

/-- The areas of the chunks. -/
def chunks : List (Nat × Bytes) :=
  chunksAreas fw r.masterKey r.nonce (buildAad r.draft) r.base r.data 0 (numChunks r.data.length)

/-- The areas of the record: its chunks, then the header. -/
def areas : List (Nat × Bytes) := r.chunks fw ++ [(r.base, Header.codec.encode (r.header fw))]

variable {fw r}

section

variable (hgcm : fw.prim.GcmLaws) (hlen : r.data.length ≤ maxContentsSize)

include hgcm hlen

theorem areas_within :
    ∀ p ∈ r.areas fw, r.base ≤ p.1 ∧ p.1 + padded p.2.length ≤ r.base + slotSize := by
  intro p hp
  cases List.mem_append.mp hp with
  | inl h =>
    obtain ⟨h₁, h₂⟩ := chunksAreas_within hgcm hlen (Nat.zero_add _).le p h
    exact ⟨by omega, h₂⟩
  | inr h =>
    obtain rfl := List.mem_singleton.mp h
    simp [padded]

theorem areas_pairwise : (r.areas fw).Pairwise WordsApart := by
  refine List.pairwise_append.mpr
    ⟨chunksAreas_pairwise hgcm hlen (Nat.zero_add _).le, List.pairwise_singleton _ _, ?_⟩
  intro p hp q hq
  obtain rfl := List.mem_singleton.mp hq
  obtain ⟨h, -⟩ := chunksAreas_within hgcm hlen (Nat.zero_add _).le p hp
  refine .inr ?_
  simpa [padded, headerSize] using h

/-- A record programmed into an erased slot reads back, area by area. -/
theorem read_areas {m : Mem} (he : m.Erased r.base (r.base + slotSize)) {p : Nat × Bytes}
    (hp : p ∈ r.areas fw) : (Mem.programAll (r.areas fw) m).read p.1 p.2.length = p.2 := by
  refine Mem.read_programAll he (fun q hq => ?_)
    ((areas_pairwise hgcm hlen).imp WordsApart.apart) hp
  obtain ⟨h₁, h₂⟩ := areas_within hgcm hlen q hq
  simp only [padded] at h₂
  exact ⟨h₁, by omega⟩

end

end BlobRecord
