-- SUMMARY: What a failed whole read leaves behind: the output buffer and the key of the file.
import HsmFirmware.Properties.Streaming

/-!
# Failed reads

`blob_read_all` and `blob_read_all_group_mask` have one exit that clears the output
and the key, the one behind a wrong blob tag. The exits before it, for a buffer that is
too small and for a chunk that does not open, clear neither the key nor the chunks
that have been opened already.
-/

/-- Every byte of the buffer is as before or zero, and the key of the file is gone. -/
structure BlobRead.Clean (out : Mem) (r : BlobRead) : Prop where
  out : ∀ x, r.out x = out x ∨ r.out x = 0
  key : r.ram.gReadState.masterKey = .replicate 32 0

section

variable (fw : Firmware) (flash : Mem)

/-- The chunks of a record from `i` on that open, `n` of them. -/
def openHeader (slot : Slot) (header : Header) (masterKey : Key) (n : Nat) : Option Bytes :=
  openChunks fw masterKey header.nonce (buildAad header) flash (blobSlotBase slot)
    header.plaintextLen.toNat 0 n

/-- Chunk `k` is the first one that does not open, and `pt` is what the chunks before it
    hold. -/
def FirstFailure (slot : Slot) (header : Header) (masterKey : Key) (k : Nat) (pt : Bytes) : Prop :=
  k < numChunks header.plaintextLen.toNat ∧ openHeader fw flash slot header masterKey k = some pt ∧
    openChunk fw masterKey header.nonce (buildAad header) flash (blobSlotBase slot)
      header.plaintextLen.toNat k = none

/-- When a failed read leaves nothing behind. A reader that is not admitted must find the
    key cleared. For one that is, buffer and chunks must be in order, unless the key is
    zero anyhow and the opened chunks are nothing new to the buffer. -/
def FailsClean (ram : Ram) (slot : UInt8) (owner : Option Digest) (groupMask : UInt32) (out : Mem)
    (outAddr outLen : Nat) : Prop :=
  match admitted fw flash ram.gFat slot owner groupMask with
  | none => ram.gReadState.masterKey = .replicate 32 0
  | some (slot, header, masterKey) =>
    (header.plaintextLen.toNat ≤ outLen ∧
      (openHeader fw flash slot header masterKey (numChunks header.plaintextLen.toNat)).isSome) ∨
    (masterKey = .replicate 32 0 ∧
      (header.plaintextLen.toNat ≤ outLen →
        ∀ k pt, FirstFailure fw flash slot header masterKey k pt →
          ∀ j b, pt[j]? = some b → b = out (outAddr + j) ∨ b = 0))

end

/-! ## The exits -/

section

variable {fw : Firmware} {flash : Mem} {ram : Ram} {slot : Slot} {header : Header}
  {masterKey : Key} {out : Mem} {outAddr outLen : Nat}

theorem blobReadRest_badLen (h : outLen < header.plaintextLen.toNat) :
    blobReadRest fw flash (.ok header.plaintextLen.toNat, ram.opened slot header masterKey) out
      outAddr outLen =
        ⟨.badLen, ram.opened slot header masterKey, out, header.plaintextLen.toNat⟩ := by
  unfold blobReadRest
  exact if_pos h

/-- A chunk that does not open ends the read: the key stays, and so do the chunks before. -/
theorem blobReadRest_stops (hcap : header.plaintextLen.toNat ≤ outLen) {k : Nat} {pt : Bytes}
    (h : FirstFailure fw flash slot header masterKey k pt) :
    ∃ st, st.masterKey = masterKey ∧
      blobReadRest fw flash (.ok header.plaintextLen.toNat, ram.opened slot header masterKey) out
        outAddr outLen =
          ⟨.cryptoError, { ram.opened slot header masterKey with gReadState := st },
            (out.write outAddr pt).write (outAddr + 256 * k)
              (List.replicate (chunkLen header.plaintextLen.toNat k) 0), outLen⟩ := by
  obtain ⟨hk, hopen, hfail⟩ := h
  have hroom : (ram.opened slot header masterKey).gReadState.processed +
      header.plaintextLen.toNat ≤ (ram.opened slot header masterKey).gReadState.totalLen :=
    (Nat.zero_add _).le
  have haad : (ram.opened slot header masterKey).gAad = buildAad header := rfl
  obtain ⟨hrc, hout⟩ := @blobReadChunkLoop_stops fw flash (buildAad header) slot
    header.plaintextLen.toNat header.plaintextLen.toNat_lt outAddr 0 k (by omega)
    (ram.opened slot header masterKey).gReadState out pt rfl rfl hopen (by rw [Nat.zero_add]; exact hfail)
  obtain ⟨p, sha, hst, -⟩ := @blobReadChunkLoop_state fw flash (buildAad header) outAddr
    header.plaintextLen.toNat (ram.opened slot header masterKey).gReadState out 0 (Nat.zero_le _)
  rw [Nat.mul_zero] at hrc hout
  rw [Nat.zero_add, Nat.add_zero] at hout
  refine ⟨{ (ram.opened slot header masterKey).gReadState with processed := p, shaCtx := sha },
    rfl, ?_⟩
  rw [blobReadRest_eq hcap, blobReadChunk_eq hroom, haad]
  simp only [hrc, hout, hst]
  exact if_pos (by simp)

theorem blobReadFinish_masterKey (ram : Ram) :
    (blobReadFinish fw ram).2.gReadState.masterKey = .replicate 32 0 := by
  unfold blobReadFinish
  simp only
  split <;> rfl

/-- If all chunks open, a read can only fail with the blob tag, and then clears up. -/
theorem blobReadRest_clears (hcap : header.plaintextLen.toNat ≤ outLen) {pt : Bytes}
    (hopen : openHeader fw flash slot header masterKey (numChunks header.plaintextLen.toNat) =
      some pt)
    (hfail : (blobReadRest fw flash (.ok header.plaintextLen.toNat,
      ram.opened slot header masterKey) out outAddr outLen).status ≠ .ok) :
    (blobReadRest fw flash (.ok header.plaintextLen.toNat, ram.opened slot header masterKey) out
      outAddr outLen).Clean out := by
  have hroom : (ram.opened slot header masterKey).gReadState.processed +
      header.plaintextLen.toNat ≤ (ram.opened slot header masterKey).gReadState.totalLen :=
    (Nat.zero_add _).le
  have haad : (ram.opened slot header masterKey).gAad = buildAad header := rfl
  have hlen := length_openChunks (by omega) hopen
  rw [Nat.mul_zero, Nat.sub_zero] at hlen
  obtain ⟨hloop, -⟩ := @blobReadChunkLoop_eq fw (buildAad header) flash slot
    header.plaintextLen.toNat header.plaintextLen.toNat_lt outAddr 0
    (numChunks header.plaintextLen.toNat) (by omega) (Nat.zero_le _)
    (ram.opened slot header masterKey).gReadState out rfl (by rw [Nat.mul_zero, Nat.zero_min]; rfl)
  have hloop := hloop pt hopen
  rw [Nat.mul_zero, Nat.zero_min, Nat.add_zero] at hloop
  rw [blobReadRest_eq hcap, blobReadChunk_eq hroom, haad, hloop] at hfail ⊢
  simp only at hfail ⊢
  rw [if_neg (not_not.mpr rfl)] at hfail ⊢
  split at hfail
  · rename_i hfinish
    rw [if_pos hfinish]
    refine ⟨fun x => ?_, blobReadFinish_masterKey _⟩
    by_cases hx : outAddr ≤ x ∧ x < outAddr + header.plaintextLen.toNat
    · right
      simp [Mem.write, hx]
    · left
      simp only [Mem.write, List.length_replicate, hlen, if_neg hx]
  · exact absurd rfl hfail

/-- What the opened chunks leave in the buffer is clean exactly when they hold nothing new. -/
theorem stopped_clean_iff {k : Nat} {pt : Bytes}
    (h : FirstFailure fw flash slot header masterKey k pt) :
    (∀ x, (out.write outAddr pt).write (outAddr + 256 * k)
        (List.replicate (chunkLen header.plaintextLen.toNat k) 0) x = out x ∨
      (out.write outAddr pt).write (outAddr + 256 * k)
        (List.replicate (chunkLen header.plaintextLen.toNat k) 0) x = 0) ↔
      ∀ j b, pt[j]? = some b → b = out (outAddr + j) ∨ b = 0 := by
  obtain ⟨hk, hopen, -⟩ := h
  have hlen := length_openChunks_lt (show 0 + k < _ by omega) hopen
  constructor
  · intro h j b hb
    obtain ⟨hj, hb⟩ := List.getElem?_eq_some_iff.mp hb
    have hx := h (outAddr + j)
    have hcleared : ¬ (outAddr + 256 * k ≤ outAddr + j ∧
        outAddr + j < outAddr + 256 * k +
          (List.replicate (chunkLen header.plaintextLen.toNat k) (0 : UInt8)).length) := by
      omega
    have hopened : outAddr ≤ outAddr + j ∧ outAddr + j < outAddr + pt.length := by omega
    simp only [Mem.write, if_neg hcleared, if_pos hopened] at hx
    rw [Nat.add_sub_cancel_left, List.getD_eq_getElem _ _ hj, hb] at hx
    exact hx
  · intro h x
    by_cases hcleared : outAddr + 256 * k ≤ x ∧ x < outAddr + 256 * k +
        (List.replicate (chunkLen header.plaintextLen.toNat k) (0 : UInt8)).length
    · right
      simp only [Mem.write, if_pos hcleared]
      simp
    · simp only [Mem.write, if_neg hcleared]
      split
      · rename_i hopened
        have hj : x - outAddr < pt.length := by omega
        have hb := h (x - outAddr) pt[x - outAddr] (List.getElem?_eq_getElem hj)
        rw [List.getD_eq_getElem _ _ hj]
        rwa [Nat.add_sub_cancel' hopened.1] at hb
      · exact .inl rfl

end

/-! ## Whole reads -/

section

variable (fw : Firmware) (flash : Mem) (ram : Ram) (slot : UInt8) (groupMask : UInt32) (out : Mem)
  (outAddr outLen : Nat)

theorem blobReadRest_clean_iff (owner : Option Digest) :
    ((blobReadRest fw flash (blobReadInitInternal fw flash ram slot owner owner.isSome groupMask) out
        outAddr outLen).status ≠ .ok →
      (blobReadRest fw flash (blobReadInitInternal fw flash ram slot owner owner.isSome groupMask) out
        outAddr outLen).Clean out) ↔
      FailsClean fw flash ram slot owner groupMask out outAddr outLen := by
  unfold FailsClean
  cases hadm : admitted fw flash ram.gFat slot owner groupMask with
  | none =>
    obtain ⟨rc, hrc, hinit⟩ := blobReadInitInternal_refused hadm
    rw [hinit]
    constructor
    · intro h
      exact (h hrc).key
    · intro h _
      exact ⟨fun _ => .inl rfl, h⟩
  | some a =>
    obtain ⟨s, header, masterKey⟩ := a
    rw [blobReadInitInternal_admitted hadm]
    simp only
    rcases Nat.lt_or_ge outLen header.plaintextLen.toNat with hcap | hcap
    · rw [blobReadRest_badLen hcap]
      constructor
      · intro h
        exact .inr ⟨(h (by simp)).key, fun hle => absurd hcap (Nat.not_lt.mpr hle)⟩
      · rintro (⟨hle, -⟩ | ⟨hkey, -⟩) _
        · exact absurd hcap (Nat.not_lt.mpr hle)
        · exact ⟨fun _ => .inl rfl, hkey⟩
    · cases hopen : openHeader fw flash s header masterKey
          (numChunks header.plaintextLen.toNat) with
      | some pt =>
        constructor
        · intro _
          exact .inl ⟨hcap, rfl⟩
        · intro _ hfail
          exact blobReadRest_clears hcap hopen hfail
      | none =>
        obtain ⟨k, hk, pt, hbefore, hchunk⟩ := exists_of_openChunks_none hopen
        rw [Nat.zero_add] at hchunk
        have hfirst : FirstFailure fw flash s header masterKey k pt := ⟨hk, hbefore, hchunk⟩
        constructor
        · intro h
          refine .inr ⟨?_, fun _ k' pt' hfirst' => ?_⟩
          · obtain ⟨st, hst, hrest⟩ := @blobReadRest_stops fw flash ram s header masterKey out
              outAddr outLen hcap k pt hfirst
            rw [hrest] at h
            rw [← hst]
            exact (h (by simp)).key
          · obtain ⟨st, hst, hrest⟩ := @blobReadRest_stops fw flash ram s header masterKey out
              outAddr outLen hcap k' pt' hfirst'
            rw [hrest] at h
            exact (stopped_clean_iff hfirst').mp (h (by simp)).out
        · rintro (⟨-, hall⟩ | ⟨hkey, hbytes⟩)
          · cases hall
          · intro _
            obtain ⟨st, hst, hrest⟩ := @blobReadRest_stops fw flash ram s header masterKey out
              outAddr outLen hcap k pt hfirst
            rw [hrest]
            exact ⟨(stopped_clean_iff hfirst).mpr (hbytes hcap k pt hfirst), hst.trans hkey⟩

/-- Both whole reads, with a PIN hash and without: a failure leaves nothing behind exactly
    when `FailsClean` holds of the flash, the reader and the buffer. -/
theorem failedReads_clean_iff (pinHash : Digest) :
    (((blobReadAll fw flash ram slot pinHash groupMask out outAddr outLen).status ≠ .ok →
        (blobReadAll fw flash ram slot pinHash groupMask out outAddr outLen).Clean out) ↔
      FailsClean fw flash ram slot (some pinHash) groupMask out outAddr outLen) ∧
    (((blobReadAllGroupMask fw flash ram slot groupMask out outAddr outLen).status ≠ .ok →
        (blobReadAllGroupMask fw flash ram slot groupMask out outAddr outLen).Clean out) ↔
      FailsClean fw flash ram slot none groupMask out outAddr outLen) := by
  constructor
  · exact blobReadRest_clean_iff fw flash ram slot groupMask out outAddr outLen (some pinHash)
  · exact blobReadRest_clean_iff fw flash ram slot groupMask out outAddr outLen none

end

/-! ## A damaged record -/

/-- The sample with the tag of its second chunk overwritten. -/
def Mem.damaged : Mem :=
  Mem.sample.write (tagAddr BlobRecord.sample.base 1) (List.replicate 16 0xFF)

theorem Mem.damaged_agree :
    Mem.Agree Mem.damaged Mem.sample BlobRecord.sample.base (tagAddr BlobRecord.sample.base 1) :=
  Mem.agree_write (.inl (Nat.le_refl _))

theorem storedTag_damaged :
    storedTag Mem.damaged BlobRecord.sample.base 1 = .replicate 16 0xFF := by
  have hread : Mem.damaged.read (tagAddr BlobRecord.sample.base 1) 16 = List.replicate 16 0xFF :=
    Mem.read_write Mem.sample (tagAddr BlobRecord.sample.base 1) (List.replicate 16 0xFF)
  rw [storedTag, hread]
  decide

theorem openChunk_damaged :
    openChunk .counting BlobRecord.sample.masterKey BlobRecord.sample.nonce
      (buildAad BlobRecord.sample.draft) Mem.damaged BlobRecord.sample.base
      BlobRecord.sample.data.length 0 = some (chunk BlobRecord.sample.data 0) := by
  have hct : Mem.damaged.read (chunkAddr BlobRecord.sample.base 0)
      (chunkLen BlobRecord.sample.data.length 0) =
        Mem.sample.read (chunkAddr BlobRecord.sample.base 0)
          (chunkLen BlobRecord.sample.data.length 0) := by
    have hle := chunkLen_le BlobRecord.sample.data.length 0
    apply Mem.damaged_agree.read
    · simp only [chunkAddr]
      omega
    · simp only [chunkAddr, tagAddr, headerSize, tagsOffset_eq]
      omega
  have htag : storedTag Mem.damaged BlobRecord.sample.base 0 =
      storedTag Mem.sample BlobRecord.sample.base 0 := by
    unfold storedTag
    rw [Mem.damaged_agree.read]
    · simp only [tagAddr]
      omega
    · simp only [tagAddr]
      omega
  unfold openChunk
  rw [hct, htag]
  apply BlobRecord.sample_stored.openChunk_eq Firmware.counting_gcmLaws
  rw [BlobRecord.length_sample]
  decide

/-- The first chunk opens, the second does not. -/
theorem firstFailure_damaged :
    FirstFailure .counting Mem.damaged 0 (BlobRecord.sample.header .counting)
      BlobRecord.sample.masterKey 1 (chunk BlobRecord.sample.data 0) := by
  have hchunks : numChunks BlobRecord.sample.data.length = 2 := by
    rw [BlobRecord.length_sample]
    rfl
  have hplain : (BlobRecord.sample.header .counting).plaintextLen.toNat =
      BlobRecord.sample.data.length :=
    @BlobRecord.toNat_plaintextLen .counting _ BlobRecord.length_sample_le
  have hnonce : (BlobRecord.sample.header .counting).nonce = BlobRecord.sample.nonce := rfl
  have hbase : blobSlotBase (0 : Slot) = BlobRecord.sample.base := rfl
  unfold FirstFailure openHeader
  rw [hplain, hchunks, hnonce, BlobRecord.buildAad_header, hbase]
  refine ⟨by decide, ?_, ?_⟩
  · simp only [openChunks, openChunk_damaged, Option.map_some, List.append_nil]
  · apply decrypt_counting
    rw [storedTag_damaged, Mem.length_read, BlobRecord.length_sample]
    decide

/-- Reading it leaves the first chunk of the file in the buffer. -/
theorem failedRead_leaves_plaintext :
    ¬ ∀ (fw : Firmware) (flash : Mem) (ram : Ram) (slot : UInt8) (pinHash : Digest)
      (groupMask : UInt32) (out : Mem) (outAddr outLen : Nat), fw.prim.GcmLaws →
      (blobReadAll fw flash ram slot pinHash groupMask out outAddr outLen).status ≠ .ok →
      (blobReadAll fw flash ram slot pinHash groupMask out outAddr outLen).Clean out := by
  intro h
  have hagree : Mem.Agree Mem.damaged Mem.sample BlobRecord.sample.base
      (BlobRecord.sample.base + headerSize) :=
    Mem.damaged_agree.mono (Nat.le_refl _) (by simp only [tagAddr, headerSize, tagsOffset_eq]; omega)
  have hcap : (BlobRecord.sample.header .counting).plaintextLen.toNat ≤ maxContentsSize := by
    rw [toNat_plaintextLen_sample, maxContentsSize]
    omega
  obtain ⟨st, -, hrest⟩ := @blobReadRest_stops .counting Mem.damaged Ram.holding 0
    (BlobRecord.sample.header .counting) BlobRecord.sample.masterKey (fun _ => 0) 0 maxContentsSize
    hcap 1 _ firstFailure_damaged
  have hread : blobReadAll .counting Mem.damaged Ram.holding 0 (.replicate 32 0) 1 (fun _ => 0) 0
      maxContentsSize = _ :=
    (congrArg (fun init => blobReadRest .counting Mem.damaged init (fun _ => 0) 0 maxContentsSize)
      (blobReadInitInternal_admitted (admitted_sample hagree))).trans hrest
  have hclean := h .counting Mem.damaged Ram.holding 0 (.replicate 32 0) 1 (fun _ => 0) 0
    maxContentsSize Firmware.counting_gcmLaws
  rw [hread] at hclean
  have hbytes := (stopped_clean_iff firstFailure_damaged).mp (hclean (by simp)).out
  have hfirst := hbytes 0 7 rfl
  exact absurd hfirst (by decide)
