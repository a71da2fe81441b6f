-- SUMMARY: Reading a file in several calls: which splits give what blob_read_all gives.
import Mathlib.Algebra.GroupWithZero.Nat
import HsmFirmware.Specs.Streaming
import HsmFirmware.Firmware.Release

/-!
# Streaming reads

`blob_read_init`, `blob_read_chunk` and `blob_read_finish` let the caller read a file
in pieces of its own size. The writer authenticates 256 bytes at a time, and a call
that ends inside such a chunk asks AES-GCM to accept the beginning of a ciphertext
under the tag of all of it.
-/

/-- One call of `blob_read_chunk` for each length, as long as they succeed, each one
    writing its output behind that of the last. -/
def blobReadChunks (fw : Firmware) (flash : Mem) (ram : Ram) (out : Mem) (outAddr : Nat) :
    List Nat → BlobStatus × Ram × Mem
  | [] => (.ok, ram, out)
  | chunkLen :: chunkLens =>
    let r := blobReadChunk fw flash ram out outAddr chunkLen
    if r.1 = .ok then blobReadChunks fw flash r.2.1 r.2.2 (outAddr + chunkLen) chunkLens else r

section

variable (fw : Firmware) (flash : Mem) (ram : Ram) (slot : UInt8) (pinHash : Digest)
  (groupMask : UInt32) (out : Mem) (outAddr : Nat)

/-- Reading in calls of the given lengths succeeds throughout and gives the output of
    `blob_read_all`. -/
structure Streams (outLen : Nat) (chunkLens : List Nat) : Prop where
  init : (blobReadInit fw flash ram slot (some pinHash) groupMask).1 = .ok chunkLens.sum
  chunks : (blobReadChunks fw flash (blobReadInit fw flash ram slot (some pinHash) groupMask).2 out
    outAddr chunkLens).1 = .ok
  finish : (blobReadFinish fw (blobReadChunks fw flash
    (blobReadInit fw flash ram slot (some pinHash) groupMask).2 out outAddr chunkLens).2.1).1 = .ok
  output : (blobReadChunks fw flash (blobReadInit fw flash ram slot (some pinHash) groupMask).2 out
    outAddr chunkLens).2.2 =
      (blobReadAll fw flash ram slot pinHash groupMask out outAddr outLen).out

end

/-! ## Calls -/

section

variable {fw : Firmware} {flash : Mem}

theorem blobReadChunk_eq {ram : Ram} {n : Nat}
    (h : ram.gReadState.processed + n ≤ ram.gReadState.totalLen) (out : Mem) (outAddr : Nat) :
    blobReadChunk fw flash ram out outAddr n =
      (let r := blobReadChunkLoop fw flash ram.gAad outAddr n ram.gReadState out 0
       (r.1, { ram with gReadState := r.2.1 }, r.2.2)) := by
  unfold blobReadChunk
  exact if_neg (Nat.not_lt.mpr h)

/-- After a call only the counter and the running hash have moved. -/
theorem blobReadChunk_state {ram : Ram} {n : Nat}
    (h : ram.gReadState.processed + n ≤ ram.gReadState.totalLen) {out : Mem} {outAddr : Nat}
    (hok : (blobReadChunk fw flash ram out outAddr n).1 = .ok) :
    ∃ sha, (blobReadChunk fw flash ram out outAddr n).2.1 =
      { ram with gReadState :=
        { ram.gReadState with processed := ram.gReadState.processed + n, shaCtx := sha } } := by
  rw [blobReadChunk_eq h] at hok ⊢
  obtain ⟨p, sha, hst, hp⟩ := @blobReadChunkLoop_state fw flash ram.gAad outAddr n ram.gReadState
    out 0 (Nat.zero_le n)
  have hp : p = ram.gReadState.processed + n := by simpa using hp hok
  refine ⟨sha, ?_⟩
  simp only [hst, hp]

/-- A call of `a + b` bytes is two calls, if the first one ends with a chunk. -/
theorem blobReadChunk_append {ram : Ram} {a b : Nat}
    (h : ram.gReadState.processed + (a + b) ≤ ram.gReadState.totalLen) (ha : a % 256 = 0)
    (out : Mem) (outAddr : Nat) :
    blobReadChunk fw flash ram out outAddr (a + b) =
      (let r := blobReadChunk fw flash ram out outAddr a
       if r.1 = .ok then blobReadChunk fw flash r.2.1 r.2.2 (outAddr + a) b else r) := by
  have hfirst : ram.gReadState.processed + a ≤ ram.gReadState.totalLen := by omega
  have happend := @blobReadChunkLoop_append fw flash ram.gAad outAddr a b ha ram.gReadState out 0
    (Nat.zero_le a) rfl
  simp only
  split
  · rename_i hok
    obtain ⟨sha, hst⟩ := blobReadChunk_state hfirst hok
    have hrest : (blobReadChunk fw flash ram out outAddr a).2.1.gReadState.processed + b ≤
        (blobReadChunk fw flash ram out outAddr a).2.1.gReadState.totalLen := by
      rw [hst]
      show ram.gReadState.processed + a + b ≤ ram.gReadState.totalLen
      omega
    rw [blobReadChunk_eq hrest, blobReadChunk_eq h, happend]
    rw [blobReadChunk_eq hfirst] at hok ⊢
    simp only at hok
    simp only [hok, if_true]
  · rename_i hfail
    rw [blobReadChunk_eq h, happend]
    rw [blobReadChunk_eq hfirst] at hfail ⊢
    simp only at hfail
    simp only [if_neg hfail]

/-! ## Splits -/

/-- Calls that end with a chunk, all but the last, are one call. -/
theorem blobReadChunks_aligned {chunkLens : List Nat} (haligned : ∀ n ∈ chunkLens.dropLast, n % 256 = 0)
    {ram : Ram} (h : ram.gReadState.processed + chunkLens.sum ≤ ram.gReadState.totalLen)
    (out : Mem) (outAddr : Nat) :
    blobReadChunks fw flash ram out outAddr chunkLens =
      blobReadChunk fw flash ram out outAddr chunkLens.sum := by
  induction chunkLens generalizing ram out outAddr with
  | nil =>
    rw [List.sum_nil] at h ⊢
    rw [blobReadChunk_eq h, blobReadChunkLoop_done]
    rfl
  | cons n chunkLens ih =>
    cases chunkLens with
    | nil =>
      simp only [blobReadChunks, List.sum_cons, List.sum_nil, Nat.add_zero]
      split
      · rename_i hok
        exact Prod.ext hok.symm rfl
      · rfl
    | cons m chunkLens =>
      rw [List.dropLast_cons_cons] at haligned
      rw [List.sum_cons] at h ⊢
      rw [blobReadChunk_append h (haligned n List.mem_cons_self)]
      unfold blobReadChunks
      simp only
      split
      · rename_i hok
        obtain ⟨sha, hst⟩ := blobReadChunk_state (show _ ≤ _ by omega) hok
        apply ih (fun k hk => haligned k (List.mem_cons_of_mem n hk))
        rw [hst]
        show ram.gReadState.processed + n + (m :: chunkLens).sum ≤ ram.gReadState.totalLen
        omega
      · rfl

/-- Calls that read the rest of a file and all succeed end with a chunk, all but the last. -/
theorem blobReadChunks_ok {chunkLens : List Nat} (hpos : ∀ n ∈ chunkLens, 0 < n) {ram : Ram}
    (hpieces : PiecesFail fw flash ram.gAad ram.gReadState)
    (hstart : ram.gReadState.processed % 256 = 0)
    (htotal : ram.gReadState.processed + chunkLens.sum = ram.gReadState.totalLen) {out : Mem}
    {outAddr : Nat} (hok : (blobReadChunks fw flash ram out outAddr chunkLens).1 = .ok) :
    ∀ n ∈ chunkLens.dropLast, n % 256 = 0 := by
  induction chunkLens generalizing ram out outAddr with
  | nil =>
    intro n hn
    cases hn
  | cons n chunkLens ih =>
    cases chunkLens with
    | nil =>
      intro n hn
      cases hn
    | cons m chunkLens =>
      have hm := hpos m (by simp)
      simp only [List.sum_cons] at htotal
      have hroom : ram.gReadState.processed + n ≤ ram.gReadState.totalLen := by omega
      rw [blobReadChunks] at hok
      split at hok
      · rename_i hfirst
        have hn : n % 256 = 0 := by
          by_contra hinside
          rw [blobReadChunk_eq hroom] at hfirst
          exact blobReadChunkLoop_inside outAddr hpieces hstart hinside (by omega) hfirst
        obtain ⟨sha, hst⟩ := blobReadChunk_state hroom hfirst
        rw [hst] at hok
        have hrest : ∀ k ∈ (m :: chunkLens).dropLast, k % 256 = 0 := by
          refine ih (fun k hk => hpos k (List.mem_cons_of_mem n hk)) ?_ ?_ ?_ hok
          · exact hpieces
          · show (ram.gReadState.processed + n) % 256 = 0
            omega
          · show ram.gReadState.processed + n + (m :: chunkLens).sum = ram.gReadState.totalLen
            simp only [List.sum_cons]
            omega
        rw [List.dropLast_cons_cons]
        intro k hk
        rcases List.mem_cons.mp hk with rfl | hk
        · exact hn
        · exact hrest k hk
      · rename_i hfirst
        exact absurd hok hfirst

/-! ## Whole reads -/

/-- A whole read is one call, also of an empty file. -/
theorem blobReadChunk_whole (ram : Ram) (slot : Slot) (header : Header) (masterKey : Key)
    (out : Mem) (outAddr : Nat) :
    (if 0 < header.plaintextLen.toNat then
      blobReadChunk fw flash (ram.opened slot header masterKey) out outAddr
        header.plaintextLen.toNat
    else (.ok, ram.opened slot header masterKey, out)) =
      blobReadChunk fw flash (ram.opened slot header masterKey) out outAddr
        header.plaintextLen.toNat := by
  split
  · rfl
  · rename_i hzero
    rw [Nat.eq_zero_of_not_pos hzero, blobReadChunk_eq (Nat.zero_le _), blobReadChunkLoop_done]

/-- A whole read behind its set-up: one call, and the comparison of the blob tags. -/
theorem blobReadRest_eq {ram : Ram} {slot : Slot} {header : Header} {masterKey : Key} {out : Mem}
    {outAddr outLen : Nat} (hcap : header.plaintextLen.toNat ≤ outLen) :
    blobReadRest fw flash (.ok header.plaintextLen.toNat, ram.opened slot header masterKey) out
        outAddr outLen =
      (let r := blobReadChunk fw flash (ram.opened slot header masterKey) out outAddr
         header.plaintextLen.toNat
       let f := blobReadFinish fw r.2.1
       if r.1 ≠ .ok then ⟨r.1, r.2.1, r.2.2, outLen⟩
       else if f.1 ≠ .ok then
         ⟨f.1, f.2, r.2.2.write outAddr (List.replicate header.plaintextLen.toNat 0), outLen⟩
       else ⟨.ok, f.2, r.2.2, header.plaintextLen.toNat⟩) := by
  unfold blobReadRest
  simp only [if_neg (Nat.not_lt.mpr hcap)]
  rw [blobReadChunk_whole]

/-- A read that returns success has set itself up, read all bytes in one call, and found
    the blob tag right. -/
theorem blobReadAll_ok {ram : Ram} {slot : UInt8} {pinHash : Digest} {groupMask : UInt32}
    {out : Mem} {outAddr outLen : Nat}
    (h : (blobReadAll fw flash ram slot pinHash groupMask out outAddr outLen).status = .ok) :
    ∃ n ram', blobReadInit fw flash ram slot (some pinHash) groupMask = (.ok n, ram') ∧
      ram'.gReadState.processed = 0 ∧ ram'.gReadState.totalLen = n ∧
      (blobReadAll fw flash ram slot pinHash groupMask out outAddr outLen).outLen = n ∧
      (blobReadChunk fw flash ram' out outAddr n).1 = .ok ∧
      (blobReadFinish fw (blobReadChunk fw flash ram' out outAddr n).2.1).1 = .ok ∧
      (blobReadAll fw flash ram slot pinHash groupMask out outAddr outLen).out =
        (blobReadChunk fw flash ram' out outAddr n).2.2 := by
  unfold blobReadAll blobReadInit at h ⊢
  cases hadm : admitted fw flash ram.gFat slot (some pinHash) groupMask with
  | none =>
    obtain ⟨rc, hrc, hinit⟩ := blobReadInitInternal_refused hadm
    rw [Option.isSome_some] at hinit
    rw [hinit] at h
    exact absurd h hrc
  | some a =>
    obtain ⟨s, header, masterKey⟩ := a
    have hinit := blobReadInitInternal_admitted hadm
    rw [Option.isSome_some] at hinit
    rw [hinit] at h ⊢
    refine ⟨_, _, rfl, rfl, rfl, ?_⟩
    rcases Nat.lt_or_ge outLen header.plaintextLen.toNat with hcap | hcap
    · simp [blobReadRest, hcap] at h
    · rw [blobReadRest_eq hcap] at h ⊢
      simp only at h ⊢
      split at h
      · rename_i hrc
        exact absurd h hrc
      · rename_i hrc
        split at h
        · rename_i hfinish
          exact absurd h hfinish
        · rename_i hfinish
          rw [if_neg hrc, if_neg hfinish]
          exact ⟨rfl, not_not.mp hrc, not_not.mp hfinish, rfl⟩

/-- Of a file that `blob_read_all` gives, a split gives the same when every call but the last ends
    with a chunk, and exactly then if AES-GCM rejects the beginnings of chunks. -/
theorem stream_exact {ram : Ram} {slot : UInt8} {pinHash : Digest} {groupMask : UInt32}
    {out : Mem} {outAddr outLen : Nat} {chunkLens : List Nat}
    (hread : (blobReadAll fw flash ram slot pinHash groupMask out outAddr outLen).status = .ok)
    (hpos : ∀ n ∈ chunkLens, 0 < n)
    (hsum : chunkLens.sum =
      (blobReadAll fw flash ram slot pinHash groupMask out outAddr outLen).outLen) :
    ((∀ n ∈ chunkLens.dropLast, n % 256 = 0) →
      Streams fw flash ram slot pinHash groupMask out outAddr outLen chunkLens) ∧
    (PiecesFail fw flash (blobReadInit fw flash ram slot (some pinHash) groupMask).2.gAad
        (blobReadInit fw flash ram slot (some pinHash) groupMask).2.gReadState →
      (Streams fw flash ram slot pinHash groupMask out outAddr outLen chunkLens ↔
        ∀ n ∈ chunkLens.dropLast, n % 256 = 0)) := by
  obtain ⟨n, ram', hinit, hstart, htotal, hlen, hchunk, hfinish, hout⟩ := blobReadAll_ok hread
  have hn : chunkLens.sum = n := hsum.trans hlen
  have hend : ram'.gReadState.processed + chunkLens.sum = ram'.gReadState.totalLen := by omega
  have haligned : (∀ n ∈ chunkLens.dropLast, n % 256 = 0) →
      Streams fw flash ram slot pinHash groupMask out outAddr outLen chunkLens := by
    intro haligned
    have hchunks := @blobReadChunks_aligned fw flash chunkLens haligned ram' (by omega) out outAddr
    rw [hn] at hchunks
    refine ⟨?_, ?_, ?_, ?_⟩
    · rw [hinit, hn]
    · rw [hinit, hchunks]
      exact hchunk
    · rw [hinit, hchunks]
      exact hfinish
    · rw [hinit, hchunks, hout]
  refine ⟨haligned, fun hpieces => ⟨fun h => ?_, haligned⟩⟩
  have hok := h.chunks
  rw [hinit] at hpieces hok
  exact blobReadChunks_ok hpos hpieces (by rw [hstart]) hend hok

end

/-! ## A sample -/

/-- The cipher that leaves the text as it is and takes its length for the tag. -/
def AesGcm.counting : AesGcm where
  encrypt _ _ _ pt := (⟨pt.toArray, List.size_toArray⟩, .replicate 16 (UInt8.ofNat pt.length))
  decrypt _ _ _ ct tag :=
    if tag = .replicate 16 (UInt8.ofNat ct.length) then some ⟨ct.toArray, List.size_toArray⟩ else none
  inverts _ _ _ _ := congrArg (Option.map Vector.toList) (if_pos rfl)

/-- The sample build with that cipher. -/
def Firmware.counting : Firmware := { Firmware.sample with prim := .release .counting }

theorem Firmware.counting_gcmLaws : Firmware.counting.prim.GcmLaws := Primitives.release_gcmLaws _

/-- A file of 300 bytes: one chunk, and the beginning of a second one. -/
def BlobRecord.sample : BlobRecord where
  slot := 0
  data := List.replicate 300 7
  ownerPinHash := .replicate 32 0
  groupMask := 1
  nonce := .replicate 12 0
  masterKey := secureCryptoDeriveFileEncKey Firmware.counting.prim
    (toKey (Firmware.counting.globalSecrets.drop 97)) 1

/-- Flash with the record in its slot. -/
def Mem.sample : Mem := Mem.programAll (BlobRecord.sample.areas .counting) fun _ => 0xFF

/-- The RAM of the sample with the FAT entry of the record. -/
def Ram.holding : Ram :=
  { Ram.sample with gFat := Function.update Ram.sample.gFat 0 (BlobRecord.sample.fatEntry (.replicate 16 0)) }

theorem BlobRecord.length_sample : BlobRecord.sample.data.length = 300 := List.length_replicate

theorem BlobRecord.length_sample_le : BlobRecord.sample.data.length ≤ maxContentsSize := by
  rw [length_sample, maxContentsSize]
  omega

theorem BlobRecord.sample_stored : BlobRecord.sample.StoredIn .counting Mem.sample := by
  have herased : Mem.Erased (fun _ => 0xFF) BlobRecord.sample.base
      (BlobRecord.sample.base + slotSize) := fun _ _ _ => rfl
  exact storedIn_programAll Firmware.counting_gcmLaws length_sample_le herased

theorem Firmware.counting_key : (securityGetRootSecret .counting).bind
    (fun root => deriveFileKey .counting root BlobRecord.sample.groupMask) =
      some BlobRecord.sample.masterKey := by
  have hroot : securityGetRootSecret .counting = securityGetRootSecret .sample := rfl
  rw [hroot, Firmware.sample_rootSecret, Option.bind_some]
  exact deriveFileKey_toUInt32 .counting _ 1

theorem Ram.holding_gFat :
    Ram.holding.gFat BlobRecord.sample.slot = BlobRecord.sample.fatEntry (.replicate 16 0) := by
  have hslot : BlobRecord.sample.slot = 0 := rfl
  rw [hslot]
  exact Function.update_self (0 : Slot) _ Ram.sample.gFat

/-- The owner is admitted to the sample wherever its header is intact. -/
theorem admitted_sample {flash : Mem}
    (h : Mem.Agree flash Mem.sample BlobRecord.sample.base (BlobRecord.sample.base + headerSize)) :
    admitted .counting flash Ram.holding.gFat 0 (some (.replicate 32 0)) 1 =
      some (0, BlobRecord.sample.header .counting, BlobRecord.sample.masterKey) := by
  have hmask : (1 : UInt32) &&& BlobRecord.sample.groupMask ≠ 0 := by decide
  have hslot : BlobRecord.sample.slot = 0 := rfl
  have howner : BlobRecord.sample.ownerPinHash = .replicate 32 0 := rfl
  have hadm := BlobRecord.sample_stored.admits BlobRecord.length_sample_le Firmware.counting_key
    Ram.holding_gFat hmask
  rw [hslot, howner] at hadm
  exact (@admitted_congr .counting flash Mem.sample Ram.holding.gFat 0 _ _ h).trans hadm

theorem toNat_plaintextLen_sample :
    (BlobRecord.sample.header .counting).plaintextLen.toNat = 300 := by
  rw [BlobRecord.toNat_plaintextLen BlobRecord.length_sample_le, BlobRecord.length_sample]

/-- The sample opens for its owner. -/
theorem blobReadInit_sample :
    blobReadInit .counting Mem.sample Ram.holding 0 (some (.replicate 32 0)) 1 =
      (.ok 300, Ram.holding.opened 0 (BlobRecord.sample.header .counting)
        BlobRecord.sample.masterKey) := by
  have hinit := blobReadInitInternal_admitted (admitted_sample (Mem.Agree.refl _ _ _))
  rw [toNat_plaintextLen_sample] at hinit
  exact hinit

/-- And `blob_read_all` gives its 300 bytes. -/
theorem blobReadAll_sample :
    (blobReadAll .counting Mem.sample Ram.holding 0 (.replicate 32 0) 1 (fun _ => 0) 0
      maxContentsSize).status = .ok ∧
    (blobReadAll .counting Mem.sample Ram.holding 0 (.replicate 32 0) 1 (fun _ => 0) 0
      maxContentsSize).outLen = 300 := by
  have hcontents := BlobRecord.sample_stored.contents Firmware.counting_gcmLaws
    BlobRecord.length_sample_le Firmware.counting_key Ram.holding_gFat (some (.replicate 32 0)) 1
  rw [if_neg (by
    rintro (h | ⟨-, h⟩)
    · exact absurd h (by decide)
    · exact h rfl)] at hcontents
  have hreads := @blobReadAll_reads .counting Mem.sample Ram.holding 0 (.replicate 32 0) 1
    (fun _ => 0) 0
  obtain ⟨hstatus, -, hout, -⟩ := hreads.ok _ hcontents
  exact ⟨hstatus, hout.trans BlobRecord.length_sample⟩

theorem sealChunk_counting {masterKey : Key} {nonce : Nonce} {aad data : Bytes} {i : Nat} :
    (sealChunk .counting masterKey nonce aad data i).2 =
      .replicate 16 (UInt8.ofNat (chunk data i).length) := rfl

theorem decrypt_counting {key : Key} {nonce : Nonce} {aad ct : Bytes} {tag : Tag}
    (h : tag ≠ .replicate 16 (UInt8.ofNat ct.length)) :
    secureCryptoAesGcmDecrypt Firmware.counting.prim key nonce aad ct tag = none := by
  have hnone : Firmware.counting.prim.aesGcmDecrypt key nonce aad ct tag = none := if_neg h
  unfold secureCryptoAesGcmDecrypt
  rw [hnone, Option.map_none]

/-- Lengths up to 256 have different tags. -/
theorem piecesFail_sample : PiecesFail .counting Mem.sample
    (buildAad (BlobRecord.sample.header .counting))
    (Ram.holding.opened 0 (BlobRecord.sample.header .counting)
      BlobRecord.sample.masterKey).gReadState := by
  intro i n hn hpiece
  have htotal : (Ram.holding.opened 0 (BlobRecord.sample.header .counting)
      BlobRecord.sample.masterKey).gReadState.totalLen = BlobRecord.sample.data.length :=
    @BlobRecord.toNat_plaintextLen .counting _ BlobRecord.length_sample_le
  rw [htotal] at hpiece
  have hle := chunkLen_le BlobRecord.sample.data.length i
  have hi : i < numChunks BlobRecord.sample.data.length := by
    simp only [chunkLen] at hpiece
    unfold numChunks
    omega
  have hsmall : numChunks BlobRecord.sample.data.length < UInt32.size := by
    rw [BlobRecord.length_sample]
    decide
  apply decrypt_counting
  have htag : storedTag Mem.sample (blobSlotBase (0 : Slot)) i =
      .replicate 16 (UInt8.ofNat (chunk BlobRecord.sample.data i).length) :=
    (BlobRecord.sample_stored.tag i hi).trans sealChunk_counting
  rw [pieceTag_eq (show i < UInt32.size by omega) rfl rfl, htag, length_chunk, Mem.length_read]
  intro h
  have hbyte : UInt8.ofNat (chunkLen BlobRecord.sample.data.length i) = UInt8.ofNat n :=
    (Vector.replicate_inj.mp h).resolve_left (by decide)
  have hnat := congrArg UInt8.toNat hbyte
  simp only [UInt8.toNat_ofNat'] at hnat
  omega

/-- A call of 256 bytes and a call of 44 give what one call of 300 gives; calls of 44 and 256 do
    not. -/
theorem stream_exact_sample :
    Streams .counting Mem.sample Ram.holding 0 (.replicate 32 0) 1 (fun _ => 0) 0 maxContentsSize
        [256, 44] ∧
      ¬ Streams .counting Mem.sample Ram.holding 0 (.replicate 32 0) 1 (fun _ => 0) 0
        maxContentsSize [44, 256] := by
  obtain ⟨hread, hlen⟩ := blobReadAll_sample
  constructor
  · refine (stream_exact hread ?_ ?_).1 ?_
    · decide
    · rw [hlen]
      rfl
    · decide
  · intro h
    have haligned := ((stream_exact hread (by decide) (by rw [hlen]; rfl)).2 (by
      rw [blobReadInit_sample]
      exact piecesFail_sample)).mp h
    exact absurd (haligned 44 (by decide)) (by decide)

/-- A call of 100 bytes and a call of 200 do not. -/
theorem stream_splits_differ :
    ¬ ∀ (fw : Firmware) (flash : Mem) (ram : Ram) (slot : UInt8) (pinHash : Digest)
      (groupMask : UInt32) (out : Mem) (outAddr outLen : Nat) (chunkLens : List Nat),
      fw.prim.GcmLaws →
      (blobReadAll fw flash ram slot pinHash groupMask out outAddr outLen).status = .ok →
      (∀ n ∈ chunkLens, 0 < n) →
      chunkLens.sum =
        (blobReadAll fw flash ram slot pinHash groupMask out outAddr outLen).outLen →
      Streams fw flash ram slot pinHash groupMask out outAddr outLen chunkLens := by
  intro h
  obtain ⟨hread, hlen⟩ := blobReadAll_sample
  have hchunks := (h .counting Mem.sample Ram.holding 0 (.replicate 32 0) 1 (fun _ => 0) 0
    maxContentsSize [100, 200] Firmware.counting_gcmLaws hread (by decide) (by rw [hlen]; rfl)).chunks
  rw [blobReadInit_sample] at hchunks
  have htotal : 0 + [100, 200].sum = (Ram.holding.opened 0 (BlobRecord.sample.header .counting)
      BlobRecord.sample.masterKey).gReadState.totalLen := by
    exact toNat_plaintextLen_sample.symm
  have haligned := blobReadChunks_ok (by decide) piecesFail_sample rfl htotal hchunks
  exact absurd (haligned 100 (by decide)) (by decide)
