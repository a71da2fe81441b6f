-- SUMMARY: The streaming read at any split: what one call of blob_read_chunk does, and how calls compose.
import HsmFirmware.Specs.Opening

/-!
# Streaming reads

The reader keeps a counter of the bytes it has processed. A call of
`blob_read_chunk` continues from there, in pieces of up to 256 bytes that start at
the beginning of the call. The lemmas here hold for every length of a call, also for
one that ends inside a chunk of the writer.
-/

section

variable (fw : Firmware) (flash : Mem) (aad : Bytes) (st : ReadState)

/-- The tag the reader takes for the piece at `processed`. -/
def pieceTag : Tag :=
  (Codec.bytes 16).decode (flash.read
    (blobSlotBase ((st.flashAddr - flashBase) / slotSize) + tagsOffset +
      (UInt32.ofNat (st.processed / chunkSize)).toNat * tagSize) tagSize)

/-- Decrypt the next `n` bytes, with the key and the tag of the chunk they begin in. -/
def openPiece (n : Nat) : Option Bytes :=
  secureCryptoAesGcmDecrypt fw.prim
    (secureCryptoDeriveChunkKey fw.prim st.masterKey (UInt32.ofNat (st.processed / chunkSize)))
    st.nonce aad (flash.read (st.flashAddr + st.processed) n) (pieceTag flash st)

/-- The state of the reader after a piece of `n` bytes. -/
def ReadState.advance (n : Nat) : ReadState :=
  { st with
    processed := st.processed + n
    shaCtx := st.shaCtx ++ (pieceTag flash st).toList }

/-- A piece that ends before its chunk does is not taken for the chunk. -/
def PiecesFail : Prop :=
  ∀ i n, 0 < n → n < chunkLen st.totalLen i →
    openPiece fw flash aad { st with processed := 256 * i } n = none

end

section

variable {fw : Firmware} {flash : Mem} {aad : Bytes}

@[simp] theorem ReadState.advance_processed (st : ReadState) (n : Nat) :
    (st.advance flash n).processed = st.processed + n := rfl

/-! ## One piece -/

theorem blobReadChunkLoop_done (outAddr n : Nat) (st : ReadState) (out : Mem) :
    blobReadChunkLoop fw flash aad outAddr n st out n = (.ok, st, out) := by
  unfold blobReadChunkLoop
  exact if_neg (Nat.lt_irrefl n)

theorem blobReadChunkLoop_fail {outAddr n c : Nat} {st : ReadState} {out : Mem} (hc : c < n)
    (h : openPiece fw flash aad st (min (n - c) chunkSize) = none) :
    blobReadChunkLoop fw flash aad outAddr n st out c =
      (.cryptoError, { st with shaCtx := st.shaCtx ++ (pieceTag flash st).toList },
        out.write (outAddr + c) (List.replicate (min (n - c) chunkSize) 0)) := by
  unfold openPiece pieceTag at h
  unfold blobReadChunkLoop
  simp only [if_pos hc, h]
  rfl

theorem blobReadChunkLoop_next {outAddr n c : Nat} {st : ReadState} {out : Mem} {pt : Bytes}
    (hc : c < n) (h : openPiece fw flash aad st (min (n - c) chunkSize) = some pt) :
    blobReadChunkLoop fw flash aad outAddr n st out c =
      blobReadChunkLoop fw flash aad outAddr n (st.advance flash (min (n - c) chunkSize))
        (out.write (outAddr + c) pt) (c + min (n - c) chunkSize) := by
  unfold openPiece pieceTag at h
  conv => lhs; unfold blobReadChunkLoop
  simp only [if_pos hc, h]
  rfl

/-- Induction along the pieces of a call. -/
theorem pieces_induction {n : Nat} {motive : Nat → Prop} (done : motive n)
    (next : ∀ c < n, motive (c + min (n - c) chunkSize) → motive c) {c : Nat} (hc : c ≤ n) :
    motive c := by
  have hsize : chunkSize = 256 := rfl
  induction h : n - c using Nat.strong_induction_on generalizing c with
  | _ k ih =>
    rcases Nat.eq_or_lt_of_le hc with rfl | hlt
    · exact done
    · apply next c hlt
      exact ih (n - (c + min (n - c) chunkSize)) (by omega) (by omega) rfl

/-! ## One call -/

/-- A call moves the counter and the running hash, and nothing else of the read state. A
    call that succeeds has processed all of its bytes. -/
theorem blobReadChunkLoop_state (outAddr : Nat) {n : Nat} (st : ReadState) (out : Mem) {c : Nat}
    (hc : c ≤ n) :
    ∃ p sha, (blobReadChunkLoop fw flash aad outAddr n st out c).2.1 =
        { st with processed := p, shaCtx := sha } ∧
      ((blobReadChunkLoop fw flash aad outAddr n st out c).1 = .ok → p = st.processed + (n - c)) := by
  revert st out
  apply pieces_induction _ _ hc
  · intro st out
    refine ⟨st.processed, st.shaCtx, ?_, fun _ => by omega⟩
    rw [blobReadChunkLoop_done]
  · intro c hlt ih st out
    cases hopen : openPiece fw flash aad st (min (n - c) chunkSize) with
    | none =>
      rw [blobReadChunkLoop_fail hlt hopen]
      exact ⟨_, _, rfl, fun h => by cases h⟩
    | some pt =>
      rw [blobReadChunkLoop_next hlt hopen]
      obtain ⟨p, sha, hst, hp⟩ := ih (st.advance flash (min (n - c) chunkSize))
        (out.write (outAddr + c) pt)
      refine ⟨p, sha, hst, fun hok => ?_⟩
      have hp := hp hok
      simp only [ReadState.advance_processed] at hp
      omega

/-- A call may write its output further ahead instead of counting from further ahead. -/
theorem blobReadChunkLoop_shift (outAddr d : Nat) {n : Nat} (st : ReadState) (out : Mem) {c : Nat}
    (hc : c ≤ n) :
    blobReadChunkLoop fw flash aad outAddr (d + n) st out (d + c) =
      blobReadChunkLoop fw flash aad (outAddr + d) n st out c := by
  revert st out
  apply pieces_induction _ _ hc
  · intro st out
    rw [blobReadChunkLoop_done, blobReadChunkLoop_done]
  · intro c hlt ih st out
    have hsize : d + n - (d + c) = n - c := by omega
    have haddr : outAddr + (d + c) = outAddr + d + c := by omega
    cases hopen : openPiece fw flash aad st (min (n - c) chunkSize) with
    | none =>
      rw [blobReadChunkLoop_fail hlt hopen,
        blobReadChunkLoop_fail (by omega) (by rw [hsize]; exact hopen), hsize, haddr]
    | some pt =>
      rw [blobReadChunkLoop_next hlt hopen,
        blobReadChunkLoop_next (by omega) (by rw [hsize]; exact hopen), hsize, Nat.add_assoc d, ih,
        haddr]

/-- A call of `a + b` bytes is a call of `a` and a call of `b`, if `a` is a number of whole
    chunks: only then the second one begins where a piece of the long call begins. -/
theorem blobReadChunkLoop_append (outAddr : Nat) {a : Nat} (b : Nat) (ha : a % 256 = 0)
    (st : ReadState) (out : Mem) {c : Nat} (hc : c ≤ a) (haligned : c % 256 = 0) :
    blobReadChunkLoop fw flash aad outAddr (a + b) st out c =
      (let r := blobReadChunkLoop fw flash aad outAddr a st out c
       if r.1 = .ok then blobReadChunkLoop fw flash aad (outAddr + a) b r.2.1 r.2.2 0 else r) := by
  have hchunk : chunkSize = 256 := rfl
  revert st out haligned
  apply pieces_induction _ _ hc
  · intro st out _
    simp only [blobReadChunkLoop_done, if_true]
    exact blobReadChunkLoop_shift outAddr a st out (Nat.zero_le b)
  · intro c hlt ih st out haligned
    have hsize : min (a + b - c) chunkSize = min (a - c) chunkSize := by omega
    cases hopen : openPiece fw flash aad st (min (a - c) chunkSize) with
    | none =>
      rw [blobReadChunkLoop_fail hlt hopen,
        blobReadChunkLoop_fail (by omega) (by rw [hsize]; exact hopen), hsize]
      rfl
    | some pt =>
      rw [blobReadChunkLoop_next hlt hopen,
        blobReadChunkLoop_next (by omega) (by rw [hsize]; exact hopen), hsize]
      exact ih _ _ (by omega)

/-- A call that starts at a chunk and ends inside one fails. -/
theorem blobReadChunkLoop_inside (outAddr : Nat) {n : Nat} {st : ReadState} {out : Mem}
    (hpieces : PiecesFail fw flash aad st) (haligned : st.processed % 256 = 0)
    (hinside : n % 256 ≠ 0) (hend : st.processed + n < st.totalLen) :
    (blobReadChunkLoop fw flash aad outAddr n st out 0).1 ≠ .ok := by
  have hchunk : chunkSize = 256 := rfl
  obtain ⟨a, t, ha, ht, rfl⟩ : ∃ a t, a % 256 = 0 ∧ (0 < t ∧ t < 256) ∧ n = a + t :=
    ⟨n / 256 * 256, n % 256, by omega, by omega, by omega⟩
  rw [blobReadChunkLoop_append outAddr t ha st out (Nat.zero_le a) (Nat.zero_mod _)]
  obtain ⟨p, sha, hst, hp⟩ := @blobReadChunkLoop_state fw flash aad outAddr a st out 0 (Nat.zero_le a)
  simp only
  split
  · rename_i hok
    have hp := hp hok
    rw [hst]
    -- The whole chunks have opened: the rest of the call is one piece.
    have hpiece : openPiece fw flash aad { st with processed := p, shaCtx := sha }
        (min (t - 0) chunkSize) = none := by
      have hfail := hpieces (p / 256) t ht.1 (by simp only [chunkLen]; omega)
      have hback : 256 * (p / 256) = p := by omega
      have hwhole : min (t - 0) chunkSize = t := by omega
      rw [hback] at hfail
      rw [hwhole]
      exact hfail
    rw [blobReadChunkLoop_fail ht.1 hpiece]
    simp
  · assumption

end

/-! ## Records and pieces -/

/-- Who is admitted depends on the header alone. -/
theorem admitted_congr {fw : Firmware} {m m' : Mem} {fat : Slot → FatEntry} {slot : Slot}
    {owner : Option Digest} {groupMask : UInt32}
    (h : Mem.Agree m m' (blobSlotBase slot) (blobSlotBase slot + headerSize)) :
    admitted fw m fat (UInt8.ofNat slot) owner groupMask =
      admitted fw m' fat (UInt8.ofNat slot) owner groupMask := by
  unfold admitted
  simp only [slotIsValid_ofNat, loadHeader_congr rfl h]

/-- The owner of a stored record is admitted to it. -/
theorem BlobRecord.StoredIn.admits {fw : Firmware} {r : BlobRecord} {m : Mem}
    (h : r.StoredIn fw m) (hlen : r.data.length ≤ maxContentsSize)
    (hkey : (securityGetRootSecret fw).bind (fun root => deriveFileKey fw root r.groupMask) =
      some r.masterKey) {fat : Slot → FatEntry} {uuid : Vector UInt8 16}
    (hfat : fat r.slot = r.fatEntry uuid) {groupMask : UInt32} (hmask : groupMask &&& r.groupMask ≠ 0) :
    admitted fw m fat (UInt8.ofNat r.slot) (some r.ownerPinHash) groupMask =
      some (r.slot, r.header fw, r.masterKey) := by
  have hgroup : (r.header fw).groupMask = r.groupMask := rfl
  have howner : (r.header fw).ownerPinHash = r.ownerPinHash := rfl
  unfold admitted
  simp only [slotIsValid_ofNat, h.loads hlen hfat, hgroup, howner, hkey]
  simp [hmask]

/-- At the beginning of chunk `i` the reader takes the tag of chunk `i`. -/
theorem pieceTag_eq {flash : Mem} {slot : Slot} {i : Nat} (hi : i < UInt32.size) {st : ReadState}
    (haddr : st.flashAddr = blobSlotBase slot + headerSize) (hproc : st.processed = 256 * i) :
    pieceTag flash st = storedTag flash (blobSlotBase slot) i := by
  have hslot : (st.flashAddr - flashBase) / slotSize = slot.val := by
    rw [haddr]
    simp only [blobSlotBase, flashBase, slotSize_eq, headerSize]
    omega
  have hidx : st.processed / chunkSize = i := by
    rw [hproc, chunkSize]
    omega
  have htag : blobSlotBase slot + tagsOffset + i * tagSize = tagAddr (blobSlotBase slot) i := by
    simp only [tagAddr, tagSize]
    omega
  unfold pieceTag storedTag
  rw [hslot, hidx, UInt32.toNat_ofNat_of_lt' hi, htag]
  rfl

/-- A piece that begins with chunk `i` of a record and is as long is the chunk. -/
theorem openPiece_eq {fw : Firmware} {flash : Mem} {aad : Bytes} {slot : Slot} {len i : Nat}
    (hi : i < UInt32.size) {st : ReadState} (haddr : st.flashAddr = blobSlotBase slot + headerSize)
    (hproc : st.processed = 256 * i) :
    openPiece fw flash aad st (min (len - 256 * i) chunkSize) =
      openChunk fw st.masterKey st.nonce aad flash (blobSlotBase slot) len i := by
  have hidx : st.processed / chunkSize = i := by
    rw [hproc, chunkSize]
    omega
  have hct : st.flashAddr + st.processed = chunkAddr (blobSlotBase slot) i := by
    rw [haddr, hproc, chunkAddr]
  unfold openPiece openChunk
  rw [pieceTag_eq hi haddr hproc, hidx, hct]
  rfl

/-- Chunks with another one behind them are whole. -/
theorem length_openChunks_lt {fw : Firmware} {masterKey : Key} {nonce : Nonce} {aad : Bytes}
    {flash : Mem} {base len i k : Nat} {pt : Bytes} (hk : i + k < numChunks len)
    (h : openChunks fw masterKey nonce aad flash base len i k = some pt) : pt.length = 256 * k := by
  simp only [numChunks] at hk
  induction k generalizing i pt with
  | zero =>
    cases h
    rfl
  | succ k ih =>
    rw [openChunks] at h
    split at h
    · cases h
    · rename_i p hp
      obtain ⟨q, hq, rfl⟩ := Option.map_eq_some_iff.mp h
      rw [List.length_append, length_openChunk hp, @ih (i + 1) q (by omega) hq, chunkLen]
      omega

/-- A read of a record up to the first chunk that does not open: the chunks before it are in the
    buffer, and its own place there is cleared. -/
theorem blobReadChunkLoop_stops {fw : Firmware} {flash : Mem} {aad : Bytes} {slot : Slot}
    {len : Nat} (hlen : len < UInt32.size) (outAddr : Nat) {i k : Nat} (hk : i + k < numChunks len)
    {st : ReadState} {out : Mem} {pt : Bytes}
    (haddr : st.flashAddr = blobSlotBase slot + headerSize) (hproc : st.processed = 256 * i)
    (hopen : openChunks fw st.masterKey st.nonce aad flash (blobSlotBase slot) len i k = some pt)
    (hfail : openChunk fw st.masterKey st.nonce aad flash (blobSlotBase slot) len (i + k) = none) :
    (blobReadChunkLoop fw flash aad outAddr len st out (256 * i)).1 = .cryptoError ∧
      (blobReadChunkLoop fw flash aad outAddr len st out (256 * i)).2.2 =
        (out.write (outAddr + 256 * i) pt).write (outAddr + 256 * (i + k))
          (List.replicate (chunkLen len (i + k)) 0) := by
  simp only [numChunks] at hk
  induction k generalizing i st out pt with
  | zero =>
    cases hopen
    rw [Nat.add_zero] at hfail ⊢
    rw [← openPiece_eq (by omega) haddr hproc] at hfail
    rw [blobReadChunkLoop_fail (by omega) hfail, Mem.write_nil]
    exact ⟨rfl, rfl⟩
  | succ k ih =>
    rw [openChunks] at hopen
    split at hopen
    · cases hopen
    · rename_i p hp
      obtain ⟨q, hq, rfl⟩ := Option.map_eq_some_iff.mp hopen
      have hplen := length_openChunk hp
      have hwhole : chunkLen len i = 256 := by
        simp only [chunkLen]
        omega
      have hnext : 256 * i + 256 = 256 * (i + 1) := by omega
      have hpiece : openPiece fw flash aad st (min (len - 256 * i) chunkSize) = some p := by
        rw [openPiece_eq (by omega) haddr hproc, hp]
      have hsize : min (len - 256 * i) chunkSize = 256 := hwhole
      rw [blobReadChunkLoop_next (by omega) hpiece, hsize, hnext]
      have hstop := @ih (i + 1) (by omega) (st.advance flash 256) (out.write (outAddr + 256 * i) p) q
        haddr (by rw [ReadState.advance_processed]; omega) hq (by rw [← hfail]; congr 1; omega)
      have hwrite : (out.write (outAddr + 256 * i) p).write (outAddr + 256 * (i + 1)) q =
          out.write (outAddr + 256 * i) (p ++ q) := by
        rw [← Mem.write_append, hplen, hwhole, Nat.add_assoc, hnext]
      rw [hwrite, show i + 1 + k = i + (k + 1) by omega] at hstop
      exact hstop

/-- Chunks that do not all open have a first one among them that does not. -/
theorem exists_of_openChunks_none {fw : Firmware} {masterKey : Key} {nonce : Nonce} {aad : Bytes} {flash : Mem}
    {base len i n : Nat} (h : openChunks fw masterKey nonce aad flash base len i n = none) :
    ∃ k < n, ∃ pt, openChunks fw masterKey nonce aad flash base len i k = some pt ∧
      openChunk fw masterKey nonce aad flash base len (i + k) = none := by
  induction n generalizing i with
  | zero => cases h
  | succ n ih =>
    rw [openChunks] at h
    split at h
    · rename_i hfirst
      exact ⟨0, Nat.succ_pos n, [], rfl, hfirst⟩
    · rename_i p hp
      obtain ⟨k, hk, pt, hopen, hfail⟩ := ih (Option.map_eq_none_iff.mp h)
      refine ⟨k + 1, by omega, p ++ pt, ?_, ?_⟩
      · simp only [openChunks, hp, hopen, Option.map_some]
      · rw [← hfail]
        congr 1
        omega
