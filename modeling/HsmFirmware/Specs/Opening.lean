-- SUMMARY: Reading a record: the streaming read in closed form, and the round trip with sealing.
import HsmFirmware.Specs.Record

/-!
# Opening records

What `blob_read_all` and `blob_read_all_group_mask` return, as a function of the
flash and the FAT entry alone: the header is loaded and checked, the chunks are
opened one by one, and the blob tag is compared.
-/

open Machine (replay)

section

variable (fw : Firmware) (masterKey : Key) (nonce : Nonce) (aad : Bytes) (m : Mem) (base : Nat)

/-- The tag flash holds for chunk `i`. -/
def storedTag (i : Nat) : Tag := (Codec.bytes 16).decode (m.read (tagAddr base i) 16)

/-- The tags of chunks `i` to `i + n - 1`. -/
def storedTags (i n : Nat) : Bytes :=
  (List.range' i n).flatMap fun j => (storedTag m base j).toList

/-- Decrypt chunk `i` of a record of `len` bytes. -/
def openChunk (len i : Nat) : Option Bytes :=
  secureCryptoAesGcmDecrypt fw.prim
    (secureCryptoDeriveChunkKey fw.prim masterKey (UInt32.ofNat i)) nonce aad
    (m.read (chunkAddr base i) (chunkLen len i)) (storedTag m base i)

/-- Decrypt chunks `i` to `i + n - 1`; all of them must be intact. -/
def openChunks (len i : Nat) : Nat → Option Bytes
  | 0 => some []
  | n + 1 =>
    match openChunk fw masterKey nonce aad m base len i with
    | none => none
    | some pt => (openChunks len (i + 1) n).map (pt ++ ·)

end

/-- The plaintext of the record behind a header, if chunks and blob tag are intact. -/
def openRecord (fw : Firmware) (m : Mem) (slot : Slot) (header : Header) : Option Bytes :=
  match (securityGetRootSecret fw).bind fun root => deriveFileKey fw root header.groupMask with
  | none => none
  | some masterKey =>
    let len := header.plaintextLen.toNat
    let tags := storedTags m (blobSlotBase slot) 0 (numChunks len)
    match openChunks fw masterKey header.nonce (buildAad header) m (blobSlotBase slot) len 0
        (numChunks len) with
    | none => none
    | some pt =>
      if fw.prim.hmac masterKey.toList (fw.prim.sha256 tags).toList = header.blobTag then some pt
      else none

/-- The contents `blob_read_all` gives to a reader with a PIN hash, or
    `blob_read_all_group_mask` to one without, into a buffer of `MAX_CONTENTS_SIZE`. -/
def recordContents (fw : Firmware) (m : Mem) (fat : Slot → FatEntry) (slot : Slot)
    (owner : Option Digest) (groupMask : UInt32) : Option Bytes :=
  match loadHeader m fat slot with
  | .error _ => none
  | .ok header =>
    if groupMask &&& header.groupMask = 0 ∨ (owner ≠ none ∧ owner ≠ some header.ownerPinHash) ∨
        maxContentsSize < header.plaintextLen.toNat then none
    else openRecord fw m slot header

/-! ## The streaming read -/

section

variable {fw : Firmware} {masterKey : Key} {nonce : Nonce} {aad : Bytes} {m : Mem}

@[simp] theorem storedTags_zero (base i : Nat) : storedTags m base i 0 = [] := rfl

theorem storedTags_succ (base i n : Nat) :
    storedTags m base i (n + 1) = (storedTag m base i).toList ++ storedTags m base (i + 1) n := by
  simp [storedTags, List.range'_succ]

theorem length_openChunk {base len i : Nat} {pt : Bytes}
    (h : openChunk fw masterKey nonce aad m base len i = some pt) : pt.length = chunkLen len i := by
  rw [secureCryptoAesGcmDecrypt_length h, Mem.length_read]

theorem length_openChunks {base len i n : Nat} {pt : Bytes} (hn : n = numChunks len - i)
    (h : openChunks fw masterKey nonce aad m base len i n = some pt) :
    pt.length = len - 256 * i := by
  induction n generalizing i pt with
  | zero =>
    cases h
    simp only [numChunks] at hn
    simp
    omega
  | succ n ih =>
    rw [openChunks] at h
    split at h
    · cases h
    · rename_i p hp
      obtain ⟨q, hq, rfl⟩ := Option.map_eq_some_iff.mp h
      rw [List.length_append, length_openChunk hp, ih (by omega) hq, chunkLen]
      omega

/-- Chunks that open give the rest of the file from the first of them on. -/
theorem openChunks_eq_drop {data : Bytes} {base i n : Nat}
    (hopen : ∀ j < numChunks data.length,
      openChunk fw masterKey nonce aad m base data.length j = some (chunk data j))
    (hn : i + n = numChunks data.length) :
    openChunks fw masterKey nonce aad m base data.length i n = some (data.drop (256 * i)) := by
  induction n generalizing i with
  | zero =>
    simp only [numChunks] at hn
    rw [List.drop_eq_nil_of_le (by omega)]
    rfl
  | succ n ih =>
    have hfirst := hopen i (by omega)
    have hrest := @ih (i + 1) (by omega)
    simp only [openChunks, hfirst, hrest, Option.map_some]
    rw [chunk, show 256 * (i + 1) = 256 * i + 256 by omega, ← List.drop_drop,
      List.take_append_drop]

/-- If all chunks open, so does each of them. -/
theorem openChunk_of_openChunks {base len i n : Nat} {pt : Bytes}
    (h : openChunks fw masterKey nonce aad m base len i n = some pt) {j : Nat} (hi : i ≤ j)
    (hj : j < i + n) : ∃ p, openChunk fw masterKey nonce aad m base len j = some p := by
  induction n generalizing i pt with
  | zero => omega
  | succ n ih =>
    rw [openChunks] at h
    split at h
    · cases h
    · rename_i p hp
      obtain ⟨q, hq, -⟩ := Option.map_eq_some_iff.mp h
      rcases Nat.eq_or_lt_of_le hi with rfl | hlt
      · exact ⟨p, hp⟩
      · exact ih hq hlt (by omega)

/-- The loop of `blob_read_chunk` over a whole record opens its chunks. -/
theorem blobReadChunkLoop_eq {slot : Slot} {len : Nat} (hlen : len < UInt32.size) (outAddr : Nat)
    {i n : Nat} (hn : n = numChunks len - i) (hi : i ≤ numChunks len) {st : ReadState} {out : Mem}
    (hbase : st.flashAddr = blobSlotBase slot + headerSize) (hproc : st.processed = min (256 * i) len) :
    (∀ pt, openChunks fw st.masterKey st.nonce aad m (blobSlotBase slot) len i n = some pt →
      blobReadChunkLoop fw m aad outAddr len st out (min (256 * i) len) =
        (.ok, { st with
                  processed := len
                  shaCtx := st.shaCtx ++ storedTags m (blobSlotBase slot) i n },
          out.write (outAddr + min (256 * i) len) pt)) ∧
    (openChunks fw st.masterKey st.nonce aad m (blobSlotBase slot) len i n = none →
      (blobReadChunkLoop fw m aad outAddr len st out (min (256 * i) len)).1 = .cryptoError) := by
  induction n generalizing i st out with
  | zero =>
    simp only [numChunks] at hn hi
    have hmin : min (256 * i) len = len := by omega
    refine ⟨fun pt hpt => ?_, fun h => by cases h⟩
    cases hpt
    rw [hmin] at hproc ⊢
    rw [blobReadChunkLoop, if_neg (Nat.lt_irrefl len), ← hproc]
    simp [storedTags]
  | succ n ih =>
    simp only [numChunks] at hn hi
    have hmin : min (256 * i) len = 256 * i := by omega
    have hidx : st.processed / chunkSize = i := by
      rw [hproc, hmin, chunkSize]
      omega
    have hnat : (UInt32.ofNat i).toNat = i := UInt32.toNat_ofNat_of_lt' (by omega)
    have hslot : (st.flashAddr - flashBase) / slotSize = slot.val := by
      rw [hbase]
      simp only [blobSlotBase, flashBase, slotSize_eq, headerSize]
      omega
    have htoProc : min (len - 256 * i) chunkSize = chunkLen len i := rfl
    have hct : st.flashAddr + st.processed = chunkAddr (blobSlotBase slot) i := by
      rw [hbase, hproc, hmin, chunkAddr]
    have htag : blobSlotBase slot + tagsOffset + i * tagSize = tagAddr (blobSlotBase slot) i := by
      simp only [tagAddr, tagSize]
      omega
    rw [blobReadChunkLoop, if_pos (by omega)]
    simp only [hmin, hidx, hnat, hslot, htoProc, hct, htag, openChunks]
    rw [show (Codec.bytes 16).decode (m.read (tagAddr (blobSlotBase slot) i) tagSize) =
      storedTag m (blobSlotBase slot) i from rfl]
    cases hopen : openChunk fw st.masterKey st.nonce aad m (blobSlotBase slot) len i with
    | none =>
      rw [openChunk] at hopen
      simp [hopen]
    | some p =>
      have hplen := length_openChunk hopen
      rw [openChunk] at hopen
      simp only [hopen]
      have hnext : 256 * i + chunkLen len i = min (256 * (i + 1)) len := by
        simp only [chunkLen]
        omega
      have hih := @ih (i + 1) (by simp only [numChunks]; omega) (by simp only [numChunks]; omega)
        { st with
            processed := st.processed + chunkLen len i
            shaCtx := st.shaCtx ++ (storedTag m (blobSlotBase slot) i).toList }
        (out.write (outAddr + 256 * i) p) hbase (by show st.processed + chunkLen len i = _; omega)
      obtain ⟨hok, hfail⟩ := hih
      rw [← hnext] at hok hfail
      constructor
      · intro pt hpt
        obtain ⟨q, hq, rfl⟩ := Option.map_eq_some_iff.mp hpt
        rw [hok q hq, storedTags_succ, List.append_assoc, ← Mem.write_append, hplen,
          Nat.add_assoc]
      · intro h
        exact hfail (Option.map_eq_none_iff.mp h)

/-! ## Setting up a read -/

@[simp] theorem slotIsValid_ofNat (slot : Slot) : slotIsValid (UInt8.ofNat slot) = some slot := by
  have hslot : slot.val < 8 := slot.isLt
  have hnat : (UInt8.ofNat slot.val).toNat = slot.val := by
    simp
    omega
  simp [slotIsValid, hnat]

/-- The RAM once the read of a record is set up. -/
def Ram.opened (ram : Ram) (slot : Slot) (header : Header) (masterKey : Key) : Ram :=
  { ram with
    gAad := buildAad header
    gReadState :=
      { flashAddr := blobSlotBase slot + headerSize
        processed := 0
        totalLen := header.plaintextLen.toNat
        nonce := header.nonce
        masterKey := masterKey
        expectedBlobTag := header.blobTag
        shaCtx := [] } }

/-- The record a reader is admitted to, with its key: slot, header, mask and owner pass
    their checks, and the key can be derived. `owner` is `none` for the reader without PIN. -/
def admitted (fw : Firmware) (flash : Mem) (fat : Slot → FatEntry) (slot : UInt8)
    (owner : Option Digest) (groupMask : UInt32) : Option (Slot × Header × Key) :=
  match slotIsValid slot with
  | none => none
  | some slot =>
    match loadHeader flash fat slot with
    | .error _ => none
    | .ok header =>
      if groupMask &&& header.groupMask = 0 ∨ (owner ≠ none ∧ owner ≠ some header.ownerPinHash) then
        none
      else
        ((securityGetRootSecret fw).bind fun root => deriveFileKey fw root header.groupMask).map
          fun masterKey => (slot, header, masterKey)

theorem loadHeader_ne_ok (flash : Mem) (fat : Slot → FatEntry) (slot : Slot) :
    loadHeader flash fat slot ≠ .error .ok := by
  intro h
  simp only [loadHeader] at h
  split at h
  · cases h
  · split at h
    · cases h
    · split at h <;> cases h

/-- A read that is not admitted changes nothing, and one that is admitted is set up. -/
theorem blobReadInitInternal_eq (fw : Firmware) (flash : Mem) (ram : Ram) (slot : UInt8)
    (owner : Option Digest) (groupMask : UInt32) :
    match admitted fw flash ram.gFat slot owner groupMask with
    | none => ∃ rc, rc ≠ .ok ∧
        blobReadInitInternal fw flash ram slot owner owner.isSome groupMask = (.error rc, ram)
    | some (slot', header, masterKey) =>
        blobReadInitInternal fw flash ram slot owner owner.isSome groupMask =
          (.ok header.plaintextLen.toNat, ram.opened slot' header masterKey) := by
  have hreq : ¬ (owner.isSome = true ∧ owner = none) := by
    rintro ⟨h, rfl⟩
    cases h
  unfold admitted blobReadInitInternal
  cases slotIsValid slot with
  | none => exact ⟨_, by simp, rfl⟩
  | some s =>
    simp only [if_neg hreq]
    cases hload : loadHeader flash ram.gFat s with
    | error rc =>
      refine ⟨rc, ?_, rfl⟩
      rintro rfl
      exact loadHeader_ne_ok flash ram.gFat s hload
    | ok header =>
      simp only
      by_cases hmask : groupMask &&& header.groupMask = 0
      · rw [if_pos (c := _ ∨ _) (.inl hmask)]
        exact ⟨_, by simp, if_pos hmask⟩
      rw [if_neg (c := groupMask &&& header.groupMask = 0) hmask]
      by_cases howner : owner ≠ none ∧ owner ≠ some header.ownerPinHash
      · rw [if_pos (c := _ ∨ _) (.inr howner)]
        exact ⟨_, by simp, if_pos ⟨Option.isSome_iff_ne_none.mpr howner.1, howner.2⟩⟩
      rw [if_neg (c := _ ∨ _) (not_or.mpr ⟨hmask, howner⟩),
        if_neg (c := owner.isSome = true ∧ owner ≠ some header.ownerPinHash)
          (fun h => howner ⟨Option.isSome_iff_ne_none.mp h.1, h.2⟩)]
      cases securityGetRootSecret fw with
      | none => exact ⟨_, by simp, rfl⟩
      | some root =>
        simp only [Option.bind_some]
        cases deriveFileKey fw root header.groupMask with
        | none => exact ⟨_, by simp, rfl⟩
        | some masterKey => rfl

theorem blobReadInitInternal_refused {flash : Mem} {ram : Ram} {slot : UInt8}
    {owner : Option Digest} {groupMask : UInt32}
    (h : admitted fw flash ram.gFat slot owner groupMask = none) :
    ∃ rc, rc ≠ .ok ∧
      blobReadInitInternal fw flash ram slot owner owner.isSome groupMask = (.error rc, ram) := by
  have hinit := blobReadInitInternal_eq fw flash ram slot owner groupMask
  rw [h] at hinit
  exact hinit

theorem blobReadInitInternal_admitted {flash : Mem} {ram : Ram} {slot : UInt8}
    {owner : Option Digest} {groupMask : UInt32} {s : Slot} {header : Header} {masterKey : Key}
    (h : admitted fw flash ram.gFat slot owner groupMask = some (s, header, masterKey)) :
    blobReadInitInternal fw flash ram slot owner owner.isSome groupMask =
      (.ok header.plaintextLen.toNat, ram.opened s header masterKey) := by
  have hinit := blobReadInitInternal_eq fw flash ram slot owner groupMask
  rw [h] at hinit
  exact hinit

/-- The checks a reader has passed who is admitted. -/
theorem admitted_some {flash : Mem} {fat : Slot → FatEntry} {slot s : Slot} {owner : Option Digest}
    {groupMask : UInt32} {header : Header} {masterKey : Key}
    (h : admitted fw flash fat (UInt8.ofNat slot) owner groupMask = some (s, header, masterKey)) :
    slot = s ∧ loadHeader flash fat slot = .ok header ∧ groupMask &&& header.groupMask ≠ 0 ∧
      (owner = none ∨ owner = some header.ownerPinHash) ∧
      (securityGetRootSecret fw).bind (fun root => deriveFileKey fw root header.groupMask) =
        some masterKey := by
  unfold admitted at h
  simp only [slotIsValid_ofNat] at h
  split at h
  · cases h
  · rename_i header' hload
    split at h
    · cases h
    · rename_i hcheck
      obtain ⟨hmask, howner⟩ := not_or.mp hcheck
      have hpin : owner = none ∨ owner = some header'.ownerPinHash :=
        (Decidable.not_and_iff_not_or_not.mp howner).imp not_not.mp not_not.mp
      obtain ⟨key, hkey, heq⟩ := Option.map_eq_some_iff.mp h
      cases heq
      exact ⟨rfl, hload, hmask, hpin, hkey⟩

/-- The contents of a record are those of an admitted one, if they fit into the buffer. -/
theorem recordContents_eq (flash : Mem) (fat : Slot → FatEntry) (slot : Slot) (owner : Option Digest)
    (groupMask : UInt32) :
    recordContents fw flash fat slot owner groupMask =
      match admitted fw flash fat (UInt8.ofNat slot) owner groupMask with
      | none => none
      | some (_, header, _) =>
        if maxContentsSize < header.plaintextLen.toNat then none
        else openRecord fw flash slot header := by
  unfold recordContents admitted
  rw [slotIsValid_ofNat]
  simp only
  cases loadHeader flash fat slot with
  | error rc => rfl
  | ok header =>
    simp only
    by_cases hreader :
        groupMask &&& header.groupMask = 0 ∨ (owner ≠ none ∧ owner ≠ some header.ownerPinHash)
    · rw [if_pos hreader, if_pos (hreader.elim .inl fun h => .inr (.inl h))]
    · obtain ⟨hmask, howner⟩ := not_or.mp hreader
      rw [if_neg hreader]
      cases hkey : (securityGetRootSecret fw).bind fun root =>
          deriveFileKey fw root header.groupMask with
      | none =>
        have hnone : openRecord fw flash slot header = none := by
          unfold openRecord
          rw [hkey]
        rw [hnone, ite_self]
        rfl
      | some masterKey =>
        show _ = if maxContentsSize < header.plaintextLen.toNat then none
          else openRecord fw flash slot header
        by_cases hlen : maxContentsSize < header.plaintextLen.toNat
        · rw [if_pos hlen, if_pos (.inr (.inr hlen))]
        · rw [if_neg hlen, if_neg (not_or.mpr ⟨hmask, not_or.mpr ⟨howner, hlen⟩⟩)]

/-! ## Whole reads -/

/-- Whatever a whole read returns, only the scratch of the blob layer changes in RAM. It
    succeeds exactly when the record has contents for this reader, and gives them. -/
structure ReadsContents (ram : Ram) (out : Mem) (outAddr : Nat) (contents : Option Bytes)
    (r : BlobRead) : Prop where
  ram : ∃ st aad, r.ram = { ram with gReadState := st, gAad := aad }
  ok : ∀ d, contents = some d →
    r.status = .ok ∧ r.out = out.write outAddr d ∧ r.outLen = d.length ∧ d.length ≤ maxContentsSize
  fail : contents = none → r.status ≠ .ok

/-- The part of a whole read behind a successful `blob_read_init`. -/
theorem blobReadRest_opened {slot : Slot} {header : Header} {masterKey : Key} {ram : Ram}
    {out : Mem} {outAddr : Nat} (hlen : header.plaintextLen.toNat ≤ maxContentsSize)
    (hkey : (securityGetRootSecret fw).bind (fun root => deriveFileKey fw root header.groupMask) =
      some masterKey) (hst : ram.gReadState =
      { flashAddr := blobSlotBase slot + headerSize
        processed := 0
        totalLen := header.plaintextLen.toNat
        nonce := header.nonce
        masterKey := masterKey
        expectedBlobTag := header.blobTag
        shaCtx := [] }) (haad : ram.gAad = buildAad header) :
    ReadsContents ram out outAddr (openRecord fw m slot header)
      (blobReadRest fw m (.ok header.plaintextLen.toNat, ram) out outAddr maxContentsSize) := by
  have hcap : ¬ maxContentsSize < header.plaintextLen.toNat := by omega
  have hroom : ¬ ram.gReadState.totalLen <
      ram.gReadState.processed + header.plaintextLen.toNat := by
    rw [hst]
    simp
  have hloop := @blobReadChunkLoop_eq fw (buildAad header) m slot header.plaintextLen.toNat
    (by simp only [maxContentsSize] at hlen; simp only [UInt32.size]; omega) outAddr 0 (numChunks header.plaintextLen.toNat)
    (by omega) (Nat.zero_le _) ram.gReadState out (by rw [hst]) (by rw [hst]; simp)
  obtain ⟨hok, hfail⟩ := hloop
  simp only [Nat.mul_zero, Nat.zero_min, Nat.add_zero] at hok hfail
  cases hopen : openChunks fw masterKey header.nonce (buildAad header) m (blobSlotBase slot)
      header.plaintextLen.toNat 0 (numChunks header.plaintextLen.toNat) with
  | none =>
    have hrecord : openRecord fw m slot header = none := by simp [openRecord, hkey, hopen]
    -- A chunk that does not open: only possible when there is one.
    have hpos : 0 < header.plaintextLen.toNat := by
      rcases Nat.eq_zero_or_pos header.plaintextLen.toNat with h | h
      · rw [h] at hopen
        cases hopen
      · exact h
    have hrc := hfail (by rw [hst]; exact hopen)
    rw [hrecord]
    simp only [blobReadRest, if_neg hcap, if_pos hpos, blobReadChunk, haad, if_neg hroom, hrc]
    exact ⟨⟨_, _, rfl⟩, (fun d hd => by cases hd), fun _ => by simp⟩
  | some pt =>
    have hrecord : openRecord fw m slot header =
        if fw.prim.hmac masterKey.toList (fw.prim.sha256 (storedTags m (blobSlotBase slot) 0
          (numChunks header.plaintextLen.toNat))).toList = header.blobTag then some pt
        else none := by simp [openRecord, hkey, hopen]
    have hpt := length_openChunks (by omega) hopen
    have hrc := hok pt (by rw [hst]; exact hopen)
    have hread : (if 0 < header.plaintextLen.toNat then
          blobReadChunk fw m ram out outAddr header.plaintextLen.toNat else (.ok, ram, out)) =
        (.ok, { ram with gReadState :=
            { ram.gReadState with
              processed := header.plaintextLen.toNat
              shaCtx := storedTags m (blobSlotBase slot) 0
                (numChunks header.plaintextLen.toNat) } },
          out.write outAddr pt) := by
      split
      · simp only [blobReadChunk, haad, if_neg hroom, hrc]
        rw [hst]
        rfl
      · rename_i h
        have hzero : header.plaintextLen.toNat = 0 := by omega
        rw [hzero] at hopen ⊢
        cases hopen
        rw [Mem.write_nil]
        congr 2
        cases ram
        simp_all [storedTags, numChunks]
    rw [hrecord]
    simp only [blobReadRest, if_neg hcap, hread, ne_eq, not_true_eq_false, if_false, blobReadFinish]
    rw [hst]
    by_cases htag : fw.prim.hmac masterKey.toList (fw.prim.sha256 (storedTags m (blobSlotBase slot) 0
        (numChunks header.plaintextLen.toNat))).toList = header.blobTag
    · simp only [htag, not_true_eq_false, if_false, if_true]
      refine ⟨⟨_, _, rfl⟩, fun d hd => ?_, fun h => by cases h⟩
      cases hd
      exact ⟨rfl, rfl, by simpa using hpt.symm, by omega⟩
    · simp only [htag, not_false_eq_true, if_true, if_false]
      exact ⟨⟨_, _, rfl⟩, (fun d hd => by cases hd), fun _ => by simp⟩

theorem blobReadRest_reads (flash : Mem) (ram : Ram) (slot : Slot) (owner : Option Digest)
    (groupMask : UInt32) (out : Mem) (outAddr : Nat) :
    ReadsContents ram out outAddr (recordContents fw flash ram.gFat slot owner groupMask)
      (blobReadRest fw flash
        (blobReadInitInternal fw flash ram (UInt8.ofNat slot) owner owner.isSome groupMask) out
        outAddr maxContentsSize) := by
  rw [recordContents_eq]
  cases hadm : admitted fw flash ram.gFat (UInt8.ofNat slot) owner groupMask with
  | none =>
    obtain ⟨rc, hrc, hrefused⟩ := blobReadInitInternal_refused hadm
    rw [hrefused]
    exact ⟨⟨_, _, rfl⟩, (fun d hd => by cases hd), fun _ => hrc⟩
  | some a =>
    obtain ⟨s, header, masterKey⟩ := a
    obtain ⟨rfl, -, -, -, hkey⟩ := admitted_some hadm
    rw [blobReadInitInternal_admitted hadm]
    simp only
    by_cases hlen : maxContentsSize < header.plaintextLen.toNat
    · rw [if_pos hlen]
      simp only [blobReadRest, if_pos hlen]
      exact ⟨⟨_, _, rfl⟩, (fun d hd => by cases hd), fun _ => by simp⟩
    · rw [if_neg hlen]
      have hspec := @blobReadRest_opened fw flash slot header masterKey (ram.opened slot header masterKey)
        out outAddr (by omega) hkey rfl rfl
      obtain ⟨st, aad, hram⟩ := hspec.ram
      exact ⟨⟨st, aad, hram⟩, hspec.ok, hspec.fail⟩

theorem blobReadAll_reads (flash : Mem) (ram : Ram) (slot : Slot) (pinHash : Digest)
    (groupMask : UInt32) (out : Mem) (outAddr : Nat) :
    ReadsContents ram out outAddr (recordContents fw flash ram.gFat slot (some pinHash) groupMask)
      (blobReadAll fw flash ram (UInt8.ofNat slot) pinHash groupMask out outAddr
        maxContentsSize) :=
  blobReadRest_reads flash ram slot (some pinHash) groupMask out outAddr

theorem blobReadAllGroupMask_reads (flash : Mem) (ram : Ram) (slot : Slot) (groupMask : UInt32)
    (out : Mem) (outAddr : Nat) :
    ReadsContents ram out outAddr (recordContents fw flash ram.gFat slot none groupMask)
      (blobReadAllGroupMask fw flash ram (UInt8.ofNat slot) groupMask out outAddr
        maxContentsSize) :=
  blobReadRest_reads flash ram slot none groupMask out outAddr

end

/-! ## Inversion -/

theorem openRecord_some {fw : Firmware} {m : Mem} {slot : Slot} {header : Header} {d : Bytes}
    (h : openRecord fw m slot header = some d) :
    ∃ masterKey,
      (securityGetRootSecret fw).bind (fun root => deriveFileKey fw root header.groupMask) =
        some masterKey ∧
      openChunks fw masterKey header.nonce (buildAad header) m (blobSlotBase slot)
        header.plaintextLen.toNat 0 (numChunks header.plaintextLen.toNat) = some d ∧
      fw.prim.hmac masterKey.toList (fw.prim.sha256 (storedTags m (blobSlotBase slot) 0
        (numChunks header.plaintextLen.toNat))).toList = header.blobTag := by
  simp only [openRecord] at h
  split at h
  · cases h
  · rename_i masterKey hkey
    split at h
    · cases h
    · rename_i pt hpt
      split at h
      · rename_i htag
        cases h
        exact ⟨masterKey, hkey, hpt, htag⟩
      · cases h

theorem recordContents_some {fw : Firmware} {m : Mem} {fat : Slot → FatEntry} {slot : Slot}
    {owner : Option Digest} {groupMask : UInt32} {d : Bytes}
    (h : recordContents fw m fat slot owner groupMask = some d) :
    ∃ header, loadHeader m fat slot = .ok header ∧ groupMask &&& header.groupMask ≠ 0 ∧
      (owner = none ∨ owner = some header.ownerPinHash) ∧
      header.plaintextLen.toNat ≤ maxContentsSize ∧ openRecord fw m slot header = some d := by
  rw [recordContents] at h
  split at h
  · cases h
  · rename_i header hload
    split at h
    · cases h
    · rename_i hcheck
      refine ⟨header, hload, fun hmask => hcheck (.inl hmask), ?_,
        Nat.not_lt.mp fun hlt => hcheck (.inr (.inr hlt)), h⟩
      by_contra howner
      exact hcheck (.inr (.inl (not_or.mp howner)))

theorem recordContents_length_le {fw : Firmware} {m : Mem} {fat : Slot → FatEntry} {slot : Slot}
    {owner : Option Digest} {groupMask : UInt32} {d : Bytes}
    (h : recordContents fw m fat slot owner groupMask = some d) : d.length ≤ maxContentsSize := by
  obtain ⟨header, -, -, -, hlen, hopen⟩ := recordContents_some h
  obtain ⟨masterKey, -, hpt, -⟩ := openRecord_some hopen
  rw [length_openChunks (by omega) hpt]
  omega

/-! ## Frames -/

section

variable {fw : Firmware} {m m' : Mem} {slot : Slot}

theorem blobSlotBase_lt (slot : Slot) : blobSlotBase slot + slotSize ≤ fatAddr := by
  have hslot : slot.val < 8 := slot.isLt
  simp only [blobSlotBase, flashBase, slotSize_eq, fatAddr]
  omega

@[simp] theorem toNat_blobSlotBase (slot : Slot) :
    (UInt32.ofNat (blobSlotBase slot)).toNat = blobSlotBase slot := by
  have h := blobSlotBase_lt slot
  simp only [slotSize_eq, fatAddr] at h
  simp
  omega

/-- The slots do not overlap. -/
theorem blobSlotBase_apart {s t : Slot} (h : s ≠ t) :
    blobSlotBase s + slotSize ≤ blobSlotBase t ∨ blobSlotBase t + slotSize ≤ blobSlotBase s := by
  have hne : s.val ≠ t.val := fun he => h (Fin.ext he)
  simp only [blobSlotBase, slotSize_eq]
  omega

theorem loadHeader_congr {fat fat' : Slot → FatEntry} (hfat : fat slot = fat' slot)
    (h : Mem.Agree m m' (blobSlotBase slot) (blobSlotBase slot + headerSize)) :
    loadHeader m fat slot = loadHeader m' fat' slot := by
  simp only [loadHeader, hfat]
  split
  · rfl
  · split
    · rfl
    · rename_i hcheck
      have haddr : (fat' slot).flashAddr = UInt32.ofNat (blobSlotBase slot) :=
        Decidable.byContradiction fun hne => hcheck (.inl hne)
      rw [haddr, toNat_blobSlotBase, h.read (Nat.le_refl _) (Nat.le_refl _)]

theorem storedTag_congr {base i : Nat} (h : Mem.Agree m m' base (base + slotSize)) (hi : i < 32) :
    storedTag m base i = storedTag m' base i := by
  rw [storedTag, storedTag,
    h.read (by simp only [tagAddr]; omega) (by simp only [tagAddr, tagsOffset_eq, slotSize_eq]; omega)]

theorem openChunks_congr {masterKey : Key} {nonce : Nonce} {aad : Bytes} {base len i n : Nat}
    (h : Mem.Agree m m' base (base + slotSize)) (hlen : len ≤ maxContentsSize)
    (hn : i + n ≤ numChunks len) :
    openChunks fw masterKey nonce aad m base len i n =
      openChunks fw masterKey nonce aad m' base len i n := by
  induction n generalizing i with
  | zero => rfl
  | succ n ih =>
    simp only [numChunks, maxContentsSize] at hlen hn
    have hct : m.read (chunkAddr base i) (chunkLen len i) =
        m'.read (chunkAddr base i) (chunkLen len i) := by
      have hle := chunkLen_le len i
      refine h.read (by simp only [chunkAddr]; omega) ?_
      simp only [chunkAddr, headerSize, slotSize_eq]
      omega
    simp only [openChunks, openChunk, hct, storedTag_congr h (show i < 32 by omega)]
    rw [ih (by simp only [numChunks]; omega)]

theorem storedTags_congr {base len i n : Nat} (h : Mem.Agree m m' base (base + slotSize))
    (hlen : len ≤ maxContentsSize) (hn : i + n ≤ numChunks len) :
    storedTags m base i n = storedTags m' base i n := by
  induction n generalizing i with
  | zero => rw [storedTags_zero, storedTags_zero]
  | succ n ih =>
    simp only [numChunks, maxContentsSize] at hlen hn
    rw [storedTags_succ, storedTags_succ, storedTag_congr h (show i < 32 by omega),
      ih (by simp only [numChunks]; omega)]

/-- What a reader gets depends on the FAT entry and the pages of the slot only. -/
theorem recordContents_congr {fat fat' : Slot → FatEntry} {owner : Option Digest}
    {groupMask : UInt32} (hfat : fat slot = fat' slot)
    (h : Mem.Agree m m' (blobSlotBase slot) (blobSlotBase slot + slotSize)) :
    recordContents fw m fat slot owner groupMask = recordContents fw m' fat' slot owner groupMask := by
  have hheader : Mem.Agree m m' (blobSlotBase slot) (blobSlotBase slot + headerSize) :=
    h.mono (Nat.le_refl _) (by simp [headerSize])
  rw [recordContents, recordContents, loadHeader_congr hfat hheader]
  split
  · rfl
  · rename_i header _
    split
    · rfl
    · rename_i hcheck
      have hlen : header.plaintextLen.toNat ≤ maxContentsSize :=
        Nat.not_lt.mp fun hlt => hcheck (.inr (.inr hlt))
      simp only [openRecord, openChunks_congr h hlen (Nat.zero_add _).le,
        storedTags_congr h hlen (Nat.zero_add _).le]

end

/-! ## The round trip -/

namespace BlobRecord

variable {fw : Firmware} {r : BlobRecord} {m m' : Mem}

/-- Flash holds the record: header, ciphertexts and tags. -/
structure StoredIn (fw : Firmware) (r : BlobRecord) (m : Mem) : Prop where
  header : m.read r.base headerSize = Header.codec.encode (r.header fw)
  ct : ∀ i < numChunks r.data.length, m.read (chunkAddr r.base i) (chunkLen r.data.length i) =
    (sealChunk fw r.masterKey r.nonce (buildAad r.draft) r.data i).1
  tag : ∀ i < numChunks r.data.length, storedTag m r.base i =
    (sealChunk fw r.masterKey r.nonce (buildAad r.draft) r.data i).2

theorem storedIn_programAll (hgcm : fw.prim.GcmLaws) (hlen : r.data.length ≤ maxContentsSize)
    (he : m.Erased r.base (r.base + slotSize)) :
    r.StoredIn fw (Mem.programAll (r.areas fw) m) where
  header := by
    have h := read_areas hgcm hlen he (p := (r.base, Header.codec.encode (r.header fw)))
      (List.mem_append_right _ (List.mem_singleton.mpr rfl))
    simpa [headerSize] using h
  ct i hi := by
    have h := read_areas hgcm hlen he (p := (chunkAddr r.base i,
      (sealChunk fw r.masterKey r.nonce (buildAad r.draft) r.data i).1))
      (List.mem_append_left _ (mem_chunksAreas.mpr ⟨i, Nat.zero_le i, by omega, .inl rfl⟩))
    rwa [length_sealChunk hgcm] at h
  tag i hi := by
    have h := read_areas hgcm hlen he (p := (tagAddr r.base i,
      (sealChunk fw r.masterKey r.nonce (buildAad r.draft) r.data i).2.toList))
      (List.mem_append_left _ (mem_chunksAreas.mpr ⟨i, Nat.zero_le i, by omega, .inr rfl⟩))
    rw [Vector.length_toList] at h
    rw [storedTag, h]
    exact (Codec.bytes 16).decode_encode' _

theorem StoredIn.of_agree (h : r.StoredIn fw m) (hlen : r.data.length ≤ maxContentsSize)
    (ha : Mem.Agree m' m r.base (r.base + slotSize)) : r.StoredIn fw m' where
  header := by
    rw [ha.read (Nat.le_refl _) (by simp [headerSize]), h.header]
  ct i hi := by
    simp only [numChunks, maxContentsSize] at hlen hi
    have hle := chunkLen_le r.data.length i
    rw [ha.read (by simp only [chunkAddr]; omega)
      (by simp only [chunkAddr, headerSize, slotSize_eq]; omega), h.ct i hi]
  tag i hi := by
    have hi' := hi
    simp only [numChunks, maxContentsSize] at hlen hi'
    rw [storedTag_congr ha (by omega), h.tag i hi]

theorem StoredIn.tags_eq (h : r.StoredIn fw m) {i n : Nat}
    (hn : i + n ≤ numChunks r.data.length) :
    storedTags m r.base i n =
      sealedTags fw r.masterKey r.nonce (buildAad r.draft) r.data i n := by
  induction n generalizing i with
  | zero => rw [storedTags_zero, sealedTags_zero]
  | succ n ih =>
    rw [storedTags_succ, sealedTags_succ, h.tag i (by omega), ih (by omega)]

/-- Opening inverts sealing. -/
theorem StoredIn.openChunk_eq (hgcm : fw.prim.GcmLaws) (h : r.StoredIn fw m) {i : Nat}
    (hi : i < numChunks r.data.length) :
    openChunk fw r.masterKey r.nonce (buildAad r.draft) m r.base r.data.length i =
      some (chunk r.data i) := by
  rw [openChunk, h.ct i hi, h.tag i hi]
  exact hgcm.inverts (encrypt_chunk hgcm r.data i)

/-- So the chunks give back the file. -/
theorem StoredIn.opens (hgcm : fw.prim.GcmLaws) (h : r.StoredIn fw m) {i n : Nat}
    (hn : i + n = numChunks r.data.length) :
    openChunks fw r.masterKey r.nonce (buildAad r.draft) m r.base r.data.length i n =
      some (r.data.drop (256 * i)) :=
  openChunks_eq_drop (fun _ hj => h.openChunk_eq hgcm hj) hn

theorem length_fatEntry (hlen : r.data.length ≤ maxContentsSize) (uuid : Vector UInt8 16) :
    (r.fatEntry uuid).length.toNat = headerSize + r.data.length := by
  simp only [maxContentsSize] at hlen
  simp only [fatEntry, headerSize]
  simp
  omega

theorem isEmpty_fatEntry (uuid : Vector UInt8 16) : (r.fatEntry uuid).isEmpty = false := by
  have hbase := blobSlotBase_lt r.slot
  simp only [slotSize_eq, fatAddr] at hbase
  have hne : UInt32.ofNat r.base ≠ blobEmptyU32 := by
    intro h
    have := congrArg UInt32.toNat h
    rw [base, toNat_blobSlotBase] at this
    simp only [blobEmptyU32] at this
    simp at this
    omega
  simpa [FatEntry.isEmpty, fatEntry] using hne

theorem toNat_plaintextLen (hlen : r.data.length ≤ maxContentsSize) :
    (r.header fw).plaintextLen.toNat = r.data.length := by
  simp only [maxContentsSize] at hlen
  show (UInt32.ofNat r.data.length).toNat = _
  simp
  omega

/-- The blob tag is not part of what the chunks authenticate. -/
theorem buildAad_header : buildAad (r.header fw) = buildAad r.draft := rfl

/-- The header of a stored record passes the checks of `load_header`. -/
theorem StoredIn.loads (h : r.StoredIn fw m) (hlen : r.data.length ≤ maxContentsSize)
    {fat : Slot → FatEntry} {uuid : Vector UInt8 16} (hfat : fat r.slot = r.fatEntry uuid) :
    loadHeader m fat r.slot = .ok (r.header fw) := by
  have hdecode : Header.codec.decode (m.read r.base headerSize) = r.header fw := by
    rw [h.header, Codec.decode_encode']
  have haddr : (r.fatEntry uuid).flashAddr = UInt32.ofNat (blobSlotBase r.slot) := rfl
  have hsize := length_fatEntry hlen uuid
  have hplain := @toNat_plaintextLen fw r hlen
  have hmax : r.data.length ≤ 8192 := hlen
  simp only [loadHeader, hfat, isEmpty_fatEntry, haddr, toNat_blobSlotBase, hsize]
  rw [if_neg (by simp), if_neg (by
    simp only [not_true_eq_false, ne_eq, headerSize, slotSize_eq, false_or]
    omega)]
  rw [show blobSlotBase r.slot = r.base from rfl, hdecode, hplain, if_neg]
  rintro (hc | hc | hc | hc | hc)
  · exact hc rfl
  · exact hc rfl
  · exact hc rfl
  · simp only [headerSize, slotSize_eq] at hc
    omega
  · exact hc rfl

/-- What a reader gets from a stored record: the data, if group and owner are right. -/
theorem StoredIn.contents (hgcm : fw.prim.GcmLaws) (h : r.StoredIn fw m)
    (hlen : r.data.length ≤ maxContentsSize)
    (hkey : (securityGetRootSecret fw).bind (fun root => deriveFileKey fw root r.groupMask) =
      some r.masterKey) {fat : Slot → FatEntry} {uuid : Vector UInt8 16}
    (hfat : fat r.slot = r.fatEntry uuid) (owner : Option Digest) (groupMask : UInt32) :
    recordContents fw m fat r.slot owner groupMask =
      if groupMask &&& r.groupMask = 0 ∨ (owner ≠ none ∧ owner ≠ some r.ownerPinHash) then none
      else some r.data := by
  have hplain := @toNat_plaintextLen fw r hlen
  have hopen : openRecord fw m r.slot (r.header fw) = some r.data := by
    have hchunks := h.opens hgcm (i := 0) (n := numChunks r.data.length) (by omega)
    have htags := h.tags_eq (i := 0) (n := numChunks r.data.length) (by omega)
    simp only [openRecord, show (r.header fw).groupMask = r.groupMask from rfl, hkey, hplain,
      show (r.header fw).nonce = r.nonce from rfl,
      @buildAad_header fw r,
      show blobSlotBase r.slot = r.base from rfl, hchunks, htags]
    exact if_pos rfl
  simp only [recordContents, h.loads hlen hfat, hplain, hopen,
    show (r.header fw).groupMask = r.groupMask from rfl,
    show (r.header fw).ownerPinHash = r.ownerPinHash from rfl]
  have hcap : ¬ maxContentsSize < r.data.length := Nat.not_lt.mpr hlen
  simp only [hcap, or_false]

end BlobRecord
