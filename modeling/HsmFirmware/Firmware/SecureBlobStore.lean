-- SUMMARY: secure_blob_store.c: the FAT, the encrypted records of the slots, and the streaming read.
import HsmFirmware.Firmware.SecureDesign

/-! # Secure blob store -/

/-- `secure_blob_store_status_t`. -/
inductive BlobStatus where
  | ok
  | invalidArgument
  | invalidSlot
  | storageFull
  | notFound
  | permissionDenied
  | bufferTooSmall
  | ioError
  | cryptoError
  | corrupt
  | badLen
  deriving DecidableEq, Repr

/-- `SECURE_BLOB_MAGIC`. -/
def blobMagic : UInt32 := 0x53425331
/-- `SECURE_BLOB_VERSION`. -/
def blobVersion : UInt16 := 1
/-- `SECURE_BLOB_EMPTY_U32`. -/
def blobEmptyU32 : UInt32 := 0xFFFFFFFF
/-- `SECURE_BLOB_STORE_AUTO_SLOT`. -/
def autoSlot : UInt8 := 0xFF

/-- `slot_is_empty`, of a FAT entry. -/
def FatEntry.isEmpty (e : FatEntry) : Bool := e.flashAddr == blobEmptyU32

def slotIsValid (slot : UInt8) : Option Slot :=
  if h : slot.toNat < maxSlots then some ⟨slot.toNat, h⟩ else none

def findWriteSlot (fat : Slot → FatEntry) (requestedSlot : UInt8) : Except BlobStatus Slot :=
  if requestedSlot ≠ autoSlot then
    match slotIsValid requestedSlot with
    | none => .error .invalidSlot
    | some slot => .ok slot
  else
    match (List.finRange maxSlots).find? fun slot => (fat slot).isEmpty with
    | none => .error .storageFull
    | some slot => .ok slot

def buildAad (header : Header) : Bytes :=
  Codec.u32.encode header.magic ++ Codec.u16.encode header.version ++
    Codec.u16.encode header.slot ++ Codec.u32.encode header.plaintextLen ++
    Codec.u32.encode header.groupMask ++ header.ownerPinHash.toList ++ header.nonce.toList

variable (fw : Firmware)

/-- A group id that does not fit 16 bits has no key. -/
def deriveFileKey (root : Key) (groupId : UInt32) : Option Key :=
  if 0xFFFF < groupId then none
  else some (secureCryptoDeriveFileEncKey fw.prim root groupId.toUInt16)

/-- Every group id of the protocol has a key. -/
@[simp] theorem deriveFileKey_toUInt32 (root : Key) (groupId : UInt16) :
    deriveFileKey fw root groupId.toUInt32 =
      some (secureCryptoDeriveFileEncKey fw.prim root groupId) := by
  have hle : ¬ 0xFFFF < groupId.toUInt32 := by
    have hlt := groupId.toNat_lt
    rw [UInt32.lt_iff_toNat_lt]
    simp
    omega
  rw [deriveFileKey, if_neg hle]
  simp

/-! ## Writing -/

/-- Erase pages one after the other, up to the first failure. -/
def erasePages : List Nat → Dev BlobStatus
  | [] => pure .ok
  | address :: addresses => do
    if (← flashSimpleErasePage address) ≠ 0 then pure .ioError else erasePages addresses

def eraseSlotPages (slot : Slot) : Dev BlobStatus :=
  erasePages ((List.range (slotSize / pageSize)).map fun i => blobSlotBase slot + i * pageSize)

/-- The FAT page: the table, then `0xFF`. -/
def fatPage (fat : Slot → FatEntry) : Bytes :=
  FatEntry.codec.table fat ++ List.replicate (pageSize - 24 * maxSlots) 0xFF

def commitFatEntry (slot : Slot) (entry : FatEntry) : Dev BlobStatus := do
  let ram ← get
  let scratchPage := fatPage (Function.update ram.gFat slot entry)
  if (← flashSimpleErasePage fatAddr) ≠ 0 then pure .ioError else do
  if (← flashSimpleWrite fatAddr scratchPage) ≠ 0 then pure .ioError else do
  modify fun ram => { ram with gFat := Function.update ram.gFat slot entry }
  pure .ok

/-- The loop of `blob_write` over the chunks. Its result is what the running SHA-256
    has absorbed: the tags, one after the other. -/
def blobWriteChunks (masterKey : Key) (nonce : Nonce) (aad : Bytes) (flashAddr : Nat)
    (rest : Bytes) (processed : Nat) (chunkIdx : UInt32) (shaCtx : Bytes) :
    Dev (Except BlobStatus Bytes) :=
  if rest = [] then pure (.ok shaCtx) else
    let chunk := rest.take chunkSize
    let chunkKey := secureCryptoDeriveChunkKey fw.prim masterKey chunkIdx
    match secureCryptoAesGcmEncrypt fw.prim chunkKey nonce aad chunk with
    | none => pure (.error .cryptoError)
    | some (ct, chunkTag) => do
      -- Ciphertext behind the header, tag at the end of the slot.
      if (← flashSimpleWrite (flashAddr + headerSize + processed) ct) ≠ 0 then
        pure (.error .ioError)
      else do
      if (← flashSimpleWrite (flashAddr + tagsOffset + chunkIdx.toNat * tagSize)
          chunkTag.toList) ≠ 0 then
        pure (.error .ioError)
      else
        blobWriteChunks masterKey nonce aad flashAddr (rest.drop chunkSize)
          (processed + chunk.length) (chunkIdx + 1) (shaCtx ++ chunkTag.toList)
termination_by rest.length
decreasing_by
  have := List.length_pos_iff.mpr ‹_›
  simp [chunkSize]
  omega

/-- The header `blob_write` fills before the chunks: everything but the blob tag. -/
def blobWriteHeader (slot : Slot) (len : Nat) (ownerPinHash : Digest) (groupMask : UInt32)
    (nonce : Nonce) : Header where
  magic := blobMagic
  version := blobVersion
  slot := UInt16.ofNat slot
  plaintextLen := UInt32.ofNat len
  groupMask := groupMask
  ownerPinHash := ownerPinHash
  nonce := nonce
  blobTag := .replicate 32 0xFF
  reserved := .replicate 4 0xFF

/-- `blob_write` from the erase of the slot on: chunks, then header, then FAT. -/
def blobWriteRecord (slot : Slot) (data : Bytes) (uuid : Vector UInt8 16) (masterKey : Key)
    (header : Header) : Dev BlobStatus := do
  modify fun ram => { ram with gAad := buildAad header }
  let rc ← eraseSlotPages slot
  if rc ≠ .ok then pure rc else do
  let flashAddr := blobSlotBase slot
  match ← blobWriteChunks fw masterKey header.nonce (buildAad header) flashAddr data 0 0 [] with
  | .error rc => pure rc
  | .ok shaCtx => do
    let tagsDigest := fw.prim.sha256 shaCtx
    let blobTag := fw.prim.hmac masterKey.toList tagsDigest.toList
    let header := { header with blobTag := blobTag }
    if (← flashSimpleWrite flashAddr (Header.codec.encode header)) ≠ 0 then pure .ioError else
    commitFatEntry slot
      { uuid := uuid
        length := UInt16.ofNat (headerSize + data.length)
        padding := 0
        flashAddr := UInt32.ofNat flashAddr }

def blobWrite (slot : UInt8) (data : Bytes) (uuid : Vector UInt8 16) (ownerPinHash : Digest)
    (groupMask : UInt32) : Dev BlobStatus := do
  if tagsOffset - headerSize < data.length ∨ 0xFFFFFFFF < data.length ∨
      0xFFFF < headerSize + data.length then
    pure .invalidArgument
  else
  match findWriteSlot (← get).gFat slot with
  | .error rc => pure rc
  | .ok resolvedSlot =>
    match securityGetRootSecret fw with
    | none => pure .cryptoError
    | some root =>
      match deriveFileKey fw root groupMask with
      | none => pure .cryptoError
      | some masterKey => do
        match ← securityGenerateNonce 12 with
        | none => pure .cryptoError
        | some nonce =>
          let nonce := (Codec.bytes 12).decode nonce
          blobWriteRecord fw resolvedSlot data uuid masterKey
            (blobWriteHeader resolvedSlot data.length ownerPinHash groupMask nonce)

def blobDelete (slot : UInt8) : Dev BlobStatus := do
  match slotIsValid slot with
  | none => pure .invalidSlot
  | some slot => do
    if ((← get).gFat slot).isEmpty then pure .notFound else do
    let rc ← eraseSlotPages slot
    if rc ≠ .ok then pure rc else
    commitFatEntry slot .erased

/-! ## Reading -/

def loadHeader (flash : Mem) (fat : Slot → FatEntry) (slot : Slot) : Except BlobStatus Header :=
  let entry := fat slot
  if entry.isEmpty then .error .notFound
  else if entry.flashAddr ≠ UInt32.ofNat (blobSlotBase slot) ∨
      entry.length.toNat < headerSize ∨ slotSize < entry.length.toNat then .error .corrupt
  else
    let header := Header.codec.decode (flash.read entry.flashAddr.toNat headerSize)
    if header.magic ≠ blobMagic ∨ header.version ≠ blobVersion ∨
        header.slot ≠ UInt16.ofNat slot ∨ slotSize - headerSize < header.plaintextLen.toNat ∨
        entry.length.toNat ≠ headerSize + header.plaintextLen.toNat then .error .corrupt
    else .ok header

/-- `blob_read_init_internal`: on success the plaintext length, and the read state set up
    for the record. -/
def blobReadInitInternal (flash : Mem) (ram : Ram) (slot : UInt8) (pinHash : Option Digest)
    (requirePinHash : Bool) (groupMask : UInt32) : Except BlobStatus Nat × Ram :=
  match slotIsValid slot with
  | none => (.error .invalidArgument, ram)
  | some slot =>
    if requirePinHash ∧ pinHash = none then (.error .invalidArgument, ram) else
    match loadHeader flash ram.gFat slot with
    | .error rc => (.error rc, ram)
    | .ok header =>
      if groupMask &&& header.groupMask = 0 then (.error .permissionDenied, ram)
      else if requirePinHash ∧ pinHash ≠ some header.ownerPinHash then
        (.error .permissionDenied, ram)
      else
        match securityGetRootSecret fw with
        | none => (.error .cryptoError, ram)
        | some root =>
          match deriveFileKey fw root header.groupMask with
          | none => (.error .cryptoError, ram)
          | some masterKey =>
            (.ok header.plaintextLen.toNat,
              { ram with
                gAad := buildAad header
                gReadState :=
                  { flashAddr := blobSlotBase slot + headerSize
                    processed := 0
                    totalLen := header.plaintextLen.toNat
                    nonce := header.nonce
                    masterKey := masterKey
                    expectedBlobTag := header.blobTag
                    shaCtx := [] } })

def blobReadInit (flash : Mem) (ram : Ram) (slot : UInt8) (pinHash : Option Digest)
    (groupMask : UInt32) : Except BlobStatus Nat × Ram :=
  blobReadInitInternal fw flash ram slot pinHash true groupMask

/-- The loop of `blob_read_chunk`: `out` is written at `outAddr`. -/
def blobReadChunkLoop (flash : Mem) (aad : Bytes) (outAddr chunkLen : Nat) (st : ReadState)
    (out : Mem) (chunkProcessed : Nat) : BlobStatus × ReadState × Mem :=
  if chunkProcessed < chunkLen then
    let toProc := min (chunkLen - chunkProcessed) chunkSize
    let chunkIdx := UInt32.ofNat (st.processed / chunkSize)
    let chunkKey := secureCryptoDeriveChunkKey fw.prim st.masterKey chunkIdx
    let ct := flash.read (st.flashAddr + st.processed) toProc
    let slotIdx := (st.flashAddr - flashBase) / slotSize
    let chunkTag := (Codec.bytes 16).decode
      (flash.read (blobSlotBase slotIdx + tagsOffset + chunkIdx.toNat * tagSize) tagSize)
    let st := { st with shaCtx := st.shaCtx ++ chunkTag.toList }
    match secureCryptoAesGcmDecrypt fw.prim chunkKey st.nonce aad ct chunkTag with
    | none =>
      -- aes_gcm_decrypt clears its output when it fails.
      (.cryptoError, st, out.write (outAddr + chunkProcessed) (List.replicate toProc 0))
    | some pt =>
      blobReadChunkLoop flash aad outAddr chunkLen { st with processed := st.processed + toProc }
        (out.write (outAddr + chunkProcessed) pt) (chunkProcessed + toProc)
  else (.ok, st, out)
termination_by chunkLen - chunkProcessed
decreasing_by
  have : 0 < chunkSize := by decide
  omega

def blobReadChunk (flash : Mem) (ram : Ram) (out : Mem) (outAddr chunkLen : Nat) :
    BlobStatus × Ram × Mem :=
  if ram.gReadState.totalLen < ram.gReadState.processed + chunkLen then
    (.invalidArgument, ram, out)
  else
    let r := blobReadChunkLoop fw flash ram.gAad outAddr chunkLen ram.gReadState out 0
    (r.1, { ram with gReadState := r.2.1 }, r.2.2)

def blobReadFinish (ram : Ram) : BlobStatus × Ram :=
  let st := ram.gReadState
  let tagsDigest := fw.prim.sha256 st.shaCtx
  let actualBlobTag := fw.prim.hmac st.masterKey.toList tagsDigest.toList
  let ram := { ram with gReadState := { st with masterKey := .replicate 32 0 } }
  if actualBlobTag ≠ st.expectedBlobTag then (.cryptoError, ram) else (.ok, ram)

/-- The result of reading a whole blob: the status, the RAM, the output buffer, and the
    length written back through `out_len`. -/
structure BlobRead where
  status : BlobStatus
  ram : Ram
  out : Mem
  outLen : Nat

/-- What `blob_read_all` and `blob_read_all_group_mask` do once the read is set up. -/
def blobReadRest (flash : Mem) (init : Except BlobStatus Nat × Ram) (out : Mem)
    (outAddr outLen : Nat) : BlobRead :=
  match init with
  | (.error rc, ram) => ⟨rc, ram, out, outLen⟩
  | (.ok ptLen, ram) =>
    if outLen < ptLen then ⟨.badLen, ram, out, ptLen⟩ else
    let (rc, ram, out) :=
      if 0 < ptLen then blobReadChunk fw flash ram out outAddr ptLen else (.ok, ram, out)
    if rc ≠ .ok then ⟨rc, ram, out, outLen⟩ else
    let (rc, ram) := blobReadFinish fw ram
    if rc ≠ .ok then ⟨rc, ram, out.write outAddr (List.replicate ptLen 0), outLen⟩
    else ⟨.ok, ram, out, ptLen⟩

def blobReadAll (flash : Mem) (ram : Ram) (slot : UInt8) (pinHash : Digest)
    (groupMask : UInt32) (out : Mem) (outAddr outLen : Nat) : BlobRead :=
  blobReadRest fw flash (blobReadInit fw flash ram slot (some pinHash) groupMask) out outAddr
    outLen

def blobReadAllGroupMask (flash : Mem) (ram : Ram) (slot : UInt8) (groupMask : UInt32)
    (out : Mem) (outAddr outLen : Nat) : BlobRead :=
  blobReadRest fw flash (blobReadInitInternal fw flash ram slot none false groupMask) out outAddr
    outLen

/-! ## Start-up -/

def blobStoreInit : Dev BlobStatus := do
  if (← get).sInitialized then pure .ok else do
  let flash ← Dev.mapped
  modify fun ram =>
    { ram with
      gFat := (FatEntry.codec.array maxSlots).decode (flash.read fatAddr (24 * maxSlots))
      sInitialized := true }
  pure .ok
