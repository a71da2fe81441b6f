-- SUMMARY: Flash layout constants, the packed structures in flash and on the wire, and the RAM of the device.
import HsmFirmware.Library.Codec
import HsmFirmware.Library.NorFlash
import HsmFirmware.Firmware.SecureCrypto

/-!
# Device data

The structures of `secure_blob_store.h`, `secure_blob_store.c`, `commands.c`,
`commands.h`, `filesystem.h` and `secure_design.c` with their byte layouts, and
the static variables that hold them.
-/

/-! ## Flash layout -/

/-- `FLASH_PAGE_SIZE`. -/
def pageSize : Nat := 1024
/-- `SECURE_BLOB_STORE_FLASH_BASE`. -/
def flashBase : Nat := 0x22000
/-- `SECURE_BLOB_STORE_FLASH_END`. -/
def flashEnd : Nat := 0x3A000
/-- `SECURE_BLOB_STORE_FAT_ADDR`. -/
def fatAddr : Nat := 0x3A000
/-- `BLOB_NAME_TABLE_ADDR`. -/
def nameTableAddr : Nat := 0x3A400
/-- `PIN_STATE_FLASH_ADDR`. -/
def pinStateAddr : Nat := 0x3A800

/-- `SECURE_BLOB_STORE_MAX_SLOTS`, and `MAX_FILE_COUNT`. -/
abbrev maxSlots : Nat := 8
instance : @NeZero Nat Zero.ofOfNat0 maxSlots := ⟨Nat.succ_ne_zero 7⟩

/-- `SECURE_BLOB_STORE_SLOT_SIZE`. -/
def slotSize : Nat := (flashEnd - flashBase) / maxSlots
/-- `SECURE_BLOB_CHUNK_SIZE`. -/
def chunkSize : Nat := 256
/-- `SECURE_CRYPTO_AES_GCM_TAG_SIZE`. -/
def tagSize : Nat := 16
/-- `SECURE_BLOB_TAGS_OFFSET`: the slot size less `SECURE_BLOB_MAX_TAGS_SIZE`. -/
def tagsOffset : Nat := slotSize - 512
/-- `sizeof(secure_blob_flash_header_t)`. -/
def headerSize : Nat := 96
/-- `MAX_NAME_SIZE`. -/
def maxNameSize : Nat := 32
/-- `MAX_CONTENTS_SIZE`. -/
def maxContentsSize : Nat := 8192

/-- A valid slot number. -/
abbrev Slot := Fin maxSlots

def blobSlotBase (slot : Nat) : Nat := flashBase + slot * slotSize

@[simp] theorem slotSize_eq : slotSize = 12288 := rfl
@[simp] theorem tagsOffset_eq : tagsOffset = 11776 := rfl

/-! ## Structures in flash -/

/-- `secure_blob_fat_entry_t`. -/
structure FatEntry where
  uuid : Vector UInt8 16
  length : UInt16
  padding : UInt16
  flashAddr : UInt32
  deriving DecidableEq

/-- `blob_name_entry_t`. -/
structure NameEntry where
  name : Vector UInt8 32
  groupId : UInt16
  inUse : UInt8
  reserved : Vector UInt8 29
  deriving DecidableEq

/-- `secure_blob_flash_header_t`. -/
structure Header where
  magic : UInt32
  version : UInt16
  slot : UInt16
  plaintextLen : UInt32
  groupMask : UInt32
  ownerPinHash : Digest
  nonce : Nonce
  blobTag : Digest
  reserved : Vector UInt8 4
  deriving DecidableEq

open Codec in
def FatEntry.codec : Codec FatEntry :=
  ((bytes 16).pair (u16.pair (u16.pair u32))).iso
    { toFun := fun ⟨a, b, c, d⟩ => ⟨a, b, c, d⟩
      invFun := fun e => (e.uuid, e.length, e.padding, e.flashAddr)
      left_inv := fun _ => rfl
      right_inv := fun _ => rfl }

open Codec in
def NameEntry.codec : Codec NameEntry :=
  ((bytes 32).pair (u16.pair (u8.pair (bytes 29)))).iso
    { toFun := fun ⟨a, b, c, d⟩ => ⟨a, b, c, d⟩
      invFun := fun e => (e.name, e.groupId, e.inUse, e.reserved)
      left_inv := fun _ => rfl
      right_inv := fun _ => rfl }

open Codec in
def Header.codec : Codec Header :=
  (u32.pair (u16.pair (u16.pair (u32.pair (u32.pair ((bytes 32).pair ((bytes 12).pair
    ((bytes 32).pair (bytes 4))))))))).iso
    { toFun := fun ⟨a, b, c, d, e, f, g, h, i⟩ => ⟨a, b, c, d, e, f, g, h, i⟩
      invFun := fun e => (e.magic, e.version, e.slot, e.plaintextLen, e.groupMask,
        e.ownerPinHash, e.nonce, e.blobTag, e.reserved)
      left_inv := fun _ => rfl
      right_inv := fun _ => rfl }

@[simp] theorem FatEntry.codec_size : FatEntry.codec.size = 24 := rfl
@[simp] theorem NameEntry.codec_size : NameEntry.codec.size = 64 := rfl
@[simp] theorem Header.codec_size : Header.codec.size = 96 := rfl

/-- An entry of erased flash. -/
def FatEntry.erased : FatEntry := ⟨.replicate 16 0xFF, 0xFFFF, 0xFFFF, 0xFFFFFFFF⟩
/-- An entry of erased flash. -/
def NameEntry.erased : NameEntry := ⟨.replicate 32 0xFF, 0xFFFF, 0xFF, .replicate 29 0xFF⟩

/-! ## Structures on the wire -/

/-- `receive_request_t`. -/
structure ReceiveRequest where
  slot : UInt8
  requesterNonce : UInt32
  deriving DecidableEq

/-- `receive_challenge_t`. -/
structure ReceiveChallenge where
  slot : UInt8
  groupId : UInt16
  requesterNonce : UInt32
  targetNonce : UInt32
  deriving DecidableEq

/-- `receive_proof_t`. -/
structure ReceiveProof where
  slot : UInt8
  groupId : UInt16
  requesterNonce : UInt32
  targetNonce : UInt32
  proof : Digest
  deriving DecidableEq

/-- `interrogate_challenge_t`. -/
structure InterrogateChallenge where
  requesterNonce : UInt32
  targetNonce : UInt32
  deriving DecidableEq

/-- `interrogate_group_proof_t`. -/
structure InterrogateGroupProof where
  groupId : UInt16
  proof : Digest
  deriving DecidableEq

/-- `interrogate_proof_t`, with its `MAX_PERMS` entries. -/
structure InterrogateProof where
  requesterNonce : UInt32
  targetNonce : UInt32
  proofCount : UInt8
  proofs : Fin 8 → InterrogateGroupProof

/-- `file_t`. -/
structure File where
  inUse : UInt32
  groupId : UInt16
  name : Vector UInt8 32
  contentsLen : UInt16
  nonce : Nonce
  tag : Tag
  contents : Vector UInt8 8192

/-- `receive_response_t`. -/
structure ReceiveResponse where
  uuid : Vector UInt8 16
  file : File

/-- `file_metadata_t`. -/
structure FileMetadata where
  slot : UInt8
  groupId : UInt16
  name : Vector UInt8 32
  deriving DecidableEq

section Codecs
open Codec

/-- `interrogate_request_t` is the requester nonce alone. -/
def interrogateRequestCodec : Codec UInt32 := u32

def ReceiveRequest.codec : Codec ReceiveRequest :=
  (u8.pair u32).iso
    { toFun := fun ⟨a, b⟩ => ⟨a, b⟩
      invFun := fun e => (e.slot, e.requesterNonce)
      left_inv := fun _ => rfl
      right_inv := fun _ => rfl }

def ReceiveChallenge.codec : Codec ReceiveChallenge :=
  (u8.pair (u16.pair (u32.pair u32))).iso
    { toFun := fun ⟨a, b, c, d⟩ => ⟨a, b, c, d⟩
      invFun := fun e => (e.slot, e.groupId, e.requesterNonce, e.targetNonce)
      left_inv := fun _ => rfl
      right_inv := fun _ => rfl }

def ReceiveProof.codec : Codec ReceiveProof :=
  (u8.pair (u16.pair (u32.pair (u32.pair (bytes 32))))).iso
    { toFun := fun ⟨a, b, c, d, e⟩ => ⟨a, b, c, d, e⟩
      invFun := fun e => (e.slot, e.groupId, e.requesterNonce, e.targetNonce, e.proof)
      left_inv := fun _ => rfl
      right_inv := fun _ => rfl }

def InterrogateChallenge.codec : Codec InterrogateChallenge :=
  (u32.pair u32).iso
    { toFun := fun ⟨a, b⟩ => ⟨a, b⟩
      invFun := fun e => (e.requesterNonce, e.targetNonce)
      left_inv := fun _ => rfl
      right_inv := fun _ => rfl }

def InterrogateGroupProof.codec : Codec InterrogateGroupProof :=
  (u16.pair (bytes 32)).iso
    { toFun := fun ⟨a, b⟩ => ⟨a, b⟩
      invFun := fun e => (e.groupId, e.proof)
      left_inv := fun _ => rfl
      right_inv := fun _ => rfl }

def InterrogateProof.codec : Codec InterrogateProof :=
  (u32.pair (u32.pair (u8.pair (InterrogateGroupProof.codec.array 8)))).iso
    { toFun := fun ⟨a, b, c, d⟩ => ⟨a, b, c, d⟩
      invFun := fun e => (e.requesterNonce, e.targetNonce, e.proofCount, e.proofs)
      left_inv := fun _ => rfl
      right_inv := fun _ => rfl }

def File.codec : Codec File :=
  (u32.pair (u16.pair ((bytes 32).pair (u16.pair ((bytes 12).pair ((bytes 16).pair
    (bytes 8192))))))).iso
    { toFun := fun ⟨a, b, c, d, e, f, g⟩ => ⟨a, b, c, d, e, f, g⟩
      invFun := fun e => (e.inUse, e.groupId, e.name, e.contentsLen, e.nonce, e.tag, e.contents)
      left_inv := fun _ => rfl
      right_inv := fun _ => rfl }

def ReceiveResponse.codec : Codec ReceiveResponse :=
  ((bytes 16).pair File.codec).iso
    { toFun := fun ⟨a, b⟩ => ⟨a, b⟩
      invFun := fun e => (e.uuid, e.file)
      left_inv := fun _ => rfl
      right_inv := fun _ => rfl }

def FileMetadata.codec : Codec FileMetadata :=
  (u8.pair (u16.pair (bytes 32))).iso
    { toFun := fun ⟨a, b, c⟩ => ⟨a, b, c⟩
      invFun := fun e => (e.slot, e.groupId, e.name)
      left_inv := fun _ => rfl
      right_inv := fun _ => rfl }

end Codecs

@[simp] theorem ReceiveRequest.codec_size : ReceiveRequest.codec.size = 5 := rfl
@[simp] theorem ReceiveChallenge.codec_size : ReceiveChallenge.codec.size = 11 := rfl
@[simp] theorem ReceiveProof.codec_size : ReceiveProof.codec.size = 43 := rfl
@[simp] theorem InterrogateChallenge.codec_size : InterrogateChallenge.codec.size = 8 := rfl
@[simp] theorem InterrogateProof.codec_size : InterrogateProof.codec.size = 281 := rfl
@[simp] theorem ReceiveResponse.codec_size : ReceiveResponse.codec.size = 8276 := rfl

/-! ## RAM -/

/-- `replay_entry_t`. -/
structure ReplayEntry where
  nr : UInt32
  nt : UInt32
  groupId : UInt16
  op : UInt8
  valid : Bool
  deriving DecidableEq

/-- `g_read_state`. The running SHA-256 context is the bytes it has absorbed. -/
structure ReadState where
  flashAddr : Nat
  processed : Nat
  totalLen : Nat
  nonce : Nonce
  masterKey : Key
  expectedBlobTag : Digest
  shaCtx : Bytes

/-- The static variables that outlive a command. -/
structure Ram where
  /-- `g_fat` (secure_blob_store.c). -/
  gFat : Slot → FatEntry
  /-- `s_initialized` of `blob_store_init`. -/
  sInitialized : Bool
  /-- `g_read_state` (secure_blob_store.c). -/
  gReadState : ReadState
  /-- `g_aad` (secure_blob_store.c). -/
  gAad : Bytes
  /-- `g_name_table` (commands.c). -/
  gNameTable : Slot → NameEntry
  /-- `g_pin_hash` (security.c). -/
  gPinHash : Digest
  /-- `g_fail_count` (security.c). -/
  gFailCount : UInt32
  /-- `g_initialized` (security.c). -/
  gInitialized : Bool
  /-- `g_replay_cache` (secure_design.c). -/
  gReplayCache : Fin 8 → ReplayEntry
  /-- `g_replay_next` (secure_design.c). -/
  gReplayNext : Fin 8

/-- Static storage at reset: all zero. -/
def Ram.reset : Ram where
  gFat _ := ⟨.replicate 16 0, 0, 0, 0⟩
  sInitialized := false
  gReadState := ⟨0, 0, 0, .replicate 12 0, .replicate 32 0, .replicate 32 0, []⟩
  gAad := List.replicate 60 0
  gNameTable _ := ⟨.replicate 32 0, 0, 0, .replicate 29 0⟩
  gPinHash := .replicate 32 0
  gFailCount := 0
  gInitialized := false
  gReplayCache _ := ⟨0, 0, 0, 0, false⟩
  gReplayNext := 0
