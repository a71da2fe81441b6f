-- SUMMARY: The key hierarchy of secure_crypto.c over the hash, MAC and AES-GCM primitives.
import Mathlib.Tactic.Common
import HsmFirmware.Library.Codec

/-!
# Secure crypto

`secure_crypto.c` derives every key from `K_master` with HMAC-SHA-256 and HKDF
(`sha256_raw.c`) and encrypts with the AES-GCM of wolfSSL. The derivations are
written out; the primitives below them are a parameter.
-/

abbrev Key := Vector UInt8 32
abbrev Nonce := Vector UInt8 12
abbrev Tag := Vector UInt8 16
abbrev Digest := Vector UInt8 32

/-- `sha256_raw`, `hmac_sha256_raw`, and the AES-256-GCM calls of wolfSSL, which keep
    the length of the text. An AES-GCM call that returns an error gives `none`. -/
structure Primitives where
  sha256 : (msg : Bytes) → Digest
  hmac : (key msg : Bytes) → Digest
  aesGcmEncrypt : (key : Key) → (iv : Nonce) → (aad pt : Bytes) →
    Option (Vector UInt8 pt.length × Tag)
  aesGcmDecrypt : (key : Key) → (iv : Nonce) → (aad ct : Bytes) → (tag : Tag) →
    Option (Vector UInt8 ct.length)

/-- The bytes of a C string literal, without its terminator. -/
def ascii (s : String) : Bytes := s.toList.map fun c => UInt8.ofNat c.toNat

/-! ## HKDF (sha256_raw.c) -/

section Hkdf

variable (P : Primitives)

/-- An absent or empty salt stands for 32 zero bytes. -/
def hkdfExtractSha256 (salt : Option Bytes) (ikm : Bytes) : Digest :=
  match salt with
  | none | some [] => P.hmac (List.replicate 32 0) ikm
  | some salt => P.hmac salt ikm

/-- The loop of `hkdf_expand_sha256`: the previous block, the one-byte counter, and
    the number of bytes still to write. -/
def hkdfExpandBlocks (prk info : Bytes) (block : Digest) (counter : UInt8) (remaining : Nat) :
    Bytes :=
  if remaining = 0 then [] else
    let counter := counter + 1
    -- T(0) is the empty string: the first block hashes no predecessor.
    let block := P.hmac prk
      ((if 1 < counter then block.toList else []) ++ info ++ [counter])
    block.toList.take remaining ++ hkdfExpandBlocks prk info block counter (remaining - 32)
termination_by remaining

def hkdfExpandSha256 (prk info : Bytes) (outLen : Nat) : Bytes :=
  hkdfExpandBlocks P prk info (Vector.replicate 32 0) 0 outLen

@[simp] theorem hkdfExpandBlocks_zero (prk info : Bytes) (block : Digest) (counter : UInt8) :
    hkdfExpandBlocks P prk info block counter 0 = [] := by
  rw [hkdfExpandBlocks, if_pos rfl]

theorem length_hkdfExpandBlocks (prk info : Bytes) (block : Digest) (counter : UInt8) (remaining : Nat) :
    (hkdfExpandBlocks P prk info block counter remaining).length = remaining := by
  induction remaining using Nat.strong_induction_on generalizing block counter with
  | _ remaining ih =>
    by_cases h : remaining = 0
    · rw [h, hkdfExpandBlocks_zero, List.length_nil]
    · rw [hkdfExpandBlocks, if_neg h]
      simp only [List.length_append, List.length_take, Vector.length_toList]
      rw [ih (remaining - 32) (by omega)]
      omega

@[simp] theorem length_hkdfExpandSha256 (prk info : Bytes) (outLen : Nat) :
    (hkdfExpandSha256 P prk info outLen).length = outLen :=
  length_hkdfExpandBlocks P prk info _ _ outLen

/-- One block of output is one HMAC. -/
theorem hkdfExpandSha256_32 (prk info : Bytes) :
    hkdfExpandSha256 P prk info 32 = (P.hmac prk (info ++ [1])).toList := by
  rw [hkdfExpandSha256, hkdfExpandBlocks]
  simp [List.take_of_length_le]

end Hkdf

/-! ## Keys -/

section Keys

variable (P : Primitives)

/-- A 32-byte output buffer filled from a byte string. -/
def toKey (bs : Bytes) : Key := (Codec.bytes 32).decode bs

/-- `GS_AES_KEY_OFFSET` and `GS_MIN_LEN`: where `K_master` stands in the secrets. -/
def secureCryptoRootSecretFromGlobalSecrets (globalSecrets : Bytes) : Option Key :=
  if globalSecrets.length < 129 then none else some (toKey (globalSecrets.drop 97))

def deriveKey (master : Key) (label : String) : Key :=
  let prk := hkdfExtractSha256 P none master.toList
  toKey (hkdfExpandSha256 P prk.toList (ascii label) 32)

def deriveGroupKey (root : Key) (groupId : UInt16) : Key :=
  let prk := hkdfExtractSha256 P (some (Codec.u16.encode groupId)) root.toList
  toKey (hkdfExpandSha256 P prk.toList (ascii "group_root") 32)

def deriveGroupSubkey (root : Key) (groupId : UInt16) (label : String) : Key :=
  deriveKey P (deriveGroupKey P root groupId) label

def secureCryptoDeriveFileEncKey (root : Key) (groupId : UInt16) : Key :=
  deriveGroupSubkey P root groupId "file_enc_v1"

def secureCryptoDeriveXferRootKey (root : Key) (groupId : UInt16) : Key :=
  deriveGroupSubkey P root groupId "xfer_root_v1"

def secureCryptoDeriveWriterSeed (root : Key) (groupId : UInt16) : Key :=
  deriveGroupSubkey P root groupId "writer_sign_seed_v1"

def secureCryptoDeriveRecvSeed (root : Key) (groupId : UInt16) : Key :=
  deriveGroupSubkey P root groupId "recv_sign_seed_v1"

def secureCryptoDerivePinMacKey (root : Key) : Key :=
  P.hmac root.toList (ascii "pin_mac_v1")

def secureCryptoDeriveChunkKey (masterKey : Key) (chunkIdx : UInt32) : Key :=
  toKey (hkdfExpandSha256 P masterKey.toList
    (ascii "blob_chunk_v1" ++ Codec.u32.encode chunkIdx) 32)

/-- The info string of a chunk key. -/
def chunkInfo (chunkIdx : UInt32) : Bytes := ascii "blob_chunk_v1" ++ Codec.u32.encode chunkIdx

theorem length_chunkInfo (chunkIdx : UInt32) : (chunkInfo chunkIdx).length = 17 := rfl

theorem chunkInfo_injective {i j : UInt32} (h : chunkInfo i = chunkInfo j) : i = j :=
  Codec.u32.encode_injective (List.append_cancel_left h)

/-! ## AES-GCM -/

def secureCryptoAesGcmEncrypt (key : Key) (nonce : Nonce) (aad plaintext : Bytes) :
    Option (Bytes × Tag) :=
  (P.aesGcmEncrypt key nonce aad plaintext).map fun r => (r.1.toList, r.2)

def secureCryptoAesGcmDecrypt (key : Key) (nonce : Nonce) (aad ciphertext : Bytes) (tag : Tag) :
    Option Bytes :=
  (P.aesGcmDecrypt key nonce aad ciphertext tag).map Vector.toList

variable {P} in
theorem secureCryptoAesGcmEncrypt_length {key : Key} {nonce : Nonce} {aad plaintext ct : Bytes}
    {tag : Tag} (h : secureCryptoAesGcmEncrypt P key nonce aad plaintext = some (ct, tag)) :
    ct.length = plaintext.length := by
  obtain ⟨r, -, hr⟩ := Option.map_eq_some_iff.mp h
  cases hr
  simp

variable {P} in
theorem secureCryptoAesGcmDecrypt_length {key : Key} {nonce : Nonce} {aad ciphertext pt : Bytes}
    {tag : Tag} (h : secureCryptoAesGcmDecrypt P key nonce aad ciphertext tag = some pt) :
    pt.length = ciphertext.length := by
  obtain ⟨r, -, hr⟩ := Option.map_eq_some_iff.mp h
  cases hr
  simp

/-- What wolfSSL documents of AES-GCM for the key, nonce and tag sizes used here:
    encryption succeeds, and decryption under the same key, nonce and associated data
    inverts it. -/
structure Primitives.GcmLaws : Prop where
  encrypts : ∀ key nonce aad pt, ∃ ct tag,
    secureCryptoAesGcmEncrypt P key nonce aad pt = some (ct, tag)
  inverts : ∀ {key nonce aad pt ct tag},
    secureCryptoAesGcmEncrypt P key nonce aad pt = some (ct, tag) →
    secureCryptoAesGcmDecrypt P key nonce aad ct tag = some pt

/-! ## Signatures -/

/-- Constant-time comparison: the differences of all bytes, or-ed together. -/
def bytesDiffer (a b : Bytes) : UInt8 :=
  (List.zipWith (· ^^^ ·) a b).foldl (· ||| ·) 0

def secureCryptoWriterSign (root : Key) (groupId : UInt16) (message : Bytes) : Digest :=
  let digest := P.sha256 message
  P.hmac (secureCryptoDeriveWriterSeed P root groupId).toList digest.toList

def secureCryptoReceiveProofSign (root : Key) (groupId : UInt16) (message : Bytes) : Digest :=
  let digest := P.sha256 message
  P.hmac (secureCryptoDeriveRecvSeed P root groupId).toList digest.toList

def secureCryptoReceiveProofVerify (root : Key) (groupId : UInt16) (message : Bytes)
    (signature : Digest) : Bool :=
  let digest := P.sha256 message
  let expected := P.hmac (secureCryptoDeriveRecvSeed P root groupId).toList digest.toList
  bytesDiffer expected.toList signature.toList == 0

end Keys

private theorem foldl_or_eq_zero (l : Bytes) (d : UInt8) :
    l.foldl (· ||| ·) d = 0 ↔ d = 0 ∧ ∀ x ∈ l, x = 0 := by
  induction l generalizing d with
  | nil => simp
  | cons x l ih => simp [ih, and_assoc]

/-- The accumulated difference vanishes exactly on equal strings. -/
theorem bytesDiffer_eq_zero {a b : Bytes} (h : a.length = b.length) :
    bytesDiffer a b = 0 ↔ a = b := by
  rw [bytesDiffer, foldl_or_eq_zero]
  induction a generalizing b with
  | nil =>
    cases b with
    | nil => simp
    | cons y b => simp at h
  | cons x a ih =>
    cases b with
    | nil => simp at h
    | cons y b =>
      have hxy : x ^^^ y = 0 ↔ x = y := UInt8.xor_eq_zero_iff
      simpa [hxy] using fun _ => by simpa using ih (b := b) (by simpa using h)

theorem secureCryptoReceiveProofVerify_iff {P : Primitives} {root : Key} {groupId : UInt16}
    {message : Bytes} {signature : Digest} :
    secureCryptoReceiveProofVerify P root groupId message signature = true ↔
      signature = secureCryptoReceiveProofSign P root groupId message := by
  simp only [secureCryptoReceiveProofVerify, beq_iff_eq, secureCryptoReceiveProofSign]
  rw [bytesDiffer_eq_zero (by simp), Vector.toList_inj, eq_comm]
