-- SUMMARY: secure_crypto.c in its static buffers: derivations, AES-GCM, signatures, and the checks of their arguments.
import HsmFirmware.Firmware.Scratch

/-!
# Secure crypto in static scratch

The functions of `secure_crypto.c`, in the buffers they share with one another. A function that
returns `false` before it has written any output gives `none`. AES-GCM is that of wolfSSL: what it
does to its context and to the output buffers is a parameter.
-/

/-- A pointer and a length: `NULL`, or as many bytes. -/
inductive Input where
  | null (len : Nat)
  | bytes (bs : Bytes)

namespace Input

def len : Input → Nat
  | null len => len
  | bytes bs => bs.length

/-- What stands there, unless the pointer is `NULL` and the length is not 0. -/
def readable : Input → Option Bytes
  | null len => if 0 < len then none else some []
  | bytes bs => some bs

/-- What stands there, unless the pointer is `NULL`. -/
def nonNull : Input → Option Bytes
  | null _ => none
  | bytes bs => some bs

/-- A buffer of the size the function takes. -/
def ofSize (m : Nat) : Input → Option (Vector UInt8 m)
  | null _ => none
  | bytes bs => if bs.length = m then some ((Codec.bytes m).decode bs) else none

end Input

/-- `wc_AesGcmSetKey`, `wc_AesGcmEncrypt` and `wc_AesGcmDecrypt`, with a context of `n` bytes. They
    give the return code, the context, and what they leave in the output buffers. -/
structure WolfSsl (n : Nat) where
  setKey : (aes : Vector UInt8 n) → (key : Key) → Int32 × Vector UInt8 n
  encrypt : (aes : Vector UInt8 n) → (iv : Nonce) → (aad pt : Input) → (ct : Option Bytes) →
    (tag : Tag) → Int32 × Vector UInt8 n × Option Bytes × Tag
  decrypt : (aes : Vector UInt8 n) → (iv : Nonce) → (aad ct : Input) → (tag : Tag) →
    (pt : Option Bytes) → Int32 × Vector UInt8 n × Option Bytes

namespace Scratch

open Statics

variable {n : Nat}

/-! ## Keys -/

/-- The `outLen` bytes that `hkdf_expand_sha256` writes. -/
def expandBytes (prk info : Bytes) (outLen : Nat) : Scratch n Bytes := do
  let r ← hkdfExpandSha256 prk info (fun _ => 0) outLen
  pure (r.1.read 0 outLen)

def deriveKey (master : Key) (label : String) (outLen : Nat) : Scratch n (Option Bytes) :=
  if outLen = 0 then pure none else do
    let prk ← hkdfExtractSha256 none master.toList
    write Static.gHkdfPrk prk
    let prk ← read Static.gHkdfPrk
    let out ← expandBytes (Vector.toList prk) (ascii label) outLen
    clear Static.gHkdfPrk
    pure (some out)

def hmacSha256 (key : Input) (msg : Input) (out : Bool) : Scratch n (Option Digest) :=
  match key.nonNull, msg.readable, out with
  | some key, some msg, true => some <$> hmacSha256Raw key msg
  | _, _, _ => pure none

/-- It is called with `g_group_key` as `out` only. -/
def deriveGroupKey (root : Key) (groupId : UInt16) : Scratch n Unit := do
  write Static.gGroupSalt (Vector.mk #[UInt8.ofNat groupId.toNat, UInt8.ofNat (groupId.toNat / 256)] rfl)
  let salt ← read Static.gGroupSalt
  let prk ← hkdfExtractSha256 (some (Vector.toList salt)) root.toList
  write Static.gHkdfPrk prk
  let prk ← read Static.gHkdfPrk
  let out ← expandBytes (Vector.toList prk) (ascii "group_root") 32
  write Static.gGroupKey (toKey out)
  clear Static.gGroupSalt
  clear Static.gHkdfPrk

def deriveGroupSubkey (root : Key) (groupId : UInt16) (label : String) (outLen : Nat) :
    Scratch n (Option Bytes) :=
  if outLen = 0 then pure none else do
    deriveGroupKey root groupId
    let key ← read Static.gGroupKey
    let out ← deriveKey key label outLen
    clear Static.gGroupKey
    pure out

def secureCryptoRootSecretFromGlobalSecrets (globalSecrets : Input) (out : Bool) : Option Key :=
  match globalSecrets.nonNull, out with
  | some globalSecrets, true =>
    if globalSecrets.length < 129 then none else some (toKey (globalSecrets.drop 97))
  | _, _ => none

/-- The derivation of a key of a group, which the label tells from the others. -/
def deriveOfGroup (label : String) (root : Option Key) (groupId : UInt16) (out : Bool)
    (outLen : Nat) : Scratch n (Option Bytes) :=
  match root, out with
  | some root, true => if outLen = 0 then pure none else deriveGroupSubkey root groupId label outLen
  | _, _ => pure none

def secureCryptoDeriveFileEncKey (root : Option Key) (groupId : UInt16) (out : Bool) (outLen : Nat) :
    Scratch n (Option Bytes) :=
  deriveOfGroup "file_enc_v1" root groupId out outLen

def secureCryptoDeriveXferRootKey (root : Option Key) (groupId : UInt16) (out : Bool) (outLen : Nat) :
    Scratch n (Option Bytes) :=
  deriveOfGroup "xfer_root_v1" root groupId out outLen

def secureCryptoDerivePinMacKey (root : Option Key) (out : Bool) (outLen : Nat) :
    Scratch n (Option Digest) :=
  match root, out with
  | some root, true =>
    if outLen ≠ 32 then pure none
    else hmacSha256 (.bytes root.toList) (.bytes (ascii "pin_mac_v1")) true
  | _, _ => pure none

def secureCryptoDeriveWriterSeed (root : Option Key) (groupId : UInt16) (out : Bool) (outLen : Nat) :
    Scratch n (Option Bytes) :=
  deriveOfGroup "writer_sign_seed_v1" root groupId out outLen

def secureCryptoDeriveRecvSeed (root : Option Key) (groupId : UInt16) (out : Bool) (outLen : Nat) :
    Scratch n (Option Bytes) :=
  deriveOfGroup "recv_sign_seed_v1" root groupId out outLen

/-- The derivation of a seed that the two kinds of key pairs are made of. -/
abbrev SeedOf (n : Nat) := Option Key → UInt16 → Bool → Nat → Scratch n (Option Bytes)

/-- `secure_crypto_derive_*_keypair`: `material_out` is wiped, then it is the seed. -/
def deriveKeypair (seed : SeedOf n) (root : Option Key) (groupId : UInt16) (materialOut : Bool) :
    Scratch n (Option Key) :=
  match root, materialOut with
  | some root, true => do
    let out ← seed (some root) groupId true 32
    pure (out.map toKey)
  | _, _ => pure none

def secureCryptoDeriveWriterKeypair (root : Option Key) (groupId : UInt16) (materialOut : Bool) :
    Scratch n (Option Key) :=
  deriveKeypair secureCryptoDeriveWriterSeed root groupId materialOut

def secureCryptoDeriveRecvKeypair (root : Option Key) (groupId : UInt16) (materialOut : Bool) :
    Scratch n (Option Key) :=
  deriveKeypair secureCryptoDeriveRecvSeed root groupId materialOut

def secureCryptoDeriveChunkKey (masterKey : Input) (chunkIdx : UInt32) (out : Bool) (outLen : Nat) :
    Scratch n (Option Bytes) :=
  match masterKey.nonNull, out with
  | some masterKey, true =>
    if outLen = 0 then pure none
    else some <$> expandBytes masterKey (ascii "blob_chunk_v1" ++ Codec.u32.encode chunkIdx) outLen
  | _, _ => pure none

/-! ## Hash and MAC -/

def secureCryptoSha256 (message : Input) (digestOut : Bool) (digestLen : Nat) :
    Scratch n (Option Digest) :=
  match message.readable, digestOut with
  | some message, true => if digestLen ≠ 32 then pure none else some <$> sha256Raw message
  | _, _ => pure none

def secureCryptoHmacSha256 (key message : Input) (macOut : Bool) (macLen : Nat) :
    Scratch n (Option Digest) :=
  if macLen ≠ 32 then pure none else hmacSha256 key message macOut

/-! ## AES-GCM -/

/-- With the key in `g_aes_ctx`, what `wc_AesGcmEncrypt` does. -/
def aesGcmEncrypt (w : WolfSsl n) (key : Key) (iv : Nonce) (aad pt : Input) (ct : Option Bytes)
    (tag : Tag) : Scratch n (Bool × Option Bytes × Tag) := do
  clear Static.gAesCtx
  let aes ← read Static.gAesCtx
  let set := w.setKey aes key
  write Static.gAesCtx set.2
  let aes ← read Static.gAesCtx
  let r := if set.1 = 0 then w.encrypt aes iv aad pt ct tag else (set.1, aes, ct, tag)
  write Static.gAesCtx r.2.1
  clear Static.gAesCtx
  pure (r.1 == 0, r.2.2)

/-- `if (ret != 0 && pt && ct_len > 0u) { memset(pt, 0, ct_len); }` -/
def wipeOnFailure (ret : Int32) (ctLen : Nat) (pt : Option Bytes) : Option Bytes :=
  if ret ≠ 0 then pt.map fun pt => List.replicate ctLen 0 ++ pt.drop ctLen else pt

def aesGcmDecrypt (w : WolfSsl n) (key : Key) (iv : Nonce) (aad ct : Input) (tag : Tag)
    (pt : Option Bytes) : Scratch n (Bool × Option Bytes) := do
  clear Static.gAesCtx
  let aes ← read Static.gAesCtx
  let set := w.setKey aes key
  write Static.gAesCtx set.2
  let aes ← read Static.gAesCtx
  let r := if set.1 = 0 then w.decrypt aes iv aad ct tag pt else (set.1, aes, pt)
  write Static.gAesCtx r.2.1
  clear Static.gAesCtx
  pure (r.1 == 0, wipeOnFailure r.1 ct.len r.2.2)

def secureCryptoAesGcmEncrypt (w : WolfSsl n) (key nonce aad plaintext : Input)
    (ciphertextOut : Option Bytes) (tagOut : Option Tag) (tagLen : Nat) :
    Scratch n (Bool × Option Bytes × Option Tag) :=
  match key.ofSize 32, nonce.ofSize 12, tagOut with
  | some key, some nonce, some tag =>
    if tagLen ≠ 16 ∨
        0 < plaintext.len ∧ (plaintext.nonNull = none ∨ ciphertextOut = none) then
      pure (false, ciphertextOut, tagOut)
    else do
      let r ← aesGcmEncrypt w key nonce aad plaintext ciphertextOut tag
      pure (r.1, r.2.1, some r.2.2)
  | _, _, _ => pure (false, ciphertextOut, tagOut)

def secureCryptoAesGcmDecrypt (w : WolfSsl n) (key nonce aad ciphertext tag : Input)
    (plaintextOut : Option Bytes) (ptOutLen : Nat) : Scratch n (Bool × Option Bytes) :=
  match key.ofSize 32, nonce.ofSize 12, tag.ofSize 16 with
  | some key, some nonce, some tag =>
    if ptOutLen < ciphertext.len ∨
        0 < ciphertext.len ∧ (ciphertext.nonNull = none ∨ plaintextOut = none) then
      pure (false, plaintextOut)
    else aesGcmDecrypt w key nonce aad ciphertext tag plaintextOut
  | _, _, _ => pure (false, plaintextOut)

/-! ## Signatures -/

/-- Over what `g_material` and `g_digest` hold: the signature, and what becomes of the length. -/
def hmacSignDigest (sigLen : Nat) : Scratch n (Option (Digest × Nat)) :=
  if sigLen < 32 then pure none else do
    let material ← read Static.gMaterial
    let digest ← read Static.gDigest
    let signature ← hmacSha256 (.bytes (Vector.toList material)) (.bytes (Vector.toList digest)) true
    pure (signature.map fun signature => (signature, 32))

/-- `g_expected_mac` against a signature: the loop over the differences of the bytes. -/
def compareMac (mac : Digest) (signature : Bytes) : Scratch n Bool := do
  write Static.gExpectedMac mac
  let expected ← read Static.gExpectedMac
  let diff := bytesDiffer (Vector.toList expected) signature
  clear Static.gExpectedMac
  pure (diff == 0)

def hmacVerifyDigest (signature : Bytes) : Scratch n Bool :=
  if signature.length ≠ 32 then pure false else do
    let material ← read Static.gMaterial
    let digest ← read Static.gDigest
    let mac ← hmacSha256 (.bytes (Vector.toList material)) (.bytes (Vector.toList digest)) true
    match mac with
    | none => pure false
    | some mac => compareMac mac signature

/-- `secure_crypto_derive_*_keypair` with `g_material` as `material_out`. -/
def deriveMaterial (seed : SeedOf n) (root : Key) (groupId : UInt16) : Scratch n Bool := do
  clear Static.gMaterial
  let out ← seed (some root) groupId true 32
  match out with
  | none => pure false
  | some out => do
    write Static.gMaterial (toKey out)
    pure true

/-- `if (ok) { ok = f(...); }` -/
def guarded {α : Type} (ok : Bool) (f : Scratch n α) (failed : α) : Scratch n α :=
  if ok then f else pure failed

/-- `secure_crypto_writer_sign` and `secure_crypto_receive_proof_sign`, which differ in the key
    pair. -/
def signWith (seed : SeedOf n) (root : Option Key) (groupId : UInt16) (message : Input)
    (signature : Bool) (sigLen : Option Nat) : Scratch n (Option (Digest × Nat)) :=
  match root, message.readable, signature, sigLen with
  | some root, some message, true, some sigLen => do
    let digest ← sha256Raw message
    write Static.gDigest digest
    let ok ← deriveMaterial seed root groupId
    let signed ← guarded ok (hmacSignDigest sigLen) none
    clear Static.gDigest
    clear Static.gMaterial
    pure signed
  | _, _, _, _ => pure none

def verifyWith (seed : SeedOf n) (root : Option Key) (groupId : UInt16) (message signature : Input) :
    Scratch n Bool :=
  match root, message.readable, signature.nonNull with
  | some root, some message, some signature => do
    let digest ← sha256Raw message
    write Static.gDigest digest
    let ok ← deriveMaterial seed root groupId
    let ok ← guarded ok (hmacVerifyDigest signature) false
    clear Static.gDigest
    clear Static.gMaterial
    pure ok
  | _, _, _ => pure false

def secureCryptoWriterSign (root : Option Key) (groupId : UInt16) (message : Input)
    (signature : Bool) (sigLen : Option Nat) : Scratch n (Option (Digest × Nat)) :=
  signWith secureCryptoDeriveWriterSeed root groupId message signature sigLen

def secureCryptoWriterVerify (root : Option Key) (groupId : UInt16) (message signature : Input) :
    Scratch n Bool :=
  verifyWith secureCryptoDeriveWriterSeed root groupId message signature

def secureCryptoReceiveProofSign (root : Option Key) (groupId : UInt16) (message : Input)
    (signature : Bool) (sigLen : Option Nat) : Scratch n (Option (Digest × Nat)) :=
  signWith secureCryptoDeriveRecvSeed root groupId message signature sigLen

def secureCryptoReceiveProofVerify (root : Option Key) (groupId : UInt16) (message signature : Input) :
    Scratch n Bool :=
  verifyWith secureCryptoDeriveRecvSeed root groupId message signature

end Scratch
