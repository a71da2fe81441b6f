-- SUMMARY: The functions of secure_crypto.c give in their static buffers what the key hierarchy gives, and wipe the buffers.
import HsmFirmware.Firmware.CryptoScratch
import HsmFirmware.Specs.Scratch

/-!
# Secure crypto in static buffers

What the static buffers hold makes no difference to any function, and each leaves them as they
were or zero. Keys of 32 bytes are those of the key hierarchy.
-/

open Statics

variable {n : Nat}

/-- The buffers of `sha256_raw.c`. -/
def hashStatics : List Static :=
  [.gSha256Schedule, .gHmacPad, .gHmacInnerHash, .gHkdfBlock, .gSha256OneshotCtx, .gHmacKeyhashCtx,
    .gHmacOneshotCtx, .gHkdfCtx]

/-! ## Keys -/

theorem expandBytes_returns (gcm : AesGcm) (prk info : Bytes) (outLen : Nat) :
    Scratch.Returns (n := n) expandStatics (Scratch.expandBytes prk info outLen)
      (hkdfExpandSha256 (.release gcm) prk info outLen) := by
  have h := hkdfExpandSha256_returns (n := n) gcm prk info (fun _ => 0) outLen
  have hread := Mem.read_write (fun _ => 0) 0 (hkdfExpandSha256 (.release gcm) prk info outLen)
  rw [length_hkdfExpandSha256] at hread
  unfold Scratch.expandBytes
  have hpure := Statics.Returns.pure (z := Static.zero n) (B := expandStatics)
    (hkdfExpandSha256 (.release gcm) prk info outLen)
  nth_rewrite 1 [← hread] at hpure
  exact h.bind hpure

/-- `derive_key`, for any length of output. -/
def deriveBytes (P : Primitives) (master : Key) (label : String) (outLen : Nat) : Bytes :=
  hkdfExpandSha256 P (hkdfExtractSha256 P none master.toList).toList (ascii label) outLen

theorem deriveKey_returns (gcm : AesGcm) (master : Key) (label : String) (outLen : Nat) :
    Scratch.Returns (n := n) (.gHkdfPrk :: hashStatics) (Scratch.deriveKey master label outLen)
      (if outLen = 0 then none else some (deriveBytes (.release gcm) master label outLen)) := by
  unfold Scratch.deriveKey deriveBytes
  split
  · exact .pure none
  · apply Statics.Returns.of_finishes
    refine .call (hkdfExtractSha256_returns gcm none master.toList) (by decide) rfl ?_
    refine .write (by decide) (.read rfl ?_)
    refine .call (expandBytes_returns gcm _ _ outLen) (by decide) rfl (.wipe (by decide) (.pure ?_))
    intro x
    cases x <;> exact .inl rfl

/-- `g_group_key` comes into use. -/
theorem finishes_deriveGroupKey (gcm : AesGcm) (root : Key) (groupId : UInt16) {B : List Static}
    (hB : ∀ x ∈ Static.gGroupSalt :: .gGroupKey :: .gHkdfPrk :: hashStatics, x ∈ B) {α : Type}
    {f : Unit → Scratch n α} {a : α}
    (hf : Finishes (Static.zero n) B
      (Function.update unused .gGroupKey (some (deriveGroupKey (.release gcm) root groupId))) (f ()) a) :
    Finishes (Static.zero n) B unused (Scratch.deriveGroupKey root groupId >>= f) a := by
  unfold Scratch.deriveGroupKey
  simp only [bind_assoc]
  refine .write (hB _ (by decide)) (.read rfl ?_)
  refine .call (hkdfExtractSha256_returns gcm _ root.toList) (fun x hx => hB x ?_) rfl ?_
  · revert x
    decide
  refine .write (hB _ (by decide)) (.read rfl ?_)
  refine .call (expandBytes_returns gcm _ _ 32) (fun x hx => hB x ?_) rfl ?_
  · revert x
    decide
  refine .write (hB _ (by decide)) (.wipe (hB _ (by decide)) (.wipe (hB _ (by decide)) ?_))
  exact hf.of_eq fun x => by cases x <;> rfl

/-- The buffers of a derivation. -/
def deriveStatics : List Static := .gGroupSalt :: .gGroupKey :: .gHkdfPrk :: hashStatics

theorem deriveGroupSubkey_returns (gcm : AesGcm) (root : Key) (groupId : UInt16) (label : String)
    (outLen : Nat) :
    Scratch.Returns (n := n) deriveStatics (Scratch.deriveGroupSubkey root groupId label outLen)
      (if outLen = 0 then none else
        some (deriveBytes (.release gcm) (deriveGroupKey (.release gcm) root groupId) label outLen)) := by
  unfold Scratch.deriveGroupSubkey
  split
  · exact .pure none
  · rename_i hlen
    have hkey := deriveKey_returns (n := n) gcm (deriveGroupKey (.release gcm) root groupId) label outLen
    rw [if_neg hlen] at hkey
    apply Statics.Returns.of_finishes
    apply finishes_deriveGroupKey gcm root groupId fun x hx => hx
    refine .read rfl (.call hkey (by decide) rfl (.wipe (by decide) (.pure ?_)))
    intro x
    cases x <;> exact .inl rfl

/-- A key of a group: `none` without a root secret or an output buffer. -/
def keyOfGroup (P : Primitives) (label : String) (root : Option Key) (groupId : UInt16) (out : Bool)
    (outLen : Nat) : Option Bytes :=
  root.bind fun root => if out = true ∧ outLen ≠ 0 then
    some (deriveBytes P (deriveGroupKey P root groupId) label outLen) else none

theorem deriveOfGroup_returns (gcm : AesGcm) (label : String) (root : Option Key) (groupId : UInt16)
    (out : Bool) (outLen : Nat) :
    Scratch.Returns (n := n) deriveStatics (Scratch.deriveOfGroup label root groupId out outLen)
      (keyOfGroup (.release gcm) label root groupId out outLen) := by
  unfold Scratch.deriveOfGroup keyOfGroup
  cases root with
  | none => exact .pure none
  | some root =>
    cases out with
    | false => exact .pure none
    | true =>
      have h := deriveGroupSubkey_returns (n := n) gcm root groupId label outLen
      by_cases hlen : outLen = 0
      · simp only [hlen]
        exact .pure none
      · rw [if_neg hlen] at h
        simp only [if_neg hlen]
        rw [Option.bind_some, if_pos ⟨trivial, hlen⟩]
        exact h

/-- The seed of a key pair, as `secure_crypto_derive_*_seed` computes it. -/
def seedOf (label : String) (root : Key) (groupId : UInt16) : Key :=
  toKey (deriveBytes (.release .identity) (deriveGroupKey (.release .identity) root groupId) label 32)

theorem deriveKeypair_returns (label : String) (root : Option Key) (groupId : UInt16)
    (materialOut : Bool) :
    Scratch.Returns (n := n) deriveStatics
      (Scratch.deriveKeypair (Scratch.deriveOfGroup label) root groupId materialOut)
      (root.bind fun root => if materialOut = true then some (seedOf label root groupId) else none) := by
  unfold Scratch.deriveKeypair
  cases root with
  | none => exact .pure none
  | some root =>
    cases materialOut with
    | false => exact .pure none
    | true =>
      have h := deriveOfGroup_returns (n := n) .identity label (some root) groupId true 32
      exact .bind h (.pure _)

/-- A MAC: `none` for a missing argument. -/
def macWith (key msg : Input) (out : Bool) : Option Digest :=
  match key.nonNull, msg.readable, out with
  | some key, some msg, true => some (hmacSha256Raw key msg)
  | _, _, _ => none

theorem hmacSha256_returns (key msg : Input) (out : Bool) :
    Scratch.Returns (n := n) hashStatics (Scratch.hmacSha256 key msg out)
      (macWith key msg out) := by
  unfold Scratch.hmacSha256 macWith
  cases key.nonNull with
  | none => exact .pure none
  | some key =>
    cases msg.readable with
    | none => exact .pure none
    | some msg =>
      cases out with
      | false => exact .pure none
      | true => exact .map ((hmacSha256Raw_returns key msg).mono (by decide))

theorem hmacBytes_returns (key msg : Bytes) :
    Scratch.Returns (n := n) hashStatics (Scratch.hmacSha256 (.bytes key) (.bytes msg) true)
      (some (hmacSha256Raw key msg)) :=
  hmacSha256_returns (.bytes key) (.bytes msg) true

theorem secureCryptoDerivePinMacKey_returns (root : Option Key) (out : Bool) (outLen : Nat) :
    Scratch.Returns (n := n) hashStatics (Scratch.secureCryptoDerivePinMacKey root out outLen)
      (root.bind fun root => if out = true ∧ outLen = 32 then
        some (secureCryptoDerivePinMacKey (.release .identity) root) else none) := by
  unfold Scratch.secureCryptoDerivePinMacKey
  cases root with
  | none => exact .pure none
  | some root =>
    cases out with
    | false => exact .pure none
    | true =>
      by_cases hlen : outLen = 32
      · simp only [hlen, ne_eq, not_true_eq_false, if_false, and_self, if_true, Option.bind_some]
        exact hmacBytes_returns root.toList (ascii "pin_mac_v1")
      · simp only [ne_eq, hlen, not_false_eq_true, if_true, and_false, if_false]
        exact .pure none

theorem secureCryptoDeriveChunkKey_returns (masterKey : Input) (chunkIdx : UInt32) (out : Bool)
    (outLen : Nat) : ∃ key, Scratch.Returns (n := n) hashStatics
      (Scratch.secureCryptoDeriveChunkKey masterKey chunkIdx out outLen) key := by
  unfold Scratch.secureCryptoDeriveChunkKey
  split
  · split
    · exact ⟨none, .pure none⟩
    · exact ⟨_, .map ((expandBytes_returns .identity _ _ outLen).mono (by decide))⟩
  · exact ⟨none, .pure none⟩

/-! ## Hash and MAC -/

theorem secureCryptoSha256_returns (message : Input) (digestOut : Bool) (digestLen : Nat) :
    ∃ digest, Scratch.Returns (n := n) hashStatics
      (Scratch.secureCryptoSha256 message digestOut digestLen) digest := by
  unfold Scratch.secureCryptoSha256
  split
  · split
    · exact ⟨none, .pure none⟩
    · exact ⟨_, .map ((sha256Raw_returns _).mono (by decide))⟩
  · exact ⟨none, .pure none⟩

theorem secureCryptoHmacSha256_returns (key message : Input) (macOut : Bool) (macLen : Nat) :
    ∃ mac, Scratch.Returns (n := n) hashStatics
      (Scratch.secureCryptoHmacSha256 key message macOut macLen) mac := by
  unfold Scratch.secureCryptoHmacSha256
  split
  · exact ⟨none, .pure none⟩
  · exact ⟨_, hmacSha256_returns key message macOut⟩

/-! ## AES-GCM -/

/-- What encryption gives with a context that was zero. -/
def WolfSsl.encryptZeroed (w : WolfSsl n) (key : Key) (iv : Nonce) (aad pt : Input)
    (ct : Option Bytes) (tag : Tag) : Int32 × Vector UInt8 n × Option Bytes × Tag :=
  let set := w.setKey (.replicate n 0) key
  if set.1 = 0 then w.encrypt set.2 iv aad pt ct tag else (set.1, set.2, ct, tag)

theorem aesGcmEncrypt_returns (w : WolfSsl n) (key : Key) (iv : Nonce) (aad pt : Input)
    (ct : Option Bytes) (tag : Tag) :
    Scratch.Returns [.gAesCtx] (Scratch.aesGcmEncrypt w key iv aad pt ct tag)
      ((w.encryptZeroed key iv aad pt ct tag).1 == 0, (w.encryptZeroed key iv aad pt ct tag).2.2) := by
  apply Statics.Returns.of_finishes
  unfold Scratch.aesGcmEncrypt
  refine .write (List.mem_singleton_self _) (.read rfl ?_)
  refine .write (List.mem_singleton_self _) (.read rfl ?_)
  refine .write (List.mem_singleton_self _) (.wipe (List.mem_singleton_self _) (.pure ?_))
  intro x
  cases x <;> exact .inl rfl

/-- And decryption. -/
def WolfSsl.decryptZeroed (w : WolfSsl n) (key : Key) (iv : Nonce) (aad ct : Input) (tag : Tag)
    (pt : Option Bytes) : Int32 × Vector UInt8 n × Option Bytes :=
  let set := w.setKey (.replicate n 0) key
  if set.1 = 0 then w.decrypt set.2 iv aad ct tag pt else (set.1, set.2, pt)

theorem aesGcmDecrypt_returns (w : WolfSsl n) (key : Key) (iv : Nonce) (aad ct : Input) (tag : Tag)
    (pt : Option Bytes) :
    Scratch.Returns [.gAesCtx] (Scratch.aesGcmDecrypt w key iv aad ct tag pt)
      ((w.decryptZeroed key iv aad ct tag pt).1 == 0, Scratch.wipeOnFailure
        (w.decryptZeroed key iv aad ct tag pt).1 ct.len (w.decryptZeroed key iv aad ct tag pt).2.2) := by
  apply Statics.Returns.of_finishes
  unfold Scratch.aesGcmDecrypt
  refine .write (List.mem_singleton_self _) (.read rfl ?_)
  refine .write (List.mem_singleton_self _) (.read rfl ?_)
  refine .write (List.mem_singleton_self _) (.wipe (List.mem_singleton_self _) (.pure ?_))
  intro x
  cases x <;> exact .inl rfl

theorem secureCryptoAesGcmEncrypt_returns (w : WolfSsl n) (key nonce aad plaintext : Input)
    (ciphertextOut : Option Bytes) (tagOut : Option Tag) (tagLen : Nat) :
    ∃ sealed, Scratch.Returns [.gAesCtx] (Scratch.secureCryptoAesGcmEncrypt w key nonce aad plaintext
      ciphertextOut tagOut tagLen) sealed := by
  unfold Scratch.secureCryptoAesGcmEncrypt
  split
  · split
    · exact ⟨_, .pure _⟩
    · exact ⟨_, .bind (aesGcmEncrypt_returns w _ _ aad plaintext ciphertextOut _) (.pure _)⟩
  · exact ⟨_, .pure _⟩

theorem secureCryptoAesGcmDecrypt_returns (w : WolfSsl n) (key nonce aad ciphertext tag : Input)
    (plaintextOut : Option Bytes) (ptOutLen : Nat) :
    ∃ opened, Scratch.Returns [.gAesCtx] (Scratch.secureCryptoAesGcmDecrypt w key nonce aad ciphertext
      tag plaintextOut ptOutLen) opened := by
  unfold Scratch.secureCryptoAesGcmDecrypt
  split
  · split
    · exact ⟨_, .pure _⟩
    · exact ⟨_, aesGcmDecrypt_returns w _ _ aad ciphertext _ plaintextOut⟩
  · exact ⟨_, .pure _⟩

/-! ## Signatures -/

/-- The buffers of a signature. -/
def signStatics : List Static := .gDigest :: .gMaterial :: .gExpectedMac :: deriveStatics

/-- The key pair and the digest of a message are in use. -/
def signUse (digest : Digest) (material : Key) : (x : Static) → Option (x.Value n) :=
  Function.update (Function.update unused .gDigest (some digest)) .gMaterial (some material)

theorem finishes_hmacSignDigest (digest : Digest) (material : Key) (sigLen : Nat) {α : Type}
    {f : Option (Digest × Nat) → Scratch n α} {a : α}
    (hf : Finishes (Static.zero n) signStatics (signUse digest material)
      (f (if sigLen < 32 then none
        else some (hmacSha256Raw material.toList digest.toList, 32))) a) :
    Finishes (Static.zero n) signStatics (signUse digest material)
      (Scratch.hmacSignDigest sigLen >>= f) a := by
  unfold Scratch.hmacSignDigest
  split at hf
  · rename_i hlen
    rw [if_pos hlen, pure_bind]
    exact hf
  · rename_i hlen
    rw [if_neg hlen]
    simp only [bind_assoc]
    refine .read rfl (.read rfl ?_)
    refine .call (hmacBytes_returns material.toList digest.toList) (by decide) rfl ?_
    rw [pure_bind]
    exact hf

theorem finishes_hmacVerifyDigest (digest : Digest) (material : Key) (signature : Bytes) {α : Type}
    {f : Bool → Scratch n α} {a : α}
    (hf : Finishes (Static.zero n) signStatics (signUse digest material)
      (f (if signature.length ≠ 32 then false
        else bytesDiffer (hmacSha256Raw material.toList digest.toList).toList signature == 0)) a) :
    Finishes (Static.zero n) signStatics (signUse digest material)
      (Scratch.hmacVerifyDigest signature >>= f) a := by
  unfold Scratch.hmacVerifyDigest
  split at hf
  · rename_i hlen
    rw [if_pos hlen, pure_bind]
    exact hf
  · rename_i hlen
    rw [if_neg hlen]
    simp only [bind_assoc]
    refine .read rfl (.read rfl ?_)
    refine .call (hmacBytes_returns material.toList digest.toList) (by decide) rfl ?_
    unfold Scratch.compareMac
    simp only [bind_assoc, pure_bind]
    refine .write (by decide) (.read rfl (.wipe (by decide) ?_))
    exact hf.of_eq fun x => by cases x <;> rfl

/-- `g_material` comes into use, behind the digest. -/
theorem finishes_deriveMaterial (label : String) (root : Key) (groupId : UInt16) (digest : Digest)
    {α : Type} {f : Bool → Scratch n α} {a : α}
    (hf : Finishes (Static.zero n) signStatics (signUse digest (seedOf label root groupId))
      (f true) a) :
    Finishes (Static.zero n) signStatics (Function.update unused .gDigest (some digest))
      (Scratch.deriveMaterial (Scratch.deriveOfGroup label) root groupId >>= f) a := by
  have h : Scratch.Returns (n := n) deriveStatics
      (Scratch.deriveOfGroup label (some root) groupId true 32)
      (some (deriveBytes (.release .identity) (deriveGroupKey (.release .identity) root groupId)
        label 32)) :=
    deriveOfGroup_returns (n := n) .identity label (some root) groupId true 32
  unfold Scratch.deriveMaterial
  simp only [bind_assoc]
  refine .write (by decide) (.call h (by decide) rfl ?_)
  simp only [bind_assoc, pure_bind]
  refine .write (by decide) ?_
  exact hf.of_eq fun x => by cases x <;> rfl

/-- A signature: `none` for missing arguments, or too short an output buffer. -/
def signatureWith (label : String) (root : Option Key) (groupId : UInt16) (message : Input)
    (signature : Bool) (sigLen : Option Nat) : Option (Digest × Nat) :=
  match root, message.readable, signature, sigLen with
  | some root, some message, true, some sigLen =>
    if sigLen < 32 then none
    else some (hmacSha256Raw (seedOf label root groupId).toList (sha256Raw message).toList, 32)
  | _, _, _, _ => none

theorem signWith_returns (label : String) (root : Option Key) (groupId : UInt16) (message : Input)
    (signature : Bool) (sigLen : Option Nat) :
    Scratch.Returns (n := n) signStatics
      (Scratch.signWith (Scratch.deriveOfGroup label) root groupId message signature sigLen)
      (signatureWith label root groupId message signature sigLen) := by
  unfold Scratch.signWith signatureWith
  cases root with
  | none => exact .pure none
  | some root =>
    cases message.readable with
    | none => exact .pure none
    | some message =>
      cases signature with
      | false => exact .pure none
      | true =>
        cases sigLen with
        | none => exact .pure none
        | some sigLen =>
          apply Statics.Returns.of_finishes
          refine .call (sha256Raw_returns message) (by decide) rfl (.write (by decide) ?_)
          apply finishes_deriveMaterial
          apply finishes_hmacSignDigest
          refine .wipe (by decide) (.wipe (by decide) (.pure ?_))
          intro x
          cases x <;> exact .inl rfl

/-- Whether a signature is right. -/
def verdictWith (label : String) (root : Option Key) (groupId : UInt16) (message signature : Input) :
    Bool :=
  match root, message.readable, signature.nonNull with
  | some root, some message, some signature =>
    if signature.length ≠ 32 then false
    else bytesDiffer (hmacSha256Raw (seedOf label root groupId).toList
      (sha256Raw message).toList).toList signature == 0
  | _, _, _ => false

theorem verifyWith_returns (label : String) (root : Option Key) (groupId : UInt16)
    (message signature : Input) :
    Scratch.Returns (n := n) signStatics
      (Scratch.verifyWith (Scratch.deriveOfGroup label) root groupId message signature)
      (verdictWith label root groupId message signature) := by
  unfold Scratch.verifyWith verdictWith
  cases root with
  | none => exact .pure false
  | some root =>
    cases message.readable with
    | none => exact .pure false
    | some message =>
      cases signature.nonNull with
      | none => exact .pure false
      | some signature =>
        apply Statics.Returns.of_finishes
        refine .call (sha256Raw_returns message) (by decide) rfl (.write (by decide) ?_)
        apply finishes_deriveMaterial
        apply finishes_hmacVerifyDigest
        refine .wipe (by decide) (.wipe (by decide) (.pure ?_))
        intro x
        cases x <;> exact .inl rfl
