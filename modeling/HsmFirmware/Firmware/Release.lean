-- SUMMARY: The primitives of the firmware with the hashes of sha256_raw.c, and a device built with them.
import HsmFirmware.Firmware.Commands
import HsmFirmware.Firmware.Sha256Raw

/-!
# A release build

The firmware computes its hashes itself and takes AES-GCM from wolfSSL. A build is
given by an AES-GCM and the constants of `secrets.h`. The device at the end is one
such build at its first boot.
-/

/-- AES-256-GCM, of which decryption inverts encryption. -/
structure AesGcm where
  encrypt : (key : Key) → (iv : Nonce) → (aad pt : Bytes) → Vector UInt8 pt.length × Tag
  decrypt : (key : Key) → (iv : Nonce) → (aad ct : Bytes) → (tag : Tag) →
    Option (Vector UInt8 ct.length)
  inverts : ∀ key iv aad pt, (decrypt key iv aad (encrypt key iv aad pt).1.toList
    (encrypt key iv aad pt).2).map Vector.toList = some pt

/-- The primitives of the firmware over an AES-GCM. -/
def Primitives.release (gcm : AesGcm) : Primitives where
  sha256 := sha256Raw
  hmac := hmacSha256Raw
  aesGcmEncrypt key iv aad pt := some (gcm.encrypt key iv aad pt)
  aesGcmDecrypt := gcm.decrypt

theorem Primitives.release_gcmLaws (gcm : AesGcm) : (Primitives.release gcm).GcmLaws where
  encrypts key nonce aad pt := ⟨_, _, rfl⟩
  inverts {key nonce aad pt ct tag} h := by
    cases h
    exact gcm.inverts key nonce aad pt

/-- The cipher that leaves the text as it is and has one tag. -/
def AesGcm.identity : AesGcm where
  encrypt _ _ _ pt := (⟨pt.toArray, rfl⟩, .replicate 16 0)
  decrypt _ _ _ ct tag := if tag = .replicate 16 0 then some ⟨ct.toArray, rfl⟩ else none
  inverts key iv aad pt := by simp

/-- The primitives with a MAC that is the length of the message and the message itself. -/
def Primitives.copying : Primitives :=
  { Primitives.release .identity with
    hmac := fun _ msg => (Codec.bytes 32).decode (UInt8.ofNat msg.length :: msg) }

/-- It tells short messages apart. -/
theorem Primitives.copying_hmac_inj {key key' msg msg' : Bytes} (h : msg.length ≤ 31)
    (h' : msg'.length ≤ 31) (heq : copying.hmac key msg = copying.hmac key' msg') : msg = msg' := by
  have hfirst := congrArg (fun v : Digest => v[0]) heq
  have hbyte : UInt8.ofNat msg.length = UInt8.ofNat msg'.length := by
    simpa [copying, Codec.bytes] using hfirst
  have hlen : msg.length = msg'.length := by
    have hnat := congrArg UInt8.toNat hbyte
    rwa [UInt8.toNat_ofNat_of_lt' (by unfold UInt8.size; omega),
      UInt8.toNat_ofNat_of_lt' (by unfold UInt8.size; omega)] at hnat
  have hcons := Codec.bytes_decode_inj (n := 32) (by simpa using hlen) (by simp; omega) heq
  exact (List.cons.inj hcons).2

/-- A build: group 1 may do everything, group 2 only be written, and the rows left over
    let group 0 be read and written. -/
def Firmware.sample : Firmware where
  prim := .release .identity
  globalSecrets := List.replicate 129 0
  hsmPin := ascii "a1b2c3"
  globalPermissions i :=
    if i = 0 then ⟨1, true, true, true⟩
    else if i = 1 then ⟨2, false, true, false⟩
    else ⟨0, true, true, false⟩

/-- The build with the MAC that copies. -/
def Firmware.copying : Firmware := { Firmware.sample with prim := .copying }

/-- The RAM of the sample after its first boot. -/
def Ram.sample : Ram :=
  { Ram.reset with
    gFat := fun _ => .erased
    sInitialized := true
    gNameTable := fun _ => .erased
    gPinHash := (computePinHash .sample (ascii "a1b2c3")).getD (.replicate 32 0)
    gInitialized := true }

/-- Erased flash, a generator that works, and nobody on the other end of the wires. -/
def World.sample : World where
  flash _ := 0xFF
  rng _ := some fun _ => 0
  draws := 0
  peer _ _ := .failed .timeout
  recvs := 0
  acks := []
  sent := []

theorem Firmware.sample_gcmLaws : Firmware.sample.prim.GcmLaws := Primitives.release_gcmLaws _

theorem Firmware.sample_rootSecret :
    securityGetRootSecret .sample = some (toKey (Firmware.sample.globalSecrets.drop 97)) := by
  have hlen : Firmware.sample.globalSecrets.length = 129 := List.length_replicate
  rw [securityGetRootSecret, secureCryptoRootSecretFromGlobalSecrets, hlen, if_neg (by decide)]

theorem Firmware.sample_computePinHash (pin : Bytes) : (computePinHash .sample pin).isSome := by
  rw [computePinHash, sample_rootSecret]
  rfl

/-- The contents of a file of two chunks. -/
def sampleContents : Bytes := List.replicate 300 0x61

@[simp] theorem length_sampleContents : sampleContents.length = 300 := List.length_replicate

theorem sampleContents_fits : sampleContents.length ≤ maxContentsSize := by
  rw [length_sampleContents]
  decide

/-- A write command for a file with these contents, with the PIN of the sample device. -/
def sampleWrite (slot : UInt8) (groupId : UInt16) (name : String) : Mem :=
  ((Mem.write (fun _ => 0) 0
    (ascii "a1b2c3" ++ [slot] ++ Codec.u16.encode groupId ++ ascii name)).write 57
    (Codec.u16.encode 300)).write 59 sampleContents

theorem sampleWrite_contents (slot : UInt8) (groupId : UInt16) (name : String) :
    (WriteCommand.ofBuf (sampleWrite slot groupId name)).contents = sampleContents := by
  have hlen : (sampleWrite slot groupId name).read 57 2 = Codec.u16.encode 300 := by
    have hfront : Mem.Agree (sampleWrite slot groupId name) _ 57 59 :=
      Mem.agree_write (.inl (Nat.le_refl 59))
    rw [hfront.read (Nat.le_refl _) (Nat.le_refl _)]
    exact Mem.read_write _ 57 (Codec.u16.encode 300)
  have hread := Mem.read_write (((Mem.write (fun _ => 0) 0
    (ascii "a1b2c3" ++ [slot] ++ Codec.u16.encode groupId ++ ascii name)).write 57
    (Codec.u16.encode 300))) 59 sampleContents
  rw [WriteCommand.ofBuf, hlen, Codec.decode_encode']
  rw [length_sampleContents] at hread
  exact hread

theorem sampleWrite_fits (slot : UInt8) (groupId : UInt16) (name : String) :
    (WriteCommand.ofBuf (sampleWrite slot groupId name)).contents.length ≤ maxContentsSize := by
  rw [sampleWrite_contents]
  exact sampleContents_fits

/-- A receive command with that PIN. -/
def sampleReceive (readSlot writeSlot : UInt8) : Mem :=
  Mem.write (fun _ => 0) 0 (ascii "a1b2c3" ++ [readSlot, writeSlot])
