-- SUMMARY: blob_write with its nonce, its encryptions and its blob tag noted, and what the notes of one call are.
import HsmFirmware.Library.Notes
import Mathlib.Algebra.Group.Nat.Defs
import HsmFirmware.Specs.Record

/-!
# Encryptions

`blob_write` encrypts the chunks of a record under keys of their own and one nonce, and computes a
blob tag over the tags of the chunks. Here the draw of the nonce notes what it gives, and encryption
and blob tag note what they are given. Without the notes it is `blob_write`.
-/

/-- What is noted: a nonce drawn, an encryption, or a blob tag computed for chunk tags. -/
inductive CryptoEvent where
  | nonce (nonce : Nonce)
  | encrypt (key : Key) (nonce : Nonce) (aad plaintext : Bytes)
  | blobTag (key : Key) (tags : Bytes)

/-- A handler that notes events. -/
abbrev NotedDev := StateT Ram (Prog (Noted.Answer (E := CryptoEvent) Res))

namespace NotedDev

variable {α β : Type}

def note (e : CryptoEvent) : NotedDev Unit := fun ram => .call (.note e) fun _ => .ret ((), ram)

def lift (h : Dev α) : NotedDev α := fun ram => Noted.lift CryptoEvent (h.run ram)

def erase (h : NotedDev α) : Dev α := fun ram => Noted.erase (h.run ram)

theorem erase_lift (h : Dev α) : erase (lift h) = h := funext fun _ => Noted.erase_lift _

theorem erase_pure (a : α) : erase (pure a) = pure a := rfl

theorem erase_bind (h : NotedDev α) (f : α → NotedDev β) :
    erase (h >>= f) = (erase h >>= fun a => erase (f a)) :=
  funext fun _ => Noted.erase_bind _ _

theorem run_get_bind (f : Ram → NotedDev α) (ram : Ram) :
    (get >>= f).run ram = (f ram).run ram := rfl

theorem erase_ite (c : Prop) [Decidable c] (h h' : NotedDev α) :
    erase (if c then h else h') = if c then erase h else erase h' := by
  split <;> rfl

/-- From the notes `L` on, whatever the answers: all notes satisfy `S`, and the final ones `R`. -/
def Notes (S : List CryptoEvent → Prop) (R : α → List CryptoEvent → Prop) (h : NotedDev α)
    (L : List CryptoEvent) : Prop :=
  ∀ ram, Noted.Notes S (fun r => R r.1) (h.run ram) L

variable {S : List CryptoEvent → Prop} {R : α → List CryptoEvent → Prop}
  {R' : β → List CryptoEvent → Prop} {L : List CryptoEvent}

theorem Notes.pure {a : α} (h : R a L) : Notes S R (Pure.pure a : NotedDev α) L := fun _ => h

theorem Notes.lift {h : Dev α} (hR : ∀ a, R a L) : Notes S R (NotedDev.lift h) L :=
  fun _ => Noted.Notes.lift fun r => hR r.1

theorem Notes.bind {h : NotedDev α} {f : α → NotedDev β} (hh : Notes S R h L)
    (hf : ∀ a L', R a L' → Notes S R' (f a) L') : Notes S R' (h >>= f) L :=
  fun ram => Noted.Notes.bind (hh ram) fun r L' hr => hf r.1 L' hr r.2

theorem Notes.lift_bind {h : Dev α} {f : α → NotedDev β} (hf : ∀ a, Notes S R' (f a) L) :
    Notes S R' (NotedDev.lift h >>= f) L := by
  have hlift : Notes S (fun _ L' => L' = L) (NotedDev.lift h) L := Notes.lift fun _ => rfl
  apply Notes.bind hlift
  rintro a L' rfl
  exact hf a

end NotedDev

open NotedDev

variable (fw : Firmware)

/-! ## The noting write -/

/-- `secure_crypto_aes_gcm_encrypt`. It notes what it is given. -/
def secureCryptoAesGcmEncryptNoted (key : Key) (nonce : Nonce) (aad plaintext : Bytes) :
    NotedDev (Option (Bytes × Tag)) := do
  note (.encrypt key nonce aad plaintext)
  pure (secureCryptoAesGcmEncrypt fw.prim key nonce aad plaintext)

/-- The MAC of the digest of the chunk tags. It notes the key and the tags it is given. -/
def blobTagNoted (masterKey : Key) (tags : Bytes) : NotedDev Digest := do
  note (.blobTag masterKey tags)
  let tagsDigest := fw.prim.sha256 tags
  pure (fw.prim.hmac masterKey.toList tagsDigest.toList)

/-- `security_generate_nonce` for a record. It notes the nonce it gives. -/
def securityGenerateNonceNoted : NotedDev (Option Nonce) := do
  match ← lift (securityGenerateNonce 12) with
  | none => pure none
  | some bytes => do
    let nonce := (Codec.bytes 12).decode bytes
    note (.nonce nonce)
    pure (some nonce)

def blobWriteChunksNoted (masterKey : Key) (nonce : Nonce) (aad : Bytes) (flashAddr : Nat)
    (rest : Bytes) (processed : Nat) (chunkIdx : UInt32) (shaCtx : Bytes) :
    NotedDev (Except BlobStatus Bytes) :=
  if rest = [] then pure (.ok shaCtx) else do
    let chunk := rest.take chunkSize
    let chunkKey := secureCryptoDeriveChunkKey fw.prim masterKey chunkIdx
    match ← secureCryptoAesGcmEncryptNoted fw chunkKey nonce aad chunk with
    | none => pure (.error .cryptoError)
    | some (ct, chunkTag) => do
      if (← lift (flashSimpleWrite (flashAddr + headerSize + processed) ct)) ≠ 0 then
        pure (.error .ioError)
      else do
      if (← lift (flashSimpleWrite (flashAddr + tagsOffset + chunkIdx.toNat * tagSize)
          chunkTag.toList)) ≠ 0 then
        pure (.error .ioError)
      else
        blobWriteChunksNoted masterKey nonce aad flashAddr (rest.drop chunkSize)
          (processed + chunk.length) (chunkIdx + 1) (shaCtx ++ chunkTag.toList)
termination_by rest.length
decreasing_by
  have := List.length_pos_iff.mpr ‹_›
  simp [chunkSize]
  omega

def blobWriteRecordNoted (slot : Slot) (data : Bytes) (uuid : Vector UInt8 16) (masterKey : Key)
    (header : Header) : NotedDev BlobStatus := do
  lift (modify fun ram => { ram with gAad := buildAad header })
  let rc ← lift (eraseSlotPages slot)
  if rc ≠ .ok then pure rc else do
  let flashAddr := blobSlotBase slot
  match ← blobWriteChunksNoted fw masterKey header.nonce (buildAad header) flashAddr data 0 0 [] with
  | .error rc => pure rc
  | .ok shaCtx => do
    let blobTag ← blobTagNoted fw masterKey shaCtx
    let header := { header with blobTag := blobTag }
    if (← lift (flashSimpleWrite flashAddr (Header.codec.encode header))) ≠ 0 then pure .ioError else
    lift (commitFatEntry slot
      { uuid := uuid
        length := UInt16.ofNat (headerSize + data.length)
        padding := 0
        flashAddr := UInt32.ofNat flashAddr })

def blobWriteNoted (slot : UInt8) (data : Bytes) (uuid : Vector UInt8 16) (ownerPinHash : Digest)
    (groupMask : UInt32) : NotedDev BlobStatus := do
  if tagsOffset - headerSize < data.length ∨ 0xFFFFFFFF < data.length ∨
      0xFFFF < headerSize + data.length then
    pure .invalidArgument
  else
  match findWriteSlot (← get).gFat slot with
  | .error rc => pure rc
  | .ok resolvedSlot =>
    match securityGetRootSecret fw with
    | none => pure .cryptoError
    | some root =>
      match deriveFileKey fw root groupMask with
      | none => pure .cryptoError
      | some masterKey => do
        match ← securityGenerateNonceNoted with
        | none => pure .cryptoError
        | some nonce =>
          blobWriteRecordNoted fw resolvedSlot data uuid masterKey
            (blobWriteHeader resolvedSlot data.length ownerPinHash groupMask nonce)

/-! ## Without the notes -/

section

variable {β : Type}

theorem erase_encrypt_bind (key : Key) (nonce : Nonce) (aad plaintext : Bytes)
    (f : Option (Bytes × Tag) → NotedDev β) :
    erase (secureCryptoAesGcmEncryptNoted fw key nonce aad plaintext >>= f) =
      erase (f (secureCryptoAesGcmEncrypt fw.prim key nonce aad plaintext)) := rfl

theorem erase_blobTag (masterKey : Key) (tags : Bytes) :
    erase (blobTagNoted fw masterKey tags) =
      pure (fw.prim.hmac masterKey.toList (fw.prim.sha256 tags).toList) := rfl

theorem erase_generateNonce_bind (f : Option Nonce → NotedDev β) :
    erase (securityGenerateNonceNoted >>= f) = (securityGenerateNonce 12 >>= fun r =>
      erase (f (r.map (Codec.bytes 12).decode))) := by
  rw [securityGenerateNonceNoted, erase_bind, erase_bind, erase_lift, bind_assoc]
  congr 1
  funext r
  cases r <;> rfl

end

theorem erase_blobWriteChunksNoted (masterKey : Key) (nonce : Nonce) (aad : Bytes) (flashAddr : Nat)
    (rest : Bytes) (processed : Nat) (chunkIdx : UInt32) (shaCtx : Bytes) :
    erase (blobWriteChunksNoted fw masterKey nonce aad flashAddr rest processed chunkIdx shaCtx) =
      blobWriteChunks fw masterKey nonce aad flashAddr rest processed chunkIdx shaCtx := by
  induction hlen : rest.length using Nat.strong_induction_on
    generalizing rest processed chunkIdx shaCtx with
  | _ len ih =>
    rw [blobWriteChunksNoted, blobWriteChunks]
    by_cases hrest : rest = []
    · rw [if_pos hrest, if_pos hrest, erase_pure]
    have hpos := List.length_pos_iff.mpr hrest
    rw [if_neg hrest, if_neg hrest]
    simp only [erase_encrypt_bind]
    generalize secureCryptoAesGcmEncrypt fw.prim
      (secureCryptoDeriveChunkKey fw.prim masterKey chunkIdx) nonce aad (rest.take chunkSize) = r
    cases r with
    | none => rfl
    | some r =>
      have hrec := fun processed' chunkIdx' shaCtx' => ih (rest.drop chunkSize).length
        (by simp [chunkSize]; omega) (rest.drop chunkSize) processed' chunkIdx' shaCtx' rfl
      simp only [erase_bind, erase_lift, erase_ite, erase_pure, hrec]

theorem erase_blobWriteRecordNoted (slot : Slot) (data : Bytes) (uuid : Vector UInt8 16)
    (masterKey : Key) (header : Header) :
    erase (blobWriteRecordNoted fw slot data uuid masterKey header) =
      blobWriteRecord fw slot data uuid masterKey header := by
  unfold blobWriteRecordNoted blobWriteRecord
  simp only [erase_bind, erase_lift, erase_ite, erase_pure, erase_blobWriteChunksNoted]
  congr 1
  funext _
  congr 1
  funext rc
  congr 1
  congr 1
  funext r
  cases r with
  | error rc => rfl
  | ok shaCtx => simp only [erase_bind, erase_blobTag, pure_bind, erase_lift, erase_ite, erase_pure]

theorem erase_blobWriteNoted (slot : UInt8) (data : Bytes) (uuid : Vector UInt8 16)
    (ownerPinHash : Digest) (groupMask : UInt32) :
    erase (blobWriteNoted fw slot data uuid ownerPinHash groupMask) =
      blobWrite fw slot data uuid ownerPinHash groupMask := by
  unfold blobWriteNoted blobWrite
  rw [erase_ite]
  congr 1
  rw [erase_bind]
  refine congrArg (bind (get : Dev Ram)) (funext fun ram => ?_)
  cases findWriteSlot ram.gFat slot with
  | error rc => rfl
  | ok resolvedSlot =>
    cases securityGetRootSecret fw with
    | none => rfl
    | some root =>
      cases hkey : deriveFileKey fw root groupMask with
      | none => simp only [hkey, erase_pure]
      | some masterKey =>
        simp only [hkey, erase_generateNonce_bind]
        congr 1
        funext r
        cases r with
        | none => rfl
        | some nonce => exact erase_blobWriteRecordNoted fw _ _ _ _ _

/-! ## What is noted -/

variable {fw} in
/-- A file key is that of a group id in 16 bits. -/
theorem fileKey_some {groupMask : UInt32} {masterKey : Key}
    (h : (securityGetRootSecret fw).bind (fun root => deriveFileKey fw root groupMask) =
      some masterKey) :
    ∃ root, securityGetRootSecret fw = some root ∧ ¬ 0xFFFF < groupMask ∧
      masterKey = secureCryptoDeriveFileEncKey fw.prim root groupMask.toUInt16 := by
  obtain ⟨root, hroot, hkey⟩ := Option.bind_eq_some_iff.mp h
  unfold deriveFileKey at hkey
  split at hkey
  · cases hkey
  · rename_i hgroup
    exact ⟨root, hroot, hgroup, (Option.some.inj hkey).symm⟩

namespace BlobRecord

/-- The record a call of `blob_write` sets out to write. -/
structure Begun (r : BlobRecord) (fat : Slot → FatEntry) (slot : UInt8) (data : Bytes)
    (ownerPinHash : Digest) (groupMask : UInt32) : Prop where
  slot : findWriteSlot fat slot = .ok r.slot
  data : r.data = data
  ownerPinHash : r.ownerPinHash = ownerPinHash
  groupMask : r.groupMask = groupMask
  key : (securityGetRootSecret fw).bind (fun root => deriveFileKey fw root r.groupMask) =
    some r.masterKey
  fits : r.data.length ≤ tagsOffset - headerSize

variable (r : BlobRecord)

/-- The encryptions of the first `k` chunks of a record. -/
def encryptions (k : Nat) : List CryptoEvent :=
  (List.range k).map fun i =>
    .encrypt (secureCryptoDeriveChunkKey fw.prim r.masterKey (UInt32.ofNat i)) r.nonce
      (buildAad r.draft) (chunk r.data i)

/-- All notes of the write of a record: the nonce, the encryptions of its chunks, the blob tag. -/
def notes : List CryptoEvent :=
  .nonce r.nonce :: (r.encryptions fw (numChunks r.data.length) ++ [.blobTag r.masterKey (r.tags fw)])

/-- The notes of the write of a record that may end early: the nonce and the encryptions of some
    first chunks, or all. -/
def SomeNotes (L : List CryptoEvent) : Prop :=
  (∃ k ≤ numChunks r.data.length, L = .nonce r.nonce :: r.encryptions fw k) ∨ L = r.notes fw

variable {fw r}

theorem encryptions_succ (k : Nat) : r.encryptions fw (k + 1) = r.encryptions fw k ++
    [.encrypt (secureCryptoDeriveChunkKey fw.prim r.masterKey (UInt32.ofNat k)) r.nonce
      (buildAad r.draft) (chunk r.data k)] := by
  unfold encryptions
  rw [List.range_succ, List.map_append]
  rfl

theorem someNotes_encryptions {k : Nat} (hk : k ≤ numChunks r.data.length) :
    r.SomeNotes fw (.nonce r.nonce :: r.encryptions fw k) := .inl ⟨k, hk, rfl⟩

theorem someNotes_notes : r.SomeNotes fw (r.notes fw) := .inr rfl

end BlobRecord

/-- The notes of one write: none, or those of the record it has set out to write. -/
def WriteNotes (fat : Slot → FatEntry) (slot : UInt8) (data : Bytes) (ownerPinHash : Digest)
    (groupMask : UInt32) (L : List CryptoEvent) : Prop :=
  L = [] ∨ ∃ r : BlobRecord, r.Begun fw fat slot data ownerPinHash groupMask ∧ r.SomeNotes fw L

variable {fw}

section

variable {β : Type} {S : List CryptoEvent → Prop} {R : β → List CryptoEvent → Prop}
  {L : List CryptoEvent}

theorem notes_encrypt_bind {key : Key} {nonce : Nonce} {aad plaintext : Bytes}
    {f : Option (Bytes × Tag) → NotedDev β} (hS : S (L ++ [.encrypt key nonce aad plaintext]))
    (hf : Notes S R (f (secureCryptoAesGcmEncrypt fw.prim key nonce aad plaintext))
      (L ++ [.encrypt key nonce aad plaintext])) :
    Notes S R (secureCryptoAesGcmEncryptNoted fw key nonce aad plaintext >>= f) L :=
  fun ram => ⟨hS, hf ram⟩

theorem notes_blobTag_bind {masterKey : Key} {tags : Bytes} {f : Digest → NotedDev β}
    (hS : S (L ++ [.blobTag masterKey tags]))
    (hf : ∀ blobTag, Notes S R (f blobTag) (L ++ [.blobTag masterKey tags])) :
    Notes S R (blobTagNoted fw masterKey tags >>= f) L :=
  fun ram => ⟨hS, hf _ ram⟩

theorem notes_generateNonce_bind {f : Option Nonce → NotedDev β} (hnone : Notes S R (f none) L)
    (hsome : ∀ nonce, S (L ++ [.nonce nonce]) ∧ Notes S R (f (some nonce)) (L ++ [.nonce nonce])) :
    Notes S R (securityGenerateNonceNoted >>= f) L := by
  rw [securityGenerateNonceNoted, bind_assoc]
  apply Notes.lift_bind
  intro r
  cases r with
  | none => exact hnone
  | some bytes =>
    obtain ⟨hS, hf⟩ := hsome ((Codec.bytes 12).decode bytes)
    exact fun ram => ⟨hS, hf ram⟩

end

/-! ## One record -/

section

variable {r : BlobRecord}

/-- The loop from chunk `i` on has ended: it has failed, or it has encrypted all chunks and has their
    tags. -/
def ChunksNoted (fw : Firmware) (r : BlobRecord) (shaCtx : Bytes) (i n : Nat) :
    Except BlobStatus Bytes → List CryptoEvent → Prop
  | .error rc, L => rc ≠ .ok ∧ r.SomeNotes fw L
  | .ok shaCtx', L =>
    shaCtx' = shaCtx ++ sealedTags fw r.masterKey r.nonce (buildAad r.draft) r.data i n ∧
      L = .nonce r.nonce :: r.encryptions fw (numChunks r.data.length)

theorem notes_blobWriteChunksNoted {flashAddr processed : Nat} {shaCtx : Bytes} {i n : Nat}
    (hn : n = numChunks r.data.length - i) (hi : i ≤ numChunks r.data.length) :
    Notes (r.SomeNotes fw) (ChunksNoted fw r shaCtx i n)
      (blobWriteChunksNoted fw r.masterKey r.nonce (buildAad r.draft) flashAddr
        (r.data.drop (256 * i)) processed (UInt32.ofNat i) shaCtx)
      (.nonce r.nonce :: r.encryptions fw i) := by
  induction n generalizing processed shaCtx i with
  | zero =>
    have hlast : i = numChunks r.data.length := by omega
    have hnil : r.data.drop (256 * i) = [] := by
      unfold numChunks at hlast
      exact List.drop_eq_nil_of_le (by omega)
    rw [blobWriteChunksNoted, if_pos hnil]
    apply Notes.pure
    constructor
    · rw [sealedTags_zero, List.append_nil]
    · rw [← hlast]
  | succ n ih =>
    have hne : r.data.drop (256 * i) ≠ [] := by
      unfold numChunks at hn
      apply List.ne_nil_of_length_pos
      rw [List.length_drop]
      omega
    have hnext : r.SomeNotes fw (.nonce r.nonce :: r.encryptions fw (i + 1)) :=
      BlobRecord.someNotes_encryptions (by omega)
    have hchunk : (r.data.drop (256 * i)).take chunkSize = chunk r.data i := rfl
    have hnote : CryptoEvent.nonce r.nonce :: r.encryptions fw i ++ [.encrypt
        (secureCryptoDeriveChunkKey fw.prim r.masterKey (UInt32.ofNat i)) r.nonce (buildAad r.draft)
        (chunk r.data i)] = .nonce r.nonce :: r.encryptions fw (i + 1) := by
      rw [BlobRecord.encryptions_succ]
      rfl
    rw [blobWriteChunksNoted, if_neg hne]
    simp only [hchunk]
    apply notes_encrypt_bind
    · rw [hnote]
      exact hnext
    · rw [hnote]
      cases hseal : secureCryptoAesGcmEncrypt fw.prim
          (secureCryptoDeriveChunkKey fw.prim r.masterKey (UInt32.ofNat i)) r.nonce
          (buildAad r.draft) (chunk r.data i) with
      | none => exact .pure ⟨by decide, hnext⟩
      | some sealed =>
        have hsealed : sealed = sealChunk fw r.masterKey r.nonce (buildAad r.draft) r.data i := by
          unfold sealChunk
          rw [hseal, Option.getD_some]
        apply Notes.lift_bind
        intro rc
        split
        · exact .pure ⟨by decide, hnext⟩
        · apply Notes.lift_bind
          intro rc
          split
          · exact .pure ⟨by decide, hnext⟩
          · have hidx : UInt32.ofNat i + 1 = UInt32.ofNat (i + 1) := (UInt32.ofNat_add i 1).symm
            have hrest := @ih (processed + (chunk r.data i).length) (shaCtx ++ sealed.2.toList) (i + 1)
              (by omega) (by omega)
            have hdrop : 256 * (i + 1) = 256 * i + chunkSize := rfl
            rw [hidx, List.drop_drop, ← hdrop]
            unfold ChunksNoted at hrest ⊢
            rw [sealedTags_succ, ← List.append_assoc, ← hsealed]
            exact hrest

/-- The write of a record. If it succeeds, all of it is noted. -/
theorem notes_blobWriteRecordNoted (uuid : Vector UInt8 16) :
    Notes (r.SomeNotes fw) (fun rc L => r.SomeNotes fw L ∧ (rc = .ok → L = r.notes fw))
      (blobWriteRecordNoted fw r.slot r.data uuid r.masterKey r.draft) [.nonce r.nonce] := by
  have hnone : r.SomeNotes fw [.nonce r.nonce] :=
    @BlobRecord.someNotes_encryptions fw r 0 (Nat.zero_le _)
  unfold blobWriteRecordNoted
  apply Notes.lift_bind
  intro _
  apply Notes.lift_bind
  intro rc
  split
  · rename_i hrc
    exact .pure ⟨hnone, fun hok => absurd hok hrc⟩
  · apply Notes.bind (@notes_blobWriteChunksNoted fw r (blobSlotBase r.slot) 0 [] 0 _ rfl
      (Nat.zero_le _))
    intro res L hres
    cases res with
    | error rc =>
      obtain ⟨hrc, hL⟩ := hres
      exact .pure ⟨hL, fun hok => absurd hok hrc⟩
    | ok shaCtx =>
      obtain ⟨rfl, rfl⟩ := hres
      apply notes_blobTag_bind
      · exact BlobRecord.someNotes_notes
      · intro blobTag
        apply Notes.lift_bind
        intro rc
        split
        · exact .pure ⟨BlobRecord.someNotes_notes, nofun⟩
        · apply Notes.lift
          exact fun rc => ⟨BlobRecord.someNotes_notes, fun _ => rfl⟩

end

/-! ## One write -/

theorem findWriteSlot_ne_ok (fat : Slot → FatEntry) (slot : UInt8) :
    findWriteSlot fat slot ≠ .error .ok := by
  unfold findWriteSlot
  split
  · cases slotIsValid slot <;> nofun
  · cases (List.finRange maxSlots).find? fun slot => (fat slot).isEmpty <;> nofun

/-- A write ends at once, or sets out to write a record under the nonce it draws. -/
theorem blobWriteNoted_run (slot : UInt8) (data : Bytes) (uuid : Vector UInt8 16)
    (ownerPinHash : Digest) (groupMask : UInt32) (ram : Ram) :
    (∃ rc, rc ≠ .ok ∧
      (blobWriteNoted fw slot data uuid ownerPinHash groupMask).run ram = .ret (rc, ram)) ∨
      ∃ r : Nonce → BlobRecord,
        (∀ nonce, (r nonce).nonce = nonce ∧
          (r nonce).Begun fw ram.gFat slot data ownerPinHash groupMask) ∧
        (blobWriteNoted fw slot data uuid ownerPinHash groupMask).run ram =
          (securityGenerateNonceNoted >>= fun
            | none => pure .cryptoError
            | some nonce => blobWriteRecordNoted fw (r nonce).slot (r nonce).data uuid
                (r nonce).masterKey (r nonce).draft).run ram := by
  unfold blobWriteNoted
  split
  · exact .inl ⟨_, by decide, rfl⟩
  rename_i hdata
  rw [run_get_bind]
  cases hslot : findWriteSlot ram.gFat slot with
  | error rc =>
    refine .inl ⟨rc, ?_, rfl⟩
    rintro rfl
    exact findWriteSlot_ne_ok ram.gFat slot hslot
  | ok resolvedSlot =>
    cases hroot : securityGetRootSecret fw with
    | none => exact .inl ⟨_, by decide, rfl⟩
    | some root =>
      cases hkey : deriveFileKey fw root groupMask with
      | none =>
        simp only [hkey]
        exact .inl ⟨_, by decide, rfl⟩
      | some masterKey =>
        simp only [hkey]
        refine .inr ⟨fun nonce => ⟨resolvedSlot, data, ownerPinHash, groupMask, nonce, masterKey⟩,
          ?_, rfl⟩
        intro nonce
        refine ⟨rfl, hslot, rfl, rfl, rfl, ?_, ?_⟩
        · rw [hroot]
          exact hkey
        · exact Nat.not_lt.mp fun hlt => hdata (.inl hlt)

/-- The notes of a write. If it succeeds, they are all those of its record. -/
theorem notes_blobWriteNoted (slot : UInt8) (data : Bytes) (uuid : Vector UInt8 16)
    (ownerPinHash : Digest) (groupMask : UInt32) (ram : Ram) :
    Noted.Notes (WriteNotes fw ram.gFat slot data ownerPinHash groupMask)
      (fun res L => res.1 = .ok → ∃ r : BlobRecord,
        r.Begun fw ram.gFat slot data ownerPinHash groupMask ∧ L = r.notes fw)
      ((blobWriteNoted fw slot data uuid ownerPinHash groupMask).run ram) [] := by
  obtain ⟨rc, hrc, hrun⟩ | ⟨r, hr, hrun⟩ :=
    @blobWriteNoted_run fw slot data uuid ownerPinHash groupMask ram
  · rw [hrun]
    exact fun hok => absurd hok hrc
  · rw [hrun]
    have hbind := @notes_generateNonce_bind _ (WriteNotes fw ram.gFat slot data ownerPinHash groupMask)
      (fun rc L => rc = .ok → ∃ r : BlobRecord,
        r.Begun fw ram.gFat slot data ownerPinHash groupMask ∧ L = r.notes fw) []
      (fun
        | none => pure .cryptoError
        | some nonce => blobWriteRecordNoted fw (r nonce).slot (r nonce).data uuid
            (r nonce).masterKey (r nonce).draft)
    refine hbind ?_ ?_ ram
    · exact .pure nofun
    · intro nonce
      obtain ⟨hnonce, hbegun⟩ := hr nonce
      have hrecord := @notes_blobWriteRecordNoted fw (r nonce) uuid
      rw [hnonce] at hrecord
      constructor
      · have hfirst := @BlobRecord.someNotes_encryptions fw (r nonce) 0 (Nat.zero_le _)
        rw [hnonce] at hfirst
        exact .inr ⟨r nonce, hbegun, hfirst⟩
      · intro ram'
        apply (hrecord ram').mono
        · exact fun L hL => .inr ⟨r nonce, hbegun, hL⟩
        · exact fun res L hres hok => ⟨r nonce, hbegun, hres.2 hok⟩
