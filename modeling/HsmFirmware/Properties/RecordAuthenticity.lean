-- SUMMARY: What blob_read_all gives was written to the slot, for the owner and the group, but for empty files.
import HsmFirmware.Properties.DomainSeparation
import HsmFirmware.Properties.NonceReuse
import HsmFirmware.Properties.Streaming
import HsmFirmware.Specs.PartialRecord

/-!
# Authenticity of records

Header, chunks and tags of a record stand in flash, where they can be replaced. The tags of the
chunks authenticate the header as well, and the blob tag the tags of the chunks. An empty file has
no chunks, so its header is authenticated by nothing but the file key, which depends on the group.
-/

/-! ## The device -/

/-- A file as `blob_write` has been given it, and the slot it goes to. -/
structure WrittenFile where
  slot : Slot
  data : Bytes
  ownerPinHash : Digest
  groupMask : UInt32
  deriving DecidableEq

/-- The file of a record. -/
def BlobRecord.file (r : BlobRecord) : WrittenFile := ⟨r.slot, r.data, r.ownerPinHash, r.groupMask⟩

def CryptoEvent.isBlobTag : CryptoEvent → Bool
  | .blobTag _ _ => true
  | .nonce _ | .encrypt _ _ _ _ => false

variable (fw : Firmware)

/-- The file of a call that has come as far as to its blob tag. -/
def BlobWriteCall.written (call : BlobWriteCall) (ram : Ram) (w : World) : List WrittenFile :=
  if (call.events fw ram w).any CryptoEvent.isBlobTag then
    match findWriteSlot ram.gFat call.slot with
    | .error _ => []
    | .ok slot => [⟨slot, call.data, call.ownerPinHash, call.groupMask⟩]
  else []

/-- The files written in a run. -/
def writtenFiles : List BlobWriteCall → Option Ram → World → List WrittenFile
  | [], _, _ => []
  | call :: calls, ram, w =>
    let (ram, w) := call.between ram w
    let r := (blobWrite fw call.slot call.data call.uuid call.ownerPinHash call.groupMask).exec
      call.faults ram w
    call.written fw ram w ++ writtenFiles calls r.ram? r.state

/-! ## Ideal cryptography -/

/-- Derived keys and tags do not collide: the groups have different file keys, and under one key
    different texts have different tags. -/
structure NoCollisions (L : List CryptoEvent) : Prop where
  fileKey : ∀ root groupId groupId', securityGetRootSecret fw = some root →
    secureCryptoDeriveFileEncKey fw.prim root groupId =
      secureCryptoDeriveFileEncKey fw.prim root groupId' → groupId = groupId'
  tag : ∀ {key nonce nonce' aad aad' pt pt' ct ct' tag},
    .encrypt key nonce aad pt ∈ L → .encrypt key nonce' aad' pt' ∈ L →
    secureCryptoAesGcmEncrypt fw.prim key nonce aad pt = some (ct, tag) →
    secureCryptoAesGcmEncrypt fw.prim key nonce' aad' pt' = some (ct', tag) → aad = aad' ∧ pt = pt'

/-- Nobody but the device computes with its keys: of what flash holds for a slot, a chunk that opens
    has been encrypted, with this key, nonce and header, to this ciphertext and tag, and a blob tag
    that is right has been computed for these tags. -/
structure UnforgedRecord (L : List CryptoEvent) (m : Mem) (slot : Slot) : Prop where
  chunk : ∀ masterKey i pt,
    (securityGetRootSecret fw).bind (fun root => deriveFileKey fw root (headerAt m slot).groupMask) =
      some masterKey →
    i < numChunks (headerAt m slot).plaintextLen.toNat →
    openChunk fw masterKey (headerAt m slot).nonce (buildAad (headerAt m slot)) m (blobSlotBase slot)
      (headerAt m slot).plaintextLen.toNat i = some pt →
    ∃ pt', .encrypt (secureCryptoDeriveChunkKey fw.prim masterKey (UInt32.ofNat i))
        (headerAt m slot).nonce (buildAad (headerAt m slot)) pt' ∈ L ∧
      secureCryptoAesGcmEncrypt fw.prim
        (secureCryptoDeriveChunkKey fw.prim masterKey (UInt32.ofNat i)) (headerAt m slot).nonce
        (buildAad (headerAt m slot)) pt' =
        some (m.read (chunkAddr (blobSlotBase slot) i)
          (chunkLen (headerAt m slot).plaintextLen.toNat i), storedTag m (blobSlotBase slot) i)
  blobTag : ∀ masterKey,
    (securityGetRootSecret fw).bind (fun root => deriveFileKey fw root (headerAt m slot).groupMask) =
      some masterKey →
    fw.prim.hmac masterKey.toList (fw.prim.sha256 (storedTags m (blobSlotBase slot) 0
      (numChunks (headerAt m slot).plaintextLen.toNat))).toList = (headerAt m slot).blobTag →
    .blobTag masterKey (storedTags m (blobSlotBase slot) 0
      (numChunks (headerAt m slot).plaintextLen.toNat)) ∈ L

/-- A read that succeeds gives a file written to this slot, for this owner, in the group of the
    header. -/
def GivesWritten (files : List WrittenFile) (m : Mem) (slot : Slot) (pinHash : Digest) (out : Mem)
    (outAddr : Nat) (r : BlobRead) : Prop :=
  r.status = .ok → ∃ d, r.out = out.write outAddr d ∧ r.outLen = d.length ∧
    ⟨slot, d, pinHash, (headerAt m slot).groupMask⟩ ∈ files

/-- Where an empty file has been written in a group the reader may read, one has been written in that
    group for this slot and owner. -/
def EmptyFilesBound (files : List WrittenFile) (slot : Slot) (pinHash : Digest)
    (groupMask : UInt32) : Prop :=
  ∀ file ∈ files, file.data = [] → groupMask &&& file.groupMask ≠ 0 →
    ⟨slot, [], pinHash, file.groupMask⟩ ∈ files

/-! ## What a run has written -/

section

variable {fw}

theorem BlobRecord.not_isBlobTag_encryptions (r : BlobRecord) (k : Nat) :
    ∀ e ∈ CryptoEvent.nonce r.nonce :: r.encryptions fw k, e.isBlobTag = false := by
  intro e he
  rcases List.mem_cons.mp he with rfl | he
  · rfl
  · obtain ⟨i, -, rfl⟩ := List.mem_map.mp he
    rfl

theorem BlobWriteCall.written_of_notes {call : BlobWriteCall} {ram : Ram} {w : World}
    {r : BlobRecord}
    (hbegun : r.Begun fw ram.gFat call.slot call.data call.ownerPinHash call.groupMask)
    (hL : call.events fw ram w = r.notes fw) : call.written fw ram w = [r.file] := by
  have hany : (call.events fw ram w).any CryptoEvent.isBlobTag = true := by
    rw [hL]
    apply List.any_eq_true.mpr
    exact ⟨.blobTag r.masterKey (r.tags fw),
      List.mem_cons_of_mem _ (List.mem_append_right _ (List.mem_singleton.mpr rfl)), rfl⟩
  unfold written BlobRecord.file
  rw [if_pos hany, hbegun.slot, hbegun.data, hbegun.ownerPinHash, hbegun.groupMask]

theorem BlobWriteCall.written_of_none {call : BlobWriteCall} {ram : Ram} {w : World}
    (h : ∀ e ∈ call.events fw ram w, e.isBlobTag = false) : call.written fw ram w = [] := by
  unfold written
  apply if_neg
  intro hany
  obtain ⟨e, he, htag⟩ := List.any_eq_true.mp hany
  rw [h e he] at htag
  cases htag

/-- A call has noted all of its record and written its file, or it has noted no blob tag. -/
theorem BlobWriteCall.written_cases (call : BlobWriteCall) (ram : Ram) (w : World) :
    (call.written fw ram w = [] ∧ ∀ e ∈ call.events fw ram w, e.isBlobTag = false) ∨
      ∃ r : BlobRecord, r.Begun fw ram.gFat call.slot call.data call.ownerPinHash call.groupMask ∧
        call.events fw ram w = r.notes fw ∧ call.written fw ram w = [r.file] := by
  rcases @writeNotes fw call ram w with hnil | ⟨r, hbegun, ⟨k, -, hL⟩ | hL⟩
  · left
    have hnone : ∀ e ∈ call.events fw ram w, e.isBlobTag = false := by
      rw [hnil]
      exact nofun
    exact ⟨written_of_none hnone, hnone⟩
  · left
    have hnone : ∀ e ∈ call.events fw ram w, e.isBlobTag = false := by
      rw [hL]
      exact r.not_isBlobTag_encryptions k
    exact ⟨written_of_none hnone, hnone⟩
  · right
    exact ⟨r, hbegun, hL, written_of_notes hbegun hL⟩

/-- A call that returns success has written its file. -/
theorem BlobWriteCall.written_of_ok {call : BlobWriteCall} {ram ram' : Ram} {w w' : World}
    {log : List Op} {rest : Schedule}
    (h : (blobWrite fw call.slot call.data call.uuid call.ownerPinHash call.groupMask).exec
      call.faults ram w = .done (.ok, ram') w' log rest) {slot : Slot}
    (hslot : findWriteSlot ram.gFat call.slot = .ok slot) :
    call.written fw ram w = [⟨slot, call.data, call.ownerPinHash, call.groupMask⟩] := by
  have hnotes := @notes_blobWriteNoted fw call.slot call.data call.uuid call.ownerPinHash
    call.groupMask ram
  have hunnoted := @unnoted_exec fw call ram w
  rw [h] at hunnoted
  cases hexec : (Noted.noting hsm).exec ((blobWriteNoted fw call.slot call.data call.uuid
      call.ownerPinHash call.groupMask).run ram) call.faults (w, []) with
  | off t log' =>
    rw [hexec] at hunnoted
    cases hunnoted
  | done res t log' rest' =>
    rw [hexec] at hunnoted
    cases hunnoted
    obtain ⟨r, hbegun, hL⟩ := hnotes.exec_done (.inl rfl) hexec rfl
    have hevents : call.events fw ram w = r.notes fw := by
      unfold events
      rw [hexec]
      exact hL
    have hr : r.slot = slot := Except.ok.inj (hbegun.slot.symm.trans hslot)
    rw [written_of_notes hbegun hevents, BlobRecord.file, hr, hbegun.data, hbegun.ownerPinHash,
      hbegun.groupMask]

/-- Without faults a write writes its file. -/
theorem BlobWriteCall.written_of_setup (hgcm : fw.prim.GcmLaws) {call : BlobWriteCall} {ram : Ram}
    {w : World} {slot : Slot} (hslot : slotIsValid call.slot = some slot) {r : BlobRecord}
    (hsetup : blobWriteSetup fw slot call.data call.ownerPinHash call.groupMask (w.rng w.draws) =
      some r) (hfaults : call.faults = []) :
    call.written fw ram w = [⟨slot, call.data, call.ownerPinHash, call.groupMask⟩] := by
  have hruns := (@blobWrite_attempts fw call.slot slot call.data call.uuid call.ownerPinHash
    call.groupMask ram w r hgcm hslot hsetup).runs
  apply written_of_ok
  · rw [hfaults]
    exact hruns
  · exact findWriteSlot_of_valid hslot _

/-- A record the device has made, with all its chunks and its blob tag. -/
structure BlobRecord.Made (fw : Firmware) (r : BlobRecord) (L : List CryptoEvent) : Prop where
  key : (securityGetRootSecret fw).bind (fun root => deriveFileKey fw root r.groupMask) =
    some r.masterKey
  fits : r.data.length ≤ tagsOffset - headerSize
  notes : ∀ e ∈ r.notes fw, e ∈ L

theorem BlobRecord.Made.encrypted {r : BlobRecord} {L : List CryptoEvent} (h : r.Made fw L) {i : Nat}
    (hi : i < numChunks r.data.length) :
    .encrypt (secureCryptoDeriveChunkKey fw.prim r.masterKey (UInt32.ofNat i)) r.nonce
      (buildAad r.draft) (chunk r.data i) ∈ L := by
  apply h.notes
  apply List.mem_cons_of_mem
  apply List.mem_append_left
  exact List.mem_map.mpr ⟨i, List.mem_range.mpr hi, rfl⟩

theorem BlobRecord.Made.blobTag {r : BlobRecord} {L : List CryptoEvent} (h : r.Made fw L) :
    .blobTag r.masterKey (r.tags fw) ∈ L :=
  h.notes _ (List.mem_cons_of_mem _ (List.mem_append_right _ (List.mem_singleton.mpr rfl)))

theorem BlobRecord.Made.mono {r : BlobRecord} {L L' : List CryptoEvent} (h : r.Made fw L)
    (hL : ∀ e ∈ L, e ∈ L') : r.Made fw L' :=
  ⟨h.key, h.fits, fun e he => hL e (h.notes e he)⟩

theorem writes_cons (call : BlobWriteCall) (calls : List BlobWriteCall) (ram : Option Ram)
    (w : World) : ∃ ram₁ w₁ ram₂ w₂,
      writeEvents fw (call :: calls) ram w =
        call.events fw ram₁ w₁ ++ writeEvents fw calls ram₂ w₂ ∧
      writtenFiles fw (call :: calls) ram w =
        call.written fw ram₁ w₁ ++ writtenFiles fw calls ram₂ w₂ :=
  ⟨_, _, _, _, rfl, rfl⟩

/-- Every blob tag of a run is that of a record made in it, whose file has been written. -/
theorem made_of_blobTag {calls : List BlobWriteCall} {ram : Option Ram} {w : World} {key : Key}
    {tags : Bytes} (h : .blobTag key tags ∈ writeEvents fw calls ram w) :
    ∃ r : BlobRecord, r.Made fw (writeEvents fw calls ram w) ∧ r.masterKey = key ∧
      r.tags fw = tags ∧ r.file ∈ writtenFiles fw calls ram w := by
  induction calls generalizing ram w with
  | nil => cases h
  | cons call calls ih =>
    obtain ⟨ram₁, w₁, ram₂, w₂, hevs, hfiles⟩ := @writes_cons fw call calls ram w
    rw [hevs] at h ⊢
    rw [hfiles]
    rcases List.mem_append.mp h with h | h
    · rcases @BlobWriteCall.written_cases fw call ram₁ w₁ with
        ⟨-, hnone⟩ | ⟨r, hbegun, hevents, hwritten⟩
      · cases hnone _ h
      · rw [hevents] at h ⊢
        rw [hwritten]
        refine ⟨r, ⟨hbegun.key, hbegun.fits, fun e he => List.mem_append_left _ he⟩, ?_⟩
        rcases List.mem_cons.mp h with h | h
        · cases h
        rcases List.mem_append.mp h with h | h
        · obtain ⟨i, -, hi⟩ := List.mem_map.mp h
          cases hi
        · cases List.mem_singleton.mp h
          exact ⟨rfl, rfl, List.mem_append_left _ (List.mem_singleton.mpr rfl)⟩
    · obtain ⟨r, hmade, hkey, htags, hfile⟩ := ih h
      exact ⟨r, hmade.mono fun e he => List.mem_append_right _ he, hkey, htags,
        List.mem_append_right _ hfile⟩

/-- Every file written in a run is that of a record made in it. -/
theorem made_of_written {calls : List BlobWriteCall} {ram : Option Ram} {w : World}
    {file : WrittenFile} (h : file ∈ writtenFiles fw calls ram w) :
    ∃ r : BlobRecord, r.Made fw (writeEvents fw calls ram w) ∧ r.file = file := by
  induction calls generalizing ram w with
  | nil => cases h
  | cons call calls ih =>
    obtain ⟨ram₁, w₁, ram₂, w₂, hevs, hfiles⟩ := @writes_cons fw call calls ram w
    rw [hfiles] at h
    rw [hevs]
    rcases List.mem_append.mp h with h | h
    · rcases @BlobWriteCall.written_cases fw call ram₁ w₁ with
        ⟨hnil, -⟩ | ⟨r, hbegun, hevents, hwritten⟩
      · rw [hnil] at h
        cases h
      · rw [hwritten] at h
        rw [hevents]
        exact ⟨r, ⟨hbegun.key, hbegun.fits, fun e he => List.mem_append_left _ he⟩,
          (List.mem_singleton.mp h).symm⟩
    · obtain ⟨r, hmade, hfile⟩ := ih h
      exact ⟨r, hmade.mono fun e he => List.mem_append_right _ he, hfile⟩

end

/-! ## What the tags say -/

/-- The associated data tell everything that is checked of a header apart. -/
theorem buildAad_inj {header header' : Header} (h : buildAad header = buildAad header') :
    header.slot = header'.slot ∧ header.plaintextLen = header'.plaintextLen ∧
      header.groupMask = header'.groupMask ∧ header.ownerPinHash = header'.ownerPinHash := by
  unfold buildAad at h
  have hu32 : ∀ x y : UInt32, (Codec.u32.encode x).length = (Codec.u32.encode y).length :=
    fun _ _ => rfl
  have hu16 : ∀ x y : UInt16, (Codec.u16.encode x).length = (Codec.u16.encode y).length :=
    fun _ _ => rfl
  obtain ⟨h, -⟩ := List.append_inj' h (by simp)
  obtain ⟨h, howner⟩ := List.append_inj' h (by simp)
  obtain ⟨h, hgroup⟩ := List.append_inj' h (hu32 _ _)
  obtain ⟨h, hlen⟩ := List.append_inj' h (hu32 _ _)
  obtain ⟨-, hslot⟩ := List.append_inj' h (hu16 _ _)
  exact ⟨Codec.u16.encode_injective hslot, Codec.u32.encode_injective hlen,
    Codec.u32.encode_injective hgroup, Vector.toList_inj.mp howner⟩

/-- Lists of tags are equal tag by tag. -/
theorem flatMap_tags_inj {f g : Nat → Tag} {i n n' : Nat}
    (h : (List.range' i n).flatMap (fun j => (f j).toList) =
      (List.range' i n').flatMap fun j => (g j).toList) :
    n = n' ∧ ∀ j, i ≤ j → j < i + n → f j = g j := by
  have hlength : ∀ (f : Nat → Tag) i n,
      ((List.range' i n).flatMap fun j => (f j).toList).length = 16 * n := by
    intro f i n
    simp [List.length_flatMap, Nat.mul_comm]
  have hn : n = n' := by
    have hlen := congrArg List.length h
    rw [hlength, hlength] at hlen
    omega
  subst hn
  refine ⟨rfl, ?_⟩
  induction n generalizing i with
  | zero =>
    intro j hi hj
    omega
  | succ n ih =>
    intro j hi hj
    rw [List.range'_succ, List.flatMap_cons, List.flatMap_cons] at h
    obtain ⟨hfirst, hrest⟩ := List.append_inj h (by simp)
    rcases Nat.eq_or_lt_of_le hi with rfl | hlt
    · exact Vector.toList_inj.mp hfirst
    · exact ih hrest j hlt (by omega)

/-! ## Successful reads -/

section

variable {fw} {m : Mem} {ram : Ram} {slot : Slot} {pinHash : Digest} {groupMask : UInt32} {out : Mem}
  {outAddr outLen : Nat}

/-- A successful read has opened all chunks of the record, and found its blob tag right. -/
theorem blobReadAll_opens
    (h : (blobReadAll fw m ram (UInt8.ofNat slot) pinHash groupMask out outAddr outLen).status = .ok) :
    ∃ header masterKey d,
      admitted fw m ram.gFat (UInt8.ofNat slot) (some pinHash) groupMask =
        some (slot, header, masterKey) ∧
      openChunks fw masterKey header.nonce (buildAad header) m (blobSlotBase slot)
        header.plaintextLen.toNat 0 (numChunks header.plaintextLen.toNat) = some d ∧
      fw.prim.hmac masterKey.toList (fw.prim.sha256 (storedTags m (blobSlotBase slot) 0
        (numChunks header.plaintextLen.toNat))).toList = header.blobTag ∧
      (blobReadAll fw m ram (UInt8.ofNat slot) pinHash groupMask out outAddr outLen).out =
        out.write outAddr d ∧
      (blobReadAll fw m ram (UInt8.ofNat slot) pinHash groupMask out outAddr outLen).outLen =
        d.length := by
  obtain ⟨n, ram', hinit, -, -, hlen, hchunk, hfinish, hout⟩ := blobReadAll_ok h
  unfold blobReadInit at hinit
  cases hadm : admitted fw m ram.gFat (UInt8.ofNat slot) (some pinHash) groupMask with
  | none =>
    obtain ⟨rc, -, hrefused⟩ := blobReadInitInternal_refused hadm
    rw [Option.isSome_some, hinit] at hrefused
    cases hrefused
  | some a =>
    obtain ⟨s, header, masterKey⟩ := a
    have hset := blobReadInitInternal_admitted hadm
    rw [Option.isSome_some, hinit] at hset
    obtain ⟨rfl, -⟩ := admitted_some hadm
    cases hset
    have hroom : (ram.opened slot header masterKey).gReadState.processed +
        header.plaintextLen.toNat ≤ (ram.opened slot header masterKey).gReadState.totalLen :=
      (Nat.zero_add _).le
    have haad : (ram.opened slot header masterKey).gAad = buildAad header := rfl
    obtain ⟨hopens, hstops⟩ := @blobReadChunkLoop_eq fw (buildAad header) m slot
      header.plaintextLen.toNat header.plaintextLen.toNat_lt outAddr 0
      (numChunks header.plaintextLen.toNat) (by omega) (Nat.zero_le _)
      (ram.opened slot header masterKey).gReadState out rfl (by rw [Nat.mul_zero, Nat.zero_min]; rfl)
    rw [Nat.mul_zero, Nat.zero_min] at hopens hstops
    rw [blobReadChunk_eq hroom, haad] at hchunk hfinish hout
    cases hchunks : openChunks fw masterKey header.nonce (buildAad header) m (blobSlotBase slot)
        header.plaintextLen.toNat 0 (numChunks header.plaintextLen.toNat) with
    | none =>
      have hfail := hstops hchunks
      rw [hchunk] at hfail
      cases hfail
    | some d =>
      have hdlen := length_openChunks (by omega) hchunks
      rw [Nat.mul_zero, Nat.sub_zero] at hdlen
      rw [hopens d hchunks] at hfinish hout
      refine ⟨header, masterKey, d, rfl, hchunks, ?_, hout, hlen.trans hdlen.symm⟩
      unfold blobReadFinish at hfinish
      simp only at hfinish
      split at hfinish
      · cases hfinish
      · rename_i htag
        exact not_not.mp htag

end

/-! ## Authenticity -/

section

variable {fw} {L : List CryptoEvent} {m : Mem} {slot : Slot} {r : BlobRecord}

/-- Files of different groups have different keys. -/
theorem NoCollisions.groupMask_eq (hcoll : NoCollisions fw L) {groupMask groupMask' : UInt32}
    {masterKey : Key}
    (h : (securityGetRootSecret fw).bind (fun root => deriveFileKey fw root groupMask) =
      some masterKey)
    (h' : (securityGetRootSecret fw).bind (fun root => deriveFileKey fw root groupMask') =
      some masterKey) : groupMask = groupMask' := by
  obtain ⟨root, hroot, hle, hkey⟩ := fileKey_some h
  obtain ⟨root', hroot', hle', hkey'⟩ := fileKey_some h'
  rw [hroot] at hroot'
  cases hroot'
  have hid := hcoll.fileKey root _ _ hroot (hkey.symm.trans hkey')
  have hnat := congrArg UInt16.toNat hid
  rw [UInt32.lt_iff_toNat_lt] at hle hle'
  have hmax : (0xFFFF : UInt32).toNat = 65535 := rfl
  apply UInt32.toNat.inj
  rw [UInt32.toNat_toUInt16, UInt32.toNat_toUInt16] at hnat
  omega

/-- Under the blob tag of a record, each chunk that opens is the chunk of the record, encrypted with
    the header of the record. -/
theorem BlobRecord.Made.chunk_eq (hgcm : fw.prim.GcmLaws) (hcoll : NoCollisions fw L)
    (hunforged : UnforgedRecord fw L m slot) (hmade : r.Made fw L)
    (hkey : (securityGetRootSecret fw).bind
      (fun root => deriveFileKey fw root (headerAt m slot).groupMask) = some r.masterKey) {i : Nat}
    (hi : i < numChunks r.data.length) (hlen : i < numChunks (headerAt m slot).plaintextLen.toNat)
    (htag : storedTag m (blobSlotBase slot) i =
      (sealChunk fw r.masterKey r.nonce (buildAad r.draft) r.data i).2) {pt : Bytes}
    (hopen : openChunk fw r.masterKey (headerAt m slot).nonce (buildAad (headerAt m slot)) m
      (blobSlotBase slot) (headerAt m slot).plaintextLen.toNat i = some pt) :
    buildAad (headerAt m slot) = buildAad r.draft ∧ pt = chunk r.data i := by
  obtain ⟨pt', hnote, hseal⟩ := hunforged.chunk r.masterKey i pt hkey hlen hopen
  have hseal' := @encrypt_chunk fw r.masterKey r.nonce (buildAad r.draft) hgcm r.data i
  rw [htag] at hseal
  obtain ⟨haad, hpt⟩ := hcoll.tag hnote (hmade.encrypted hi) hseal hseal'
  refine ⟨haad, ?_⟩
  -- What has been encrypted is what opens.
  have hinverts := hgcm.inverts hseal
  unfold openChunk at hopen
  rw [htag, hinverts] at hopen
  exact (Option.some.inj hopen).symm.trans hpt

/-- A record with chunks that a reader opens is a record the device has made, for this slot and this
    owner. -/
theorem BlobRecord.Made.file_eq (hgcm : fw.prim.GcmLaws) (hcoll : NoCollisions fw L)
    (hunforged : UnforgedRecord fw L m slot) (hmade : r.Made fw L)
    (hkey : (securityGetRootSecret fw).bind
      (fun root => deriveFileKey fw root (headerAt m slot).groupMask) = some r.masterKey)
    (hvalid : (headerAt m slot).Valid slot)
    (htags : r.tags fw = storedTags m (blobSlotBase slot) 0
      (numChunks (headerAt m slot).plaintextLen.toNat)) {d : Bytes}
    (hopen : openChunks fw r.masterKey (headerAt m slot).nonce (buildAad (headerAt m slot)) m
      (blobSlotBase slot) (headerAt m slot).plaintextLen.toNat 0
      (numChunks (headerAt m slot).plaintextLen.toNat) = some d) (hdata : r.data ≠ []) :
    r.file = ⟨slot, d, (headerAt m slot).ownerPinHash, (headerAt m slot).groupMask⟩ := by
  have hfits := hmade.fits
  simp only [tagsOffset_eq, headerSize] at hfits
  obtain ⟨hnum, hsame⟩ := flatMap_tags_inj htags
  have hchunk : ∀ i < numChunks r.data.length,
      buildAad (headerAt m slot) = buildAad r.draft ∧
        openChunk fw r.masterKey (headerAt m slot).nonce (buildAad (headerAt m slot)) m
          (blobSlotBase slot) (headerAt m slot).plaintextLen.toNat i = some (chunk r.data i) := by
    intro i hi
    obtain ⟨pt, hpt⟩ := openChunk_of_openChunks hopen (Nat.zero_le i) (by omega)
    obtain ⟨haad, rfl⟩ := hmade.chunk_eq hgcm hcoll hunforged hkey hi (by omega)
      (hsame i (Nat.zero_le i) (by omega)).symm hpt
    exact ⟨haad, hpt⟩
  -- There is a chunk, and it authenticates the header.
  have hpos : 0 < numChunks r.data.length := by
    have hlen := List.length_pos_iff.mpr hdata
    unfold numChunks
    omega
  obtain ⟨hslot, hlen, hgroup, howner⟩ := buildAad_inj (hchunk 0 hpos).1
  have hslot' : UInt16.ofNat slot = UInt16.ofNat r.slot := hvalid.2.2.1.symm.trans hslot
  have hlen' : (headerAt m slot).plaintextLen.toNat = r.data.length := by
    rw [hlen]
    exact UInt32.toNat_ofNat_of_lt' (by unfold UInt32.size; omega)
  have hr : r.slot = slot := by
    have hnat := congrArg UInt16.toNat hslot'
    have hlt := slot.isLt
    have hlt' := r.slot.isLt
    simp only [maxSlots] at hlt hlt'
    rw [UInt16.toNat_ofNat_of_lt' (by unfold UInt16.size; omega),
      UInt16.toNat_ofNat_of_lt' (by unfold UInt16.size; omega)] at hnat
    exact Fin.ext hnat.symm
  have hd : d = r.data := by
    rw [hlen'] at hopen hchunk
    have hall := openChunks_eq_drop (fun i hi => (hchunk i hi).2) (Nat.zero_add _)
    rw [Nat.mul_zero, List.drop_zero] at hall
    rw [hall] at hopen
    exact (Option.some.inj hopen).symm
  unfold BlobRecord.file
  rw [hr, hd, howner, hgroup]
  rfl

end

/-! ## Runs -/

section

variable {fw} {calls : List BlobWriteCall} {ram : Option Ram} {w : World}

/-- A reader gets what has been written, for an empty file if those are bound to slot and owner. -/
theorem givesWritten_of_bound (hgcm : fw.prim.GcmLaws)
    (hcoll : NoCollisions fw (writeEvents fw calls ram w)) {slot : Slot} {pinHash : Digest}
    {groupMask : UInt32} {m : Mem} (hbound : (headerAt m slot).plaintextLen = 0 →
      EmptyFilesBound (writtenFiles fw calls ram w) slot pinHash groupMask)
    (hunforged : UnforgedRecord fw (writeEvents fw calls ram w) m slot) (ram' : Ram) (out : Mem)
    (outAddr outLen : Nat) :
    GivesWritten (writtenFiles fw calls ram w) m slot pinHash out outAddr
      (blobReadAll fw m ram' (UInt8.ofNat slot) pinHash groupMask out outAddr outLen) := by
  intro hok
  obtain ⟨header, masterKey, d, hadm, hopen, htag, hout, hlen⟩ := blobReadAll_opens hok
  obtain ⟨-, hload, hmask, howner, hkey⟩ := admitted_some hadm
  obtain ⟨rfl, hvalid, -⟩ := loadHeader_eq_ok.mp hload
  have hpin : pinHash = (headerAt m slot).ownerPinHash :=
    Option.some.inj (howner.resolve_left (Option.some_ne_none _))
  obtain ⟨r, hmade, rfl, htags, hfile⟩ := made_of_blobTag (hunforged.blobTag masterKey hkey htag)
  refine ⟨d, hout, hlen, ?_⟩
  by_cases hdata : r.data = []
  · have hgroup : r.groupMask = (headerAt m slot).groupMask := hcoll.groupMask_eq hmade.key hkey
    have hnum := (flatMap_tags_inj htags).1
    rw [hdata] at hnum
    have hd : d = [] := by
      rw [← hnum] at hopen
      exact (Option.some.inj hopen).symm
    have hplain : (headerAt m slot).plaintextLen = 0 := by
      unfold numChunks at hnum
      apply UInt32.toNat.inj
      show _ = 0
      simp only [List.length_nil] at hnum
      omega
    have hempty := hbound hplain r.file hfile hdata
    unfold BlobRecord.file at hempty
    rw [hgroup] at hempty
    rw [hd]
    exact hempty hmask
  · rw [hpin, ← hmade.file_eq hgcm hcoll hunforged hkey hvalid htags hopen hdata]
    exact hfile

end

/-! ## Forged records -/

section

variable {fw} {L : List CryptoEvent} {m : Mem} {r : BlobRecord}

theorem BlobRecord.StoredIn.headerAt_eq (h : r.StoredIn fw m) : headerAt m r.slot = r.header fw := by
  have hread := h.header
  unfold base at hread
  unfold headerAt
  rw [hread, Codec.decode_encode']

/-- A record the device has made is not forged. -/
theorem BlobRecord.Made.unforged (hgcm : fw.prim.GcmLaws) (hmade : r.Made fw L)
    (h : r.StoredIn fw m) (hlen : r.data.length ≤ maxContentsSize) : UnforgedRecord fw L m r.slot := by
  have hplain := @toNat_plaintextLen fw r hlen
  have hgroup : (r.header fw).groupMask = r.groupMask := rfl
  have hnonce : (r.header fw).nonce = r.nonce := rfl
  have hbase : blobSlotBase r.slot = r.base := rfl
  constructor
  · intro masterKey i pt hkey hi hopen
    rw [h.headerAt_eq, hgroup, hmade.key] at hkey
    rw [h.headerAt_eq, hplain] at hi ⊢
    cases hkey
    rw [hnonce, buildAad_header, hbase, h.ct i hi, h.tag i hi]
    exact ⟨chunk r.data i, hmade.encrypted hi, encrypt_chunk hgcm r.data i⟩
  · intro masterKey hkey _
    rw [h.headerAt_eq, hgroup, hmade.key] at hkey
    rw [h.headerAt_eq, hplain, hbase, h.tags_eq (Nat.zero_add _).le]
    cases hkey
    exact hmade.blobTag

/-- In flash it can be read. -/
theorem BlobRecord.Made.reads (hgcm : fw.prim.GcmLaws) (hmade : r.Made fw L)
    (hlen : r.data.length ≤ maxContentsSize) {groupMask : UInt32}
    (hmask : groupMask &&& r.groupMask ≠ 0) (out : Mem) (outAddr : Nat) :
    ∃ m ram, UnforgedRecord fw L m r.slot ∧ headerAt m r.slot = r.header fw ∧
      (blobReadAll fw m ram (UInt8.ofNat r.slot) r.ownerPinHash groupMask out outAddr
        maxContentsSize).status = .ok := by
  have hstored : r.StoredIn fw (Mem.programAll (r.areas fw) fun _ => 0xFF) :=
    storedIn_programAll hgcm hlen fun _ _ _ => rfl
  refine ⟨_, Ram.reset.setFat r.slot (r.fatEntry (.replicate 16 0)),
    hmade.unforged hgcm hstored hlen, hstored.headerAt_eq, ?_⟩
  have hfat : (Ram.reset.setFat r.slot (r.fatEntry (.replicate 16 0))).gFat r.slot =
      r.fatEntry (.replicate 16 0) := Function.update_self _ _ _
  have hcontents := hstored.contents hgcm hlen hmade.key hfat (some r.ownerPinHash) groupMask
  rw [if_neg (by
    rintro (h | ⟨-, h⟩)
    · exact hmask h
    · exact h rfl)] at hcontents
  obtain ⟨hok, -⟩ := (blobReadAll_reads _ _ r.slot r.ownerPinHash groupMask out outAddr).ok _ hcontents
  exact hok

/-- The record with another slot number and another owner. -/
def BlobRecord.moved (r : BlobRecord) (slot : Slot) (ownerPinHash : Digest) : BlobRecord :=
  { r with slot := slot, ownerPinHash := ownerPinHash }

theorem BlobRecord.tags_moved (hdata : r.data = []) (slot : Slot) (ownerPinHash : Digest) :
    (r.moved slot ownerPinHash).tags fw = r.tags fw := by
  have hmoved : (r.moved slot ownerPinHash).data = r.data := rfl
  unfold tags
  rw [hmoved, hdata]
  rfl

/-- In the header of an empty file slot number and owner can be replaced without any key. -/
theorem BlobRecord.header_moved (hdata : r.data = []) (slot : Slot) (ownerPinHash : Digest) :
    (r.moved slot ownerPinHash).header fw =
      { r.header fw with slot := UInt16.ofNat slot, ownerPinHash := ownerPinHash } := by
  unfold header
  rw [tags_moved hdata]
  rfl

/-- Flash with such a header in the slot, and a FAT entry for it. -/
def BlobRecord.forged (fw : Firmware) (r : BlobRecord) (slot : Slot) (ownerPinHash : Digest) : Mem :=
  (Mem.write (fun _ => 0xFF) (blobSlotBase slot) (Header.codec.encode
    { r.header fw with slot := UInt16.ofNat slot, ownerPinHash := ownerPinHash })).write fatAddr
    (fatPage (Function.update (fun _ => .erased) slot
      ((r.moved slot ownerPinHash).fatEntry (.replicate 16 0))))

theorem fatAt_write (fat : Slot → FatEntry) (slot : Slot) :
    fatAt (m.write fatAddr (fatPage fat)) slot = fat slot := by
  have hslot : slot.val < 8 := slot.isLt
  have hread := Mem.read_write m fatAddr (fatPage fat)
  rw [length_fatPage] at hread
  have hslice := @fatPage_slice fat slot
  rw [← hread, Mem.drop_read _ _ _ _ (by simp only [pageSize]; omega),
    Mem.take_read _ _ _ _ (by simp only [pageSize]; omega)] at hslice
  unfold fatAt
  rw [hslice, Codec.decode_encode']

theorem read_write_header (m : Mem) (a : Nat) (header : Header) :
    (m.write a (Header.codec.encode header)).read a headerSize = Header.codec.encode header := by
  have hread := Mem.read_write m a (Header.codec.encode header)
  rwa [Header.codec.length_encode, Header.codec_size] at hread

theorem BlobRecord.forged_stored (hdata : r.data = []) (slot : Slot) (ownerPinHash : Digest) :
    (r.moved slot ownerPinHash).StoredIn fw (r.forged fw slot ownerPinHash) := by
  have hnone : ¬ ∃ i, i < numChunks (r.moved slot ownerPinHash).data.length := by
    have hmoved : (r.moved slot ownerPinHash).data = r.data := rfl
    rw [hmoved, hdata]
    rintro ⟨i, hi⟩
    exact Nat.not_lt_zero i hi
  constructor
  · have hbase : (r.moved slot ownerPinHash).base = blobSlotBase slot := rfl
    have hapart : blobSlotBase slot + headerSize ≤ fatAddr := by
      have hlt := blobSlotBase_lt slot
      simp only [slotSize_eq, headerSize] at hlt ⊢
      omega
    unfold forged
    rw [hbase, (Mem.agree_write (.inl hapart)).read (Nat.le_refl _) (Nat.le_refl _),
      header_moved hdata]
    exact read_write_header _ _ _
  · exact fun i hi => absurd ⟨i, hi⟩ hnone
  · exact fun i hi => absurd ⟨i, hi⟩ hnone

/-- For an empty file the device has computed nothing but what the forged record holds as well. -/
theorem BlobRecord.Made.moved (hmade : r.Made fw L) (hdata : r.data = []) (slot : Slot)
    (ownerPinHash : Digest) : (r.moved slot ownerPinHash).Made fw L := by
  have hnotes : (r.moved slot ownerPinHash).notes fw = r.notes fw := by
    have hmoved : (r.moved slot ownerPinHash).data = r.data := rfl
    unfold BlobRecord.notes BlobRecord.encryptions
    rw [tags_moved hdata, hmoved, hdata]
    rfl
  refine ⟨hmade.key, hmade.fits, ?_⟩
  rw [hnotes]
  exact hmade.notes

theorem BlobRecord.Made.forged_unforged (hgcm : fw.prim.GcmLaws) (hmade : r.Made fw L)
    (hdata : r.data = []) (slot : Slot) (ownerPinHash : Digest) :
    UnforgedRecord fw L (r.forged fw slot ownerPinHash) slot := by
  have hmoved : (r.moved slot ownerPinHash).data = [] := hdata
  apply (hmade.moved hdata slot ownerPinHash).unforged hgcm (forged_stored hdata slot ownerPinHash)
  rw [hmoved]
  exact Nat.zero_le _

/-- A device that boots from it reads it, for the owner and groups of the attacker's choice among
    those of the record. -/
theorem BlobRecord.forged_reads (hgcm : fw.prim.GcmLaws)
    (hkey : (securityGetRootSecret fw).bind (fun root => deriveFileKey fw root r.groupMask) =
      some r.masterKey) (hdata : r.data = []) (slot : Slot) (ownerPinHash : Digest)
    {groupMask : UInt32} (hmask : groupMask &&& r.groupMask ≠ 0) (ram : Ram) (out : Mem)
    (outAddr : Nat) :
    ReadsContents (ram.loaded (r.forged fw slot ownerPinHash)) out outAddr (some [])
      (blobReadAll fw (r.forged fw slot ownerPinHash) (ram.loaded (r.forged fw slot ownerPinHash))
        (UInt8.ofNat slot) ownerPinHash groupMask out outAddr maxContentsSize) := by
  have hmoved : (r.moved slot ownerPinHash).data = [] := hdata
  have hfat : (ram.loaded (r.forged fw slot ownerPinHash)).gFat slot =
      (r.moved slot ownerPinHash).fatEntry (.replicate 16 0) :=
    (fatAt_write _ slot).trans (Function.update_self slot _ _)
  have hcontents := (@forged_stored fw r hdata slot ownerPinHash).contents hgcm
    (by rw [hmoved]; exact Nat.zero_le _) hkey hfat (some ownerPinHash) groupMask
  rw [if_neg (by
    rintro (h | ⟨-, h⟩)
    · exact hmask h
    · exact h rfl), hmoved] at hcontents
  rw [← hcontents]
  exact blobReadAll_reads _ _ slot ownerPinHash groupMask out outAddr

/-- So it would have to have been written. -/
theorem BlobRecord.written_of_forged (hgcm : fw.prim.GcmLaws)
    (hkey : (securityGetRootSecret fw).bind (fun root => deriveFileKey fw root r.groupMask) =
      some r.masterKey) (hdata : r.data = []) {slot : Slot} {ownerPinHash : Digest}
    {groupMask : UInt32} (hmask : groupMask &&& r.groupMask ≠ 0) {files : List WrittenFile}
    {ram : Ram} {out : Mem} {outAddr : Nat}
    (h : GivesWritten files (r.forged fw slot ownerPinHash) slot ownerPinHash out outAddr
      (blobReadAll fw (r.forged fw slot ownerPinHash) (ram.loaded (r.forged fw slot ownerPinHash))
        (UInt8.ofNat slot) ownerPinHash groupMask out outAddr maxContentsSize)) :
    ⟨slot, [], ownerPinHash, r.groupMask⟩ ∈ files := by
  obtain ⟨hok, -, hlen, -⟩ :=
    (forged_reads hgcm hkey hdata slot ownerPinHash hmask ram out outAddr).ok [] rfl
  obtain ⟨d, -, hd, hfile⟩ := h hok
  have hnil : d = [] := List.length_eq_zero_iff.mp (hd.symm.trans hlen)
  have hheader : headerAt (r.forged fw slot ownerPinHash) slot = (r.moved slot ownerPinHash).header fw :=
    (@forged_stored fw r hdata slot ownerPinHash).headerAt_eq
  rw [hnil, hheader] at hfile
  exact hfile

end

/-- Whatever an attacker without the keys has put into flash: if `blob_read_all` gives a file that is
    not empty, it was written to this slot for this owner and group. It is so for all files exactly
    if empty files are bound to slot and owner, since no tag covers the header of an empty file. -/
theorem read_authentic_iff (hgcm : fw.prim.GcmLaws) (calls : List BlobWriteCall) (ram : Option Ram)
    (w : World) (hcoll : NoCollisions fw (writeEvents fw calls ram w)) (slot : Slot)
    (pinHash : Digest) (groupMask : UInt32) :
    (∀ (m : Mem) (ram' : Ram) (out : Mem) (outAddr outLen : Nat),
      UnforgedRecord fw (writeEvents fw calls ram w) m slot → (headerAt m slot).plaintextLen ≠ 0 →
      GivesWritten (writtenFiles fw calls ram w) m slot pinHash out outAddr
        (blobReadAll fw m ram' (UInt8.ofNat slot) pinHash groupMask out outAddr outLen)) ∧
    ((∀ (m : Mem) (ram' : Ram) (out : Mem) (outAddr outLen : Nat),
      UnforgedRecord fw (writeEvents fw calls ram w) m slot →
      GivesWritten (writtenFiles fw calls ram w) m slot pinHash out outAddr
        (blobReadAll fw m ram' (UInt8.ofNat slot) pinHash groupMask out outAddr outLen)) ↔
      EmptyFilesBound (writtenFiles fw calls ram w) slot pinHash groupMask) := by
  refine ⟨?_, ?_, ?_⟩
  · intro m ram' out outAddr outLen hunforged hplain
    exact givesWritten_of_bound hgcm hcoll (fun h => absurd h hplain) hunforged ram' out outAddr outLen
  · intro h file hfile hdata hmask
    obtain ⟨r, hmade, rfl⟩ := made_of_written hfile
    have hempty : r.data = [] := hdata
    have hunforged := hmade.forged_unforged hgcm hempty slot pinHash
    have hread := h (r.forged fw slot pinHash) (Ram.sample.loaded (r.forged fw slot pinHash))
      (fun _ => 0) 0 maxContentsSize hunforged
    exact BlobRecord.written_of_forged hgcm hmade.key hempty hmask hread
  · intro hbound m ram' out outAddr outLen hunforged
    exact givesWritten_of_bound hgcm hcoll (fun _ => hbound) hunforged ram' out outAddr outLen

/-! ## A sample -/

/-- A MAC that adds the key to the length of the message and the message itself. -/
def Primitives.adding : Primitives :=
  { Primitives.release .counting with
    hmac := fun key msg => Vector.ofFn fun i =>
      key.getD i 0 + (UInt8.ofNat msg.length :: msg).getD i 0 }

def Firmware.adding : Firmware := { Firmware.sample with prim := .adding }

theorem Firmware.adding_gcmLaws : Firmware.adding.prim.GcmLaws where
  encrypts key nonce aad pt := ⟨_, _, rfl⟩
  inverts {key nonce aad pt ct tag} h := by
    cases h
    exact AesGcm.counting.inverts key nonce aad pt

theorem Primitives.adding_byte (key msg : Bytes) {i : Nat} (hi : i < 32) :
    (adding.hmac key msg).toList.getD i 0 =
      key.getD i 0 + (UInt8.ofNat msg.length :: msg).getD i 0 := by
  rw [List.getD_eq_getElem _ _ (by simpa using hi)]
  simp [adding]

/-- Under one message it tells keys apart, byte by byte. -/
theorem Primitives.adding_key {key key' msg : Bytes} {i : Nat} (hi : i < 32)
    (h : (adding.hmac key msg).toList.getD i 0 = (adding.hmac key' msg).toList.getD i 0) :
    key.getD i 0 = key'.getD i 0 := by
  rw [adding_byte key msg hi, adding_byte key' msg hi] at h
  exact (UInt8.add_left_inj _).mp h

/-- The first two bytes of the group key show up in the file key. -/
theorem Primitives.adding_groupKey {root : Key} {groupId groupId' : UInt16}
    (h : secureCryptoDeriveFileEncKey adding root groupId =
      secureCryptoDeriveFileEncKey adding root groupId') {i : Nat} (hi : i < 31) :
    (deriveGroupKey adding root groupId).toList.getD i 0 =
      (deriveGroupKey adding root groupId').toList.getD i 0 := by
  unfold secureCryptoDeriveFileEncKey at h
  rw [KeyDerivation.deriveGroupSubkey_eq, KeyDerivation.deriveGroupSubkey_eq] at h
  have hbyte : ∀ key : Key, (hkdfExtractSha256 adding none key.toList).toList.getD (i + 1) 0 =
      (List.replicate 32 0).getD (i + 1) 0 + key.toList.getD i 0 := by
    intro key
    exact (adding_byte (List.replicate 32 0) key.toList (by omega)).trans
      (congrArg _ List.getD_cons_succ)
  have hprk := adding_key (i := i + 1) (by omega) (congrArg (fun key => key.toList.getD (i + 1) 0) h)
  rw [hbyte, hbyte] at hprk
  exact (UInt8.add_right_inj _).mp hprk

theorem Primitives.adding_fileKey {root : Key} {groupId groupId' : UInt16}
    (h : secureCryptoDeriveFileEncKey adding root groupId =
      secureCryptoDeriveFileEncKey adding root groupId') : groupId = groupId' := by
  have hsalt : ∀ i < 2,
      (Codec.u16.encode groupId).getD i 0 = (Codec.u16.encode groupId').getD i 0 := by
    intro i hi
    have hgroup := adding_groupKey h (i := i) (by omega)
    unfold deriveGroupKey at hgroup
    rw [KeyDerivation.toKey_hkdfExpandSha256, KeyDerivation.toKey_hkdfExpandSha256] at hgroup
    exact adding_key (by omega) (adding_key (by omega) hgroup)
  apply Codec.u16.encode_injective
  have hfirst := hsalt 0 (by decide)
  have hsecond := hsalt 1 (by decide)
  exact congrArg₂ (fun a b => [a, b]) hfirst hsecond

theorem Firmware.adding_key : ∃ masterKey, (securityGetRootSecret .adding).bind
    (fun root => deriveFileKey .adding root 1) = some masterKey := by
  have hsecrets : Firmware.adding.globalSecrets = Firmware.sample.globalSecrets := rfl
  have hroot := Firmware.sample_rootSecret
  have hgroup : (1 : UInt16).toUInt32 = 1 := rfl
  unfold securityGetRootSecret at hroot ⊢
  rw [hsecrets, hroot, Option.bind_some, ← hgroup, deriveFileKey_toUInt32]
  exact ⟨_, rfl⟩

/-- An empty file, written to slot 1 for the owner and in the group of the other one. -/
def sampleEmptyCall : BlobWriteCall :=
  { sampleWriteCall with slot := 1, data := [], between := fun _ w => (.sample, w.renewed) }

theorem written_sample {call : BlobWriteCall} {slot : Slot} {w : World} {draw : Nat → UInt8}
    (hslot : slotIsValid call.slot = some slot) (hgroup : call.groupMask = 1)
    (hfaults : call.faults = []) (hfits : call.data.length ≤ tagsOffset - headerSize)
    (hdraw : w.rng w.draws = some draw) :
    call.written .adding .sample w = [⟨slot, call.data, call.ownerPinHash, 1⟩] := by
  obtain ⟨masterKey, hkey⟩ := Firmware.adding_key
  have hwritten := @BlobWriteCall.written_of_setup .adding Firmware.adding_gcmLaws call .sample w slot
    hslot ⟨slot, call.data, call.ownerPinHash, call.groupMask,
      (Codec.bytes 12).decode ((List.range 12).map draw), masterKey⟩ (by
        unfold blobWriteSetup
        rw [if_neg (Nat.not_lt.mpr hfits), hgroup, hkey, hdraw]
        rfl) hfaults
  rw [hgroup] at hwritten
  exact hwritten

/-- A file of two chunks in slot 3 and an empty file in slot 1. -/
def sampleRun : List BlobWriteCall := [sampleWriteCall, sampleEmptyCall]

theorem length_sampleWriteCall : sampleWriteCall.data.length = 300 := List.length_replicate

theorem writtenFiles_sample :
    writtenFiles .adding sampleRun none .sample =
      [⟨3, List.replicate 300 7, .replicate 32 0, 1⟩, ⟨1, [], .replicate 32 0, 1⟩] := by
  have hcons : ∃ w : World, writtenFiles .adding sampleRun none .sample =
      sampleWriteCall.written .adding .sample .sample ++
        (sampleEmptyCall.written .adding .sample w.renewed ++ []) := ⟨_, rfl⟩
  obtain ⟨w, hcons⟩ := hcons
  have hfirst := @written_sample sampleWriteCall 3 .sample (fun _ => 0) rfl rfl rfl
    (by rw [length_sampleWriteCall, tagsOffset_eq, headerSize]; omega) rfl
  have hsecond := @written_sample sampleEmptyCall 1 w.renewed (fun _ => 1) rfl rfl rfl
    (Nat.zero_le _) rfl
  rw [hcons, hfirst, hsecond]
  rfl

theorem mem_writtenFiles_sample {file : WrittenFile} :
    file ∈ writtenFiles .adding sampleRun none .sample ↔
      file = ⟨3, List.replicate 300 7, .replicate 32 0, 1⟩ ∨
        file = ⟨1, [], .replicate 32 0, 1⟩ := by
  rw [writtenFiles_sample, List.mem_cons, List.mem_singleton]

/-- The encryptions of a call are those of the chunks of one record. -/
theorem BlobWriteCall.encrypts_record (fw : Firmware) (call : BlobWriteCall) (ram : Ram) (w : World) :
    ∃ r : BlobRecord, ∀ {key nonce aad pt}, .encrypt key nonce aad pt ∈ call.events fw ram w →
      aad = buildAad r.draft ∧ ∃ i < numChunks call.data.length, pt = chunk call.data i := by
  rcases @writeNotes fw call ram w with hnil | ⟨r, hbegun, hL⟩
  · refine ⟨⟨0, [], .replicate 32 0, 0, .replicate 12 0, .replicate 32 0⟩, ?_⟩
    intro key nonce aad pt h
    rw [hnil] at h
    cases h
  · refine ⟨r, ?_⟩
    intro key nonce aad pt h
    have hencrypted : .encrypt key nonce aad pt ∈ r.encryptions fw (numChunks r.data.length) := by
      rcases hL with ⟨k, hk, hL⟩ | hL
      · rw [hL] at h
        rcases List.mem_cons.mp h with h | h
        · cases h
        obtain ⟨i, hi, he⟩ := List.mem_map.mp h
        have hlt := List.mem_range.mp hi
        exact List.mem_map.mpr ⟨i, List.mem_range.mpr (by omega), he⟩
      · rw [hL] at h
        rcases List.mem_cons.mp h with h | h
        · cases h
        rcases List.mem_append.mp h with h | h
        · exact h
        · cases List.mem_singleton.mp h
    rw [hbegun.data] at hencrypted
    obtain ⟨i, hi, he⟩ := List.mem_map.mp hencrypted
    obtain ⟨-, -, haad, hpt⟩ := CryptoEvent.encrypt.inj he
    rw [hbegun.data] at hpt
    exact ⟨haad.symm, i, List.mem_range.mp hi, hpt.symm⟩

theorem Firmware.adding_tag {key : Key} {nonce : Nonce} {aad pt ct : Bytes} {tag : Tag}
    (h : secureCryptoAesGcmEncrypt Firmware.adding.prim key nonce aad pt = some (ct, tag)) :
    tag = .replicate 16 (UInt8.ofNat pt.length) := by
  obtain ⟨sealed, hsealed, heq⟩ := Option.map_eq_some_iff.mp h
  have hcounting : some (AesGcm.counting.encrypt key nonce aad pt) = some sealed := hsealed
  obtain rfl := Option.some.inj hcounting
  exact (Prod.mk.inj heq).2.symm

/-- The two chunks have different lengths, so they have different tags. -/
theorem noCollisions_sample :
    NoCollisions .adding (writeEvents .adding sampleRun none .sample) where
  fileKey _ _ _ _ h := Primitives.adding_fileKey h
  tag {key nonce nonce' aad aad' pt pt' ct ct' tag} he he' hseal hseal' := by
    obtain ⟨ram₁, w₁, ram₂, w₂, hevents, -⟩ :=
      @writes_cons .adding sampleWriteCall [sampleEmptyCall] none .sample
    obtain ⟨ram₃, w₃, ram₄, w₄, hnext, -⟩ := @writes_cons .adding sampleEmptyCall [] ram₂ w₂
    obtain ⟨r, hr⟩ := sampleWriteCall.encrypts_record .adding ram₁ w₁
    obtain ⟨r', hr'⟩ := sampleEmptyCall.encrypts_record .adding ram₃ w₃
    unfold sampleRun at he he'
    rw [hevents, hnext] at he he'
    have hfirst : ∀ {key nonce aad pt},
        .encrypt key nonce aad pt ∈ sampleWriteCall.events .adding ram₁ w₁ ++
          (sampleEmptyCall.events .adding ram₃ w₃ ++ writeEvents .adding [] ram₄ w₄) →
        aad = buildAad r.draft ∧ ∃ i < numChunks sampleWriteCall.data.length,
          pt = chunk sampleWriteCall.data i := by
      intro key nonce aad pt h
      rcases List.mem_append.mp h with h | h
      · exact hr h
      · rcases List.mem_append.mp h with h | h
        · obtain ⟨-, i, hi, -⟩ := hr' h
          exact absurd hi (Nat.not_lt_zero i)
        · cases h
    obtain ⟨rfl, i, hi, rfl⟩ := hfirst he
    obtain ⟨rfl, j, hj, rfl⟩ := hfirst he'
    have htags := (Firmware.adding_tag hseal).symm.trans (Firmware.adding_tag hseal')
    have hbyte := (Vector.replicate_inj.mp htags).resolve_left (by decide)
    have hnat := congrArg UInt8.toNat hbyte
    simp only [length_chunk, chunkLen, length_sampleWriteCall, numChunks, UInt8.toNat_ofNat']
      at hi hj hnat
    have hij : i = j := by omega
    rw [hij]
    exact ⟨rfl, rfl⟩

/-- The file in slot 3 is read as it was written. Where the empty file was written all reads give what
    was written, and in the slot behind it they do not. -/
theorem read_authentic_iff_sample :
    (∃ m ram', UnforgedRecord .adding (writeEvents .adding sampleRun none .sample) m 3 ∧
      (blobReadAll .adding m ram' 3 (.replicate 32 0) 1 (fun _ => 0) 0 maxContentsSize).status = .ok ∧
      GivesWritten (writtenFiles .adding sampleRun none .sample) m 3 (.replicate 32 0) (fun _ => 0) 0
        (blobReadAll .adding m ram' 3 (.replicate 32 0) 1 (fun _ => 0) 0 maxContentsSize)) ∧
    (∀ (m : Mem) (ram' : Ram) (out : Mem) (outAddr outLen : Nat),
      UnforgedRecord .adding (writeEvents .adding sampleRun none .sample) m 1 →
      GivesWritten (writtenFiles .adding sampleRun none .sample) m 1 (.replicate 32 0) out outAddr
        (blobReadAll .adding m ram' 1 (.replicate 32 0) 1 out outAddr outLen)) ∧
    ¬ ∀ (m : Mem) (ram' : Ram) (out : Mem) (outAddr outLen : Nat),
      UnforgedRecord .adding (writeEvents .adding sampleRun none .sample) m 2 →
      GivesWritten (writtenFiles .adding sampleRun none .sample) m 2 (.replicate 32 0) out outAddr
        (blobReadAll .adding m ram' 2 (.replicate 32 0) 1 out outAddr outLen) := by
  have hiff := read_authentic_iff .adding Firmware.adding_gcmLaws sampleRun none .sample
    noCollisions_sample
  refine ⟨?_, ?_, ?_⟩
  · obtain ⟨r, hmade, hr⟩ := made_of_written (mem_writtenFiles_sample.mpr (.inl rfl))
    have hslot : r.slot = 3 := congrArg WrittenFile.slot hr
    have howner : r.ownerPinHash = .replicate 32 0 := congrArg WrittenFile.ownerPinHash hr
    have hgroup : r.groupMask = 1 := congrArg WrittenFile.groupMask hr
    have hdata : r.data.length = 300 :=
      (congrArg (fun file => file.data.length) hr).trans List.length_replicate
    have hlen : r.data.length ≤ maxContentsSize := by
      rw [hdata, maxContentsSize]
      omega
    have hmask : 1 &&& r.groupMask ≠ 0 := by
      rw [hgroup]
      decide
    obtain ⟨m, ram', hunforged, hheader, hok⟩ :=
      hmade.reads Firmware.adding_gcmLaws hlen hmask (fun _ => 0) 0
    rw [hslot] at hunforged hheader hok
    rw [howner] at hok
    have hplain : (headerAt m 3).plaintextLen ≠ 0 := by
      intro hzero
      have hnat := @BlobRecord.toNat_plaintextLen .adding r hlen
      rw [← hheader, hzero, hdata] at hnat
      cases hnat
    exact ⟨m, ram', hunforged, hok,
      (hiff 3 (.replicate 32 0) 1).1 m ram' (fun _ => 0) 0 maxContentsSize hunforged hplain⟩
  · apply (hiff 1 (.replicate 32 0) 1).2.mpr
    intro file hfile hdata _
    rcases mem_writtenFiles_sample.mp hfile with rfl | rfl
    · cases hdata
    · exact mem_writtenFiles_sample.mpr (.inr rfl)
  · intro h
    have hbound := (hiff 2 (.replicate 32 0) 1).2.mp h
    have hempty := hbound ⟨1, [], .replicate 32 0, 1⟩ (mem_writtenFiles_sample.mpr (.inr rfl)) rfl
      (by decide)
    rcases mem_writtenFiles_sample.mp hempty with h | h
    · exact absurd (congrArg WrittenFile.slot h) (by decide)
    · exact absurd (congrArg WrittenFile.slot h) (by decide)

/-- With the blob tag of an empty file a record can be forged in any slot and for any owner: here in
    slot 2, for an owner who has written nothing. -/
theorem empty_file_forged :
    ¬ ∀ (fw : Firmware) (calls : List BlobWriteCall) (ram : Option Ram) (w : World) (slot : Slot)
      (pinHash : Digest) (groupMask : UInt32) (m : Mem) (ram' : Ram) (out : Mem)
      (outAddr outLen : Nat), fw.prim.GcmLaws → NoCollisions fw (writeEvents fw calls ram w) →
      UnforgedRecord fw (writeEvents fw calls ram w) m slot →
      GivesWritten (writtenFiles fw calls ram w) m slot pinHash out outAddr
        (blobReadAll fw m (ram'.loaded m) (UInt8.ofNat slot) pinHash groupMask out outAddr
          outLen) := by
  intro h
  obtain ⟨r, hmade, hr⟩ := made_of_written (mem_writtenFiles_sample.mpr (.inr rfl))
  have hdata : r.data = [] := congrArg WrittenFile.data hr
  have hgroup : r.groupMask = 1 := congrArg WrittenFile.groupMask hr
  have hmask : 1 &&& r.groupMask ≠ 0 := by
    rw [hgroup]
    decide
  have hunforged := hmade.forged_unforged Firmware.adding_gcmLaws hdata 2 (.replicate 32 1)
  have hread := h .adding sampleRun none .sample 2 (.replicate 32 1) 1
    (r.forged .adding 2 (.replicate 32 1)) .sample (fun _ => 0) 0 maxContentsSize
    Firmware.adding_gcmLaws noCollisions_sample hunforged
  have hfile := BlobRecord.written_of_forged Firmware.adding_gcmLaws hmade.key hdata hmask hread
  have hfirst : (2 : Slot) ≠ 3 := by decide
  have hsecond : (2 : Slot) ≠ 1 := by decide
  rcases mem_writtenFiles_sample.mp hfile with h | h
  · exact hfirst (congrArg WrittenFile.slot h)
  · exact hsecond (congrArg WrittenFile.slot h)
