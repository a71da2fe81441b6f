-- SUMMARY: No two encryptions of a run of blob_write use the same chunk key and nonce.
import HsmFirmware.Firmware.Release
import HsmFirmware.Specs.Encryptions
import HsmFirmware.Specs.Sha256
import HsmFirmware.Specs.Transfer

/-!
# Keys and nonces

A record is encrypted under one nonce, each chunk under a key of its own. As long as the generator
repeats no nonce, no key and nonce are used twice, over any number of writes that succeed, fail,
or are cut off.
-/

/-! ## Runs of writes -/

/-- A call of `blob_write`, the fate of its flash commands, and what has happened since the call
    before: other commands, or a reboot, after which the RAM is what the start-up has made of it. -/
structure BlobWriteCall where
  slot : UInt8
  data : Bytes
  uuid : Vector UInt8 16
  ownerPinHash : Digest
  groupMask : UInt32
  faults : Schedule
  between : Option Ram → World → Ram × World

/-- The RAM after a run, unless the power is off. -/
def Halt.ram? {α : Type} : Halt Op World (α × Ram) → Option Ram
  | .done r _ _ _ => some r.2
  | .off _ _ => none

variable (fw : Firmware)

/-- What a call notes. -/
def BlobWriteCall.events (call : BlobWriteCall) (ram : Ram) (w : World) : List CryptoEvent :=
  ((Noted.noting hsm).exec
    ((blobWriteNoted fw call.slot call.data call.uuid call.ownerPinHash call.groupMask).run ram)
    call.faults (w, [])).state.2

/-- What is noted in a run. -/
def writeEvents : List BlobWriteCall → Option Ram → World → List CryptoEvent
  | [], _, _ => []
  | call :: calls, ram, w =>
    let (ram, w) := call.between ram w
    let r := (blobWrite fw call.slot call.data call.uuid call.ownerPinHash call.groupMask).exec
      call.faults ram w
    call.events fw ram w ++ writeEvents calls r.ram? r.state

/-- The run with notes is the run of `blob_write`. -/
theorem BlobWriteCall.unnoted_exec (call : BlobWriteCall) (ram : Ram) (w : World) :
    Noted.unnoted ((Noted.noting hsm).exec ((blobWriteNoted fw call.slot call.data call.uuid
      call.ownerPinHash call.groupMask).run ram) call.faults (w, [])) =
      (blobWrite fw call.slot call.data call.uuid call.ownerPinHash call.groupMask).exec
        call.faults ram w := by
  rw [Noted.unnoted_exec, ← erase_blobWriteNoted]
  rfl

/-- The nonces drawn. -/
def drawnNonces (L : List CryptoEvent) : List Nonce :=
  L.filterMap fun
    | .nonce nonce => some nonce
    | .encrypt _ _ _ _ | .blobTag _ _ => none

/-- The keys and nonces used. -/
def usedPairs (L : List CryptoEvent) : List (Key × Nonce) :=
  L.filterMap fun
    | .encrypt key nonce _ _ => some (key, nonce)
    | .nonce _ | .blobTag _ _ => none

/-! ## Chunk keys -/

/-- Under the file keys of the device, the expansions of different info strings differ. -/
def ExpandsApart : Prop :=
  ∀ root groupId i j, securityGetRootSecret fw = some root →
    hkdfExpandSha256 fw.prim (secureCryptoDeriveFileEncKey fw.prim root groupId).toList
        (chunkInfo i) 32 =
      hkdfExpandSha256 fw.prim (secureCryptoDeriveFileEncKey fw.prim root groupId).toList
        (chunkInfo j) 32 → chunkInfo i = chunkInfo j

variable {fw}

theorem chunkKey_injective (hexpand : ExpandsApart fw) {root : Key}
    (hroot : securityGetRootSecret fw = some root) (groupId : UInt16) {i j : UInt32}
    (h : secureCryptoDeriveChunkKey fw.prim (secureCryptoDeriveFileEncKey fw.prim root groupId) i =
      secureCryptoDeriveChunkKey fw.prim (secureCryptoDeriveFileEncKey fw.prim root groupId) j) :
    i = j := by
  apply chunkInfo_injective
  apply hexpand root groupId i j hroot
  have hbytes := congrArg Vector.toList h
  unfold secureCryptoDeriveChunkKey toKey at hbytes
  rwa [toList_decode_bytes (length_hkdfExpandSha256 _ _ _ 32),
    toList_decode_bytes (length_hkdfExpandSha256 _ _ _ 32)] at hbytes

/-! ## One write -/

theorem usedPairs_append (L L' : List CryptoEvent) :
    usedPairs (L ++ L') = usedPairs L ++ usedPairs L' := List.filterMap_append

theorem drawnNonces_append (L L' : List CryptoEvent) :
    drawnNonces (L ++ L') = drawnNonces L ++ drawnNonces L' := List.filterMap_append

theorem usedPairs_encryptions (r : BlobRecord) (k : Nat) :
    usedPairs (r.encryptions fw k) = (List.range k).map fun i =>
      (secureCryptoDeriveChunkKey fw.prim r.masterKey (UInt32.ofNat i), r.nonce) := by
  unfold usedPairs BlobRecord.encryptions
  rw [List.filterMap_map]
  exact congrFun List.filterMap_eq_map _

theorem drawnNonces_encryptions (r : BlobRecord) (k : Nat) :
    drawnNonces (r.encryptions fw k) = [] := by
  unfold drawnNonces BlobRecord.encryptions
  rw [List.filterMap_map]
  exact List.filterMap_eq_nil_iff.mpr fun _ _ => rfl

/-- The write of a record encrypts some first chunks, under the one nonce it draws. -/
theorem BlobRecord.SomeNotes.pairs {r : BlobRecord} {L : List CryptoEvent} (h : r.SomeNotes fw L) :
    drawnNonces L = [r.nonce] ∧ ∃ k ≤ numChunks r.data.length, usedPairs L =
      (List.range k).map fun i =>
        (secureCryptoDeriveChunkKey fw.prim r.masterKey (UInt32.ofNat i), r.nonce) := by
  rcases h with ⟨k, hk, rfl⟩ | rfl
  · exact ⟨congrArg (r.nonce :: ·) (drawnNonces_encryptions r k), k, hk, usedPairs_encryptions r k⟩
  · have hpairs : usedPairs (r.notes fw) = usedPairs (r.encryptions fw (numChunks r.data.length) ++
        [.blobTag r.masterKey (r.tags fw)]) := rfl
    have hdrawn : drawnNonces (r.notes fw) = r.nonce :: drawnNonces
        (r.encryptions fw (numChunks r.data.length) ++ [.blobTag r.masterKey (r.tags fw)]) := rfl
    rw [usedPairs_append, usedPairs_encryptions] at hpairs
    rw [drawnNonces_append, drawnNonces_encryptions] at hdrawn
    exact ⟨hdrawn, _, Nat.le_refl _, hpairs.trans (List.append_nil _)⟩

/-- A write uses the nonce it has drawn, and no key twice. -/
theorem WriteNotes.nodup (hexpand : ExpandsApart fw) {fat : Slot → FatEntry} {slot : UInt8}
    {data : Bytes} {ownerPinHash : Digest} {groupMask : UInt32} {L : List CryptoEvent}
    (h : WriteNotes fw fat slot data ownerPinHash groupMask L) :
    (usedPairs L).Nodup ∧ ∀ pair ∈ usedPairs L, pair.2 ∈ drawnNonces L := by
  rcases h with rfl | ⟨r, hbegun, hL⟩
  · exact ⟨List.nodup_nil, nofun⟩
  · obtain ⟨hdrawn, k, hk, hpairs⟩ := hL.pairs
    obtain ⟨root, hroot, -, hkey⟩ := fileKey_some hbegun.key
    have hfits := hbegun.fits
    simp only [numChunks, tagsOffset_eq, headerSize] at hk hfits
    rw [hpairs, hdrawn]
    constructor
    · apply List.Nodup.map_on _ List.nodup_range
      intro i hi j hj hij
      have hchunk := (Prod.mk.inj hij).1
      rw [hkey] at hchunk
      have hidx := chunkKey_injective hexpand hroot _ hchunk
      have hi' := List.mem_range.mp hi
      have hj' := List.mem_range.mp hj
      have hnat := congrArg UInt32.toNat hidx
      rwa [UInt32.toNat_ofNat_of_lt' (by unfold UInt32.size; omega),
        UInt32.toNat_ofNat_of_lt' (by unfold UInt32.size; omega)] at hnat
    · intro pair hpair
      obtain ⟨i, -, rfl⟩ := List.mem_map.mp hpair
      exact List.mem_singleton.mpr rfl

theorem BlobWriteCall.writeNotes (call : BlobWriteCall) (ram : Ram) (w : World) :
    WriteNotes fw ram.gFat call.slot call.data call.ownerPinHash call.groupMask
      (call.events fw ram w) :=
  Noted.Notes.exec (notes_blobWriteNoted call.slot call.data call.uuid call.ownerPinHash
    call.groupMask ram) (.inl rfl) call.faults w

/-! ## Any run -/

/-- Nonces are used by the write that has drawn them. -/
theorem mem_drawnNonces_writeEvents (hexpand : ExpandsApart fw) (calls : List BlobWriteCall)
    (ram : Option Ram) (w : World) :
    ∀ pair ∈ usedPairs (writeEvents fw calls ram w),
      pair.2 ∈ drawnNonces (writeEvents fw calls ram w) := by
  induction calls generalizing ram w with
  | nil => exact nofun
  | cons call calls ih =>
    intro pair hpair
    unfold writeEvents at hpair ⊢
    rw [usedPairs_append, List.mem_append] at hpair
    rw [drawnNonces_append, List.mem_append]
    exact hpair.imp (((call.writeNotes _ _).nodup hexpand).2 pair) (ih _ _ pair)

/-- If no nonce is drawn twice, no chunk key and nonce are used twice. -/
theorem usedPairs_nodup (fw : Firmware) (hexpand : ExpandsApart fw) (calls : List BlobWriteCall)
    (ram : Option Ram) (w : World) (hnonces : (drawnNonces (writeEvents fw calls ram w)).Nodup) :
    (usedPairs (writeEvents fw calls ram w)).Nodup := by
  induction calls generalizing ram w with
  | nil => exact List.nodup_nil
  | cons call calls ih =>
    unfold writeEvents at hnonces ⊢
    rw [drawnNonces_append] at hnonces
    rw [usedPairs_append]
    obtain ⟨-, hrest, hapart⟩ := List.nodup_append'.mp hnonces
    obtain ⟨hfirst, hdrawn⟩ := (call.writeNotes (call.between ram w).1
      (call.between ram w).2).nodup hexpand
    apply List.nodup_append'.mpr
    refine ⟨hfirst, ih _ _ hrest, ?_⟩
    intro pair hpair hpair'
    -- The nonce of the pair would have been drawn twice.
    exact hapart (hdrawn pair hpair) (mem_drawnNonces_writeEvents hexpand calls _ _ pair hpair')

theorem Firmware.copying_expandsApart : ExpandsApart .copying := by
  intro root groupId i j hroot h
  rw [hkdfExpandSha256_32, hkdfExpandSha256_32, Vector.toList_inj] at h
  have hlen : ∀ k, (chunkInfo k ++ [1]).length ≤ 31 := by
    intro k
    rw [List.length_append, length_chunkInfo]
    decide
  exact List.append_cancel_right (Primitives.copying_hmac_inj (hlen i) (hlen j) h)

/-! ## A sample -/

/-- The nonce of a record, from what the generator gives. -/
def recordNonce (draw : Nat → UInt8) : Nonce := (Codec.bytes 12).decode ((List.range 12).map draw)

theorem exec_generateNonceNoted {w : World} {draw : Nat → UInt8} (hdraw : w.rng w.draws = some draw)
    (fs : Schedule) (ram : Ram) (L : List CryptoEvent) :
    (Noted.noting hsm).exec (securityGenerateNonceNoted.run ram) fs (w, L) =
      .done (some (recordNonce draw), ram) (w.drawn, L ++ [.nonce (recordNonce draw)]) [] fs := by
  have hexec : hsm.exec ((securityGenerateNonce 12).run ram) fs w =
      .done (some ((List.range 12).map draw), ram) w.drawn [] fs := exec_generateNonce hdraw 11 fs ram
  show (Noted.noting hsm).exec (Noted.lift CryptoEvent ((securityGenerateNonce 12).run ram) >>= _) fs
    (w, L) = _
  rw [Machine.exec_bind, Noted.exec_lift, hexec]
  rfl

/-- A write draws one nonce at most, which is the one the generator has for it. -/
theorem BlobWriteCall.drawnNonces_events (call : BlobWriteCall) (ram : Ram) (w : World)
    {draw : Nat → UInt8} (hdraw : w.rng w.draws = some draw) :
    drawnNonces (call.events fw ram w) = [] ∨
      drawnNonces (call.events fw ram w) = [recordNonce draw] := by
  unfold events
  obtain ⟨rc, -, hrun⟩ | ⟨r, hr, hrun⟩ := @blobWriteNoted_run fw call.slot call.data call.uuid
    call.ownerPinHash call.groupMask ram
  · rw [hrun]
    exact .inl rfl
  · right
    obtain ⟨hnonce, -⟩ := hr (recordNonce draw)
    have hrecord := @notes_blobWriteRecordNoted fw (r (recordNonce draw)) call.uuid ram
    have hfirst := @BlobRecord.someNotes_encryptions fw (r (recordNonce draw)) 0 (Nat.zero_le _)
    rw [hnonce] at hrecord hfirst
    rw [hrun, StateT.run_bind, Machine.exec_bind, exec_generateNonceNoted hdraw, Halt.andThen_done,
      Halt.logged_nil]
    have hnotes := @Noted.Notes.exec _ _ _ _ _ _ _ _ hsm _ hrecord hfirst call.faults w.drawn
    exact hnotes.pairs.1.trans (congrArg (fun nonce => [nonce]) hnonce)

/-- A file of two chunks, written to slot 3 of group 1. -/
def sampleWriteCall : BlobWriteCall :=
  ⟨3, List.replicate 300 7, .replicate 16 0, .replicate 32 0, 1, [], fun _ w => (.sample, w)⟩

/-- The generator gives other bytes. -/
def World.renewed (w : World) : World := { w with rng := fun _ => some fun _ => 1 }

/-- Another file for the slot, under a nonce of its own. -/
def sampleNextCall : BlobWriteCall :=
  { sampleWriteCall with between := fun _ w => (.sample, w.renewed) }

theorem writeEvents_sample :
    ∃ w : World, drawnNonces (writeEvents .copying [sampleWriteCall, sampleNextCall] none .sample) =
      drawnNonces (sampleWriteCall.events .copying .sample .sample) ++
        drawnNonces (sampleNextCall.events .copying .sample w.renewed) := by
  let r := (blobWrite .copying sampleWriteCall.slot sampleWriteCall.data sampleWriteCall.uuid
    sampleWriteCall.ownerPinHash sampleWriteCall.groupMask).exec [] .sample .sample
  refine ⟨r.state, ?_⟩
  rw [← drawnNonces_append, ← List.append_nil (sampleNextCall.events .copying .sample _)]
  rfl

theorem usedPairs_nodup_sample :
    (usedPairs (writeEvents .copying [sampleWriteCall, sampleNextCall] none .sample)).Nodup := by
  apply usedPairs_nodup .copying Firmware.copying_expandsApart [sampleWriteCall, sampleNextCall] none
    .sample
  have hapart : recordNonce (fun _ => 0) ≠ recordNonce fun _ => 1 := by decide
  obtain ⟨w, hdrawn⟩ := writeEvents_sample
  have hfirst := @BlobWriteCall.drawnNonces_events .copying sampleWriteCall .sample .sample
    (fun _ => 0) rfl
  have hnext := @BlobWriteCall.drawnNonces_events .copying sampleNextCall .sample w.renewed
    (fun _ => 1) rfl
  rw [hdrawn]
  rcases hfirst with hfirst | hfirst <;> rcases hnext with hnext | hnext <;>
    simp [hfirst, hnext, hapart]
