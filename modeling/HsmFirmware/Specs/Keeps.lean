-- SUMMARY: What handlers leave alone in RAM: the PIN hash in the handlers of a release build, all files in listen.
import HsmFirmware.Specs.Listen
import HsmFirmware.Firmware.Main

/-!
# Frames in RAM

A part of the RAM is kept by a handler when no operation answered in any way gets the
handler to change it. The rules follow the structure of the handlers.
-/

namespace Dev

variable {α β γ : Type} {P : Op → Prop} {f : Ram → γ}

/-- A handler that performs only operations in `P` and keeps `f` of the RAM. -/
def Keeps (P : Op → Prop) (f : Ram → γ) (h : Dev α) : Prop :=
  ∀ ram, (h.run ram).Yields P fun r => f r.2 = f ram

theorem Keeps.pure (a : α) : (Pure.pure a : Dev α).Keeps P f := fun _ => rfl

theorem Keeps.bind {h : Dev α} {g : α → Dev β} (hh : h.Keeps P f) (hg : ∀ a, (g a).Keeps P f) :
    (h >>= g).Keeps P f := by
  intro ram
  rw [StateT.run_bind]
  exact (hh ram).bind fun r hr => (hg r.1 r.2).mono (fun _ ho => ho) fun _ hs => hs.trans hr

theorem Keeps.get : (MonadState.get : Dev Ram).Keeps P f := fun _ => rfl

theorem Keeps.modify {g : Ram → Ram} (hg : ∀ ram, f (g ram) = f ram) :
    (modifyGet (fun ram => (⟨⟩, g ram)) : Dev PUnit).Keeps P f := hg

theorem Keeps.op {o : Op} (ho : P o) : (Dev.op o).Keeps P f := fun _ => ⟨ho, fun _ => rfl⟩

/-- Looking at RAM and flash, then putting back a RAM with the same `f`. -/
theorem Keeps.update {r : Ram → Mem → Ram} {k : Ram → Mem → Dev α} (hP : P .mapped)
    (hr : ∀ ram m, f (r ram m) = f ram) (hk : ∀ ram m, (k ram m).Keeps P f) :
    (do
      let ram ← MonadState.get
      let m ← Dev.mapped
      MonadStateOf.set (r ram m)
      k ram m : Dev α).Keeps P f := by
  intro ram
  refine ⟨hP, fun m => ?_⟩
  exact (hk ram m (r ram m)).mono (fun _ ho => ho) fun _ hs => hs.trans (hr ram m)

theorem Keeps.weaken {P' : Op → Prop} {h : Dev α} (hh : h.Keeps P f) (hP : ∀ o, P o → P' o) :
    h.Keeps P' f :=
  fun ram => (hh ram).mono hP fun _ hr => hr

end Dev

open Dev (Keeps)

/-- An operation that does not use UART1. -/
def Op.Local : Op → Prop
  | .send .transfer _ _ | .recv .transfer _ => False
  | _ => True

/-! ## Flash -/

section

variable {γ : Type} {f : Ram → γ}

theorem flashSimpleErasePage_keeps (address : Nat) :
    (flashSimpleErasePage address).Keeps Op.Local f := by
  refine (Keeps.op trivial).bind fun ok => ?_
  cases ok <;> exact .pure _

theorem flashSimpleWrite_keeps (address : Nat) (buffer : Bytes) :
    (flashSimpleWrite address buffer).Keeps Op.Local f := by
  induction hn : buffer.length using Nat.strong_induction_on generalizing address buffer with
  | _ n ih =>
    rw [flashSimpleWrite]
    by_cases hb : buffer = []
    · rw [if_pos hb]
      exact .pure _
    · have hpos : 0 < buffer.length := List.length_pos_iff.mpr hb
      rw [if_neg hb]
      refine (Keeps.op trivial).bind fun ok => ?_
      cases ok with
      | false => exact .pure _
      | true => exact ih (buffer.drop 64).length (by simp; omega) _ _ rfl

/-- Erasing a page and writing it anew. -/
theorem rewritePage_keeps {α : Type} {address : Nat} {page : Bytes} {e : α} {k : Dev α}
    (hk : k.Keeps Op.Local f) :
    (do
      if (← flashSimpleErasePage address) ≠ 0 then pure e else do
      if (← flashSimpleWrite address page) ≠ 0 then pure e else k : Dev α).Keeps
        Op.Local f := by
  refine (flashSimpleErasePage_keeps address).bind fun rc => ?_
  split
  · exact .pure e
  refine (flashSimpleWrite_keeps address page).bind fun rc => ?_
  split
  · exact .pure e
  · exact hk

theorem erasePages_keeps (addresses : List Nat) :
    (erasePages addresses).Keeps Op.Local f := by
  induction addresses with
  | nil => exact .pure _
  | cons address addresses ih =>
    rw [erasePages]
    refine (flashSimpleErasePage_keeps address).bind fun rc => ?_
    split
    · exact .pure _
    · exact ih

theorem send_keeps (cmd : MsgType) (payload : Bytes) :
    (Dev.send .control cmd payload).Keeps Op.Local f :=
  .op trivial

theorem reject_keeps (msg : String) : (reject msg).Keeps Op.Local f :=
  (send_keeps _ _).bind fun _ => .pure _

theorem generateNonce_keeps (n : Nat) : (securityGenerateNonce n).Keeps Op.Local f := by
  rw [securityGenerateNonce]
  split
  · exact .pure _
  · exact .op trivial

end

/-! ## The PIN hash -/

section

variable {fw : Firmware}

/-- A handler that keeps the PIN hash. -/
abbrev Dev.KeepsPin {α : Type} (h : Dev α) : Prop := h.Keeps (fun _ => True) Ram.gPinHash

/-- One that does not use UART1 either. -/
abbrev Dev.KeepsPinLocal {α : Type} (h : Dev α) : Prop := h.Keeps Op.Local Ram.gPinHash

theorem Dev.KeepsPinLocal.keepsPin {α : Type} {h : Dev α} (hh : h.KeepsPinLocal) : h.KeepsPin :=
  hh.weaken fun _ _ => trivial

theorem writePinState_keepsPin : writePinState.KeepsPinLocal :=
  Keeps.get.bind fun _ => rewritePage_keeps (.pure 0)

theorem checkPin_keepsPin (pin : Bytes) : (checkPin fw pin).KeepsPinLocal := by
  refine Keeps.get.bind fun ram => ?_
  split
  · exact .pure _
  split
  · exact .pure _
  split
  · split
    · exact (Keeps.modify fun _ => by rfl).bind fun _ => writePinState_keepsPin.bind fun _ => .pure _
    · exact .pure _
  · exact (Keeps.modify fun _ => by rfl).bind fun _ => writePinState_keepsPin.bind fun _ => .pure _

theorem pinGate_keepsPin (pin : Bytes) : (pinGate fw pin).KeepsPinLocal := by
  rw [pinGate, if_neg (by decide)]
  refine (checkPin_keepsPin pin).bind fun ok => ?_
  split
  · exact .pure _
  · split <;> exact reject_keeps _

theorem setNameEntry_keepsPin (slot : UInt8) (entry : NameEntry) :
    (setNameEntry slot entry).KeepsPinLocal := by
  rw [setNameEntry]
  split
  · exact .pure _
  · refine (Keeps.modify fun _ => by rfl).bind fun _ => Keeps.get.bind fun _ => ?_
    exact rewritePage_keeps (.pure 0)

theorem commitFatEntry_keepsPin (slot : Slot) (entry : FatEntry) :
    (commitFatEntry slot entry).KeepsPinLocal :=
  Keeps.get.bind fun _ => rewritePage_keeps ((Keeps.modify fun _ => by rfl).bind fun _ => .pure _)

theorem blobWriteChunks_keepsPin (masterKey : Key) (nonce : Nonce) (aad : Bytes) (flashAddr : Nat)
    (rest : Bytes) (processed : Nat) (chunkIdx : UInt32) (shaCtx : Bytes) :
    (blobWriteChunks fw masterKey nonce aad flashAddr rest processed chunkIdx shaCtx).KeepsPinLocal := by
  induction hn : rest.length using Nat.strong_induction_on
    generalizing rest processed chunkIdx shaCtx with
  | _ n ih =>
    rw [blobWriteChunks]
    by_cases hrest : rest = []
    · rw [if_pos hrest]
      exact .pure _
    have hpos : 0 < rest.length := List.length_pos_iff.mpr hrest
    rw [if_neg hrest]
    dsimp only
    split
    · exact .pure _
    refine (flashSimpleWrite_keeps _ _).bind fun rc => ?_
    split
    · exact .pure _
    refine (flashSimpleWrite_keeps _ _).bind fun rc => ?_
    split
    · exact .pure _
    · exact ih (rest.drop chunkSize).length (by simp [chunkSize]; omega) _ _ _ _ rfl

theorem blobWriteRecord_keepsPin (slot : Slot) (data : Bytes) (uuid : Vector UInt8 16)
    (masterKey : Key) (header : Header) :
    (blobWriteRecord fw slot data uuid masterKey header).KeepsPinLocal := by
  refine (Keeps.modify fun _ => by rfl).bind fun _ => (erasePages_keeps _).bind fun rc => ?_
  split
  · exact .pure _
  refine (blobWriteChunks_keepsPin _ _ _ _ _ _ _ _).bind fun r => ?_
  split
  · exact .pure _
  refine (flashSimpleWrite_keeps _ _).bind fun rc => ?_
  split
  · exact .pure _
  · exact commitFatEntry_keepsPin _ _

theorem blobWrite_keepsPin (slot : UInt8) (data : Bytes) (uuid : Vector UInt8 16)
    (ownerPinHash : Digest) (groupMask : UInt32) :
    (blobWrite fw slot data uuid ownerPinHash groupMask).KeepsPinLocal := by
  rw [blobWrite]
  split
  · exact .pure _
  refine Keeps.get.bind fun ram => ?_
  split
  · exact .pure _
  split
  · exact .pure _
  split
  · exact .pure _
  refine (generateNonce_keeps 12).bind fun nonce => ?_
  split
  · exact .pure _
  · exact blobWriteRecord_keepsPin _ _ _ _ _

theorem storeFile_keepsPin (slot : UInt8) (name : Vector UInt8 32) (groupId : UInt16)
    (uuid : Vector UInt8 16) (contents pin : Bytes) :
    (storeFile fw slot name groupId uuid contents pin).KeepsPinLocal := by
  rw [storeFile]
  split
  · exact reject_keeps _
  refine (setNameEntry_keepsPin _ _).bind fun rc => ?_
  split
  · exact reject_keeps _
  refine (blobWrite_keepsPin _ _ _ _ _).bind fun rc => ?_
  split
  · exact (setNameEntry_keepsPin _ _).bind fun _ => reject_keeps _
  · exact .pure _

/-- A command that checks the length of its packet, then the PIN. -/
theorem gated_keeps {P : Op → Prop} (hP : ∀ o, o.Local → P o) {pktLen n : UInt16} {msg : String}
    {pin : Bytes} {k : Dev Int} (hk : k.Keeps P Ram.gPinHash) :
    (if pktLen < n then reject msg else do
      if (← pinGate fw pin) ≠ 0 then pure (-1) else k : Dev Int).Keeps P Ram.gPinHash := by
  split
  · exact (reject_keeps msg).weaken hP
  refine ((pinGate_keepsPin pin).weaken hP).bind fun rc => ?_
  split
  · exact .pure _
  · exact hk

theorem write_keepsPin (pktLen : UInt16) (buf : Mem) : (write fw pktLen buf).KeepsPinLocal := by
  refine gated_keeps (fun _ h => h) ?_
  rw [writeChecked]
  split
  · exact reject_keeps _
  split
  · exact reject_keeps _
  refine (storeFile_keepsPin _ _ _ _ _ _).bind fun rc => ?_
  split
  · exact .pure _
  · exact (send_keeps _ _).bind fun _ => .pure _

theorem storeReceivedBlob_keepsPin (slot : UInt8) (uuid : Vector UInt8 16) (file : File)
    (pin : Bytes) : (storeReceivedBlob fw slot uuid file pin).KeepsPinLocal := by
  rw [storeReceivedBlob]
  split
  · exact reject_keeps _
  split
  · exact reject_keeps _
  · exact storeFile_keepsPin _ _ _ _ _ _

theorem receive_keepsPin (pktLen : UInt16) (buf : Mem) : (receive fw pktLen buf).KeepsPin := by
  have hreject : ∀ msg, (reject msg).KeepsPin := fun msg =>
    (reject_keeps msg).weaken fun _ _ => trivial
  have hnonce : (securityGenerateNonce 4).KeepsPin :=
    (generateNonce_keeps 4).weaken fun _ _ => trivial
  refine gated_keeps (fun _ _ => trivial) (hnonce.bind fun nonce => ?_)
  split
  · exact hreject _
  refine (Keeps.op trivial).bind fun rc => ?_
  split
  · exact hreject _
  refine (Keeps.op trivial).bind fun r => ?_
  split
  · exact hreject _
  dsimp only
  split
  · exact hreject _
  split
  · exact hreject _
  split
  · exact hreject _
  rw [receiveProof]
  split
  · exact hreject _
  refine (Keeps.op trivial).bind fun rc => ?_
  split
  · exact hreject _
  refine (Keeps.op trivial).bind fun r => ?_
  split
  · exact hreject _
  split
  · exact hreject _
  split
  · exact hreject _
  refine (storeReceivedBlob_keepsPin _ _ _ _).keepsPin.bind fun rc => ?_
  split
  · exact .pure _
  · exact (Keeps.op trivial).bind fun _ => .pure _

theorem readSlot_keepsPin (slot : Slot) (pinHash : Digest) : (readSlot fw slot pinHash).KeepsPinLocal := by
  refine Keeps.update trivial (fun ram m => ?_) fun ram m => ?_
  · obtain ⟨st, aad, hram⟩ := (@blobReadAll_reads fw m ram slot pinHash 0xFFFFFFFF
      (Mem.write (fun _ => 0) 0 (ram.gNameTable slot).name.toList) maxNameSize).ram
    rw [hram]
  · split
    · exact reject_keeps _
    · exact (send_keeps _ _).bind fun _ => .pure _

theorem read_keepsPin (pktLen : UInt16) (buf : Mem) : (read fw pktLen buf).KeepsPinLocal := by
  rw [read_eq]
  refine gated_keeps (fun _ h => h) (Keeps.get.bind fun ram => ?_)
  split
  · exact reject_keeps _
  split
  · exact reject_keeps _
  split
  · exact reject_keeps _
  · exact readSlot_keepsPin _ _

theorem list_keepsPin (pktLen : UInt16) (buf : Mem) : (list fw pktLen buf).KeepsPinLocal :=
  gated_keeps (fun _ h => h) (Keeps.get.bind fun _ => (send_keeps _ _).bind fun _ => .pure _)

theorem interrogate_keepsPin (pktLen : UInt16) (buf : Mem) :
    (interrogate fw pktLen buf).KeepsPin := by
  have hreject : ∀ msg, (reject msg).KeepsPin := fun msg =>
    (reject_keeps msg).weaken fun _ _ => trivial
  have hnonce : (securityGenerateNonce 4).KeepsPin :=
    (generateNonce_keeps 4).weaken fun _ _ => trivial
  refine gated_keeps (fun _ _ => trivial) (hnonce.bind fun nonce => ?_)
  split
  · exact hreject _
  refine (Keeps.op trivial).bind fun rc => ?_
  split
  · exact hreject _
  refine (Keeps.op trivial).bind fun r => ?_
  split
  · exact hreject _
  dsimp only
  split
  · exact hreject _
  split
  · exact hreject _
  refine (Keeps.op trivial).bind fun rc => ?_
  split
  · exact hreject _
  refine (Keeps.op trivial).bind fun r => ?_
  split
  · exact hreject _
  split
  · exact hreject _
  · exact (Keeps.op trivial).bind fun _ => .pure _

end

/-! ## Listening -/

/-- What the host can be told by a run of `listen`. -/
def listenPackets : List Packet :=
  [⟨.control, listenMsg, []⟩, errorPacket "No request on transfer UART\n",
    errorPacket "Bad message type", errorPacket "File not found\n",
    errorPacket "Transfer write failed\n", errorPacket "Failed to read file\n",
    errorPacket "Transfer payload too large\n"]

/-- The operations of `listen`: no flash commands, and fixed packets to the host. -/
def Op.Listens : Op → Prop
  | .erase _ | .program _ _ => False
  | .send .control cmd payload => ⟨.control, cmd, payload⟩ ∈ listenPackets
  | _ => True

/-- The files and the PIN state in RAM. -/
def Ram.files (ram : Ram) : (Slot → FatEntry) × (Slot → NameEntry) × Digest × UInt32 :=
  (ram.gFat, ram.gNameTable, ram.gPinHash, ram.gFailCount)

section

variable {fw : Firmware}

/-- A handler that may be part of `listen`. -/
abbrev Dev.KeepsFiles {α : Type} (h : Dev α) : Prop := h.Keeps Op.Listens Ram.files

/-- The operation draws a nonce. -/
def Op.Draws : Op → Prop
  | .nonce _ => True
  | _ => False

/-- A part of `listen` without the draw of its nonce. -/
abbrev Dev.KeepsDrawn {α : Type} (h : Dev α) : Prop :=
  h.Keeps (fun o => o.Listens ∧ ¬ o.Draws) Ram.files

theorem Dev.KeepsDrawn.keepsFiles {α : Type} {h : Dev α} (hh : h.KeepsDrawn) : h.KeepsFiles :=
  hh.weaken fun _ ho => ho.1

theorem reject_keepsDrawn {msg : String} (h : errorPacket msg ∈ listenPackets) :
    (reject msg).KeepsDrawn :=
  (Keeps.op ⟨h, id⟩).bind fun _ => .pure _

theorem deny_keepsDrawn (msg : String) : (deny msg).KeepsDrawn :=
  (Keeps.op ⟨trivial, id⟩).bind fun _ => .pure _

theorem denyAndReject_keepsDrawn {msg hostMsg : String} (h : errorPacket hostMsg ∈ listenPackets) :
    (denyAndReject msg hostMsg).KeepsDrawn :=
  (Keeps.op ⟨trivial, id⟩).bind fun _ => reject_keepsDrawn h

theorem listenDone_keepsDrawn : listenDone.KeepsDrawn := by
  refine Keeps.bind (.op ⟨?_, id⟩) fun _ => .pure _
  exact List.mem_cons_self

theorem transfer_keepsDrawn (cmd : MsgType) (payload : Bytes) :
    (Dev.send .transfer cmd payload).KeepsDrawn :=
  .op ⟨trivial, id⟩

theorem recv_keepsDrawn (capacity : Nat) : (Dev.recv .transfer capacity).KeepsDrawn :=
  .op ⟨trivial, id⟩

theorem generateNonce_keepsFiles (n : Nat) : (securityGenerateNonce n).KeepsFiles := by
  rw [securityGenerateNonce]
  split
  · exact .pure _
  · exact .op trivial

theorem checkReplay_keepsDrawn (nr nt : UInt32) (groupId : UInt16) (op : UInt8) :
    (securitySecureUartCheckAndUpdateReplay nr nt groupId op).KeepsDrawn := by
  refine Keeps.get.bind fun ram => ?_
  split
  · exact .pure _
  · exact (Keeps.modify fun _ => by rfl).bind fun _ => .pure _

/-- `listen` from its challenge for a list on. -/
theorem challengeList_keepsDrawn (challenge : InterrogateChallenge) :
    (do
      let rc ← Dev.send .transfer interrogateMsg (InterrogateChallenge.codec.encode challenge)
      if rc ≠ .ok then pure (-1)
      else Dev.recv .transfer InterrogateProof.codec.size >>= takeInterrogateProof fw challenge :
        Dev Int).KeepsDrawn := by
  refine (transfer_keepsDrawn _ _).bind fun rc => ?_
  split
  · exact .pure _
  refine (recv_keepsDrawn _).bind fun r => ?_
  unfold takeInterrogateProof
  split
  · exact deny_keepsDrawn _
  dsimp only
  split
  · exact deny_keepsDrawn _
  split
  · exact deny_keepsDrawn _
  split
  · exact deny_keepsDrawn _
  refine (checkReplay_keepsDrawn _ _ _ _).bind fun fresh => ?_
  split
  · exact deny_keepsDrawn _
  refine Keeps.get.bind fun ram => (transfer_keepsDrawn _ _).bind fun rc => ?_
  split
  · exact reject_keepsDrawn (by decide)
  · exact listenDone_keepsDrawn

theorem listenInterrogate_keepsFiles (payload : Bytes) :
    (listenInterrogate fw payload).KeepsFiles := by
  rw [listenInterrogate]
  split
  · exact (deny_keepsDrawn _).keepsFiles
  refine (generateNonce_keepsFiles 4).bind fun nonce => ?_
  split
  · exact (deny_keepsDrawn _).keepsFiles
  · exact (challengeList_keepsDrawn _).keepsFiles

theorem listenRelease_keepsDrawn (slot : Slot) : (listenRelease fw slot).KeepsDrawn := by
  refine Keeps.update ⟨trivial, id⟩ (fun ram m => ?_) fun ram m => ?_
  · obtain ⟨st, aad, hram⟩ := (@blobReadAllGroupMask_reads fw m ram slot
      (ram.gNameTable slot).groupId.toUInt32 (fun _ => 0) 0).ram
    rw [hram]
    rfl
  · split
    · exact denyAndReject_keepsDrawn (by decide)
    split
    · exact denyAndReject_keepsDrawn (by decide)
    refine (transfer_keepsDrawn _ _).bind fun rc => ?_
    split
    · exact reject_keepsDrawn (by decide)
    · exact listenDone_keepsDrawn

/-- `listen` from its challenge for a file on. -/
theorem challengeFile_keepsDrawn (challenge : ReceiveChallenge) (slot : Slot) :
    (do
      let rc ← Dev.send .transfer receiveMsg (ReceiveChallenge.codec.encode challenge)
      if rc ≠ .ok then reject "Transfer write failed\n"
      else Dev.recv .transfer ReceiveProof.codec.size >>= takeReceiveProof fw challenge slot :
        Dev Int).KeepsDrawn := by
  refine (transfer_keepsDrawn _ _).bind fun rc => ?_
  split
  · exact reject_keepsDrawn (by decide)
  refine (recv_keepsDrawn _).bind fun r => ?_
  unfold takeReceiveProof
  split
  · exact deny_keepsDrawn _
  dsimp only
  split
  · exact deny_keepsDrawn _
  split
  · exact deny_keepsDrawn _
  split
  · exact deny_keepsDrawn _
  refine (checkReplay_keepsDrawn _ _ _ _).bind fun fresh => ?_
  split
  · exact deny_keepsDrawn _
  · exact listenRelease_keepsDrawn _

theorem listenReceive_keepsFiles (payload : Bytes) : (listenReceive fw payload).KeepsFiles := by
  rw [listenReceive]
  split
  · exact (deny_keepsDrawn _).keepsFiles
  refine Keeps.get.bind fun ram => ?_
  split
  · exact (denyAndReject_keepsDrawn (by decide)).keepsFiles
  refine (generateNonce_keepsFiles 4).bind fun nonce => ?_
  split
  · exact (deny_keepsDrawn _).keepsFiles
  · exact (challengeFile_keepsDrawn _ _).keepsFiles

/-- `listen` gives no flash command, keeps the tables and the PIN state, and tells the host
    nothing of the files. -/
theorem listen_keepsFiles : (listen fw).KeepsFiles := by
  refine (recv_keepsDrawn _).keepsFiles.bind fun r => ?_
  split
  · exact (reject_keepsDrawn (by decide)).keepsFiles
  split
  · exact listenInterrogate_keepsFiles _
  split
  · exact listenReceive_keepsFiles _
  · exact (reject_keepsDrawn (by decide)).keepsFiles

end

/-- The handlers of a release build keep the PIN hash. -/
theorem handle_keepsPin {fw : Firmware} {cmd : MsgType} {h : Handler}
    (hcmd : releaseHandler cmd = some h) (pktLen : UInt16) (buf : Mem) :
    (handle fw h pktLen buf).KeepsPin := by
  have hlisten : (listen fw).KeepsPin := fun ram => (listen_keepsFiles ram).mono
    (fun _ _ => trivial) fun _ hfiles => congrArg (fun files => files.2.2.1) hfiles
  cases h with
  | list => exact (list_keepsPin _ _).keepsPin
  | read => exact (read_keepsPin _ _).keepsPin
  | write => exact (write_keepsPin _ _).keepsPin
  | receive => exact receive_keepsPin _ _
  | interrogate => exact interrogate_keepsPin _ _
  | listen => exact hlisten
  | deleteFile | changePin | digest =>
    rw [releaseHandler] at hcmd
    repeat' split at hcmd
    all_goals cases hcmd
