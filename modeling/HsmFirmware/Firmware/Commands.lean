-- SUMMARY: commands.c: the name table and the command handlers of the device.
import HsmFirmware.Firmware.Security
import HsmFirmware.Firmware.SecureBlobStore

/-!
# Commands

A handler gets the length of the packet and the memory from the start of the
command buffer on. It returns 0 or the status of its last packet, and -1 after
an error.
-/

/-- `NAME_IN_USE_TAG`. -/
def nameInUseTag : UInt8 := 0x01
/-- `WRITE_CMD_MIN_LEN`: a write command without its contents. -/
def writeCmdMinLen : UInt16 := 59
/-- `MAX_MSG_SIZE`, the size of `write_command_t`. -/
def maxMsgSize : Nat := 8251
/-- `FILE_IN_USE`. -/
def fileInUse : UInt32 := 0xDEADBEEF

/-! ## Name table -/

def loadNameTable : Dev Unit := do
  let flash ← Dev.mapped
  modify fun ram =>
    { ram with
      gNameTable :=
        (NameEntry.codec.array maxSlots).decode (flash.read nameTableAddr (64 * maxSlots)) }

/-- The name page: the table, then `0xFF`. -/
def namePage (table : Slot → NameEntry) : Bytes :=
  NameEntry.codec.table table ++ List.replicate (pageSize - 64 * maxSlots) 0xFF

def flushNameTable : Dev Int := do
  let page := namePage (← get).gNameTable
  if (← flashSimpleErasePage nameTableAddr) ≠ 0 then pure (-1) else do
  if (← flashSimpleWrite nameTableAddr page) ≠ 0 then pure (-1) else pure 0

/-- A name has a byte for the NUL behind 31 others. -/
theorem lastNameByte : 31 < 32 := by decide

/-- The entry `save_name_entry` builds: the last byte of the name is forced to NUL. -/
def NameEntry.named (name : Vector UInt8 32) (groupId : UInt16) : NameEntry where
  name := name.set 31 0 lastNameByte
  groupId := groupId
  inUse := nameInUseTag
  reserved := .replicate 29 0xFF

/-- Change the RAM entry of a slot, then flush the table. -/
def setNameEntry (slot : UInt8) (entry : NameEntry) : Dev Int :=
  match slotIsValid slot with
  | none => pure (-1)
  | some slot => do
    modify fun ram => { ram with gNameTable := Function.update ram.gNameTable slot entry }
    flushNameTable

def saveNameEntry (slot : UInt8) (name : Vector UInt8 32) (groupId : UInt16) : Dev Int :=
  setNameEntry slot (.named name groupId)

def clearNameEntry (slot : UInt8) : Dev Int :=
  setNameEntry slot .erased

/-- Occupied in both the blob FAT and the name table. -/
def Ram.occupied (ram : Ram) (slot : Slot) : Bool :=
  (ram.gNameTable slot).inUse == nameInUseTag && !(ram.gFat slot).isEmpty

/-- `slot_occupied`: the slot number, when it is one of an occupied slot. -/
def slotOccupied (ram : Ram) (slot : UInt8) : Option Slot :=
  (slotIsValid slot).filter fun slot => ram.occupied slot

def initCommands : Dev Int := do
  if (← blobStoreInit) ≠ .ok then pure (-1) else do
  loadNameTable
  pure 0

section
variable (fw : Firmware)

/-! ## Storing -/

/-- The common part of `write` and `store_received_blob`: name entry, then blob, and
    the name entry cleared again if the blob is refused. -/
def storeFile (slot : UInt8) (name : Vector UInt8 32) (groupId : UInt16)
    (uuid : Vector UInt8 16) (contents pin : Bytes) : Dev Int :=
  match getPinHash fw pin with
  | none => reject "Crypto error\n"
  | some pinHash => do
    if (← saveNameEntry slot name groupId) ≠ 0 then reject "Name store failed\n" else do
    let rc ← blobWrite fw slot contents uuid pinHash groupId.toUInt32
    if rc ≠ .ok then do
      let _ ← clearNameEntry slot
      reject "Store failed\n"
    else pure 0

def storeReceivedBlob (slot : UInt8) (uuid : Vector UInt8 16) (file : File) (pin : Bytes) :
    Dev Int :=
  if maxContentsSize < file.contentsLen.toNat then reject "Transfer payload too large\n"
  else if !validatePermission fw file.groupId .permReceive then reject "Invalid permission\n"
  else
    storeFile fw slot file.name file.groupId uuid
      (file.contents.toList.take file.contentsLen.toNat) pin

/-- `write_command_t`. The contents are the bytes `contents_len` announces. -/
structure WriteCommand where
  pin : Bytes
  slot : UInt8
  groupId : UInt16
  name : Vector UInt8 32
  uuid : Vector UInt8 16
  contentsLen : UInt16
  contents : Bytes

/-- The buffer read as a `write_command_t`. -/
def WriteCommand.ofBuf (buf : Mem) : WriteCommand where
  pin := buf.read 0 pinLength
  slot := buf 6
  groupId := Codec.u16.decode (buf.read 7 2)
  name := (Codec.bytes 32).decode (buf.read 9 32)
  uuid := (Codec.bytes 16).decode (buf.read 41 16)
  contentsLen := Codec.u16.decode (buf.read 57 2)
  contents := buf.read 59 (Codec.u16.decode (buf.read 57 2)).toNat

/-- `write` behind its PIN and checks. A file of length zero takes a branch of its own in
    the source, which does the same with no contents. -/
def writeStore (cmd : WriteCommand) : Dev Int := do
  let rc ← storeFile fw cmd.slot cmd.name cmd.groupId cmd.uuid cmd.contents cmd.pin
  if rc ≠ 0 then pure rc else do
  let _ ← Dev.send .control writeMsg []
  pure 0

/-- `write` behind its PIN check. -/
def writeChecked (pktLen : UInt16) (cmd : WriteCommand) : Dev Int :=
  if !validatePermission fw cmd.groupId .permWrite then reject "Invalid permission\n"
  else if pktLen - writeCmdMinLen < cmd.contentsLen then reject "Packet too short for contents\n"
  else writeStore fw cmd

def write (pktLen : UInt16) (buf : Mem) : Dev Int := do
  let cmd := WriteCommand.ofBuf buf
  if pktLen < writeCmdMinLen then reject "Packet too short\n" else do
  if (← pinGate fw cmd.pin) ≠ 0 then pure (-1) else
  writeChecked fw pktLen cmd

/-! ## Reading, listing, deleting -/

/-- `read` behind its checks. The name and the plaintext share one buffer; its old
    contents are overwritten as far as it is sent. -/
def readSlot (slot : Slot) (pinHash : Digest) : Dev Int := do
  let ram ← get
  let readBuf : Mem := Mem.write (fun _ => 0) 0 (ram.gNameTable slot).name.toList
  let r := blobReadAll fw (← Dev.mapped) ram (UInt8.ofNat slot) pinHash 0xFFFFFFFF readBuf
    maxNameSize maxContentsSize
  set r.ram
  if r.status ≠ .ok then reject "Read failed\n" else do
  let rc ← Dev.send .control readMsg (r.out.read 0 (maxNameSize + r.outLen))
  pure rc.toInt

/-- `read` behind its PIN check. -/
def readChecked (slotNum : UInt8) (pin : Bytes) : Dev Int := do
  let ram ← get
  match slotOccupied ram slotNum with
  | none => reject "File not found\n"
  | some slot =>
    if !validatePermission fw (ram.gNameTable slot).groupId .permRead then
      reject "Invalid permission\n"
    else
      match getPinHash fw pin with
      | none => reject "Crypto error\n"
      | some pinHash => readSlot fw slot pinHash

def read (pktLen : UInt16) (buf : Mem) : Dev Int := do
  if pktLen < 7 then reject "Packet too short\n" else do
  let pin := buf.read 0 pinLength
  if (← pinGate fw pin) ≠ 0 then pure (-1) else
  readChecked fw (buf 6) pin

/-- The metadata of one slot. -/
def fileMetadata (ram : Ram) (slot : Slot) : FileMetadata :=
  ⟨UInt8.ofNat slot, (ram.gNameTable slot).groupId, (ram.gNameTable slot).name⟩

/-- `generate_list_files`. -/
def generateListFiles (ram : Ram) : List FileMetadata :=
  ((List.finRange maxSlots).filter fun slot => ram.occupied slot).map (fileMetadata ram)

/-- The first `LIST_PKT_LEN` bytes of a `list_response_t`. -/
def listResponse (files : List FileMetadata) : Bytes :=
  Codec.u32.encode (UInt32.ofNat files.length) ++ (files.map FileMetadata.codec.encode).flatten

def list (pktLen : UInt16) (buf : Mem) : Dev Int := do
  if pktLen < 6 then reject "Packet too short\n" else do
  if (← pinGate fw (buf.read 0 pinLength)) ≠ 0 then pure (-1) else do
  let _ ← Dev.send .control listMsg (listResponse (generateListFiles (← get)))
  pure 0

/-- `delete_file` behind its checks: FAT first, then the name table. -/
def deleteSlot (slot : UInt8) : Dev Int := do
  if (← blobDelete slot) ≠ .ok then reject "Delete failed\n" else do
  if (← clearNameEntry slot) ≠ 0 then reject "Name clear failed\n" else do
  let _ ← Dev.send .control deleteFileMsg []
  pure 0

/-- `delete_file` behind its PIN check. -/
def deleteChecked (slot : UInt8) : Dev Int := do
  if (slotOccupied (← get) slot).isNone then reject "File not found\n" else deleteSlot slot

def deleteFile (pktLen : UInt16) (buf : Mem) : Dev Int := do
  if pktLen < 7 then reject "Packet too short\n" else do
  if (← pinGate fw (buf.read 0 pinLength)) ≠ 0 then pure (-1) else
  deleteChecked (buf 6)

/-! ## Maintenance -/

def changePin (pktLen : UInt16) (buf : Mem) : Dev Int := do
  if pktLen < 12 then reject "Packet too short\n"
  else if pinIsLocked then reject "HSM locked\n" else do
  if (← pinChange fw (buf.read 0 pinLength) (buf.read 6 pinLength)) ≠ 0 then
    if pinIsLocked then reject "HSM locked\n" else reject "Invalid pin\n"
  else do
  let _ ← Dev.send .control changePinMsg []
  pure 0

/-- `digest` of an occupied slot: 16 bytes that name the device, 16 that name the contents. -/
def digestSlot (slot : Slot) : Dev Int :=
  match securityGetRootSecret fw with
  | none => reject "Crypto error\n"
  | some root => do
    let fullHmac := fw.prim.hmac root.toList (ascii "ectf_boot_flag_v1")
    let ram ← get
    let r := blobReadAllGroupMask fw (← Dev.mapped) ram (UInt8.ofNat slot)
      (ram.gNameTable slot).groupId.toUInt32 (fun _ => 0) 0 maxContentsSize
    set r.ram
    if r.status ≠ .ok then reject "Read failed\n" else do
    let sha256Out := fw.prim.sha256 (r.out.read 0 r.outLen)
    let rc ← Dev.send .control digestMsg (fullHmac.toList.take 16 ++ sha256Out.toList.take 16)
    pure rc.toInt

def digest (pktLen : UInt16) (buf : Mem) : Dev Int := do
  -- An empty packet asks for slot 0.
  let slotNum := if 1 ≤ pktLen then buf 0 else 0
  match slotOccupied (← get) slotNum with
  | none => reject "File not found\n"
  | some slot => digestSlot fw slot

/-! ## Receiving -/

/-- `receive` from the challenge on: sign it, and store what comes back. -/
def receiveProof (challenge : ReceiveChallenge) (writeSlot : UInt8) (pin : Bytes) : Dev Int :=
  match securityGetRootSecret fw with
  | none => reject "Crypto error\n"
  | some root => do
    let proof : ReceiveProof :=
      { slot := challenge.slot
        groupId := challenge.groupId
        requesterNonce := challenge.requesterNonce
        targetNonce := challenge.targetNonce
        proof := secureCryptoReceiveProofSign fw.prim root challenge.groupId
          (ReceiveChallenge.codec.encode challenge) }
    let rc ← Dev.send .transfer receiveMsg (ReceiveProof.codec.encode proof)
    if rc ≠ .ok then reject "No response from target HSM\n" else do
    match ← Dev.recv .transfer ReceiveResponse.codec.size with
    | .failed _ => reject "No response from target HSM\n"
    | .packet cmd payload =>
      if cmd = errorMsg then reject "Could not import file\n"
      else if cmd ≠ receiveMsg ∨ payload.length ≠ ReceiveResponse.codec.size then
        reject "Opcode mismatch\n"
      else do
        let resp := ReceiveResponse.codec.decode payload
        if (← storeReceivedBlob fw writeSlot resp.uuid resp.file pin) ≠ 0 then pure (-1) else do
        let _ ← Dev.send .control receiveMsg []
        pure 0

/-- `receive` behind its PIN check: the request, and the challenge that answers it. -/
def receiveRequest (readSlot writeSlot : UInt8) (pin : Bytes) : Dev Int := do
  match ← securityGenerateNonce 4 with
  | none => reject "Nonce generation failed\n"
  | some nonce => do
    let request : ReceiveRequest := ⟨readSlot, Codec.u32.decode nonce⟩
    let rc ← Dev.send .transfer receiveMsg (ReceiveRequest.codec.encode request)
    if rc ≠ .ok then reject "No response from target HSM\n" else do
    match ← Dev.recv .transfer ReceiveChallenge.codec.size with
    | .failed _ => reject "No response from target HSM\n"
    | .packet cmd payload =>
      let challenge := ReceiveChallenge.codec.decode payload
      if cmd = errorMsg then reject "Could not import file\n"
      else if cmd ≠ receiveMsg ∨ payload.length ≠ ReceiveChallenge.codec.size ∨
          challenge.slot ≠ request.slot ∨
          challenge.requesterNonce ≠ request.requesterNonce then
        reject "Opcode mismatch\n"
      else if !validatePermission fw challenge.groupId .permReceive then
        reject "Invalid permission\n"
      else receiveProof fw challenge writeSlot pin

def receive (pktLen : UInt16) (buf : Mem) : Dev Int := do
  if pktLen < 8 then reject "Packet too short\n" else do
  let pin := buf.read 0 pinLength
  if (← pinGate fw pin) ≠ 0 then pure (-1) else
  receiveRequest fw (buf 6) (buf 7) pin

/-! ## Interrogating -/

/-- What is signed for one group: the challenge, then the group. -/
def interrogateProofMessage (challenge : InterrogateChallenge) (groupId : UInt16) : Bytes :=
  InterrogateChallenge.codec.encode challenge ++ Codec.u16.encode groupId

/-- One signed proof for every row of the permission table that may receive. -/
def interrogateGroupProofs (root : Key) (challenge : InterrogateChallenge) :
    List InterrogateGroupProof :=
  ((List.finRange 8).filter fun i => (fw.globalPermissions i).receive).map fun i =>
    let groupId := (fw.globalPermissions i).groupId
    ⟨groupId, secureCryptoReceiveProofSign fw.prim root groupId
      (interrogateProofMessage challenge groupId)⟩

/-- The proofs in front of zeroed entries. -/
def interrogateProof (challenge : InterrogateChallenge) (proofs : List InterrogateGroupProof) :
    InterrogateProof where
  requesterNonce := challenge.requesterNonce
  targetNonce := challenge.targetNonce
  proofCount := UInt8.ofNat proofs.length
  proofs i := proofs.getD i ⟨0, .replicate 32 0⟩

/-- The size of `list_response_t`. -/
def listResponseSize : Nat := 284

/-- `interrogate` behind its PIN check. -/
def interrogateRequest : Dev Int := do
  match ← securityGenerateNonce 4 with
  | none => reject "Nonce generation failed\n"
  | some nonce => do
    let requesterNonce := Codec.u32.decode nonce
    let rc ← Dev.send .transfer interrogateMsg (interrogateRequestCodec.encode requesterNonce)
    if rc ≠ .ok then reject "No response from target HSM\n" else do
    match ← Dev.recv .transfer InterrogateChallenge.codec.size with
    | .failed _ => reject "No response from target HSM\n"
    | .packet cmd payload =>
      let challenge := InterrogateChallenge.codec.decode payload
      if cmd ≠ interrogateMsg ∨ payload.length ≠ InterrogateChallenge.codec.size ∨
          challenge.requesterNonce ≠ requesterNonce then
        reject "Opcode mismatch\n"
      else
        match securityGetRootSecret fw with
        | none => reject "Crypto error\n"
        | some root => do
          let proof := interrogateProof challenge (interrogateGroupProofs fw root challenge)
          let rc ← Dev.send .transfer interrogateMsg (InterrogateProof.codec.encode proof)
          if rc ≠ .ok then reject "No response from target HSM\n" else do
          match ← Dev.recv .transfer listResponseSize with
          | .failed _ => reject "No response from target HSM\n"
          | .packet cmd payload =>
            if cmd ≠ interrogateMsg ∨ listResponseSize < payload.length then
              reject "Opcode mismatch\n"
            else do
              let rc ← Dev.send .control interrogateMsg payload
              pure rc.toInt

def interrogate (pktLen : UInt16) (buf : Mem) : Dev Int := do
  if pktLen < 6 then reject "Packet too short\n" else do
  if (← pinGate fw (buf.read 0 pinLength)) ≠ 0 then pure (-1) else
  interrogateRequest fw

/-! ## Listening -/

/-- Send an error to the peer and return -1. -/
def deny (msg : String) : Dev Int := do
  let _ ← Dev.send .transfer errorMsg (ascii msg)
  pure (-1)

/-- Send an error to the peer and to the host, and return -1. -/
def denyAndReject (msg hostMsg : String) : Dev Int := do
  let _ ← Dev.send .transfer errorMsg (ascii msg)
  reject hostMsg

/-- The end of a successful `listen`. -/
def listenDone : Dev Int := do
  let _ ← Dev.send .control listenMsg []
  pure 0

/-- The groups of the proofs the peer sent, in order. -/
def InterrogateProof.groups (p : InterrogateProof) : List InterrogateGroupProof :=
  (List.ofFn p.proofs).take p.proofCount.toNat

/-- The occupied slots whose group is among those authorised. -/
def filteredFiles (ram : Ram) (groups : List UInt16) : List FileMetadata :=
  (generateListFiles ram).filter fun m => m.groupId ∈ groups

/-- `listen` after an `INTERROGATE_MSG`. -/
def listenInterrogate (payload : Bytes) : Dev Int := do
  if payload.length ≠ interrogateRequestCodec.size then deny "Interrogate denied" else
  match ← securityGenerateNonce 4 with
  | none => deny "Interrogate denied"
  | some nonce => do
    let challenge : InterrogateChallenge :=
      ⟨interrogateRequestCodec.decode payload, Codec.u32.decode nonce⟩
    let rc ← Dev.send .transfer interrogateMsg (InterrogateChallenge.codec.encode challenge)
    if rc ≠ .ok then pure (-1) else do
    match ← Dev.recv .transfer InterrogateProof.codec.size with
    | .failed _ => deny "Interrogate denied"
    | .packet cmd payload =>
      let proof := InterrogateProof.codec.decode payload
      if cmd ≠ interrogateMsg ∨ payload.length ≠ InterrogateProof.codec.size ∨
          8 < proof.proofCount ∨ proof.requesterNonce ≠ challenge.requesterNonce ∨
          proof.targetNonce ≠ challenge.targetNonce then
        deny "Interrogate denied"
      else
        match securityGetRootSecret fw with
        | none => deny "Interrogate denied"
        | some root => do
          if !proof.groups.all fun entry =>
              secureCryptoReceiveProofVerify fw.prim root entry.groupId
                (interrogateProofMessage challenge entry.groupId) entry.proof then
            deny "Interrogate denied"
          else do
          if !(← securitySecureUartCheckAndUpdateReplay challenge.requesterNonce
              challenge.targetNonce 0 interrogateMsg) then
            deny "Interrogate denied"
          else do
          let files := filteredFiles (← get) (proof.groups.map (·.groupId))
          let rc ← Dev.send .transfer interrogateMsg (listResponse files)
          if rc ≠ .ok then reject "Transfer write failed\n" else listenDone

/-- `listen` with a proof accepted: read the slot under the group mask and send it. The
    response buffer is zeroed, so that the contents are padded with zeros. -/
def listenRelease (slot : Slot) : Dev Int := do
  let ram ← get
  let group := (ram.gNameTable slot).groupId
  let r := blobReadAllGroupMask fw (← Dev.mapped) ram (UInt8.ofNat slot) group.toUInt32
    (fun _ => 0) 0 maxContentsSize
  set r.ram
  if r.status ≠ .ok then denyAndReject "Could not import file" "Failed to read file\n"
  else if maxContentsSize < r.outLen then
    denyAndReject "Could not import file" "Transfer payload too large\n"
  else do
    let resp : ReceiveResponse :=
      { uuid := (ram.gFat slot).uuid
        file :=
          { inUse := fileInUse
            groupId := group
            name := (ram.gNameTable slot).name.set 31 0 lastNameByte
            contentsLen := UInt16.ofNat r.outLen
            nonce := .replicate 12 0
            tag := .replicate 16 0
            contents := (Codec.bytes 8192).decode (r.out.read 0 8192) } }
    let rc ← Dev.send .transfer receiveMsg (ReceiveResponse.codec.encode resp)
    if rc ≠ .ok then reject "Transfer write failed\n" else listenDone

/-- `listen` after a `RECEIVE_MSG`. -/
def listenReceive (payload : Bytes) : Dev Int := do
  if payload.length ≠ ReceiveRequest.codec.size then deny "Could not import file" else do
  let command := ReceiveRequest.codec.decode payload
  let ram ← get
  match slotOccupied ram command.slot with
  | none => denyAndReject "Could not import file" "File not found\n"
  | some slot => do
    match ← securityGenerateNonce 4 with
    | none => deny "Could not import file"
    | some nonce => do
      let challenge : ReceiveChallenge :=
        ⟨command.slot, (ram.gNameTable slot).groupId, command.requesterNonce,
          Codec.u32.decode nonce⟩
      let rc ← Dev.send .transfer receiveMsg (ReceiveChallenge.codec.encode challenge)
      if rc ≠ .ok then reject "Transfer write failed\n" else do
      match ← Dev.recv .transfer ReceiveProof.codec.size with
      | .failed _ => deny "Could not import file"
      | .packet cmd payload =>
        let proof := ReceiveProof.codec.decode payload
        if cmd ≠ receiveMsg ∨ payload.length ≠ ReceiveProof.codec.size ∨
            proof.slot ≠ challenge.slot ∨ proof.groupId ≠ challenge.groupId ∨
            proof.requesterNonce ≠ challenge.requesterNonce ∨
            proof.targetNonce ≠ challenge.targetNonce then
          deny "Could not import file"
        else
          match securityGetRootSecret fw with
          | none => deny "Could not import file"
          | some root => do
            if !secureCryptoReceiveProofVerify fw.prim root proof.groupId
                (ReceiveChallenge.codec.encode challenge) proof.proof then
              deny "Could not import file"
            else do
            if !(← securitySecureUartCheckAndUpdateReplay proof.requesterNonce proof.targetNonce
                proof.groupId receiveMsg) then
              deny "Could not import file"
            else listenRelease fw slot

def listen : Dev Int := do
  match ← Dev.recv .transfer InterrogateProof.codec.size with
  | .failed _ => reject "No request on transfer UART\n"
  | .packet cmd payload =>
    if cmd = interrogateMsg then listenInterrogate fw payload
    else if cmd = receiveMsg then listenReceive fw payload
    else reject "Bad message type"

end
