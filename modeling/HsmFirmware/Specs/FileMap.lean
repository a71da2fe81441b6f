-- SUMMARY: What a device is for: a map from slots to files that answers write, read, list and delete for those who know the PIN.
import HsmFirmware.Library.Service
import HsmFirmware.Specs.Deletion

/-!
# The file map

To its host a device is a map from slots to files. A command is checked in the order of the
source (length, PIN, permission, slot); if a check fails it is refused, with a message and
without an effect. Nothing here knows of pages, records or keys.
-/

/-- A file as a reader gets it: it fits the buffer of `read`, its group is not 0, and its name ends
    in NUL. -/
structure KeptFile where
  name : Vector UInt8 32
  groupId : UInt16
  uuid : Vector UInt8 16
  contents : Bytes
  fits : contents.length ≤ maxContentsSize
  hasGroup : groupId ≠ 0
  terminated : name[31] = 0

/-- The files of a device. -/
abbrev FileMap := Slot → Option KeptFile

/-- What a device lets through: the PIN, and what may be done with the files of a group. -/
structure Policy where
  knows : Bytes → Bool
  permits : PermissionEnum → UInt16 → Bool

/-- A store of a file within the limits of `KeptFile`. -/
structure FileStore where
  command : StoreCommand
  fits : command.request.contents.length ≤ maxContentsSize
  hasGroup : command.request.groupId ≠ 0

/-- The file of a store. The last byte of its name is forced to NUL. -/
def FileStore.file (s : FileStore) : KeptFile where
  name := s.command.request.name.set 31 0 lastNameByte
  groupId := s.command.request.groupId
  uuid := s.command.request.uuid
  contents := s.command.request.contents
  fits := s.fits
  hasGroup := s.hasGroup
  terminated := Vector.getElem_set_self lastNameByte

/-- A request to a device. `store_received_blob` is one of the stores. -/
inductive FileRequest where
  | store (s : FileStore)
  | read (pktLen : UInt16) (buf : Mem)
  | list (pktLen : UInt16) (buf : Mem)
  | deleteFile (pktLen : UInt16) (buf : Mem)
  | reboot

namespace FileMap

/-- No file at all. -/
def empty : FileMap := fun _ => none

/-- A command that is refused. -/
def refuse (m : FileMap) (msg : String) : List Packet × FileMap := ([errorPacket msg], m)

/-- An answer for those who know the PIN. -/
def guarded (m : FileMap) (policy : Policy) (pin : Bytes) (answer : List Packet × FileMap) :
    List Packet × FileMap :=
  if policy.knows pin then answer else m.refuse "Invalid pin\n"

/-- The file of a slot number. -/
def lookup (m : FileMap) (slotNum : UInt8) : Option KeptFile := (slotIsValid slotNum).bind m

/-- The occupied slots in ascending order, with group and name. -/
def files (m : FileMap) : List FileMetadata :=
  (List.finRange maxSlots).filterMap fun slot =>
    (m slot).map fun f => ⟨UInt8.ofNat slot, f.groupId, f.name⟩

/-- Put a file in its slot. -/
def put (m : FileMap) (s : FileStore) (acknowledgement : List Packet) : List Packet × FileMap :=
  match slotIsValid s.command.request.slotNum with
  | none => m.refuse "Name store failed\n"
  | some slot => (acknowledgement, Function.update m slot (some s.file))

def store (m : FileMap) (policy : Policy) (s : FileStore) : List Packet × FileMap :=
  match s.command with
  | .byWrite pktLen buf =>
    let cmd := WriteCommand.ofBuf buf
    if pktLen < writeCmdMinLen then m.refuse "Packet too short\n"
    else m.guarded policy cmd.pin <|
      if !policy.permits .permWrite cmd.groupId then m.refuse "Invalid permission\n"
      else if pktLen - writeCmdMinLen < cmd.contentsLen then
        m.refuse "Packet too short for contents\n"
      else m.put s [⟨.control, writeMsg, []⟩]
  | .byReceive _ _ file _ =>
    if maxContentsSize < file.contentsLen.toNat then m.refuse "Transfer payload too large\n"
    else if !policy.permits .permReceive file.groupId then m.refuse "Invalid permission\n"
    -- `receive` acknowledges the transfer itself.
    else m.put s []

/-- The name and the contents of a file the device may read. -/
def readFile (m : FileMap) (policy : Policy) (slotNum : UInt8) : List Packet × FileMap :=
  match m.lookup slotNum with
  | none => m.refuse "File not found\n"
  | some f =>
    if policy.permits .permRead f.groupId then
      ([⟨.control, readMsg, f.name.toList ++ f.contents⟩], m)
    else m.refuse "Invalid permission\n"

def read (m : FileMap) (policy : Policy) (pktLen : UInt16) (buf : Mem) : List Packet × FileMap :=
  if pktLen < 7 then m.refuse "Packet too short\n"
  else m.guarded policy (buf.read 0 pinLength) (m.readFile policy (buf 6))

def list (m : FileMap) (policy : Policy) (pktLen : UInt16) (buf : Mem) : List Packet × FileMap :=
  if pktLen < 6 then m.refuse "Packet too short\n"
  else m.guarded policy (buf.read 0 pinLength) ([⟨.control, listMsg, listBytes m.files⟩], m)

/-- Take the file of a slot away. -/
def remove (m : FileMap) (slotNum : UInt8) : List Packet × FileMap :=
  match slotIsValid slotNum with
  | none => m.refuse "File not found\n"
  | some slot =>
    match m slot with
    | none => m.refuse "File not found\n"
    | some _ => ([deletedPacket], Function.update m slot none)

def deleteFile (m : FileMap) (policy : Policy) (pktLen : UInt16) (buf : Mem) :
    List Packet × FileMap :=
  if pktLen < 7 then m.refuse "Packet too short\n"
  else m.guarded policy (buf.read 0 pinLength) (m.remove (buf 6))

/-- The map as a service. A reboot is invisible. -/
def serve (policy : Policy) : Service FileRequest (List Packet) FileMap
  | .store s, m => m.store policy s
  | .read pktLen buf, m => m.read policy pktLen buf
  | .list pktLen buf, m => m.list policy pktLen buf
  | .deleteFile pktLen buf, m => m.deleteFile policy pktLen buf
  | .reboot, m => ([], m)

end FileMap

/-! ## What a request changes -/

/-- The slot a request may change. -/
def FileRequest.target : FileRequest → Option Slot
  | .store s => slotIsValid s.command.request.slotNum
  | .deleteFile _ buf => slotIsValid (buf 6)
  | _ => none

namespace FileMap

/-- An answer that leaves the slots but one alone, and all of them if it is an error. -/
structure Confined (m : FileMap) (target : Option Slot) (answer : List Packet × FileMap) : Prop where
  others : ∀ slot, target ≠ some slot → answer.2 slot = m slot
  refused : ∀ p ∈ answer.1, p.cmd = errorMsg → answer.2 = m

variable {m : FileMap} {policy : Policy} {target : Option Slot} {answer : List Packet × FileMap}

theorem Confined.same (replies : List Packet) : m.Confined target (replies, m) where
  others _ _ := rfl
  refused _ _ _ := rfl

theorem Confined.guarded (pin : Bytes) (h : m.Confined target answer) :
    m.Confined target (m.guarded policy pin answer) := by
  unfold FileMap.guarded
  split
  · exact h
  · exact .same _

theorem Confined.update {slot : Slot} {replies : List Packet} (f : Option KeptFile)
    (h : ∀ p ∈ replies, p.cmd ≠ errorMsg) :
    m.Confined (some slot) (replies, Function.update m slot f) where
  others _ hne := Function.update_of_ne (fun heq => hne (congrArg some heq.symm)) f m
  refused p hp herr := absurd herr (h p hp)

theorem put_confined (s : FileStore) {acknowledgement : List Packet}
    (h : ∀ p ∈ acknowledgement, p.cmd ≠ errorMsg) :
    m.Confined (slotIsValid s.command.request.slotNum) (m.put s acknowledgement) := by
  unfold put
  cases slotIsValid s.command.request.slotNum with
  | none => exact .same _
  | some slot => exact .update _ h

theorem store_confined (s : FileStore) :
    m.Confined (slotIsValid s.command.request.slotNum) (m.store policy s) := by
  unfold store
  split
  · split
    · exact .same _
    apply Confined.guarded
    split
    · exact .same _
    split
    · exact .same _
    apply put_confined
    intro p hp
    rw [List.mem_singleton.mp hp]
    decide
  · split
    · exact .same _
    split
    · exact .same _
    apply put_confined
    intro p hp
    cases hp

theorem remove_confined (slotNum : UInt8) :
    m.Confined (slotIsValid slotNum) (m.remove slotNum) := by
  unfold remove
  cases slotIsValid slotNum with
  | none => exact .same _
  | some slot =>
    dsimp only
    split
    · exact .same _
    apply Confined.update
    intro p hp
    rw [List.mem_singleton.mp hp]
    decide

/-- A request changes its own slot at most, and nothing when it is refused. -/
theorem serve_confined (q : FileRequest) : m.Confined q.target (serve policy q m) := by
  cases q with
  | store s => exact store_confined s
  | read pktLen buf =>
    show m.Confined none (m.read policy pktLen buf)
    unfold read readFile
    split
    · exact .same _
    apply Confined.guarded
    split
    · exact .same _
    split <;> exact .same _
  | list pktLen buf =>
    show m.Confined none (m.list policy pktLen buf)
    unfold list
    split
    · exact .same _
    exact (Confined.same _).guarded _
  | deleteFile pktLen buf =>
    show m.Confined _ (m.deleteFile policy pktLen buf)
    unfold deleteFile
    split
    · exact .same _
    exact (remove_confined (buf 6)).guarded _
  | reboot => exact .same _

end FileMap
