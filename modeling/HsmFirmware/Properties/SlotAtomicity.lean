-- SUMMARY: The slot of a store or a delete after a power loss: the file a boot finds in it, and where that is the old file or the new one.
import HsmFirmware.Specs.PartialRecord
import HsmFirmware.Properties.Neighbours

/-!
# Power loss and the slot itself

A store rewrites the name page, the slot and the FAT page in place, one after the other. Behind
a power loss the name entry, the record and the FAT entry each stand somewhere on this way, and
what a boot finds is put together from the three.
-/

open Machine (replay)

/-! ## The file a boot finds -/

namespace FileCommand

end FileCommand

section

variable {fw : Firmware} {cmd : FileCommand} {ram : Ram} {w : World} {slot : Slot}

end

section

variable {fw : Firmware} {cmd : FileCommand} {ram : Ram} {w : World} {slot : Slot}

end

/-! ## What its owner sees -/

/-- A file as `list` and `read` show it to the one with this PIN. -/
def SlotFile.shown (pinHash : Digest) (f : SlotFile) : Vector UInt8 32 × UInt16 × Option Bytes :=
  (f.name, f.groupId, f.contents (some pinHash) 0xFFFFFFFF)

/-- What the slot shows when a boot has loaded the tables. -/
def World.shows (fw : Firmware) (pinHash : Digest) (slot : Slot) (w : World) :
    Option (Vector UInt8 32 × UInt16 × Option Bytes) :=
  match initCommands.exec [] .reset w with
  | .done r t _ _ => (r.2.file fw t.flash slot).map (SlotFile.shown pinHash)
  | .off .. => none

namespace FileCommand

end FileCommand

section

variable {fw : Firmware} {cmd : FileCommand} {c : StoreCommand} {ram : Ram} {w : World} {slot : Slot}
  {pinHash : Digest} {f : SlotFile} {d : Bytes} {k : Nat}

section

variable {r : BlobRecord}

end

end
