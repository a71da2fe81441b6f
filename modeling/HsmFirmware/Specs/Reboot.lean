-- SUMMARY: What a slot shows before a command and after a boot, and where each table entry stands after a prefix of its page rewrite.
import HsmFirmware.Specs.Deletion

/-!
# Power loss and reboot

A boot loads both tables from flash. After some of the commands of a page rewrite, an
entry is the old one, a blank one or the new one; the other parts of a command do not
matter to it. A slot shows a file when both its entries do.
-/

open Machine (replay)

/-! ## What a slot shows -/

/-- A file as its readers see it, with its contents for each reader. -/
structure SlotFile where
  name : Vector UInt8 32
  groupId : UInt16
  uuid : Vector UInt8 16
  contents : Option Digest → UInt32 → Option Bytes

/-- The file a slot with these two entries shows. -/
def slotFile (fw : Firmware) (m : Mem) (slot : Slot) (name : NameEntry) (entry : FatEntry) :
    Option SlotFile :=
  if name.inUse = nameInUseTag ∧ entry.isEmpty = false then
    some ⟨name.name, name.groupId, entry.uuid, recordContents fw m (fun _ => entry) slot⟩
  else none

/-- The file a slot of a running device shows. -/
def Ram.file (fw : Firmware) (ram : Ram) (m : Mem) (slot : Slot) : Option SlotFile :=
  slotFile fw m slot (ram.gNameTable slot) (ram.gFat slot)

/-- The file a slot shows after a boot. -/
def bootFile (fw : Firmware) (m : Mem) (slot : Slot) : Option SlotFile :=
  (Ram.reset.loaded m).file fw m slot

section

variable {fw : Firmware} {m m' : Mem} {slot : Slot} {name : NameEntry} {entry : FatEntry} {ram : Ram}

theorem slotFile_unused (h : name.inUse ≠ nameInUseTag) : slotFile fw m slot name entry = none :=
  if_neg fun hused => h hused.1

theorem slotFile_empty (h : entry.isEmpty = true) : slotFile fw m slot name entry = none := by
  apply if_neg
  intro hused
  rw [h] at hused
  exact Bool.noConfusion hused.2

theorem slotFile_congr (h : Mem.Agree m' m (blobSlotBase slot) (blobSlotBase slot + slotSize)) :
    slotFile fw m' slot name entry = slotFile fw m slot name entry := by
  have hcontents : recordContents fw m' (fun _ => entry) slot =
      recordContents fw m (fun _ => entry) slot := by
    funext owner groupMask
    exact recordContents_congr rfl h
  rw [slotFile, slotFile, hcontents]

theorem Ram.occupied_iff : ram.occupied slot = true ↔
    (ram.gNameTable slot).inUse = nameInUseTag ∧ (ram.gFat slot).isEmpty = false := by
  simp only [Ram.occupied, Bool.and_eq_true, beq_iff_eq, Bool.not_eq_true']

theorem Ram.file_eq_none : ram.file fw m slot = none ↔ ram.occupied slot = false := by
  rw [← Bool.not_eq_true, Ram.occupied_iff, Ram.file, slotFile]
  split
  · rename_i h
    exact ⟨fun hnone => (Option.some_ne_none _ hnone).elim, fun hnot => absurd h hnot⟩
  · rename_i h
    exact ⟨fun _ => h, fun _ => rfl⟩

end

/-! ## Entries during a rewrite -/

/-- An entry of a page that is being rewritten. -/
inductive EntryState where
  | old
  | blank
  | new
  deriving DecidableEq

/-- Where an entry stands after `k` commands of the rewrite of its page, when it takes `pieces`
    of them behind the erase. -/
def entryState (pieces k : Nat) : EntryState :=
  if k = 0 then .old else if k ≤ pieces then .blank else .new

/-- What a boot finds for an entry in some state. -/
def EntryState.Finds {α : Type} (blank : α → Prop) (old new : α) (state : EntryState) (found : α) :
    Prop :=
  match state with
  | .old => found = old
  | .blank => blank found
  | .new => found = new

/-- Once the page is erased, what was there before does not matter. -/
theorem EntryState.Finds.of_pos {α : Type} {blank : α → Prop} {old old' new found : α}
    {pieces k : Nat} (hk : k ≠ 0) (h : (entryState pieces k).Finds blank old new found) :
    (entryState pieces k).Finds blank old' new found := by
  unfold entryState at h ⊢
  rw [if_neg hk] at h ⊢
  split
  · rename_i hle
    rw [if_pos hle] at h
    exact h
  · rename_i hle
    rw [if_neg hle] at h
    exact h

section

variable {m : Mem} {slot : Slot}

theorem NameEntry.erased_unused : NameEntry.erased.inUse ≠ nameInUseTag := by decide

theorem nameAt_finds (table : Slot → NameEntry) (k : Nat) :
    (entryState (slot + 1) k).Finds (·.inUse ≠ nameInUseTag) (nameAt m slot) (table slot)
      (nameAt (replay flashStep ((pageOps nameTableAddr (namePage table)).take k) m) slot) := by
  rw [nameAt_take_pageOps]
  unfold entryState
  split
  · rfl
  · split
    · rename_i hk
      rw [if_neg (Nat.not_le.mpr (Nat.lt_succ_of_le hk))]
      exact NameEntry.erased_unused
    · rename_i hk
      rw [if_pos (show slot.val + 2 ≤ k from Nat.not_le.mp hk)]
      rfl

theorem fatAt_finds (fat : Slot → FatEntry) (k : Nat) :
    (entryState (fatPieces slot) k).Finds (·.isEmpty = true) (fatAt m slot) (fat slot)
      (fatAt (replay flashStep ((pageOps fatAddr (fatPage fat)).take k) m) slot) := by
  unfold entryState
  split
  · rename_i hk
    subst hk
    rfl
  · rename_i hpos
    split
    · rename_i hk
      exact isEmpty_fatAt_take_pageOps fat hpos hk
    · rename_i hk
      exact fatAt_take_pageOps fat (Nat.not_le.mp hk)

/-- The file a boot finds in a slot whose entries are in given states. -/
def stagedFile (fw : Firmware) (m : Mem) (slot : Slot) (ram : Ram) :
    EntryState → EntryState → Option SlotFile
  | .blank, _ => none
  | _, .blank => none
  | .old, .old => slotFile fw m slot (nameAt m slot) (fatAt m slot)
  | .old, .new => slotFile fw m slot (nameAt m slot) (ram.gFat slot)
  | .new, .old => slotFile fw m slot (ram.gNameTable slot) (fatAt m slot)
  | .new, .new => slotFile fw m slot (ram.gNameTable slot) (ram.gFat slot)

/-- A boot finds that file when the pages of the slot are as they were. -/
theorem bootFile_of_finds {fw : Firmware} {m' : Mem} {ram : Ram} {names entries : EntryState}
    (hname : names.Finds (·.inUse ≠ nameInUseTag) (nameAt m slot) (ram.gNameTable slot)
      (nameAt m' slot))
    (hfat : entries.Finds (·.isEmpty = true) (fatAt m slot) (ram.gFat slot) (fatAt m' slot))
    (hpages : Mem.Agree m' m (blobSlotBase slot) (blobSlotBase slot + slotSize)) :
    bootFile fw m' slot = stagedFile fw m slot ram names entries := by
  have hboot : bootFile fw m' slot = slotFile fw m slot (nameAt m' slot) (fatAt m' slot) :=
    slotFile_congr hpages
  rw [hboot]
  cases names with
  | blank => exact slotFile_unused hname
  | old =>
    rw [show nameAt m' slot = nameAt m slot from hname]
    cases entries with
    | blank => exact slotFile_empty hfat
    | old => rw [show fatAt m' slot = fatAt m slot from hfat, stagedFile]
    | new => rw [show fatAt m' slot = ram.gFat slot from hfat, stagedFile]
  | new =>
    rw [show nameAt m' slot = ram.gNameTable slot from hname]
    cases entries with
    | blank => exact slotFile_empty hfat
    | old => rw [show fatAt m' slot = fatAt m slot from hfat, stagedFile]
    | new => rw [show fatAt m' slot = ram.gFat slot from hfat, stagedFile]

end
