-- SUMMARY: The flash images of a store or delete: both tables and all slots after each of its commands.
import HsmFirmware.Specs.FileCommands

/-!
# Flash images

A store rewrites the name table, writes its slot and rewrites the FAT; a delete rewrites
the FAT and the name table behind the erase of its slot. What a boot finds after some of
these commands is a matter of each table and of each slot on its own.
-/

open Machine (replay)

/-! ## Where the commands work -/

section

variable {ram : Ram} {slot t : Slot} {m : Mem}

theorem nameOps_within (ram : Ram) (slot : Slot) (entry : NameEntry) :
    ∀ o ∈ nameOps ram slot entry, o.Within nameTableAddr (nameTableAddr + pageSize) :=
  pageOps_within rfl (by simp) (Nat.le_refl _) (Nat.le_refl _)

theorem nameOps_agree (ram : Ram) (slot : Slot) (entry : NameEntry) (k : Nat) (m : Mem) :
    Mem.Agree (replay flashStep ((nameOps ram slot entry).take k) m) m 0 fatAddr :=
  agree_replay (fun o ho => nameOps_within ram slot entry o (List.mem_of_mem_take ho))
    (.inl (by decide)) m

/-- A log that works in the slot, then on the FAT page, leaves the other slots alone. -/
theorem agree_of_split {S F : List Op} (ht : t ≠ slot)
    (hS : ∀ o ∈ S, o.Within (blobSlotBase slot) (blobSlotBase slot + slotSize))
    (hF : ∀ o ∈ F, o.Within fatAddr (fatAddr + pageSize)) (m : Mem) :
    Mem.Agree (replay flashStep (S ++ F) m) m (blobSlotBase t) (blobSlotBase t + slotSize) := by
  rw [Machine.replay_append]
  exact (agree_replay hF (.inl (blobSlotBase_lt t)) _).trans
    (agree_replay hS (blobSlotBase_apart ht) m)

namespace BlobRecord

variable {fw : Firmware} {r : BlobRecord}

theorem areaOps_within {lo hi : Nat} {areas : List (Nat × Bytes)}
    (h : ∀ p ∈ areas, lo ≤ p.1 ∧ p.1 + padded p.2.length ≤ hi) :
    ∀ o ∈ areaOps areas, o.Within lo hi := by
  intro o ho
  obtain ⟨p, hp, ho⟩ := List.mem_flatMap.mp ho
  exact writeOps_within (h p hp).1 (h p hp).2 o ho

theorem slotOps_within (hgcm : fw.prim.GcmLaws) (hlen : r.data.length ≤ maxContentsSize) :
    ∀ o ∈ r.slotOps fw, o.Within (blobSlotBase r.slot) (blobSlotBase r.slot + slotSize) := by
  intro o ho
  cases List.mem_append.mp ho with
  | inl ho => exact eraseSlotOps_within r.slot o ho
  | inr ho => exact areaOps_within (areas_within hgcm hlen) o ho

end BlobRecord

end

/-! ## Tables -/

section

variable {L : List Op} {m : Mem} {slot : Slot}

/-- Commands elsewhere leave the name table alone. -/
theorem nameAt_replay {lo hi : Nat} (h : ∀ o ∈ L, o.Within lo hi)
    (hd : nameTableAddr + pageSize ≤ lo ∨ hi ≤ nameTableAddr) :
    nameAt (replay flashStep L m) slot = nameAt m slot :=
  nameAt_congr (agree_replay h hd m) slot

/-- Commands elsewhere leave the FAT alone. -/
theorem fatAt_replay {lo hi : Nat} (h : ∀ o ∈ L, o.Within lo hi)
    (hd : fatAddr + pageSize ≤ lo ∨ hi ≤ fatAddr) :
    fatAt (replay flashStep L m) slot = fatAt m slot :=
  fatAt_congr (agree_replay h hd m) slot

/-- What a boot finds in the name table after `k` commands of its rewrite: the old entry, an
    erased one, or the new one. -/
theorem nameAt_take_pageOps (table : Slot → NameEntry) (k : Nat) :
    nameAt (replay flashStep ((pageOps nameTableAddr (namePage table)).take k) m) slot =
      if k = 0 then nameAt m slot else if slot.val + 2 ≤ k then table slot else .erased := by
  cases k with
  | zero => rfl
  | succ j =>
    rw [replay_take_pageOps, if_neg (Nat.succ_ne_zero j)]
    by_cases hj : slot.val < j
    · rw [if_pos (by omega), nameAt_rewritten_of_lt hj]
    · rw [if_neg (by omega), nameAt_rewritten_of_le (Nat.le_of_not_lt hj)]

theorem nameAt_pageOps (table : Slot → NameEntry) :
    nameAt (replay flashStep (pageOps nameTableAddr (namePage table)) m) slot = table slot := by
  have hslot : slot.val < 8 := slot.isLt
  have h := @nameAt_take_pageOps m slot table 17
  rwa [List.take_of_length_le (by simp), if_neg (by decide), if_pos (by omega)] at h

/-- What a boot finds in the FAT after `k` commands of its rewrite. -/
theorem fatAt_take_pageOps (fat : Slot → FatEntry) {k : Nat} (hk : fatPieces slot < k) :
    fatAt (replay flashStep ((pageOps fatAddr (fatPage fat)).take k) m) slot = fat slot := by
  obtain ⟨j, rfl⟩ := Nat.exists_eq_succ_of_ne_zero (Nat.ne_of_gt (Nat.zero_lt_of_lt hk))
  rw [replay_take_pageOps, fatAt_rewritten_of_le (Nat.le_of_lt_succ hk)]

/-- Until its last piece is programmed, an entry is empty. -/
theorem isEmpty_fatAt_take_pageOps (fat : Slot → FatEntry) {k : Nat} (hpos : k ≠ 0)
    (hk : k ≤ fatPieces slot) :
    (fatAt (replay flashStep ((pageOps fatAddr (fatPage fat)).take k) m) slot).isEmpty = true := by
  obtain ⟨j, rfl⟩ := Nat.exists_eq_succ_of_ne_zero hpos
  rw [replay_take_pageOps]
  exact fatAt_rewritten_isEmpty hk

theorem fatAt_pageOps (fat : Slot → FatEntry) :
    fatAt (replay flashStep (pageOps fatAddr (fatPage fat)) m) slot = fat slot := by
  have h := @fatAt_take_pageOps m slot fat 17 (Nat.lt_succ_of_le (fatPieces_le slot))
  rwa [List.take_of_length_le (by simp)] at h

end

/-! ## A whole store -/

namespace BlobRecord

variable {fw : Firmware} {r : BlobRecord} {ram : Ram} {entry : NameEntry}
  {uuid : Vector UInt8 16} {m : Mem} {slot : Slot}

section

variable (hgcm : fw.prim.GcmLaws) (hlen : r.data.length ≤ maxContentsSize)

include hgcm hlen

/-- After a store the name table in flash is the one in RAM. -/
theorem nameAt_stored :
    nameAt (replay flashStep (nameOps ram r.slot entry ++ r.ops fw ram.gFat uuid) m) slot =
      Function.update ram.gNameTable r.slot entry slot := by
  rw [ops, Machine.replay_append, Machine.replay_append,
    nameAt_replay (fatOps_within _ _ _) (.inr (by decide)),
    nameAt_replay (slotOps_within hgcm hlen)
      (.inr ((blobSlotBase_lt r.slot).trans (by decide))), nameOps, nameAt_pageOps]

omit hgcm hlen in
/-- So is the FAT. -/
theorem fatAt_stored :
    fatAt (replay flashStep (nameOps ram r.slot entry ++ r.ops fw ram.gFat uuid) m) slot =
      Function.update ram.gFat r.slot (r.fatEntry uuid) slot := by
  rw [ops, Machine.replay_append, Machine.replay_append, fatOps, fatAt_pageOps]

/-- A store leaves the other slots alone. -/
theorem agree_stored (h : slot ≠ r.slot) :
    Mem.Agree (replay flashStep (nameOps ram r.slot entry ++ r.ops fw ram.gFat uuid) m) m
      (blobSlotBase slot) (blobSlotBase slot + slotSize) := by
  have hnames : Mem.Agree (replay flashStep (nameOps ram r.slot entry) m) m (blobSlotBase slot)
      (blobSlotBase slot + slotSize) :=
    agree_replay (nameOps_within _ _ _) (.inl ((blobSlotBase_lt slot).trans (by decide))) m
  rw [Machine.replay_append, ops]
  exact (agree_of_split h (slotOps_within hgcm hlen) (fatOps_within _ _ _) _).trans hnames

end

end BlobRecord

/-! ## The store of a command -/

namespace StoreCommand

variable {fw : Firmware} (c : StoreCommand) (ram : Ram) (w : World) (r : BlobRecord)

/-- The commands a store puts on the flash behind its gate. -/
theorem flash_storedWorld :
    (c.storedWorld fw ram w r).flash =
      replay flashStep (c.storeOps fw ram r) (w.after (c.gate ram)).flash := by
  rw [storedWorld, flash_report, World.flash_after, World.flash_drawn, World.flash_after, storeOps,
    Machine.replay_append]

/-- Behind a store the tables in flash are the ones in RAM. -/
theorem tables_storedWorld (hgcm : fw.prim.GcmLaws) (hlen : r.data.length ≤ maxContentsSize)
    (slot : Slot) :
    nameAt (c.storedWorld fw ram w r).flash slot = (c.storedRam ram r).gNameTable slot ∧
      fatAt (c.storedWorld fw ram w r).flash slot = (c.storedRam ram r).gFat slot := by
  obtain ⟨hname, hfat, -⟩ := sameTables_storedRam c ram r
  rw [flash_storedWorld, storeOps, BlobRecord.nameAt_stored hgcm hlen, BlobRecord.fatAt_stored,
    hname, hfat]
  exact ⟨rfl, rfl⟩

end StoreCommand
