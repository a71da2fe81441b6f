-- SUMMARY: The name table and the FAT in flash: what a boot loads, and what a page rewrite leaves at every power-loss point.
import HsmFirmware.Specs.Flash
import HsmFirmware.Firmware.Commands

/-!
# The two table pages

Both tables are rewritten by erasing their page and programming it in pieces of
64 bytes. A name entry is one piece. A FAT entry may straddle two, and counts as
empty until the piece that ends it is programmed: its address field is last.
-/

open Machine (replay)

/-! ## Entries in flash -/

/-- The name entry flash holds for a slot. -/
def nameAt (m : Mem) (slot : Slot) : NameEntry :=
  NameEntry.codec.decode (m.read (nameTableAddr + 64 * slot) 64)

/-- The FAT entry flash holds for a slot. -/
def fatAt (m : Mem) (slot : Slot) : FatEntry :=
  FatEntry.codec.decode (m.read (fatAddr + 24 * slot) 24)

/-- An array read from flash has its entries at multiples of their size. -/
theorem decode_array_read {α : Type} (c : Codec α) (n a : Nat) (m : Mem) (i : Fin n) :
    (c.array n).decode (m.read a (c.size * n)) i = c.decode (m.read (a + c.size * i) c.size) := by
  have hi : c.size * (i + 1) ≤ c.size * n := Nat.mul_le_mul_left _ i.isLt
  rw [Nat.mul_add, Nat.mul_one] at hi
  have hsplit : c.size * n - i * c.size = c.size + (c.size * n - i * c.size - c.size) := by
    rw [Nat.mul_comm i.val]
    omega
  show c.decode ((m.read a (c.size * n)).drop (i * c.size)) = _
  rw [Mem.drop_read _ _ _ _ (by rw [Nat.mul_comm i.val]; omega), hsplit, Nat.mul_comm i.val,
    ← c.decode_take (by simp), Mem.take_read _ _ _ _ (by omega)]

theorem nameAt_congr {m m' : Mem} (h : Mem.Agree m m' nameTableAddr (nameTableAddr + pageSize))
    (slot : Slot) : nameAt m slot = nameAt m' slot := by
  have hslot : slot.val < 8 := slot.isLt
  rw [nameAt, nameAt, h.read (by omega) (by simp only [pageSize]; omega)]

theorem fatAt_congr {m m' : Mem} (h : Mem.Agree m m' fatAddr (fatAddr + pageSize))
    (slot : Slot) : fatAt m slot = fatAt m' slot := by
  have hslot : slot.val < 8 := slot.isLt
  rw [fatAt, fatAt, h.read (by omega) (by simp only [pageSize]; omega)]

theorem nameAt_erased {m : Mem} {slot : Slot}
    (h : Mem.Erased m (nameTableAddr + 64 * slot) (nameTableAddr + 64 * slot + 64)) :
    nameAt m slot = .erased := by
  rw [nameAt, h.read (Nat.le_refl _) (Nat.le_refl _)]
  rfl

/-- An entry whose last four bytes are erased is empty. -/
theorem fatAt_isEmpty {m : Mem} {slot : Slot}
    (h : Mem.Erased m (fatAddr + 24 * slot + 20) (fatAddr + 24 * slot + 24)) :
    (fatAt m slot).isEmpty = true := by
  have haddr : (fatAt m slot).flashAddr =
      Codec.u32.decode ((m.read (fatAddr + 24 * slot) 24).drop 20) := by
    simp only [fatAt, FatEntry.codec, Codec.iso, Codec.pair, Codec.bytes_size, Codec.u16_size,
      Equiv.coe_fn_mk, List.drop_drop]
  rw [FatEntry.isEmpty, haddr, Mem.drop_read _ _ _ _ (by omega),
    h.read (Nat.le_refl _) (Nat.le_refl _)]
  rfl

/-! ## Pages -/

@[simp] theorem length_namePage (table : Slot → NameEntry) : (namePage table).length = pageSize := by
  rw [namePage, List.length_append, Codec.table_length, List.length_replicate]
  rfl

@[simp] theorem length_fatPage (fat : Slot → FatEntry) : (fatPage fat).length = pageSize := by
  rw [fatPage, List.length_append, Codec.table_length, List.length_replicate]
  rfl

theorem namePage_slice (table : Slot → NameEntry) (slot : Slot) :
    ((namePage table).drop (64 * slot)).take 64 = NameEntry.codec.encode (table slot) := by
  have hslot : slot.val < 8 := slot.isLt
  have hlen : (NameEntry.codec.table table).length = 8 * 64 := Codec.table_length _ _
  rw [namePage, List.drop_append_of_le_length (by omega),
    List.take_append_of_le_length (by simp; omega), Nat.mul_comm]
  exact Codec.table_slice NameEntry.codec table slot

theorem fatPage_slice (fat : Slot → FatEntry) (slot : Slot) :
    ((fatPage fat).drop (24 * slot)).take 24 = FatEntry.codec.encode (fat slot) := by
  have hslot : slot.val < 8 := slot.isLt
  have hlen : (FatEntry.codec.table fat).length = 8 * 24 := Codec.table_length _ _
  rw [fatPage, List.drop_append_of_le_length (by omega),
    List.take_append_of_le_length (by simp; omega), Nat.mul_comm]
  exact Codec.table_slice FatEntry.codec fat slot

@[simp] theorem length_pageOps {address : Nat} {page : Bytes} (h : page.length = pageSize) :
    (pageOps address page).length = 17 := by
  simp [pageOps, h, pageSize]

/-- After the erase and `j` pieces of a page rewrite. -/
def rewritten (address : Nat) (page : Bytes) (j : Nat) (m : Mem) : Mem :=
  (m.erase pageSize address).program address (page.take (64 * j))

theorem replay_take_pageOps (address : Nat) (page : Bytes) (j : Nat) (m : Mem) :
    replay flashStep ((pageOps address page).take (j + 1)) m = rewritten address page j m := by
  rw [pageOps, List.take_succ_cons, Machine.replay_cons, replay_take_writeOps]
  rfl

theorem replay_pageOps {address : Nat} {page : Bytes} (h : page.length = pageSize) (m : Mem) :
    replay flashStep (pageOps address page) m = rewritten address page 16 m := by
  rw [← replay_take_pageOps, List.take_of_length_le (by simp [h])]

section Rewritten

variable {k j : Nat} {page : Bytes} {m : Mem}

/-- What has been programmed reads back. -/
theorem read_rewritten {i n : Nat} (hp : page.length = pageSize) (hj : i + n ≤ 64 * j)
    (hn : i + n ≤ pageSize) :
    (rewritten (k * pageSize) page j m).read (k * pageSize + i) n = (page.drop i).take n := by
  have her : Mem.Erased (m.erase pageSize (k * pageSize)) (k * pageSize + i)
      (k * pageSize + i + n) := by
    refine (Mem.erased_erase m (by decide)).mono (by omega) ?_
    rw [Nat.add_mul, Nat.one_mul]
    omega
  rw [rewritten, Mem.read_program_erased her (by simp; omega), List.drop_take, List.take_take,
    Nat.min_eq_left (by omega)]

/-- What has not is erased. -/
theorem erased_rewritten {i n : Nat} (hj : 64 * j ≤ i) (hn : i + n ≤ pageSize) :
    Mem.Erased (rewritten (k * pageSize) page j m) (k * pageSize + i) (k * pageSize + i + n) := by
  have her : Mem.Erased (m.erase pageSize (k * pageSize)) (k * pageSize + i)
      (k * pageSize + i + n) := by
    refine (Mem.erased_erase m (by decide)).mono (by omega) ?_
    rw [Nat.add_mul, Nat.one_mul]
    omega
  refine her.program (.inr ?_)
  simp only [List.length_take]
  omega

end Rewritten

/-! ## Rewriting the name table -/

section Names

variable {table : Slot → NameEntry} {j : Nat} {m : Mem} {slot : Slot}

theorem nameAt_rewritten_of_lt (h : slot.val < j) :
    nameAt (rewritten nameTableAddr (namePage table) j m) slot = table slot := by
  have hslot : slot.val < 8 := slot.isLt
  have hread := read_rewritten (k := nameTableAddr / pageSize) (m := m) (i := 64 * slot) (n := 64)
    (j := j) (length_namePage table) (by omega) (by simp only [pageSize]; omega)
  rw [nameAt]
  refine (congrArg _ hread).trans ?_
  rw [namePage_slice, Codec.decode_encode']

theorem nameAt_rewritten_of_le (h : j ≤ slot.val) :
    nameAt (rewritten nameTableAddr (namePage table) j m) slot = .erased := by
  have hslot : slot.val < 8 := slot.isLt
  exact nameAt_erased (erased_rewritten (k := nameTableAddr / pageSize) (by omega)
    (by simp only [pageSize]; omega))

end Names

/-! ## Rewriting the FAT -/

/-- The number of pieces after which the FAT entry of a slot is complete. -/
def fatPieces (slot : Nat) : Nat := (24 * slot + 24 + 63) / 64

theorem fatPieces_le (slot : Slot) : fatPieces slot ≤ 16 := by
  have hslot : slot.val < 8 := slot.isLt
  simp only [fatPieces]
  omega

section Fat

variable {fat : Slot → FatEntry} {j : Nat} {m : Mem} {slot : Slot}

theorem fatAt_rewritten_of_le (h : fatPieces slot ≤ j) :
    fatAt (rewritten fatAddr (fatPage fat) j m) slot = fat slot := by
  have hslot : slot.val < 8 := slot.isLt
  simp only [fatPieces] at h
  have hread := read_rewritten (k := fatAddr / pageSize) (m := m) (i := 24 * slot) (n := 24)
    (j := j) (length_fatPage fat) (by omega) (by simp only [pageSize]; omega)
  rw [fatAt]
  refine (congrArg _ hread).trans ?_
  rw [fatPage_slice, Codec.decode_encode']

theorem fatAt_rewritten_isEmpty (h : j < fatPieces slot) :
    (fatAt (rewritten fatAddr (fatPage fat) j m) slot).isEmpty = true := by
  have hslot : slot.val < 8 := slot.isLt
  simp only [fatPieces] at h
  have her := @erased_rewritten (fatAddr / pageSize) j (fatPage fat) m (24 * slot + 20) 4
    (by omega) (by simp only [pageSize]; omega)
  refine fatAt_isEmpty fun x hlo hhi => her x ?_ ?_
  · simp only [fatAddr, pageSize] at hlo ⊢
    omega
  · simp only [fatAddr, pageSize] at hhi ⊢
    omega

end Fat

/-! ## Boot -/

/-- The tables a boot loads. -/
theorem decode_nameTable (m : Mem) (slot : Slot) :
    (NameEntry.codec.array maxSlots).decode (m.read nameTableAddr (64 * maxSlots)) slot =
      nameAt m slot :=
  decode_array_read NameEntry.codec maxSlots nameTableAddr m slot

theorem decode_fat (m : Mem) (slot : Slot) :
    (FatEntry.codec.array maxSlots).decode (m.read fatAddr (24 * maxSlots)) slot = fatAt m slot :=
  decode_array_read FatEntry.codec maxSlots fatAddr m slot

/-- The RAM of a device whose tables are loaded from flash. -/
def Ram.loaded (ram : Ram) (m : Mem) : Ram :=
  { ram with gFat := fatAt m, sInitialized := true, gNameTable := nameAt m }

theorem initCommands_exec {ram : Ram} (h : ram.sInitialized = false) (fs : Schedule) (w : World) :
    initCommands.exec fs ram w = .done (0, ram.loaded w.flash) w [] fs := by
  have hfat : (FatEntry.codec.array maxSlots).decode (w.flash.read fatAddr (24 * maxSlots)) =
      fatAt w.flash := funext (decode_fat w.flash)
  have hname : (NameEntry.codec.array maxSlots).decode
      (w.flash.read nameTableAddr (64 * maxSlots)) = nameAt w.flash := funext (decode_nameTable _)
  simp [initCommands, blobStoreInit, loadNameTable, Dev.exec_bind, Dev.exec_map, h, hfat, hname, Ram.loaded]
