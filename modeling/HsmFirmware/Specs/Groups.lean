-- SUMMARY: The group of a name entry and the group of the record behind it: how the flash commands of a store change both.
import HsmFirmware.Specs.PinFrame
import HsmFirmware.Specs.PartialRecord

/-!
# Groups

A permission is decided by the group of a name entry, while a record is sealed under the group of
its header. The two are written at different times. An entry is right about a record when it is not
in use, when there is no record, or when the groups are the same.
-/

open Machine (replay)

/-! ## Headers -/

section

variable {m m' : Mem} {slot : Slot}

theorem headerAt_congr (h : Mem.Agree m' m (blobSlotBase slot) (blobSlotBase slot + headerSize)) :
    headerAt m' slot = headerAt m slot := by
  rw [headerAt, headerAt, h.read (Nat.le_refl _) (Nat.le_refl _)]

/-- The magic of the header is in its first four bytes. -/
theorem magic_headerAt (m : Mem) (slot : Slot) :
    (headerAt m slot).magic = Codec.u32.decode (m.read (blobSlotBase slot) 4) := by
  have hread : (m.read (blobSlotBase slot) headerSize).take 4 = m.read (blobSlotBase slot) 4 :=
    Mem.take_read _ _ _ _ (by decide)
  rw [← hread]
  exact (Codec.decode_take Codec.u32 (by simp [headerSize])).symm

theorem groupMask_decode (bs : Bytes) :
    (Header.codec.decode bs).groupMask = Codec.u32.decode (bs.drop 12) := by
  simp only [Header.codec, Codec.iso, Codec.pair, Codec.u16_size, Codec.u32_size,
    Equiv.coe_fn_mk, List.drop_drop]

/-- The group of the header is behind them. -/
theorem groupMask_headerAt (m : Mem) (slot : Slot) :
    (headerAt m slot).groupMask = Codec.u32.decode (m.read (blobSlotBase slot + 12) 4) := by
  have hread : ((m.read (blobSlotBase slot) headerSize).drop 12).take 4 =
      m.read (blobSlotBase slot + 12) 4 := by
    rw [Mem.drop_read _ _ _ _ (by decide), Mem.take_read _ _ _ _ (by decide)]
  rw [headerAt, groupMask_decode, ← hread]
  exact (Codec.decode_take Codec.u32 (by simp [headerSize])).symm

end

/-! ## Right entries -/

/-- The record in the slot, if there is one, is of this group. -/
def RecordGroup (m : Mem) (slot : Slot) (groupId : UInt16) : Prop :=
  (headerAt m slot).magic = blobMagic → (headerAt m slot).groupMask = groupId.toUInt32

/-- The entry does not give the record in the slot another group. -/
def EntryRight (m : Mem) (slot : Slot) (entry : NameEntry) : Prop :=
  entry.inUse = nameInUseTag → RecordGroup m slot entry.groupId

/-- The entries of the slot are right, in RAM and in flash. -/
structure NamesRight (slot : Slot) (ram : Ram) (m : Mem) : Prop where
  inRam : EntryRight m slot (ram.gNameTable slot)
  inFlash : EntryRight m slot (nameAt m slot)

section

variable {m m' : Mem} {slot : Slot} {entry : NameEntry} {groupId : UInt16}

theorem RecordGroup.congr (h : RecordGroup m slot groupId)
    (hm : Mem.Agree m' m (blobSlotBase slot) (blobSlotBase slot + headerSize)) :
    RecordGroup m' slot groupId := by
  rw [RecordGroup, headerAt_congr hm]
  exact h

theorem EntryRight.congr (h : EntryRight m slot entry)
    (hm : Mem.Agree m' m (blobSlotBase slot) (blobSlotBase slot + headerSize)) :
    EntryRight m' slot entry :=
  fun hused => (h hused).congr hm

theorem EntryRight.erased (m : Mem) (slot : Slot) : EntryRight m slot .erased :=
  fun hused => (NameEntry.erased_unused hused).elim

theorem entryRight_named {name : Vector UInt8 32} (h : RecordGroup m slot groupId) :
    EntryRight m slot (.named name groupId) :=
  fun _ => h

/-- Commands that spare the slots and the tables leave entries right. -/
theorem NamesRight.congr {ram ram' : Ram} (h : NamesRight slot ram m)
    (hram : ram'.gNameTable = ram.gNameTable) (hm : Mem.Agree m' m 0 pinStateAddr) :
    NamesRight slot ram' m' := by
  have hbase := blobSlotBase_lt slot
  have hheader : Mem.Agree m' m (blobSlotBase slot) (blobSlotBase slot + headerSize) := by
    apply hm.mono (Nat.zero_le _)
    simp only [slotSize_eq, headerSize, fatAddr, pinStateAddr] at hbase ⊢
    omega
  refine ⟨?_, ?_⟩
  · rw [hram]
    exact h.inRam.congr hheader
  · rw [nameAt_congr (hm.mono (Nat.zero_le _) (Nat.le_refl _)) slot]
    exact h.inFlash.congr hheader

end

/-- A run that leaves the entries of the slot right, or the one in flash, if it loses power. -/
def KeepsNames {α : Type} (slot : Slot) (res : Halt Op World (α × Ram)) : Prop :=
  res.Sat (fun r t _ _ => NamesRight slot r.2 t.flash)
    fun t _ => EntryRight t.flash slot (nameAt t.flash slot)

section

variable {α β : Type} {slot : Slot} {ram : Ram} {m : Mem} {res : Halt Op World (α × Ram)}

theorem KeepsNames.logged (h : KeepsNames slot res) (L : List Op) :
    KeepsNames slot (res.logged L) := by
  cases res <;> exact h

theorem KeepsNames.andThen {g : α × Ram → World → Schedule → Halt Op World (β × Ram)}
    (h : KeepsNames slot res)
    (hg : ∀ r t rest, NamesRight slot r.2 t.flash → KeepsNames slot (g r t rest)) :
    KeepsNames slot (res.andThen g) := by
  cases res with
  | off t L => exact h
  | done r t L rest => exact (hg r t rest h).logged L

end

/-! ## The commands of a store -/

section

variable {fw : Firmware} {ram : Ram} {m : Mem} {slot s : Slot} {entry : NameEntry} {r : BlobRecord}
  {fat : Slot → FatEntry} {uuid : Vector UInt8 16} {groupId : UInt16}

theorem agree_header_nameOps (ram : Ram) (s : Slot) (entry : NameEntry) (k : Nat) (m : Mem)
    (slot : Slot) :
    Mem.Agree (replay flashStep ((nameOps ram s entry).take k) m) m (blobSlotBase slot)
      (blobSlotBase slot + headerSize) := by
  have hbase := blobSlotBase_lt slot
  apply (nameOps_agree ram s entry k m).mono (Nat.zero_le _)
  simp only [slotSize_eq, headerSize] at hbase ⊢
  omega

/-- While the name page is rewritten, the entry in flash is right if the old one was, as long as
    there is one, and the new one is, from when it is there. -/
theorem entryRight_take_nameOps {k : Nat} (hold : k = 0 → EntryRight m slot (nameAt m slot))
    (hnew : slot.val + 1 < k → EntryRight m slot (Function.update ram.gNameTable s entry slot)) :
    EntryRight (replay flashStep ((nameOps ram s entry).take k) m) slot
      (nameAt (replay flashStep ((nameOps ram s entry).take k) m) slot) := by
  apply EntryRight.congr _ (agree_header_nameOps ram s entry k m slot)
  rw [nameOps, nameAt_take_pageOps]
  split
  · rename_i hk
    exact hold hk
  split
  · rename_i hk
    exact hnew hk
  · exact .erased m slot

/-- The record of another slot does not change. -/
theorem agree_header_recordOps (hgcm : fw.prim.GcmLaws) (hlen : r.data.length ≤ maxContentsSize)
    (hslot : slot ≠ r.slot) (j : Nat) (m : Mem) :
    Mem.Agree (replay flashStep ((r.ops fw fat uuid).take j) m) m (blobSlotBase slot)
      (blobSlotBase slot + headerSize) := by
  have hbase := blobSlotBase_lt slot
  have hend : blobSlotBase slot + headerSize ≤ blobSlotBase slot + slotSize := by
    simp only [slotSize_eq, headerSize]
    omega
  apply agree_replay_apart
  intro o ho
  rcases List.mem_append.mp (List.mem_of_mem_take ho) with ho | ho
  · refine ⟨_, _, BlobRecord.slotOps_within hgcm hlen o ho, ?_⟩
    exact (blobSlotBase_apart hslot).imp hend.trans id
  · exact ⟨_, _, BlobRecord.fatOps_within fat r.slot _ o ho, .inl (hend.trans hbase)⟩

/-- From the first command of a record on, its slot holds a record of its group or none. -/
theorem recordGroup_take_ops (hgcm : fw.prim.GcmLaws) (hlen : r.data.length ≤ maxContentsSize)
    (hgroup : r.groupMask = groupId.toUInt32) {j : Nat} (hj : j ≠ 0) (m : Mem) :
    RecordGroup (replay flashStep ((r.ops fw fat uuid).take j) m) r.slot groupId := by
  have hbase := blobSlotBase_lt r.slot
  rw [BlobRecord.ops, List.take_append, Machine.replay_append]
  apply RecordGroup.congr (m := replay flashStep ((r.slotOps fw).take j) m)
  swap
  · have hfat : ∀ o ∈ (fatOps fat r.slot (r.fatEntry uuid)).take (j - (r.slotOps fw).length),
        o.Within fatAddr (fatAddr + pageSize) := fun o ho =>
      BlobRecord.fatOps_within fat r.slot _ o (List.mem_of_mem_take ho)
    apply agree_replay hfat
    left
    simp only [slotSize_eq, headerSize] at hbase ⊢
    omega
  obtain ⟨m', herased, hreplay⟩ := BlobRecord.replay_take_slotOps hgcm hlen hj m
  rw [hreplay]
  generalize j + 2 - (r.slotOps fw).length = n
  intro hmagic
  rw [magic_headerAt] at hmagic
  cases n with
  | zero =>
    have hread : m'.read r.base 4 = List.replicate 4 0xFF :=
      herased.read (Nat.le_refl _) (Nat.add_le_add_left (by decide) _)
    rw [Nat.mul_zero, List.take_zero, Mem.program_nil, ← BlobRecord.base, hread] at hmagic
    exact absurd hmagic (by decide)
  | succ n =>
    have hbytes : ((Header.codec.encode (r.header fw)).take (64 * (n + 1))).length =
        min (64 * (n + 1)) 96 := by
      rw [List.length_take, Codec.length_encode]
      rfl
    have hread : (m'.program r.base ((Header.codec.encode (r.header fw)).take (64 * (n + 1)))).read
        (r.base + 12) 4 = ((Header.codec.encode (r.header fw)).drop 12).take 4 := by
      have herased' : Mem.Erased m' (r.base + 12) (r.base + 12 + 4) :=
        herased.mono (by omega) (by simp only [headerSize]; omega)
      rw [Mem.read_program_erased herased' (by omega), List.drop_take, List.take_take]
      congr 1
    have hdecode := groupMask_decode (Header.codec.encode (r.header fw))
    have htake : Codec.u32.decode (((Header.codec.encode (r.header fw)).drop 12).take 4) =
        Codec.u32.decode ((Header.codec.encode (r.header fw)).drop 12) :=
      Codec.decode_take Codec.u32 (by simp)
    rw [Codec.decode_encode'] at hdecode
    rw [groupMask_headerAt, ← BlobRecord.base, hread, htake, ← hdecode]
    exact hgroup

end

/-! ## A store under any faults -/

/-- Some of the first commands of a record of the group in the slot. -/
def RecordPrefix (fw : Firmware) (s : Slot) (groupId : UInt16) (B : List Op) : Prop :=
  B = [] ∨ ∃ (r : BlobRecord) (fat : Slot → FatEntry) (uuid : Vector UInt8 16) (j : Nat),
    r.slot = s ∧ r.groupMask = groupId.toUInt32 ∧ r.data.length ≤ maxContentsSize ∧
      B = (r.ops fw fat uuid).take j

section

variable {fw : Firmware} {ram : Ram} {m : Mem} {slot s : Slot} {name : Vector UInt8 32}
  {groupId : UInt16} {B : List Op}

/-- A record in the making changes no header but its own. -/
theorem RecordPrefix.agree_header (hgcm : fw.prim.GcmLaws) (hB : RecordPrefix fw s groupId B)
    (hslot : slot ≠ s) (m : Mem) :
    Mem.Agree (replay flashStep B m) m (blobSlotBase slot) (blobSlotBase slot + headerSize) := by
  rcases hB with rfl | ⟨r, fat, uuid, j, rfl, -, hlen, rfl⟩
  · exact .refl _ _ _
  · exact agree_header_recordOps hgcm hlen hslot j m

/-- Behind a whole name page, the entry of the new file is right from the first command of its
    record on. -/
theorem entryRight_nameOps_record (hgcm : fw.prim.GcmLaws) (hB : RecordPrefix fw s groupId B)
    (h : EntryRight m slot (Function.update ram.gNameTable s (.named name groupId) slot) ∨
      slot = s ∧ B ≠ []) :
    EntryRight (replay flashStep (nameOps ram s (.named name groupId) ++ B) m) slot
      (Function.update ram.gNameTable s (.named name groupId) slot) ∧
    nameAt (replay flashStep (nameOps ram s (.named name groupId) ++ B) m) slot =
      Function.update ram.gNameTable s (.named name groupId) slot := by
  have hnames := agree_header_nameOps ram s (.named name groupId) 17 m slot
  rw [List.take_of_length_le (by simp)] at hnames
  have hname : nameAt (replay flashStep (nameOps ram s (.named name groupId)) m) slot =
      Function.update ram.gNameTable s (.named name groupId) slot := nameAt_pageOps _
  rw [Machine.replay_append]
  generalize replay flashStep (nameOps ram s (.named name groupId)) m = m' at hnames hname
  rcases hB with rfl | ⟨r, fat, uuid, j, rfl, hgroup, hlen, rfl⟩
  · refine ⟨?_, hname⟩
    rcases h with h | ⟨-, hne⟩
    · exact h.congr hnames
    · exact (hne rfl).elim
  refine ⟨?_, (FileCommand.blobOps_elsewhere hgcm hlen j m').trans hname⟩
  by_cases hslot : slot = r.slot
  · subst hslot
    by_cases hj : j = 0
    · subst hj
      rcases h with h | ⟨-, hne⟩
      · exact h.congr hnames
      · exact (hne rfl).elim
    · rw [Function.update_self]
      exact entryRight_named (recordGroup_take_ops hgcm hlen hgroup hj m')
  · rcases h with h | ⟨heq, -⟩
    · exact (h.congr hnames).congr (agree_header_recordOps hgcm hlen hslot j m')
    · exact (hslot heq).elim

/-- Clearing the entry again leaves the others right, and that of the file, if it is still there. -/
theorem entryRight_cleared (hgcm : fw.prim.GcmLaws) (hB : RecordPrefix fw s groupId B) {k : Nat}
    (hram : EntryRight m slot (ram.gNameTable slot))
    (h : EntryRight m slot (Function.update ram.gNameTable s (.named name groupId) slot) ∨
      slot = s ∧ (B ≠ [] ∨ k ≠ 0)) :
    EntryRight (replay flashStep (nameOps ram s (.named name groupId) ++
      (B ++ (nameOps ram s .erased).take k)) m) slot
      (Function.update ram.gNameTable s .erased slot) ∧
    EntryRight (replay flashStep (nameOps ram s (.named name groupId) ++
      (B ++ (nameOps ram s .erased).take k)) m) slot
      (nameAt (replay flashStep (nameOps ram s (.named name groupId) ++
        (B ++ (nameOps ram s .erased).take k)) m) slot) := by
  have hwritten := @entryRight_nameOps_record fw ram m slot s name groupId B hgcm hB
  have hcleared : EntryRight (replay flashStep (nameOps ram s (.named name groupId) ++ B) m) slot
      (Function.update ram.gNameTable s .erased slot) := by
    by_cases hslot : slot = s
    · subst hslot
      rw [Function.update_self]
      exact .erased _ _
    · have hnames := agree_header_nameOps ram s (.named name groupId) 17 m slot
      rw [List.take_of_length_le (by simp)] at hnames
      rw [Function.update_of_ne hslot, Machine.replay_append]
      exact (hram.congr hnames).congr (hB.agree_header hgcm hslot _)
  rw [← List.append_assoc, Machine.replay_append]
  generalize replay flashStep (nameOps ram s (.named name groupId) ++ B) m = m' at hwritten hcleared
  refine ⟨hcleared.congr (agree_header_nameOps ram s .erased k m' slot), ?_⟩
  apply entryRight_take_nameOps _ fun _ => hcleared
  intro hk
  have hnew : EntryRight m slot (Function.update ram.gNameTable s (.named name groupId) slot) ∨
      slot = s ∧ B ≠ [] := h.imp id fun ⟨heq, hne⟩ => ⟨heq, hne.resolve_right fun h => h hk⟩
  obtain ⟨hright, hname⟩ := hwritten hnew
  rw [hname]
  exact hright

end

section

variable {fw : Firmware} {slotNum : UInt8} {slot s : Slot} {groupId : UInt16} {pin : Bytes}
  {pinHash : Digest} {name : Vector UInt8 32} {uuid : Vector UInt8 16} {contents : Bytes}
  {ram : Ram} {w : World} {fs : Schedule}

/-- A store under this schedule leaves no record of another group behind its new entry: power is
    lost before the entry is in flash, or the slot is erased, or else the entry is. -/
def SettlesEntry (s : Slot) (setup : Option BlobRecord) (fs : Schedule) : Prop :=
  (∃ k, k ≤ s.val + 1 ∧ fs.AllDone k ∧ fs[k]? = some .powerLost) ∨
    fs.AllDone 17 ∧ (fs.TakesEffect 17 ∨
      setup ≠ none ∧ (∃ e, fs[17]? = some (.failed e)) ∧ fs.TakesEffect 18)

/-- The operation that does not succeed first is the only one to do so. -/
theorem Schedule.AllDone.first_unique {k n : Nat} {o o' : Outcome} (hk : fs.AllDone k)
    (ho : fs[k]? = some o) (hn : fs.AllDone n) (ho' : fs[n]? = some o') (hne : o ≠ .done)
    (hne' : o' ≠ .done) : k = n := by
  apply Nat.le_antisymm
  · exact Nat.le_of_not_lt fun hlt => hne' (hk.getElem? hlt ho')
  · exact Nat.le_of_not_lt fun hlt => hne (hn.getElem? hlt ho)

variable {setup : Option BlobRecord}

/-- The commands of a record that a store has made. -/
theorem RecordPrefix.of_setup {draw : Option (Nat → UInt8)}
    (hsetup : blobWriteSetup fw s contents pinHash groupId.toUInt32 draw = setup)
    (hlen : contents.length ≤ maxContentsSize) {B : List Op}
    (hB : RecordCommands fw ram uuid setup B) : RecordPrefix fw s groupId B := by
  rcases hB with ⟨-, rfl⟩ | ⟨r, j, rfl, rfl⟩
  · exact .inl rfl
  obtain ⟨hs, hdata, -, hgroup, -⟩ := blobWriteSetup_some hsetup
  refine .inr ⟨r, ram.gFat, uuid, j, hs, hgroup, ?_, rfl⟩
  rw [hdata]
  exact hlen

/-- The new entry is right for the old record of any other slot. -/
theorem NamesRight.update_of_ne (h : NamesRight slot ram w.flash) (hne : slot ≠ s)
    (entry : NameEntry) : EntryRight w.flash slot (Function.update ram.gNameTable s entry slot) := by
  rw [Function.update_of_ne hne]
  exact h.inRam

/-- With the name page written, the slot is erased, or else the entry. -/
theorem SettlesEntry.erases (h : SettlesEntry s setup fs) (hdone : fs.AllDone 17) :
    fs.TakesEffect 17 ∨ setup ≠ none ∧ (∃ e, fs[17]? = some (.failed e)) ∧ fs.TakesEffect 18 := by
  rcases h with ⟨k, hk, -, hlost⟩ | ⟨-, h⟩
  · have hslot : s.val < 8 := s.isLt
    cases hdone.getElem? (by omega) hlost
  · exact h

/-- A refused flush leaves the new entry in RAM. -/
theorem not_settlesEntry_refused {j : Nat} {e : Bool} (hj : j < 17) (hdone : fs.AllDone j)
    (hfailed : fs[j]? = some (.failed e)) : ¬ SettlesEntry s setup fs := by
  rintro (⟨k, -, hk, hlost⟩ | ⟨hall, -⟩)
  · have heq := hk.first_unique hlost hdone hfailed (by simp) (by simp)
    subst heq
    rw [hlost] at hfailed
    cases hfailed
  · cases hall.getElem? hj hfailed

/-- An entry in flash is not made up for when power is lost in the name page. -/
theorem SettlesEntry.le_of_cut {k : Nat} (h : SettlesEntry s setup fs) (hk : k < 17)
    (hdone : fs.AllDone k) (hlost : fs[k]? = some .powerLost) : k ≤ s.val + 1 := by
  rcases h with ⟨k', hle, hdone', hlost'⟩ | ⟨hall, -⟩
  · rw [hdone.first_unique hlost hdone' hlost' (by simp) (by simp)]
    exact hle
  · cases hall.getElem? hk hlost

/-- Unless the store settles its entry, the old record is of the new group, too. -/
theorem NamesRight.update_unsettled (h : NamesRight slot ram w.flash)
    (hsettles : slot = s → RecordGroup w.flash slot groupId ∨ SettlesEntry s setup fs)
    (hnot : slot = s → ¬ SettlesEntry s setup fs) :
    EntryRight w.flash slot (Function.update ram.gNameTable s (.named name groupId) slot) := by
  by_cases heq : slot = s
  · have hgroup := (hsettles heq).resolve_right (hnot heq)
    subst heq
    rw [Function.update_self]
    exact entryRight_named hgroup
  · exact h.update_of_ne heq _

/-- Where a store clears its entry again, its slot has been erased, or its entry, or the old record
    is of the new group. -/
theorem NamesRight.update_undone (h : NamesRight slot ram w.flash)
    (hsettles : slot = s → RecordGroup w.flash slot groupId ∨ SettlesEntry s setup fs)
    (hdone : fs.AllDone 17) {B : List Op} {k : Nat}
    (hfirst : fs.TakesEffect 17 ∨ setup ≠ none ∧ fs.TakesEffect 18 → B ≠ [] ∨ k ≠ 0) :
    EntryRight w.flash slot (Function.update ram.gNameTable s (.named name groupId) slot) ∨
      slot = s ∧ (B ≠ [] ∨ k ≠ 0) := by
  by_cases hsettled : slot = s ∧ SettlesEntry s setup fs
  · obtain ⟨heq, hsettled⟩ := hsettled
    right
    refine ⟨heq, hfirst ?_⟩
    exact (hsettled.erases hdone).imp id fun ⟨hsome, _, heffect⟩ => ⟨hsome, heffect⟩
  · left
    apply h.update_unsettled hsettles
    intro heq hs
    exact hsettled ⟨heq, hs⟩

/-- Where power is lost in a record, its slot has been erased, or the old record is of the new
    group. -/
theorem NamesRight.update_cut (h : NamesRight slot ram w.flash)
    (hsettles : slot = s → RecordGroup w.flash slot groupId ∨ SettlesEntry s setup fs)
    {ops : List Op} {j : Nat} (hj : j < ops.length) (hdone : fs.AllDone (17 + j))
    (hlost : fs[17 + j]? = some .powerLost) :
    EntryRight w.flash slot (Function.update ram.gNameTable s (.named name groupId) slot) ∨
      slot = s ∧ ops.take j ≠ [] := by
  by_cases hnil : ops.take j = []
  · -- Cut off in front of the first erase.
    have hzero : j = 0 := by
      have hlength := congrArg List.length hnil
      simp only [List.length_take, List.length_nil] at hlength
      omega
    subst hzero
    left
    apply h.update_unsettled hsettles
    intro heq hs
    rcases hs.erases hdone with heffect | ⟨-, ⟨e, hfailed⟩, -⟩
    · exact Nat.lt_irrefl 0 ((Schedule.takesEffect_iff hlost).mp heffect)
    · rw [show fs[17]? = some .powerLost from hlost] at hfailed
      cases hfailed
  · exact (em (slot = s)).symm.imp (fun hne => h.update_of_ne hne _) fun heq => ⟨heq, hnil⟩

/-- Each of the ways in which a store ends leaves the entries of every slot right. -/
theorem StoreEnding.keepsNames {res : Halt Op World (Int × Ram)} (hgcm : fw.prim.GcmLaws)
    (hcommands : ∀ B, RecordCommands fw ram uuid setup B → RecordPrefix fw s groupId B)
    (h : NamesRight slot ram w.flash)
    (hsettles : slot = s → RecordGroup w.flash slot groupId ∨ SettlesEntry s setup fs)
    (hend : StoreEnding fw ram w fs s (.named name groupId) uuid setup res)
    (hflash : res.state.flash = replay flashStep res.log w.flash) : KeepsNames slot res := by
  cases hend with
  | @stored r hr hfs =>
    have hops := hcommands _ (.inr ⟨r, (r.ops fw ram.gFat uuid).length, hr, List.take_length.symm⟩)
    have hne : r.ops fw ram.gFat uuid ≠ [] := by
      simp [BlobRecord.ops, BlobRecord.slotOps, eraseSlotOps]
    obtain ⟨hright, hname⟩ := @entryRight_nameOps_record fw ram w.flash slot s name groupId _ hgcm
      hops ((em (slot = s)).symm.imp (fun hother => h.update_of_ne hother _) fun heq => ⟨heq, hne⟩)
    generalize (w.after (nameOps ram s (.named name groupId))).drawn.after (r.ops fw ram.gFat uuid) = t
      at hflash
    change t.flash = replay flashStep (nameOps ram s (.named name groupId) ++ r.ops fw ram.gFat uuid)
      w.flash at hflash
    refine ⟨?_, ?_⟩
    · rw [hflash]
      exact hright
    · rw [hflash, hname]
      exact hright
  | @nameRefused k j e t rest hk hj hfs hfailed =>
    have hright : EntryRight w.flash slot
        (Function.update ram.gNameTable s (.named name groupId) slot) :=
      h.update_unsettled hsettles fun _ => not_settlesEntry_refused hj hfs hfailed
    change t.flash = _ at hflash
    refine ⟨?_, ?_⟩
    · rw [hflash]
      exact hright.congr (agree_header_nameOps ram s _ k w.flash slot)
    · rw [hflash]
      exact entryRight_take_nameOps (fun _ => h.inFlash) fun _ => hright
  | @nameCut k t hk hfs hlost =>
    change t.flash = _ at hflash
    show EntryRight t.flash slot (nameAt t.flash slot)
    rw [hflash]
    apply entryRight_take_nameOps (fun _ => h.inFlash)
    intro hentry
    apply h.update_unsettled hsettles
    rintro rfl hs
    exact Nat.not_le.mpr hentry (hs.le_of_cut hk hfs hlost)
  | @recordCut r j t hr hj hfs hlost =>
    change t.flash = replay flashStep (nameOps ram s (.named name groupId) ++
      (r.ops fw ram.gFat uuid).take j) w.flash at hflash
    obtain ⟨hright, hname⟩ := @entryRight_nameOps_record fw ram w.flash slot s name groupId _ hgcm
      (hcommands _ (.inr ⟨r, j, hr, rfl⟩)) (h.update_cut hsettles hj hfs hlost)
    show EntryRight t.flash slot (nameAt t.flash slot)
    rw [hflash, hname]
    exact hright
  | @undone B k aad t rest hB hk hfs hfirst =>
    obtain ⟨hram, hright⟩ := entryRight_cleared hgcm (hcommands B hB) h.inRam
      (h.update_undone hsettles hfs hfirst)
    change t.flash = _ at hflash
    refine ⟨?_, ?_⟩
    · rw [hflash]
      exact hram
    · rw [hflash]
      exact hright
  | @undoneCut B k t hB hk hfs hfirst =>
    change t.flash = _ at hflash
    show EntryRight t.flash slot (nameAt t.flash slot)
    rw [hflash]
    exact (entryRight_cleared hgcm (hcommands B hB) h.inRam
      (h.update_undone hsettles hfs hfirst)).2

/-- A store leaves the entries of every slot right, however it ends. -/
theorem storeFile_keepsNames (hgcm : fw.prim.GcmLaws) (hslot : slotIsValid slotNum = some s)
    (hpin : getPinHash fw pin = some pinHash) (hlen : contents.length ≤ maxContentsSize)
    (h : NamesRight slot ram w.flash)
    (hsettles : slot = s → RecordGroup w.flash s groupId ∨ SettlesEntry s
      (blobWriteSetup fw s contents pinHash groupId.toUInt32 (w.rng w.draws)) fs) :
    KeepsNames slot ((storeFile fw slotNum name groupId uuid contents pin).exec fs ram w) := by
  refine StoreEnding.keepsNames hgcm ?_ h ?_ (storeFile_ending hgcm hslot hpin fs ram w)
    ((storeFile fw slotNum name groupId uuid contents pin).flash_exec fs ram w)
  · intro B hB
    exact .of_setup rfl hlen hB
  · rintro rfl
    exact hsettles rfl

end

/-! ## Commands -/

/-- A store that writes another group over the record in the slot gets past the gate and the name
    page to the first erase of the slot, with a record to write there. -/
def StoreCommand.ReachesSlot (fw : Firmware) (c : StoreCommand) (slot : Slot) (ram : Ram) (w : World)
    (fs : Schedule) : Prop :=
  RecordGroup w.flash slot c.request.groupId ∨
    c.record fw slot w ≠ none ∧ (fs.attempt (c.gate ram).length).AllDone 18

/-- A store leaves no record of another group behind the entry it gives the slot. -/
def StoreCommand.Settles (fw : Firmware) (c : StoreCommand) (slot : Slot) (ram : Ram) (w : World)
    (fs : Schedule) : Prop :=
  RecordGroup w.flash slot c.request.groupId ∨
    SettlesEntry slot (c.record fw slot w) (fs.attempt (c.gate ram).length)

theorem StoreCommand.ReachesSlot.settles {fw : Firmware} {c : StoreCommand} {slot : Slot} {ram : Ram}
    {w : World} {fs : Schedule} (h : c.ReachesSlot fw slot ram w fs) :
    c.Settles fw slot ram w fs :=
  h.imp id fun ⟨_, hdone⟩ => .inr ⟨hdone.mono (by decide), .inl hdone.takesEffect⟩

/-- The store that a packet of the host comes to: with the RAM and the world it finds, and what is
    left of the schedule. -/
inductive ComesToStore (fw : Firmware) (pktLen : UInt16) (buf : Mem) (ram : Ram) (w : World)
    (fs : Schedule) : MsgType → StoreCommand → Ram → World → Schedule → Prop where
  | write : ComesToStore fw pktLen buf ram w fs writeMsg (.byWrite pktLen buf) ram w fs
  | receive (x : ReceiveExchange fw (buf 6) w) :
      ComesToStore fw pktLen buf ram w fs receiveMsg (x.store (buf 7) (buf.read 0 pinLength))
        (ram.setFails 0) x.world (fs.attempt (gateOps ram).length)

section

variable {fw : Firmware} {slot : Slot} {ram : Ram} {w : World} {fs : Schedule} {pktLen : UInt16}
  {buf : Mem}

theorem agree_onPinPage {L : List Op} (h : ∀ o ∈ L, o.Within pinStateAddr (pinStateAddr + pageSize))
    (m : Mem) : Mem.Agree (replay flashStep L m) m 0 pinStateAddr :=
  agree_replay h (.inl (Nat.le_refl _)) m

theorem NamesRight.recordGroup_after {groupId : UInt16} {L : List Op}
    (h : RecordGroup w.flash slot groupId)
    (hL : ∀ o ∈ L, o.Within pinStateAddr (pinStateAddr + pageSize)) :
    RecordGroup (w.after L).flash slot groupId := by
  have hbase := blobSlotBase_lt slot
  apply h.congr
  apply (agree_onPinPage hL w.flash).mono (Nat.zero_le _)
  simp only [slotSize_eq, headerSize, fatAddr, pinStateAddr] at hbase ⊢
  omega

theorem StoreCommand.keepsNames {c : StoreCommand} (hgcm : fw.prim.GcmLaws)
    (hlen : c.Accepted fw → c.request.contents.length ≤ maxContentsSize)
    (h : NamesRight slot ram w.flash)
    (hsettles : slotIsValid c.request.slotNum = some slot → c.PinPasses fw ram → c.Accepted fw →
      c.Settles fw slot ram w fs) : KeepsNames slot ((c.run fw).exec fs ram w) := by
  have hend := @StoreCommand.ending fw c fs ram w
  have hflash := (c.run fw).flash_exec fs ram w
  generalize (c.run fw).exec fs ram w = res at hend hflash
  cases hend with
  | @refused ram' t L rest _ hram hL =>
    change t.flash = replay flashStep L w.flash at hflash
    apply h.congr hram.gNameTable
    rw [hflash]
    exact agree_onPinPage hL w.flash
  | @cut t L hL =>
    change t.flash = replay flashStep L w.flash at hflash
    have hkept : Mem.Agree t.flash w.flash 0 pinStateAddr := by
      rw [hflash]
      exact agree_onPinPage hL w.flash
    exact (h.congr rfl hkept).inFlash
  | @entered j hpin haccepted =>
    have hL : ∀ o ∈ (c.gate ram).take j, o.Within pinStateAddr (pinStateAddr + pageSize) :=
      fun o ho => c.gate_within ram o (List.mem_of_mem_take ho)
    have hbehind : NamesRight slot (c.behindGate ram) (w.after ((c.gate ram).take j)).flash :=
      h.congr (c.sameFiles_behindGate ram).gNameTable (agree_onPinPage hL w.flash)
    apply KeepsNames.logged
    apply KeepsNames.andThen
    swap
    · intro r t rest hr
      show NamesRight slot r.2 (c.report r.1 t).flash
      rw [c.flash_report]
      exact hr
    by_cases hdeclined : getPinHash fw c.request.pin = none ∨ slotIsValid c.request.slotNum = none
    · obtain ⟨msg, hexec⟩ := @StoreRequest.store_declines fw (c.behindGate ram)
        (w.after ((c.gate ram).take j)) c.request hdeclined (fs.attempt (c.gate ram).length)
      rw [hexec]
      exact hbehind
    obtain ⟨pinHash, hpinHash⟩ := Option.ne_none_iff_exists'.mp fun h => hdeclined (.inl h)
    obtain ⟨s, hslot⟩ := Option.ne_none_iff_exists'.mp fun h => hdeclined (.inr h)
    apply storeFile_keepsNames hgcm hslot hpinHash (hlen haccepted) hbehind
    rintro rfl
    rcases hsettles hslot hpin haccepted with hgroup | hsettled
    · exact .inl (NamesRight.recordGroup_after hgroup hL)
    · right
      rw [StoreCommand.record, hpinHash, Option.bind_some] at hsettled
      exact hsettled

theorem write_keepsNames (hgcm : fw.prim.GcmLaws) (hlen : pktLen.toNat ≤ maxMsgSize)
    (h : NamesRight slot ram w.flash)
    (hsettles : ∀ c ram' w' fs', ComesToStore fw pktLen buf ram w fs writeMsg c ram' w' fs' →
      slotIsValid c.request.slotNum = some slot → PinCorrect fw ram (buf.read 0 pinLength) →
        c.Accepted fw → c.Settles fw slot ram' w' fs') :
    KeepsNames slot ((write fw pktLen buf).exec fs ram w) := by
  have hcontents : (StoreCommand.byWrite pktLen buf).Accepted fw →
      (buf.read 59 (WriteCommand.ofBuf buf).contentsLen.toNat).length ≤ maxContentsSize := by
    intro haccepted
    have hfits := StoreCommand.contentsLen_le haccepted
    rw [Mem.length_read]
    simp only [maxMsgSize] at hlen
    simp only [maxContentsSize]
    omega
  exact StoreCommand.keepsNames (c := .byWrite pktLen buf) hgcm hcontents h
    (hsettles _ _ _ _ .write)

theorem receive_keepsNames (hgcm : fw.prim.GcmLaws) (h : NamesRight slot ram w.flash)
    (hsettles : ∀ c ram' w' fs', ComesToStore fw pktLen buf ram w fs receiveMsg c ram' w' fs' →
      slotIsValid c.request.slotNum = some slot → PinCorrect fw ram (buf.read 0 pinLength) →
        c.Accepted fw → c.Settles fw slot ram' w' fs') :
    KeepsNames slot ((receive fw pktLen buf).exec fs ram w) := by
  have hend := @receive_ending fw pktLen buf fs ram w
  have hflash := (receive fw pktLen buf).flash_exec fs ram w
  generalize (receive fw pktLen buf).exec fs ram w = res at hend hflash
  cases hend with
  | @refused ram' t L rest _ hram hL =>
    change t.flash = replay flashStep L w.flash at hflash
    apply h.congr hram.gNameTable
    rw [hflash]
    exact agree_onPinPage hL w.flash
  | @cut t L hL =>
    change t.flash = replay flashStep L w.flash at hflash
    have hkept : Mem.Agree t.flash w.flash 0 pinStateAddr := by
      rw [hflash]
      exact agree_onPinPage hL w.flash
    exact (h.congr rfl hkept).inFlash
  | @entered j hlen hpin x =>
    have hL : ∀ o ∈ (gateOps ram).take j, o.Within pinStateAddr (pinStateAddr + pageSize) :=
      fun o ho => gateOps_within ram o (List.mem_of_mem_take ho)
    have hbehind : NamesRight slot (ram.setFails 0) (x.world.after ((gateOps ram).take j)).flash :=
      h.congr rfl (agree_onPinPage hL w.flash)
    apply KeepsNames.logged
    apply KeepsNames.andThen
    · apply StoreCommand.keepsNames hgcm _ hbehind
      · intro hslot _ haccepted
        rcases hsettles _ _ _ _ (.receive x) hslot hpin haccepted with hgroup | hrest
        · exact .inl (NamesRight.recordGroup_after hgroup hL)
        · exact .inr hrest
      · intro haccepted
        show (x.resp.file.contents.toList.take x.resp.file.contentsLen.toNat).length ≤ _
        rw [List.length_take]
        exact (Nat.min_le_left _ _).trans (Nat.not_lt.mp haccepted.1)
    · intro r t rest hr
      rw [receiveReport]
      split <;> exact hr

end
