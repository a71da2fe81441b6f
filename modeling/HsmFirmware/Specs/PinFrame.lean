-- SUMMARY: Handlers that write the PIN page at most and keep both tables, and what a boot leaves under any faults.
import HsmFirmware.Specs.Outcomes
import HsmFirmware.Specs.PinState

/-!
# Files left alone

The PIN gate writes its own page, and everything else that a command does before it stores a file
writes nothing at all. Whatever fails and wherever power is lost, the slots and both tables stay as
they are, in flash and in RAM. A boot writes the PIN page at most, too, and loads both tables.
-/

open Dev (Keeps)

/-- The operation writes the PIN page at most. -/
def Op.OnPinPage (o : Op) : Prop := o.Within pinStateAddr (pinStateAddr + pageSize)

/-- Both tables in RAM, and whether the FAT has been loaded. -/
def Ram.tables (ram : Ram) : (Slot → FatEntry) × (Slot → NameEntry) × Bool :=
  (ram.gFat, ram.gNameTable, ram.sInitialized)

theorem Ram.tables_setPin (ram : Ram) (hash : Digest) (count : UInt32) :
    (ram.setPin hash count).tables = ram.tables := rfl

/-- A handler that leaves the files alone. -/
abbrev Dev.KeepsTables {α : Type} (h : Dev α) : Prop := h.Keeps Op.OnPinPage Ram.tables

/-- A run that has left the files alone. -/
structure SparesFiles {α : Type} (ram : Ram) (m : Mem) (res : Halt Op World (α × Ram)) : Prop where
  tables : res.Sat (fun r _ _ _ => r.2.tables = ram.tables) fun _ _ => True
  flash : Mem.Agree res.state.flash m 0 pinStateAddr

section

variable {α : Type} {ram ram' : Ram} {m m' : Mem} {res : Halt Op World (α × Ram)}

/-- The commands of a run say what it has left of the flash. -/
theorem SparesFiles.of_log (hflash : res.state.flash = Machine.replay flashStep res.log m)
    (hlog : ∀ o ∈ res.log, o.OnPinPage)
    (htables : res.Sat (fun r _ _ _ => r.2.tables = ram.tables) fun _ _ => True) :
    SparesFiles ram m res := by
  refine ⟨htables, ?_⟩
  rw [hflash]
  exact agree_replay hlog (.inl (Nat.le_refl _)) m

theorem Dev.KeepsTables.spares {h : Dev α} (hh : h.KeepsTables) (fs : Schedule) (ram : Ram)
    (w : World) : SparesFiles ram w.flash (h.exec fs ram w) :=
  .of_log (h.flash_exec fs ram w) (Machine.exec_log_performs (hh ram).performs fs w)
    (Machine.exec_yields (hh ram) fs w)

end

/-! ## Flash -/

theorem flashSimpleErasePage_keepsTables {address : Nat} (h : (Op.erase address).OnPinPage) :
    (flashSimpleErasePage address).KeepsTables := by
  refine (Keeps.op h).bind fun ok => ?_
  cases ok <;> exact .pure _

theorem flashSimpleWrite_keepsTables {address : Nat} {buffer : Bytes}
    (h : ∀ o ∈ writeOps address buffer, o.OnPinPage) :
    (flashSimpleWrite address buffer).KeepsTables := by
  induction hn : buffer.length using Nat.strong_induction_on generalizing address buffer with
  | _ n ih =>
    rw [flashSimpleWrite]
    by_cases hb : buffer = []
    · rw [if_pos hb]
      exact .pure _
    have hpos : 0 < buffer.length := List.length_pos_iff.mpr hb
    rw [writeOps_cons hb] at h
    obtain ⟨hfirst, hrest⟩ := List.forall_mem_cons.mp h
    rw [if_neg hb]
    refine (Keeps.op hfirst).bind fun ok => ?_
    cases ok with
    | false => exact .pure _
    | true =>
      by_cases hlen : 64 ≤ buffer.length
      · have hpiece : (buffer.take 64).length = 64 := by
          rw [List.length_take, Nat.min_eq_left hlen]
        rw [hpiece]
        refine ih (buffer.drop 64).length ?_ hrest rfl
        rw [List.length_drop]
        omega
      · -- The last piece.
        rw [List.drop_eq_nil_of_le (by omega), flashSimpleWrite, if_pos rfl]
        exact .pure _

theorem writePinState_keepsTables : writePinState.KeepsTables := by
  refine Keeps.get.bind fun ram => ?_
  obtain ⟨herase, hwrite⟩ := List.forall_mem_cons.mp (pinOps_within ram)
  refine (flashSimpleErasePage_keepsTables herase).bind fun rc => ?_
  split
  · exact .pure _
  refine (flashSimpleWrite_keepsTables hwrite).bind fun rc => ?_
  split <;> exact .pure _

/-! ## The PIN gate -/

section

variable {fw : Firmware}

theorem send_keepsTables (uart : Uart) (cmd : MsgType) (payload : Bytes) :
    (Dev.send uart cmd payload).KeepsTables :=
  .op trivial

theorem reject_keepsTables (msg : String) : (reject msg).KeepsTables :=
  (send_keepsTables _ _ _).bind fun _ => .pure _

theorem checkPin_keepsTables (pin : Bytes) : (checkPin fw pin).KeepsTables := by
  refine Keeps.get.bind fun ram => ?_
  split
  · exact .pure _
  split
  · exact .pure _
  split
  · split
    · exact (Keeps.modify fun _ => by rfl).bind fun _ =>
        writePinState_keepsTables.bind fun _ => .pure _
    · exact .pure _
  · exact (Keeps.modify fun _ => by rfl).bind fun _ => writePinState_keepsTables.bind fun _ => .pure _

theorem pinGate_keepsTables (pin : Bytes) : (pinGate fw pin).KeepsTables := by
  rw [pinGate, if_neg (by decide)]
  refine (checkPin_keepsTables pin).bind fun ok => ?_
  split
  · exact .pure _
  · split <;> exact reject_keepsTables _

/-- A command that checks the length of its packet, then the PIN. -/
theorem gated_keepsTables {pktLen n : UInt16} {msg : String} {pin : Bytes} {k : Dev Int}
    (hk : k.KeepsTables) :
    (if pktLen < n then reject msg else do
      if (← pinGate fw pin) ≠ 0 then pure (-1) else k : Dev Int).KeepsTables := by
  split
  · exact reject_keepsTables msg
  refine (pinGate_keepsTables pin).bind fun rc => ?_
  split
  · exact .pure _
  · exact hk

/-! ## Commands that store nothing -/

theorem list_keepsTables (pktLen : UInt16) (buf : Mem) : (list fw pktLen buf).KeepsTables :=
  gated_keepsTables (Keeps.get.bind fun _ => (send_keepsTables _ _ _).bind fun _ => .pure _)

theorem readSlot_keepsTables (slot : Slot) (pinHash : Digest) :
    (readSlot fw slot pinHash).KeepsTables := by
  refine Keeps.update trivial (fun ram m => ?_) fun ram m => ?_
  · obtain ⟨st, aad, hram⟩ := (@blobReadAll_reads fw m ram slot pinHash 0xFFFFFFFF
      (Mem.write (fun _ => 0) 0 (ram.gNameTable slot).name.toList) maxNameSize).ram
    rw [hram]
    rfl
  · split
    · exact reject_keepsTables _
    · exact (send_keepsTables _ _ _).bind fun _ => .pure _

theorem read_keepsTables (pktLen : UInt16) (buf : Mem) : (read fw pktLen buf).KeepsTables := by
  rw [read_eq]
  refine gated_keepsTables (Keeps.get.bind fun ram => ?_)
  split
  · exact reject_keepsTables _
  split
  · exact reject_keepsTables _
  split
  · exact reject_keepsTables _
  · exact readSlot_keepsTables _ _

theorem generateNonce_keepsTables (n : Nat) : (securityGenerateNonce n).KeepsTables := by
  rw [securityGenerateNonce]
  split
  · exact .pure _
  · exact .op trivial

theorem takeList_keepsTables (r : Received) : (takeList r).KeepsTables := by
  cases r with
  | failed status => exact reject_keepsTables _
  | packet cmd payload =>
    rw [takeList]
    split
    · exact reject_keepsTables _
    · exact (send_keepsTables _ _ _).bind fun _ => .pure _

theorem proveGroups_keepsTables (challenge : InterrogateChallenge) :
    (proveGroups fw challenge).KeepsTables := by
  rw [proveGroups]
  split
  · exact reject_keepsTables _
  refine (send_keepsTables _ _ _).bind fun rc => ?_
  split
  · exact reject_keepsTables _
  · exact (Keeps.op trivial).bind takeList_keepsTables

theorem takeInterrogateChallenge_keepsTables (requesterNonce : UInt32) (r : Received) :
    (takeInterrogateChallenge fw requesterNonce r).KeepsTables := by
  cases r with
  | failed status => exact reject_keepsTables _
  | packet cmd payload =>
    rw [takeInterrogateChallenge]
    split
    · exact reject_keepsTables _
    · exact proveGroups_keepsTables _

theorem interrogate_keepsTables (pktLen : UInt16) (buf : Mem) :
    (interrogate fw pktLen buf).KeepsTables := by
  rw [interrogate_eq]
  refine gated_keepsTables ((generateNonce_keepsTables 4).bind fun nonce => ?_)
  split
  · exact reject_keepsTables _
  refine (send_keepsTables _ _ _).bind fun rc => ?_
  split
  · exact reject_keepsTables _
  · exact (Keeps.op trivial).bind (takeInterrogateChallenge_keepsTables _)

end

/-! ## Booting -/

section

variable {fw : Firmware} {ram : Ram} {w : World}

theorem pinInit_keepsTables : (pinInit fw).KeepsTables := by
  have hload : loadPinState.KeepsTables := fun ram => ⟨trivial, fun m => Ram.tables_setPin ram _ _⟩
  refine hload.bind fun _ => Keeps.get.bind fun ram => ?_
  split
  · dsimp only
    split
    · exact .pure _
    split
    · exact .pure _
    refine (Keeps.modify fun _ => by rfl).bind fun _ => writePinState_keepsTables.bind fun rc => ?_
    split
    · exact .pure _
    · exact (Keeps.modify fun _ => by rfl).bind fun _ => .pure _
  · exact (Keeps.modify fun _ => by rfl).bind fun _ => .pure _

/-- A boot under any faults: unless it is cut off, both tables in RAM are those in flash. -/
theorem init_loads {fs : Schedule} {res : Halt Op World (Unit × Ram)}
    (hres : (init fw).exec fs .reset w = res) :
    res.Sat
      (fun r t _ _ => r.2.gFat = fatAt t.flash ∧ r.2.gNameTable = nameAt t.flash ∧
        Mem.Agree t.flash w.flash 0 pinStateAddr)
      fun t _ => Mem.Agree t.flash w.flash 0 pinStateAddr := by
  rw [← hres]
  have hspares := Dev.KeepsTables.spares (@pinInit_keepsTables fw) fs .reset w
  rw [init, Dev.exec_bind]
  generalize (pinInit fw).exec fs .reset w = res at hspares
  obtain ⟨htables, hagree⟩ := hspares
  cases res with
  | off t L => exact hagree
  | done r t L rest =>
    obtain ⟨rc, ram⟩ := r
    have hcold : ram.sInitialized = false := congrArg (fun tables => tables.2.2) htables
    have hnext : ∀ t : World, initCommands.exec rest ram t =
        .done (0, ram.loaded t.flash) t [] rest := initCommands_exec hcold rest
    rw [Halt.andThen_done]
    by_cases hrc : rc ≠ 0
    · rw [if_pos hrc]
      simp only [printError, Dev.exec_bind, exec_send_answered, Dev.exec_pure, Halt.andThen_done,
        hnext, ne_eq, not_true_eq_false, if_false, Halt.logged_done]
      exact ⟨rfl, rfl, hagree⟩
    · rw [if_neg hrc]
      simp only [Dev.exec_bind, hnext, Halt.andThen_done, ne_eq, not_true_eq_false, if_false,
        Dev.exec_pure, Halt.logged_done]
      exact ⟨rfl, rfl, hagree⟩

end
