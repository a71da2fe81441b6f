-- SUMMARY: The PIN page and the functions over it: what a boot reads, what pin_init provisions, and what pin_change does.
import HsmFirmware.Specs.Gate

/-!
# PIN state

The hash of the PIN and the count of failures live in RAM and in one page of
flash. A boot reads the page; where the hash reads as erased, it provisions the
PIN of the build instead.
-/

open Machine (replay)

/-! ## The page -/

/-- The hash a boot reads. -/
def hashAt (m : Mem) : Digest := (Codec.bytes 32).decode (m.read pinStateAddr pageSize)

/-- The count a boot reads. -/
def failsAt (m : Mem) : UInt32 :=
  let failCount := Codec.u32.decode ((m.read pinStateAddr pageSize).drop 32)
  if failCount = 0xFFFFFFFF then 0 else failCount

/-- The RAM with another hash and count. -/
def Ram.setPin (ram : Ram) (hash : Digest) (count : UInt32) : Ram :=
  { ram with gPinHash := hash, gFailCount := count }

/-- The RAM of a device that has booted. -/
def Ram.started (ram : Ram) : Ram := { ram with gInitialized := true }

@[simp] theorem Ram.gPinHash_setPin (ram : Ram) (h : Digest) (c : UInt32) :
    (ram.setPin h c).gPinHash = h := rfl
@[simp] theorem Ram.gFailCount_setPin (ram : Ram) (h : Digest) (c : UInt32) :
    (ram.setPin h c).gFailCount = c := rfl
@[simp] theorem Ram.gInitialized_setPin (ram : Ram) (h : Digest) (c : UInt32) :
    (ram.setPin h c).gInitialized = ram.gInitialized := rfl
@[simp] theorem Ram.gPinHash_started (ram : Ram) : ram.started.gPinHash = ram.gPinHash := rfl
@[simp] theorem Ram.gFailCount_started (ram : Ram) : ram.started.gFailCount = ram.gFailCount := rfl
@[simp] theorem Ram.gInitialized_started (ram : Ram) : ram.started.gInitialized = true := rfl

@[simp] theorem Ram.setPin_setPin (ram : Ram) (h h' : Digest) (c c' : UInt32) :
    (ram.setPin h c).setPin h' c' = ram.setPin h' c' := rfl

/-- The pattern of erased flash. -/
def Blank (hash : Digest) : Prop := hash.toList = List.replicate 32 0xFF

instance (hash : Digest) : Decidable (Blank hash) :=
  inferInstanceAs (Decidable (hash.toList = List.replicate 32 0xFF))

theorem pinHashIsBlank_iff {ram : Ram} : pinHashIsBlank ram = true ↔ Blank ram.gPinHash := by
  unfold pinHashIsBlank Blank
  rw [List.all_eq_true, List.eq_replicate_iff]
  simp

/-- A page that starts with a hash and a count shows them. -/
theorem hashAt_of_read {m : Mem} {hash : Digest} {rest : Bytes}
    (h : m.read pinStateAddr pageSize = hash.toList ++ rest) : hashAt m = hash := by
  unfold hashAt
  rw [h]
  exact (Codec.bytes 32).decode_encode hash rest

theorem failsAt_of_read {m : Mem} {hash : Digest} {count : UInt32} {rest : Bytes}
    (h : m.read pinStateAddr pageSize = hash.toList ++ (Codec.u32.encode count ++ rest)) :
    failsAt m = if count = 0xFFFFFFFF then 0 else count := by
  unfold failsAt
  rw [h, List.drop_left' (by simp), Codec.u32.decode_encode]

theorem hashAt_congr {m m' : Mem}
    (h : Mem.Agree m m' pinStateAddr (pinStateAddr + pageSize)) : hashAt m = hashAt m' := by
  unfold hashAt
  rw [h.read (Nat.le_refl _) (Nat.le_refl _)]

/-- An erased page shows no hash. -/
theorem hashAt_blank {m : Mem} (h : Mem.Erased m pinStateAddr (pinStateAddr + pageSize)) :
    Blank (hashAt m) := by
  unfold Blank hashAt
  rw [h.read (Nat.le_refl _) (Nat.le_refl _)]
  decide

/-- Part of a page, programmed into the erased page. -/
theorem read_program_page {page : Bytes} (m : Mem) (hlen : page.length ≤ pageSize) :
    ((m.erase pageSize pinStateAddr).program pinStateAddr page).read pinStateAddr pageSize =
      page ++ List.replicate (pageSize - page.length) 0xFF := by
  rw [← Mem.program_append_ff pinStateAddr (pageSize - page.length)]
  have hall : (page ++ List.replicate (pageSize - page.length) 0xFF).length = pageSize := by
    rw [List.length_append, List.length_replicate]
    omega
  have herased : Mem.Erased (m.erase pageSize pinStateAddr) pinStateAddr
      (pinStateAddr + (page ++ List.replicate (pageSize - page.length) 0xFF).length) := by
    rw [hall]
    exact @Mem.erased_erase pageSize 234 m (by decide)
  have hread := Mem.read_program_erased' herased
  rwa [hall] at hread

theorem read_pinOps (ram : Ram) (m : Mem) :
    (replay flashStep (pinOps ram) m).read pinStateAddr pageSize = pinStatePage ram := by
  show (replay flashStep (writeOps pinStateAddr (pinStatePage ram))
    (m.erase pageSize pinStateAddr)).read pinStateAddr pageSize = _
  rw [replay_writeOps, read_program_page m (by simp), length_pinStatePage, Nat.sub_self,
    List.replicate_zero, List.append_nil]

theorem hashAt_pinOps (ram : Ram) (m : Mem) :
    hashAt (replay flashStep (pinOps ram) m) = ram.gPinHash := by
  apply hashAt_of_read
  rw [read_pinOps, pinStatePage, List.append_assoc]

/-! ## Boot -/

theorem loadPinState_exec (fs : Schedule) (ram : Ram) (w : World) :
    loadPinState.exec fs ram w =
      .done ((), ram.setPin (hashAt w.flash) (failsAt w.flash)) w [] fs := rfl

/-- What `pin_init` takes from `HSM_PIN`. -/
def provisionedPin (fw : Firmware) : Bytes := (fw.hsmPin.take pinMaxLen).takeWhile (· ≠ 0)

/-- The hash `pin_init` provisions. -/
def provisionedHash (fw : Firmware) : Option Digest :=
  if (provisionedPin fw).length < pinLength then none else computePinHash fw (provisionedPin fw)

theorem length_provisionedPin (fw : Firmware) : (provisionedPin fw).length ≤ pinMaxLen := by
  have hall := (List.takeWhile_sublist (p := (· ≠ 0)) (l := fw.hsmPin.take pinMaxLen)).length_le
  unfold provisionedPin
  refine hall.trans ?_
  rw [List.length_take]
  exact Nat.min_le_left _ _

section

variable {fw : Firmware} {ram : Ram} {w : World}

/-- A page with a hash is taken over. -/
theorem pinInit_runs_held (h : ¬ Blank (hashAt w.flash)) :
    (pinInit fw).Runs ram w 0 (ram.setPin (hashAt w.flash) (failsAt w.flash)).started w [] := by
  have hblank : pinHashIsBlank (ram.setPin (hashAt w.flash) (failsAt w.flash)) = false := by
    rw [← Bool.not_eq_true, pinHashIsBlank_iff]
    exact h
  unfold Dev.Runs Machine.Runs pinInit
  show Dev.exec _ [] ram w = _
  rw [Dev.exec_bind, loadPinState_exec, Halt.andThen_done, Halt.logged_nil, Dev.exec_bind,
    Dev.exec_get, Halt.andThen_done, Halt.logged_nil]
  simp only [hblank, Bool.false_eq_true, if_false]
  rfl

/-- A page without one is provisioned. -/
theorem pinInit_runs_provisions {hash : Digest} (h : Blank (hashAt w.flash))
    (hhash : provisionedHash fw = some hash) :
    (pinInit fw).Runs ram w 0 (ram.setPin hash 0).started (w.after (pinOps (ram.setPin hash 0)))
      (pinOps (ram.setPin hash 0)) := by
  have hblank : pinHashIsBlank (ram.setPin (hashAt w.flash) (failsAt w.flash)) = true :=
    pinHashIsBlank_iff.mpr h
  unfold provisionedHash at hhash
  split at hhash
  · cases hhash
  · rename_i hlen
    have hwrite : writePinState.Runs (ram.setPin hash 0) w 0 (ram.setPin hash 0) _ _ :=
      (writePinState_attempts (ram.setPin hash 0) w).runs
    unfold Dev.Runs Machine.Runs pinInit
    show Dev.exec _ [] ram w = _
    rw [Dev.exec_bind, loadPinState_exec, Halt.andThen_done, Halt.logged_nil, Dev.exec_bind,
      Dev.exec_get, Halt.andThen_done, Halt.logged_nil]
    unfold provisionedPin at hlen hhash
    simp only [hblank, if_true, hlen, if_false, hhash]
    rw [Dev.exec_bind, Dev.exec_modify, Halt.andThen_done, Halt.logged_nil, Dev.exec_bind]
    have hram : ({ ram.setPin (hashAt w.flash) (failsAt w.flash) with
        gPinHash := hash, gFailCount := 0 } : Ram) = ram.setPin hash 0 :=
      Ram.setPin_setPin ram (hashAt w.flash) hash (failsAt w.flash) 0
    rw [hram, Dev.exec, hwrite, Halt.andThen_done]
    simp only [ne_eq, not_true_eq_false, if_false]
    rw [Dev.exec_bind, Dev.exec_modify, Halt.andThen_done, Halt.logged_nil, Dev.exec_pure,
      Halt.logged_done, List.append_nil]
    rfl

/-- There is nothing to provision. -/
theorem pinInit_runs_fails (h : Blank (hashAt w.flash)) (hhash : provisionedHash fw = none) :
    (pinInit fw).Runs ram w (-1) (ram.setPin (hashAt w.flash) (failsAt w.flash)) w [] := by
  have hblank : pinHashIsBlank (ram.setPin (hashAt w.flash) (failsAt w.flash)) = true :=
    pinHashIsBlank_iff.mpr h
  unfold Dev.Runs Machine.Runs pinInit
  show Dev.exec _ [] ram w = _
  rw [Dev.exec_bind, loadPinState_exec, Halt.andThen_done, Halt.logged_nil, Dev.exec_bind,
    Dev.exec_get, Halt.andThen_done, Halt.logged_nil]
  unfold provisionedHash at hhash
  split at hhash
  · rename_i hlen
    unfold provisionedPin at hlen
    simp only [hblank, if_true, hlen]
    rfl
  · rename_i hlen
    unfold provisionedPin at hlen hhash
    simp only [hblank, if_true, hlen, if_false, hhash]
    rfl

/-! ## Changing the PIN -/

/-- The lengths a PIN may have. -/
def PinLen (pin : Bytes) : Prop := pinLength ≤ pin.length ∧ pin.length ≤ pinMaxLen

instance (pin : Bytes) : Decidable (PinLen pin) :=
  inferInstanceAs (Decidable (pinLength ≤ pin.length ∧ pin.length ≤ pinMaxLen))

theorem pinLen_iff {pin : Bytes} :
    PinLen pin ↔ ¬ (pin.length < pinLength ∨ pinMaxLen < pin.length) := by
  unfold PinLen
  omega

theorem pinLen_provisioned (h : ¬ (provisionedPin fw).length < pinLength) :
    PinLen (provisionedPin fw) :=
  ⟨Nat.not_lt.mp h, length_provisionedPin fw⟩

theorem provisionedHash_eq {hash : Digest} (h : provisionedHash fw = some hash) :
    PinLen (provisionedPin fw) ∧ computePinHash fw (provisionedPin fw) = some hash := by
  unfold provisionedHash at h
  split at h
  · cases h
  · rename_i hlen
    exact ⟨pinLen_provisioned hlen, h⟩

/-- A device with a root secret hashes every PIN. -/
theorem computePinHash_isSome {pin : Bytes} (h : (computePinHash fw pin).isSome) (pin' : Bytes) :
    ∃ hash, computePinHash fw pin' = some hash := by
  unfold computePinHash at h ⊢
  cases hroot : securityGetRootSecret fw with
  | none =>
    rw [hroot] at h
    cases h
  | some root => exact ⟨_, rfl⟩

/-- The old PIN is right, and the new one replaces it. -/
theorem pinChange_run_correct {oldPin newPin : Bytes} {hash : Digest} (hold : PinLen oldPin)
    (hnew : PinLen newPin) (h : PinCorrect fw ram oldPin)
    (hhash : computePinHash fw newPin = some hash) :
    (pinChange fw oldPin newPin).run ram = writePinState.run (ram.setPin hash 0) := by
  obtain ⟨hinit, hcand⟩ := h
  have hdiff : bytesDiffer ram.gPinHash.toList ram.gPinHash.toList = 0 :=
    (bytesDiffer_eq_zero rfl).mpr rfl
  unfold pinChange
  rw [StateT.run_bind, StateT.run_get]
  simp only [Prog.pure_eq, Prog.ret_bind, hinit, Bool.not_true, Bool.false_eq_true, if_false]
  rw [if_neg (pinLen_iff.mp hold), if_neg (pinLen_iff.mp hnew), hcand]
  simp only [hdiff, ne_eq, not_true_eq_false, if_false, hhash]
  rfl

/-- Otherwise nothing changes but the count, and that only for PINs that can be compared. -/
theorem pinChange_run_refused {oldPin newPin : Bytes}
    (h : ¬ (PinLen oldPin ∧ PinLen newPin ∧ PinCorrect fw ram oldPin)) :
    (pinChange fw oldPin newPin).run ram =
      if PinLen oldPin ∧ PinLen newPin ∧ ram.gInitialized = true ∧ (computePinHash fw oldPin).isSome
      then writePinState.run (ram.setFails (ram.gFailCount + 1)) >>= fun r => .ret (-1, r.2)
      else .ret (-1, ram) := by
  unfold pinChange
  rw [StateT.run_bind, StateT.run_get]
  simp only [Prog.pure_eq, Prog.ret_bind]
  cases hinit : ram.gInitialized with
  | false => simp
  | true =>
    simp only [Bool.not_true, Bool.false_eq_true, if_false]
    by_cases hold : PinLen oldPin
    · by_cases hnew : PinLen newPin
      · rw [if_neg (pinLen_iff.mp hold), if_neg (pinLen_iff.mp hnew)]
        cases hcand : computePinHash fw oldPin with
        | none => simp
        | some hash =>
          have hne : bytesDiffer hash.toList ram.gPinHash.toList ≠ 0 := by
            intro hzero
            apply h
            have heq := Vector.toList_inj.mp ((bytesDiffer_eq_zero (by simp)).mp hzero)
            exact ⟨hold, hnew, hinit, heq ▸ hcand⟩
          rw [if_pos ⟨hold, hnew, trivial, rfl⟩]
          simp only [hne, ne_eq, not_false_eq_true, if_true]
          rfl
      · rw [if_neg (pinLen_iff.mp hold), if_pos (not_not.mp (mt pinLen_iff.mpr hnew)),
          if_neg fun hall => hnew hall.2.1]
        rfl
    · rw [if_pos (not_not.mp (mt pinLen_iff.mpr hold)), if_neg fun hall => hold hall.1]
      rfl

/-! ## Without faults -/

theorem writePinState_then {α : Type} (a : α) (ram : Ram) (w : World) :
    hsm.Runs (writePinState.run ram >>= fun r => .ret (a, r.2)) w (a, ram) (w.after (pinOps ram))
      (pinOps ram) := by
  have h := Machine.Runs.bind (f := fun r : Int × Ram => .ret (a, r.2))
    (writePinState_attempts ram w).runs (Machine.Runs.ret hsm (a, ram) (w.after (pinOps ram)))
  rwa [List.append_nil] at h

theorem checkPin_runs_correct {pin : Bytes} (h : PinCorrect fw ram pin) :
    (checkPin fw pin).Runs ram w true (ram.setFails 0) (w.after (gateOps ram)) (gateOps ram) := by
  unfold Dev.Runs gateOps
  rw [checkPin_run_correct h]
  split
  · rename_i hc
    rw [Ram.setFails_self hc]
    exact Machine.Runs.ret hsm _ _
  · exact writePinState_then true _ w

theorem checkPin_runs_incorrect {pin : Bytes} (h : ¬ PinCorrect fw ram pin)
    (hinit : ram.gInitialized = true) (hsome : (computePinHash fw pin).isSome) :
    (checkPin fw pin).Runs ram w false (ram.setFails (ram.gFailCount + 1))
      (w.after (pinOps (ram.setFails (ram.gFailCount + 1))))
      (pinOps (ram.setFails (ram.gFailCount + 1))) := by
  unfold Dev.Runs
  rw [checkPin_run_incorrect h, if_pos ⟨hinit, hsome⟩]
  exact writePinState_then false _ w

theorem pinChange_runs_correct {oldPin newPin : Bytes} {hash : Digest} (hold : PinLen oldPin)
    (hnew : PinLen newPin) (h : PinCorrect fw ram oldPin)
    (hhash : computePinHash fw newPin = some hash) :
    (pinChange fw oldPin newPin).Runs ram w 0 (ram.setPin hash 0)
      (w.after (pinOps (ram.setPin hash 0))) (pinOps (ram.setPin hash 0)) := by
  unfold Dev.Runs
  rw [pinChange_run_correct hold hnew h hhash]
  exact (writePinState_attempts (ram.setPin hash 0) w).runs

/-- A change that is refused leaves the hash, and a page that shows it if it is rewritten. -/
theorem pinChange_runs_refused {oldPin newPin : Bytes}
    (h : ¬ (PinLen oldPin ∧ PinLen newPin ∧ PinCorrect fw ram oldPin)) :
    (∃ count, (pinChange fw oldPin newPin).Runs ram w (-1) (ram.setFails count)
      (w.after (pinOps (ram.setFails count))) (pinOps (ram.setFails count))) ∨
    (pinChange fw oldPin newPin).Runs ram w (-1) ram w [] := by
  unfold Dev.Runs
  rw [pinChange_run_refused h]
  split
  · exact .inl ⟨_, writePinState_then (-1) _ w⟩
  · exact .inr (Machine.Runs.ret hsm _ _)

end
