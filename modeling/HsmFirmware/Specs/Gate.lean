-- SUMMARY: The PIN gate: which PINs pass, what it leaves in RAM, and that it writes the PIN page only.
import HsmFirmware.Specs.Flash
import HsmFirmware.Firmware.Commands

/-!
# The PIN gate

A PIN passes when the device is initialised and the hash matches. The failure
count is the only thing the gate changes in RAM; when it changes, the PIN page is
rewritten, and whether that succeeds makes no difference to the gate.
-/

/-- The RAM with another failure count. -/
def Ram.setFails (ram : Ram) (count : UInt32) : Ram := { ram with gFailCount := count }

@[simp] theorem Ram.gFat_setFails (ram : Ram) (c : UInt32) : (ram.setFails c).gFat = ram.gFat := rfl
@[simp] theorem Ram.gNameTable_setFails (ram : Ram) (c : UInt32) :
    (ram.setFails c).gNameTable = ram.gNameTable := rfl
@[simp] theorem Ram.gPinHash_setFails (ram : Ram) (c : UInt32) :
    (ram.setFails c).gPinHash = ram.gPinHash := rfl
@[simp] theorem Ram.gInitialized_setFails (ram : Ram) (c : UInt32) :
    (ram.setFails c).gInitialized = ram.gInitialized := rfl
@[simp] theorem Ram.gFailCount_setFails (ram : Ram) (c : UInt32) :
    (ram.setFails c).gFailCount = c := rfl

theorem Ram.setFails_self {ram : Ram} {c : UInt32} (h : ram.gFailCount = c) :
    ram.setFails c = ram := by
  subst h
  rfl

/-- The PIN passes the gate. -/
def PinCorrect (fw : Firmware) (ram : Ram) (pin : Bytes) : Prop :=
  ram.gInitialized = true ∧ computePinHash fw pin = some ram.gPinHash

/-- The commands of `write_pin_state`. -/
def pinOps (ram : Ram) : List Op := pageOps pinStateAddr (pinStatePage ram)

@[simp] theorem length_pinStatePage (ram : Ram) : (pinStatePage ram).length = pageSize := by
  simp only [pinStatePage, List.length_append, Vector.length_toList, Codec.length_encode,
    List.length_replicate, Codec.u32_size]
  rfl

theorem pinOps_within (ram : Ram) :
    ∀ o ∈ pinOps ram, o.Within pinStateAddr (pinStateAddr + pageSize) :=
  pageOps_within rfl (by simp) (Nat.le_refl _) (Nat.le_refl _)

theorem writePinState_attempts (ram : Ram) (w : World) :
    writePinState.Attempts ram w 0 ram (w.after (pinOps ram)) (pinOps ram) (· = (-1, ram)) := by
  refine Dev.Attempts.get_bind ?_
  have h := @rewritePage_attempts Int pinStateAddr (pinStatePage ram) (-1) 0 (pure 0) ram ram w _ _
    (· = (-1, ram)) Dev.Attempts.pure rfl
  rw [List.append_nil] at h
  exact h

theorem writePinState_onFlash : writePinState.OnFlash := by
  refine Dev.OnFlash.bind (fun _ => trivial) fun ram => ?_
  refine Dev.OnFlash.bind (flashSimpleErasePage_onFlash _) fun rc => ?_
  split
  · exact Dev.OnFlash.pure _
  · refine Dev.OnFlash.bind (flashSimpleWrite_onFlash _ _) fun rc => ?_
    split <;> exact Dev.OnFlash.pure _

/-- The commands of the gate for a PIN that passes. -/
def gateOps (ram : Ram) : List Op :=
  if ram.gFailCount = 0 then [] else pinOps (ram.setFails 0)

theorem gateOps_within (ram : Ram) :
    ∀ o ∈ gateOps ram, o.Within pinStateAddr (pinStateAddr + pageSize) := by
  rw [gateOps]
  split
  · simp
  · exact pinOps_within _

section

variable {fw : Firmware} {pin : Bytes} {ram : Ram}

/-- The comparison of hashes, in constant time, is equality. -/
theorem bytesDiffer_digest {a b : Digest} : (bytesDiffer a.toList b.toList == 0) = (a == b) := by
  have h : bytesDiffer a.toList b.toList = 0 ↔ a = b :=
    (bytesDiffer_eq_zero (by simp)).trans Vector.toList_inj
  rw [Bool.eq_iff_iff, beq_iff_eq, beq_iff_eq]
  exact h

/-- A PIN that passes: the failure count is cleared, and the page rewritten if it was not
    clear already. -/
theorem checkPin_run_correct (h : PinCorrect fw ram pin) :
    (checkPin fw pin).run ram =
      if ram.gFailCount = 0 then .ret (true, ram)
      else writePinState.run (ram.setFails 0) >>= fun r => .ret (true, r.2) := by
  obtain ⟨hinit, hhash⟩ := h
  unfold checkPin
  rw [StateT.run_bind, StateT.run_get]
  simp only [Prog.pure_eq, Prog.ret_bind, hinit, Bool.not_true, Bool.false_eq_true, if_false, hhash,
    bytesDiffer_digest, beq_self_eq_true, if_true]
  by_cases hc : ram.gFailCount = 0
  · rw [if_neg (by simpa using hc), if_pos hc]
    rfl
  · rw [if_pos (by simpa using hc), if_neg hc]
    rfl

/-- Any other PIN: the failure is counted, if there is a hash to compare with. -/
theorem checkPin_run_incorrect (h : ¬ PinCorrect fw ram pin) :
    (checkPin fw pin).run ram =
      if ram.gInitialized = true ∧ (computePinHash fw pin).isSome then
        writePinState.run (ram.setFails (ram.gFailCount + 1)) >>= fun r => .ret (false, r.2)
      else .ret (false, ram) := by
  unfold checkPin
  rw [StateT.run_bind, StateT.run_get]
  simp only [Prog.pure_eq, Prog.ret_bind]
  cases hinit : ram.gInitialized with
  | false => rfl
  | true =>
    cases hhash : computePinHash fw pin with
    | none => rfl
    | some hash =>
      have hne : (hash == ram.gPinHash) = false := by
        simp only [beq_eq_false_iff_ne, ne_eq]
        rintro rfl
        exact h ⟨hinit, hhash⟩
      simp only [Bool.not_true, Bool.false_eq_true, if_false, bytesDiffer_digest, hne]
      rfl

theorem pinGate_exec_correct (h : PinCorrect fw ram pin) (fs : Schedule) (w : World) :
    (pinGate fw pin).exec fs ram w =
      if ram.gFailCount = 0 then .done (0, ram) w [] fs
      else (writePinState.exec fs (ram.setFails 0) w).andThen
        fun r w' fs' => .done (0, r.2) w' [] fs' := by
  rw [pinGate, if_neg (by simp [pinIsLocked]), Dev.exec_bind, Dev.exec, checkPin_run_correct h]
  split
  · rfl
  · rw [Machine.exec_bind]
    show Halt.andThen (Halt.andThen (writePinState.exec fs (ram.setFails 0) w) _) _ = _
    cases writePinState.exec fs (ram.setFails 0) w <;> simp

theorem pinGate_exec_incorrect (h : ¬ PinCorrect fw ram pin) (fs : Schedule) (w : World) :
    (pinGate fw pin).exec fs ram w =
      if ram.gInitialized = true ∧ (computePinHash fw pin).isSome then
        (writePinState.exec fs (ram.setFails (ram.gFailCount + 1)) w).andThen
          fun r w' fs' => .done (-1, r.2) (w'.answered (errorPacket "Invalid pin\n")) [] fs'
      else .done (-1, ram) (w.answered (errorPacket "Invalid pin\n")) [] fs := by
  rw [pinGate, if_neg (by simp [pinIsLocked]), Dev.exec_bind, Dev.exec, checkPin_run_incorrect h]
  split
  · rw [Machine.exec_bind]
    show Halt.andThen (Halt.andThen (writePinState.exec fs (ram.setFails (ram.gFailCount + 1)) w) _) _ = _
    cases writePinState.exec fs (ram.setFails (ram.gFailCount + 1)) w <;>
      simp [pinIsLocked, World.answered]
  · rfl

/-- The ways the gate can end. -/
inductive GateEnding (fw : Firmware) (ram : Ram) (w : World) (fs : Schedule) (pin : Bytes) :
    Halt Op World (Int × Ram) → Prop where
  | passed {k : Nat} (h : PinCorrect fw ram pin) :
      GateEnding fw ram w fs pin (.done (0, ram.setFails 0) (w.after ((gateOps ram).take k))
        ((gateOps ram).take k) (fs.attempt (gateOps ram).length))
  | refused {count : UInt32} {L : List Op} {rest : Schedule} (h : ¬ PinCorrect fw ram pin)
      (hL : ∀ o ∈ L, o.Within pinStateAddr (pinStateAddr + pageSize)) :
      GateEnding fw ram w fs pin
        (.done (-1, ram.setFails count) ((w.after L).answered (errorPacket "Invalid pin\n")) L rest)
  | cut {L : List Op} (hL : ∀ o ∈ L, o.Within pinStateAddr (pinStateAddr + pageSize)) :
      GateEnding fw ram w fs pin (.off (w.after L) L)

/-- However `write_pin_state` ends, it leaves the world its log says. -/
theorem writePinState_state (fs : Schedule) (ram : Ram) (w : World) :
    (writePinState.exec fs ram w).state = w.after (writePinState.exec fs ram w).log :=
  exec_onFlash (writePinState_onFlash ram) fs w

theorem pinGate_ending (pin : Bytes) (fs : Schedule) (ram : Ram) (w : World) :
    GateEnding fw ram w fs pin ((pinGate fw pin).exec fs ram w) := by
  by_cases h : PinCorrect fw ram pin
  · rw [pinGate_exec_correct h]
    by_cases hc : ram.gFailCount = 0
    · have hpass := @GateEnding.passed fw ram w fs pin 0 h
      rw [Ram.setFails_self hc, gateOps, if_pos hc] at hpass
      rw [if_pos hc]
      exact hpass
    · rw [if_neg hc]
      have hatt := writePinState_attempts (ram.setFails 0) w
      have hstate := writePinState_state fs (ram.setFails 0) w
      cases hexec : writePinState.exec fs (ram.setFails 0) w with
      | done r t l rest =>
        rw [hexec] at hstate
        obtain rfl : t = w.after l := hstate
        obtain ⟨hrest, ⟨k, hk⟩, hr⟩ := Machine.Attempts.of_done hatt hexec
        have hram : r.2 = ram.setFails 0 := by
          rcases hr with rfl | rfl <;> rfl
        have hpass := @GateEnding.passed fw ram w fs pin k h
        rw [gateOps, if_neg hc, ← hk, ← hrest] at hpass
        rw [Halt.andThen_done, Halt.logged_done, List.append_nil, hram]
        exact hpass
      | off t l =>
        rw [hexec] at hstate
        obtain rfl : t = w.after l := hstate
        obtain ⟨k, rfl⟩ := Machine.Attempts.of_off hatt hexec
        exact .cut fun o ho => pinOps_within _ o (List.mem_of_mem_take ho)
  · rw [pinGate_exec_incorrect h]
    split
    · have hatt := writePinState_attempts (ram.setFails (ram.gFailCount + 1)) w
      have hstate := writePinState_state fs (ram.setFails (ram.gFailCount + 1)) w
      cases hexec : writePinState.exec fs (ram.setFails (ram.gFailCount + 1)) w with
      | done r t l rest =>
        rw [hexec] at hstate
        obtain rfl : t = w.after l := hstate
        obtain ⟨-, ⟨k, rfl⟩, hr⟩ := Machine.Attempts.of_done hatt hexec
        have hram : r.2 = ram.setFails (ram.gFailCount + 1) := by
          rcases hr with rfl | rfl <;> rfl
        rw [Halt.andThen_done, Halt.logged_done, List.append_nil, hram]
        exact .refused h fun o ho => pinOps_within _ o (List.mem_of_mem_take ho)
      | off t l =>
        rw [hexec] at hstate
        obtain rfl : t = w.after l := hstate
        obtain ⟨k, rfl⟩ := Machine.Attempts.of_off hatt hexec
        exact .cut fun o ho => pinOps_within _ o (List.mem_of_mem_take ho)
    · exact @GateEnding.refused fw ram w fs pin ram.gFailCount [] fs h (by simp)

/-! ## Without faults -/

theorem pinGate_runs_correct (h : PinCorrect fw ram pin) (w : World) :
    (pinGate fw pin).Runs ram w 0 (ram.setFails 0) (w.after (gateOps ram)) (gateOps ram) := by
  show (pinGate fw pin).exec [] ram w = _
  rw [pinGate_exec_correct h, gateOps]
  split
  · rename_i hc
    rw [Ram.setFails_self hc]
    rfl
  · have hrun : writePinState.exec [] (ram.setFails 0) w = _ :=
      (writePinState_attempts (ram.setFails 0) w).runs
    rw [hrun, Halt.andThen_done, Halt.logged_done, List.append_nil]

/-! ## Behind the gate -/

/-- The ways a command behind the gate can end. -/
inductive GatedEnding (fw : Firmware) (ram : Ram) (w : World) (fs : Schedule) (pin : Bytes)
    (k : Dev Int) : Halt Op World (Int × Ram) → Prop where
  | entered {j : Nat} (h : PinCorrect fw ram pin) :
      GatedEnding fw ram w fs pin k
        ((k.exec (fs.attempt (gateOps ram).length) (ram.setFails 0)
          (w.after ((gateOps ram).take j))).logged ((gateOps ram).take j))
  | refused {count : UInt32} {L : List Op} {rest : Schedule} (h : ¬ PinCorrect fw ram pin)
      (hL : ∀ o ∈ L, o.Within pinStateAddr (pinStateAddr + pageSize)) :
      GatedEnding fw ram w fs pin k
        (.done (-1, ram.setFails count) ((w.after L).answered (errorPacket "Invalid pin\n")) L rest)
  | cut {L : List Op} (hL : ∀ o ∈ L, o.Within pinStateAddr (pinStateAddr + pageSize)) :
      GatedEnding fw ram w fs pin k (.off (w.after L) L)

theorem gated_ending (k : Dev Int) (fs : Schedule) (w : World) :
    GatedEnding fw ram w fs pin k
      ((do if (← pinGate fw pin) ≠ 0 then pure (-1) else k : Dev Int).exec fs ram w) := by
  rw [Dev.exec_bind]
  have hend := @pinGate_ending fw pin fs ram w
  generalize (pinGate fw pin).exec fs ram w = res at hend ⊢
  cases hend with
  | passed h =>
    rw [Halt.andThen_done, if_neg (by simp)]
    exact .entered h
  | refused h hL =>
    rw [Halt.andThen_done, if_pos (by simp), Dev.exec_pure, Halt.logged_done, List.append_nil]
    exact .refused h hL
  | cut hL =>
    rw [Halt.andThen_off]
    exact .cut hL

theorem gated_runs {k : Dev Int} {w w' : World} {rc : Int} {ram' : Ram} {L : List Op}
    (h : PinCorrect fw ram pin)
    (hk : k.Runs (ram.setFails 0) (w.after (gateOps ram)) rc ram' w' L) :
    (do if (← pinGate fw pin) ≠ 0 then pure (-1) else k : Dev Int).Runs ram w rc ram' w'
      (gateOps ram ++ L) :=
  Dev.Runs.bind (pinGate_runs_correct h w) hk

end
