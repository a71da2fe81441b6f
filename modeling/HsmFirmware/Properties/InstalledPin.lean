-- SUMMARY: Which PIN passes check_pin, over every run of PIN checks, PIN changes and reboots from the first boot.
import HsmFirmware.Specs.PinState
import HsmFirmware.Firmware.Release

/-!
# The installed PIN

Three functions hash a PIN: `pin_init` up to the terminator of `HSM_PIN`,
`pin_change` as many bytes as it is given, and `check_pin` always `PIN_LENGTH`
bytes. A run keeps the hash of the PIN installed last, whatever its length, so
`check_pin` accepts exactly that PIN when it has `PIN_LENGTH` bytes, and no PIN
that starts like it when it has more.
-/

/-- The string `HSM_PIN`, up to its terminator. -/
def hsmPinString (fw : Firmware) : Bytes := fw.hsmPin.takeWhile (· ≠ 0)

theorem takeWhile_take {α : Type} (p : α → Bool) (n : Nat) (l : List α) :
    (l.take n).takeWhile p = (l.takeWhile p).take n := by
  induction l generalizing n with
  | nil => simp
  | cons a l ih =>
    cases n with
    | zero => rfl
    | succ n =>
      rw [List.take_succ_cons, List.takeWhile_cons, List.takeWhile_cons]
      split
      · rw [ih, List.take_succ_cons]
      · rfl

/-- `pin_init` hashes the string, up to `PIN_MAX_LEN` bytes of it. -/
theorem provisionedPin_eq (fw : Firmware) :
    provisionedPin fw = (hsmPinString fw).take pinMaxLen :=
  takeWhile_take _ _ _

section

variable (fw : Firmware)

/-- `check_pin` returns true. -/
def Passes (ram : Ram) (w : World) (pin : Bytes) : Prop :=
  ∃ ram' w' L, (checkPin fw pin).Runs ram w true ram' w' L

/-- The PIN can be used to pass `check_pin`, which reads `PIN_LENGTH` bytes of it, and no other
    PIN passes. -/
structure AcceptsOnly (ram : Ram) (w : World) (pin : Bytes) : Prop where
  passes : Passes fw ram w (pin.take pinLength)
  only : ∀ other, other.length = pinLength → Passes fw ram w other → other = pin

/-- Distinct PINs have distinct hashes. -/
def PinHashInjective : Prop :=
  ∀ pin pin' hash, PinLen pin → PinLen pin' → computePinHash fw pin = some hash →
    computePinHash fw pin' = some hash → pin = pin'

/-- A run of the PIN functions, where flash does not fail, with the PIN installed last. -/
inductive PinRun : Bytes → Ram → World → Prop where
  /-- The first boot, on a blank page. -/
  | firstBoot {ram ram' : Ram} {w w' : World} {L : List Op}
      (hblank : Mem.Erased w.flash pinStateAddr (pinStateAddr + pageSize))
      (h : (pinInit fw).Runs ram w 0 ram' w' L) : PinRun (hsmPinString fw) ram' w'
  | check {installed pin : Bytes} {ok : Bool} {ram ram' : Ram} {w w' : World} {L : List Op}
      (hrun : PinRun installed ram w) (hlen : pin.length = pinLength)
      (h : (checkPin fw pin).Runs ram w ok ram' w' L) : PinRun installed ram' w'
  | change {installed oldPin newPin : Bytes} {ram ram' : Ram} {w w' : World} {L : List Op}
      (hrun : PinRun installed ram w) (h : (pinChange fw oldPin newPin).Runs ram w 0 ram' w' L) :
      PinRun newPin ram' w'
  | changeFails {installed oldPin newPin : Bytes} {rc : Int} {ram ram' : Ram} {w w' : World}
      {L : List Op} (hrun : PinRun installed ram w)
      (h : (pinChange fw oldPin newPin).Runs ram w rc ram' w' L) (hrc : rc ≠ 0) :
      PinRun installed ram' w'
  /-- A reboot, which a hash that looks like a blank page survives only if it is provisioned. -/
  | reboot {installed : Bytes} {rc : Int} {ram ram₀ ram' : Ram} {w w' : World} {L : List Op}
      (hrun : PinRun installed ram w)
      (hheld : pinHashIsBlank ram = true → installed = hsmPinString fw)
      (h : (pinInit fw).Runs ram₀ w rc ram' w' L) : PinRun installed ram' w'
  /-- Any other code, which leaves the PIN state alone. -/
  | other {installed : Bytes} {ram ram' : Ram} {w w' : World} (hrun : PinRun installed ram w)
      (hhash : ram'.gPinHash = ram.gPinHash) (hfails : ram'.gFailCount = ram.gFailCount)
      (hinit : ram'.gInitialized = ram.gInitialized)
      (hpage : Mem.Agree w'.flash w.flash pinStateAddr (pinStateAddr + pageSize)) :
      PinRun installed ram' w'

/-- What holds along a run: the device and its page hold the hash of the installed PIN. -/
structure Installed (installed : Bytes) (ram : Ram) (w : World) : Prop where
  started : ram.gInitialized = true
  min : pinLength ≤ installed.length
  hash : computePinHash fw (installed.take pinMaxLen) = some ram.gPinHash
  held : hashAt w.flash = ram.gPinHash

end

section

variable {fw : Firmware} {installed pin : Bytes} {ram ram' : Ram} {w w' : World} {L : List Op}

theorem passes_iff : Passes fw ram w pin ↔ PinCorrect fw ram pin := by
  constructor
  · rintro ⟨ram', w', L, h⟩
    by_contra hwrong
    unfold Dev.Runs at h
    rw [checkPin_run_incorrect hwrong] at h
    split at h
    · exact absurd (h.unique (writePinState_then false _ w)).1 (by simp)
    · exact absurd (h.unique (Machine.Runs.ret hsm (false, ram) w)).1 (by simp)
  · intro h
    exact ⟨_, _, _, checkPin_runs_correct h⟩

/-! ## The invariant of a run -/

/-- Rewriting the page with the hash that is in force. -/
theorem Installed.rewritten (h : Installed fw installed ram w) (count : UInt32) :
    Installed fw installed (ram.setFails count) (w.after (pinOps (ram.setFails count))) where
  started := h.started
  min := h.min
  hash := h.hash
  held := hashAt_pinOps (ram.setFails count) w.flash

theorem Installed.firstBoot (hblank : Mem.Erased w.flash pinStateAddr (pinStateAddr + pageSize))
    (h : (pinInit fw).Runs ram w 0 ram' w' L) : Installed fw (hsmPinString fw) ram' w' := by
  have hshown : Blank (hashAt w.flash) := hashAt_blank hblank
  cases hhash : provisionedHash fw with
  | none =>
    exact absurd (h.unique (pinInit_runs_fails hshown hhash)).1 (by simp)
  | some hash =>
    obtain ⟨⟨hmin, -⟩, hpin⟩ := provisionedHash_eq hhash
    obtain ⟨hram, hworld, -⟩ := h.unique (pinInit_runs_provisions hshown hhash)
    obtain rfl : ram' = (ram.setPin hash 0).started := (Prod.mk.inj hram).2
    subst hworld
    rw [provisionedPin_eq] at hmin hpin
    refine ⟨rfl, ?_, hpin, hashAt_pinOps _ _⟩
    rw [List.length_take] at hmin
    exact hmin.trans (Nat.min_le_right _ _)

theorem Installed.check {ok : Bool} (hin : Installed fw installed ram w)
    (h : (checkPin fw pin).Runs ram w ok ram' w' L) : Installed fw installed ram' w' := by
  have hsome : (computePinHash fw pin).isSome := by
    obtain ⟨hash, hhash⟩ := computePinHash_isSome (Option.isSome_of_eq_some hin.hash) pin
    exact Option.isSome_of_eq_some hhash
  by_cases hpin : PinCorrect fw ram pin
  · obtain ⟨hram, hworld, -⟩ := h.unique (checkPin_runs_correct hpin)
    obtain rfl : ram' = ram.setFails 0 := (Prod.mk.inj hram).2
    subst hworld
    unfold gateOps
    split
    · exact ⟨hin.started, hin.min, hin.hash, hin.held⟩
    · exact hin.rewritten 0
  · obtain ⟨hram, hworld, -⟩ := h.unique (checkPin_runs_incorrect hpin hin.started hsome)
    obtain rfl : ram' = ram.setFails (ram.gFailCount + 1) := (Prod.mk.inj hram).2
    subst hworld
    exact hin.rewritten _

theorem Installed.changeFails {oldPin newPin : Bytes} {rc : Int}
    (hin : Installed fw installed ram w) (h : (pinChange fw oldPin newPin).Runs ram w rc ram' w' L)
    (hrc : rc ≠ 0) : Installed fw installed ram' w' := by
  by_cases hok : PinLen oldPin ∧ PinLen newPin ∧ PinCorrect fw ram oldPin
  · obtain ⟨hold, hnew, hpin⟩ := hok
    obtain ⟨hash, hhash⟩ := computePinHash_isSome (Option.isSome_of_eq_some hin.hash) newPin
    obtain ⟨hram, -, -⟩ := h.unique (pinChange_runs_correct hold hnew hpin hhash)
    exact absurd (Prod.mk.inj hram).1 hrc
  · cases pinChange_runs_refused hok with
    | inl hcounted =>
      obtain ⟨count, hcounted⟩ := hcounted
      obtain ⟨hram, hworld, -⟩ := h.unique hcounted
      obtain rfl : ram' = ram.setFails count := (Prod.mk.inj hram).2
      subst hworld
      exact hin.rewritten count
    | inr hquiet =>
      obtain ⟨hram, hworld, -⟩ := h.unique hquiet
      obtain rfl : ram' = ram := (Prod.mk.inj hram).2
      subst hworld
      exact hin

theorem Installed.change {oldPin newPin : Bytes} (hin : Installed fw installed ram w)
    (h : (pinChange fw oldPin newPin).Runs ram w 0 ram' w' L) : Installed fw newPin ram' w' := by
  by_cases hok : PinLen oldPin ∧ PinLen newPin ∧ PinCorrect fw ram oldPin
  · obtain ⟨hold, hnew, hpin⟩ := hok
    obtain ⟨hash, hhash⟩ := computePinHash_isSome (Option.isSome_of_eq_some hin.hash) newPin
    obtain ⟨hram, hworld, -⟩ := h.unique (pinChange_runs_correct hold hnew hpin hhash)
    obtain rfl : ram' = ram.setPin hash 0 := (Prod.mk.inj hram).2
    subst hworld
    refine ⟨hin.started, hnew.1, ?_, hashAt_pinOps _ _⟩
    rw [List.take_of_length_le hnew.2]
    exact hhash
  · cases pinChange_runs_refused hok with
    | inl hcounted =>
      obtain ⟨count, hcounted⟩ := hcounted
      exact absurd (h.unique hcounted).1 (by simp)
    | inr hquiet => exact absurd (h.unique hquiet).1 (by simp)

/-- A reboot finds the hash in the page, or provisions the PIN that is installed. -/
theorem Installed.reboot {ram₀ : Ram} {rc : Int} (hin : Installed fw installed ram w)
    (hheld : pinHashIsBlank ram = true → installed = hsmPinString fw)
    (h : (pinInit fw).Runs ram₀ w rc ram' w' L) : Installed fw installed ram' w' := by
  by_cases hblank : Blank (hashAt w.flash)
  · have hstring := hheld (pinHashIsBlank_iff.mpr (hin.held ▸ hblank))
    have hhash : provisionedHash fw = some ram.gPinHash := by
      have hpin := hin.hash
      have hmin := hin.min
      unfold provisionedHash
      rw [hstring, ← provisionedPin_eq] at hpin
      rw [hstring] at hmin
      rw [if_neg, hpin]
      rw [provisionedPin_eq, List.length_take]
      simp only [pinMaxLen, pinLength] at hmin ⊢
      omega
    obtain ⟨hram, hworld, -⟩ := h.unique (pinInit_runs_provisions hblank hhash)
    obtain rfl : ram' = (ram₀.setPin ram.gPinHash 0).started := (Prod.mk.inj hram).2
    subst hworld
    exact ⟨rfl, hin.min, hin.hash, hashAt_pinOps _ _⟩
  · obtain ⟨hram, hworld, -⟩ := h.unique (pinInit_runs_held hblank)
    obtain rfl : ram' = (ram₀.setPin (hashAt w.flash) (failsAt w.flash)).started :=
      (Prod.mk.inj hram).2
    subst hworld
    refine ⟨rfl, hin.min, ?_, ?_⟩
    · rw [Ram.gPinHash_started, Ram.gPinHash_setPin, hin.held]
      exact hin.hash
    · rw [Ram.gPinHash_started, Ram.gPinHash_setPin]

theorem PinRun.keeps (h : PinRun fw installed ram w) : Installed fw installed ram w := by
  induction h with
  | firstBoot hblank h => exact .firstBoot hblank h
  | check _ _ h ih => exact ih.check h
  | change _ h ih => exact ih.change h
  | changeFails _ h hrc ih => exact ih.changeFails h hrc
  | reboot _ hheld h ih => exact ih.reboot hheld h
  | other _ hhash _ hinit hpage ih =>
    refine ⟨hinit.trans ih.started, ih.min, ?_, ?_⟩
    · rw [hhash]
      exact ih.hash
    · rw [hhash, hashAt_congr hpage]
      exact ih.held

/-! ## Which PIN passes -/

/-- Of the PINs of `PIN_LENGTH` bytes, the one that was hashed passes. -/
theorem Installed.passes_iff_eq (hinj : PinHashInjective fw) (h : Installed fw installed ram w)
    (hlen : pin.length = pinLength) :
    Passes fw ram w pin ↔ pin = installed.take pinMaxLen := by
  rw [passes_iff]
  have hfits : PinLen (installed.take pinMaxLen) := by
    have hmin := h.min
    unfold PinLen
    rw [List.length_take]
    simp only [pinLength, pinMaxLen] at hmin ⊢
    omega
  have hpin : PinLen pin := by
    unfold PinLen
    rw [hlen]
    decide
  constructor
  · rintro ⟨-, hhash⟩
    exact hinj _ _ _ hpin hfits hhash h.hash
  · rintro rfl
    exact ⟨h.started, h.hash⟩

theorem Installed.acceptsOnly_iff (hinj : PinHashInjective fw) (h : Installed fw installed ram w) :
    AcceptsOnly fw ram w installed ↔ installed.length = pinLength := by
  have hmin := h.min
  have hlen : (installed.take pinLength).length = pinLength := by
    rw [List.length_take]
    exact Nat.min_eq_left hmin
  constructor
  · rintro ⟨hpass, -⟩
    have heq := (h.passes_iff_eq hinj hlen).mp hpass
    have hboth := congrArg List.length heq
    rw [hlen, List.length_take] at hboth
    simp only [pinLength, pinMaxLen] at hboth hmin ⊢
    omega
  · intro hexact
    have htake : installed.take pinMaxLen = installed :=
      List.take_of_length_le (by rw [hexact]; decide)
    constructor
    · rw [h.passes_iff_eq hinj hlen, htake]
      exact List.take_of_length_le hexact.le
    · intro other hother hpass
      rw [← htake]
      exact (h.passes_iff_eq hinj hother).mp hpass

end

/-- The installed PIN is the accepted PIN exactly when it has `PIN_LENGTH` bytes. -/
theorem installed_accepted_iff {fw : Firmware} (hinj : PinHashInjective fw) {installed : Bytes}
    {ram : Ram} {w : World} (hrun : PinRun fw installed ram w) :
    AcceptsOnly fw ram w installed ↔ installed.length = pinLength :=
  hrun.keeps.acceptsOnly_iff hinj

/-! ## A sample -/

/-- The build with the MAC that copies, and another PIN. -/
def Firmware.withPin (hsmPin : Bytes) : Firmware := { Firmware.copying with hsmPin := hsmPin }

theorem Firmware.withPin_computePinHash (hsmPin : Bytes) :
    ∃ key, ∀ pin, computePinHash (.withPin hsmPin) pin = some (Primitives.copying.hmac key pin) := by
  have hroot : securityGetRootSecret (.withPin hsmPin) = securityGetRootSecret .sample := by
    unfold securityGetRootSecret
    rfl
  unfold computePinHash
  rw [hroot, Firmware.sample_rootSecret]
  exact ⟨_, fun pin => rfl⟩

theorem Firmware.withPin_injective (hsmPin : Bytes) : PinHashInjective (.withPin hsmPin) := by
  intro pin pin' hash hpin hpin' h h'
  have hlong : pinMaxLen ≤ 31 := by decide
  obtain ⟨key, hkey⟩ := Firmware.withPin_computePinHash hsmPin
  rw [hkey] at h h'
  exact Primitives.copying_hmac_inj (hpin.2.trans hlong) (hpin'.2.trans hlong)
    (Option.some.inj (h.trans h'.symm))

theorem PinRun.sample {hsmPin : Bytes} (h : PinLen (provisionedPin (.withPin hsmPin))) :
    ∃ ram w, PinRun (.withPin hsmPin) (hsmPinString (.withPin hsmPin)) ram w := by
  have hblank : Mem.Erased World.sample.flash pinStateAddr (pinStateAddr + pageSize) :=
    fun _ _ _ => rfl
  obtain ⟨key, hkey⟩ := Firmware.withPin_computePinHash hsmPin
  have hhash : provisionedHash (.withPin hsmPin) =
      some (Primitives.copying.hmac key (provisionedPin (.withPin hsmPin))) := by
    unfold provisionedHash
    rw [if_neg (Nat.not_lt.mpr h.1), hkey]
  exact ⟨_, _, @PinRun.firstBoot _ .reset _ _ _ _ hblank
    (pinInit_runs_provisions (hashAt_blank hblank) hhash)⟩

/-- The owner of a PIN of `PIN_LENGTH` bytes can change it. -/
theorem PinRun.changed {fw : Firmware} (hinj : PinHashInjective fw) {installed newPin : Bytes}
    {ram : Ram} {w : World} (hrun : PinRun fw installed ram w) (hlen : installed.length = pinLength)
    (hnew : PinLen newPin) : ∃ ram' w', PinRun fw newPin ram' w' := by
  have hshort : installed.take pinMaxLen = installed := List.take_of_length_le (by rw [hlen]; decide)
  have hold : PinLen installed := by
    unfold PinLen
    rw [hlen]
    decide
  have hpin : PinCorrect fw ram installed :=
    passes_iff.mp ((hrun.keeps.passes_iff_eq hinj hlen).mpr hshort.symm)
  obtain ⟨hash, hhash⟩ := computePinHash_isSome (Option.isSome_of_eq_some hrun.keeps.hash) newPin
  exact ⟨_, _, hrun.change (pinChange_runs_correct hold hnew hpin hhash)⟩

/-- The owner changes the PIN after the first boot. -/
theorem installed_accepted_iff_sample :
    ∃ ram w, PinRun (.withPin (ascii "a1b2c3")) (ascii "d4e5f6") ram w ∧
      (AcceptsOnly (.withPin (ascii "a1b2c3")) ram w (ascii "d4e5f6") ↔
        (ascii "d4e5f6").length = pinLength) := by
  have hinj := Firmware.withPin_injective (ascii "a1b2c3")
  obtain ⟨ram₀, w₀, hboot⟩ := @PinRun.sample (ascii "a1b2c3") (by decide)
  obtain ⟨ram, w, hrun⟩ := hboot.changed hinj (by decide) (show PinLen (ascii "d4e5f6") by decide)
  exact ⟨ram, w, hrun, installed_accepted_iff hinj hrun⟩

/-- A device built with a PIN of seven bytes boots, and its owner is locked out. -/
theorem installed_locks_out :
    ∃ ram w, PinRun (.withPin (ascii "a1b2c3d")) (hsmPinString (.withPin (ascii "a1b2c3d"))) ram w ∧
      hsmPinString (.withPin (ascii "a1b2c3d")) = ascii "a1b2c3d" ∧
      ¬ Passes (.withPin (ascii "a1b2c3d")) ram w ((ascii "a1b2c3d").take pinLength) := by
  obtain ⟨ram, w, hrun⟩ := @PinRun.sample (ascii "a1b2c3d") (by decide)
  have hstring : hsmPinString (.withPin (ascii "a1b2c3d")) = ascii "a1b2c3d" := by decide
  refine ⟨ram, w, hrun, hstring, ?_⟩
  rw [hrun.keeps.passes_iff_eq (Firmware.withPin_injective _) (by decide), hstring]
  decide
