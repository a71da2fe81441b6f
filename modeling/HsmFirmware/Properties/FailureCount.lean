-- SUMMARY: The count of failures is the number of wrong PINs since the last right one, in RAM, in flash and after a boot.
import HsmFirmware.Properties.InstalledPin

/-!
# The count of failures

A run counts the wrong PINs that `check_pin` and `pin_change` have been given since the last right
one. The device has the same count in RAM and in its PIN page, as long as the count is not the
pattern of an erased page, and takes both the count and the hash back from the page when it boots.
-/

section

variable (fw : Firmware)

/-- The wrong PINs in a row, after an attempt with another one. -/
def wrongPins (ram : Ram) (pin : Bytes) (n : Nat) : Nat :=
  if computePinHash fw pin = some ram.gPinHash then 0 else n + 1

/-- No PIN has the hash that stands for an erased page. -/
def NoBlankHash : Prop :=
  ∀ pin hash, PinLen pin → computePinHash fw pin = some hash → ¬ Blank hash

/-- A run of the PIN functions from the provisioning on, where flash does not fail, with the wrong
    PINs since the last right one. They stay fewer than `0xFFFFFFFF`. -/
inductive PinTries : Nat → Ram → World → Prop where
  | provisioned {ram ram' : Ram} {w w' : World} {L : List Op} (hblank : Blank (hashAt w.flash))
      (h : (pinInit fw).Runs ram w 0 ram' w' L) : PinTries 0 ram' w'
  | check {n : Nat} {pin : Bytes} {ok : Bool} {ram ram' : Ram} {w w' : World} {L : List Op}
      (hrun : PinTries n ram w) (hlen : pin.length = pinLength)
      (hfew : wrongPins fw ram pin n < 0xFFFFFFFF)
      (h : (checkPin fw pin).Runs ram w ok ram' w' L) : PinTries (wrongPins fw ram pin n) ram' w'
  | change {n : Nat} {oldPin newPin : Bytes} {rc : Int} {ram ram' : Ram} {w w' : World}
      {L : List Op} (hrun : PinTries n ram w) (hold : PinLen oldPin) (hnew : PinLen newPin)
      (hfew : wrongPins fw ram oldPin n < 0xFFFFFFFF)
      (h : (pinChange fw oldPin newPin).Runs ram w rc ram' w' L) :
      PinTries (wrongPins fw ram oldPin n) ram' w'
  | reboot {n : Nat} {rc : Int} {ram ram₀ ram' : Ram} {w w' : World} {L : List Op}
      (hrun : PinTries n ram w) (h : (pinInit fw).Runs ram₀ w rc ram' w' L) : PinTries n ram' w'
  /-- Any other code, which leaves the PIN state alone. -/
  | other {n : Nat} {ram ram' : Ram} {w w' : World} (hrun : PinTries n ram w)
      (hhash : ram'.gPinHash = ram.gPinHash) (hfails : ram'.gFailCount = ram.gFailCount)
      (hinit : ram'.gInitialized = ram.gInitialized)
      (hpage : Mem.Agree w'.flash w.flash pinStateAddr (pinStateAddr + pageSize)) :
      PinTries n ram' w'

/-- What holds along a run: the count and the hash, in RAM and in the page. -/
structure Counted (n : Nat) (ram : Ram) (w : World) : Prop where
  started : ram.gInitialized = true
  hash : ∃ pin, PinLen pin ∧ computePinHash fw pin = some ram.gPinHash
  few : n < 0xFFFFFFFF
  count : ram.gFailCount.toNat = n
  page : w.flash.read pinStateAddr pageSize = pinStatePage ram

end

section

variable {fw : Firmware} {n : Nat} {pin oldPin newPin : Bytes} {ram ram' ram₀ : Ram} {w w' : World}
  {L : List Op}

theorem pinStatePage_congr (hhash : ram'.gPinHash = ram.gPinHash)
    (hfails : ram'.gFailCount = ram.gFailCount) : pinStatePage ram' = pinStatePage ram := by
  unfold pinStatePage
  rw [hhash, hfails]

/-- A page written from RAM, with a count that is not the pattern of an erased page. -/
theorem bootState_of_page (hpage : w.flash.read pinStateAddr pageSize = pinStatePage ram)
    (hcount : ram.gFailCount ≠ 0xFFFFFFFF) :
    hashAt w.flash = ram.gPinHash ∧ failsAt w.flash = ram.gFailCount := by
  unfold pinStatePage at hpage
  rw [List.append_assoc] at hpage
  refine ⟨hashAt_of_read hpage, ?_⟩
  rw [failsAt_of_read hpage, if_neg hcount]

namespace Counted

theorem gFailCount_ne (h : Counted fw n ram w) : ram.gFailCount ≠ 0xFFFFFFFF := by
  intro heq
  have hfew := h.few
  rw [← h.count, heq] at hfew
  exact absurd hfew (by decide)

theorem isSome (h : Counted fw n ram w) (pin : Bytes) : ∃ hash, computePinHash fw pin = some hash := by
  obtain ⟨pin', -, hhash⟩ := h.hash
  exact computePinHash_isSome (Option.isSome_of_eq_some hhash) pin

theorem pinCorrect_iff (h : Counted fw n ram w) :
    PinCorrect fw ram pin ↔ computePinHash fw pin = some ram.gPinHash :=
  and_iff_right h.started

/-- The page is rewritten with another count. -/
theorem rewritten (h : Counted fw n ram w) (count : UInt32) (hfew : count.toNat < 0xFFFFFFFF) :
    Counted fw count.toNat (ram.setFails count) (w.after (pinOps (ram.setFails count))) where
  started := h.started
  hash := h.hash
  few := hfew
  count := rfl
  page := read_pinOps (ram.setFails count) w.flash

/-- One failure more. -/
theorem failed (h : Counted fw n ram w) (hfew : n + 1 < 0xFFFFFFFF) :
    Counted fw (n + 1) (ram.setFails (ram.gFailCount + 1))
      (w.after (pinOps (ram.setFails (ram.gFailCount + 1)))) := by
  have hcount : (ram.gFailCount + 1).toNat = n + 1 := by
    rw [UInt32.toNat_add, h.count]
    have hone : UInt32.toNat 1 = 1 := rfl
    exact Nat.mod_eq_of_lt (by omega)
  have hnext := h.rewritten (ram.gFailCount + 1) (by rwa [hcount])
  rwa [hcount] at hnext

/-- The failures are forgotten, if there are any. -/
theorem cleared (h : Counted fw n ram w) :
    Counted fw 0 (ram.setFails 0) (w.after (gateOps ram)) := by
  unfold gateOps
  split
  · rename_i hzero
    rw [Ram.setFails_self hzero, World.after_nil]
    exact ⟨h.started, h.hash, by decide, by rw [hzero]; rfl, h.page⟩
  · exact h.rewritten 0 (by decide)

theorem provisioned (hblank : Blank (hashAt w.flash)) (h : (pinInit fw).Runs ram w 0 ram' w' L) :
    Counted fw 0 ram' w' := by
  cases hhash : provisionedHash fw with
  | none => exact absurd (h.unique (pinInit_runs_fails hblank hhash)).1 (by simp)
  | some hash =>
    obtain ⟨hram, hworld, -⟩ := h.unique (pinInit_runs_provisions hblank hhash)
    obtain rfl : ram' = (ram.setPin hash 0).started := (Prod.mk.inj hram).2
    subst hworld
    exact ⟨rfl, ⟨_, provisionedHash_eq hhash⟩, by decide, rfl, read_pinOps (ram.setPin hash 0) w.flash⟩

theorem check {ok : Bool} (hin : Counted fw n ram w) (hfew : wrongPins fw ram pin n < 0xFFFFFFFF)
    (h : (checkPin fw pin).Runs ram w ok ram' w' L) : Counted fw (wrongPins fw ram pin n) ram' w' := by
  unfold wrongPins at hfew ⊢
  by_cases hright : computePinHash fw pin = some ram.gPinHash
  · rw [if_pos hright]
    obtain ⟨hram, hworld, -⟩ := h.unique (checkPin_runs_correct (hin.pinCorrect_iff.mpr hright))
    obtain rfl : ram' = ram.setFails 0 := (Prod.mk.inj hram).2
    subst hworld
    exact hin.cleared
  · rw [if_neg hright] at hfew ⊢
    obtain ⟨hash, hhash⟩ := hin.isSome pin
    obtain ⟨hram, hworld, -⟩ := h.unique (checkPin_runs_incorrect (mt hin.pinCorrect_iff.mp hright)
      hin.started (by rw [hhash]; rfl))
    obtain rfl : ram' = ram.setFails (ram.gFailCount + 1) := (Prod.mk.inj hram).2
    subst hworld
    exact hin.failed hfew

theorem change {rc : Int} (hin : Counted fw n ram w) (hold : PinLen oldPin) (hnew : PinLen newPin)
    (hfew : wrongPins fw ram oldPin n < 0xFFFFFFFF)
    (h : (pinChange fw oldPin newPin).Runs ram w rc ram' w' L) :
    Counted fw (wrongPins fw ram oldPin n) ram' w' := by
  unfold wrongPins at hfew ⊢
  by_cases hright : computePinHash fw oldPin = some ram.gPinHash
  · rw [if_pos hright]
    obtain ⟨hash, hhash⟩ := hin.isSome newPin
    obtain ⟨hram, hworld, -⟩ := h.unique
      (pinChange_runs_correct hold hnew (hin.pinCorrect_iff.mpr hright) hhash)
    obtain rfl : ram' = ram.setPin hash 0 := (Prod.mk.inj hram).2
    subst hworld
    exact ⟨hin.started, ⟨newPin, hnew, hhash⟩, by decide, rfl, read_pinOps (ram.setPin hash 0) w.flash⟩
  · rw [if_neg hright] at hfew ⊢
    have hwrong : ¬ PinCorrect fw ram oldPin := mt hin.pinCorrect_iff.mp hright
    obtain ⟨hash, hhash⟩ := hin.isSome oldPin
    unfold Dev.Runs at h
    rw [pinChange_run_refused fun hall => hwrong hall.2.2,
      if_pos ⟨hold, hnew, hin.started, by rw [hhash]; rfl⟩] at h
    obtain ⟨hram, hworld, -⟩ := h.unique (writePinState_then (-1) _ w)
    obtain rfl : ram' = ram.setFails (ram.gFailCount + 1) := (Prod.mk.inj hram).2
    subst hworld
    exact hin.failed hfew

/-- A change succeeds with the right PIN only. -/
theorem changes_iff (hin : Counted fw n ram w) (hold : PinLen oldPin) (hnew : PinLen newPin) :
    (∃ ram' w' L, (pinChange fw oldPin newPin).Runs ram w 0 ram' w' L) ↔
      computePinHash fw oldPin = some ram.gPinHash := by
  rw [← hin.pinCorrect_iff]
  constructor
  · rintro ⟨ram', w', L, h⟩
    by_contra hwrong
    obtain ⟨count, hruns⟩ | hruns := @pinChange_runs_refused fw ram w oldPin newPin
      fun hall => hwrong hall.2.2
    · exact absurd (h.unique hruns).1 (by simp)
    · exact absurd (h.unique hruns).1 (by simp)
  · intro hright
    obtain ⟨hash, hhash⟩ := hin.isSome newPin
    exact ⟨_, _, _, pinChange_runs_correct hold hnew hright hhash⟩

/-- A boot takes the count and the hash over. -/
theorem boots (hin : Counted fw n ram w) (hno : NoBlankHash fw) (ram₀ : Ram) :
    (pinInit fw).Runs ram₀ w 0 (ram₀.setPin ram.gPinHash ram.gFailCount).started w [] := by
  obtain ⟨hhash, hfails⟩ := bootState_of_page hin.page hin.gFailCount_ne
  obtain ⟨pin, hlen, hpin⟩ := hin.hash
  have hruns := @pinInit_runs_held fw ram₀ w (by rw [hhash]; exact hno pin _ hlen hpin)
  rwa [hhash, hfails] at hruns

theorem reboot {rc : Int} (hin : Counted fw n ram w) (hno : NoBlankHash fw)
    (h : (pinInit fw).Runs ram₀ w rc ram' w' L) : Counted fw n ram' w' := by
  obtain ⟨hram, hworld, -⟩ := h.unique (hin.boots hno ram₀)
  obtain rfl : ram' = (ram₀.setPin ram.gPinHash ram.gFailCount).started := (Prod.mk.inj hram).2
  subst hworld
  exact ⟨rfl, hin.hash, hin.few, hin.count, hin.page.trans (pinStatePage_congr rfl rfl).symm⟩

end Counted

theorem PinTries.counted (hno : NoBlankHash fw) (h : PinTries fw n ram w) : Counted fw n ram w := by
  induction h with
  | provisioned hblank h => exact .provisioned hblank h
  | check _ _ hfew h ih => exact ih.check hfew h
  | change _ hold hnew hfew h ih => exact ih.change hold hnew hfew h
  | reboot _ h ih => exact ih.reboot hno h
  | other _ hhash hfails hinit hpage ih =>
    refine ⟨hinit.trans ih.started, ?_, ih.few, ?_, ?_⟩
    · rw [hhash]
      exact ih.hash
    · rw [hfails]
      exact ih.count
    · rw [hpage.read (Nat.le_refl _) (Nat.le_refl _), pinStatePage_congr hhash hfails]
      exact ih.page

/-- At every point of a run, the count is the number of wrong PINs since the last right one, the
    page is written from RAM, the right PIN alone succeeds, and a boot preserves count and hash. -/
theorem failCount_exact (hno : NoBlankHash fw) (hrun : PinTries fw n ram w) :
    ram.gFailCount.toNat = n ∧ w.flash.read pinStateAddr pageSize = pinStatePage ram ∧
      (∀ pin, Passes fw ram w pin ↔ computePinHash fw pin = some ram.gPinHash) ∧
      (∀ oldPin newPin, PinLen oldPin → PinLen newPin →
        ((∃ ram' w' L, (pinChange fw oldPin newPin).Runs ram w 0 ram' w' L) ↔
          computePinHash fw oldPin = some ram.gPinHash)) ∧
      ∀ ram₀, ∃ ram', (pinInit fw).Runs ram₀ w 0 ram' w [] ∧ ram'.gPinHash = ram.gPinHash ∧
        ram'.gFailCount = ram.gFailCount := by
  have hin := hrun.counted hno
  refine ⟨hin.count, hin.page, ?_, ?_, ?_⟩
  · intro pin
    exact passes_iff.trans hin.pinCorrect_iff
  · intro oldPin newPin hold hnew
    exact hin.changes_iff hold hnew
  · intro ram₀
    exact ⟨_, hin.boots hno ram₀, rfl, rfl⟩

end

/-! ## A sample -/

theorem Blank.getElem {hash : Digest} (h : Blank hash) {i : Nat} (hi : i < 32) :
    hash[i] = 0xFF := by
  have hmem : hash[i] ∈ hash.toList := Vector.mem_toList_iff.mpr (Vector.getElem_mem hi)
  rw [h] at hmem
  exact List.eq_of_mem_replicate hmem

theorem Firmware.withPin_noBlankHash (hsmPin : Bytes) : NoBlankHash (.withPin hsmPin) := by
  intro pin hash hlen hhash hblank
  obtain ⟨key, hkey⟩ := Firmware.withPin_computePinHash hsmPin
  have hfirst : (Primitives.copying.hmac key pin)[0] = UInt8.ofNat pin.length := by
    simp [Primitives.copying, Codec.bytes]
  rw [Option.some.inj ((hkey pin).symm.trans hhash), hblank.getElem (by decide)] at hfirst
  have hlong : pin.length ≤ 20 := hlen.2
  have hnat := congrArg UInt8.toNat hfirst
  rw [UInt8.toNat_ofNat_of_lt' (by unfold UInt8.size; omega)] at hnat
  have hval : UInt8.toNat 0xFF = 255 := rfl
  omega

/-- A wrong PIN at the sample device, after its first boot. -/
theorem failCount_exact_sample :
    ∃ ram w, PinTries (.withPin (ascii "a1b2c3")) 1 ram w ∧ ram.gFailCount.toNat = 1 ∧
      w.flash.read pinStateAddr pageSize = pinStatePage ram := by
  have hblank : Blank (hashAt World.sample.flash) := hashAt_blank fun _ _ _ => rfl
  obtain ⟨key, hkey⟩ := Firmware.withPin_computePinHash (ascii "a1b2c3")
  obtain ⟨hash, hhash⟩ : ∃ hash, provisionedHash (.withPin (ascii "a1b2c3")) = some hash := by
    unfold provisionedHash
    rw [if_neg (by decide)]
    exact ⟨_, hkey _⟩
  have hboot := @pinInit_runs_provisions _ .reset _ _ hblank hhash
  have hprov := PinTries.provisioned hblank hboot
  have hwrong : computePinHash (.withPin (ascii "a1b2c3")) (ascii "000000") ≠ some hash := fun heq =>
    absurd (Firmware.withPin_injective _ _ _ _ (by decide) (provisionedHash_eq hhash).1 heq
      (provisionedHash_eq hhash).2) (by decide)
  have hone : wrongPins (.withPin (ascii "a1b2c3")) (Ram.reset.setPin hash 0).started
      (ascii "000000") 0 = 1 := if_neg hwrong
  have htry := hprov.check (by decide) (by rw [hone]; decide)
    (checkPin_runs_incorrect (fun h => hwrong h.2) rfl (by rw [hkey]; rfl))
  rw [hone] at htry
  obtain ⟨hcount, hpage, -⟩ := failCount_exact (Firmware.withPin_noBlankHash _) htry
  exact ⟨_, _, htry, hcount, hpage⟩
