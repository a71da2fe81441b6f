-- SUMMARY: Which flash failures and power losses the PIN state survives, for every PIN check and PIN change.
import HsmFirmware.Specs.PinWords
import HsmFirmware.Properties.InstalledPin

/-!
# Survival of the PIN state

The page that holds the PIN state is erased and rewritten in place, by a wrong
attempt as much as by a change of the PIN. A power loss or a failed word in
between leaves a page without a hash, which the next boot takes for the first, or
a page with part of a hash, or one without a count. The running device has the
new hash in RAM before it is in flash. What a part of a hash is worth depends on
its bytes: it may be complete, or read as erased.
-/

open Machine (replay)

/-! ## Calls -/

/-- The calls that check a PIN. `check_pin` has no length: it reads `PIN_LENGTH` bytes. -/
inductive PinCall where
  | check (pin : Mem)
  | change (oldPin newPin : Bytes)

section

variable (fw : Firmware)

/-- The code of a call, with the result of `check_pin` as a number. -/
def PinCall.handler : PinCall → Dev Int
  | .check pin => do if ← checkPin fw (pin.read 0 pinLength) then pure 1 else pure 0
  | .change oldPin newPin => pinChange fw oldPin newPin

/-- How a call ends on a controller that can fail between words. -/
def PinCall.attempt (call : PinCall) (fs : Schedule) (ram : Ram) (w : World) :
    Halt Op World (Int × Ram) :=
  (call.handler fw).wordwise.exec fs ram w

/-- The call has the right PIN, and puts another in its place. -/
def PinCall.Replaces (ram : Ram) : PinCall → Bytes → Prop
  | .check _, _ => False
  | .change oldPin newPin, pin =>
    pin = newPin ∧ PinLen oldPin ∧ PinLen newPin ∧ PinCorrect fw ram oldPin

/-- The call is a wrong attempt. -/
def PinCall.Wrong (ram : Ram) : PinCall → Prop
  | .check pin => ¬ PinCorrect fw ram (pin.read 0 pinLength)
  | .change oldPin newPin => PinLen oldPin ∧ PinLen newPin ∧ ¬ PinCorrect fw ram oldPin

/-! ## Accepted PINs -/

/-- The PINs of a hash. -/
def pinsWith (hash : Option Digest) : Set Bytes :=
  {pin | PinLen pin ∧ hash.isSome ∧ computePinHash fw pin = hash}

/-- The PINs a device accepts: for a change, and for a check if they have the length for it. -/
def acceptedPins (ram : Ram) : Set Bytes := {pin | PinLen pin ∧ PinCorrect fw ram pin}

/-- The RAM after a reboot. -/
def bootRam (w : World) : Ram :=
  match (pinInit fw).exec [] .reset w with
  | .done (_, ram) _ _ _ => ram
  | .off _ _ => .reset

/-- A PIN state: the RAM and the page hold the same hash and count, and some PIN has that hash. -/
structure PinState (ram : Ram) (w : World) : Prop where
  started : ram.gInitialized = true
  pin : ∃ pin, PinLen pin ∧ computePinHash fw pin = some ram.gPinHash
  hash : hashAt w.flash = ram.gPinHash
  count : failsAt w.flash = ram.gFailCount

/-- The PINs in force before the call, or those its new PIN stands for. -/
def InForce (call : PinCall) (ram : Ram) (pins : Set Bytes) : Prop :=
  pins = acceptedPins fw ram ∨
    ∃ newPin, call.Replaces fw ram newPin ∧ pins = pinsWith fw (computePinHash fw newPin)

/-- What a call that ends so must leave. -/
structure Survives (call : PinCall) (ram : Ram) (w : World) (h : Halt Op World (Int × Ram)) :
    Prop where
  running : ∀ rc ram' w' L rest, h = .done (rc, ram') w' L rest →
    InForce fw call ram (acceptedPins fw ram')
  rebooted : InForce fw call ram (acceptedPins fw (bootRam fw h.state))
  /-- A change that returns -1 leaves the old PIN in force. -/
  refused : ∀ ram' w' L rest, h = .done (-1, ram') w' L rest →
    acceptedPins fw ram' = acceptedPins fw ram ∧
      acceptedPins fw (bootRam fw h.state) = acceptedPins fw ram
  /-- No PIN of the build that was not in force, unless it is the new PIN. -/
  noFallback : provisionedPin fw ∈ acceptedPins fw (bootRam fw h.state) →
    provisionedPin fw ∈ acceptedPins fw ram ∨ ∃ newPin, call.Replaces fw ram newPin ∧
      provisionedPin fw ∈ pinsWith fw (computePinHash fw newPin)
  matched : (acceptedPins fw (bootRam fw h.state)).Nonempty
  counted : call.Wrong fw ram → failsAt w.flash ≤ failsAt h.state.flash

/-! ## The condition -/

/-- The steps of rewriting the page: one to erase it, and 128 words. -/
def pinSteps : Nat := 129

/-- The hash on the page when `n` of the steps took effect: the old one, or as many words of the
    new one as have been programmed. -/
def shownHash (held written : Digest) : Nat → Digest
  | 0 => held
  | n + 1 => tornHash written n

/-- This hash on the page is an allowed one, or it reads as erased and the PIN of the build has
    one. -/
def Bootable (allowed : Digest → Prop) (shown : Digest) : Prop :=
  (Blank shown → ∃ hash, provisionedHash fw = some hash ∧ allowed hash) ∧
    (¬ Blank shown → allowed shown)

/-- As many of the steps took effect as leave such a hash on the page. -/
def PageSpared (fs : Schedule) (held written : Digest) (allowed : Digest → Prop) : Prop :=
  Bootable fw allowed (shownHash held written (fs.effects pinSteps))

/-- The page is spared, and so is the count, which may not become the one that reads as erased. -/
def AttemptSpared (ram : Ram) (fs : Schedule) : Prop :=
  PageSpared fw fs ram.gPinHash ram.gPinHash (· = ram.gPinHash) ∧
    (fs.effects pinSteps = 0 ∨ ram.gFailCount = 0 ∨ 6 ≤ fs.effects pinSteps) ∧
    (6 ≤ fs.effects pinSteps → ram.gFailCount ≠ 0xFFFFFFFE)

/-- A change of the PIN is spared: a wrong attempt, or the page with either hash. If the hashes
    differ, no step is refused. -/
def ChangeSpared (ram : Ram) (fs : Schedule) (oldPin newPin : Bytes) : Prop :=
  (¬ PinCorrect fw ram oldPin → AttemptSpared fw ram fs) ∧
    (PinCorrect fw ram oldPin →
      (∀ hash, computePinHash fw newPin = some hash →
        PageSpared fw fs ram.gPinHash hash fun other => other = ram.gPinHash ∨ other = hash) ∧
      (computePinHash fw newPin ≠ computePinHash fw oldPin → fs.refuses pinSteps = false))

/-- The failures and power losses that a call survives. -/
def PinCall.Spared (ram : Ram) (fs : Schedule) : PinCall → Prop
  | .check pin =>
    (PinCorrect fw ram (pin.read 0 pinLength) →
      if ram.gFailCount = 0 then Bootable fw (· = ram.gPinHash) ram.gPinHash
      else PageSpared fw fs ram.gPinHash ram.gPinHash (· = ram.gPinHash)) ∧
    (¬ PinCorrect fw ram (pin.read 0 pinLength) → AttemptSpared fw ram fs)
  | .change oldPin newPin =>
    if PinLen oldPin ∧ PinLen newPin then ChangeSpared fw ram fs oldPin newPin
    else Bootable fw (· = ram.gPinHash) ram.gPinHash

end

/-- The first and the last word of a hash do not read as erased. -/
def Whole (hash : Digest) : Prop :=
  hash.toList.take 8 ≠ List.replicate 8 0xFF ∧ hash.toList.drop 24 ≠ List.replicate 8 0xFF

instance (hash : Digest) : Decidable (Whole hash) :=
  inferInstanceAs (Decidable (_ ∧ _))

theorem Whole.not_blank {hash : Digest} (h : Whole hash) : ¬ Blank hash := by
  intro hblank
  apply h.1
  rw [hblank]
  rfl

theorem bootable_of_not_blank {fw : Firmware} {allowed : Digest → Prop} {shown : Digest}
    (h : ¬ Blank shown) : Bootable fw allowed shown ↔ allowed shown :=
  ⟨fun hboot => hboot.2 h, fun hshown => ⟨fun hblank => absurd hblank h, fun _ => hshown⟩⟩

theorem bootable_of_blank {fw : Firmware} {allowed : Digest → Prop} {shown : Digest}
    (h : Blank shown) :
    Bootable fw allowed shown ↔ ∃ hash, provisionedHash fw = some hash ∧ allowed hash :=
  ⟨fun hboot => hboot.1 h, fun hash => ⟨fun _ => hash, fun hne => absurd h hne⟩⟩

/-- For whole hashes: no step took effect, or the erase alone and the PIN of the build does no
    harm, or the hash is complete. -/
theorem pageSpared_iff {fw : Firmware} {held written : Digest} {allowed : Digest → Prop}
    (hwhole : ∀ hash, allowed hash → Whole hash) (hheld : allowed held) (hwritten : allowed written)
    (fs : Schedule) :
    PageSpared fw fs held written allowed ↔
      fs.effects pinSteps = 0 ∨
        fs.effects pinSteps = 1 ∧ (∃ hash, provisionedHash fw = some hash ∧ allowed hash) ∨
        5 ≤ fs.effects pinSteps := by
  unfold PageSpared
  generalize fs.effects pinSteps = n
  cases n with
  | zero =>
    rw [shownHash, bootable_of_not_blank (hwhole _ hheld).not_blank]
    exact ⟨fun _ => .inl rfl, fun _ => hheld⟩
  | succ n =>
    rw [shownHash]
    by_cases hn : 4 ≤ n
    · rw [tornHash_of_le hn, bootable_of_not_blank (hwhole _ hwritten).not_blank]
      exact ⟨fun _ => .inr (.inr (by omega)), fun _ => hwritten⟩
    · cases n with
      | zero =>
        rw [bootable_of_blank (tornHash_zero written)]
        exact ⟨fun h => .inr (.inl ⟨rfl, h⟩), fun h => by simpa using h⟩
      | succ j =>
        obtain ⟨hfirst, hlast⟩ := @tornHash_ends written (j + 1) (by omega) (by omega)
        have hshown : ¬ Blank (tornHash written (j + 1)) := by
          intro hblank
          apply (hwhole _ hwritten).1
          rw [← hfirst, hblank]
          rfl
        rw [bootable_of_not_blank hshown]
        constructor
        · intro h
          exact absurd hlast (hwhole _ h).2
        · intro h
          omega

section

variable {fw : Firmware} {ram : Ram} {w : World}

/-! ## Boot -/

/-- The hash in force after a reboot. -/
def bootHash (fw : Firmware) (m : Mem) : Option Digest :=
  if Blank (hashAt m) then provisionedHash fw else some (hashAt m)

theorem acceptedPins_started (h : ram.gInitialized = true) :
    acceptedPins fw ram = pinsWith fw (some ram.gPinHash) := by
  ext pin
  constructor
  · rintro ⟨hlen, -, hhash⟩
    exact ⟨hlen, rfl, hhash⟩
  · rintro ⟨hlen, -, hhash⟩
    exact ⟨hlen, h, hhash⟩

theorem acceptedPins_bootRam (fw : Firmware) (w : World) :
    acceptedPins fw (bootRam fw w) = pinsWith fw (bootHash fw w.flash) := by
  unfold bootRam bootHash
  by_cases hblank : Blank (hashAt w.flash)
  · rw [if_pos hblank]
    cases hhash : provisionedHash fw with
    | none =>
      have hrun : (pinInit fw).exec [] .reset w = _ := pinInit_runs_fails hblank hhash
      rw [hrun]
      ext pin
      constructor
      · rintro ⟨-, hinit, -⟩
        cases hinit
      · rintro ⟨-, hsome, -⟩
        cases hsome
    | some hash =>
      have hrun : (pinInit fw).exec [] .reset w = _ := pinInit_runs_provisions hblank hhash
      rw [hrun]
      exact acceptedPins_started (Ram.gInitialized_started _)
  · have hrun : (pinInit fw).exec [] .reset w = _ := pinInit_runs_held hblank
    rw [if_neg hblank, hrun]
    exact acceptedPins_started (Ram.gInitialized_started _)

theorem pinsWith_eq_iff {hash : Digest} {other : Option Digest}
    (h : ∃ pin, PinLen pin ∧ computePinHash fw pin = some hash) :
    pinsWith fw other = pinsWith fw (some hash) ↔ other = some hash := by
  constructor
  · intro heq
    obtain ⟨pin, hlen, hhash⟩ := h
    have hmem : pin ∈ pinsWith fw (some hash) := ⟨hlen, rfl, hhash⟩
    rw [← heq] at hmem
    exact hmem.2.2.symm.trans hhash
  · rintro rfl
    rfl

/-- What a boot makes of a page rewritten in part. -/
theorem bootHash_pinWords {allowed : Digest → Prop} (m : Mem) (fs : Schedule) :
    (∃ hash, bootHash fw (replay flashStep ((pinWords ram).take (fs.effects pinSteps)) m) =
        some hash ∧ allowed hash) ↔ PageSpared fw fs (hashAt m) ram.gPinHash allowed := by
  have hshown : hashAt (replay flashStep ((pinWords ram).take (fs.effects pinSteps)) m) =
      shownHash (hashAt m) ram.gPinHash (fs.effects pinSteps) := by
    cases fs.effects pinSteps with
    | zero => rfl
    | succ n => exact hashAt_pinWords ram m n
  unfold bootHash PageSpared
  rw [hshown]
  split
  · rename_i hblank
    exact (bootable_of_blank hblank).symm
  · rename_i hblank
    rw [bootable_of_not_blank hblank]
    simp

/-! ## The count -/

/-- A boot never reads the count that stands for erased flash. -/
theorem failsAt_ne (m : Mem) : failsAt m ≠ 0xFFFFFFFF := by
  unfold failsAt
  intro h
  dsimp only at h
  split at h
  · exact absurd h (by decide)
  · rename_i hne
    exact hne h

/-- One more failure is a higher count, but for the one before the erased count. -/
theorem count_succ {count : UInt32} (h : count ≠ 0xFFFFFFFF) :
    count ≤ (if count + 1 = 0xFFFFFFFF then 0 else count + 1) ↔ count ≠ 0xFFFFFFFE := by
  have hlt : count.toNat < 4294967295 := by
    have hbound := count.toNat_lt
    have hne : count.toNat ≠ 4294967295 := fun heq => h (UInt32.toNat.inj heq)
    omega
  have hsucc : (count + 1).toNat = count.toNat + 1 := by
    rw [UInt32.toNat_add]
    exact Nat.mod_eq_of_lt (by simp; omega)
  constructor
  · rintro hle rfl
    exact absurd hle (by decide)
  · intro hne
    rw [if_neg, UInt32.le_iff_toNat_le, hsucc]
    · exact Nat.le_succ _
    · intro hwrap
      apply hne
      apply UInt32.toNat.inj
      have hnat := congrArg UInt32.toNat hwrap
      rw [hsucc] at hnat
      exact Nat.succ.inj hnat

/-- The count a boot finds after a failure was to be written. -/
theorem failsAt_pinWords {count : UInt32} {m : Mem} (hm : failsAt m = count)
    (hram : ram.gFailCount = count + 1) (fs : Schedule) :
    count ≤ failsAt (replay flashStep ((pinWords ram).take (fs.effects pinSteps)) m) ↔
      (fs.effects pinSteps = 0 ∨ count = 0 ∨ 6 ≤ fs.effects pinSteps) ∧
        (6 ≤ fs.effects pinSteps → count ≠ 0xFFFFFFFE) := by
  generalize fs.effects pinSteps = n
  cases n with
  | zero =>
    rw [List.take_zero, Machine.replay_nil, hm]
    exact ⟨fun _ => ⟨.inl rfl, fun h => absurd h (by decide)⟩, fun _ => UInt32.le_refl _⟩
  | succ j =>
    by_cases hj : 5 ≤ j
    · rw [failsAt_pinWritten ram m hj, hram, count_succ (hm ▸ failsAt_ne m)]
      exact ⟨fun h => ⟨.inr (.inr (by omega)), fun _ => h⟩, fun h => h.2 (by omega)⟩
    · rw [failsAt_pinErased ram m (by omega : j ≤ 4)]
      constructor
      · intro h
        exact ⟨.inr (.inl (UInt32.le_antisymm h (UInt32.zero_le))), fun h => absurd h (by omega)⟩
      · rintro ⟨h | h | h, -⟩
        · cases h
        · rw [h]
          exact UInt32.le_refl _
        · omega

/-! ## How a call ends -/

/-- A call that rewrites the page with the RAM it leaves. -/
theorem rewrite_ending {p : Prog Res (Int × Ram)} (g : Int → Int)
    (hp : p = writePinState.run ram >>= fun r => .ret (g r.1, r.2)) (fs : Schedule) :
    (hsm.exec (p.interp Op.wordwise) fs w).state.flash =
        replay flashStep ((pinWords ram).take (fs.effects pinSteps)) w.flash ∧
      (hsm.exec (p.interp Op.wordwise) fs w).Sat
        (fun r _ _ _ => r = (g (if fs.refuses pinSteps then -1 else 0), ram))
        fun _ _ => fs.refuses pinSteps = false := by
  have hend := (writePinState_wordwise ram w fs).effects
  rw [length_pinWords] at hend
  have hflash := Dev.flash_exec writePinState.wordwise fs ram w
  rw [hp, Prog.interp_bind, Machine.exec_bind]
  rw [show hsm.exec ((writePinState.run ram).interp Op.wordwise) fs w =
    writePinState.wordwise.exec fs ram w from rfl]
  rw [Dev.exec] at hflash ⊢
  obtain ⟨hlog, hsat⟩ := hend
  generalize hsm.exec (writePinState.wordwise.run ram) fs w = h at hflash hlog hsat ⊢
  cases h with
  | done r w' L rest =>
    rw [hlog] at hflash
    refine ⟨?_, ?_⟩
    · rw [Halt.andThen_done, Halt.state_logged]
      exact hflash
    · have hr : if fs.refuses pinSteps then r = (-1, ram) else r = (0, ram) := hsat
      show (g r.1, r.2) = _
      cases hrefuses : fs.refuses pinSteps <;> rw [hrefuses] at hr
      · rw [show r = (0, ram) from hr]
        rfl
      · rw [show r = (-1, ram) from hr]
        rfl
  | off w' L =>
    rw [hlog] at hflash
    exact ⟨hflash, hsat⟩

theorem check_run_correct {pin : Mem} (h : PinCorrect fw ram (pin.read 0 pinLength)) :
    ((PinCall.check pin).handler fw).run ram =
      if ram.gFailCount = 0 then .ret (1, ram)
      else writePinState.run (ram.setFails 0) >>= fun r => .ret (1, r.2) := by
  unfold PinCall.handler
  rw [StateT.run_bind, checkPin_run_correct h]
  split
  · rfl
  · exact Prog.bind_assoc' _ _ _

theorem check_run_incorrect {pin : Mem} (h : ¬ PinCorrect fw ram (pin.read 0 pinLength))
    (hinit : ram.gInitialized = true)
    (hsome : (computePinHash fw (pin.read 0 pinLength)).isSome) :
    ((PinCall.check pin).handler fw).run ram =
      writePinState.run (ram.setFails (ram.gFailCount + 1)) >>= fun r => .ret (0, r.2) := by
  unfold PinCall.handler
  rw [StateT.run_bind, checkPin_run_incorrect h, if_pos ⟨hinit, hsome⟩]
  exact Prog.bind_assoc' _ _ _

/-! ## What survives -/

variable {call : PinCall} {fs : Schedule}

theorem PinState.accepted (hs : PinState fw ram w) :
    acceptedPins fw ram = pinsWith fw (some ram.gPinHash) := acceptedPins_started hs.started

theorem PinState.hashes (hs : PinState fw ram w) (pin : Bytes) :
    ∃ hash, computePinHash fw pin = some hash := by
  obtain ⟨held, -, hheld⟩ := hs.pin
  exact computePinHash_isSome (Option.isSome_of_eq_some hheld) pin

/-- A boot accepts the PINs from before exactly when it has their hash. -/
theorem PinState.booted_iff (hs : PinState fw ram w) (w' : World) :
    acceptedPins fw (bootRam fw w') = acceptedPins fw ram ↔
      bootHash fw w'.flash = some ram.gPinHash := by
  rw [acceptedPins_bootRam, hs.accepted]
  exact pinsWith_eq_iff hs.pin

/-- Two of the demands follow from what is in force after the reboot. -/
theorem Survives.of_inForce {h : Halt Op World (Int × Ram)} (hs : PinState fw ram w)
    (running : ∀ rc ram' w' L rest, h = .done (rc, ram') w' L rest →
      InForce fw call ram (acceptedPins fw ram'))
    (rebooted : InForce fw call ram (acceptedPins fw (bootRam fw h.state)))
    (refused : ∀ ram' w' L rest, h = .done (-1, ram') w' L rest →
      acceptedPins fw ram' = acceptedPins fw ram ∧
        acceptedPins fw (bootRam fw h.state) = acceptedPins fw ram)
    (counted : call.Wrong fw ram → failsAt w.flash ≤ failsAt h.state.flash) :
    Survives fw call ram w h where
  running := running
  rebooted := rebooted
  refused := refused
  counted := counted
  noFallback hmem := by
    cases rebooted with
    | inl hold => exact .inl (hold ▸ hmem)
    | inr hnew =>
      obtain ⟨newPin, hreplaces, heq⟩ := hnew
      exact .inr ⟨newPin, hreplaces, heq ▸ hmem⟩
  matched := by
    cases rebooted with
    | inl hold =>
      obtain ⟨pin, hlen, hhash⟩ := hs.pin
      rw [hold, hs.accepted]
      exact ⟨pin, hlen, rfl, hhash⟩
    | inr hnew =>
      obtain ⟨newPin, hreplaces, heq⟩ := hnew
      obtain ⟨hash, hhash⟩ := hs.hashes newPin
      rw [heq]
      cases call with
      | check pin => exact hreplaces.elim
      | change oldPin pin =>
        obtain ⟨rfl, -, hlen, -⟩ := hreplaces
        exact ⟨newPin, hlen, Option.isSome_of_eq_some hhash, rfl⟩

/-- A call that replaces no PIN leaves the one in force. -/
theorem Survives.keeps {h : Halt Op World (Int × Ram)} (hsurvives : Survives fw call ram w h)
    (hkeeps : ∀ newPin, ¬ call.Replaces fw ram newPin) :
    acceptedPins fw (bootRam fw h.state) = acceptedPins fw ram := by
  cases hsurvives.rebooted with
  | inl hold => exact hold
  | inr hnew => exact absurd hnew.choose_spec.1 (hkeeps _)

/-- A call that does nothing. -/
theorem survives_idle {rc : Int} (hs : PinState fw ram w)
    (hidle : (call.handler fw).run ram = .ret (rc, ram)) (hright : ¬ call.Wrong fw ram)
    (hkeeps : ∀ newPin, ¬ call.Replaces fw ram newPin) :
    Survives fw call ram w (call.attempt fw fs ram w) ↔
      Bootable fw (· = ram.gPinHash) ram.gPinHash := by
  have hdone : call.attempt fw fs ram w = .done (rc, ram) w [] fs := by
    show hsm.exec (((call.handler fw).run ram).interp Op.wordwise) fs w = _
    rw [hidle]
    rfl
  have hboot : acceptedPins fw (bootRam fw w) = acceptedPins fw ram ↔
      Bootable fw (· = ram.gPinHash) ram.gPinHash := by
    rw [hs.booted_iff, bootHash, hs.hash]
    split
    · rename_i hblank
      rw [bootable_of_blank hblank, exists_eq_right]
    · rename_i hblank
      rw [bootable_of_not_blank hblank]
      exact iff_of_true rfl rfl
  rw [hdone]
  constructor
  · intro h
    exact hboot.mp (h.keeps hkeeps)
  · intro hbootable
    refine .of_inForce hs ?_ (.inl (hboot.mpr hbootable)) ?_ fun hwrong => absurd hwrong hright
    · intro rc' ram' w' L rest h
      cases h
      exact .inl rfl
    · intro ram' w' L rest h
      cases h
      exact ⟨rfl, hboot.mpr hbootable⟩

/-- A call that rewrites the page with the hash in force. -/
theorem survives_kept {count : UInt32} {g : Int → Int} (hs : PinState fw ram w)
    (hrun : (call.handler fw).run ram =
      writePinState.run (ram.setFails count) >>= fun r => .ret (g r.1, r.2))
    (hkeeps : ∀ newPin, ¬ call.Replaces fw ram newPin) :
    Survives fw call ram w (call.attempt fw fs ram w) ↔
      PageSpared fw fs ram.gPinHash ram.gPinHash (· = ram.gPinHash) ∧
        (call.Wrong fw ram → failsAt w.flash ≤ failsAt (replay flashStep
          ((pinWords (ram.setFails count)).take (fs.effects pinSteps)) w.flash)) := by
  obtain ⟨hflash, hsat⟩ := @rewrite_ending _ w _ g hrun fs
  have hpage := @bootHash_pinWords fw (ram.setFails count) (· = ram.gPinHash) w.flash fs
  simp only [hs.hash, exists_eq_right] at hpage
  change _ ↔ PageSpared fw fs ram.gPinHash ram.gPinHash _ at hpage
  have hboot : acceptedPins fw (bootRam fw (call.attempt fw fs ram w).state) =
      acceptedPins fw ram ↔ PageSpared fw fs ram.gPinHash ram.gPinHash (· = ram.gPinHash) := by
    rw [hs.booted_iff, ← hpage]
    rw [show (call.attempt fw fs ram w).state.flash = _ from hflash]
  have hram : ∀ rc ram' w' L rest, call.attempt fw fs ram w = .done (rc, ram') w' L rest →
      acceptedPins fw ram' = acceptedPins fw ram := by
    intro rc ram' w' L rest h
    have hdone : hsm.exec (((call.handler fw).run ram).interp Op.wordwise) fs w = _ := h
    rw [hdone] at hsat
    obtain rfl : ram' = ram.setFails count := (Prod.mk.inj hsat).2
    rfl
  constructor
  · intro h
    refine ⟨hboot.mp (h.keeps hkeeps), fun hwrong => ?_⟩
    rw [← hflash]
    exact h.counted hwrong
  · rintro ⟨hspared, hcount⟩
    refine .of_inForce hs ?_ (.inl (hboot.mpr hspared)) ?_ fun hwrong => ?_
    · intro rc ram' w' L rest h
      exact .inl (hram rc ram' w' L rest h)
    · intro ram' w' L rest h
      exact ⟨hram _ ram' w' L rest h, hboot.mpr hspared⟩
    · rw [show (call.attempt fw fs ram w).state.flash = _ from hflash]
      exact hcount hwrong

/-- A wrong attempt that rewrites the page. -/
theorem survives_wrong {g : Int → Int} (hs : PinState fw ram w)
    (hrun : (call.handler fw).run ram =
      writePinState.run (ram.setFails (ram.gFailCount + 1)) >>= fun r => .ret (g r.1, r.2))
    (hkeeps : ∀ newPin, ¬ call.Replaces fw ram newPin) (hwrong : call.Wrong fw ram) :
    Survives fw call ram w (call.attempt fw fs ram w) ↔ AttemptSpared fw ram fs := by
  rw [survives_kept hs hrun hkeeps, hs.count, failsAt_pinWords hs.count rfl]
  unfold AttemptSpared
  constructor
  · rintro ⟨hpage, hcount⟩
    exact ⟨hpage, hcount hwrong⟩
  · rintro ⟨hpage, hcount⟩
    exact ⟨hpage, fun _ => hcount⟩

/-- A change with the right old PIN. -/
theorem survives_replaced {oldPin newPin : Bytes} {hash : Digest} (hs : PinState fw ram w)
    (hold : PinLen oldPin) (hnew : PinLen newPin) (hpin : PinCorrect fw ram oldPin)
    (hhash : computePinHash fw newPin = some hash) :
    Survives fw (.change oldPin newPin) ram w
        ((PinCall.change oldPin newPin).attempt fw fs ram w) ↔
      PageSpared fw fs ram.gPinHash hash (fun other => other = ram.gPinHash ∨ other = hash) ∧
        (computePinHash fw newPin ≠ computePinHash fw oldPin → fs.refuses pinSteps = false) := by
  have hrun : ((PinCall.change oldPin newPin).handler fw).run ram =
      writePinState.run (ram.setPin hash 0) >>= fun r => .ret (r.1, r.2) := by
    rw [Prog.bind_ret]
    exact pinChange_run_correct hold hnew hpin hhash
  obtain ⟨hflash, hsat⟩ := @rewrite_ending _ w _ id hrun fs
  change ((PinCall.change oldPin newPin).attempt fw fs ram w).state.flash = _ at hflash
  change ((PinCall.change oldPin newPin).attempt fw fs ram w).Sat _ _ at hsat
  generalize (PinCall.change oldPin newPin).attempt fw fs ram w = h at hflash hsat ⊢
  have hpage := @bootHash_pinWords fw (ram.setPin hash 0)
    (fun other => other = ram.gPinHash ∨ other = hash) w.flash fs
  have heither : ∀ o : Option Digest, (∃ other, o = some other ∧
      (other = ram.gPinHash ∨ other = hash)) ↔ o = some ram.gPinHash ∨ o = some hash := by
    intro o
    cases o <;> simp
  rw [heither, ← hflash, hs.hash] at hpage
  change _ ↔ PageSpared fw fs ram.gPinHash hash _ at hpage
  -- The new PIN has its hash, so it is in force exactly when a boot finds that hash.
  have hnewIff : ∀ o, pinsWith fw o = pinsWith fw (some hash) ↔ o = some hash :=
    fun o => pinsWith_eq_iff ⟨newPin, hnew, hhash⟩
  have hafter : acceptedPins fw (ram.setPin hash 0) = pinsWith fw (some hash) :=
    acceptedPins_started hs.started
  rw [hhash, hpin.2]
  constructor
  · intro hsurvives
    constructor
    · rw [← hpage]
      cases hsurvives.rebooted with
      | inl hkept => exact .inl ((hs.booted_iff _).mp hkept)
      | inr hreplaced =>
        obtain ⟨pin, hreplaces, heq⟩ := hreplaced
        obtain ⟨rfl, -⟩ := hreplaces
        rw [acceptedPins_bootRam, hhash, hnewIff] at heq
        exact .inr heq
    · intro hne
      rw [← Bool.not_eq_true]
      intro hrefuses
      rw [hrefuses] at hsat
      cases h with
      | off w' L => cases hsat
      | done r w' L rest =>
        obtain rfl : r = (-1, ram.setPin hash 0) := hsat
        have heq := (hsurvives.refused _ _ _ _ rfl).1
        rw [hafter, hs.accepted] at heq
        exact hne ((hnewIff _).mp heq.symm).symm
  · rintro ⟨hspared, hcompletes⟩
    have hinForce : bootHash fw h.state.flash = some ram.gPinHash ∨
        bootHash fw h.state.flash = some hash := hpage.mpr hspared
    have hreplaces : (PinCall.change oldPin newPin).Replaces fw ram newPin :=
      ⟨rfl, hold, hnew, hpin⟩
    refine .of_inForce hs ?_ ?_ ?_ fun hwrong => absurd hpin hwrong.2.2
    · rintro rc ram' w' L rest rfl
      obtain rfl : ram' = ram.setPin hash 0 := (Prod.mk.inj hsat).2
      exact .inr ⟨newPin, hreplaces, by rw [hafter, hhash]⟩
    · cases hinForce with
      | inl hkept => exact .inl ((hs.booted_iff _).mpr hkept)
      | inr hreplaced => exact .inr ⟨newPin, hreplaces, by rw [acceptedPins_bootRam, hreplaced, hhash]⟩
    · rintro ram' w' L rest rfl
      obtain ⟨hrc, hram⟩ := Prod.mk.inj hsat
      obtain rfl : ram' = ram.setPin hash 0 := hram
      have hsame : hash = ram.gPinHash := by
        by_contra hne
        rw [hcompletes fun heq => hne (Option.some.inj heq)] at hrc
        exact absurd hrc (by decide)
      rw [hafter, hs.accepted, hs.accepted.symm, hs.booted_iff, hs.accepted, hsame]
      refine ⟨rfl, ?_⟩
      rw [hsame, or_self] at hinForce
      exact hinForce

end

/-- The PIN state survives exactly the failures and power losses that spare it. -/
theorem pinState_survives_iff {fw : Firmware} {call : PinCall} {ram : Ram} {w : World}
    (hs : PinState fw ram w) (fs : Schedule) :
    Survives fw call ram w (call.attempt fw fs ram w) ↔ call.Spared fw ram fs := by
  cases call with
  | check pin =>
    obtain ⟨hash, hhash⟩ := hs.hashes (pin.read 0 pinLength)
    by_cases hpin : PinCorrect fw ram (pin.read 0 pinLength)
    · have hright : ¬ (PinCall.check pin).Wrong fw ram := fun hwrong => hwrong hpin
      have hrun := check_run_correct hpin
      have hspared : (PinCall.check pin).Spared fw ram fs ↔
          if ram.gFailCount = 0 then Bootable fw (· = ram.gPinHash) ram.gPinHash
          else PageSpared fw fs ram.gPinHash ram.gPinHash (· = ram.gPinHash) :=
        ⟨fun h => h.1 hpin, fun h => ⟨fun _ => h, fun hwrong => absurd hpin hwrong⟩⟩
      rw [hspared]
      split at hrun
      · rename_i hcount
        rw [if_pos hcount]
        exact survives_idle hs hrun hright fun _ h => h
      · rename_i hcount
        rw [if_neg hcount, @survives_kept _ _ _ _ _ _ (fun _ => 1) hs hrun fun _ h => h]
        exact ⟨fun h => h.1, fun h => ⟨h, fun hwrong => absurd hwrong hright⟩⟩
    · have hrun := check_run_incorrect hpin hs.started (Option.isSome_of_eq_some hhash)
      rw [@survives_wrong _ _ _ _ _ (fun _ => 0) hs hrun (fun _ h => h) hpin]
      exact ⟨fun h => ⟨fun hright => absurd hright hpin, fun _ => h⟩, fun h => h.2 hpin⟩
  | change oldPin newPin =>
    rw [PinCall.Spared]
    split
    · rename_i hlen
      obtain ⟨hold, hnew⟩ := hlen
      by_cases hpin : PinCorrect fw ram oldPin
      · obtain ⟨hash, hhash⟩ := hs.hashes newPin
        rw [survives_replaced hs hold hnew hpin hhash]
        constructor
        · rintro ⟨hpage, hrefuses⟩
          refine ⟨fun hwrong => absurd hpin hwrong, fun _ => ⟨fun other hother => ?_, hrefuses⟩⟩
          obtain rfl : hash = other := Option.some.inj (hhash.symm.trans hother)
          exact hpage
        · rintro ⟨-, h⟩
          exact ⟨(h hpin).1 hash hhash, (h hpin).2⟩
      · obtain ⟨hash, hhash⟩ := hs.hashes oldPin
        have hrun := @pinChange_run_refused fw ram oldPin newPin fun h => hpin h.2.2
        rw [if_pos ⟨hold, hnew, hs.started, Option.isSome_of_eq_some hhash⟩] at hrun
        rw [@survives_wrong fw ram w (.change oldPin newPin) fs (fun _ => -1) hs hrun
          (fun _ h => hpin h.2.2.2) ⟨hold, hnew, hpin⟩]
        exact ⟨fun h => ⟨fun _ => h, fun hright => absurd hright hpin⟩, fun h => h.1 hpin⟩
    · rename_i hlen
      have hrun := @pinChange_run_refused fw ram oldPin newPin fun h => hlen ⟨h.1, h.2.1⟩
      rw [if_neg fun h => hlen ⟨h.1, h.2.1⟩] at hrun
      exact survives_idle hs hrun (fun h => hlen ⟨h.1, h.2.1⟩) fun _ h => hlen ⟨h.2.1, h.2.2.1⟩

/-! ## A sample -/

/-- The RAM and the flash of a device with a PIN in force, and one failure behind it. -/
def Ram.withPin (hash : Digest) : Ram := (Ram.reset.setPin hash 1).started

def World.withPin (hash : Digest) : World := World.sample.after (pinOps (Ram.withPin hash))

theorem PinState.withPin {fw : Firmware} {pin : Bytes} {hash : Digest} (hlen : PinLen pin)
    (hhash : computePinHash fw pin = some hash) : PinState fw (.withPin hash) (.withPin hash) where
  started := rfl
  pin := ⟨pin, hlen, hhash⟩
  hash := hashAt_pinOps (Ram.withPin hash) World.sample.flash
  count := by
    have hread := read_pinOps (Ram.withPin hash) World.sample.flash
    unfold pinStatePage at hread
    rw [List.append_assoc] at hread
    exact failsAt_of_read hread

theorem Whole.of_ends {hash : Digest} (hfirst : hash[0] ≠ 0xFF) (hlast : hash[31] ≠ 0xFF) :
    Whole hash := by
  constructor
  · intro h
    apply hfirst
    have hhead := congrArg (fun bs => bs[0]?) h
    simpa using hhead
  · intro h
    apply hlast
    have hend := congrArg (fun bs => bs[7]?) h
    simpa using hend

/-- The MAC that copies starts with the length and ends with zeros. -/
theorem Firmware.withPin_whole {hsmPin pin : Bytes} {hash : Digest} (hlen : pin.length = 6)
    (hhash : computePinHash (.withPin hsmPin) pin = some hash) : Whole hash := by
  obtain ⟨key, hkey⟩ := Firmware.withPin_computePinHash hsmPin
  have heq : (Codec.bytes 32).decode (UInt8.ofNat pin.length :: pin) = hash :=
    Option.some.inj ((hkey pin).symm.trans hhash)
  subst heq
  apply Whole.of_ends
  · simp [Codec.bytes, hlen]
  · simp [Codec.bytes, hlen]

/-- A change of the PIN, and a power loss as soon as the new hash is complete. -/
theorem pinState_survives_iff_sample :
    ∃ ram w, PinState (.withPin (ascii "a1b2c3")) ram w ∧
      Survives (.withPin (ascii "a1b2c3")) (.change (ascii "d4e5f6") (ascii "abcdef")) ram w
        ((PinCall.change (ascii "d4e5f6") (ascii "abcdef")).attempt (.withPin (ascii "a1b2c3"))
          (Schedule.cut 5) ram w) := by
  obtain ⟨key, hkey⟩ := Firmware.withPin_computePinHash (ascii "a1b2c3")
  have hheld := hkey (ascii "d4e5f6")
  have hs := PinState.withPin (by decide) hheld
  refine ⟨_, _, hs, (pinState_survives_iff hs (Schedule.cut 5)).mpr ?_⟩
  have heffects : (Schedule.cut 5).effects pinSteps = 5 := rfl
  rw [PinCall.Spared, if_pos (by decide)]
  refine ⟨fun hwrong => absurd ⟨rfl, hheld⟩ hwrong, fun _ => ⟨fun hash hhash => ?_, fun _ => rfl⟩⟩
  have hwhole : ∀ other, other = (Ram.withPin (Primitives.copying.hmac key (ascii "d4e5f6"))).gPinHash ∨
      other = hash → Whole other := by
    rintro other (rfl | rfl)
    · exact Firmware.withPin_whole rfl hheld
    · exact Firmware.withPin_whole rfl hhash
  rw [pageSpared_iff hwhole (.inl rfl) (.inr rfl), heffects]
  exact .inr (.inr (Nat.le_refl 5))

/-- A wrong PIN, and a power loss after the page is erased: the device whose PIN had been changed
    boots with the PIN of its build. -/
theorem pinState_falls_back :
    ∃ ram w, PinState (.withPin (ascii "a1b2c3")) ram w ∧
      provisionedPin (.withPin (ascii "a1b2c3")) ∉ acceptedPins (.withPin (ascii "a1b2c3")) ram ∧
      ¬ Survives (.withPin (ascii "a1b2c3")) (.check fun _ => 0) ram w
        ((PinCall.check fun _ => 0).attempt (.withPin (ascii "a1b2c3")) (Schedule.cut 1) ram w) := by
  obtain ⟨key, hkey⟩ := Firmware.withPin_computePinHash (ascii "a1b2c3")
  have hheld := hkey (ascii "d4e5f6")
  have hdiffer : ∀ pin, pin.length = 6 → pin ≠ ascii "d4e5f6" →
      computePinHash (.withPin (ascii "a1b2c3")) pin ≠
        some (Primitives.copying.hmac key (ascii "d4e5f6")) := by
    intro pin hlen hne heq
    rw [hkey] at heq
    exact hne (Primitives.copying_hmac_inj (by omega) (by decide) (Option.some.inj heq))
  have hs := PinState.withPin (by decide) hheld
  refine ⟨_, _, hs, ?_, ?_⟩
  · rintro ⟨-, -, hhash⟩
    exact hdiffer _ (by decide) (by decide) hhash
  · have hwrong : ¬ PinCorrect (.withPin (ascii "a1b2c3")) (.withPin _)
        (Mem.read (fun _ => 0) 0 pinLength) := fun h => hdiffer _ (by decide) (by decide) h.2
    have hrun := check_run_incorrect hwrong hs.started (Option.isSome_of_eq_some (hkey _))
    rw [@survives_wrong _ _ _ _ _ (fun _ => 0) hs hrun (fun _ h => h) hwrong]
    rintro ⟨hpage, -⟩
    have heffects : (Schedule.cut 1).effects pinSteps = 1 := rfl
    have hwhole : ∀ other, other = (Ram.withPin (Primitives.copying.hmac key
        (ascii "d4e5f6"))).gPinHash → Whole other := by
      rintro other rfl
      exact Firmware.withPin_whole rfl hheld
    rw [pageSpared_iff hwhole rfl rfl, heffects] at hpage
    obtain h | ⟨-, hash, hprovisioned, rfl⟩ | h := hpage
    · exact absurd h (by decide)
    · refine hdiffer _ ?_ ?_ (provisionedHash_eq hprovisioned).2 <;> decide
    · exact absurd h (by decide)
