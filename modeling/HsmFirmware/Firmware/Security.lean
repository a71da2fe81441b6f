-- SUMMARY: security.c: the PIN state in RAM and flash, PIN checks, and permissions.
import HsmFirmware.Firmware.SecureDesign

/-! # PIN and permissions -/

/-- `PIN_LENGTH` and `PIN_MIN_LEN`. -/
def pinLength : Nat := 6
/-- `PIN_MAX_LEN`. -/
def pinMaxLen : Nat := 20

section
variable (fw : Firmware)

def computePinHash (pin : Bytes) : Option Digest :=
  match securityGetRootSecret fw with
  | none => none
  | some root =>
    let kPin := secureCryptoDerivePinMacKey fw.prim root
    some (fw.prim.hmac kPin.toList pin)

/-- The page `write_pin_state` writes: the hash, the little-endian count, then `0xFF`. -/
def pinStatePage (ram : Ram) : Bytes :=
  ram.gPinHash.toList ++ Codec.u32.encode ram.gFailCount ++ List.replicate (1024 - 36) 0xFF

def writePinState : Dev Int := do
  let page := pinStatePage (← get)
  if (← flashSimpleErasePage pinStateAddr) ≠ 0 then pure (-1) else do
  if (← flashSimpleWrite pinStateAddr page) ≠ 0 then pure (-1) else pure 0

def loadPinState : Dev Unit := do
  let page := (← Dev.mapped).read pinStateAddr 1024
  let failCount := Codec.u32.decode (page.drop 32)
  modify fun ram =>
    { ram with
      gPinHash := (Codec.bytes 32).decode page
      -- Erased flash reads as 0xFFFFFFFF: no failures.
      gFailCount := if failCount = 0xFFFFFFFF then 0 else failCount }

def pinHashIsBlank (ram : Ram) : Bool := ram.gPinHash.toList.all (· == 0xFF)

def pinInit : Dev Int := do
  loadPinState
  if pinHashIsBlank (← get) then do
    let provisioned := (fw.hsmPin.take pinMaxLen).takeWhile (· ≠ 0)
    if provisioned.length < pinLength then pure (-1) else
    match computePinHash fw provisioned with
    | none => pure (-1)
    | some hash => do
      modify fun ram => { ram with gPinHash := hash, gFailCount := 0 }
      if (← writePinState) ≠ 0 then pure (-1) else do
      modify fun ram => { ram with gInitialized := true }
      pure 0
  else do
    modify fun ram => { ram with gInitialized := true }
    pure 0

/-- `check_pin`, on the `PIN_LENGTH` bytes of the command. -/
def checkPin (pin : Bytes) : Dev Bool := do
  let ram ← get
  if !ram.gInitialized then pure false else
  match computePinHash fw pin with
  | none => pure false
  | some candidateHash =>
    if bytesDiffer candidateHash.toList ram.gPinHash.toList == 0 then do
      if ram.gFailCount ≠ 0 then do
        modify fun ram => { ram with gFailCount := 0 }
        let _ ← writePinState
        pure true
      else pure true
    else do
      modify fun ram => { ram with gFailCount := ram.gFailCount + 1 }
      let _ ← writePinState
      pure false

/-- `pin_change`. -/
def pinChange (oldPin newPin : Bytes) : Dev Int := do
  let ram ← get
  if !ram.gInitialized then pure (-1)
  else if oldPin.length < pinLength ∨ pinMaxLen < oldPin.length then pure (-1)
  else if newPin.length < pinLength ∨ pinMaxLen < newPin.length then pure (-1)
  else
    match computePinHash fw oldPin with
    | none => pure (-1)
    | some candidateHash =>
      if bytesDiffer candidateHash.toList ram.gPinHash.toList ≠ 0 then do
        modify fun ram => { ram with gFailCount := ram.gFailCount + 1 }
        let _ ← writePinState
        pure (-1)
      else
        match computePinHash fw newPin with
        | none => pure (-1)
        | some hash => do
          modify fun ram => { ram with gPinHash := hash, gFailCount := 0 }
          writePinState

def getPinHash (pin : Bytes) : Option Digest :=
  if pin.length < pinLength ∨ pinMaxLen < pin.length then none else computePinHash fw pin

/-- `permission_enum_t`. -/
inductive PermissionEnum where
  | permRead
  | permWrite
  | permReceive
  deriving DecidableEq, Repr

/-- The first row of the group decides. -/
def validatePermission (groupId : UInt16) (perm : PermissionEnum) : Bool :=
  match (List.finRange 8).find? fun i => (fw.globalPermissions i).groupId == groupId with
  | none => false
  | some i =>
    let entry := fw.globalPermissions i
    match perm with
    | .permRead => entry.read
    | .permWrite => entry.write
    | .permReceive => entry.receive

/-- `pin_is_locked`: the count of failures never locks the device. -/
def pinIsLocked : Bool := false

/-- `pin_gate`: 0 when the PIN is right. -/
def pinGate (pin : Bytes) : Dev Int :=
  if pinIsLocked then reject "HSM locked\n" else do
  if ← checkPin fw pin then pure 0
  else if pinIsLocked then reject "HSM locked\n" else reject "Invalid pin\n"

end
