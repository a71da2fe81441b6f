-- SUMMARY: The build-time configuration of a device, and secure_design.c: root secret, nonces, replay cache.
import HsmFirmware.Firmware.SimpleFlash

/-! # Secure design -/

/-- `group_permission_t`. -/
structure GroupPermission where
  groupId : UInt16
  read : Bool
  write : Bool
  receive : Bool
  deriving DecidableEq

/-- What a device is built from: the primitives, and the constants of `secrets.h`. -/
structure Firmware where
  prim : Primitives
  /-- `GLOBAL_SECRETS`. -/
  globalSecrets : Bytes
  /-- `HSM_PIN`, without its terminator. -/
  hsmPin : Bytes
  /-- `global_permissions`, with its `MAX_PERMS` rows. -/
  globalPermissions : Fin 8 → GroupPermission

variable (fw : Firmware)

def securityGetRootSecret : Option Key :=
  secureCryptoRootSecretFromGlobalSecrets fw.globalSecrets

def securityGenerateNonce (outLen : Nat) : Dev (Option Bytes) :=
  if outLen = 0 then pure none else Dev.nonce outLen

/-- The tuple is in the cache. -/
def ReplayEntry.isFor (e : ReplayEntry) (nr nt : UInt32) (groupId : UInt16) (op : UInt8) : Bool :=
  e.valid && e.nr == nr && e.nt == nt && e.groupId == groupId && e.op == op

/-- `security_secure_uart_clear_replay_cache`. -/
def securitySecureUartClearReplayCache : Dev Unit :=
  modify fun ram => { ram with gReplayCache := fun _ => ⟨0, 0, 0, 0, false⟩, gReplayNext := 0 }

/-- `security_secure_uart_check_and_update_replay`. -/
def securitySecureUartCheckAndUpdateReplay (nr nt : UInt32) (groupId : UInt16) (op : UInt8) :
    Dev Bool := do
  let ram ← get
  if (List.finRange 8).any fun i => (ram.gReplayCache i).isFor nr nt groupId op then pure false
  else do
    modify fun ram =>
      { ram with
        gReplayCache := Function.update ram.gReplayCache ram.gReplayNext ⟨nr, nt, groupId, op, true⟩
        gReplayNext := ram.gReplayNext + 1 }
    pure true
