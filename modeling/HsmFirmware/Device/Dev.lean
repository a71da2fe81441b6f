-- SUMMARY: The operations of the device, their effects, and the monad its handlers are written in.
import HsmFirmware.Library.Machine
import HsmFirmware.Device.Types

/-!
# The device monad

A handler threads the RAM and performs operations on what lies around it: the
flash controller, the random number generator, and the two UARTs at the level
of whole packets. Erasing and programming are the durable operations, one for
each command given to the flash controller.
-/

/-- `CONTROL_INTERFACE` and `TRANSFER_INTERFACE`. -/
inductive Uart where
  | control
  | transfer
  deriving DecidableEq, Repr

/-- `msg_status_t`. -/
inductive MsgStatus where
  | ok
  | badPtr
  | timeout
  | noAck
  | badLen
  deriving DecidableEq, Repr

/-- The result a handler returns for a status: the value of the enumerator. -/
def MsgStatus.toInt : MsgStatus → Int
  | .ok => 0
  | .badPtr => 1
  | .timeout => -2
  | .noAck => 2
  | .badLen => 3

/-! ## Opcodes (`msg_type_t`) -/

abbrev MsgType := UInt8

def listMsg : MsgType := 0x4C
def readMsg : MsgType := 0x52
def writeMsg : MsgType := 0x57
def receiveMsg : MsgType := 0x43
def interrogateMsg : MsgType := 0x49
def listenMsg : MsgType := 0x4E
def ackMsg : MsgType := 0x41
def debugMsg : MsgType := 0x44
def errorMsg : MsgType := 0x45
def deleteFileMsg : MsgType := 0x58
def changePinMsg : MsgType := 0x50
def digestMsg : MsgType := 0x48

/-! ## Operations -/

/-- What `read_packet_timeout` gives its caller. -/
inductive Received where
  | failed (status : MsgStatus)
  | packet (cmd : MsgType) (payload : Bytes)
  deriving DecidableEq

/-- The operations a handler performs. -/
inductive Op where
  /-- Erase the sector of an address. -/
  | erase (addr : Nat)
  /-- Program bytes at an address: one command to the flash controller. -/
  | program (addr : Nat) (data : Bytes)
  /-- The flash, mapped into memory. -/
  | mapped
  /-- Draw a nonce of a given size. -/
  | nonce (size : Nat)
  /-- `write_packet`. -/
  | send (uart : Uart) (cmd : MsgType) (payload : Bytes)
  /-- `read_packet_timeout`, with the capacity of the buffer. -/
  | recv (uart : Uart) (capacity : Nat)
  deriving DecidableEq

def Res : Op → Type
  | .erase _ => Bool
  | .program _ _ => Bool
  | .mapped => Mem
  | .nonce _ => Option Bytes
  | .send _ _ _ => MsgStatus
  | .recv _ _ => Received

/-- A packet handed to `write_packet`. -/
structure Packet where
  uart : Uart
  cmd : MsgType
  payload : Bytes
  deriving DecidableEq

/-- Everything outside the RAM. -/
structure World where
  flash : Mem
  /-- What each draw from the random number generator gives, if it succeeds. -/
  rng : Nat → Option (Nat → UInt8)
  draws : Nat
  /-- What each `read_packet_timeout` will find, given the packets sent before it, and how
      many there were. -/
  peer : Nat → List Packet → Received
  recvs : Nat
  /-- The status of the packets to come. -/
  acks : List MsgStatus
  /-- The packets sent so far, the oldest first. -/
  sent : List Packet

/-- A packet longer than the buffer is refused with `MSG_BAD_LEN`. -/
def Received.fit (capacity : Nat) : Received → Received
  | .failed st => .failed st
  | .packet cmd payload =>
    if capacity ≠ 0 ∧ capacity < payload.length then .failed .badLen else .packet cmd payload

/-- The effect of a command of the flash controller on the memory. -/
def flashStep : Op → Mem → Mem
  | .erase addr, m => m.erase pageSize addr
  | .program addr data, m => m.program addr data
  | _, m => m

/-- What the next `read_packet_timeout` gives. -/
def World.incoming (w : World) (capacity : Nat) : Received := (w.peer w.recvs w.sent).fit capacity

/-- The device: flash commands are durable, and a packet sent with no status scripted is
    acknowledged. -/
def hsm : Machine Res World where
  durable
    | .erase _ | .program _ _ => true
    | _ => false
  act
    | .erase addr, w => (true, { w with flash := w.flash.erase pageSize addr })
    | .program addr data, w => (true, { w with flash := w.flash.program addr data })
    | .mapped, w => (w.flash, w)
    | .nonce size, w =>
      ((w.rng w.draws).map fun f => (List.range size).map f, { w with draws := w.draws + 1 })
    | .send uart cmd payload, w =>
      (w.acks.headD .ok, { w with acks := w.acks.tail, sent := w.sent ++ [⟨uart, cmd, payload⟩] })
    | .recv _ capacity, w => (w.incoming capacity, { w with recvs := w.recvs + 1 })
  refuse
    | .erase _ => false
    | .program _ _ => false
    | .mapped => fun _ => 0xFF
    | .nonce _ => none
    | .send _ _ _ => .timeout
    | .recv _ _ => .failed .timeout

/-- Flash changes by the commands of the flash controller alone. -/
theorem hsm_flash_durable : hsm.Durable World.flash flashStep where
  durable o s h := by cases o <;> rfl
  volatile o s h := by cases o <;> first | rfl | cases h

/-- The world after the flash commands of a log. -/
def World.after (w : World) (L : List Op) : World :=
  { w with flash := Machine.replay flashStep L w.flash }

@[simp] theorem World.after_nil (w : World) : w.after [] = w := rfl

@[simp] theorem World.flash_after (w : World) (L : List Op) :
    (w.after L).flash = Machine.replay flashStep L w.flash := rfl

theorem World.after_append (w : World) (L L' : List Op) :
    w.after (L ++ L') = (w.after L).after L' := by
  simp [World.after, Machine.replay_append]

/-- A command of the flash controller, or a read of the mapped flash. -/
def Op.OnFlash : Op → Prop
  | .erase _ | .program _ _ | .mapped => True
  | _ => False

/-- A program that performs nothing else changes the world by its log alone. -/
theorem exec_onFlash {α : Type} {p : Prog Res α} (hp : p.Performs Op.OnFlash) (fs : Schedule)
    (w : World) : (hsm.exec p fs w).state = w.after (hsm.exec p fs w).log := by
  induction p generalizing fs w with
  | ret a => rfl
  | call o k ih =>
    obtain ⟨ho, hk⟩ := hp
    cases hd : hsm.durable o with
    | false =>
      rw [Machine.exec_call_volatile _ _ _ _ hd, ih _ (hk _)]
      cases o with
      | mapped => rfl
      | erase | program => cases hd
      | nonce | send | recv => cases ho
    | true =>
      have hact : (hsm.act o w).2 = w.after [o] := by
        cases o with
        | erase | program => rfl
        | mapped | nonce | send | recv => cases hd
      match fs with
      | [] =>
        rw [Machine.exec_call_nil _ _ _ hd, Halt.state_logged, Halt.log_logged, ih _ (hk _), hact,
          World.after_append]
      | .done :: fs =>
        rw [Machine.exec_call_done _ _ _ _ hd, Halt.state_logged, Halt.log_logged, ih _ (hk _),
          hact, World.after_append]
      | .failed true :: fs =>
        rw [Machine.exec_call_failed _ _ _ _ hd, Halt.state_logged, Halt.log_logged, ih _ (hk _),
          if_pos rfl, if_pos rfl, hact, World.after_append]
      | .failed false :: fs =>
        rw [Machine.exec_call_failed _ _ _ _ hd, Halt.state_logged, Halt.log_logged, ih _ (hk _),
          if_neg Bool.false_ne_true, if_neg Bool.false_ne_true]
        rfl
      | .powerLost :: fs =>
        rw [Machine.exec_call_powerLost _ _ _ _ hd]
        rfl

/-! ## Handlers -/

/-- A computation that threads the RAM. -/
abbrev Dev := StateT Ram (Prog Res)

namespace Dev

def op (o : Op) : Dev (Res o) := fun ram => .call o fun r => .ret (r, ram)

def erase (addr : Nat) : Dev Bool := op (.erase addr)
def program (addr : Nat) (data : Bytes) : Dev Bool := op (.program addr data)
def mapped : Dev Mem := op .mapped
def nonce (size : Nat) : Dev (Option Bytes) := op (.nonce size)
def send (uart : Uart) (cmd : MsgType) (payload : Bytes) : Dev MsgStatus :=
  op (.send uart cmd payload)
def recv (uart : Uart) (capacity : Nat) : Dev Received := op (.recv uart capacity)

variable {α β : Type}

/-- How a handler ends: its result with the RAM, or the power off. -/
abbrev exec (h : Dev α) (fs : Schedule) (ram : Ram) (w : World) : Halt Op World (α × Ram) :=
  hsm.exec (h.run ram) fs w

/-- The fault-free run of a handler. -/
abbrev Runs (h : Dev α) (ram : Ram) (w : World) (a : α) (ram' : Ram) (w' : World)
    (L : List Op) : Prop :=
  hsm.Runs (h.run ram) w (a, ram') w' L

theorem exec_bind (h : Dev α) (f : α → Dev β) (fs : Schedule) (ram : Ram) (w : World) :
    (h >>= f).exec fs ram w =
      (h.exec fs ram w).andThen fun r w' fs' => (f r.1).exec fs' r.2 w' := by
  rw [exec, StateT.run_bind, Machine.exec_bind]

theorem exec_map (g : α → β) (h : Dev α) (fs : Schedule) (ram : Ram) (w : World) :
    (g <$> h).exec fs ram w =
      (h.exec fs ram w).andThen fun r w' fs' => .done (g r.1, r.2) w' [] fs' := by
  rw [map_eq_pure_bind, exec_bind]
  rfl

@[simp] theorem exec_pure (a : α) (fs : Schedule) (ram : Ram) (w : World) :
    (pure a : Dev α).exec fs ram w = .done (a, ram) w [] fs := rfl

@[simp] theorem exec_get (fs : Schedule) (ram : Ram) (w : World) :
    (get : Dev Ram).exec fs ram w = .done (ram, ram) w [] fs := rfl

@[simp] theorem exec_modify (g : Ram → Ram) (fs : Schedule) (ram : Ram) (w : World) :
    (modify g : Dev PUnit).exec fs ram w = .done (⟨⟩, g ram) w [] fs := rfl

@[simp] theorem exec_mapped (fs : Schedule) (ram : Ram) (w : World) :
    mapped.exec fs ram w = .done (w.flash, ram) w [] fs := rfl

@[simp] theorem exec_nonce (n : Nat) (fs : Schedule) (ram : Ram) (w : World) :
    (nonce n).exec fs ram w =
      .done ((w.rng w.draws).map fun f => (List.range n).map f, ram)
        { w with draws := w.draws + 1 } [] fs := rfl

@[simp] theorem exec_send (uart : Uart) (cmd : MsgType) (payload : Bytes) (fs : Schedule)
    (ram : Ram) (w : World) :
    (send uart cmd payload).exec fs ram w =
      .done (w.acks.headD .ok, ram)
        { w with acks := w.acks.tail, sent := w.sent ++ [⟨uart, cmd, payload⟩] } [] fs := rfl

@[simp] theorem exec_recv (uart : Uart) (capacity : Nat) (fs : Schedule) (ram : Ram)
    (w : World) :
    (recv uart capacity).exec fs ram w =
      .done (w.incoming capacity, ram) { w with recvs := w.recvs + 1 } [] fs := rfl

/-- A handler that gives up at the first refused flash command. -/
abbrev Attempts (h : Dev α) (ram : Ram) (w : World) (a : α) (ram' : Ram) (w' : World)
    (L : List Op) (bad : α × Ram → Prop) : Prop :=
  hsm.Attempts (h.run ram) w (a, ram') w' L bad

/-- A handler that performs no flash command. -/
abbrev Quiet (h : Dev α) (ram : Ram) (P : α × Ram → Prop) : Prop :=
  hsm.Quiet (h.run ram) P

theorem Attempts.ending {h : Dev α} {ram ram' : Ram} {w w' : World} {a : α} {L : List Op}
    {bad : α × Ram → Prop} (hh : h.Attempts ram w a ram' w' L bad) (fs : Schedule) :
    Machine.Ending (a, ram') w' L bad fs (h.exec fs ram w) := hh fs

theorem Attempts.pure {a : α} {ram : Ram} {w : World} {bad : α × Ram → Prop} :
    (Pure.pure a : Dev α).Attempts ram w a ram w [] bad :=
  Machine.Attempts.ret hsm _ _ _

theorem Quiet.pure {a : α} {ram : Ram} {P : α × Ram → Prop} (h : P (a, ram)) :
    (Pure.pure a : Dev α).Quiet ram P :=
  Machine.Quiet.ret h

theorem Attempts.bind {h : Dev α} {f : α → Dev β} {ram ram' ram'' : Ram} {w w' w'' : World}
    {a : α} {b : β} {L L' : List Op} {bad : α × Ram → Prop} {bad' : β × Ram → Prop}
    (hh : h.Attempts ram w a ram' w' L bad) (hf : (f a).Attempts ram' w' b ram'' w'' L' bad')
    (hbad : ∀ c ram, bad (c, ram) → (f c).Quiet ram bad') :
    (h >>= f).Attempts ram w b ram'' w'' (L ++ L') bad' := by
  rw [Attempts, StateT.run_bind]
  exact Machine.Attempts.bind hh hf fun c hc => hbad c.1 c.2 hc

/-- Reading or changing the RAM first. -/
theorem Attempts.get_bind {f : Ram → Dev β} {ram ram' : Ram} {w w' : World} {b : β} {L : List Op}
    {bad : β × Ram → Prop} (hf : (f ram).Attempts ram w b ram' w' L bad) :
    ((get : Dev Ram) >>= f).Attempts ram w b ram' w' L bad := hf

theorem Attempts.modify_bind {g : Ram → Ram} {f : PUnit → Dev β} {ram ram' : Ram} {w w' : World}
    {b : β} {L : List Op} {bad : β × Ram → Prop}
    (hf : (f ⟨⟩).Attempts (g ram) w b ram' w' L bad) :
    ((modify g : Dev PUnit) >>= f).Attempts ram w b ram' w' L bad := hf

theorem Runs.bind {h : Dev α} {f : α → Dev β} {ram ram' ram'' : Ram} {w w' w'' : World}
    {a : α} {b : β} {L L' : List Op} (hh : h.Runs ram w a ram' w' L)
    (hf : (f a).Runs ram' w' b ram'' w'' L') : (h >>= f).Runs ram w b ram'' w'' (L ++ L') := by
  rw [Runs, StateT.run_bind]
  exact Machine.Runs.bind hh hf

/-- What follows gives no flash command. -/
theorem Runs.bind_quiet {h : Dev α} {f : α → Dev β} {ram ram' ram'' : Ram} {w w' w'' : World}
    {a : α} {b : β} {L : List Op} (hh : h.Runs ram w a ram' w' L)
    (hf : (f a).Runs ram' w' b ram'' w'' []) : (h >>= f).Runs ram w b ram'' w'' L := by
  have h := Runs.bind hh hf
  rwa [List.append_nil] at h

/-- The flash after a handler, however it ends, is its log carried out. -/
theorem flash_exec (h : Dev α) (fs : Schedule) (ram : Ram) (w : World) :
    (h.exec fs ram w).state.flash = Machine.replay flashStep (h.exec fs ram w).log w.flash :=
  hsm_flash_durable.view_exec (h.run ram) fs w

/-- The flash after a power loss behind `k` flash commands. -/
theorem Runs.flash_cut {h : Dev α} {ram ram' : Ram} {w w' : World} {a : α} {L : List Op}
    (hh : h.Runs ram w a ram' w' L) (k : Nat) :
    (h.exec (Schedule.cut k) ram w).state.flash = Machine.replay flashStep (L.take k) w.flash :=
  hsm_flash_durable.view_exec_cut hh k

/-- A handler that works on RAM and flash alone. -/
def OnFlash (h : Dev α) : Prop := ∀ ram, (h.run ram).Performs Op.OnFlash

theorem OnFlash.pure (a : α) : (Pure.pure a : Dev α).OnFlash := fun _ => trivial

theorem OnFlash.bind {h : Dev α} {f : α → Dev β} (hh : h.OnFlash) (hf : ∀ a, (f a).OnFlash) :
    (h >>= f).OnFlash := by
  intro ram
  rw [StateT.run_bind]
  exact (hh ram).bind fun r => hf r.1 r.2

/-- The packets a handler sends when nothing fails. -/
def replies (h : Dev α) (ram : Ram) (w : World) : List Packet :=
  (h.exec [] ram w).state.sent.drop w.sent.length

end Dev
