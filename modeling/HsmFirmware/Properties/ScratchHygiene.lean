-- SUMMARY: Over any sequence of calls to secure_crypto.c and sha256_raw.c, no answer depends on the static buffers, and these are zero between the calls.
import HsmFirmware.Specs.CryptoScratch

/-!
# Scratch hygiene

Callers hold SHA-256 and HMAC contexts of their own, whose memory may hold anything until they are
initialised. Between two calls the static buffers may be disturbed: no answer changes. Undisturbed,
they are zero between any two calls.
-/

open Statics

variable {n : Nat}

/-! ## Calls -/

/-- The contexts in the memory of the callers. -/
structure Contexts where
  sha : Nat → Sha256CtxMem
  hmac : Nat → HmacCtxMem

/-- A call of a public function. The contexts are numbered. -/
inductive Call where
  | sha256RawCtxInit (i : Nat)
  | sha256RawCtxUpdate (i : Nat) (data : Bytes)
  | sha256RawCtxFinal (i : Nat)
  | hmacSha256RawInit (i : Nat) (key : Bytes)
  | hmacSha256RawUpdate (i : Nat) (data : Bytes)
  | hmacSha256RawFinal (i : Nat)
  | sha256Raw (msg : Bytes)
  | hmacSha256Raw (key msg : Bytes)
  | hkdfExtractSha256 (salt : Option Bytes) (ikm : Bytes)
  | hkdfExpandSha256 (prk info : Bytes) (out : Mem) (outLen : Nat)
  | rootSecretFromGlobalSecrets (globalSecrets : Input) (out : Bool)
  | deriveFileEncKey (root : Option Key) (groupId : UInt16) (out : Bool) (outLen : Nat)
  | deriveXferRootKey (root : Option Key) (groupId : UInt16) (out : Bool) (outLen : Nat)
  | derivePinMacKey (root : Option Key) (out : Bool) (outLen : Nat)
  | deriveWriterSeed (root : Option Key) (groupId : UInt16) (out : Bool) (outLen : Nat)
  | deriveRecvSeed (root : Option Key) (groupId : UInt16) (out : Bool) (outLen : Nat)
  | deriveWriterKeypair (root : Option Key) (groupId : UInt16) (materialOut : Bool)
  | deriveRecvKeypair (root : Option Key) (groupId : UInt16) (materialOut : Bool)
  | sha256 (message : Input) (digestOut : Bool) (digestLen : Nat)
  | hmacSha256 (key message : Input) (macOut : Bool) (macLen : Nat)
  | deriveChunkKey (masterKey : Input) (chunkIdx : UInt32) (out : Bool) (outLen : Nat)
  | aesGcmEncrypt (key nonce aad plaintext : Input) (ciphertextOut : Option Bytes)
      (tagOut : Option Tag) (tagLen : Nat)
  | aesGcmDecrypt (key nonce aad ciphertext tag : Input) (plaintextOut : Option Bytes)
      (ptOutLen : Nat)
  | writerSign (root : Option Key) (groupId : UInt16) (message : Input) (signature : Bool)
      (sigLen : Option Nat)
  | writerVerify (root : Option Key) (groupId : UInt16) (message signature : Input)
  | receiveProofSign (root : Option Key) (groupId : UInt16) (message : Input) (signature : Bool)
      (sigLen : Option Nat)
  | receiveProofVerify (root : Option Key) (groupId : UInt16) (message signature : Input)

/-- What the caller gets: the return value, and the output buffers. -/
inductive Answer where
  | done
  | digest (out : Option Digest)
  | bytes (out : Option Bytes)
  | memory (out : Mem)
  | encrypted (ok : Bool) (ciphertext : Option Bytes) (tag : Option Tag)
  | decrypted (ok : Bool) (plaintext : Option Bytes)
  | signature (out : Option (Digest × Nat))
  | verdict (ok : Bool)

namespace Call

def run (w : WolfSsl n) (c : Contexts) : Call → Scratch n (Answer × Contexts)
  | sha256RawCtxInit i =>
    pure (.done, { c with sha := Function.update c.sha i (Scratch.sha256RawCtxInit (c.sha i)) })
  | sha256RawCtxUpdate i data => do
    let ctx ← Scratch.sha256RawCtxUpdate (c.sha i) data
    pure (.done, { c with sha := Function.update c.sha i ctx })
  | sha256RawCtxFinal i => do
    let r ← Scratch.sha256RawCtxFinal (c.sha i)
    pure (.digest (some r.2), { c with sha := Function.update c.sha i r.1 })
  | hmacSha256RawInit i key => do
    let ctx ← Scratch.hmacSha256RawInit (c.hmac i) key
    pure (.done, { c with hmac := Function.update c.hmac i ctx })
  | hmacSha256RawUpdate i data => do
    let ctx ← Scratch.hmacSha256RawUpdate (c.hmac i) data
    pure (.done, { c with hmac := Function.update c.hmac i ctx })
  | hmacSha256RawFinal i => do
    let r ← Scratch.hmacSha256RawFinal (c.hmac i)
    pure (.digest (some r.2), { c with hmac := Function.update c.hmac i r.1 })
  | sha256Raw msg => (fun d => (.digest (some d), c)) <$> Scratch.sha256Raw msg
  | hmacSha256Raw key msg => (fun d => (.digest (some d), c)) <$> Scratch.hmacSha256Raw key msg
  | hkdfExtractSha256 salt ikm =>
    (fun d => (.digest (some d), c)) <$> Scratch.hkdfExtractSha256 salt ikm
  | hkdfExpandSha256 prk info out outLen =>
    (fun r => (.memory r.1, c)) <$> Scratch.hkdfExpandSha256 prk info out outLen
  | rootSecretFromGlobalSecrets globalSecrets out =>
    pure (.digest (Scratch.secureCryptoRootSecretFromGlobalSecrets globalSecrets out), c)
  | deriveFileEncKey root groupId out outLen =>
    (fun k => (.bytes k, c)) <$> Scratch.secureCryptoDeriveFileEncKey root groupId out outLen
  | deriveXferRootKey root groupId out outLen =>
    (fun k => (.bytes k, c)) <$> Scratch.secureCryptoDeriveXferRootKey root groupId out outLen
  | derivePinMacKey root out outLen =>
    (fun k => (.digest k, c)) <$> Scratch.secureCryptoDerivePinMacKey root out outLen
  | deriveWriterSeed root groupId out outLen =>
    (fun k => (.bytes k, c)) <$> Scratch.secureCryptoDeriveWriterSeed root groupId out outLen
  | deriveRecvSeed root groupId out outLen =>
    (fun k => (.bytes k, c)) <$> Scratch.secureCryptoDeriveRecvSeed root groupId out outLen
  | deriveWriterKeypair root groupId materialOut =>
    (fun k => (.digest k, c)) <$> Scratch.secureCryptoDeriveWriterKeypair root groupId materialOut
  | deriveRecvKeypair root groupId materialOut =>
    (fun k => (.digest k, c)) <$> Scratch.secureCryptoDeriveRecvKeypair root groupId materialOut
  | sha256 message digestOut digestLen =>
    (fun d => (.digest d, c)) <$> Scratch.secureCryptoSha256 message digestOut digestLen
  | hmacSha256 key message macOut macLen =>
    (fun d => (.digest d, c)) <$> Scratch.secureCryptoHmacSha256 key message macOut macLen
  | deriveChunkKey masterKey chunkIdx out outLen =>
    (fun k => (.bytes k, c)) <$> Scratch.secureCryptoDeriveChunkKey masterKey chunkIdx out outLen
  | aesGcmEncrypt key nonce aad plaintext ciphertextOut tagOut tagLen =>
    (fun r => (.encrypted r.1 r.2.1 r.2.2, c)) <$> Scratch.secureCryptoAesGcmEncrypt w key nonce aad
      plaintext ciphertextOut tagOut tagLen
  | aesGcmDecrypt key nonce aad ciphertext tag plaintextOut ptOutLen =>
    (fun r => (.decrypted r.1 r.2, c)) <$> Scratch.secureCryptoAesGcmDecrypt w key nonce aad
      ciphertext tag plaintextOut ptOutLen
  | writerSign root groupId message signature sigLen =>
    (fun s => (.signature s, c)) <$> Scratch.secureCryptoWriterSign root groupId message signature
      sigLen
  | writerVerify root groupId message signature =>
    (fun ok => (.verdict ok, c)) <$> Scratch.secureCryptoWriterVerify root groupId message signature
  | receiveProofSign root groupId message signature sigLen =>
    (fun s => (.signature s, c)) <$> Scratch.secureCryptoReceiveProofSign root groupId message
      signature sigLen
  | receiveProofVerify root groupId message signature =>
    (fun ok => (.verdict ok, c)) <$> Scratch.secureCryptoReceiveProofVerify root groupId message
      signature

/-- Calls one after the other. Before each, the buffers may be overwritten. -/
def runs (w : WolfSsl n) :
    List (Call × Option (Store (Static.Value n))) → Contexts → Scratch n (List Answer × Contexts)
  | [], c => pure ([], c)
  | (call, disturbed) :: calls, c => do
    let s ← get
    set (disturbed.getD s)
    let r ← call.run w c
    let rest ← runs w calls r.2
    pure (r.1 :: rest.1, rest.2)

end Call

/-! ## Contexts in use -/

/-- The callers have initialised the context of a call, in the calls before it. -/
def Call.Ready (before : List Call) : Call → Prop
  | .sha256RawCtxUpdate i _ | .sha256RawCtxFinal i => .sha256RawCtxInit i ∈ before
  | .hmacSha256RawUpdate i _ | .hmacSha256RawFinal i => ∃ key, .hmacSha256RawInit i key ∈ before
  | _ => True

/-- Contexts are initialised before they are used. -/
def WellUsed (before : List Call) : List Call → Prop
  | [] => True
  | call :: calls => call.Ready before ∧ WellUsed (call :: before) calls

/-- What counts of the contexts that have been initialised. -/
structure Views where
  sha : Nat → Option Sha256RawCtx
  hmac : Nat → Option HmacSha256RawCtx

namespace Views

/-- Memory that holds these contexts. -/
structure Fits (v : Views) (c : Contexts) : Prop where
  sha : ∀ i ctx, v.sha i = some ctx → (c.sha i).Open ∧ (c.sha i).view = ctx
  hmac : ∀ i ctx, v.hmac i = some ctx → (c.hmac i).Open ∧ (c.hmac i).view = ctx

/-- The contexts initialised so far are among them. -/
structure Covers (v : Views) (before : List Call) : Prop where
  sha : ∀ i, .sha256RawCtxInit i ∈ before → v.sha i ≠ none
  hmac : ∀ i key, .hmacSha256RawInit i key ∈ before → v.hmac i ≠ none

def setSha (v : Views) (i : Nat) (ctx : Sha256RawCtx) : Views :=
  { v with sha := Function.update v.sha i (some ctx) }

def setHmac (v : Views) (i : Nat) (ctx : HmacSha256RawCtx) : Views :=
  { v with hmac := Function.update v.hmac i (some ctx) }

/-- One more entry, in a table and in the memory behind it. -/
theorem fits_update {α β : Type} {R : β → α → Prop} {t : Nat → Option α} {mem : Nat → β}
    (h : ∀ i a, t i = some a → R (mem i) a) (i : Nat) {a : α} {b : β} (hb : R b a) :
    ∀ j a', Function.update t i (some a) j = some a' → R (Function.update mem i b j) a' := by
  intro j a' hj
  by_cases hij : j = i
  · subst hij
    rw [Function.update_self] at hj ⊢
    rwa [← Option.some.inj hj]
  · rw [Function.update_of_ne hij] at hj ⊢
    exact h j a' hj

theorem update_ne_none {α : Type} {t : Nat → Option α} {i j : Nat} {a : α} (h : j = i ∨ t j ≠ none) :
    Function.update t i (some a) j ≠ none := by
  by_cases hij : j = i
  · rw [hij, Function.update_self]
    exact Option.some_ne_none a
  · rw [Function.update_of_ne hij]
    exact h.resolve_left hij

variable {v : Views} {c : Contexts} {before : List Call} {call : Call}

theorem Fits.setSha (h : v.Fits c) (i : Nat) {ctx : Sha256CtxMem} (hopen : ctx.Open) :
    (v.setSha i ctx.view).Fits { c with sha := Function.update c.sha i ctx } where
  hmac := h.hmac
  sha := fits_update (R := fun mem a => Sha256CtxMem.Open mem ∧ mem.view = a) h.sha i ⟨hopen, rfl⟩

theorem Fits.setHmac (h : v.Fits c) (i : Nat) {ctx : HmacCtxMem} (hopen : ctx.Open) :
    (v.setHmac i ctx.view).Fits { c with hmac := Function.update c.hmac i ctx } where
  sha := h.sha
  hmac := fits_update (R := fun mem a => HmacCtxMem.Open mem ∧ mem.view = a) h.hmac i ⟨hopen, rfl⟩

theorem Covers.setSha (h : v.Covers before) (i : Nat) (ctx : Sha256RawCtx)
    (hcall : ∀ j, call = .sha256RawCtxInit j → j = i)
    (hhmac : ∀ j key, call ≠ .hmacSha256RawInit j key) : (v.setSha i ctx).Covers (call :: before) where
  sha j hj := update_ne_none ((List.mem_cons.mp hj).imp (fun hj => hcall j hj.symm) (h.sha j))
  hmac j key hj := h.hmac j key ((List.mem_cons.mp hj).resolve_left fun hj => hhmac j key hj.symm)

theorem Covers.setHmac (h : v.Covers before) (i : Nat) (ctx : HmacSha256RawCtx)
    (hcall : ∀ j key, call = .hmacSha256RawInit j key → j = i)
    (hsha : ∀ j, call ≠ .sha256RawCtxInit j) : (v.setHmac i ctx).Covers (call :: before) where
  sha j hj := h.sha j ((List.mem_cons.mp hj).resolve_left fun hj => hsha j hj.symm)
  hmac j key hj :=
    update_ne_none ((List.mem_cons.mp hj).imp (fun hj => hcall j key hj.symm) (h.hmac j key))

theorem Covers.cons (h : v.Covers before) (hsha : ∀ j, call ≠ .sha256RawCtxInit j)
    (hhmac : ∀ j key, call ≠ .hmacSha256RawInit j key) : v.Covers (call :: before) where
  sha j hj := h.sha j ((List.mem_cons.mp hj).resolve_left fun hj => hsha j hj.symm)
  hmac j key hj := h.hmac j key ((List.mem_cons.mp hj).resolve_left fun hj => hhmac j key hj.symm)

end Views

/-! ## One call -/

/-- All buffers. -/
def allStatics : List Static := .gAesCtx :: signStatics

theorem mem_allStatics (x : Static) : x ∈ allStatics := by
  cases x <;> decide

/-- The answer of a call, and the contexts after it, for all memory that holds the contexts before
    it. -/
def Serves (w : WolfSsl n) (call : Call) (v : Views) (answer : Answer) (v' : Views) : Prop :=
  ∀ c, v.Fits c → ∃ c', Scratch.Returns allStatics (call.run w c) (answer, c') ∧ v'.Fits c'

/-- A call that touches no context. -/
theorem Serves.map {w : WolfSsl n} {call : Call} {v : Views} {α : Type} {B : List Static}
    {m : Scratch n α} {a : α} (h : Scratch.Returns B m a) {g : α → Answer}
    (hrun : ∀ c, call.run w c = (fun a => (g a, c)) <$> m) : Serves w call v (g a) v := by
  intro c hfits
  refine ⟨c, ?_, hfits⟩
  rw [hrun]
  exact .map (h.mono fun x _ => mem_allStatics x)

section

variable (w : WolfSsl n) {before : List Call} {v : Views} (hcovers : v.Covers before) (i : Nat)

/-- A call has one answer, and leaves contexts that count as in one view. -/
def Served (w : WolfSsl n) (before : List Call) (call : Call) (v : Views) : Prop :=
  ∃ answer v', Serves w call v answer v' ∧ v'.Covers (call :: before)

include hcovers

theorem served_sha256RawCtxInit : Served w before (.sha256RawCtxInit i) v := by
  refine ⟨.done, v.setSha i sha256RawCtxInit, fun c hfits => ⟨_, .pure _, ?_⟩,
    hcovers.setSha i _ (fun j hj => (Call.sha256RawCtxInit.inj hj).symm) nofun⟩
  exact hfits.setSha i (Sha256CtxMem.open_init (c.sha i))

theorem served_sha256RawCtxUpdate (data : Bytes) (hready : .sha256RawCtxInit i ∈ before) :
    Served w before (.sha256RawCtxUpdate i data) v := by
  obtain ⟨ctx, hctx⟩ := Option.ne_none_iff_exists'.mp (hcovers.sha i hready)
  refine ⟨.done, v.setSha i (sha256RawCtxUpdate ctx data), fun c hfits => ?_,
    hcovers.setSha i _ nofun nofun⟩
  obtain ⟨hopen, hview⟩ := hfits.sha i ctx hctx
  obtain ⟨ctx', hupdate, hopen', hview'⟩ := sha256RawCtxUpdate_returns (n := n) hopen data
  refine ⟨_, .bind (hupdate.mono fun x _ => mem_allStatics x) (.pure _), ?_⟩
  rw [← hview, ← hview']
  exact hfits.setSha i hopen'

theorem served_sha256RawCtxFinal (hready : .sha256RawCtxInit i ∈ before) :
    Served w before (.sha256RawCtxFinal i) v := by
  obtain ⟨ctx, hctx⟩ := Option.ne_none_iff_exists'.mp (hcovers.sha i hready)
  refine ⟨.digest (some (sha256RawCtxFinal ctx)), v.setSha i Sha256CtxMem.zero.view,
    fun c hfits => ?_, hcovers.setSha i _ nofun nofun⟩
  obtain ⟨hopen, hview⟩ := hfits.sha i ctx hctx
  have hfinal := sha256RawCtxFinal_returns (n := n) hopen
  rw [hview] at hfinal
  refine ⟨_, .bind (hfinal.mono fun x _ => mem_allStatics x) (.pure _), ?_⟩
  exact hfits.setSha i (Nat.zero_lt_succ 63)

theorem served_hmacSha256RawInit (key : Bytes) :
    Served w before (.hmacSha256RawInit i key) v := by
  refine ⟨.done, v.setHmac i (hmacSha256RawInit key), fun c hfits => ?_,
    hcovers.setHmac i _ (fun j key hj => (Call.hmacSha256RawInit.inj hj).1.symm) nofun⟩
  obtain ⟨ctx', hinit, hopen', hview'⟩ := hmacSha256RawInit_returns (n := n) (c.hmac i) key
  refine ⟨_, .bind (hinit.mono fun x _ => mem_allStatics x) (.pure _), ?_⟩
  rw [← hview']
  exact hfits.setHmac i hopen'

theorem served_hmacSha256RawUpdate (data : Bytes)
    (hready : ∃ key, .hmacSha256RawInit i key ∈ before) :
    Served w before (.hmacSha256RawUpdate i data) v := by
  obtain ⟨key, hinit⟩ := hready
  obtain ⟨ctx, hctx⟩ := Option.ne_none_iff_exists'.mp (hcovers.hmac i key hinit)
  refine ⟨.done, v.setHmac i (hmacSha256RawUpdate ctx data), fun c hfits => ?_,
    hcovers.setHmac i _ nofun nofun⟩
  obtain ⟨hopen, hview⟩ := hfits.hmac i ctx hctx
  obtain ⟨ctx', hupdate, hopen', hview'⟩ := hmacSha256RawUpdate_returns (n := n) hopen data
  refine ⟨_, .bind (hupdate.mono fun x _ => mem_allStatics x) (.pure _), ?_⟩
  rw [← hview, ← hview']
  exact hfits.setHmac i hopen'

theorem served_hmacSha256RawFinal (hready : ∃ key, .hmacSha256RawInit i key ∈ before) :
    Served w before (.hmacSha256RawFinal i) v := by
  obtain ⟨key, hinit⟩ := hready
  obtain ⟨ctx, hctx⟩ := Option.ne_none_iff_exists'.mp (hcovers.hmac i key hinit)
  refine ⟨.digest (some (hmacSha256RawFinal ctx)), v.setHmac i HmacCtxMem.zero.view,
    fun c hfits => ?_, hcovers.setHmac i _ nofun nofun⟩
  obtain ⟨hopen, hview⟩ := hfits.hmac i ctx hctx
  have hfinal := hmacSha256RawFinal_returns (n := n) hopen
  rw [hview] at hfinal
  refine ⟨_, .bind (hfinal.mono fun x _ => mem_allStatics x) (.pure _), ?_⟩
  exact hfits.setHmac i ⟨Nat.zero_lt_succ 63, Nat.zero_lt_succ 63⟩

/-- A call that touches no context. -/
theorem served_map {call : Call} {α : Type} {B : List Static} {m : Scratch n α} {a : α}
    (h : Scratch.Returns B m a) {g : α → Answer}
    (hrun : ∀ c, call.run w c = (fun a => (g a, c)) <$> m)
    (hsha : ∀ j, call ≠ .sha256RawCtxInit j) (hhmac : ∀ j key, call ≠ .hmacSha256RawInit j key) :
    Served w before call v :=
  ⟨g a, v, .map h hrun, hcovers.cons hsha hhmac⟩

/-- Every call has one answer, whatever the buffers hold, and the contexts behind what counts. -/
theorem serves_call (call : Call) (hready : call.Ready before) : Served w before call v := by
  cases call with
  | sha256RawCtxInit i => exact served_sha256RawCtxInit w hcovers i
  | sha256RawCtxUpdate i data => exact served_sha256RawCtxUpdate w hcovers i data hready
  | sha256RawCtxFinal i => exact served_sha256RawCtxFinal w hcovers i hready
  | hmacSha256RawInit i key => exact served_hmacSha256RawInit w hcovers i key
  | hmacSha256RawUpdate i data => exact served_hmacSha256RawUpdate w hcovers i data hready
  | hmacSha256RawFinal i => exact served_hmacSha256RawFinal w hcovers i hready
  | sha256Raw msg => exact served_map w hcovers (sha256Raw_returns msg) (fun _ => rfl) nofun nofun
  | hmacSha256Raw key msg =>
    exact served_map w hcovers (hmacSha256Raw_returns key msg) (fun _ => rfl) nofun nofun
  | hkdfExtractSha256 salt ikm =>
    exact served_map w hcovers (hkdfExtractSha256_returns .identity salt ikm)
      (fun _ => rfl) nofun nofun
  | hkdfExpandSha256 prk info out outLen =>
    exact served_map w hcovers (hkdfExpandSha256_returns .identity prk info out outLen)
      (fun _ => rfl) nofun nofun
  | rootSecretFromGlobalSecrets globalSecrets out =>
    exact ⟨_, v, fun c hfits => ⟨c, .pure _, hfits⟩, hcovers.cons nofun nofun⟩
  | deriveFileEncKey root groupId out outLen =>
    exact served_map w hcovers (deriveOfGroup_returns .identity _ root groupId out outLen)
      (fun _ => rfl) nofun nofun
  | deriveXferRootKey root groupId out outLen =>
    exact served_map w hcovers (deriveOfGroup_returns .identity _ root groupId out outLen)
      (fun _ => rfl) nofun nofun
  | deriveWriterSeed root groupId out outLen =>
    exact served_map w hcovers (deriveOfGroup_returns .identity _ root groupId out outLen)
      (fun _ => rfl) nofun nofun
  | deriveRecvSeed root groupId out outLen =>
    exact served_map w hcovers (deriveOfGroup_returns .identity _ root groupId out outLen)
      (fun _ => rfl) nofun nofun
  | derivePinMacKey root out outLen =>
    exact served_map w hcovers (secureCryptoDerivePinMacKey_returns root out outLen)
      (fun _ => rfl) nofun nofun
  | deriveWriterKeypair root groupId materialOut =>
    exact served_map w hcovers (deriveKeypair_returns _ root groupId materialOut)
      (fun _ => rfl) nofun nofun
  | deriveRecvKeypair root groupId materialOut =>
    exact served_map w hcovers (deriveKeypair_returns _ root groupId materialOut)
      (fun _ => rfl) nofun nofun
  | sha256 message digestOut digestLen =>
    obtain ⟨digest, hdigest⟩ := secureCryptoSha256_returns (n := n) message digestOut digestLen
    exact served_map w hcovers hdigest (fun _ => rfl) nofun nofun
  | hmacSha256 key message macOut macLen =>
    obtain ⟨mac, hmac⟩ := secureCryptoHmacSha256_returns (n := n) key message macOut macLen
    exact served_map w hcovers hmac (fun _ => rfl) nofun nofun
  | deriveChunkKey masterKey chunkIdx out outLen =>
    obtain ⟨key, hkey⟩ := secureCryptoDeriveChunkKey_returns (n := n) masterKey chunkIdx out outLen
    exact served_map w hcovers hkey (fun _ => rfl) nofun nofun
  | aesGcmEncrypt key nonce aad plaintext ciphertextOut tagOut tagLen =>
    obtain ⟨r, hr⟩ := secureCryptoAesGcmEncrypt_returns w key nonce aad plaintext ciphertextOut tagOut
      tagLen
    exact served_map w hcovers hr (fun _ => rfl) nofun nofun
  | aesGcmDecrypt key nonce aad ciphertext tag plaintextOut ptOutLen =>
    obtain ⟨r, hr⟩ := secureCryptoAesGcmDecrypt_returns w key nonce aad ciphertext tag plaintextOut
      ptOutLen
    exact served_map w hcovers hr (fun _ => rfl) nofun nofun
  | writerSign root groupId message signature sigLen =>
    exact served_map w hcovers (signWith_returns _ root groupId message signature sigLen)
      (fun _ => rfl) nofun nofun
  | writerVerify root groupId message signature =>
    exact served_map w hcovers (verifyWith_returns _ root groupId message signature)
      (fun _ => rfl) nofun nofun
  | receiveProofSign root groupId message signature sigLen =>
    exact served_map w hcovers (signWith_returns _ root groupId message signature sigLen)
      (fun _ => rfl) nofun nofun
  | receiveProofVerify root groupId message signature =>
    exact served_map w hcovers (verifyWith_returns _ root groupId message signature)
      (fun _ => rfl) nofun nofun

end

/-! ## Any calls -/

/-- The first calls, as many as there are disturbances. -/
theorem serves_calls (w : WolfSsl n) (calls : List Call) {before : List Call} {v : Views}
    (hcovers : v.Covers before) (hused : WellUsed before calls) :
    ∃ answers : List Answer, answers.length = calls.length ∧
      ∀ (disturbed : List (Option (Store (Static.Value n)))) (c : Contexts)
        (s : Store (Static.Value n)), v.Fits c →
        ∃ c' s', Call.runs w (calls.zip disturbed) c s =
            some ((answers.take disturbed.length, c'), s') ∧
          ((∀ d ∈ disturbed, d = none) → s = Static.zero n → s' = Static.zero n) := by
  induction calls generalizing before v with
  | nil =>
    refine ⟨[], rfl, fun disturbed c s _ => ⟨c, s, ?_, fun _ hs => hs⟩⟩
    rw [List.take_nil]
    rfl
  | cons call calls ih =>
    obtain ⟨hready, hused⟩ := hused
    obtain ⟨answer, v', hserves, hcovers'⟩ := serves_call w hcovers call hready
    obtain ⟨answers, hlen, hrest⟩ := ih hcovers' hused
    refine ⟨answer :: answers, congrArg Nat.succ hlen, fun disturbed c s hfits => ?_⟩
    cases disturbed with
    | nil => exact ⟨c, s, rfl, fun _ hs => hs⟩
    | cons d disturbed =>
      obtain ⟨c₁, hret, hfits₁⟩ := hserves c hfits
      obtain ⟨s₁, hrun₁, hwiped⟩ := hret (d.getD s)
      obtain ⟨c₂, s₂, hrun₂, hzero⟩ := hrest disturbed c₁ s₁ hfits₁
      refine ⟨c₂, s₂, ?_, fun hnone hs => ?_⟩
      · have hruns : Call.runs w ((call :: calls).zip (d :: disturbed)) c s =
            (call.run w c >>= fun r => Call.runs w (calls.zip disturbed) r.2 >>= fun rest =>
              pure (r.1 :: rest.1, rest.2)) (d.getD s) := rfl
        rw [hruns, run_bind hrun₁, run_bind hrun₂]
        rfl
      · apply hzero fun d' hd' => hnone d' (List.mem_cons_of_mem d hd')
        apply hwiped.of_zero
        rw [hnone d (List.mem_cons_self)]
        exact hs

/-- Whatever is called, whatever the contexts held before they were initialised, and however the
    buffers are overwritten between the calls, the answers are the same. When they are not, all
    buffers are zero after every number of calls. -/
theorem static_scratch_hygiene (w : WolfSsl n) (calls : List Call) (hused : WellUsed [] calls) :
    ∃ answers : List Answer, answers.length = calls.length ∧
      ∀ (disturbed : List (Option (Store (Static.Value n)))) (c : Contexts),
        ∃ c' s', Call.runs w (calls.zip disturbed) c (Static.zero n) =
            some ((answers.take disturbed.length, c'), s') ∧
          ((∀ d ∈ disturbed, d = none) → s' = Static.zero n) := by
  have hcovers : Views.Covers ⟨fun _ => none, fun _ => none⟩ [] := ⟨nofun, nofun⟩
  obtain ⟨answers, hlen, hruns⟩ := serves_calls w calls hcovers hused
  refine ⟨answers, hlen, fun disturbed c => ?_⟩
  obtain ⟨c', s', hrun, hzero⟩ := hruns disturbed c (Static.zero n) ⟨nofun, nofun⟩
  exact ⟨c', s', hrun, fun hnone => hzero hnone rfl⟩

/-- The cipher that copies the text, with one tag. -/
def WolfSsl.identity : WolfSsl 0 where
  setKey aes _ := (0, aes)
  encrypt aes _ _ pt ct _ := (0, aes, pt.nonNull.or ct, .replicate 16 0)
  decrypt aes _ _ ct tag pt :=
    if tag = .replicate 16 0 then (0, aes, ct.nonNull.or pt) else (-180, aes, pt)

/-- A hash in two pieces, with a signature made in between. -/
def sampleCalls : List Call :=
  [.sha256RawCtxInit 0, .sha256RawCtxUpdate 0 [1, 2],
    .writerSign (some (.replicate 32 7)) 1 (.bytes [3]) true (some 72),
    .sha256RawCtxUpdate 0 [4], .sha256RawCtxFinal 0]

theorem static_scratch_hygiene_sample : ∃ answers : List Answer, answers.length = 5 ∧
    ∀ (disturbed : List (Option (Store (Static.Value 0)))) (c : Contexts),
      ∃ c' s', Call.runs .identity (sampleCalls.zip disturbed) c (Static.zero 0) =
          some ((answers.take disturbed.length, c'), s') ∧
        ((∀ d ∈ disturbed, d = none) → s' = Static.zero 0) :=
  static_scratch_hygiene .identity sampleCalls (by simp [sampleCalls, WellUsed, Call.Ready])
