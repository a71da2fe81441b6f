-- SUMMARY: Streaming SHA-256, HMAC and HKDF in the static buffers are those of FIPS 180-4, RFC 2104 and RFC 5869.
import HsmFirmware.Specs.Scratch

/-!
# The standards

However a message is cut, a stream gives the digest of the standard. No write goes past the end
of a buffer: such a write would leave the stream without a result.
-/

open Statics

/-! ## SHA-256 -/

section

variable {n : Nat}

/-- A stream of pieces through a SHA-256 context, up to its end. -/
def Scratch.sha256Absorb (ctx : Sha256CtxMem) (pieces : List Bytes) : Scratch n Sha256CtxMem :=
  pieces.foldlM Scratch.sha256RawCtxUpdate (Scratch.sha256RawCtxInit ctx)

def Scratch.sha256Stream (ctx : Sha256CtxMem) (pieces : List Bytes) : Scratch n Digest := do
  let ctx ← Scratch.sha256Absorb ctx pieces
  let (_, digest) ← Scratch.sha256RawCtxFinal ctx
  pure digest

theorem foldlM_update_returns (pieces : List Bytes) {ctx : Sha256CtxMem} (hopen : ctx.Open) :
    ∃ ctx', Scratch.Returns (n := n) [.gSha256Schedule]
        (pieces.foldlM Scratch.sha256RawCtxUpdate ctx) ctx' ∧
      ctx'.Open ∧ ctx'.view = pieces.foldl sha256RawCtxUpdate ctx.view := by
  induction pieces generalizing ctx with
  | nil => exact ⟨ctx, .pure ctx, hopen, rfl⟩
  | cons data pieces ih =>
    obtain ⟨ctx₁, hupdate, hopen₁, hview₁⟩ := sha256RawCtxUpdate_returns (n := n) hopen data
    obtain ⟨ctx₂, hrest, hopen₂, hview₂⟩ := ih hopen₁
    refine ⟨ctx₂, ?_, hopen₂, ?_⟩
    · rw [List.foldlM_cons]
      exact .bind hupdate hrest
    · rw [hview₂, hview₁, List.foldl_cons]

/-- For every message and every way to cut it: the digest of FIPS 180-4, which `sha256_raw` gives
    too, and fewer than 64 bytes in the buffer between two pieces. Buffers and context may hold
    anything before. -/
theorem sha256Stream_fips180 (n : Nat) (ctx : Sha256CtxMem) (pieces : List Bytes) :
    (∀ taken, taken <+: pieces → ∃ ctx', Scratch.Returns (n := n) [.gSha256Schedule]
      (Scratch.sha256Absorb ctx taken) ctx' ∧ ctx'.curlen.toNat < 64) ∧
    ∃ digest, Scratch.Returns (n := n) [.gSha256Schedule] (Scratch.sha256Stream ctx pieces) digest ∧
      digest.toList = Fips180.sha256 pieces.flatten ∧
      Scratch.Returns (n := n) [.gSha256Schedule, .gSha256OneshotCtx]
        (Scratch.sha256Raw pieces.flatten) digest := by
  constructor
  · intro taken _
    obtain ⟨ctx', hret, hopen, -⟩ := foldlM_update_returns (n := n) taken
      (Sha256CtxMem.open_init ctx)
    exact ⟨ctx', hret, hopen⟩
  · obtain ⟨ctx', hret, hopen, hview⟩ := foldlM_update_returns (n := n) pieces
      (Sha256CtxMem.open_init ctx)
    rw [Sha256CtxMem.view_init, foldl_sha256RawCtxUpdate _ _ (by decide)] at hview
    have hfinal := sha256RawCtxFinal_returns (n := n) hopen
    rw [hview] at hfinal
    refine ⟨sha256Raw pieces.flatten, ?_, sha256Raw_toList _, sha256Raw_returns _⟩
    exact .bind hret (.bind hfinal (.pure _))

/-! ## HMAC -/

/-- A stream of pieces through an HMAC context, up to its end. -/
def Scratch.hmacStream (ctx : HmacCtxMem) (key : Bytes) (pieces : List Bytes) : Scratch n Digest := do
  let ctx ← Scratch.hmacSha256RawInit ctx key
  let ctx ← pieces.foldlM Scratch.hmacSha256RawUpdate ctx
  let (_, mac) ← Scratch.hmacSha256RawFinal ctx
  pure mac

theorem foldlM_hmacUpdate_returns (pieces : List Bytes) {ctx : HmacCtxMem} (hopen : ctx.Open) :
    ∃ ctx', Scratch.Returns (n := n) [.gSha256Schedule]
        (pieces.foldlM Scratch.hmacSha256RawUpdate ctx) ctx' ∧
      ctx'.Open ∧ ctx'.view = pieces.foldl hmacSha256RawUpdate ctx.view := by
  induction pieces generalizing ctx with
  | nil => exact ⟨ctx, .pure ctx, hopen, rfl⟩
  | cons data pieces ih =>
    obtain ⟨ctx₁, hupdate, hopen₁, hview₁⟩ := hmacSha256RawUpdate_returns (n := n) hopen data
    obtain ⟨ctx₂, hrest, hopen₂, hview₂⟩ := ih hopen₁
    refine ⟨ctx₂, ?_, hopen₂, ?_⟩
    · rw [List.foldlM_cons]
      exact .bind hupdate hrest
    · rw [hview₂, hview₁, List.foldl_cons]

/-- For every key, every message and every way to cut it: the HMAC of RFC 2104, which
    `hmac_sha256_raw` gives too. -/
theorem hmacStream_rfc2104 (n : Nat) (ctx : HmacCtxMem) (key : Bytes) (pieces : List Bytes) :
    ∃ mac, Scratch.Returns (n := n) hmacStatics (Scratch.hmacStream ctx key pieces) mac ∧
      mac.toList = Rfc2104.hmac Fips180.sha256 64 key pieces.flatten ∧
      Scratch.Returns (n := n) hmacStatics (Scratch.hmacSha256Raw key pieces.flatten) mac := by
  obtain ⟨ctx₁, hinit, hopen₁, hview₁⟩ := hmacSha256RawInit_returns (n := n) ctx key
  obtain ⟨ctx₂, hupdate, hopen₂, hview₂⟩ := foldlM_hmacUpdate_returns (n := n) pieces hopen₁
  rw [hview₁, foldl_hmacSha256RawUpdate _ _ (hmacSha256RawInit_buf_lt key)] at hview₂
  have hfinal := hmacSha256RawFinal_returns (n := n) hopen₂
  rw [hview₂] at hfinal
  refine ⟨hmacSha256Raw key pieces.flatten, ?_, hmacSha256Raw_toList _ _, hmacSha256Raw_returns _ _⟩
  refine .bind (hinit.mono (by decide)) (.bind (hupdate.mono (by decide)) ?_)
  exact .bind (hfinal.mono (by decide)) (.pure _)

/-! ## HKDF -/

/-- The HKDF of RFC 5869, whose longest output takes 255 blocks: an absent or empty salt is 32
    zeros, nothing behind the output is written, and the counter counts the blocks. -/
theorem hkdf_rfc5869 (n : Nat) (salt : Option Bytes) (ikm prk info : Bytes) (out : Mem) (outLen : Nat)
    (houtLen : outLen ≤ 8160) :
    (∃ key, Scratch.Returns (n := n) hmacStatics (Scratch.hkdfExtractSha256 salt ikm) key ∧
      key.toList = Rfc5869.extract (Rfc2104.hmac Fips180.sha256 64) 32 salt ikm ∧
      (salt.getD [] = [] →
        key.toList = Rfc2104.hmac Fips180.sha256 64 (List.replicate 32 0) ikm)) ∧
    ∃ out' counter, Scratch.Returns (n := n) expandStatics
        (Scratch.hkdfExpandSha256 prk info out outLen) (out', counter) ∧
      out'.read 0 outLen = Rfc5869.expand (Rfc2104.hmac Fips180.sha256 64) 32 prk info outLen ∧
      (∀ x, outLen ≤ x → out' x = out x) ∧ counter.toNat = (outLen + 31) / 32 := by
  constructor
  · refine ⟨_, hkdfExtractSha256_returns .identity salt ikm,
      hkdfExtractSha256_toList .identity salt ikm, ?_⟩
    intro hempty
    cases salt with
    | none => exact hmacSha256Raw_toList _ _
    | some salt =>
      obtain rfl : salt = [] := hempty
      exact hmacSha256Raw_toList _ _
  · refine ⟨_, _, hkdfExpandSha256_returns .identity prk info out outLen, ?_, ?_, ?_⟩
    · have h := out.read_write 0 (hkdfExpandSha256 (.release .identity) prk info outLen)
      rw [length_hkdfExpandSha256] at h
      rw [h]
      exact hkdfExpandSha256_eq .identity prk info houtLen
    · intro x hx
      have hagree := @Mem.agree_write out 0 outLen (x + 1)
        (hkdfExpandSha256 (.release .identity) prk info outLen) (.inr (by simp))
      exact hagree x hx (Nat.lt_succ_self x)
    · apply UInt8.toNat_ofNat_of_lt'
      unfold UInt8.size
      omega

/-- The longest output, under a salt of one byte. -/
theorem hkdf_rfc5869_longest :
    ∃ out' counter, Scratch.Returns (n := 0) expandStatics
        (Scratch.hkdfExpandSha256 [1] [2] (fun _ => 0) 8160) (out', counter) ∧
      out' 8160 = 0 ∧ counter.toNat = 255 := by
  obtain ⟨out', counter, hret, -, hbehind, hcounter⟩ :=
    (hkdf_rfc5869 0 (some [1]) [3] [1] [2] (fun _ => 0) 8160 (Nat.le_refl _)).2
  exact ⟨out', counter, hret, hbehind 8160 (Nat.le_refl _), hcounter⟩

end
