-- SUMMARY: The hash of sha256_raw.c is SHA-256 of FIPS 180-4, its MAC the HMAC of RFC 2104, and its HKDF that of RFC 5869.
import HsmFirmware.Library.Hmac
import HsmFirmware.Library.Sha256
import HsmFirmware.Firmware.Release
import HsmFirmware.Firmware.Sha256Raw

/-!
# SHA-256 against the standard

Words, schedule and rounds of the code are those of the standard, and what a context has
absorbed, padded, is the padded message.
-/

/-! ## Words -/

theorem rotr32_eq (x : UInt32) {n : Nat} (h0 : 0 < n) (hn : n < 32) :
    rotr32 x (UInt32.ofNat n) = Fips180.rotr n x := by
  apply UInt32.toBitVec_inj.mp
  simp [rotr32, Fips180.rotr, BitVec.rotateRight_def]
  congr 2
  omega

theorem shiftLeft_or_byte {b : Nat} (hb : b < 256) (a i : Nat) :
    a <<< (i + 8) ||| b <<< i = (a * 256 + b) <<< i := by
  rw [Nat.add_comm i 8, Nat.shiftLeft_add, ← Nat.shiftLeft_or_distrib,
    ← Nat.shiftLeft_add_eq_or_of_lt hb, Nat.shiftLeft_eq a 8]

theorem be32Load_eq (block : Bytes) (i : Nat) :
    be32Load (block.drop (4 * i)) = Fips180.wordAt block i := by
  have hget : ∀ j, (block.drop (4 * i)).getD j 0 = block.getD (4 * i + j) 0 := by simp
  unfold be32Load Fips180.wordAt
  rw [hget, hget, hget, hget, Nat.add_zero]
  generalize block.getD (4 * i) 0 = b0
  generalize block.getD (4 * i + 1) 0 = b1
  generalize block.getD (4 * i + 2) 0 = b2
  generalize block.getD (4 * i + 3) 0 = b3
  have h0 := b0.toNat_lt
  have h1 := b1.toNat_lt
  have h2 := b2.toNat_lt
  have h3 := b3.toNat_lt
  have hshift0 := Nat.shiftLeft_eq b0.toNat 24
  have hshift1 := Nat.shiftLeft_eq b1.toNat 16
  have hshift2 := Nat.shiftLeft_eq b2.toNat 8
  apply UInt32.toNat_inj.mp
  simp
  rw [Nat.mod_eq_of_lt (by omega), Nat.mod_eq_of_lt (by omega), Nat.mod_eq_of_lt (by omega),
    shiftLeft_or_byte h1 _ 16, shiftLeft_or_byte h2 _ 8, Nat.mod_eq_of_lt (by omega)]
  exact shiftLeft_or_byte h3 _ 0

theorem toUInt8_shiftRight32 (x : UInt32) {k : Nat} (hk : k < 32) :
    (x >>> UInt32.ofNat k).toUInt8 = UInt8.ofNat (x.toNat / 2 ^ k) := by
  apply UInt8.toNat_inj.mp
  simp [Nat.shiftRight_eq_div_pow, Nat.mod_eq_of_lt hk]

theorem toUInt8_shiftRight64 (x : UInt64) {k : Nat} (hk : k < 64) :
    (x >>> UInt64.ofNat k).toUInt8 = UInt8.ofNat (x.toNat / 2 ^ k) := by
  apply UInt8.toNat_inj.mp
  simp [Nat.shiftRight_eq_div_pow]
  rw [Nat.mod_eq_of_lt hk]

theorem be32Store_eq (x : UInt32) : be32Store x = Fips180.bigEndian 4 x.toNat := by
  have hbyte := fun k hk => @toUInt8_shiftRight32 x k hk
  simp only [be32Store, Fips180.bigEndian, List.range_succ]
  simp
  exact ⟨hbyte 24 (by decide), hbyte 16 (by decide), hbyte 8 (by decide)⟩

theorem be64Store_eq (x : UInt64) : be64Store x = Fips180.bigEndian 8 x.toNat := by
  have hbyte := fun k hk => @toUInt8_shiftRight64 x k hk
  simp only [be64Store, Fips180.bigEndian, List.range_succ]
  simp
  exact ⟨hbyte 56 (by decide), hbyte 48 (by decide), hbyte 40 (by decide), hbyte 32 (by decide),
    hbyte 24 (by decide), hbyte 16 (by decide), hbyte 8 (by decide)⟩

/-! ## Constants -/

theorem sha256K_eq : sha256K = Fips180.K := by decide +kernel

namespace Sha256State

/-- The words `H_0` to `H_7`. -/
def words (s : Sha256State) : Vector UInt32 8 := #v[s.a, s.b, s.c, s.d, s.e, s.f, s.g, s.h]

theorem words_H0 : sha256H0.words = Fips180.initial := by decide +kernel

end Sha256State

/-! ## Compression -/

theorem getD_reverse_map_range {α : Type} (f : Nat → α) {m i : Nat} (h : i < m) (d : α) :
    ((List.range m).map f).reverse.getD i d = f (m - 1 - i) := by
  rw [List.getD_eq_getElem _ _ (by simpa using h)]
  simp

theorem smallSigma0_eq (x : UInt32) :
    rotr32 x 7 ^^^ rotr32 x 18 ^^^ (x >>> 3) = Fips180.smallSigma0 x := by
  unfold Fips180.smallSigma0
  rw [← rotr32_eq x (by decide) (by decide), ← rotr32_eq x (by decide) (by decide)]
  rfl

theorem smallSigma1_eq (x : UInt32) :
    rotr32 x 17 ^^^ rotr32 x 19 ^^^ (x >>> 10) = Fips180.smallSigma1 x := by
  unfold Fips180.smallSigma1
  rw [← rotr32_eq x (by decide) (by decide), ← rotr32_eq x (by decide) (by decide)]
  rfl

theorem bigSigma0_eq (x : UInt32) :
    rotr32 x 2 ^^^ rotr32 x 13 ^^^ rotr32 x 22 = Fips180.bigSigma0 x := by
  unfold Fips180.bigSigma0
  rw [← rotr32_eq x (by decide) (by decide), ← rotr32_eq x (by decide) (by decide),
    ← rotr32_eq x (by decide) (by decide)]
  rfl

theorem bigSigma1_eq (x : UInt32) :
    rotr32 x 6 ^^^ rotr32 x 11 ^^^ rotr32 x 25 = Fips180.bigSigma1 x := by
  unfold Fips180.bigSigma1
  rw [← rotr32_eq x (by decide) (by decide), ← rotr32_eq x (by decide) (by decide),
    ← rotr32_eq x (by decide) (by decide)]
  rfl

/-- One more word of the schedule. -/
theorem sha256Extend_succ (block : Bytes) (n t : Nat) :
    sha256Extend (n + 1) ((List.range (t + 16)).map (Fips180.schedule block)).reverse =
      sha256Extend n ((List.range (t + 17)).map (Fips180.schedule block)).reverse := by
  have hword : ∀ i j, i + j = t + 15 →
      ((List.range (t + 16)).map (Fips180.schedule block)).reverse.getD i 0 =
        Fips180.schedule block j := by
    intro i j hij
    rw [getD_reverse_map_range _ (by omega)]
    congr 1
    omega
  rw [List.range_succ (n := t + 16), List.map_append, List.reverse_append]
  rw [sha256Extend]
  simp only [smallSigma0_eq, smallSigma1_eq]
  rw [hword 14 (t + 1) (by omega), hword 1 (t + 14) (by omega), hword 15 t (by omega),
    hword 6 (t + 9) (by omega), List.map_singleton, List.reverse_singleton, Fips180.schedule_add]
  congr 2
  ac_rfl

/-- The words the loop appends are those of the standard. -/
theorem sha256Extend_eq (block : Bytes) (n t : Nat) :
    sha256Extend n ((List.range (t + 16)).map (Fips180.schedule block)).reverse =
      ((List.range (t + 16 + n)).map (Fips180.schedule block)).reverse := by
  induction n generalizing t with
  | zero => rfl
  | succ n ih =>
    rw [sha256Extend_succ, ih (t + 1)]
    congr 3
    omega

theorem sha256Schedule_eq (block : Bytes) :
    sha256Schedule block = (List.range 64).map (Fips180.schedule block) := by
  have hwords : (List.range 16).map (fun i => be32Load (block.drop (4 * i))) =
      (List.range 16).map (Fips180.schedule block) := by
    apply List.map_congr_left
    intro i hi
    rw [be32Load_eq, Fips180.schedule_lt (List.mem_range.mp hi)]
  rw [sha256Schedule, hwords, sha256Extend_eq block 48 0, List.reverse_reverse]

theorem words_round (s : Sha256State) (k w : UInt32) :
    (sha256Round s (k, w)).words = Fips180.round s.words k w := by
  unfold sha256Round
  simp only [bigSigma0_eq, bigSigma1_eq]
  rfl

theorem words_rounds (kws : List (UInt32 × UInt32)) (s : Sha256State) :
    (kws.foldl sha256Round s).words =
      kws.foldl (fun v kw => Fips180.round v kw.1 kw.2) s.words := by
  induction kws generalizing s with
  | nil => rfl
  | cons kw kws ih =>
    rw [List.foldl_cons, List.foldl_cons, ih, ← words_round]

theorem words_add (s r : Sha256State) :
    Sha256State.words ⟨s.a + r.a, s.b + r.b, s.c + r.c, s.d + r.d, s.e + r.e, s.f + r.f, s.g + r.g,
      s.h + r.h⟩ = r.words.zipWith (· + ·) s.words := by
  simp [Sha256State.words, UInt32.add_comm]

/-- Rounds run over pairs of a constant and a word. -/
theorem zip_schedule (block : Bytes) : sha256K.toList.zip (sha256Schedule block) =
    (List.finRange 64).map fun t : Fin 64 => (sha256K.get t, Fips180.schedule block t) := by
  rw [sha256Schedule_eq]
  apply List.ext_getElem
  · simp
  · intro t h h'
    simp [Vector.get]

theorem words_compress (s : Sha256State) (block : Bytes) :
    (sha256Compress s block).words = Fips180.compress s.words block := by
  unfold sha256Compress Fips180.compress
  have hrounds := words_rounds
    ((List.finRange 64).map fun t : Fin 64 => (Fips180.K.get t, Fips180.schedule block t)) s
  rw [List.foldl_map (g := fun v (kw : UInt32 × UInt32) => Fips180.round v kw.1 kw.2)] at hrounds
  rw [zip_schedule, sha256K_eq]
  exact (words_add s _).trans (congrArg (Vector.zipWith (· + ·) · s.words) hrounds)

/-! ## Digests -/

/-- The whole blocks a context has absorbed. -/
theorem compressAll_absorb (state : Sha256State) (length : UInt64) (bs tail : Bytes) :
    Fips180.compressAll state.words (bs ++ tail) =
      Fips180.compressAll (sha256Absorb state length bs).state.words
        ((sha256Absorb state length bs).buf ++ tail) := by
  induction state, length, bs using sha256Absorb.induct with
  | case1 state length bs h ih =>
    have hsplit : bs ++ tail = bs.take 64 ++ (bs.drop 64 ++ tail) := by
      rw [← List.append_assoc, List.take_append_drop]
    rw [sha256Absorb_long h, hsplit, Fips180.compressAll_block (by simp [h]), ← words_compress, ih]
  | case2 state length bs h => rw [sha256Absorb_short (Nat.not_le.mp h)]

/-- The bits in the whole blocks, and the bytes in the buffer. -/
theorem sha256Absorb_length (state : Sha256State) (length : UInt64) (bs : Bytes) :
    (sha256Absorb state length bs).length +
        UInt64.ofNat (sha256Absorb state length bs).buf.length * 8 =
      length + UInt64.ofNat (8 * bs.length) := by
  induction state, length, bs using sha256Absorb.induct with
  | case1 state length bs h ih =>
    rw [sha256Absorb_long h, ih]
    apply UInt64.toNat_inj.mp
    simp
    omega
  | case2 state length bs h =>
    rw [sha256Absorb_short (Nat.not_le.mp h)]
    apply UInt64.toNat_inj.mp
    simp
    omega

theorem sha256Absorb_buf_length (state : Sha256State) (length : UInt64) (bs : Bytes) :
    (sha256Absorb state length bs).buf.length = bs.length % 64 := by
  induction state, length, bs using sha256Absorb.induct with
  | case1 state length bs h ih =>
    rw [sha256Absorb_long h, ih, List.length_drop]
    omega
  | case2 state length bs h =>
    rw [sha256Absorb_short (Nat.not_le.mp h)]
    exact (Nat.mod_eq_of_lt (Nat.not_le.mp h)).symm

/-- Big-endian digits are those of the number modulo their range. -/
theorem bigEndian_mod (n x : Nat) : Fips180.bigEndian n (x % 256 ^ n) = Fips180.bigEndian n x := by
  apply List.map_congr_left
  intro i hi
  have hlt : i < n := List.mem_range.mp (List.mem_reverse.mp hi)
  obtain ⟨k, rfl⟩ := Nat.exists_eq_add_of_lt hlt
  apply UInt8.toNat_inj.mp
  rw [UInt8.toNat_ofNat', UInt8.toNat_ofNat', Nat.add_assoc, Nat.pow_add, Nat.mod_mul_right_div_self,
    Nat.pow_succ', Nat.mod_mul_right_mod]

/-- The length field holds the length modulo 2^64. -/
theorem be64Store_ofNat (x : Nat) : be64Store (UInt64.ofNat x) = Fips180.bigEndian 8 x := by
  rw [be64Store_eq, UInt64.toNat_ofNat']
  exact bigEndian_mod 8 x

theorem toList_decode_bytes {n : Nat} {bs : Bytes} (h : bs.length = n) :
    ((Codec.bytes n).decode bs).toList = bs :=
  (Codec.bytes n).encode_decode h

theorem toList_digest (s : Sha256State) :
    ((Codec.bytes 32).decode ([s.a, s.b, s.c, s.d, s.e, s.f, s.g, s.h].flatMap be32Store)).toList =
      s.words.toList.flatMap fun x => Fips180.bigEndian 4 x.toNat := by
  rw [show be32Store = fun x => Fips180.bigEndian 4 x.toNat from funext be32Store_eq]
  apply toList_decode_bytes
  simp

/-- Padding a buffer and compressing it. -/
theorem toList_final (ctx : Sha256RawCtx) (hbuf : ctx.buf.length < 64) :
    (sha256RawCtxFinal ctx).toList =
      (Fips180.compressAll ctx.state.words (ctx.buf ++ (0x80 ::
        (List.replicate (Fips180.zeros ctx.buf.length) 0 ++
          be64Store (ctx.length + UInt64.ofNat ctx.buf.length * 8))))).toList.flatMap
        fun x => Fips180.bigEndian 4 x.toNat := by
  obtain ⟨state, length, buf⟩ := ctx
  have hlen : buf.length < 64 := hbuf
  generalize hfield : be64Store (length + UInt64.ofNat buf.length * 8) = field
  have hfieldLen : field.length = 8 := by
    rw [← hfield]
    rfl
  have hone : ∀ {block : Bytes}, block.length = 64 → ∀ H,
      Fips180.compressAll H block = Fips180.compress H block := by
    intro block hblock H
    have h := Fips180.compressAll_block hblock H []
    rwa [List.append_nil, @Fips180.compressAll_short [] (by decide)] at h
  unfold sha256RawCtxFinal
  simp only [hfield, List.length_append, List.length_singleton]
  split
  · -- The length does not fit behind the one bit: two blocks.
    rename_i hlong
    have hzeros : Fips180.zeros buf.length = 64 - (buf.length + 1) + 56 := by
      unfold Fips180.zeros
      omega
    have hsplit : buf ++ 0x80 :: (List.replicate (Fips180.zeros buf.length) 0 ++ field) =
        buf ++ [0x80] ++ List.replicate (64 - (buf.length + 1)) 0 ++
          (List.replicate 56 0 ++ field) := by
      rw [hzeros, List.replicate_add]
      simp
    rw [toList_digest, words_compress, words_compress, hsplit,
      Fips180.compressAll_block (by simp; omega), hone (by simp [hfieldLen])]
    rfl
  · rename_i hshort
    have hzeros : Fips180.zeros buf.length = 56 - (buf.length + 1) := by
      unfold Fips180.zeros
      omega
    rw [toList_digest, words_compress, hzeros, hone (by simp [hfieldLen]; omega)]
    simp

theorem sha256Raw_toList (msg : Bytes) : (sha256Raw msg).toList = Fips180.sha256 msg := by
  have hctx : sha256RawCtxUpdate sha256RawCtxInit msg = sha256Absorb sha256H0 0 msg :=
    sha256RawCtxUpdate_eq _ _ (by decide)
  have hlength := sha256Absorb_length sha256H0 0 msg
  rw [UInt64.zero_add] at hlength
  unfold sha256Raw Fips180.sha256 Fips180.pad Fips180.padding
  rw [hctx, toList_final _ (sha256Absorb_buf_lt _ _ _), hlength, be64Store_ofNat,
    sha256Absorb_buf_length, ← Sha256State.words_H0, compressAll_absorb sha256H0 0]
  unfold Fips180.zeros
  rw [Nat.mod_mod]

/-! ## HMAC -/

/-- HMAC-SHA-256. -/
def hmacFips (key msg : Bytes) : Bytes := Rfc2104.hmac Fips180.sha256 64 key msg

theorem hmacPad_eq (key : Bytes) : hmacPad key = Rfc2104.blockKey Fips180.sha256 64 key := by
  unfold hmacPad Rfc2104.blockKey
  rw [sha256Raw_toList]

/-- Turning the inner pad into the outer one. -/
theorem xor_ipad_opad (b : UInt8) : b ^^^ 0x36 ^^^ 0x6A = b ^^^ 0x5C := by
  rw [UInt8.xor_assoc]
  rfl

/-- A block absorbed ahead of a message. -/
theorem sha256RawCtxFinal_append (block msg : Bytes) :
    sha256RawCtxFinal (sha256RawCtxUpdate (sha256RawCtxUpdate sha256RawCtxInit block) msg) =
      sha256Raw (block ++ msg) := by
  rw [sha256RawCtxUpdate_append _ _ _ (by decide)]
  rfl

theorem hmacSha256Raw_toList (key msg : Bytes) : (hmacSha256Raw key msg).toList = hmacFips key msg := by
  unfold hmacSha256Raw hmacSha256RawFinal hmacSha256RawUpdate hmacSha256RawInit hmacFips Rfc2104.hmac
    Rfc2104.ipad Rfc2104.opad
  simp only [sha256RawCtxFinal_append, sha256Raw_toList, List.map_map, hmacPad_eq]
  congr 3
  funext b
  exact xor_ipad_opad b

/-! ## HKDF -/

theorem Primitives.release_hmac (gcm : AesGcm) : (Primitives.release gcm).hmac = hmacSha256Raw := rfl

/-- Zeros are filled in behind a short key anyway. -/
theorem hmacFips_zeros {k : Nat} (hk : k ≤ 64) (msg : Bytes) :
    hmacFips (List.replicate k 0) msg = hmacFips [] msg := by
  have hkey : Rfc2104.blockKey Fips180.sha256 64 (List.replicate k 0) =
      Rfc2104.blockKey Fips180.sha256 64 [] := by
    unfold Rfc2104.blockKey
    simp only [List.length_replicate]
    rw [if_neg (Nat.not_lt.mpr hk), List.length_replicate, ← List.replicate_add,
      Nat.add_sub_cancel' hk]
    rfl
  unfold hmacFips Rfc2104.hmac Rfc2104.ipad Rfc2104.opad
  rw [hkey]

/-- An empty salt is as good as none. -/
theorem hkdfExtractSha256_toList (gcm : AesGcm) (salt : Option Bytes) (ikm : Bytes) :
    (hkdfExtractSha256 (.release gcm) salt ikm).toList = Rfc5869.extract hmacFips 32 salt ikm := by
  cases salt with
  | none => exact hmacSha256Raw_toList _ _
  | some salt =>
    cases salt with
    | nil => exact (hmacSha256Raw_toList _ _).trans (hmacFips_zeros (by decide) ikm)
    | cons b salt => exact hmacSha256Raw_toList _ _

/-- The blocks of an expansion from the one after `T(i)` on. No counter wraps up to `T(255)`. -/
theorem hkdfExpandBlocks_eq (gcm : AesGcm) (prk info : Bytes) (remaining : Nat) {i : Nat}
    {block : Digest} (hblock : 0 < i → block.toList = Rfc5869.T hmacFips prk info i)
    (hi : i + (remaining + 31) / 32 ≤ 255) :
    hkdfExpandBlocks (.release gcm) prk info block (UInt8.ofNat i) remaining =
      (Rfc5869.blocks hmacFips prk info i ((remaining + 31) / 32)).take remaining := by
  induction remaining using Nat.strong_induction_on generalizing i block with
  | _ remaining ih =>
    rw [hkdfExpandBlocks]
    by_cases hzero : remaining = 0
    · rw [if_pos hzero, hzero]
      rfl
    rw [if_neg hzero]
    have hnext : (remaining + 31) / 32 = (remaining - 32 + 31) / 32 + 1 := by omega
    have hcounter : UInt8.ofNat i + 1 = UInt8.ofNat (i + 1) := (UInt8.ofNat_add i 1).symm
    have hfirst : (if 1 < UInt8.ofNat (i + 1) then block.toList else []) =
        Rfc5869.T hmacFips prk info i := by
      have hlt : 1 < UInt8.ofNat (i + 1) ↔ 0 < i := by
        rw [UInt8.lt_iff_toNat_lt, UInt8.toNat_ofNat_of_lt' (by unfold UInt8.size; omega)]
        simp
      cases i with
      | zero => rfl
      | succ i => rw [if_pos (hlt.mpr i.succ_pos), hblock i.succ_pos]
    have hT : (hmacSha256Raw prk (Rfc5869.T hmacFips prk info i ++ info ++ [UInt8.ofNat (i + 1)])).toList =
        Rfc5869.T hmacFips prk info (i + 1) := hmacSha256Raw_toList _ _
    simp only [hcounter, hfirst, Primitives.release_hmac]
    generalize hmacSha256Raw prk _ = next at hT
    have hrest := @ih (remaining - 32) (by omega) (i + 1) next (fun _ => hT) (by omega)
    rw [hrest, hnext, Rfc5869.blocks_succ, ← hT, List.take_append, Vector.length_toList]

theorem hkdfExpandSha256_eq (gcm : AesGcm) (prk info : Bytes) {outLen : Nat} (h : outLen ≤ 8160) :
    hkdfExpandSha256 (.release gcm) prk info outLen = Rfc5869.expand hmacFips 32 prk info outLen :=
  hkdfExpandBlocks_eq gcm prk info outLen (i := 0) (fun h => (Nat.lt_irrefl 0 h).elim) (by omega)
