-- SUMMARY: security_generate_nonce returns exactly if the peripheral captures enough words, and then each byte is of a capture of its own.
import HsmFirmware.Firmware.Trng
import Mathlib.Data.List.ReduceOption

/-!
# Drawing a nonce

The bytes written at any point are those of the captures so far, in their order, as far as they
are needed. The loop ends when they are enough, and there is no bound on the captures that fail.
-/

section

variable (trng : TrngPolls)

/-- The words captured in the first `n` polls. -/
def captures (n : Nat) : List UInt32 := (Polling.arrivals trng n).reduceOption

/-- Their bytes, up to a length. -/
def captured (len n : Nat) : Bytes := ((captures trng n).flatMap Codec.u32.encode).take len

end

section

variable {trng : TrngPolls} {len fuel n : Nat}

theorem length_flatMap_encode (words : List UInt32) :
    (words.flatMap Codec.u32.encode).length = 4 * words.length := by
  induction words with
  | nil => rfl
  | cons word words ih =>
    rw [List.flatMap_cons, List.length_append, ih, Codec.length_encode, Codec.u32_size,
      List.length_cons]
    omega

theorem length_captured : (captured trng len n).length = min len (4 * (captures trng n).length) := by
  unfold captured
  rw [List.length_take, length_flatMap_encode]

theorem captures_poll (b n : Nat) :
    captures trng (Polling.poll trng b n).2 =
      captures trng n ++ (Polling.poll trng b n).1.join.toList := by
  unfold captures
  rw [Polling.arrivals_poll, List.reduceOption_append]
  rcases (Polling.poll trng b n).1 with _ | _ | word <;> rfl

/-- What the bytes of one more capture add. -/
theorem captured_append {m : Nat} {word : Option UInt32}
    (h : captures trng m = captures trng n ++ word.toList) :
    captured trng len m = captured trng len n ++
      (word.toList.flatMap Codec.u32.encode).take (len - (captured trng len n).length) := by
  unfold captured
  rw [h, List.flatMap_append, List.take_append, List.length_take]
  congr 2
  omega

/-- One turn of the loop. -/
theorem trngReadBytesFrom_succ :
    trngReadBytesFrom trng len (fuel + 1) n (captured trng len n) =
      if (captured trng len n).length < len then
        trngReadBytesFrom trng len fuel (Polling.poll trng trngPollLimit n).2
          (captured trng len (Polling.poll trng trngPollLimit n).2)
      else some (captured trng len n, n) := by
  rw [captured_append (captures_poll trngPollLimit n)]
  conv_lhs => unfold trngReadBytesFrom
  split
  · rcases Polling.poll trng trngPollLimit n with ⟨_ | _ | word, next⟩
    · simp
    · simp
    · simp
  · rfl

/-- What the loop returns has been captured, and is enough. -/
theorem trngReadBytesFrom_returns {r : Bytes × Nat}
    (h : trngReadBytesFrom trng len fuel n (captured trng len n) = some r) :
    r.1 = captured trng len r.2 ∧ len ≤ r.1.length := by
  induction fuel generalizing n with
  | zero => cases h
  | succ fuel ih =>
    rw [trngReadBytesFrom_succ] at h
    split at h
    · exact ih h
    · rename_i hlen
      cases h
      exact ⟨rfl, Nat.not_lt.mp hlen⟩

theorem length_captured_mono {m : Nat} (h : n ≤ m) :
    (captured trng len n).length ≤ (captured trng len m).length := by
  have hle : (captures trng n).length ≤ (captures trng m).length :=
    (List.IsPrefix.filterMap id (Polling.arrivals_prefix h)).length_le
  rw [length_captured, length_captured]
  omega

/-- The loop is left once the bytes captured are enough. -/
theorem exists_trngReadBytesFrom {m : Nat} (h : len ≤ (captured trng len m).length) (n : Nat) :
    ∃ fuel r, trngReadBytesFrom trng len fuel n (captured trng len n) = some r := by
  induction hd : m - n using Nat.strong_induction_on generalizing n with
  | _ d ih =>
    subst hd
    by_cases hlen : (captured trng len n).length < len
    · have hnm : n < m := by
        by_contra hge
        have hmono := @length_captured_mono trng len m n (Nat.not_lt.mp hge)
        omega
      have hnext := Polling.lt_poll (s := trng) (b := trngPollLimit) (by decide) n
      obtain ⟨fuel, r, hr⟩ := ih (m - (Polling.poll trng trngPollLimit n).2) (by omega) _ rfl
      refine ⟨fuel + 1, r, ?_⟩
      rw [trngReadBytesFrom_succ, if_pos hlen]
      exact hr
    · refine ⟨1, (captured trng len n, n), ?_⟩
      rw [trngReadBytesFrom_succ, if_neg hlen]

end

/-! ## Nonces -/

section

variable (trng : TrngPolls) (outLen : Nat)

/-- A call returns, and false, or true with the bytes of captures from the call on, each used once
    and in their order, in all of the buffer. -/
def DrawsFresh : Prop :=
  (∃ fuel r, targetGenerateNonce trng outLen fuel = some r) ∧
    ∀ fuel r, targetGenerateNonce trng outLen fuel = some r →
      r = none ∨ ∃ n, r = some (captured trng outLen n) ∧ (captured trng outLen n).length = outLen

theorem captured_full_iff {n : Nat} :
    outLen ≤ (captured trng outLen n).length ↔ (outLen + 3) / 4 ≤ (captures trng n).length := by
  rw [length_captured]
  omega

theorem trngReadBytes_eq (fuel : Nat) :
    trngReadBytes trng outLen fuel =
      trngReadBytesFrom trng outLen fuel 0 (captured trng outLen 0) := by
  unfold captured
  rw [show captures trng 0 = [] from rfl, List.flatMap_nil, List.take_nil]
  rfl

/-- What a call returns with a buffer to fill. -/
theorem targetGenerateNonce_returns (h : outLen ≠ 0) {fuel : Nat} {result : Option Bytes}
    (hr : targetGenerateNonce trng outLen fuel = some result) :
    ∃ n, result = some (captured trng outLen n) ∧ (captured trng outLen n).length = outLen := by
  unfold targetGenerateNonce at hr
  rw [if_neg h, trngReadBytes_eq, Option.map_eq_some_iff] at hr
  obtain ⟨r, hr, rfl⟩ := hr
  obtain ⟨hbytes, hlen⟩ := trngReadBytesFrom_returns hr
  have hle : r.1.length ≤ outLen := by
    rw [hbytes, length_captured]
    exact Nat.min_le_left _ _
  exact ⟨r.2, congrArg some hbytes, hbytes ▸ hle.antisymm hlen⟩

/-- A call with a buffer returns exactly if, after some poll, the words captured fill it. -/
theorem generateNonce_ends_iff :
    DrawsFresh trng outLen ↔
      outLen = 0 ∨ ∃ n, (outLen + 3) / 4 ≤ (captures trng n).length := by
  unfold DrawsFresh
  by_cases hzero : outLen = 0
  · subst hzero
    refine iff_of_true ⟨⟨0, none, rfl⟩, ?_⟩ (.inl rfl)
    intro fuel r hr
    exact .inl (Option.some.inj hr).symm
  · rw [or_iff_right hzero]
    constructor
    · rintro ⟨⟨fuel, r, hr⟩, -⟩
      obtain ⟨n, -, hlen⟩ := targetGenerateNonce_returns trng outLen hzero hr
      exact ⟨n, (captured_full_iff trng outLen).mp hlen.ge⟩
    · rintro ⟨n, hn⟩
      constructor
      · obtain ⟨fuel, r, hr⟩ :=
          exists_trngReadBytesFrom ((captured_full_iff trng outLen).mpr hn) 0
        refine ⟨fuel, some r.1, ?_⟩
        unfold targetGenerateNonce
        rw [if_neg hzero, trngReadBytes_eq, hr]
        rfl
      · intro fuel r hr
        exact .inr (targetGenerateNonce_returns trng outLen hzero hr)

end

/-- A peripheral that is never ready holds the call. -/
theorem generateNonce_hangs : ¬ DrawsFresh (fun _ => none) 4 := by
  rintro ⟨⟨fuel, r, hr⟩, -⟩
  obtain ⟨n, -, hlen⟩ := targetGenerateNonce_returns (fun _ => none) 4 (by decide) hr
  have hnone : captures (fun _ => none) n = [] := by
    unfold captures Polling.arrivals
    rw [List.filterMap_none]
    rfl
  rw [length_captured, hnone] at hlen
  exact absurd hlen (by decide)
