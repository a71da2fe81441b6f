-- SUMMARY: The PIN page rewritten word by word: the hash and the count each prefix of the words shows.
import HsmFirmware.Specs.PinState
import HsmFirmware.Specs.FlashWords

/-!
# The PIN page, word by word

The page is erased and then programmed in words of 8 bytes: four for the hash,
one for the count, and the rest for what is not used. In between it shows no
hash, then the start of one, then a hash without its count.
-/

open Machine (replay)

/-- The steps of `write_pin_state`. -/
def pinWords (ram : Ram) : List Op := .erase pinStateAddr :: wordOps pinStateAddr (pinStatePage ram)

theorem length_pinWords (ram : Ram) : (pinWords ram).length = 129 := by
  unfold pinWords
  rw [List.length_cons, length_wordOps, length_pinStatePage]
  rfl

theorem writePinState_wordwise (ram : Ram) (w : World) :
    writePinState.wordwise.Attempts ram w 0 ram (w.after (pinWords ram)) (pinWords ram)
      (· = (-1, ram)) := by
  have hlen : (pinStatePage ram).length % 64 = 0 := by
    rw [length_pinStatePage]
    decide
  exact @rewritePage_wordwise pinStateAddr (pinStatePage ram) hlen ram w

/-- What the page reads as after the erase and `j` words. -/
theorem read_pinWords (ram : Ram) (m : Mem) (j : Nat) :
    (replay flashStep ((pinWords ram).take (j + 1)) m).read pinStateAddr pageSize =
      (pinStatePage ram).take (8 * j) ++ List.replicate (pageSize - 8 * j) 0xFF := by
  unfold pinWords
  rw [List.take_succ_cons, Machine.replay_cons, replay_take_wordOps, flashStep,
    read_program_page m (by simp), List.length_take, length_pinStatePage]
  congr 2
  omega

theorem hashAt_toList (m : Mem) :
    (hashAt m).toList = (m.read pinStateAddr pageSize).take 32 := by
  unfold hashAt
  rw [Codec.toList_decode_take]
  rw [Mem.length_read]
  decide

/-- Four erased bytes are the count that a boot takes for none. -/
theorem decode_u32_erased (n : Nat) :
    Codec.u32.decode (List.replicate (n + 4) 0xFF) = 0xFFFFFFFF := by
  have hfour : Codec.u32.encode 0xFFFFFFFF = List.replicate 4 0xFF := by decide
  rw [Nat.add_comm, ← List.replicate_append_replicate, ← hfour, Codec.u32.decode_encode]

/-- A hash of which `k` words have been programmed. -/
def tornHash (hash : Digest) (k : Nat) : Digest :=
  (Codec.bytes 32).decode (hash.toList.take (8 * k) ++ List.replicate (32 - 8 * k) 0xFF)

theorem tornHash_toList (hash : Digest) (k : Nat) :
    (tornHash hash k).toList = hash.toList.take (8 * k) ++ List.replicate (32 - 8 * k) 0xFF := by
  have hlen : (hash.toList.take (8 * k) ++ List.replicate (32 - 8 * k) (0xFF : UInt8)).length = 32 := by
    simp only [List.length_append, List.length_take, List.length_replicate, Vector.length_toList]
    omega
  rw [tornHash, Codec.toList_decode_take hlen.ge, List.take_of_length_le hlen.le]

/-- Without a word there is no hash. -/
theorem tornHash_zero (hash : Digest) : Blank (tornHash hash 0) := by
  unfold Blank
  rw [tornHash_toList, Nat.mul_zero, List.take_zero, List.nil_append]

/-- With four words it is complete. -/
theorem tornHash_of_le {hash : Digest} {k : Nat} (hk : 4 ≤ k) : tornHash hash k = hash := by
  apply Vector.toList_inj.mp
  rw [tornHash_toList, List.take_of_length_le (by simp; omega), Nat.sub_eq_zero_of_le (by omega),
    List.replicate_zero, List.append_nil]

/-- With one to three it has the first word, and ends as erased. -/
theorem tornHash_ends {hash : Digest} {k : Nat} (hpos : 1 ≤ k) (hk : k ≤ 3) :
    (tornHash hash k).toList.take 8 = hash.toList.take 8 ∧
      (tornHash hash k).toList.drop 24 = List.replicate 8 0xFF := by
  have hlen : (hash.toList.take (8 * k)).length = 8 * k := by
    rw [List.length_take, Vector.length_toList]
    omega
  rw [tornHash_toList]
  constructor
  · rw [List.take_append_of_le_length (by omega), List.take_take]
    congr 1
    omega
  · rw [List.drop_append, List.drop_eq_nil_of_le (by omega), List.nil_append, hlen,
      List.drop_replicate]
    congr 1
    omega

section

variable (ram : Ram) (m : Mem)

/-- The hash that the page shows after the erase and `j` words. -/
theorem hashAt_pinWords (j : Nat) :
    hashAt (replay flashStep ((pinWords ram).take (j + 1)) m) = tornHash ram.gPinHash j := by
  have hpage : ((pinStatePage ram).take (8 * j)).take 32 = ram.gPinHash.toList.take (8 * j) := by
    unfold pinStatePage
    rw [List.take_take, List.append_assoc, List.take_append_of_le_length (by simp)]
    obtain hj | hj := Nat.le_total 32 (8 * j)
    · rw [Nat.min_eq_left hj, List.take_of_length_le (by simp), List.take_of_length_le (by simp; omega)]
    · rw [Nat.min_eq_right hj]
  apply Vector.toList_inj.mp
  rw [hashAt_toList, read_pinWords, tornHash_toList, List.take_append, hpage, List.length_take,
    length_pinStatePage, List.take_replicate]
  congr 2
  simp only [pageSize]
  omega

/-- Up to the fifth word there is no count. -/
theorem failsAt_pinErased {j : Nat} (hj : j ≤ 4) :
    failsAt (replay flashStep ((pinWords ram).take (j + 1)) m) = 0 := by
  have hcount : Codec.u32.decode (((replay flashStep ((pinWords ram).take (j + 1)) m).read
      pinStateAddr pageSize).drop 32) = 0xFFFFFFFF := by
    have hlen : ((pinStatePage ram).take (8 * j)).length ≤ 32 := by
      rw [List.length_take]
      omega
    rw [read_pinWords, List.drop_append, List.drop_eq_nil_of_le hlen, List.nil_append,
      List.drop_replicate, List.length_take, length_pinStatePage]
    obtain ⟨n, hn⟩ : ∃ n, pageSize - 8 * j - (32 - min (8 * j) pageSize) = n + 4 :=
      ⟨pageSize - 8 * j - (32 - min (8 * j) pageSize) - 4, by simp only [pageSize]; omega⟩
    rw [hn, decode_u32_erased]
  unfold failsAt
  rw [hcount]
  rfl

/-- From then on it is the count that was written, with the one that reads as erased. -/
theorem failsAt_pinWritten {j : Nat} (hj : 5 ≤ j) :
    failsAt (replay flashStep ((pinWords ram).take (j + 1)) m) =
      if ram.gFailCount = 0xFFFFFFFF then 0 else ram.gFailCount := by
  apply failsAt_of_read
  rw [read_pinWords, pinStatePage, List.append_assoc, List.take_append,
    List.take_of_length_le (by simp; omega), List.take_append,
    List.take_of_length_le (by simp; omega), List.append_assoc, List.append_assoc]

end
