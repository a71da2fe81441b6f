-- SUMMARY: The functions of sha256_raw.c compute in their static buffers what they compute on byte strings, and wipe the buffers.
import HsmFirmware.Firmware.Scratch
import HsmFirmware.Specs.Sha256

/-!
# Hashing in static buffers

Each function gives the same result whatever the buffers held, never writes past the end of
one, and leaves each one as it was or zero.
-/

open Statics

variable {n : Nat} {α : Type}

/-- A function in the static buffers gives `a` and may wipe the buffers of the list. -/
abbrev Scratch.Returns (B : List Static) (m : Scratch n α) (a : α) : Prop :=
  Statics.Returns (Static.zero n) B m a

/-! ## Buffers -/

theorem Vector.store_eq {buf : Vector UInt8 n} {i : Nat} {data : Bytes} (h : i + data.length ≤ n) :
    ∃ buf', buf.store i data = some buf' ∧
      buf'.toList = buf.toList.take i ++ data ++ buf.toList.drop (i + data.length) :=
  ⟨_, dif_pos h, rfl⟩

/-- What the bytes up to the end of the written ones are. -/
theorem Vector.take_store {buf buf' : Vector UInt8 n} {i : Nat} {data : Bytes}
    (h : buf.store i data = some buf') :
    buf'.toList.take (i + data.length) = buf.toList.take i ++ data := by
  unfold Vector.store at h
  split at h
  · rename_i hle
    obtain rfl := Option.some.inj h
    apply List.take_left'
    simp
    omega
  · cases h

/-! ## Compression -/

/-- A loop over all indices. -/
theorem foldl_finRange {β : Type} {N : Nat} (f : β → Fin N → β) (motive : Nat → β → Prop) {b : β}
    (h0 : motive 0 b) (hstep : ∀ (i : Fin N) b, motive i b → motive (i + 1) (f b i)) :
    motive N ((List.finRange N).foldl f b) := by
  have htake : ∀ m ≤ N, motive m (((List.finRange N).take m).foldl f b) := by
    intro m
    induction m with
    | zero => exact fun _ => h0
    | succ m ih =>
      intro hm
      have hlt : m < (List.finRange N).length := by simpa using Nat.lt_of_succ_le hm
      rw [List.take_add_one, List.getElem?_eq_getElem hlt, List.foldl_append]
      have h := hstep ⟨m, hm⟩ _ (ih (Nat.le_of_succ_le hm))
      simpa using h
  have h := htake N (Nat.le_refl N)
  rwa [List.take_of_length_le (by simp)] at h

theorem loadSchedule_getElem (block : Vector UInt8 64) (W : Vector UInt32 64) {i : Nat} (hi : i < 16) :
    (Scratch.loadSchedule block W)[i] = Fips180.schedule block.toList i := by
  have h := foldl_finRange
    (fun (W : Vector UInt32 64) (i : Fin 16) => W.set i (be32Load (block.toList.drop (4 * i))))
    (fun m W => ∀ j (_ : j < m) (_ : j < 64), W[j] = Fips180.wordAt block.toList j) (b := W)
    (fun j hj => (Nat.not_lt_zero j hj).elim) fun i W ih j hj h64 => by
      rw [Vector.getElem_set]
      split
      · rename_i hij
        subst hij
        exact be32Load_eq _ _
      · rename_i hij
        exact ih j (by omega) h64
  rw [Fips180.schedule_lt hi]
  exact h i hi (by omega)

theorem extendSchedule_getElem (block : Vector UInt8 64) (W : Vector UInt32 64) {i : Nat}
    (hi : i < 64) : (Scratch.extendSchedule (Scratch.loadSchedule block W))[i] =
      Fips180.schedule block.toList i := by
  unfold Scratch.extendSchedule
  refine foldl_finRange _ (fun m W => ∀ j (_ : j < m + 16) (h : j < 64),
    W[j] = Fips180.schedule block.toList j) (fun j hj h => loadSchedule_getElem block W (by omega))
    (fun i W ih j hj h64 => ?_) i (by omega) hi
  simp only [smallSigma0_eq, smallSigma1_eq]
  rw [Vector.getElem_set]
  split
  · rename_i hij
    rw [ih _ (by omega), ih _ (by omega), ih _ (by omega), ih _ (by omega), ← hij,
      Fips180.schedule_add]
    ac_rfl
  · rename_i hij
    exact ih j (by omega) h64

/-- The pure compression, over the schedule by index. -/
theorem sha256Compress_eq (s : Sha256State) (block : Vector UInt8 64) (W : Vector UInt32 64)
    (hW : ∀ i (h : i < 64), W[i] = Fips180.schedule block.toList i) :
    (List.finRange 64).foldl (fun v (i : Fin 64) => sha256Round v (sha256K.get i, W.get i)) s =
      (sha256K.toList.zip (sha256Schedule block.toList)).foldl sha256Round s := by
  rw [zip_schedule, List.foldl_map]
  congr 1
  funext v i
  rw [← hW i i.isLt]
  rfl

/-- `sha256_compress` in its static schedule. -/
theorem sha256Compress_returns (ctx : Sha256CtxMem) (block : Vector UInt8 64) :
    Scratch.Returns (n := n) [.gSha256Schedule] (Scratch.sha256Compress ctx block)
      { ctx with state := sha256Compress ctx.state block.toList } := by
  apply Statics.Returns.of_finishes
  unfold Scratch.sha256Compress
  apply Finishes.readAny
  intro W
  refine .write (List.mem_singleton_self _) (.read rfl ?_)
  refine .write (List.mem_singleton_self _) (.read rfl ?_)
  refine .wipe (List.mem_singleton_self _) ?_
  have hrounds := sha256Compress_eq ctx.state block
    (Scratch.extendSchedule (Scratch.loadSchedule block W))
    fun i h => extendSchedule_getElem block W h
  simp only [hrounds]
  apply Finishes.pure
  intro x
  cases x <;> exact .inl rfl

/-! ## Contexts -/

namespace Sha256CtxMem

/-- What counts of a context: the bytes behind `curlen` do not. -/
def view (ctx : Sha256CtxMem) : Sha256RawCtx :=
  ⟨ctx.state, ctx.length, ctx.buf.toList.take ctx.curlen.toNat⟩

/-- A context that has been initialised. -/
def Open (ctx : Sha256CtxMem) : Prop := ctx.curlen.toNat < 64

variable {ctx : Sha256CtxMem}

theorem Open.of_curlen {ctx' : Sha256CtxMem} (h : ctx.Open) (hcurlen : ctx'.curlen = ctx.curlen) :
    ctx'.Open := by
  unfold Open
  rw [hcurlen]
  exact h

theorem length_view (h : ctx.Open) : ctx.view.buf.length = ctx.curlen.toNat := by
  unfold Open at h
  simp only [view, List.length_take, Vector.length_toList]
  omega

theorem view_buf_eq_nil (h : ctx.Open) : ctx.view.buf = [] ↔ ctx.curlen = 0 := by
  rw [← List.length_eq_zero_iff, length_view h, ← UInt32.toNat_inj]
  rfl

theorem open_init (ctx : Sha256CtxMem) : (Scratch.sha256RawCtxInit ctx).Open := by
  unfold Open
  exact Nat.zero_lt_succ 63

@[simp] theorem view_init (ctx : Sha256CtxMem) :
    (Scratch.sha256RawCtxInit ctx).view = sha256RawCtxInit := rfl

/-- The room behind what the buffer holds. -/
theorem toNat_room (h : ctx.Open) : (64 - ctx.curlen).toNat = 64 - ctx.view.buf.length := by
  have hle : ctx.curlen ≤ 64 := UInt32.le_iff_toNat_le.mpr (Nat.le_of_lt h)
  rw [UInt32.toNat_sub_of_le _ _ hle, length_view h]
  rfl

variable {chunk : Bytes} {buf : Vector UInt8 64}

theorem toNat_curlen_add (h : ctx.view.buf.length + chunk.length ≤ 64) (hopen : ctx.Open) :
    (ctx.curlen + UInt32.ofNat chunk.length).toNat = ctx.view.buf.length + chunk.length := by
  rw [length_view hopen] at h ⊢
  rw [UInt32.toNat_add, UInt32.toNat_ofNat']
  omega

theorem curlen_add_eq_64 (h : ctx.view.buf.length + chunk.length ≤ 64) (hopen : ctx.Open) :
    ctx.curlen + UInt32.ofNat chunk.length = 64 ↔ (ctx.view.buf ++ chunk).length = 64 := by
  rw [← UInt32.toNat_inj, toNat_curlen_add h hopen, List.length_append]
  rfl

/-- A chunk that fits, behind what the buffer holds. -/
theorem view_filled (h : ctx.view.buf.length + chunk.length ≤ 64) (hopen : ctx.Open)
    (hstore : ctx.buf.store ctx.curlen.toNat chunk = some buf) :
    view { ctx with buf := buf, curlen := ctx.curlen + UInt32.ofNat chunk.length } =
      { ctx.view with buf := ctx.view.buf ++ chunk } := by
  have hfilled := Vector.take_store hstore
  unfold view
  rw [toNat_curlen_add h hopen, length_view hopen, hfilled]

/-- A chunk that fills the buffer. -/
theorem block_filled (hopen : ctx.Open)
    (hstore : ctx.buf.store ctx.curlen.toNat chunk = some buf)
    (hfull : (ctx.view.buf ++ chunk).length = 64) : buf.toList = ctx.view.buf ++ chunk := by
  have hfilled := Vector.take_store hstore
  rw [List.length_append, length_view hopen] at hfull
  rw [hfull] at hfilled
  have hwhole : buf.toList.take 64 = buf.toList :=
    List.take_of_length_le (Nat.le_of_eq Vector.length_toList)
  exact hwhole.symm.trans hfilled

end Sha256CtxMem

theorem frontBlock_toList (data : Bytes) (h : 64 ≤ data.length) :
    (Scratch.frontBlock data h).toList = data.take 64 := rfl

/-- Absorbing bytes in the buffer of a context returns, and leaves it open. -/
def TakesIn (n : Nat) (ctx : Sha256CtxMem) (data : Bytes) : Prop :=
  ∃ ctx', Scratch.Returns (n := n) [.gSha256Schedule] (Scratch.sha256RawCtxUpdate ctx data) ctx' ∧
    ctx'.Open ∧ ctx'.view = sha256RawCtxUpdate ctx.view data

/-- A whole block, straight from the input. -/
theorem takesIn_block {ctx : Sha256CtxMem} (hopen : ctx.Open) {data : Bytes}
    (hdirect : ctx.curlen = 0 ∧ 64 ≤ data.length)
    (hrest : ∀ ctx' : Sha256CtxMem, ctx'.Open → TakesIn n ctx' (data.drop 64)) :
    TakesIn n ctx data := by
  have hdata : data ≠ [] := by
    rintro rfl
    exact absurd hdirect.2 (Nat.not_succ_le_zero 63)
  have hdirect' : ctx.view.buf = [] ∧ 64 ≤ data.length :=
    ⟨(Sha256CtxMem.view_buf_eq_nil hopen).mpr hdirect.1, hdirect.2⟩
  have hcompress := sha256Compress_returns (n := n) ctx (Scratch.frontBlock data hdirect.2)
  have hstate : ctx.view.state = ctx.state := rfl
  unfold TakesIn Scratch.sha256RawCtxUpdate
  rw [sha256RawCtxUpdate, dif_neg hdata, dif_neg hdata, dif_pos hdirect, if_pos hdirect', hstate]
  rw [frontBlock_toList] at hcompress
  generalize sha256Compress ctx.state (data.take 64) = state at hcompress ⊢
  obtain ⟨ctx', hret, hopen', hview⟩ :=
    hrest { ctx with state := state, length := ctx.length + 512 } (hopen.of_curlen rfl)
  exact ⟨ctx', .bind hcompress hret, hopen', hview⟩

/-- A chunk that goes through the buffer. -/
theorem takesIn_chunk {ctx : Sha256CtxMem} (hopen : ctx.Open) {data : Bytes} (hdata : data ≠ [])
    (hdirect : ¬ (ctx.curlen = 0 ∧ 64 ≤ data.length))
    (hrest : ∀ (ctx' : Sha256CtxMem) (m : Nat), m ≠ 0 → ctx'.Open → TakesIn n ctx' (data.drop m)) :
    TakesIn n ctx data := by
  have hpos := List.length_pos_iff.mpr hdata
  have hdirect' : ¬ (ctx.view.buf = [] ∧ 64 ≤ data.length) := by
    rwa [Sha256CtxMem.view_buf_eq_nil hopen]
  unfold TakesIn Scratch.sha256RawCtxUpdate
  rw [sha256RawCtxUpdate, dif_neg hdata, dif_neg hdata, dif_neg hdirect, if_neg hdirect']
  simp only [Sha256CtxMem.toNat_room hopen]
  generalize hm : min (64 - ctx.view.buf.length) data.length = m
  have hbuf : ctx.view.buf.length < 64 := by
    rw [Sha256CtxMem.length_view hopen]
    exact hopen
  have hm0 : m ≠ 0 := by omega
  have htake : (data.take m).length = m := by
    rw [List.length_take]
    omega
  have hroom : ctx.view.buf.length + (data.take m).length ≤ 64 := by omega
  obtain ⟨buf, hstore, -⟩ := @Vector.store_eq 64 ctx.buf ctx.curlen.toNat (data.take m) (by
    rwa [← Sha256CtxMem.length_view hopen])
  have hcurlen := Sha256CtxMem.toNat_curlen_add hroom hopen
  have hfull := Sha256CtxMem.curlen_add_eq_64 hroom hopen
  have hview := Sha256CtxMem.view_filled hroom hopen hstore
  rw [htake] at hcurlen hfull hview
  rw [dif_neg hm0, dif_neg hm0]
  by_cases h64 : ctx.curlen + UInt32.ofNat m = 64
  · -- The buffer is full and is compressed.
    have hblock := Sha256CtxMem.block_filled hopen hstore (hfull.mp h64)
    have hcompress := sha256Compress_returns (n := n)
      { ctx with buf := buf, curlen := ctx.curlen + UInt32.ofNat m } buf
    have hstate : ctx.view.state = ctx.state := rfl
    rw [if_pos (hfull.mp h64), ← hblock, hstate]
    simp only at hcompress
    generalize sha256Compress ctx.state buf.toList = state at hcompress ⊢
    obtain ⟨ctx', hret, hopen', hview⟩ :=
      hrest ⟨state, ctx.length + 512, 0, buf⟩ m hm0 (Nat.zero_lt_succ 63)
    refine ⟨ctx', .checked hstore ?_, hopen', hview⟩
    simp only [h64, if_true]
    rw [h64] at hcompress
    exact .bind hcompress hret
  · -- The data has come to its end.
    rw [if_neg (mt hfull.mpr h64), ← hview]
    have hne : ctx.view.buf.length + m ≠ 64 := fun h =>
      h64 (UInt32.toNat_inj.mp (hcurlen.trans h))
    have hopen₁ : Sha256CtxMem.Open
        { ctx with buf := buf, curlen := ctx.curlen + UInt32.ofNat m } := by
      unfold Sha256CtxMem.Open
      rw [hcurlen]
      omega
    obtain ⟨ctx', hret, hopen', hview'⟩ := hrest _ m hm0 hopen₁
    refine ⟨ctx', .checked hstore ?_, hopen', hview'⟩
    rw [if_neg h64]
    exact hret

/-- Absorbing bytes in the buffer of a context, and nowhere behind its end. -/
theorem sha256RawCtxUpdate_returns {ctx : Sha256CtxMem} (hopen : ctx.Open) (data : Bytes) :
    ∃ ctx', Scratch.Returns (n := n) [.gSha256Schedule] (Scratch.sha256RawCtxUpdate ctx data) ctx' ∧
      ctx'.Open ∧ ctx'.view = sha256RawCtxUpdate ctx.view data := by
  induction hlen : data.length using Nat.strong_induction_on generalizing ctx data with
  | _ len ih =>
    by_cases hdata : data = []
    · refine ⟨ctx, ?_, hopen, ?_⟩
      · rw [Scratch.sha256RawCtxUpdate, dif_pos hdata]
        exact .pure ctx
      · rw [sha256RawCtxUpdate, dif_pos hdata]
    · have hrest : ∀ (ctx' : Sha256CtxMem) (m : Nat), m ≠ 0 → ctx'.Open →
          TakesIn n ctx' (data.drop m) := by
        intro ctx' m hm hopen'
        have hlt : (data.drop m).length < len := hlen ▸ length_drop_lt hdata (Nat.pos_of_ne_zero hm)
        exact ih _ hlt hopen' (data.drop m) rfl
      by_cases hdirect : ctx.curlen = 0 ∧ 64 ≤ data.length
      · apply takesIn_block hopen hdirect
        exact fun ctx' => hrest ctx' 64 (by decide)
      · exact takesIn_chunk hopen hdata hdirect hrest

/-- The buffer is zero from `curlen` up to the limit. -/
theorem fillZeros_eq {limit : UInt32} (hlimit : limit.toNat ≤ 64) {ctx : Sha256CtxMem}
    (hle : ctx.curlen.toNat ≤ limit.toNat) :
    ∃ buf, Scratch.fillZeros limit ctx = some { ctx with buf := buf, curlen := limit } ∧
      buf.toList.take limit.toNat = ctx.buf.toList.take ctx.curlen.toNat ++
        List.replicate (limit.toNat - ctx.curlen.toNat) 0 := by
  induction hk : limit.toNat - ctx.curlen.toNat generalizing ctx with
  | zero =>
    have heq : ctx.curlen = limit := UInt32.toNat_inj.mp (by omega)
    unfold Scratch.fillZeros
    rw [dif_neg (by rw [heq]; exact UInt32.lt_irrefl _)]
    refine ⟨ctx.buf, ?_, ?_⟩
    · rw [← heq]
    · rw [heq, List.replicate_zero, List.append_nil]
  | succ k ih =>
    have hlt : ctx.curlen < limit := UInt32.lt_iff_toNat_lt.mpr (by omega)
    obtain ⟨buf, hstore, -⟩ := @Vector.store_eq 64 ctx.buf ctx.curlen.toNat [0] (by simp; omega)
    have htake := Vector.take_store hstore
    have hnext : (ctx.curlen + 1).toNat = ctx.curlen.toNat + 1 := by
      have := limit.toNat_lt
      rw [UInt32.toNat_add, UInt32.toNat_one]
      omega
    obtain ⟨buf', hfill, hzeros⟩ := @ih { ctx with buf := buf, curlen := ctx.curlen + 1 }
      (by simp only [hnext]; omega) (by simp only [hnext]; omega)
    refine ⟨buf', ?_, ?_⟩
    · unfold Scratch.fillZeros
      rw [dif_pos hlt, hstore]
      exact hfill
    · rw [hzeros]
      simp only [hnext]
      rw [List.length_singleton] at htake
      rw [htake, List.append_assoc, List.replicate_succ, List.singleton_append]

theorem length_be64Store (x : UInt64) : (be64Store x).length = 8 := rfl

/-- The last block. -/
theorem finalBlock_returns {ctx : Sha256CtxMem} (hle : ctx.curlen.toNat ≤ 56) {block : Bytes}
    (hblock : ctx.buf.toList.take ctx.curlen.toNat ++ List.replicate (56 - ctx.curlen.toNat) 0 ++
      be64Store ctx.length = block) {s : Sha256State} (hs : sha256Compress ctx.state block = s) :
    Scratch.Returns (n := n) [.gSha256Schedule] (Scratch.finalBlock ctx)
      (.zero, (Codec.bytes 32).decode ([s.a, s.b, s.c, s.d, s.e, s.f, s.g, s.h].flatMap be32Store)) := by
  obtain ⟨buf, hfill, hzeros⟩ := @fillZeros_eq 56 (by decide) ctx hle
  obtain ⟨buf', hstore, htoList⟩ := @Vector.store_eq 64 buf 56 (be64Store ctx.length)
    (by rw [length_be64Store])
  have h56 : (56 : UInt32).toNat = 56 := rfl
  rw [h56] at hzeros
  rw [hzeros, hblock, length_be64Store, List.drop_of_length_le (by simp), List.append_nil] at htoList
  have hcompress := sha256Compress_returns (n := n)
    { ctx with buf := buf', curlen := 56 } buf'
  simp only [htoList, hs] at hcompress
  unfold Scratch.finalBlock
  exact .checked hfill (.checked hstore (.bind hcompress (.pure _)))

/-- Padding in the buffer of a context, and nowhere behind its end. -/
theorem sha256RawCtxFinal_returns {ctx : Sha256CtxMem} (hopen : ctx.Open) :
    Scratch.Returns (n := n) [.gSha256Schedule] (Scratch.sha256RawCtxFinal ctx)
      (.zero, sha256RawCtxFinal ctx.view) := by
  have hlt : ctx.curlen.toNat < 64 := hopen
  have hbuf := Sha256CtxMem.length_view hopen
  have hlength : ctx.curlen.toUInt64 = UInt64.ofNat ctx.view.buf.length := by
    rw [hbuf]
    apply UInt64.toNat_inj.mp
    simp
  obtain ⟨buf, hstore, -⟩ := @Vector.store_eq 64 ctx.buf ctx.curlen.toNat [0x80] (by simp; omega)
  have htake : buf.toList.take (ctx.curlen.toNat + 1) = ctx.view.buf ++ [0x80] :=
    Vector.take_store hstore
  have hcurlen : (ctx.curlen + 1).toNat = ctx.curlen.toNat + 1 := by
    rw [UInt32.toNat_add, UInt32.toNat_one]
    omega
  have hlen : (ctx.view.buf ++ [0x80]).length = ctx.curlen.toNat + 1 := by
    rw [List.length_append, hbuf, List.length_singleton]
  have hwide : 56 < ctx.curlen + 1 ↔ 56 < (ctx.view.buf ++ [0x80]).length := by
    rw [UInt32.lt_iff_toNat_lt, hcurlen, hlen]
    rfl
  unfold Scratch.sha256RawCtxFinal sha256RawCtxFinal
  refine .checked hstore ?_
  simp only [hlength]
  generalize hfield : ctx.length + UInt64.ofNat ctx.view.buf.length * 8 = length
  have hfield' : ctx.view.length + UInt64.ofNat ctx.view.buf.length * 8 = length := hfield
  rw [hfield']
  by_cases hlong : 56 < ctx.curlen + 1
  · -- The length does not fit behind the one bit: two blocks.
    rw [if_pos hlong]
    simp only [if_pos (hwide.mp hlong)]
    obtain ⟨buf₁, hfill, hzeros⟩ := @fillZeros_eq 64 (by decide)
      { ctx with length := length, buf := buf, curlen := ctx.curlen + 1 } (by
        simp only [hcurlen]
        exact hlt)
    have h64 : (64 : UInt32).toNat = 64 := rfl
    simp only [hcurlen, h64] at hzeros
    rw [htake, List.take_of_length_le (by simp), ← hlen] at hzeros
    have hcompress := sha256Compress_returns (n := n)
      { ctx with length := length, buf := buf₁, curlen := 64 } buf₁
    rw [hzeros] at hcompress
    have hstate : ctx.view.state = ctx.state := rfl
    rw [hstate]
    simp only at hcompress
    generalize sha256Compress ctx.state (ctx.view.buf ++ [0x80] ++
      List.replicate (64 - (ctx.view.buf ++ [0x80]).length) 0) = state at hcompress ⊢
    refine .checked hfill (.bind hcompress ?_)
    exact @finalBlock_returns n ⟨state, length, 0, buf₁⟩ (Nat.zero_le 56) _ rfl _ rfl
  · rw [if_neg hlong]
    simp only [if_neg (mt hwide.mpr hlong)]
    refine @finalBlock_returns n ⟨ctx.state, length, ctx.curlen + 1, buf⟩ ?_ _ ?_ _ rfl
    · rw [hwide, hlen] at hlong
      simp only [hcurlen]
      exact Nat.le_of_not_lt hlong
    · simp only [hcurlen]
      rw [htake, ← hlen]

/-! ## One-shot functions -/

/-- The variables of a call are among those of its caller. -/
theorem sha256Raw_returns (msg : Bytes) :
    Scratch.Returns (n := n) [.gSha256Schedule, .gSha256OneshotCtx] (Scratch.sha256Raw msg)
      (sha256Raw msg) := by
  apply Statics.Returns.of_finishes
  unfold Scratch.sha256Raw
  apply Finishes.readAny
  intro ctx
  obtain ⟨ctx', hupdate, hopen, hview⟩ := sha256RawCtxUpdate_returns (n := n)
    (Sha256CtxMem.open_init ctx) msg
  have hfinal := sha256RawCtxFinal_returns (n := n) hopen
  rw [hview] at hfinal
  refine .write (by decide) (.call hupdate (by decide) rfl ?_)
  refine .write (by decide) (.call hfinal (by decide) rfl ?_)
  refine .write (by decide) (.wipe (by decide) (.pure ?_))
  intro x
  cases x <;> exact .inl rfl

/-! ## HMAC -/

section

variable {B : List Static} {k : (x : Static) → Option (x.Value n)} {β : Type} {f : Unit → Scratch n β}
  {b : β}

theorem finishes_xorPad {x : UInt8} {pad : Vector UInt8 64} (hk : k .gHmacPad = some pad)
    (hB : Static.gHmacPad ∈ B)
    (hf : Finishes (Static.zero n) B
      (Function.update k .gHmacPad (some (pad.map (· ^^^ x) : Vector UInt8 64))) (f ()) b) :
    Finishes (Static.zero n) B k (Scratch.xorPad x >>= f) b := by
  unfold Scratch.xorPad
  rw [bind_assoc]
  exact .read hk (.write hB hf)

theorem finishes_storePad {data : Bytes} {pad pad' : Vector UInt8 64} (hk : k .gHmacPad = some pad)
    (hstore : pad.store 0 data = some pad') (hB : Static.gHmacPad ∈ B)
    (hf : Finishes (Static.zero n) B (Function.update k .gHmacPad (some pad')) (f ()) b) :
    Finishes (Static.zero n) B k (Scratch.storePad data >>= f) b := by
  unfold Scratch.storePad
  rw [bind_assoc]
  refine .read hk ?_
  rw [bind_assoc]
  exact .checked hstore (.write hB hf)

/-- The pad that a short key leaves. -/
theorem store_pad {data : Bytes} (h : data.length ≤ 64) :
    ∃ pad, (Vector.replicate 64 0 : Vector UInt8 64).store 0 data = some pad ∧
      pad.toList = data ++ List.replicate (64 - data.length) 0 := by
  obtain ⟨pad, hstore, htoList⟩ := @Vector.store_eq 64 (.replicate 64 0) 0 data (by omega)
  refine ⟨pad, hstore, ?_⟩
  rw [htoList, Vector.toList_replicate, List.take_zero, List.nil_append, Nat.zero_add,
    List.drop_replicate]

/-- The normalised key, and the buffers of its hash wiped. -/
theorem finishes_normaliseKey (key : Bytes) : ∃ pad : Vector UInt8 64, pad.toList = hmacPad key ∧
    ∀ {β : Type} {f : Unit → Scratch n β} {b : β},
      Finishes (Static.zero n) [.gSha256Schedule, .gHmacPad, .gHmacKeyhashCtx]
        (Function.update unused .gHmacPad (some pad)) (f ()) b →
      Finishes (Static.zero n) [.gSha256Schedule, .gHmacPad, .gHmacKeyhashCtx] unused
        (Scratch.normaliseKey key >>= f) b := by
  unfold hmacPad
  by_cases hlong : 64 < key.length
  · obtain ⟨pad, hstore, htoList⟩ := @store_pad (sha256Raw key).toList (by simp)
    refine ⟨pad, ?_, fun {β f b} hf => ?_⟩
    · rw [if_pos hlong]
      exact htoList
    · unfold Scratch.normaliseKey
      rw [bind_assoc, if_pos hlong]
      refine .write (by decide) ?_
      rw [bind_assoc]
      apply Finishes.readAny
      intro ctx
      obtain ⟨ctx', hupdate, hopen, hview⟩ := sha256RawCtxUpdate_returns (n := n)
        (Sha256CtxMem.open_init ctx) key
      have hfinal := sha256RawCtxFinal_returns (n := n) hopen
      rw [hview] at hfinal
      simp only [bind_assoc]
      refine .write (by decide) (.call hupdate (by decide) rfl ?_)
      refine .write (by decide) (.call hfinal (by decide) rfl ?_)
      refine .write (by decide) (finishes_storePad rfl hstore (by decide) (.wipe (by decide) ?_))
      exact hf.of_eq fun x => by cases x <;> rfl
  · obtain ⟨pad, hstore, htoList⟩ := @store_pad key (Nat.le_of_not_lt hlong)
    refine ⟨pad, ?_, fun {β f b} hf => ?_⟩
    · rw [if_neg hlong]
      exact htoList
    · unfold Scratch.normaliseKey
      rw [bind_assoc, if_neg hlong]
      refine .write (by decide) ?_
      by_cases hpos : 0 < key.length
      · rw [if_pos hpos]
        refine finishes_storePad rfl hstore (by decide) ?_
        exact hf.of_eq fun x => by cases x <;> rfl
      · rw [if_neg hpos, pure_bind]
        have hnil : key.length = 0 := Nat.eq_zero_of_not_pos hpos
        have hpad : pad = .replicate 64 0 := by
          apply Vector.toList_inj.mp
          rw [htoList, List.eq_nil_of_length_eq_zero hnil]
          rfl
        rw [hpad] at hf
        exact hf

end

namespace HmacCtxMem

def view (ctx : HmacCtxMem) : HmacSha256RawCtx := ⟨ctx.inner.view, ctx.outer.view⟩

def Open (ctx : HmacCtxMem) : Prop := ctx.inner.Open ∧ ctx.outer.Open

end HmacCtxMem

theorem hmacSha256RawInit_returns (ctx : HmacCtxMem) (key : Bytes) :
    ∃ ctx', Scratch.Returns (n := n) [.gSha256Schedule, .gHmacPad, .gHmacKeyhashCtx]
        (Scratch.hmacSha256RawInit ctx key) ctx' ∧
      ctx'.Open ∧ ctx'.view = hmacSha256RawInit key := by
  obtain ⟨pad, hpad, hkey⟩ := finishes_normaliseKey (n := n) key
  obtain ⟨inner, hinner, hopen, hview⟩ := sha256RawCtxUpdate_returns (n := n)
    (Sha256CtxMem.open_init ctx.inner) (pad.map (· ^^^ 0x36)).toList
  obtain ⟨outer, houter, hopen', hview'⟩ := sha256RawCtxUpdate_returns (n := n)
    (Sha256CtxMem.open_init ctx.outer) ((pad.map (· ^^^ 0x36)).map (· ^^^ 0x6A)).toList
  refine ⟨⟨inner, outer⟩, .of_finishes ?_, ⟨hopen, hopen'⟩, ?_⟩
  · unfold Scratch.hmacSha256RawInit
    apply hkey
    refine finishes_xorPad rfl (by decide) (.read rfl (.call hinner (by decide) rfl ?_))
    refine finishes_xorPad rfl (by decide) (.read rfl (.call houter (by decide) rfl ?_))
    refine .wipe (by decide) (.pure ?_)
    intro x
    cases x <;> exact .inl rfl
  · unfold HmacCtxMem.view hmacSha256RawInit
    simp only [hview, hview', Vector.toList_map, hpad, Sha256CtxMem.view_init]

theorem hmacSha256RawUpdate_returns {ctx : HmacCtxMem} (hopen : ctx.Open) (data : Bytes) :
    ∃ ctx', Scratch.Returns (n := n) [.gSha256Schedule] (Scratch.hmacSha256RawUpdate ctx data) ctx' ∧
      ctx'.Open ∧ ctx'.view = hmacSha256RawUpdate ctx.view data := by
  obtain ⟨inner, hinner, hopen', hview⟩ := sha256RawCtxUpdate_returns (n := n) hopen.1 data
  refine ⟨{ ctx with inner := inner }, .bind hinner (.pure _), ⟨hopen', hopen.2⟩, ?_⟩
  unfold HmacCtxMem.view hmacSha256RawUpdate
  rw [hview]

theorem hmacSha256RawFinal_returns {ctx : HmacCtxMem} (hopen : ctx.Open) :
    Scratch.Returns (n := n) [.gSha256Schedule, .gHmacInnerHash] (Scratch.hmacSha256RawFinal ctx)
      (.zero, hmacSha256RawFinal ctx.view) := by
  have hinner := sha256RawCtxFinal_returns (n := n) hopen.1
  obtain ⟨outer, hupdate, hopen', hview⟩ := sha256RawCtxUpdate_returns (n := n) hopen.2
    (sha256RawCtxFinal ctx.inner.view).toList
  have houter := sha256RawCtxFinal_returns (n := n) hopen'
  rw [hview] at houter
  apply Statics.Returns.of_finishes
  unfold Scratch.hmacSha256RawFinal
  refine .call hinner (by decide) rfl (.write (by decide) (.read rfl ?_))
  refine .call hupdate (by decide) rfl (.call houter (by decide) rfl ?_)
  refine .wipe (by decide) (.pure ?_)
  intro x
  cases x <;> exact .inl rfl

/-- The buffers of an HMAC. -/
def hmacStatics : List Static :=
  [.gSha256Schedule, .gHmacPad, .gHmacKeyhashCtx, .gHmacInnerHash, .gHmacOneshotCtx]

theorem hmacSha256Raw_returns (key msg : Bytes) :
    Scratch.Returns (n := n) hmacStatics (Scratch.hmacSha256Raw key msg) (hmacSha256Raw key msg) := by
  apply Statics.Returns.of_finishes
  unfold Scratch.hmacSha256Raw
  apply Finishes.readAny
  intro ctx
  obtain ⟨ctx₁, hinit, hopen₁, hview₁⟩ := hmacSha256RawInit_returns (n := n) ctx key
  obtain ⟨ctx₂, hupdate, hopen₂, hview₂⟩ := hmacSha256RawUpdate_returns (n := n) hopen₁ msg
  have hfinal := hmacSha256RawFinal_returns (n := n) hopen₂
  rw [hview₂, hview₁] at hfinal
  refine .call hinit (by decide) rfl (.write (by decide) ?_)
  refine .call hupdate (by decide) rfl (.write (by decide) ?_)
  refine .call hfinal (by decide) rfl (.write (by decide) ?_)
  refine .wipe (by decide) (.pure ?_)
  intro x
  cases x <;> exact .inl rfl

/-! ## HKDF -/

theorem hkdfExtractSha256_returns (gcm : AesGcm) (salt : Option Bytes) (ikm : Bytes) :
    Scratch.Returns (n := n) hmacStatics (Scratch.hkdfExtractSha256 salt ikm)
      (hkdfExtractSha256 (.release gcm) salt ikm) := by
  unfold Scratch.hkdfExtractSha256 hkdfExtractSha256
  rw [Primitives.release_hmac]
  cases salt with
  | none => exact hmacSha256Raw_returns _ _
  | some salt =>
    cases salt with
    | nil => exact hmacSha256Raw_returns _ _
    | cons b salt => exact hmacSha256Raw_returns _ _

/-- The buffers of an expansion. -/
def expandStatics : List Static :=
  [.gSha256Schedule, .gHmacPad, .gHmacKeyhashCtx, .gHmacInnerHash, .gHkdfBlock, .gHkdfCtx]

/-- An expansion with its previous block and its context in use. -/
def hkdfUse (block : Digest) (ctx : HmacCtxMem) : (x : Static) → Option (x.Value n) :=
  Function.update (Function.update unused .gHkdfBlock (some block)) .gHkdfCtx (some ctx)

/-- `g_hkdf_ctx` takes more bytes, unless there are none. -/
theorem finishes_updateHkdfCtx {ctx : HmacCtxMem} (hopen : ctx.Open) (block : Digest) (c : Prop)
    [Decidable c] (data : Bytes) :
    ∃ ctx' : HmacCtxMem, ctx'.Open ∧
      ctx'.view = hmacSha256RawUpdate ctx.view (if c then data else []) ∧
      ∀ {β : Type} {f : Unit → Scratch n β} {b : β},
        Finishes (Static.zero n) expandStatics (hkdfUse block ctx') (f ()) b →
        Finishes (Static.zero n) expandStatics (hkdfUse block ctx)
          (Scratch.updateHkdfCtx c data >>= f) b := by
  unfold Scratch.updateHkdfCtx
  by_cases hc : c
  · obtain ⟨ctx', hupdate, hopen', hview⟩ := hmacSha256RawUpdate_returns (n := n) hopen data
    simp only [if_pos hc]
    refine ⟨ctx', hopen', hview, fun {β f b} hf => ?_⟩
    rw [bind_assoc]
    refine .read rfl ?_
    rw [bind_assoc]
    refine .call hupdate (by decide) rfl (.write (by decide) ?_)
    exact hf.of_eq fun x => by cases x <;> rfl
  · simp only [if_neg hc]
    refine ⟨ctx, hopen, ?_, fun {β f b} hf => ?_⟩
    · rw [hmacSha256RawUpdate, sha256RawCtxUpdate_nil]
    · rwa [pure_bind]

/-- What a block of an expansion hashes. -/
def blockInput (info : Bytes) (counter : UInt8) (block : Digest) : Bytes :=
  (if 1 < counter then block.toList else []) ++ info ++ [counter]

/-- One block of an expansion. -/
theorem finishes_hkdfBlock (prk info : Bytes) (counter : UInt8) (block : Digest) {β : Type}
    {f : Unit → Scratch n β} {b : β}
    (hf : Finishes (Static.zero n) expandStatics (Function.update unused .gHkdfBlock
      (some (hmacSha256Raw prk (blockInput info counter block)))) (f ()) b) :
    Finishes (Static.zero n) expandStatics (Function.update unused .gHkdfBlock (some block))
      (Scratch.hkdfBlock prk info counter >>= f) b := by
  unfold Scratch.hkdfBlock
  rw [bind_assoc]
  apply Finishes.readAny
  intro ctx
  obtain ⟨ctx₁, hinit, hopen₁, hview₁⟩ := hmacSha256RawInit_returns (n := n) ctx prk
  obtain ⟨ctx₂, hopen₂, hview₂, hrule₂⟩ := finishes_updateHkdfCtx (n := n) hopen₁ block (1 < counter)
    block.toList
  obtain ⟨ctx₃, hopen₃, hview₃, hrule₃⟩ := finishes_updateHkdfCtx (n := n) hopen₂ block
    (0 < info.length) info
  obtain ⟨ctx₄, hopen₄, hview₄, hrule₄⟩ := finishes_updateHkdfCtx (n := n) hopen₃ block True [counter]
  have hfinal := hmacSha256RawFinal_returns (n := n) hopen₄
  have hinfo : (if 0 < info.length then info else []) = info := by
    split
    · rfl
    · rename_i h
      exact (List.eq_nil_of_length_eq_zero (Nat.eq_zero_of_not_pos h)).symm
  have hpieces := foldl_hmacSha256RawUpdate
    [if 1 < counter then block.toList else [], info, [counter]] _ (hmacSha256RawInit_buf_lt prk)
  rw [List.foldl_cons, List.foldl_cons, List.foldl_cons, List.foldl_nil] at hpieces
  have hinput : [if 1 < counter then block.toList else [], info, [counter]].flatten =
      blockInput info counter block := by
    unfold blockInput
    simp
  have hmac : hmacSha256RawFinal (hmacSha256RawUpdate (hmacSha256RawInit prk)
      (blockInput info counter block)) = hmacSha256Raw prk (blockInput info counter block) := rfl
  rw [hview₄, hview₃, hview₂, hview₁, hinfo, if_pos trivial, hpieces, hinput, hmac] at hfinal
  generalize hmacSha256Raw prk (blockInput info counter block) = mac at hfinal hf
  simp only [bind_assoc]
  refine .call hinit (by decide) rfl (.write (by decide) (.read rfl ?_))
  refine hrule₂ (hrule₃ (hrule₄ (.read rfl (.call hfinal (by decide) rfl ?_))))
  refine .write (by decide) (.write (by decide) (.wipe (by decide) ?_))
  exact hf.of_eq fun x => by cases x <;> rfl

/-- The blocks of an expansion, written to the output one after the other. -/
theorem finishes_hkdfExpandLoop (gcm : AesGcm) (prk info : Bytes) (outLen : Nat) (out : Mem)
    (done : Nat) (counter : UInt8) (block : Digest) :
    ∃ block' : Digest, ∀ {β : Type} {f : Mem × UInt8 → Scratch n β} {b : β},
      Finishes (Static.zero n) expandStatics (Function.update unused .gHkdfBlock (some block'))
        (f (out.write done (hkdfExpandBlocks (.release gcm) prk info block counter (outLen - done)),
          counter + UInt8.ofNat ((outLen - done + 31) / 32))) b →
      Finishes (Static.zero n) expandStatics (Function.update unused .gHkdfBlock (some block))
        (Scratch.hkdfExpandLoop prk info out outLen done counter >>= f) b := by
  induction hlen : outLen - done using Nat.strong_induction_on
    generalizing out done counter block with
  | _ remaining ih =>
    by_cases hdone : done < outLen
    · generalize hnext : hmacSha256Raw prk (blockInput info (counter + 1) block) = next
      obtain ⟨block', hrest⟩ := ih (outLen - (done + min remaining 32)) (by omega)
        (out.write done (next.toList.take (min remaining 32))) (done + min remaining 32)
        (counter + 1) next rfl
      refine ⟨block', fun {β f b} hf => ?_⟩
      unfold Scratch.hkdfExpandLoop
      rw [if_pos hdone, bind_assoc]
      apply finishes_hkdfBlock
      rw [hnext, bind_assoc]
      refine .read rfl ?_
      simp only [hlen]
      apply hrest
      -- The bytes of this block and those of the rest are written one behind the other.
      have htake : next.toList.take remaining = next.toList.take (min remaining 32) := by
        rw [List.take_eq_take_iff, Vector.length_toList]
        omega
      have htakeLen : (next.toList.take (min remaining 32)).length = min remaining 32 := by
        simp
      have hblocks : hkdfExpandBlocks (.release gcm) prk info block counter remaining =
          next.toList.take (min remaining 32) ++
            hkdfExpandBlocks (.release gcm) prk info next (counter + 1) (remaining - 32) := by
        rw [hkdfExpandBlocks, if_neg (by omega), ← htake, ← hnext]
        rfl
      have hcount : counter + UInt8.ofNat ((remaining + 31) / 32) =
          counter + 1 + UInt8.ofNat ((remaining - 32 + 31) / 32) := by
        have hsucc : (remaining + 31) / 32 = (remaining - 32 + 31) / 32 + 1 := by omega
        rw [hsucc, UInt8.ofNat_add, UInt8.add_assoc, UInt8.add_comm 1]
        rfl
      have hrem : outLen - (done + min remaining 32) = remaining - 32 := by omega
      have hwrite := out.write_append done (next.toList.take (min remaining 32))
        (hkdfExpandBlocks (.release gcm) prk info next (counter + 1) (remaining - 32))
      rw [htakeLen] at hwrite
      rw [hrem, hwrite, ← hblocks, ← hcount]
      exact hf
    · refine ⟨block, fun {β f b} hf => ?_⟩
      have hzero : remaining = 0 := by omega
      subst hzero
      unfold Scratch.hkdfExpandLoop
      rw [if_neg hdone, pure_bind]
      simpa using hf

theorem hkdfExpandSha256_returns (gcm : AesGcm) (prk info : Bytes) (out : Mem) (outLen : Nat) :
    Scratch.Returns (n := n) expandStatics (Scratch.hkdfExpandSha256 prk info out outLen)
      (out.write 0 (hkdfExpandSha256 (.release gcm) prk info outLen),
        UInt8.ofNat ((outLen + 31) / 32)) := by
  obtain ⟨block, hloop⟩ := finishes_hkdfExpandLoop (n := n) gcm prk info outLen out 0 0
    (.replicate 32 0)
  apply Statics.Returns.of_finishes
  unfold Scratch.hkdfExpandSha256
  refine .write (by decide) (hloop (.wipe (by decide) ?_))
  rw [Nat.sub_zero, UInt8.zero_add]
  apply Finishes.pure
  intro x
  cases x <;> exact .inl rfl
