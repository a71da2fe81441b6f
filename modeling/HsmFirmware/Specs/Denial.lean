-- SUMMARY: Packets that are not acknowledged: what they leave on the link, and where the runs of two devices end with them.
import HsmFirmware.Library.Timeouts
import HsmFirmware.Library.Faults
import HsmFirmware.Specs.Dialogue

/-!
# Denials on the link

The sender of an error packet waits for no acknowledgement. The reader acknowledges the
packet all the same, and reads no body that is too long for it: bytes stay on the link. A
packet for a device that has returned stays there as a whole.
-/

/-! ## Bytes -/

/-- The acknowledgement. -/
def ackBytes : Bytes := msgHeader ackMsg 0

section

variable {α β : Type} {w v : World} {c d : Channel UInt8} {s : World × Link β}

/-- Bytes written for no reader arrive and wait. -/
theorem meets_puts (bs arrived : Bytes) (k : Unit → Link α) :
    Meets ⟨(w, writeAll bs >>= k), s, ⟨[], arrived⟩, d⟩ ⟨(w, k ()), s, ⟨[], arrived ++ bs⟩, d⟩ := by
  induction bs generalizing arrived with
  | nil =>
    rw [List.append_nil]
    exact .refl _
  | cons b bs ih =>
    have hput : Meets ⟨(w, writeAll (b :: bs) >>= k), s, ⟨[], arrived⟩, d⟩
        ⟨(w, writeAll bs >>= k), s, ⟨[b], arrived⟩, d⟩ := .one .left rfl
    have hrest := ih (arrived ++ [b])
    rw [List.append_assoc, List.singleton_append] at hrest
    exact (hput.trans (.one .toRight rfl)).trans hrest

/-- The same for the acknowledgements of the right device. -/
theorem meets_ackAlone (arrived : Bytes) (s : World × Link α) (k : MsgStatus → Link β) :
    Meets ⟨s, (v, writeAck >>= k), c, ⟨[], arrived⟩⟩ ⟨s, (v, k .ok), c, ⟨[], arrived ++ ackBytes⟩⟩ :=
  Net.Reaches.swap (n := ⟨(v, writeAck >>= k), s, ⟨[], arrived⟩, c⟩)
    (meets_puts ackBytes arrived fun _ => k .ok)

/-! ## Packets of one block -/

theorem toNat_block {n : Nat} (h : n ≤ 256) : (UInt16.ofNat n).toNat = n :=
  UInt16.toNat_ofNat_of_lt' (show n < 65536 by omega)

theorem writeBytes_block {buf : Bytes} (hbuf : buf.length ≤ 256) :
    writeBytes buf (UInt16.ofNat buf.length) false = (writeAll buf >>= fun _ => pure .ok) := by
  have hlen := toNat_block hbuf
  rw [writeBytes, writeBytesFrom]
  by_cases hpos : 0 < UInt16.ofNat buf.length
  · have hblock : writeBlock (UInt16.ofNat buf.length - 0) = UInt16.ofNat buf.length := by
      apply UInt16.toNat.inj
      rw [toNat_writeBlock, UInt16.sub_zero, hlen]
      exact Nat.min_eq_left hbuf
    rw [if_pos hpos]
    simp only [hblock, hlen, UInt16.toNat_zero, List.drop_zero, List.take_length, UInt16.zero_add]
    rw [writeBytesFrom, if_neg (UInt16.lt_irrefl _)]
    rfl
  · have hnil : buf = [] := by
      rw [UInt16.lt_iff_toNat_lt, hlen] at hpos
      exact List.eq_nil_of_length_eq_zero (Nat.eq_zero_of_not_pos hpos)
    subst hnil
    rfl

theorem writePacket_block {type : MsgType} (hack : needsAck type = false) {buf : Bytes}
    (hbuf : buf.length ≤ 256) :
    writePacket type buf (UInt16.ofNat buf.length) =
      (writeAll (msgHeader type (UInt16.ofNat buf.length)) >>= fun _ =>
        writeAll buf >>= fun _ => pure .ok) := by
  have hlen := toNat_block hbuf
  rw [writePacket, writeHeader, hack, bind_assoc]
  congr 1
  funext _
  rw [if_neg (by simp), pure_bind, if_neg (by simp)]
  by_cases hpos : 0 < UInt16.ofNat buf.length
  · rw [if_pos hpos]
    exact writeBytes_block hbuf
  · have hnil : buf = [] := by
      rw [UInt16.lt_iff_toNat_lt, hlen] at hpos
      exact List.eq_nil_of_length_eq_zero (Nat.eq_zero_of_not_pos hpos)
    subst hnil
    rfl

theorem readBody_block {n : Nat} (hpos : 0 < n) (hn : n ≤ 256) (p : Bytes) :
    readBody (UInt16.ofNat n) p =
      (readBlock n p >>= fun r =>
        if !r.1 then pure (.timeout, r.2) else writeAck >>= fun _ => pure (.ok, r.2)) := by
  have hlen := toNat_block hn
  have hne : ¬ UInt16.ofNat n = 0 := by
    intro h0
    rw [h0, UInt16.toNat_zero] at hlen
    omega
  have hblock : readBlockLen (UInt16.ofNat n) = UInt16.ofNat n := by
    apply UInt16.toNat.inj
    rw [toNat_readBlockLen, hlen]
    exact Nat.min_eq_left hn
  rw [readBody, if_neg hne, hblock, hlen, UInt16.sub_self]
  congr 1
  funext r
  congr 2
  funext _
  rw [readBody, if_pos rfl]

/-! ## Packets without acknowledgement -/

variable {type : MsgType} {buf : Bytes}

/-- The packet is read, and its acknowledgements stay behind. -/
theorem meets_unacked (hack : needsAck type = false) (hpos : 0 < buf.length)
    (hbuf : buf.length ≤ 256) {capacity : UInt16} (hcap : capacity = 0 ∨ buf.length ≤ capacity.toNat)
    (k : MsgStatus → Link α) (k' : Received → Link β) :
    Meets ⟨(w, writePacket type buf (UInt16.ofNat buf.length) >>= k),
        (v, readPacketTimeout capacity >>= k'), .empty, .empty⟩
      ⟨(w, k .ok), (v, k' (.packet type buf)), .empty, ⟨[], ackBytes ++ ackBytes⟩⟩ := by
  have hfits : ¬ (capacity ≠ 0 ∧ capacity < UInt16.ofNat buf.length) := by
    rintro ⟨h0, hlt⟩
    rw [UInt16.lt_iff_toNat_lt, toNat_block hbuf] at hlt
    exact (hcap.resolve_left h0).not_gt hlt
  rw [writePacket_block hack hbuf, readPacketTimeout]
  simp only [bind_assoc]
  refine (meets_headerBytes type _ capacity _ _).trans ((meets_ackAlone [] _ _).trans ?_)
  rw [readFrameBody, if_neg hfits, readBody_block hpos hbuf]
  simp only [bind_assoc]
  refine (meets_writeAll buf [] _ _).trans ?_
  rw [List.nil_append, if_neg (by simp), bind_assoc]
  exact meets_ackAlone ackBytes _ _

/-- A packet too long for the reader: the header is acknowledged, the body not read. -/
theorem meets_unacked_badLen (hack : needsAck type = false) (hbuf : buf.length ≤ 256)
    {capacity : UInt16} (hcap : capacity ≠ 0) (hlong : capacity.toNat < buf.length)
    (k : MsgStatus → Link α) (k' : Received → Link β) :
    Meets ⟨(w, writePacket type buf (UInt16.ofNat buf.length) >>= k),
        (v, readPacketTimeout capacity >>= k'), .empty, .empty⟩
      ⟨(w, k .ok), (v, k' (.failed .badLen)), ⟨[], buf⟩, ⟨[], ackBytes⟩⟩ := by
  have hlt : capacity < UInt16.ofNat buf.length := by
    rw [UInt16.lt_iff_toNat_lt, toNat_block hbuf]
    exact hlong
  rw [writePacket_block hack hbuf, readPacketTimeout]
  simp only [bind_assoc]
  refine (meets_headerBytes type _ capacity _ _).trans ((meets_ackAlone [] _ _).trans ?_)
  rw [readFrameBody, if_pos ⟨hcap, hlt⟩]
  exact meets_puts buf [] fun _ => k .ok

/-- A packet nobody reads. -/
theorem meets_unacked_alone (hack : needsAck type = false) (hbuf : buf.length ≤ 256)
    (k : MsgStatus → Link α) :
    Meets ⟨(w, writePacket type buf (UInt16.ofNat buf.length) >>= k), s, .empty, d⟩
      ⟨(w, k .ok), s, ⟨[], msgHeader type (UInt16.ofNat buf.length) ++ buf⟩, d⟩ := by
  rw [writePacket_block hack hbuf]
  simp only [bind_assoc]
  exact (meets_puts _ [] _).trans (meets_puts buf _ fun _ => k .ok)

end

/-! ## Ends -/

section

variable {α β : Type}

/-- All runs of two devices lead to one state, when a byte is waited for longer than anything
    else takes. -/
abbrev LinkSettles (n t : LinkNet α β) : Prop :=
  Net.Settles linkNext linkNext linkTimeout linkTimeout n t

/-- Some run of two devices leads from one state to the other. -/
abbrev LinkReaches (n t : LinkNet α β) : Prop :=
  Net.TimedReaches linkNext linkNext linkTimeout linkTimeout n t

/-- Both commands have returned. -/
def Returned (n : LinkNet α β) : Prop :=
  (∃ w a, n.left = (w, .ret a)) ∧ ∃ v b, n.right = (v, .ret b)

/-- Both commands return, and leave no unread byte in either direction. -/
structure InSync (n : LinkNet α β) : Prop where
  returns : ∀ u, LinkReaches n u → ∃ t, LinkReaches u t ∧ Returned t
  idle : ∀ t, LinkReaches n t → Returned t → t.toRight = .empty ∧ t.toLeft = .empty

theorem returned_final {w v : World} {a : α} {b : β} {x y : Bytes} :
    Final (Net.step linkNext linkNext)
      (⟨(w, .ret a), (v, .ret b), ⟨[], x⟩, ⟨[], y⟩⟩ : LinkNet α β) := by
  intro m
  cases m <;> rfl

theorem returned_stops {w v : World} {a : α} {b : β} {x y : Bytes} (u : LinkNet α β) :
    ¬ Net.TimedStep linkNext linkNext linkTimeout linkTimeout
      ⟨(w, .ret a), (v, .ret b), ⟨[], x⟩, ⟨[], y⟩⟩ u := by
  intro h
  rcases h.of_final returned_final with ⟨s, hs, -⟩ | ⟨s, hs, -⟩
  · cases hs
  · cases hs

theorem settles_returned (w v : World) (a : α) (b : β) (x y : Bytes) :
    LinkSettles ⟨(w, .ret a), (v, .ret b), ⟨[], x⟩, ⟨[], y⟩⟩
      ⟨(w, .ret a), (v, .ret b), ⟨[], x⟩, ⟨[], y⟩⟩ :=
  .ended (.refl _) returned_final returned_stops

/-- The right device waits for a packet of a device that has returned. -/
theorem settles_timeout {w v : World} {a : α} {capacity : UInt16} {k : Received → Link β}
    {t : LinkNet α β}
    (h : LinkSettles ⟨(w, .ret a), (v, k (.failed .timeout)), .empty, .empty⟩ t) :
    LinkSettles ⟨(w, .ret a), (v, readPacketTimeout capacity >>= k), .empty, .empty⟩ t := by
  have hfinal : Final (Net.step linkNext linkNext)
      (⟨(w, .ret a), (v, readPacketTimeout capacity >>= k), .empty, .empty⟩ : LinkNet α β) := by
    intro m
    cases m <;> rfl
  refine .timeout (.refl _) hfinal (.right hfinal rfl) (fun x hx => ?_) h
  rcases hx.of_final hfinal with ⟨s, hs, -⟩ | ⟨s, hs, rfl⟩
  · cases hs
  · cases hs
    rfl

/-- All runs end with both commands returned and nothing left on the link. -/
def LeavesNothing (n : LinkNet α β) : Prop :=
  ∃ w a v b, LinkSettles n ⟨(w, .ret a), (v, .ret b), .empty, .empty⟩

/-- All runs end with both commands returned and bytes left on the link. -/
def LeavesBytes (n : LinkNet α β) : Prop :=
  ∃ w a v b x y, LinkSettles n ⟨(w, .ret a), (v, .ret b), ⟨[], x⟩, ⟨[], y⟩⟩ ∧ (x ≠ [] ∨ y ≠ [])

theorem LeavesNothing.of_meets {n m : LinkNet α β} (h : Meets n m) (hm : LeavesNothing m) :
    LeavesNothing n := by
  obtain ⟨w, a, v, b, hs⟩ := hm
  exact ⟨w, a, v, b, .of_reaches h hs⟩

theorem LeavesBytes.of_meets {n m : LinkNet α β} (h : Meets n m) (hm : LeavesBytes m) :
    LeavesBytes n := by
  obtain ⟨w, a, v, b, x, y, hs, hne⟩ := hm
  exact ⟨w, a, v, b, x, y, .of_reaches h hs, hne⟩

/-- All runs end with both commands returned, and it depends on `P` whether bytes are left. -/
structure CleanIff (n : LinkNet α β) (P : Prop) : Prop where
  clean : P → LeavesNothing n
  stray : ¬ P → LeavesBytes n

namespace CleanIff

variable {n m : LinkNet α β} {P : Prop}

theorem of_meets (h : Meets n m) (hm : CleanIff m P) : CleanIff n P :=
  ⟨fun hP => .of_meets h (hm.clean hP), fun hP => .of_meets h (hm.stray hP)⟩

theorem of_clean (hP : P) (h : LeavesNothing n) : CleanIff n P := ⟨fun _ => h, fun hn => (hn hP).elim⟩

theorem of_stray (hP : ¬ P) (h : LeavesBytes n) : CleanIff n P := ⟨fun hp => (hP hp).elim, fun _ => h⟩

end CleanIff

/-- A device that has returned stays as it is. -/
theorem Returned.keeps_left {t u : LinkNet α β} (ht : Returned t) (h : LinkReaches t u) :
    u.left = t.left := by
  induction h using Relation.ReflTransGen.head_induction_on with
  | refl => rfl
  | @head t t₁ hstep _ ih =>
    obtain ⟨⟨w, a, hleft⟩, v, b, hright⟩ := ht
    cases hstep with
    | move m hm =>
      cases m with
      | left =>
        rw [Net.step, hleft] at hm
        cases hm
      | right =>
        rw [Net.step, hright] at hm
        cases hm
      | toRight =>
        obtain ⟨c, -, rfl⟩ := Net.step_toRight hm
        exact ih ⟨⟨w, a, hleft⟩, v, b, hright⟩
      | toLeft =>
        obtain ⟨c, -, rfl⟩ := Net.step_toLeft hm
        exact ih ⟨⟨w, a, hleft⟩, v, b, hright⟩
    | left _ hs =>
      rw [hleft] at hs
      cases hs
    | right _ hs =>
      rw [hright] at hs
      cases hs

/-- Bytes left when both commands have returned are left for good. -/
theorem Returned.keeps {t u : LinkNet α β} (ht : Returned t) (h : LinkReaches t u) :
    u.toRight.content = t.toRight.content ∧ u.toLeft.content = t.toLeft.content := by
  induction h using Relation.ReflTransGen.head_induction_on with
  | refl => exact ⟨rfl, rfl⟩
  | @head t t₁ hstep _ ih =>
    obtain ⟨⟨w, a, hleft⟩, v, b, hright⟩ := ht
    cases hstep with
    | move m hm =>
      cases m with
      | left =>
        rw [Net.step, hleft] at hm
        cases hm
      | right =>
        rw [Net.step, hright] at hm
        cases hm
      | toRight =>
        obtain ⟨c, hc, rfl⟩ := Net.step_toRight hm
        obtain ⟨hr, hl⟩ := ih ⟨⟨w, a, hleft⟩, v, b, hright⟩
        exact ⟨hr.trans (Channel.content_deliver hc), hl⟩
      | toLeft =>
        obtain ⟨c, hc, rfl⟩ := Net.step_toLeft hm
        obtain ⟨hr, hl⟩ := ih ⟨⟨w, a, hleft⟩, v, b, hright⟩
        exact ⟨hr, hl.trans (Channel.content_deliver hc)⟩
    | left _ hs =>
      rw [hleft] at hs
      cases hs
    | right _ hs =>
      rw [hright] at hs
      cases hs

theorem LeavesNothing.inSync {n : LinkNet α β} (h : LeavesNothing n) : InSync n := by
  obtain ⟨w, a, v, b, hs⟩ := h
  refine ⟨fun u hu => ⟨_, hs.completes hu, ⟨w, a, rfl⟩, v, b, rfl⟩, fun t ht hreturned => ?_⟩
  obtain ⟨hr, hl⟩ := hreturned.keeps (hs.completes ht)
  exact ⟨Channel.eq_empty_of_content hr.symm, Channel.eq_empty_of_content hl.symm⟩

theorem LeavesBytes.not_inSync {n : LinkNet α β} (h : LeavesBytes n) : ¬ InSync n := by
  obtain ⟨w, a, v, b, x, y, hs, hne⟩ := h
  intro hsync
  obtain ⟨hx, hy⟩ := hsync.idle _ hs.reaches ⟨⟨w, a, rfl⟩, v, b, rfl⟩
  rcases hne with hne | hne
  · exact hne (congrArg Channel.arrived hx)
  · exact hne (congrArg Channel.arrived hy)

theorem CleanIff.inSync_iff {n : LinkNet α β} {P : Prop} (h : CleanIff n P) : InSync n ↔ P :=
  ⟨fun hsync => by_contra fun hP => (h.stray hP).not_inSync hsync, fun hP => (h.clean hP).inSync⟩

end

/-! ## Handlers -/

section

variable {α β γ : Type} {ram : Ram} {fs : Faults} {w u : World} {es : List LinkEvent}

namespace Dev

/-- A handler whose flash commands meet these faults. -/
abbrev under (h : Dev α) (ram : Ram) (fs : Faults) : Prog Res (α × Ram) := hsm.under (h.run ram) fs

/-- It comes through these events to what is left of it. -/
abbrev Comes (h : Dev α) (ram : Ram) (fs : Faults) (w : World) (es : List LinkEvent)
    (q : Prog Res (α × Ram)) (u : World) : Prop :=
  TalksTo (h.under ram fs) w es q u

namespace Comes

variable {h : Dev α} {f : α → Dev β} {q : Prog Res (β × Ram)}

/-- A program without UART1 comes first, and what follows goes on from its end. -/
theorem prog_bind {p : Prog Res α} (hp : p.Performs Op.Local) (fs : Faults) (w : World) :
    ∃ a w' L fs', hsm.exec p fs.schedule w = .done a w' L (Faults.schedule fs') ∧
      ∀ {f : α → Prog Res β} {es : List LinkEvent} {q : Prog Res β} {u : World},
        TalksTo (hsm.under (f a) fs') w' es q u → TalksTo (hsm.under (p >>= f) fs) w es q u := by
  induction p generalizing fs w with
  | ret a => exact ⟨a, w, [], fs, rfl, fun h => h⟩
  | call o k ih =>
    cases ho : hsm.durable o with
    | false =>
      obtain ⟨a, w', L, fs', hexec, hnext⟩ := ih _ (hp.2 (hsm.act o w).1) fs (hsm.act o w).2
      refine ⟨a, w', L, fs', ?_, fun h => ?_⟩
      · rw [Machine.exec_call_volatile _ _ _ _ ho, hexec]
      · rw [Prog.call_bind, Machine.under_call_volatile ho]
        exact .device hp.1 (hnext h)
    | true =>
      match fs with
      | [] =>
        obtain ⟨a, w', L, fs', hexec, hnext⟩ := ih _ (hp.2 (hsm.act o w).1) [] (hsm.act o w).2
        have hexec' : hsm.exec (k (hsm.act o w).1) [] (hsm.act o w).2 = _ := hexec
        refine ⟨a, w', o :: L, fs', ?_, fun h => ?_⟩
        · show hsm.exec (.call o k) [] w = _
          rw [Machine.exec_call_nil _ _ _ ho, hexec']
          rfl
        · rw [Prog.call_bind, Machine.under_call_nil ho]
          exact .device hp.1 (hnext h)
      | none :: fs =>
        obtain ⟨a, w', L, fs', hexec, hnext⟩ := ih _ (hp.2 (hsm.act o w).1) fs (hsm.act o w).2
        refine ⟨a, w', o :: L, fs', ?_, fun h => ?_⟩
        · show hsm.exec (.call o k) (.done :: Faults.schedule fs) w = _
          rw [Machine.exec_call_done _ _ _ _ ho, hexec]
          rfl
        · rw [Prog.call_bind, Machine.under_call_done ho]
          exact .device hp.1 (hnext h)
      | some true :: fs =>
        obtain ⟨a, w', L, fs', hexec, hnext⟩ := ih _ (hp.2 (hsm.refuse o)) fs (hsm.act o w).2
        refine ⟨a, w', o :: L, fs', ?_, fun h => ?_⟩
        · show hsm.exec (.call o k) (.failed true :: Faults.schedule fs) w = _
          rw [Machine.exec_call_failed _ _ _ _ ho, if_pos rfl, if_pos rfl, hexec]
          rfl
        · rw [Prog.call_bind, Machine.under_call_failed ho]
          exact .device hp.1 (hnext h)
      | some false :: fs =>
        obtain ⟨a, w', L, fs', hexec, hnext⟩ := ih _ (hp.2 (hsm.refuse o)) fs w
        refine ⟨a, w', L, fs', ?_, fun h => ?_⟩
        · show hsm.exec (.call o k) (.failed false :: Faults.schedule fs) w = _
          rw [Machine.exec_call_failed _ _ _ _ ho, if_neg Bool.false_ne_true,
            if_neg Bool.false_ne_true, hexec]
          rfl
        · rw [Prog.call_bind, Machine.under_call_refused ho]
          exact hnext h

theorem bind_local {g : Ram → γ} (hh : h.Keeps Op.Local g) (ram : Ram) (fs : Faults) (w : World) :
    ∃ a ram' w' L fs', h.exec fs.schedule ram w = .done (a, ram') w' L (Faults.schedule fs') ∧
      ∀ {f : α → Dev β} {es : List LinkEvent} {q : Prog Res (β × Ram)} {u : World},
        (f a).Comes ram' fs' w' es q u → (h >>= f).Comes ram fs w es q u := by
  obtain ⟨r, w', L, fs', hexec, hnext⟩ := @prog_bind _ (β × Ram) _ (hh ram).performs fs w
  refine ⟨r.1, r.2, w', L, fs', hexec, fun {f es q u} hf => ?_⟩
  rw [Comes, under, StateT.run_bind]
  exact hnext hf

theorem get_bind {f : Ram → Dev β} (hf : (f ram).Comes ram fs w es q u) :
    (MonadState.get >>= f : Dev β).Comes ram fs w es q u := hf

theorem set_bind {ram' : Ram} {f : PUnit → Dev β} (hf : (f ⟨⟩).Comes ram' fs w es q u) :
    (MonadStateOf.set ram' >>= f : Dev β).Comes ram fs w es q u := hf

theorem mapped_bind {f : Mem → Dev β} (hf : (f w.flash).Comes ram fs w es q u) :
    (Dev.mapped >>= f).Comes ram fs w es q u :=
  TalksTo.device (o := .mapped) trivial hf

theorem send_bind {type : MsgType} {payload : Bytes} {f : MsgStatus → Dev β}
    (hack : needsAck type = true) (hlen : payload.length < 65536)
    (hf : (f .ok).Comes ram fs w es q u) :
    (Dev.send .transfer type payload >>= f).Comes ram fs w (.sent type payload :: es) q u :=
  TalksTo.sent hack hlen hf

theorem recv_bind {type : MsgType} {payload : Bytes} {capacity : Nat} {f : Received → Dev β}
    (hcap : capacity < 65536) (hfits : payload.length ≤ capacity)
    (hf : (f (.packet type payload)).Comes ram fs w es q u) :
    (Dev.recv .transfer capacity >>= f).Comes ram fs w (.got type payload :: es) q u :=
  TalksTo.got hcap hfits hf

/-- A packet that fits is taken. -/
theorem takes {k : Received → Dev β} {type : MsgType} {payload : Bytes} {capacity : Nat}
    (hcap : capacity < 65536) (hfits : payload.length ≤ capacity) :
    (Dev.recv .transfer capacity >>= k).Comes ram fs w [.got type payload]
      ((k (.packet type payload)).under ram fs) w :=
  recv_bind hcap hfits (.refl _ _)

end Comes

/-- A nonce is drawn first. -/
theorem Comes.generateNonce_bind {draw : Nat → UInt8} {f : Option Bytes → Dev β} {n : Nat}
    {q : Prog Res (β × Ram)} (hdraw : w.rng w.draws = some draw)
    (hf : (f (some ((List.range (n + 1)).map draw))).Comes ram fs w.drawn es q u) :
    (securityGenerateNonce (n + 1) >>= f).Comes ram fs w es q u := by
  rw [securityGenerateNonce, if_neg (Nat.succ_ne_zero n)]
  refine TalksTo.device (o := .nonce (n + 1)) trivial ?_
  show TalksTo (hsm.under (((f ((w.rng w.draws).map _)).run ram)) fs) w.drawn es q u
  rw [hdraw]
  exact hf

theorem Comes.generateNonce_none {f : Option Bytes → Dev β} {n : Nat} {q : Prog Res (β × Ram)}
    (hdraw : w.rng w.draws = none) (hf : (f none).Comes ram fs w.drawn es q u) :
    (securityGenerateNonce (n + 1) >>= f).Comes ram fs w es q u := by
  rw [securityGenerateNonce, if_neg (Nat.succ_ne_zero n)]
  refine TalksTo.device (o := .nonce (n + 1)) trivial ?_
  show TalksTo (hsm.under (((f ((w.rng w.draws).map _)).run ram)) fs) w.drawn es q u
  rw [hdraw]
  exact hf

/-- A handler without flash commands meets no faults. -/
theorem Says.comes {h : Dev α} {g : Ram → γ} {a : α} {ram' : Ram} {w' : World}
    (hh : h.Keeps Op.Listens g) (hs : h.Says ram w es a ram' w') (fs : Faults) :
    h.Comes ram fs w es (.ret (a, ram')) w' := by
  have hperforms : (h.run ram).Performs fun o => hsm.durable o = false := by
    refine (hh ram).performs.mono fun o ho => ?_
    cases o with
    | erase | program => cases ho
    | mapped | nonce | send | recv => rfl
  rw [Comes, under, Machine.under_of_performs hperforms]
  exact Talks.talksTo hs

/-- A handler without UART1 comes to its end. -/
theorem Keeps.comes {h : Dev α} {g : Ram → γ} (hh : h.Keeps Op.Local g) (ram : Ram) (fs : Faults)
    (w : World) : ∃ a w', h.Comes ram fs w [] (.ret a) w' := by
  obtain ⟨a, w', L, fs', -, hruns⟩ := Machine.runs_under hsm (h.run ram) fs w
  exact ⟨a, w', (Talks.of_runs (Machine.performs_under (hh ram).performs fs) hruns).talksTo⟩

end Dev

/-! ## Denials -/

/-- Two handlers that start on an idle link, with the faults of their flash commands. -/
def exchange (h : Dev α) (ram : Ram) (fs : Faults) (w : World) (h' : Dev β) (ram' : Ram)
    (fs' : Faults) (v : World) : LinkNet (α × Ram) (β × Ram) :=
  ⟨(w, onLink (h.under ram fs)), (v, onLink (h'.under ram' fs')), .empty, .empty⟩

variable {ram' ram₁ ram₁' : Ram} {fs' fs₁ fs₁' : Faults} {v w₁ v₁ : World}

theorem Dev.Comes.meets {h g : Dev α} {h' g' : Dev β}
    (hh : h.Comes ram fs w es (g.under ram₁ fs₁) w₁)
    (hh' : h'.Comes ram' fs' v (es.map LinkEvent.dual) (g'.under ram₁' fs₁') v₁) :
    Meets (exchange h ram fs w h' ram' fs' v) (exchange g ram₁ fs₁ w₁ g' ram₁' fs₁' v₁) :=
  TalksTo.meets hh hh'

/-- An error packet to the peer, and nothing else on UART1. -/
def Dev.Denies (h : Dev α) : Prop :=
  ∃ (payload : Bytes) (e : MsgStatus → Dev α), h = (Dev.send .transfer errorMsg payload >>= e) ∧
    0 < payload.length ∧ payload.length ≤ 256 ∧ ∀ rc, (e rc).KeepsPinLocal

theorem deny_denies {msg : String} (hpos : 0 < (ascii msg).length) (hlen : (ascii msg).length ≤ 256) :
    (deny msg).Denies :=
  ⟨ascii msg, _, rfl, hpos, hlen, fun _ => .pure _⟩

theorem denyAndReject_denies {msg : String} (hostMsg : String) (hpos : 0 < (ascii msg).length)
    (hlen : (ascii msg).length ≤ 256) : (denyAndReject msg hostMsg).Denies :=
  ⟨ascii msg, _, rfl, hpos, hlen, fun _ => reject_keeps _⟩

/-- A handler that does nothing more on UART1 when it gets no packet or an error packet. -/
structure GivesUp (k : Received → Dev α) : Prop where
  failed : ∀ status, (k (.failed status)).KeepsPinLocal
  error : ∀ payload, (k (.packet errorMsg payload)).KeepsPinLocal

section

variable {k : Received → Dev α} {h : Dev α} {h' : Dev β} {capacity : Nat}

/-- The left handler has nothing more to do on UART1. -/
theorem Dev.Keeps.meets_left (hh : h.KeepsPinLocal) (ram : Ram) (fs : Faults) (w : World) :
    ∃ w' a, ∀ (s : World × Link (β × Ram)) (c d : Channel UInt8),
      Meets ⟨(w, onLink (h.under ram fs)), s, c, d⟩ ⟨(w', .ret a), s, c, d⟩ := by
  obtain ⟨a, w', hcomes⟩ := hh.comes ram fs w
  exact ⟨w', a, fun s c d => Net.Reaches.swap (n := ⟨s, (w, onLink (h.under ram fs)), d, c⟩)
    hcomes.meets_local⟩

theorem Dev.Keeps.meets_right (hh : h'.KeepsPinLocal) (ram : Ram) (fs : Faults) (v : World) :
    ∃ v' b, ∀ (s : World × Link (α × Ram)) (c d : Channel UInt8),
      Meets ⟨s, (v, onLink (h'.under ram fs)), c, d⟩ ⟨s, (v', .ret b), c, d⟩ := by
  obtain ⟨b, v', hcomes⟩ := hh.comes ram fs v
  exact ⟨v', b, fun s c d => hcomes.meets_local⟩

/-- Nobody asks: the left device returns, and the right one waits in vain. -/
theorem leavesNothing_unasked {k : Received → Dev β} (hh : h.KeepsPinLocal)
    (hk : (k (.failed .timeout)).KeepsPinLocal) :
    LeavesNothing (exchange h ram fs w (Dev.recv .transfer capacity >>= k) ram' fs' v) := by
  obtain ⟨w', a, hleft⟩ := hh.meets_left (β := β) ram fs w
  obtain ⟨v', b, hright⟩ := hk.meets_right (α := α) ram' fs' v
  refine .of_meets (hleft _ _ _) ⟨w', a, v', b, ?_⟩
  apply settles_timeout
  exact .of_reaches (hright _ _ _) (settles_returned w' v' a b [] [])

/-- The left device returns where the right one waits for it, and is sent a denial. -/
theorem leavesBytes_abandoned {k : Received → Dev β} (hh : h.KeepsPinLocal)
    (hk : (k (.failed .timeout)).Denies) :
    LeavesBytes (exchange h ram fs w (Dev.recv .transfer capacity >>= k) ram' fs' v) := by
  obtain ⟨payload, e, hsend, hpos, hlen, he⟩ := hk
  obtain ⟨w', a, hleft⟩ := hh.meets_left (β := β) ram fs w
  obtain ⟨v', b, hright⟩ := (he .ok).meets_right (α := α) ram' fs' v
  refine .of_meets (hleft _ _ _) ⟨w', a, v', b, [], msgHeader errorMsg (UInt16.ofNat payload.length) ++ payload, ?_,
    .inr (List.cons_ne_nil _ _)⟩
  apply settles_timeout
  have hdeny : Meets ⟨(w', .ret a), (v, onLink ((k (.failed .timeout)).under ram' fs')), .empty, .empty⟩
      ⟨(w', .ret a), (v, onLink ((e .ok).under ram' fs')), .empty,
        ⟨[], msgHeader errorMsg (UInt16.ofNat payload.length) ++ payload⟩⟩ := by
    rw [hsend]
    exact Net.Reaches.swap
      (n := ⟨(v, writePacket errorMsg payload (UInt16.ofNat payload.length) >>= fun rc =>
        onLink ((e rc).under ram' fs')), (w', .ret a), .empty, .empty⟩)
      (meets_unacked_alone rfl hlen _)
  exact .of_reaches (hdeny.trans (hright _ _ _)) (settles_returned _ _ _ _ _ _)

/-- Both devices have nothing more to do on UART1. -/
theorem leavesNothing_done (hh : h.KeepsPinLocal) (hh' : h'.KeepsPinLocal) :
    LeavesNothing (exchange h ram fs w h' ram' fs' v) := by
  obtain ⟨w', a, hleft⟩ := hh.meets_left (β := β) ram fs w
  obtain ⟨v', b, hright⟩ := hh'.meets_right (α := α) ram' fs' v
  exact .of_meets ((hleft _ _ _).trans (hright _ _ _)) ⟨w', a, v', b, settles_returned w' v' a b [] []⟩

section

variable {payload : Bytes} {e : MsgStatus → Dev β}

/-- The left device waits for a packet and takes a denial. -/
theorem meets_denied (hpos : 0 < payload.length) (hlen : payload.length ≤ 256)
    (hcap : capacity < 65536) (hfits : payload.length ≤ capacity) :
    Meets (exchange (Dev.recv .transfer capacity >>= k) ram fs w
        (Dev.send .transfer errorMsg payload >>= e) ram' fs' v)
      ⟨(w, onLink ((k (.packet errorMsg payload)).under ram fs)),
        (v, onLink ((e .ok).under ram' fs')), ⟨[], ackBytes ++ ackBytes⟩, .empty⟩ := by
  have hcapacity : (UInt16.ofNat capacity).toNat = capacity := UInt16.toNat_ofNat_of_lt' hcap
  exact Net.Reaches.swap (@meets_unacked _ _ v w errorMsg payload rfl hpos hlen
    (UInt16.ofNat capacity) (.inr (by rwa [hcapacity]))
    (fun rc => onLink ((e rc).under ram' fs')) fun r => onLink ((k r).under ram fs))

/-- The denial is too long for its buffer. -/
theorem meets_denied_badLen (hlen : payload.length ≤ 256) (h0 : capacity ≠ 0)
    (hcap : capacity < 65536) (hlong : capacity < payload.length) :
    Meets (exchange (Dev.recv .transfer capacity >>= k) ram fs w
        (Dev.send .transfer errorMsg payload >>= e) ram' fs' v)
      ⟨(w, onLink ((k (.failed .badLen)).under ram fs)),
        (v, onLink ((e .ok).under ram' fs')), ⟨[], ackBytes⟩, ⟨[], payload⟩⟩ := by
  have hcapacity : (UInt16.ofNat capacity).toNat = capacity := UInt16.toNat_ofNat_of_lt' hcap
  have hne : UInt16.ofNat capacity ≠ 0 := by
    intro hzero
    rw [hzero] at hcapacity
    exact h0 hcapacity.symm
  exact Net.Reaches.swap (@meets_unacked_badLen _ _ v w errorMsg payload rfl hlen _ hne
    (by rwa [hcapacity]) (fun rc => onLink ((e rc).under ram' fs'))
    fun r => onLink ((k r).under ram fs))

end

/-- The left device waits for a packet and is sent a denial. -/
theorem leavesBytes_denied (hk : GivesUp k) (h0 : capacity ≠ 0) (hcap : capacity < 65536)
    (hh : h'.Denies) :
    LeavesBytes (exchange (Dev.recv .transfer capacity >>= k) ram fs w h' ram' fs' v) := by
  obtain ⟨payload, e, rfl, hpos, hlen, he⟩ := hh
  obtain ⟨v', b, hright⟩ := (he .ok).meets_right (α := α) ram' fs' v
  by_cases hfits : payload.length ≤ capacity
  · obtain ⟨w', a, hleft⟩ := (hk.error payload).meets_left (β := β) ram fs w
    refine ⟨w', a, v', b, ackBytes ++ ackBytes, [], ?_, .inl (List.cons_ne_nil _ _)⟩
    apply Net.Settles.of_reaches ((meets_denied hpos hlen hcap hfits).trans (hleft _ _ _))
    exact .of_reaches (hright _ _ _) (settles_returned _ _ _ _ _ _)
  · obtain ⟨w', a, hleft⟩ := (hk.failed .badLen).meets_left (β := β) ram fs w
    refine ⟨w', a, v', b, ackBytes, payload, ?_, .inl (List.cons_ne_nil _ _)⟩
    apply Net.Settles.of_reaches ((meets_denied_badLen hlen h0 hcap (Nat.lt_of_not_le hfits)).trans (hleft _ _ _))
    exact .of_reaches (hright _ _ _) (settles_returned _ _ _ _ _ _)

end

end
