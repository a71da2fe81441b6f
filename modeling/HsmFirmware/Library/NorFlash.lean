-- SUMMARY: NOR flash memory: erasing pages, programming bytes one way, reading back, and pages rewritten in part.
import Mathlib.Tactic.Common
import Mathlib.Data.List.GetD
import Mathlib.Data.List.Range
import HsmFirmware.Library.Codec

/-!
# NOR flash

A memory gives a byte to every address. Erasing sets a whole page to `0xFF`,
programming can only clear bits, so that data is written by programming erased
cells.
-/

/-- A byte-addressed memory. -/
abbrev Mem := Nat → UInt8

namespace Mem

/-- The `n` bytes at `a`. -/
def read (m : Mem) (a n : Nat) : Bytes := (List.range n).map fun i => m (a + i)

/-- Store bytes at `a` (RAM). -/
def write (m : Mem) (a : Nat) (bs : Bytes) : Mem :=
  fun x => if a ≤ x ∧ x < a + bs.length then bs.getD (x - a) 0 else m x

/-- Erase the page of `page` bytes that holds address `a`. -/
def erase (page a : Nat) (m : Mem) : Mem :=
  fun x => if x / page = a / page then 0xFF else m x

/-- Program bytes at `a`: each byte is and-ed into its cell. Past the end of `bs`
    nothing is cleared. -/
def program (a : Nat) (bs : Bytes) (m : Mem) : Mem :=
  fun x => if a ≤ x then m x &&& bs.getD (x - a) 0xFF else m x

/-- Every cell in `[lo, hi)` reads as erased. -/
def Erased (m : Mem) (lo hi : Nat) : Prop := ∀ x, lo ≤ x → x < hi → m x = 0xFF

/-- Two memories agree on `[lo, hi)`. -/
def Agree (m m' : Mem) (lo hi : Nat) : Prop := ∀ x, lo ≤ x → x < hi → m x = m' x

/-! ## Reading -/

@[simp] theorem length_read (m : Mem) (a n : Nat) : (m.read a n).length = n := by simp [read]

@[simp] theorem read_zero (m : Mem) (a : Nat) : m.read a 0 = [] := rfl

theorem getElem_read (m : Mem) (a n i : Nat) (h : i < (m.read a n).length) :
    (m.read a n)[i] = m (a + i) := by
  simp [read]

theorem read_add (m : Mem) (a n k : Nat) :
    m.read a (n + k) = m.read a n ++ m.read (a + n) k := by
  simp [read, List.range_add, Nat.add_assoc]

theorem Agree.read {m m' : Mem} {lo hi a n : Nat} (h : Agree m m' lo hi)
    (hlo : lo ≤ a) (hhi : a + n ≤ hi) : m.read a n = m'.read a n := by
  refine List.map_congr_left fun i hi => ?_
  have hin : i < n := List.mem_range.mp hi
  exact h _ (by omega) (by omega)

theorem take_read (m : Mem) (a n k : Nat) (h : k ≤ n) : (m.read a n).take k = m.read a k := by
  obtain ⟨j, rfl⟩ := Nat.exists_eq_add_of_le h
  rw [read_add, List.take_left' (by simp)]

theorem drop_read (m : Mem) (a n k : Nat) (h : k ≤ n) :
    (m.read a n).drop k = m.read (a + k) (n - k) := by
  obtain ⟨j, rfl⟩ := Nat.exists_eq_add_of_le h
  rw [read_add, List.drop_left' (by simp), Nat.add_sub_cancel_left]

/-! ## Frames -/

theorem Agree.refl (m : Mem) (lo hi : Nat) : Agree m m lo hi := fun _ _ _ => rfl

theorem Agree.symm {m m' : Mem} {lo hi : Nat} (h : Agree m m' lo hi) : Agree m' m lo hi :=
  fun x h₁ h₂ => (h x h₁ h₂).symm

theorem Agree.trans {m m' m'' : Mem} {lo hi : Nat} (h : Agree m m' lo hi)
    (h' : Agree m' m'' lo hi) : Agree m m'' lo hi :=
  fun x h₁ h₂ => (h x h₁ h₂).trans (h' x h₁ h₂)

theorem Agree.mono {m m' : Mem} {lo hi lo' hi' : Nat} (h : Agree m m' lo hi)
    (hlo : lo ≤ lo') (hhi : hi' ≤ hi) : Agree m m' lo' hi' :=
  fun x h₁ h₂ => h x (by omega) (by omega)

/-- Erasing a page leaves every range outside it alone. -/
theorem agree_erase {page a lo hi : Nat} {m : Mem} (hp : 0 < page)
    (h : hi ≤ a / page * page ∨ (a / page + 1) * page ≤ lo) : Agree (erase page a m) m lo hi := by
  intro x hlo hhi
  have hne : x / page ≠ a / page := by
    rintro heq
    have h₁ : x / page * page ≤ x := Nat.div_mul_le_self x page
    have h₂ : x < (x / page + 1) * page := by
      rw [Nat.add_mul, Nat.one_mul, Nat.mul_comm]
      exact Nat.lt_mul_div_succ x hp |>.trans_eq (by rw [Nat.mul_add, Nat.mul_one])
    rw [heq] at h₁ h₂
    omega
  simp [erase, hne]

/-- Programming `bs` at `a` leaves every range outside `[a, a + bs.length)` alone. -/
theorem agree_program {a lo hi : Nat} {bs : Bytes} {m : Mem}
    (h : hi ≤ a ∨ a + bs.length ≤ lo) : Agree (program a bs m) m lo hi := by
  intro x hlo hhi
  unfold program
  split
  · rw [List.getD_eq_default _ _ (by omega)]
    exact UInt8.and_neg_one
  · rfl

/-! ## Erasing and programming -/

theorem erased_erase {page k : Nat} (m : Mem) (hp : 0 < page) :
    Erased (erase page (k * page) m) (k * page) ((k + 1) * page) := by
  intro x hlo hhi
  have hx : x / page = k := by
    rw [Nat.div_eq_iff hp]
    rw [Nat.add_mul, Nat.one_mul] at hhi
    omega
  simp [erase, hx, Nat.mul_div_cancel _ hp]

theorem Erased.of_agree {m m' : Mem} {lo hi : Nat} (h : Erased m lo hi) (ha : Agree m' m lo hi) :
    Erased m' lo hi :=
  fun x h₁ h₂ => (ha x h₁ h₂).trans (h x h₁ h₂)

theorem Erased.mono {m : Mem} {lo hi lo' hi' : Nat} (h : Erased m lo hi)
    (hlo : lo ≤ lo') (hhi : hi' ≤ hi) : Erased m lo' hi' :=
  fun x h₁ h₂ => h x (by omega) (by omega)

/-- A page that is erased stays erased when some page is erased. -/
theorem Erased.erase {m : Mem} {lo hi : Nat} (h : Erased m lo hi) (page a : Nat) :
    Erased (m.erase page a) lo hi := by
  intro x h₁ h₂
  unfold Mem.erase
  split
  · rfl
  · exact h x h₁ h₂

theorem program_nil (a : Nat) (m : Mem) : program a [] m = m := by
  funext x
  unfold program
  split
  · exact UInt8.and_neg_one
  · rfl

/-- Consecutive pieces program the whole. -/
theorem program_append (a : Nat) (bs cs : Bytes) (m : Mem) :
    program (a + bs.length) cs (program a bs m) = program a (bs ++ cs) m := by
  funext x
  unfold program
  by_cases h₁ : a ≤ x
  · by_cases h₂ : a + bs.length ≤ x
    · rw [if_pos h₂, if_pos h₁, if_pos h₁, List.getD_eq_default _ _ (by omega),
        List.getD_append_right _ _ _ _ (by omega), Nat.sub_sub]
      exact congrArg (· &&& _) UInt8.and_neg_one
    · rw [if_neg h₂, if_pos h₁, if_pos h₁, List.getD_append _ _ _ _ (by omega)]
  · rw [if_neg h₁, if_neg (by omega), if_neg h₁]

/-- Padding with `0xFF` clears nothing more. -/
theorem program_append_ff (a n : Nat) (bs : Bytes) (m : Mem) :
    program a (bs ++ List.replicate n 0xFF) m = program a bs m := by
  funext x
  unfold program
  split
  · congr 1
    by_cases h : x - a < bs.length
    · rw [List.getD_append _ _ _ _ h]
    · rw [List.getD_append_right _ _ _ _ (by omega), List.getD_eq_default bs _ (by omega)]
      by_cases h' : x - a - bs.length < n
      · simp [List.getD, h']
      · rw [List.getD_eq_default _ _ (by simpa using h')]
  · rfl

/-- Erased cells read back what is programmed into them. -/
theorem read_program_erased {a i n : Nat} {bs : Bytes} {m : Mem}
    (h : Erased m (a + i) (a + i + n)) (hn : i + n ≤ bs.length) :
    (program a bs m).read (a + i) n = (bs.drop i).take n := by
  apply List.ext_getElem
  · simp
    omega
  · intro j h₁ h₂
    have hj : j < n := by simpa using h₁
    have hff : m (a + i + j) = 0xFF := h _ (by omega) (by omega)
    have hidx : a + i + j - a = i + j := by omega
    rw [getElem_read, program, if_pos (by omega), hff, hidx,
      List.getD_eq_getElem _ _ (by omega), List.getElem_take, List.getElem_drop]
    exact UInt8.neg_one_and

theorem read_program_erased' {a : Nat} {bs : Bytes} {m : Mem}
    (h : Erased m a (a + bs.length)) : (program a bs m).read a bs.length = bs := by
  have hall : Erased m (a + 0) (a + 0 + bs.length) := by simpa using h
  have hread := read_program_erased hall (Nat.zero_add bs.length).le
  simpa using hread

/-- Cells that were erased stay so outside what is programmed. -/
theorem Erased.program {m : Mem} {lo hi a : Nat} {bs : Bytes} (h : Erased m lo hi)
    (hd : hi ≤ a ∨ a + bs.length ≤ lo) : Erased (m.program a bs) lo hi :=
  h.of_agree (agree_program hd)

/-- Erased cells read as a run of `0xFF`. -/
theorem Erased.read {m : Mem} {lo hi a n : Nat} (h : Erased m lo hi) (hlo : lo ≤ a)
    (hhi : a + n ≤ hi) : m.read a n = List.replicate n 0xFF := by
  apply List.ext_getElem
  · simp
  · intro i h₁ h₂
    have hi : i < n := by simpa using h₁
    rw [getElem_read, List.getElem_replicate]
    exact h _ (by omega) (by omega)

/-! ## Many areas -/

/-- Program the areas of a list, first to last. -/
def programAll : List (Nat × Bytes) → Mem → Mem
  | [], m => m
  | (a, bs) :: areas, m => programAll areas (m.program a bs)

/-- Two areas have no byte in common. -/
def Apart (p q : Nat × Bytes) : Prop := p.1 + p.2.length ≤ q.1 ∨ q.1 + q.2.length ≤ p.1

theorem agree_programAll {areas : List (Nat × Bytes)} {lo hi : Nat}
    (h : ∀ p ∈ areas, hi ≤ p.1 ∨ p.1 + p.2.length ≤ lo) (m : Mem) :
    Agree (programAll areas m) m lo hi := by
  induction areas generalizing m with
  | nil => exact Agree.refl m lo hi
  | cons p areas ih =>
    exact (ih (fun q hq => h q (List.mem_cons_of_mem p hq)) _).trans
      (agree_program (h p List.mem_cons_self))

/-- Areas programmed into erased cells, apart from each other, all read back. -/
theorem read_programAll {areas : List (Nat × Bytes)} {m : Mem} {lo hi : Nat}
    (he : Erased m lo hi) (hin : ∀ p ∈ areas, lo ≤ p.1 ∧ p.1 + p.2.length ≤ hi)
    (hd : areas.Pairwise Apart) {p : Nat × Bytes} (hp : p ∈ areas) :
    (programAll areas m).read p.1 p.2.length = p.2 := by
  -- The head reads back at once and is not touched again; the rest sees the
  -- head as one more area apart from its own.
  suffices h : ∀ p ∈ areas, Erased m p.1 (p.1 + p.2.length) from by
    clear he hin
    induction areas generalizing m with
    | nil => cases hp
    | cons q areas ih =>
      obtain ⟨hq, hd⟩ := List.pairwise_cons.mp hd
      cases List.mem_cons.mp hp with
      | inl heq =>
        subst heq
        have hagree : Agree (programAll areas (m.program p.1 p.2)) (m.program p.1 p.2) p.1
            (p.1 + p.2.length) := agree_programAll (fun r hr => hq r hr) _
        exact (hagree.read (Nat.le_refl _) (Nat.le_refl _)).trans
          (read_program_erased' (h p List.mem_cons_self))
      | inr hmem =>
        refine ih hd hmem fun r hr => (h r (List.mem_cons_of_mem q hr)).program ?_
        exact (hq r hr).symm
  exact fun p hp => he.mono (hin p hp).1 (hin p hp).2

/-! ## RAM stores -/

theorem read_write (m : Mem) (a : Nat) (bs : Bytes) : (m.write a bs).read a bs.length = bs := by
  apply List.ext_getElem
  · simp
  · intro i h₁ h₂
    rw [getElem_read, write, if_pos (by omega), Nat.add_sub_cancel_left,
      List.getD_eq_getElem _ _ h₂]

/-- Consecutive stores store the whole. -/
theorem write_append (m : Mem) (a : Nat) (bs cs : Bytes) :
    (m.write a bs).write (a + bs.length) cs = m.write a (bs ++ cs) := by
  funext x
  simp only [write, List.length_append]
  by_cases h₁ : a + bs.length ≤ x ∧ x < a + bs.length + cs.length
  · rw [if_pos h₁, if_pos (by omega), List.getD_append_right _ _ _ _ (by omega), Nat.sub_sub]
  · rw [if_neg h₁]
    by_cases h₂ : a ≤ x ∧ x < a + bs.length
    · rw [if_pos h₂, if_pos (by omega), List.getD_append _ _ _ _ (by omega)]
    · rw [if_neg h₂, if_neg (by omega)]

@[simp] theorem write_nil (m : Mem) (a : Nat) : m.write a [] = m := by
  funext x
  rw [write, if_neg (by simp)]

/-- A copy of a piece of memory agrees with it there. -/
theorem agree_write_read (m m' : Mem) (a n : Nat) :
    Agree (m.write a (m'.read a n)) m' a (a + n) := by
  intro x hlo hhi
  rw [write, if_pos ⟨hlo, by rwa [length_read]⟩, List.getD_eq_getElem _ _ (by rw [length_read]; omega),
    getElem_read, Nat.add_sub_cancel' hlo]

theorem agree_write {m : Mem} {a lo hi : Nat} {bs : Bytes}
    (h : hi ≤ a ∨ a + bs.length ≤ lo) : Agree (m.write a bs) m lo hi := by
  intro x hlo hhi
  rw [write, if_neg (by omega)]

end Mem

/-! ## Addresses that wrap -/

/-- Memory under 32-bit addresses. -/
abbrev Mem32 := UInt32 → UInt8

namespace Mem32

/-- Program bytes from an address on. Behind the last address comes the first. -/
def program (a : UInt32) (bs : Bytes) (m : Mem32) : Mem32 :=
  fun x => m x &&& bs.getD (x - a).toNat 0xFF

theorem program_nil (a : UInt32) (m : Mem32) : program a [] m = m := by
  funext x
  exact UInt8.and_neg_one

theorem toNat_sub_add (x a : UInt32) {n : Nat} (hn : n < UInt32.size) :
    (x - (a + .ofNat n)).toNat =
      if n ≤ (x - a).toNat then (x - a).toNat - n else UInt32.size + (x - a).toNat - n := by
  have hto : (UInt32.ofNat n).toNat = n := UInt32.toNat_ofNat_of_lt' hn
  have hx := x.toNat_lt
  have ha := a.toNat_lt
  unfold UInt32.size at hn ⊢
  rw [UInt32.toNat_sub, UInt32.toNat_sub, UInt32.toNat_add, hto]
  split <;> omega

/-- Consecutive pieces program the whole. -/
theorem program_append (a : UInt32) {bs cs : Bytes} (h : bs.length + cs.length ≤ UInt32.size)
    (m : Mem32) :
    program (a + .ofNat bs.length) cs (program a bs m) = program a (bs ++ cs) m := by
  funext x
  by_cases hcs : cs = []
  · subst hcs
    rw [program_nil, List.append_nil]
  have hpos : 0 < cs.length := List.length_pos_iff.mpr hcs
  unfold program
  rw [toNat_sub_add x a (by omega)]
  split
  · rename_i hle
    rw [List.getD_append_right _ _ _ _ hle, List.getD_eq_default bs _ hle]
    exact congrArg (· &&& _) UInt8.and_neg_one
  · rename_i hlt
    rw [List.getD_append _ _ _ _ (by omega), List.getD_eq_default cs _ (by omega)]
    exact UInt8.and_neg_one

/-- Padding with `0xFF` clears nothing more. -/
theorem program_append_ff (a : UInt32) (n : Nat) (bs : Bytes) (m : Mem32) :
    program a (bs ++ List.replicate n 0xFF) m = program a bs m := by
  funext x
  unfold program
  congr 1
  by_cases h : (x - a).toNat < bs.length
  · rw [List.getD_append _ _ _ _ h]
  · rw [List.getD_append_right _ _ _ _ (by omega), List.getD_eq_default bs _ (by omega)]
    by_cases h' : (x - a).toNat - bs.length < n
    · simp [List.getD, h']
    · rw [List.getD_eq_default _ _ (by simpa using h')]

/-- The byte under an offset. -/
theorem program_add (a : UInt32) {bs : Bytes} {i : Nat} (hi : i < bs.length)
    (hsize : bs.length ≤ UInt32.size) (m : Mem32) :
    program a bs m (a + .ofNat i) = m (a + .ofNat i) &&& bs[i] := by
  unfold program
  rw [UInt32.add_comm, UInt32.add_sub_cancel, UInt32.toNat_ofNat_of_lt' (by omega), List.getD_eq_getElem _ _ hi]

/-- The bytes under no offset. -/
theorem program_apart {a x : UInt32} {bs : Bytes} (h : ∀ i < bs.length, x ≠ a + .ofNat i)
    (m : Mem32) : program a bs m x = m x := by
  have hle : bs.length ≤ (x - a).toNat := by
    by_contra hlt
    apply h _ (Nat.lt_of_not_le hlt)
    rw [UInt32.ofNat_toNat, UInt32.add_comm, UInt32.sub_add_cancel]
  unfold program
  rw [List.getD_eq_default _ _ hle]
  exact UInt8.and_neg_one

end Mem32
