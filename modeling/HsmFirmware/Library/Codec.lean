-- SUMMARY: Fixed-size byte layouts: little-endian words, byte arrays, and the products and tables built of them.
import Mathlib.Tactic.Common
import Mathlib.Data.List.GetD
import Mathlib.Data.List.FinRange
import Mathlib.Logic.Equiv.Basic

/-!
# Byte layouts

The layout of a packed structure: every value has one encoding of a fixed size,
and every byte string of that size is the encoding of one value. Decoding reads
a value from the front of a byte string, the way a structure is read through a
pointer.
-/

abbrev Bytes := List UInt8

/-- A fixed-size layout of the values of `α`. -/
structure Codec (α : Type) where
  size : Nat
  encode : α → Bytes
  decode : Bytes → α
  length_encode (a : α) : (encode a).length = size
  decode_encode (a : α) (tl : Bytes) : decode (encode a ++ tl) = a
  encode_decode {bs : Bytes} (h : bs.length = size) : encode (decode bs) = bs

attribute [simp] Codec.length_encode

namespace Codec

variable {α β : Type}

@[simp] theorem decode_encode' (c : Codec α) (a : α) : c.decode (c.encode a) = a := by
  simpa using c.decode_encode a []

theorem encode_injective (c : Codec α) {a b : α} (h : c.encode a = c.encode b) : a = b := by
  rw [← c.decode_encode' a, h, c.decode_encode']

/-- Decoding reads the first `size` bytes only. -/
theorem decode_take (c : Codec α) {bs : Bytes} (h : c.size ≤ bs.length) :
    c.decode (bs.take c.size) = c.decode bs := by
  have hlen : (bs.take c.size).length = c.size := by simp [h]
  calc c.decode (bs.take c.size)
      = c.decode (c.encode (c.decode (bs.take c.size)) ++ bs.drop c.size) :=
        (c.decode_encode _ _).symm
    _ = c.decode bs := by rw [c.encode_decode hlen, List.take_append_drop]

/-! ## Words -/

def u8 : Codec UInt8 where
  size := 1
  encode b := [b]
  decode bs := bs.getD 0 0
  length_encode _ := rfl
  decode_encode _ _ := rfl
  encode_decode {bs} h := by
    match bs, h with
    | [b], _ => rfl

/-- Little-endian 16-bit words. -/
def u16 : Codec UInt16 where
  size := 2
  encode x := [UInt8.ofNat x.toNat, UInt8.ofNat (x.toNat / 256)]
  decode bs := UInt16.ofNat ((bs.getD 0 0).toNat + 256 * (bs.getD 1 0).toNat)
  length_encode _ := rfl
  decode_encode x tl := by
    apply UInt16.toNat.inj
    have := x.toNat_lt
    simp
    omega
  encode_decode {bs} h := by
    match bs, h with
    | [a, b], _ =>
      have := a.toNat_lt
      have := b.toNat_lt
      simp only [List.getD_cons_zero, List.getD_cons_succ, List.cons.injEq, and_true]
      constructor <;> apply UInt8.toNat.inj <;> simp
      omega

/-- Little-endian 32-bit words. -/
def u32 : Codec UInt32 where
  size := 4
  encode x := [UInt8.ofNat x.toNat, UInt8.ofNat (x.toNat / 256),
    UInt8.ofNat (x.toNat / 65536), UInt8.ofNat (x.toNat / 16777216)]
  decode bs := UInt32.ofNat ((bs.getD 0 0).toNat + 256 * (bs.getD 1 0).toNat +
    65536 * (bs.getD 2 0).toNat + 16777216 * (bs.getD 3 0).toNat)
  length_encode _ := rfl
  decode_encode x tl := by
    apply UInt32.toNat.inj
    have := x.toNat_lt
    simp
    omega
  encode_decode {bs} h := by
    match bs, h with
    | [a, b, c, d], _ =>
      have := a.toNat_lt
      have := b.toNat_lt
      have := c.toNat_lt
      have := d.toNat_lt
      simp only [List.getD_cons_zero, List.getD_cons_succ, List.cons.injEq, and_true]
      refine ⟨?_, ?_, ?_, ?_⟩ <;> apply UInt8.toNat.inj <;> simp <;> omega

/-! ## Composite layouts -/

/-- An array of `n` bytes. -/
def bytes (n : Nat) : Codec (Vector UInt8 n) where
  size := n
  encode v := v.toList
  decode bs := Vector.ofFn fun i => bs.getD i 0
  length_encode v := by simp
  decode_encode v tl := by
    ext i hi
    have hi' : i < v.toList.length := by simpa using hi
    rw [Vector.getElem_ofFn, List.getD_append _ _ _ _ hi']
    simp [hi]
  encode_decode {bs} h := by
    apply List.ext_getElem
    · simp [h]
    · intro i h₁ h₂
      simp [h₂]

/-- An array read from the start of longer data. -/
theorem toList_decode_take {n : Nat} {bs : Bytes} (h : n ≤ bs.length) :
    ((bytes n).decode bs).toList = bs.take n := by
  rw [← (bytes n).decode_take h]
  exact (bytes n).encode_decode (by rw [List.length_take]; exact Nat.min_eq_left h)

/-- Strings of one length are told apart by a buffer that takes them. -/
theorem bytes_decode_inj {n : Nat} {bs bs' : Bytes} (hlen : bs.length = bs'.length)
    (hn : bs.length ≤ n) (h : (bytes n).decode bs = (bytes n).decode bs') : bs = bs' := by
  apply List.ext_getElem hlen
  intro i h₁ h₂
  have hin : i < n := Nat.lt_of_lt_of_le h₁ hn
  have hi := congrArg (fun v : Vector UInt8 n => v[i]) h
  simpa [bytes, h₁, h₂] using hi

/-- Two fields, one after the other. -/
def pair (c : Codec α) (d : Codec β) : Codec (α × β) where
  size := c.size + d.size
  encode p := c.encode p.1 ++ d.encode p.2
  decode bs := (c.decode bs, d.decode (bs.drop c.size))
  length_encode p := by simp
  decode_encode p tl := by
    rw [List.append_assoc, c.decode_encode]
    rw [show (c.encode p.1 ++ (d.encode p.2 ++ tl)).drop c.size = d.encode p.2 ++ tl by
      rw [← c.length_encode p.1, List.drop_left], d.decode_encode]
  encode_decode {bs} h := by
    have hc : (bs.take c.size).length = c.size := by simp [h]
    have hd : (bs.drop c.size).length = d.size := by simp [h]
    rw [← c.decode_take (by omega), c.encode_decode hc, d.encode_decode hd,
      List.take_append_drop]

/-- The same bytes, read as another type. -/
def iso (c : Codec α) (e : α ≃ β) : Codec β where
  size := c.size
  encode b := c.encode (e.symm b)
  decode bs := e (c.decode bs)
  length_encode b := c.length_encode _
  decode_encode b tl := by simp [c.decode_encode]
  encode_decode h := by simp [c.encode_decode h]

@[simp] theorem pair_size (c : Codec α) (d : Codec β) : (c.pair d).size = c.size + d.size := rfl
@[simp] theorem bytes_size (n : Nat) : (bytes n).size = n := rfl
@[simp] theorem u8_size : u8.size = 1 := rfl
@[simp] theorem u16_size : u16.size = 2 := rfl
@[simp] theorem u32_size : u32.size = 4 := rfl
@[simp] theorem iso_size (c : Codec α) (e : α ≃ β) : (c.iso e).size = c.size := rfl

/-! ## Tables -/

/-- The bytes of an array of `n` structures. -/
def table (c : Codec α) {n : Nat} (f : Fin n → α) : Bytes :=
  (List.ofFn fun i => c.encode (f i)).flatten

theorem table_length (c : Codec α) {n : Nat} (f : Fin n → α) :
    (c.table f).length = n * c.size := by
  simp [table, List.length_flatten, List.map_ofFn, Function.comp_def]

/-- Entry `i` of a table stands at byte `i * size`. -/
theorem table_slice (c : Codec α) {n : Nat} (f : Fin n → α) (i : Fin n) :
    ((c.table f).drop (i * c.size)).take c.size = c.encode (f i) := by
  induction n with
  | zero => exact i.elim0
  | succ n ih =>
    have hcons : c.table f = c.encode (f 0) ++ c.table (fun j : Fin n => f j.succ) := by
      simp [table, List.ofFn_succ]
    rw [hcons]
    cases i using Fin.cases with
    | zero => simp [List.take_left']
    | succ j =>
      have hsize : (j.succ : Nat) * c.size = (c.encode (f 0)).length + j * c.size := by
        simp [Nat.add_mul, Nat.add_comm]
      rw [hsize, List.drop_append, List.drop_eq_nil_of_le (by omega), List.nil_append,
        Nat.add_sub_cancel_left, ih]

/-- An array of `n` structures. -/
def array (c : Codec α) (n : Nat) : Codec (Fin n → α) where
  size := n * c.size
  encode f := c.table f
  decode bs i := c.decode (bs.drop (i * c.size))
  length_encode f := c.table_length f
  decode_encode f tl := by
    funext i
    have hi : (i + 1) * c.size ≤ n * c.size := Nat.mul_le_mul_right _ i.isLt
    rw [Nat.add_mul, Nat.one_mul] at hi
    have hlen := c.table_length f
    rw [List.drop_append_of_le_length (by omega), ← c.decode_take (by simp; omega),
      List.take_append_of_le_length (by simp; omega), c.table_slice, c.decode_encode']
  encode_decode {bs} h := by
    induction n generalizing bs with
    | zero => simp_all [table]
    | succ n ih =>
      rw [Nat.succ_mul] at h
      have hhead : c.encode (c.decode bs) = bs.take c.size := by
        rw [← c.decode_take (by omega), c.encode_decode (by simp; omega)]
      have htail := @ih (bs.drop c.size) (by simp; omega)
      simp only [table, List.ofFn_succ, List.flatten_cons, List.drop_drop] at htail ⊢
      simp only [Fin.val_zero, Nat.zero_mul, List.drop_zero, Fin.val_succ, Nat.succ_mul, hhead]
      simp only [Nat.add_comm _ c.size, htail]
      exact List.take_append_drop _ _

end Codec
