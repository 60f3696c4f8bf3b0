import Pathfinder.Bitmap.Msb

/-! `bitvec::vec::BitVec<u8, Msb0>`, the owned bit vector of the `bitvec` crate over bytes,
most significant bit first. `BitVecOps` states what the crate documents of the operations a
caller uses (a vector is its bits, held in a buffer from bit `head` of the first byte on;
`force_align` moves them to bit `0`, `into_vec` hands out the buffer, `from_vec` views every
bit of some bytes, `resize` cuts or pads), and the model `BitVec` meets it: a vector cloned from
a slice of another keeps the slice's bit offset, so its contents need not start at a byte
boundary. `force_align` is `copy_within(head.., 0)`, which leaves the bits after the contents as
they were, and a byte that `resize` adds holds the padding value in its bits past the end. -/
namespace Pathfinder
namespace Bitmap

/-- The operations of `bitvec::vec::BitVec<u8, Msb0>`, with the behaviour the crate documents. -/
structure BitVecOps (B : Type) where
  bits : B → List Bool
  head : B → ℕ
  forceAlign : B → B
  intoVec : B → List UInt8
  fromVec : List UInt8 → B
  resize : B → ℕ → Bool → B
  head_forceAlign : ∀ bv, head (forceAlign bv) = 0
  bits_forceAlign : ∀ bv, bits (forceAlign bv) = bits bv
  length_intoVec : ∀ bv, (intoVec bv).length = (head bv + (bits bv).length + 7) / 8
  msbBit_intoVec : ∀ bv (i : ℕ) (hi : i < (bits bv).length),
    msbBit (intoVec bv) (head bv + i) = (bits bv)[i]
  bits_fromVec : ∀ vec, bits (fromVec vec) = (List.range (8 * vec.length)).map (msbBit vec)
  bits_resize : ∀ bv n value,
    bits (resize bv n value) = (bits bv ++ List.replicate (n - (bits bv).length) value).take n

namespace BitVecOps

variable {B : Type} (ops : BitVecOps B)

theorem bits_resize_fromVec_intoVec (bv : B) {n : ℕ} (h : n ≤ (ops.bits bv).length) (value : Bool) :
    ops.bits (ops.resize (ops.fromVec (ops.intoVec (ops.forceAlign bv))) n value) =
      (ops.bits bv).take n := by
  have hlen := ops.length_intoVec (ops.forceAlign bv)
  rw [ops.head_forceAlign, ops.bits_forceAlign, Nat.zero_add] at hlen
  have hfits : n ≤ 8 * (ops.intoVec (ops.forceAlign bv)).length := by omega
  rw [ops.bits_resize, ops.bits_fromVec, List.length_map, List.length_range,
    Nat.sub_eq_zero_of_le hfits, List.replicate_zero, List.append_nil]
  apply List.ext_getElem
  · simp only [List.length_take, List.length_map, List.length_range]
    omega
  · intro i hi _
    have hi' : i < (ops.bits (ops.forceAlign bv)).length := by
      simp only [List.length_take, List.length_map, List.length_range] at hi
      rw [ops.bits_forceAlign]
      omega
    have hbit := ops.msbBit_intoVec (ops.forceAlign bv) i hi'
    rw [ops.head_forceAlign, Nat.zero_add] at hbit
    simp only [List.getElem_take, List.getElem_map, List.getElem_range, hbit]
    simp only [ops.bits_forceAlign]

end BitVecOps

section Pack

def byteOfMsb (f : ℕ → Bool) : UInt8 :=
  UInt8.ofNat (128 * (f 0).toNat + 64 * (f 1).toNat + 32 * (f 2).toNat + 16 * (f 3).toNat +
    8 * (f 4).toNat + 4 * (f 5).toNat + 2 * (f 6).toNat + (f 7).toNat)

theorem bitMsb_byteOfMsb (f : ℕ → Bool) {o : ℕ} (ho : o < 8) : bitMsb (byteOfMsb f) o = f o := by
  rw [bitMsb_eq_testBit _ ho]
  match o, ho with
  | 0, _ | 1, _ | 2, _ | 3, _ | 4, _ | 5, _ | 6, _ | 7, _ =>
    simp only [byteOfMsb]
    generalize f 0 = b0
    generalize f 1 = b1
    generalize f 2 = b2
    generalize f 3 = b3
    generalize f 4 = b4
    generalize f 5 = b5
    generalize f 6 = b6
    generalize f 7 = b7
    revert b0 b1 b2 b3 b4 b5 b6 b7
    decide

def ofMsbBits (f : ℕ → Bool) (count : ℕ) : List UInt8 :=
  (List.range count).map fun k => byteOfMsb fun o => f (8 * k + o)

@[simp] theorem length_ofMsbBits (f : ℕ → Bool) (count : ℕ) : (ofMsbBits f count).length = count := by
  simp [ofMsbBits]

theorem msbBit_ofMsbBits (f : ℕ → Bool) (count n : ℕ) :
    msbBit (ofMsbBits f count) n = (decide (n / 8 < count) && f n) := by
  by_cases hn : n / 8 < count
  · have hbit := bitMsb_byteOfMsb (fun o => f (8 * (n / 8) + o)) (Nat.mod_lt n (by omega))
    rw [Nat.div_add_mod] at hbit
    simp [msbBit, ofMsbBits, List.getD_eq_getElem?_getD, hn, hbit]
  · rw [msbBit_of_length_le (by simp; omega)]
    simp [hn]

theorem msbBit_take (bytes : List UInt8) {k n : ℕ} (hn : n / 8 < k) :
    msbBit (bytes.take k) n = msbBit bytes n := by
  simpa using msbBit_drop_take bytes 0 k hn

end Pack

/-- `BitVec<u8, Msb0>`. -/
structure BitVec where
  storage : List UInt8
  head : ℕ
  len : ℕ
  head_lt : head < 8
  storage_length : storage.length = (head + len + 7) / 8

namespace BitVec

def bits (bv : BitVec) : List Bool := (List.range bv.len).map fun i => msbBit bv.storage (bv.head + i)

@[simp] theorem length_bits (bv : BitVec) : bv.bits.length = bv.len := by
  simp [bits]

theorem getElem_bits (bv : BitVec) {i : ℕ} (hi : i < bv.bits.length) :
    bv.bits[i] = msbBit bv.storage (bv.head + i) := by
  simp [bits]

theorem bits_eq_of {a b : BitVec} (hlen : a.len = b.len)
    (hbit : ∀ i < a.len, msbBit a.storage (a.head + i) = msbBit b.storage (b.head + i)) :
    a.bits = b.bits := by
  simp only [bits, hlen]
  exact List.map_congr_left fun i hi => hbit i (by simpa [hlen] using hi)

/-- `BitVec::force_align`. -/
def forceAlign (bv : BitVec) : BitVec where
  storage := ofMsbBits (fun n => if n < bv.len then msbBit bv.storage (bv.head + n)
    else msbBit bv.storage n) ((bv.len + 7) / 8)
  head := 0
  len := bv.len
  head_lt := by omega
  storage_length := by simp

/-- `BitVec::into_vec`: the buffer. -/
def intoVec (bv : BitVec) : List UInt8 := bv.storage

/-- `BitVec::from_vec`: every bit of the bytes, from the first. -/
def fromVec (vec : List UInt8) : BitVec := ⟨vec, 0, 8 * vec.length, by omega, by omega⟩

/-- `BitVec::resize(new_len, value)`. -/
def resize (bv : BitVec) (newLen : ℕ) (value : Bool) : BitVec :=
  if h : newLen ≤ bv.len then
    ⟨bv.storage.take ((bv.head + newLen + 7) / 8), bv.head, newLen, bv.head_lt, by
      rw [List.length_take, bv.storage_length]
      omega⟩
  else
    ⟨ofMsbBits (fun n => if n < bv.head + bv.len then msbBit bv.storage n else value)
      ((bv.head + newLen + 7) / 8), bv.head, newLen, bv.head_lt, by simp⟩

@[simp] theorem forceAlign_len (bv : BitVec) : bv.forceAlign.len = bv.len := rfl

@[simp] theorem forceAlign_head (bv : BitVec) : bv.forceAlign.head = 0 := rfl

@[simp] theorem fromVec_len (vec : List UInt8) : (fromVec vec).len = 8 * vec.length := rfl

@[simp] theorem resize_len (bv : BitVec) (newLen : ℕ) (value : Bool) :
    (bv.resize newLen value).len = newLen := by
  unfold resize
  split <;> rfl

theorem length_intoVec (bv : BitVec) : bv.intoVec.length = (bv.head + bv.len + 7) / 8 :=
  bv.storage_length

theorem bits_forceAlign (bv : BitVec) : bv.forceAlign.bits = bv.bits := by
  refine bits_eq_of rfl fun i hi => ?_
  rw [forceAlign_len] at hi
  have hbyte : i / 8 < (bv.len + 7) / 8 := by omega
  simp [forceAlign, msbBit_ofMsbBits, hbyte, hi]

theorem bits_resize (bv : BitVec) (newLen : ℕ) (value : Bool) :
    (bv.resize newLen value).bits = (bv.bits ++ List.replicate (newLen - bv.len) value).take newLen := by
  apply List.ext_getElem
  · simp
    omega
  · intro i hi _
    have hi' : i < newLen := by simpa using hi
    rw [getElem_bits, List.getElem_take]
    unfold resize
    split
    · have hbyte : (bv.head + i) / 8 < (bv.head + newLen + 7) / 8 := by omega
      rw [List.getElem_append_left (by simp; omega), getElem_bits]
      exact msbBit_take bv.storage hbyte
    · have hbyte : (bv.head + i) / 8 < (bv.head + newLen + 7) / 8 := by omega
      simp only [msbBit_ofMsbBits, hbyte, decide_true, Bool.true_and]
      by_cases hlen : i < bv.len
      · rw [if_pos (by omega), List.getElem_append_left (by simpa using hlen), getElem_bits]
      · rw [if_neg (by omega), List.getElem_append_right (by simpa using hlen)]
        simp

def ops : BitVecOps BitVec where
  bits := bits
  head := head
  forceAlign := forceAlign
  intoVec := intoVec
  fromVec := fromVec
  resize := resize
  head_forceAlign := forceAlign_head
  bits_forceAlign := bits_forceAlign
  length_intoVec bv := by rw [length_intoVec, length_bits]
  msbBit_intoVec bv _ hi := (getElem_bits bv hi).symm
  bits_fromVec vec := by simp [bits, fromVec]
  bits_resize bv n value := by rw [bits_resize, length_bits]

end BitVec

end Bitmap
end Pathfinder
