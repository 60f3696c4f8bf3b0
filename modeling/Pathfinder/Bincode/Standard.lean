import Mathlib.Data.List.Basic
import Mathlib.Algebra.Order.Group.Nat

/-! The wire format of `bincode` 2 under its standard configuration (`config::standard()`):
unsigned integers in the variable-length little-endian encoding, a `Vec<u8>` as its length
followed by its bytes, an enum as its variant index followed by its fields. A varint up to
`SINGLE_BYTE_MAX` is one byte, any other a marker byte and the value in the narrowest of two,
four and eight little-endian bytes; a marker beyond the type's width, `U128_BYTE` and `255` are
`InvalidIntegerType`. A decoder reads a
value off the front of its input and leaves the rest; every round trip is stated with an
arbitrary rest after the encoding, so that the decoders of consecutive fields chain. -/
namespace Pathfinder
namespace Bincode

/-- `bincode::error::DecodeError`. -/
inductive DecodeError where
  | unexpectedEnd
  | invalidIntegerType
  | unexpectedVariant
  | other (msg : String)
  deriving DecidableEq, Repr

/-- `bincode::error::EncodeError::UnexpectedEnd`: the target slice is too short. -/
inductive EncodeError where
  | unexpectedEnd
  deriving DecidableEq, Repr

abbrev Decoder (α : Type) := StateT (List UInt8) (Except DecodeError) α

section Reader
variable {α β : Type}

/-- `SliceReader::read` of one byte. -/
def readByte : Decoder UInt8 := fun bytes =>
  match bytes with
  | [] => .error .unexpectedEnd
  | b :: rest => .ok (b, rest)

/-- `SliceReader::read` of `n` bytes: `UnexpectedEnd` when fewer are left. -/
def readBytes (n : ℕ) : Decoder (List UInt8) := fun bytes =>
  if n ≤ bytes.length then .ok (bytes.take n, bytes.drop n) else .error .unexpectedEnd

@[simp] theorem run_readByte_cons (b : UInt8) (rest : List UInt8) :
    readByte.run (b :: rest) = .ok (b, rest) := rfl

@[simp] theorem run_readBytes_append (bytes rest : List UInt8) :
    (readBytes bytes.length).run (bytes ++ rest) = .ok (bytes, rest) := by
  show readBytes _ _ = _
  simp [readBytes]

theorem run_bind_of_run {d : Decoder α} {f : α → Decoder β} {s s' : List UInt8} {a : α}
    (h : d.run s = .ok (a, s')) : (d >>= f).run s = (f a).run s' := by
  rw [StateT.run_bind, h]
  rfl

theorem run_map_of_run {d : Decoder α} {f : α → β} {s s' : List UInt8} {a : α}
    (h : d.run s = .ok (a, s')) : (f <$> d).run s = .ok (f a, s') := by
  rw [StateT.run_map, h]
  rfl

end Reader

section LittleEndian

/-- `to_le_bytes` of an unsigned integer `width` bytes wide. -/
def leBytes : ℕ → ℕ → List UInt8
  | 0, _ => []
  | width + 1, n => UInt8.ofNat n :: leBytes width (n / 256)

/-- `from_le_bytes`. -/
def ofLeBytes : List UInt8 → ℕ
  | [] => 0
  | b :: bytes => b.toNat + 256 * ofLeBytes bytes

@[simp] theorem length_leBytes (width n : ℕ) : (leBytes width n).length = width := by
  induction width generalizing n with
  | zero => rfl
  | succ width ih => simp [leBytes, ih]

theorem ofLeBytes_leBytes (width n : ℕ) : ofLeBytes (leBytes width n) = n % 256 ^ width := by
  induction width generalizing n with
  | zero => simp [leBytes, ofLeBytes, Nat.mod_one]
  | succ width ih =>
    have hbyte : (UInt8.ofNat n).toNat = n % 256 := UInt8.toNat_ofNat'
    rw [leBytes, ofLeBytes, ih, hbyte, pow_succ', Nat.mod_mul]

end LittleEndian

section Varint

/-- `SINGLE_BYTE_MAX`: the largest value written as a single byte. -/
def SINGLE_BYTE_MAX : ℕ := 250
/-- `U16_BYTE`: two little-endian bytes follow. -/
def U16_BYTE : ℕ := 251
/-- `U32_BYTE`: four little-endian bytes follow. -/
def U32_BYTE : ℕ := 252
/-- `U64_BYTE`: eight little-endian bytes follow. -/
def U64_BYTE : ℕ := 253

/-- The integer types read as varints here. -/
inductive IntegerType where
  | u32
  | u64
  deriving DecidableEq, Repr

def IntegerType.bytes : IntegerType → ℕ
  | .u32 => 4
  | .u64 => 8

/-- `varint_encode_u32` and `varint_encode_u64`, which differ only in the widths they reach. -/
def varintEncode (n : ℕ) : List UInt8 :=
  if n ≤ SINGLE_BYTE_MAX then [UInt8.ofNat n]
  else if n < 2 ^ 16 then UInt8.ofNat U16_BYTE :: leBytes 2 n
  else if n < 2 ^ 32 then UInt8.ofNat U32_BYTE :: leBytes 4 n
  else UInt8.ofNat U64_BYTE :: leBytes 8 n

def markerBytes (byte : ℕ) : Option ℕ :=
  if byte = U16_BYTE then some 2
  else if byte = U32_BYTE then some 4
  else if byte = U64_BYTE then some 8
  else none

/-- `varint_decode_u32` and `varint_decode_u64`. -/
def varintDecode (t : IntegerType) : Decoder ℕ := do
  let byte ← readByte
  if byte.toNat ≤ SINGLE_BYTE_MAX then return byte.toNat
  match markerBytes byte.toNat with
  | some width =>
    if width ≤ t.bytes then return ofLeBytes (← readBytes width)
    else throw .invalidIntegerType
  | none => throw .invalidIntegerType

/-- `Encode for u32` under the variable integer encoding. -/
def varintEncodeU32 (n : UInt32) : List UInt8 := varintEncode n.toNat

/-- `Encode for u64` under the variable integer encoding. -/
def varintEncodeU64 (n : UInt64) : List UInt8 := varintEncode n.toNat

/-- `Decode for u32` under the variable integer encoding. -/
def varintDecodeU32 : Decoder UInt32 := UInt32.ofNat <$> varintDecode .u32

/-- `Decode for u64` under the variable integer encoding. -/
def varintDecodeU64 : Decoder UInt64 := UInt64.ofNat <$> varintDecode .u64

theorem length_varintEncode_le (n : ℕ) : (varintEncode n).length ≤ 9 := by
  unfold varintEncode
  split_ifs <;> simp

theorem length_varintEncode_of_le {n : ℕ} (hn : n ≤ SINGLE_BYTE_MAX) :
    (varintEncode n).length = 1 := by
  simp [varintEncode, hn]

theorem run_varintDecode_marker (t : IntegerType) {marker width n : ℕ}
    (hmarker : SINGLE_BYTE_MAX < marker ∧ marker < 256) (hbytes : markerBytes marker = some width)
    (hwidth : width ≤ t.bytes) (hn : n < 256 ^ width) (rest : List UInt8) :
    (varintDecode t).run (UInt8.ofNat marker :: (leBytes width n ++ rest)) = .ok (n, rest) := by
  have hbyte : (UInt8.ofNat marker).toNat = marker := by
    rw [UInt8.toNat_ofNat']
    omega
  unfold varintDecode
  rw [run_bind_of_run (run_readByte_cons _ _), hbyte, if_neg (by omega), hbytes]
  dsimp only
  rw [if_pos hwidth, run_bind_of_run (by simpa using run_readBytes_append (leBytes width n) rest),
    ofLeBytes_leBytes, Nat.mod_eq_of_lt hn]
  rfl

theorem run_varintDecode (t : IntegerType) {n : ℕ} (hn : n < 2 ^ (8 * t.bytes))
    (rest : List UInt8) : (varintDecode t).run (varintEncode n ++ rest) = .ok (n, rest) := by
  unfold varintEncode
  split_ifs with h1 h2 h3
  · have hbyte : (UInt8.ofNat n).toNat = n := by
      rw [UInt8.toNat_ofNat']
      simp only [SINGLE_BYTE_MAX] at h1
      omega
    unfold varintDecode
    rw [List.singleton_append, run_bind_of_run (run_readByte_cons _ _), hbyte, if_pos h1]
    rfl
  · exact run_varintDecode_marker t (by simp [SINGLE_BYTE_MAX, U16_BYTE])
      (by simp [markerBytes]) (by cases t <;> simp [IntegerType.bytes]) (by omega) rest
  · have ht : 4 ≤ t.bytes := by
      cases t <;> simp [IntegerType.bytes]
    exact run_varintDecode_marker t (by simp [SINGLE_BYTE_MAX, U32_BYTE])
      (by simp [markerBytes, U16_BYTE, U32_BYTE]) ht (by omega) rest
  · have ht : t = .u64 := by
      cases t <;> simp [IntegerType.bytes] at hn ⊢
      omega
    subst ht
    exact run_varintDecode_marker .u64 (by simp [SINGLE_BYTE_MAX, U64_BYTE])
      (by simp [markerBytes, U16_BYTE, U32_BYTE, U64_BYTE]) (by simp [IntegerType.bytes])
      (by simpa [IntegerType.bytes] using hn) rest

theorem run_varintDecodeU32 (n : UInt32) (rest : List UInt8) :
    varintDecodeU32.run (varintEncodeU32 n ++ rest) = .ok (n, rest) := by
  rw [varintDecodeU32, varintEncodeU32, run_map_of_run (run_varintDecode .u32 (by simpa [IntegerType.bytes] using n.toNat_lt) rest),
    UInt32.ofNat_toNat]

theorem run_varintDecodeU64 (n : UInt64) (rest : List UInt8) :
    varintDecodeU64.run (varintEncodeU64 n ++ rest) = .ok (n, rest) := by
  rw [varintDecodeU64, varintEncodeU64, run_map_of_run (run_varintDecode .u64 (by simpa [IntegerType.bytes] using n.toNat_lt) rest),
    UInt64.ofNat_toNat]

end Varint

section Vec

/-- `Encode for Vec<u8>`: the length as a `u64` (`encode_slice_len`), then the bytes. -/
def encodeVec (bytes : List UInt8) : List UInt8 := varintEncode bytes.length ++ bytes

/-- `Decode for Vec<u8>`: the length (`decode_slice_len`), then that many bytes. -/
def decodeVec : Decoder (List UInt8) := do
  let len ← varintDecode .u64
  readBytes len

theorem length_encodeVec_le (bytes : List UInt8) : (encodeVec bytes).length ≤ 9 + bytes.length := by
  simpa [encodeVec] using length_varintEncode_le bytes.length

theorem run_decodeVec {bytes : List UInt8} (hlen : bytes.length < 2 ^ 64) (rest : List UInt8) :
    decodeVec.run (encodeVec bytes ++ rest) = .ok (bytes, rest) := by
  rw [decodeVec, encodeVec, List.append_assoc,
    run_bind_of_run (run_varintDecode .u64 (by simpa [IntegerType.bytes] using hlen) _)]
  exact run_readBytes_append bytes rest

end Vec

section Slices
variable {α : Type}

/-- `encode_into_slice`. -/
def encodeIntoSlice (encoded dst : List UInt8) : Except EncodeError (List UInt8 × ℕ) :=
  if encoded.length ≤ dst.length then .ok (encoded ++ dst.drop encoded.length, encoded.length)
  else .error .unexpectedEnd

/-- `borrow_decode_from_slice`: the value and the number of bytes read. -/
def decodeFromSlice (d : Decoder α) (src : List UInt8) : Except DecodeError (α × ℕ) :=
  (d.run src).map fun r => (r.1, src.length - r.2.length)

theorem encodeIntoSlice_of_le {encoded dst : List UInt8} (h : encoded.length ≤ dst.length) :
    encodeIntoSlice encoded dst = .ok (encoded ++ dst.drop encoded.length, encoded.length) :=
  if_pos h

theorem decodeFromSlice_of_run {d : Decoder α} {src : List UInt8} {a : α}
    (h : d.run (src ++ []) = .ok (a, [])) : decodeFromSlice d src = .ok (a, src.length) := by
  rw [List.append_nil] at h
  simp [decodeFromSlice, h, Except.map]

end Slices

end Bincode
end Pathfinder
