import Pathfinder.Crypto.Felt
import Pathfinder.Hex.Digits

/-! The hexadecimal codecs of `Felt` (`felt.rs`) and of `pathfinder_serde` (`bytes_to_hex_str`,
`bytes_as_hex_str`, `bytes_from_hex_str`). The writers are one algorithm in two copies:
`skip_zeros` drops the leading zero bytes (and panics, `none`, when every byte is zero), and
`it_to_hex_str` writes the two digits of every
byte that is left and lets the `'x'` of the prefix overwrite a leading zero digit. The parsers
are two: `Felt::from_hex_str` reads digit pairs by index from the end, the lower digit first,
and checks the modulus; `bytes_from_hex_str` walks `rchunks_exact(2)`, the upper digit first.
Both accept exactly the strings of at most two digits a byte after an optional `0x`, and return
their value; on a rejected string they may name different nibbles. A string is its UTF-8
bytes, and every buffer is a list of bytes. -/
namespace Pathfinder

open Hex

namespace Crypto

/-- `HexParseError`. -/
inductive HexParseError where
  | invalidNibble (nibble : UInt8)
  | invalidLength (max actual : ℕ)
  | overflow
  deriving DecidableEq, Repr

/-- `parse_hex_digit`. -/
def parseHexDigit (digit : UInt8) : Except HexParseError UInt8 :=
  if 48 ≤ digit.toNat ∧ digit.toNat ≤ 57 then .ok (digit - 48)
  else if 65 ≤ digit.toNat ∧ digit.toNat ≤ 70 then .ok (digit - 65 + 10)
  else if 97 ≤ digit.toNat ∧ digit.toNat ≤ 102 then .ok (digit - 97 + 10)
  else .error (.invalidNibble digit)

theorem forall_byte {P : ℕ → Prop} (h : ∀ a < 16, ∀ b < 16, P (16 * a + b)) (n : ℕ) (hn : n < 256) : P n := by
  have hsplit := Nat.div_add_mod n 16
  rw [← hsplit]
  exact h _ (by omega) _ (Nat.mod_lt _ (by omega))

theorem parseHexDigit_of_isHexDigit {c : UInt8} (hc : IsHexDigit c) :
    parseHexDigit c = .ok (UInt8.ofNat (digitValue c)) := by
  have key := forall_byte (P := fun n => IsHexDigit (UInt8.ofNat n) →
    parseHexDigit (UInt8.ofNat n) = .ok (UInt8.ofNat (digitValue (UInt8.ofNat n)))) (by decide)
    c.toNat c.toNat_lt
  simpa using key (by simpa using hc)

theorem parseHexDigit_of_not_isHexDigit {c : UInt8} (hc : ¬ IsHexDigit c) :
    parseHexDigit c = .error (.invalidNibble c) := by
  unfold IsHexDigit at hc
  unfold parseHexDigit
  rw [if_neg (by omega), if_neg (by omega), if_neg (by omega)]

theorem nibbles_byte {h l : UInt8} (hh : IsHexDigit h) (hl : IsHexDigit l) :
    (UInt8.ofNat (digitValue h) <<< 4) ||| UInt8.ofNat (digitValue l) = pairByte (h, l) := by
  have key : ∀ a < 16, ∀ b < 16, (UInt8.ofNat a <<< 4) ||| UInt8.ofNat b = UInt8.ofNat (16 * a + b) := by
    decide
  exact key _ (digitValue_lt hh) _ (digitValue_lt hl)

end Crypto

namespace Serde

open Crypto

section Writer

/-- `LUT`: `b"0123456789abcdef"`. -/
def LUT : List UInt8 := [48, 49, 50, 51, 52, 53, 54, 55, 56, 57, 97, 98, 99, 100, 101, 102]

/-- `skip_zeros`. -/
def skipZeros (bytes : List UInt8) : Option (List UInt8 × ℕ × ℕ) :=
  let it := bytes.dropWhile (· == 0)
  let numBytes := it.length
  let skipped := bytes.length - numBytes
  match bytes[skipped]? with
  | none => none
  | some first =>
    let start := if first < 0x10 then 1 else 2
    some (it, start, start + numBytes * 2)

def writeDigits (start : ℕ) : List UInt8 → ℕ → List UInt8 → List UInt8
  | [], _, buf => buf
  | b :: it, i, buf =>
    let idx := b.toNat
    let pos := start + i * 2
    let high := LUT.getD ((idx &&& 0xf0) >>> 4) 0
    let low := LUT.getD (idx &&& 0x0f) 0
    writeDigits start it (i + 1) ((buf.set pos high).set (pos + 1) low)

/-- `it_to_hex_str`: `'0'` at 0, the digits, `'x'` at 1, and the first `len` characters. -/
def itToHexStr (it : List UInt8) (start len : ℕ) (buf : List UInt8) : List UInt8 :=
  let buf := buf.set 0 48
  let buf := writeDigits start it 0 buf
  let buf := buf.set 1 120
  buf.take len

/-- `bytes_as_hex_str`: `none` for the failed assertion on the buffer's size. -/
def bytesAsHexStr (bytes buf : List UInt8) : Option (List UInt8) :=
  let expectedBufLen := bytes.length * 2 + 2
  if buf.length < expectedBufLen then none
  else if !bytes.any (· != 0) then some [48, 120, 48]
  else (skipZeros bytes).map fun (it, start, len) => itToHexStr it start len buf

/-- `bytes_to_hex_str`. -/
def bytesToHexStr (bytes : List UInt8) : Option (List UInt8) :=
  if !bytes.any (· != 0) then some [48, 120, 48]
  else (skipZeros bytes).map fun (it, start, len) => itToHexStr it start len (List.replicate len 0)

def hexStrOf (bytes : List UInt8) : List UInt8 :=
  match bytes.dropWhile (· == 0) with
  | [] => [48, 120, 48]
  | first :: rest =>
    [48, 120] ++ ((first :: rest).flatMap hexPair).drop (if first.toNat < 16 then 1 else 0)

theorem getD_LUT_high (b : UInt8) : LUT.getD ((b.toNat &&& 0xf0) >>> 4) 0 = lowerDigit (b.toNat / 16) :=
  forall_byte (P := fun n => LUT.getD ((n &&& 0xf0) >>> 4) 0 = lowerDigit (n / 16)) (by decide) _ b.toNat_lt

theorem getD_LUT_low (b : UInt8) : LUT.getD (b.toNat &&& 0x0f) 0 = lowerDigit (b.toNat % 16) :=
  forall_byte (P := fun n => LUT.getD (n &&& 0x0f) 0 = lowerDigit (n % 16)) (by decide) _ b.toNat_lt

theorem writeDigits_eq (start : ℕ) : ∀ (it : List UInt8) (i : ℕ) (pre rest : List UInt8),
    pre.length = start + i * 2 → it.length * 2 ≤ rest.length →
    writeDigits start it i (pre ++ rest) = pre ++ it.flatMap hexPair ++ rest.drop (it.length * 2)
  | [], _, pre, rest, _, _ => by simp [writeDigits]
  | b :: it, i, pre, rest, hpre, hrest => by
    obtain ⟨r0, r1, rest', rfl⟩ : ∃ r0 r1 rest', rest = r0 :: r1 :: rest' := by
      rcases rest with _ | ⟨r0, _ | ⟨r1, rest'⟩⟩
      · simp at hrest
      · simp at hrest
        omega
      · exact ⟨r0, r1, rest', rfl⟩
    have hset : ((pre ++ r0 :: r1 :: rest').set (start + i * 2) (lowerDigit (b.toNat / 16))).set
        (start + i * 2 + 1) (lowerDigit (b.toNat % 16)) = (pre ++ hexPair b) ++ rest' := by
      rw [List.set_append_right _ _ (by omega), List.set_append_right _ _ (by omega)]
      simp [hpre, hexPair]
    have hpre' : (pre ++ hexPair b).length = start + (i + 1) * 2 := by
      rw [List.length_append, hpre]
      simp [hexPair]
      ring
    simp only [writeDigits, getD_LUT_high, getD_LUT_low]
    rw [hset, writeDigits_eq start it (i + 1) _ rest' hpre' (by simp at hrest; omega)]
    simp [List.flatMap_cons, List.append_assoc, Nat.add_mul]

theorem length_flatMap_hexPair (it : List UInt8) : (it.flatMap hexPair).length = it.length * 2 := by
  simp [List.length_flatMap, hexPair]

theorem itToHexStr_eq {b : UInt8} {it : List UInt8} {start : ℕ} (hstart : start = 1 ∨ start = 2)
    {buf : List UInt8} (hbuf : start + (b :: it).length * 2 ≤ buf.length) :
    itToHexStr (b :: it) start (start + (b :: it).length * 2) buf =
      [48, 120] ++ ((b :: it).flatMap hexPair).drop (2 - start) := by
  obtain ⟨z0, z1, rest, rfl⟩ : ∃ z0 z1 rest, buf = z0 :: z1 :: rest := by
    rcases buf with _ | ⟨z0, _ | ⟨z1, rest⟩⟩
    · simp at hbuf
    · simp at hbuf
      omega
    · exact ⟨z0, z1, rest, rfl⟩
  have hlen := length_flatMap_hexPair it
  rcases hstart with rfl | rfl
  · have hw := writeDigits_eq 1 (b :: it) 0 [48] (z1 :: rest) rfl (by simp at hbuf ⊢; omega)
    simp only [itToHexStr, List.set_cons_zero]
    rw [show 48 :: z1 :: rest = [48] ++ z1 :: rest from rfl, hw]
    simp only [List.flatMap_cons, hexPair, List.cons_append, List.nil_append, List.set_cons_succ,
      List.set_cons_zero]
    simp only [← List.cons_append]
    rw [List.take_left' (by simp [hlen]; omega)]
    simp
  · have hw := writeDigits_eq 2 (b :: it) 0 [48, z1] rest rfl (by simp at hbuf ⊢; omega)
    simp only [itToHexStr, List.set_cons_zero]
    rw [show 48 :: z1 :: rest = [48, z1] ++ rest from rfl, hw]
    simp only [List.cons_append, List.nil_append, List.set_cons_succ, List.set_cons_zero]
    simp only [← List.cons_append]
    rw [List.take_left' (by rw [List.length_cons, List.length_cons, length_flatMap_hexPair]; omega)]
    simp

theorem skipZeros_eq {bytes first : List UInt8} {b : UInt8} (h : bytes.dropWhile (· == 0) = b :: first) :
    skipZeros bytes = some (b :: first, if b < 0x10 then 1 else 2,
      (if b < 0x10 then 1 else 2) + (b :: first).length * 2) := by
  have hsplit := List.takeWhile_append_dropWhile (p := (· == (0 : UInt8))) (l := bytes)
  rw [h] at hsplit
  set pre := bytes.takeWhile (· == 0)
  have hidx : bytes[bytes.length - (b :: first).length]? = some b := by
    rw [← hsplit, List.length_append, Nat.add_sub_cancel, List.getElem?_append_right le_rfl, Nat.sub_self]
    rfl
  simp only [skipZeros, h, hidx]

theorem all_zero_iff_dropWhile : ∀ bytes : List UInt8,
    (!bytes.any (· != 0)) = true ↔ bytes.dropWhile (· == 0) = []
  | [] => by simp
  | b :: bytes => by
    by_cases hb : b = 0
    · rw [List.dropWhile_cons_of_pos (by simp [hb]), ← all_zero_iff_dropWhile bytes]
      simp [hb]
    · rw [List.dropWhile_cons_of_neg (by simp [hb])]
      simp [hb]

theorem itToHexStr_eq_hexStrOf {bytes first : List UInt8} {b : UInt8} (h : bytes.dropWhile (· == 0) = b :: first)
    {buf : List UInt8} (hbuf : (if b < 0x10 then 1 else 2) + (b :: first).length * 2 ≤ buf.length) :
    itToHexStr (b :: first) (if b < 0x10 then 1 else 2) ((if b < 0x10 then 1 else 2) + (b :: first).length * 2) buf =
      hexStrOf bytes := by
  rw [itToHexStr_eq (by split <;> simp) hbuf, hexStrOf, h]
  have hiff : b < 0x10 ↔ b.toNat < 16 := UInt8.lt_iff_toNat_lt
  by_cases hb : b.toNat < 16
  · simp [hiff.mpr hb, hb]
  · simp [mt hiff.mp hb, hb]

theorem bytesToHexStr_eq (bytes : List UInt8) : bytesToHexStr bytes = some (hexStrOf bytes) := by
  unfold bytesToHexStr
  cases h : bytes.dropWhile (· == 0) with
  | nil => rw [if_pos ((all_zero_iff_dropWhile bytes).mpr h), hexStrOf, h]
  | cons b first =>
    rw [if_neg (by rw [all_zero_iff_dropWhile, h]; simp), skipZeros_eq h, Option.map_some]
    dsimp only
    rw [itToHexStr_eq_hexStrOf h (by simp)]

theorem bytesAsHexStr_eq {bytes buf : List UInt8} (hbuf : bytes.length * 2 + 2 ≤ buf.length) :
    bytesAsHexStr bytes buf = bytesToHexStr bytes := by
  rw [bytesToHexStr_eq]
  unfold bytesAsHexStr
  rw [if_neg (by omega)]
  cases h : bytes.dropWhile (· == 0) with
  | nil => rw [if_pos ((all_zero_iff_dropWhile bytes).mpr h), hexStrOf, h]
  | cons b first =>
    have hfirst : (b :: first).length ≤ bytes.length := by
      rw [← h]
      exact (List.dropWhile_sublist _).length_le
    rw [if_neg (by rw [all_zero_iff_dropWhile, h]; simp), skipZeros_eq h, Option.map_some]
    dsimp only
    rw [itToHexStr_eq_hexStrOf h (by split <;> omega)]

end Writer

section Digits

theorem head_dropWhile_ne_zero {bytes first : List UInt8} {b : UInt8}
    (h : bytes.dropWhile (· == 0) = b :: first) : b ≠ 0 := by
  have hhead := List.head_dropWhile_not (p := (· == (0 : UInt8))) (l := bytes) (by simp [h])
  simp only [h, List.head_cons] at hhead
  simpa using hhead

theorem hexStrOf_eq (bytes : List UInt8) : hexStrOf bytes = 48 :: 120 :: (hexStrOf bytes).drop 2 := by
  unfold hexStrOf
  split <;> rfl

theorem isHexDigit_of_mem_hexStrOf {bytes : List UInt8} {c : UInt8} (hc : c ∈ (hexStrOf bytes).drop 2) :
    IsHexDigit c := by
  unfold hexStrOf at hc
  split at hc
  · simp only [List.drop_succ_cons, List.drop_zero, List.mem_singleton] at hc
    subst hc
    decide
  · simp only [List.cons_append, List.nil_append, List.drop_succ_cons, List.drop_zero] at hc
    exact isHexDigit_of_mem_flatMap_hexPair (List.mem_of_mem_drop hc)

theorem hexValue_hexStrOf (bytes : List UInt8) : hexValue ((hexStrOf bytes).drop 2) = beValue bytes := by
  rw [← beValue_dropWhile_zero]
  unfold hexStrOf
  split
  · next h => rw [h]; rfl
  · next b first h =>
    simp only [List.cons_append, List.nil_append, List.drop_succ_cons, List.drop_zero]
    rw [h, ← hexValue_flatMap_hexPair]
    split
    · next hb =>
      have hhigh : b.toNat / 16 = 0 := by omega
      rw [List.flatMap_cons, hexPair, hhigh]
      simp only [List.cons_append, List.nil_append, List.drop_succ_cons, List.drop_zero]
      rw [show lowerDigit 0 = 48 from rfl, hexValue_zero_cons]
    · rfl

theorem length_hexStrOf_le (bytes : List UInt8) : ((hexStrOf bytes).drop 2).length ≤ max 1 (bytes.length * 2) := by
  unfold hexStrOf
  split
  · simp
  · next b first h =>
    have hfirst : (b :: first).length ≤ bytes.length := by
      rw [← h]
      exact (List.dropWhile_sublist _).length_le
    simp only [List.cons_append, List.nil_append, List.drop_succ_cons, List.drop_zero, List.length_drop,
      length_flatMap_hexPair]
    omega

theorem hexStrOf_leading (bytes : List UInt8) :
    (hexStrOf bytes).drop 2 = [48] ∨ ∃ d ds, (hexStrOf bytes).drop 2 = d :: ds ∧ d ≠ 48 := by
  unfold hexStrOf
  split
  · exact .inl rfl
  · next b first h =>
    right
    have hb : b.toNat ≠ 0 := fun h0 => head_dropWhile_ne_zero h (UInt8.toNat_inj.mp h0)
    have hlt := b.toNat_lt
    simp only [List.cons_append, List.nil_append, List.drop_succ_cons, List.drop_zero, List.flatMap_cons,
      hexPair]
    split
    · next hb16 =>
      refine ⟨_, _, rfl, fun h48 => ?_⟩
      have := (lowerDigit_eq_zero_iff (Nat.mod_lt _ (by omega))).mp h48
      omega
    · refine ⟨_, _, rfl, fun h48 => ?_⟩
      have := (lowerDigit_eq_zero_iff (show b.toNat / 16 < 16 by omega)).mp h48
      omega

end Digits

section Parser

/-- `hex_str.strip_prefix("0x").unwrap_or(hex_str)`. -/
def stripPrefix (s : List UInt8) : List UInt8 := if [48, 120].isPrefixOf s then s.drop 2 else s

/-- `rchunks_exact(2)`. -/
def rchunksExact2 (s : List UInt8) : List (UInt8 × UInt8) × List UInt8 :=
  ((pairs (s.drop (s.length % 2))).reverse, s.take (s.length % 2))

def writeChunks (N : ℕ) : List (UInt8 × UInt8) → ℕ → List UInt8 → Except HexParseError (List UInt8)
  | [], _, buf => .ok buf
  | c :: chunks, i, buf => do
    let upper ← parseHexDigit c.1
    let lower ← parseHexDigit c.2
    writeChunks N chunks (i + 1) (buf.set (N - 1 - i) ((upper <<< 4) ||| lower))

/-- `bytes_from_hex_str::<N>`. -/
def bytesFromHexStr (N : ℕ) (hexStr : List UInt8) : Except HexParseError (List UInt8) := do
  let hexStr := stripPrefix hexStr
  if hexStr.length > N * 2 then
    throw (.invalidLength (N * 2) hexStr.length)
  let buf := List.replicate N 0
  let (chunks, oddNibble) := rchunksExact2 hexStr
  let buf ← match oddNibble with
    | [] => pure buf
    | d :: _ =>
      let fullBytes := hexStr.length / 2
      pure (buf.set (N - 1 - fullBytes) (← parseHexDigit d))
  writeChunks N chunks 0 buf

def ChunkOk (c : UInt8 × UInt8) : Prop := IsHexDigit c.1 ∧ IsHexDigit c.2

theorem writeChunks_eq (N : ℕ) : ∀ (cs : List (UInt8 × UInt8)) (A S : List UInt8),
    (∀ c ∈ cs, ChunkOk c) → A.length + cs.length + S.length = N →
    writeChunks N cs S.length (A ++ List.replicate cs.length 0 ++ S) = .ok (A ++ (cs.map pairByte).reverse ++ S)
  | [], _, _, _, _ => by simp [writeChunks]
  | c :: cs, A, S, hcs, hlen => by
    have ⟨h1, h2⟩ := hcs c List.mem_cons_self
    have hset : (A ++ List.replicate (cs.length + 1) 0 ++ S).set (N - 1 - S.length) (pairByte c) =
        A ++ List.replicate cs.length 0 ++ pairByte c :: S := by
      rw [List.replicate_succ', List.append_assoc, List.append_assoc, ← List.append_assoc A,
        List.set_append_right _ _ (by simp at hlen ⊢; omega)]
      simp only [List.length_append, List.length_replicate]
      rw [show N - 1 - S.length - (A.length + cs.length) = 0 by simp at hlen; omega]
      simp
    have hrest := writeChunks_eq N cs A (pairByte c :: S) (fun c' hc' => hcs c' (List.mem_cons_of_mem _ hc'))
      (by simp at hlen ⊢; omega)
    simp only [writeChunks, parseHexDigit_of_isHexDigit h1, parseHexDigit_of_isHexDigit h2, bind, Except.bind,
      List.length_cons]
    rw [List.length_cons] at hrest
    rw [nibbles_byte h1 h2, hset, hrest]
    simp

theorem writeChunks_error (N : ℕ) : ∀ (cs : List (UInt8 × UInt8)) (i : ℕ) (buf : List UInt8),
    (∃ c ∈ cs, ¬ ChunkOk c) → ∃ e, writeChunks N cs i buf = .error e
  | [], _, _, ⟨_, hc, _⟩ => absurd hc List.not_mem_nil
  | c :: cs, i, buf, ⟨c', hc', hbad⟩ => by
    unfold writeChunks
    by_cases h1 : IsHexDigit c.1
    · by_cases h2 : IsHexDigit c.2
      · have hin : c' ∈ cs := by
          rcases List.mem_cons.mp hc' with rfl | hin
          · exact absurd ⟨h1, h2⟩ hbad
          · exact hin
        simp only [parseHexDigit_of_isHexDigit h1, parseHexDigit_of_isHexDigit h2, bind, Except.bind]
        exact writeChunks_error N cs _ _ ⟨c', hin, hbad⟩
      · simp [parseHexDigit_of_isHexDigit h1, parseHexDigit_of_not_isHexDigit h2, bind, Except.bind]
    · simp [parseHexDigit_of_not_isHexDigit h1, bind, Except.bind]

theorem set_replicate_zero {N j : ℕ} (hj : j < N) (x : UInt8) :
    (List.replicate N (0 : UInt8)).set j x = List.replicate j 0 ++ x :: List.replicate (N - 1 - j) 0 := by
  have hsplit : List.replicate N (0 : UInt8) = List.replicate j 0 ++ 0 :: List.replicate (N - 1 - j) 0 := by
    rw [← List.replicate_succ, ← List.replicate_add]
    congr 1
    omega
  rw [hsplit, List.set_append_right _ _ (by simp), List.length_replicate, Nat.sub_self, List.set_cons_zero]

theorem chunkOk_of_digits {t : List UInt8} (ht : ∀ c ∈ t, IsHexDigit c) :
    ∀ c ∈ (pairs (t.drop (t.length % 2))).reverse, ChunkOk c := by
  intro c hc
  have := mem_of_mem_pairs (List.mem_reverse.mp hc)
  exact ⟨ht _ (List.mem_of_mem_drop this.1), ht _ (List.mem_of_mem_drop this.2)⟩

theorem bytesFromHexStr_of_digits {N : ℕ} {s : List UInt8} (hlen : (stripPrefix s).length ≤ N * 2)
    (hdigits : ∀ c ∈ stripPrefix s, IsHexDigit c) :
    ∃ buf, bytesFromHexStr N s = .ok buf ∧ buf.length = N ∧ beValue buf = hexValue (stripPrefix s) := by
  generalize ht : stripPrefix s = t at hlen hdigits
  have hchunks := chunkOk_of_digits hdigits
  have hcs : (pairs (t.drop (t.length % 2))).reverse.length = t.length / 2 := by simp; omega
  have hvalue : beValue ((pairs (t.drop (t.length % 2))).map pairByte) = hexValue (t.drop (t.length % 2)) :=
    beValue_map_pairByte (by simp; omega) fun c hc => hdigits c (List.mem_of_mem_drop hc)
  have hwrite := fun A => writeChunks_eq N _ A [] hchunks
  simp only [hcs, List.length_nil, List.append_nil, List.map_reverse, List.reverse_reverse] at hwrite
  unfold bytesFromHexStr
  simp only [ht, rchunksExact2]
  rw [if_neg (by omega)]
  rcases Nat.mod_two_eq_zero_or_one t.length with hodd | hodd
  · have hbuf : List.replicate N (0 : UInt8) = List.replicate (N - t.length / 2) 0 ++ List.replicate (t.length / 2) 0 := by
      rw [← List.replicate_add]
      congr 1
      omega
    rw [hodd, List.take_zero]
    simp only [pure_bind]
    rw [hodd] at hwrite hvalue
    rw [hbuf, hwrite _ (by simp; omega)]
    refine ⟨_, rfl, by simp; omega, ?_⟩
    rw [beValue_replicate_zero_append, hvalue, List.drop_zero]
  · obtain ⟨d, rest, rfl⟩ : ∃ d rest, t = d :: rest := by
      cases t with
      | nil => simp at hodd
      | cons d rest => exact ⟨d, rest, rfl⟩
    have hd := hdigits d List.mem_cons_self
    have hk : (d :: rest).length / 2 < N := by omega
    have hrest : rest.length = 2 * ((d :: rest).length / 2) := by simp at hodd ⊢; omega
    rw [hodd, List.take_succ_cons, List.take_zero]
    simp only [parseHexDigit_of_isHexDigit hd, bind, Except.bind, pure, Except.pure]
    rw [hodd] at hwrite hvalue
    have hA := hwrite (List.replicate (N - 1 - (d :: rest).length / 2) 0 ++ [UInt8.ofNat (digitValue d)])
      (by simp; omega)
    rw [List.append_assoc, List.singleton_append] at hA
    rw [set_replicate_zero (by omega), show N - 1 - (N - 1 - (d :: rest).length / 2) = (d :: rest).length / 2 by omega,
      hA]
    refine ⟨_, rfl, by simp; omega, ?_⟩
    have hdigit : (UInt8.ofNat (digitValue d)).toNat = digitValue d := by
      rw [UInt8.toNat_ofNat']
      have := digitValue_lt hd
      omega
    rw [List.append_assoc, beValue_replicate_zero_append, List.cons_append, List.nil_append, beValue_cons, hvalue,
      List.drop_succ_cons, List.drop_zero, hexValue_cons, hdigit, hrest, pow_mul]
    simp only [List.length_map, length_pairs]
    congr 2
    simp at hodd ⊢
    omega

theorem bytesFromHexStr_of_length_gt {N : ℕ} {s : List UInt8} (h : N * 2 < (stripPrefix s).length) :
    bytesFromHexStr N s = .error (.invalidLength (N * 2) (stripPrefix s).length) := by
  unfold bytesFromHexStr
  rw [if_pos h]
  rfl

theorem bytesFromHexStr_of_not_isHexDigit {N : ℕ} {s : List UInt8} (hlen : (stripPrefix s).length ≤ N * 2)
    {c : UInt8} (hc : c ∈ stripPrefix s) (hbad : ¬ IsHexDigit c) : ∃ e, bytesFromHexStr N s = .error e := by
  generalize ht : stripPrefix s = t at hlen hc
  have hloop : ∀ buf, c ∈ t.drop (t.length % 2) →
      ∃ e, writeChunks N (pairs (t.drop (t.length % 2))).reverse 0 buf = .error e := by
    intro buf hin
    obtain ⟨q, hq, hcq⟩ := exists_mem_pairs (by simp; omega) c hin
    refine writeChunks_error N _ 0 buf ⟨q, List.mem_reverse.mpr hq, fun hok => hbad ?_⟩
    rcases hcq with rfl | rfl
    · exact hok.1
    · exact hok.2
  unfold bytesFromHexStr
  simp only [ht, rchunksExact2]
  rw [if_neg (by omega)]
  rcases Nat.mod_two_eq_zero_or_one t.length with hodd | hodd
  · rw [hodd] at hloop
    rw [hodd, List.take_zero]
    simp only [pure_bind]
    exact hloop _ (by rw [List.drop_zero]; exact hc)
  · obtain ⟨d, rest, rfl⟩ : ∃ d rest, t = d :: rest := by
      cases t with
      | nil => simp at hc
      | cons d rest => exact ⟨d, rest, rfl⟩
    rw [hodd] at hloop
    rw [hodd, List.take_succ_cons, List.take_zero]
    by_cases hd : IsHexDigit d
    · have hin : c ∈ rest := by
        rcases List.mem_cons.mp hc with rfl | hin
        · exact absurd hd hbad
        · exact hin
      simp only [parseHexDigit_of_isHexDigit hd, bind, Except.bind, pure, Except.pure]
      exact hloop _ (by rw [List.drop_succ_cons, List.drop_zero]; exact hin)
    · refine ⟨.invalidNibble d, ?_⟩
      simp only [parseHexDigit_of_not_isHexDigit hd]
      rfl

theorem bytesFromHexStr_eq_ok_iff (N : ℕ) (s buf : List UInt8) :
    bytesFromHexStr N s = .ok buf ↔ (stripPrefix s).length ≤ N * 2 ∧ (∀ c ∈ stripPrefix s, IsHexDigit c) ∧
      buf.length = N ∧ beValue buf = hexValue (stripPrefix s) := by
  constructor
  · intro hok
    have hlen : (stripPrefix s).length ≤ N * 2 := by
      by_contra hgt
      rw [bytesFromHexStr_of_length_gt (by omega)] at hok
      cases hok
    have hdigits : ∀ c ∈ stripPrefix s, IsHexDigit c := by
      intro c hc
      by_contra hbad
      obtain ⟨e, he⟩ := bytesFromHexStr_of_not_isHexDigit hlen hc hbad
      rw [he] at hok
      cases hok
    obtain ⟨buf', hbuf', hlen', hvalue'⟩ := bytesFromHexStr_of_digits hlen hdigits
    rw [hbuf'] at hok
    cases hok
    exact ⟨hlen, hdigits, hlen', hvalue'⟩
  · rintro ⟨hlen, hdigits, hbuf, hvalue⟩
    obtain ⟨buf', hbuf', hlen', hvalue'⟩ := bytesFromHexStr_of_digits hlen hdigits
    rw [hbuf', beValue_inj (hlen'.trans hbuf.symm) (hvalue'.trans hvalue.symm)]

theorem stripPrefix_hexStrOf (bytes : List UInt8) : stripPrefix (hexStrOf bytes) = (hexStrOf bytes).drop 2 := by
  rw [stripPrefix, hexStrOf_eq, if_pos (by simp)]

theorem bytesFromHexStr_hexStrOf {bytes : List UInt8} (hpos : 0 < bytes.length) :
    bytesFromHexStr bytes.length (hexStrOf bytes) = .ok bytes := by
  have hlen := length_hexStrOf_le bytes
  rw [bytesFromHexStr_eq_ok_iff, stripPrefix_hexStrOf]
  exact ⟨by omega, fun c hc => isHexDigit_of_mem_hexStrOf hc, rfl, (hexValue_hexStrOf bytes).symm⟩

end Parser

end Serde

namespace Crypto

namespace Felt

open Serde

/-- `Felt::as_hex_str`. -/
def asHexStr (f : Felt) (buf : List UInt8) : Option (List UInt8) := bytesAsHexStr f.bytes.toList buf

/-- `Felt::to_hex_str`. -/
def toHexStr (f : Felt) : Option (List UInt8) := bytesToHexStr f.bytes.toList

def fromHexStrLoop (bytes : List UInt8) : ℕ → ℕ → Vector UInt8 32 → Except HexParseError (Vector UInt8 32)
  | 0, _, buf => .ok buf
  | remaining + 1, chunk, buf => do
    let lower ← parseHexDigit (bytes.getD (bytes.length - chunk * 2 - 1) 0)
    let upper ← parseHexDigit (bytes.getD (bytes.length - chunk * 2 - 2) 0)
    fromHexStrLoop bytes remaining (chunk + 1) (buf.set (31 - chunk) ((upper <<< 4) ||| lower) (by omega))

/-- `Felt::from_hex_str` up to `from_be_bytes`: the 32 bytes the digits spell. -/
def fromHexStrBuf (hexStr : List UInt8) : Except HexParseError (Vector UInt8 32) := do
  let bytes := hexStr
  let start := if bytes.length ≥ 2 ∧ bytes.getD 0 0 = 48 ∧ bytes.getD 1 0 = 120 then 2 else 0
  let len := bytes.length - start
  if len > 64 then
    throw (.invalidLength 64 bytes.length)
  let buf := Vector.replicate 32 0
  let buf ← if len % 2 = 1 then
      let idx := len / 2
      pure (buf.set (31 - idx) (← parseHexDigit (bytes.getD start 0)) (by omega))
    else pure buf
  let chunks := len / 2
  fromHexStrLoop bytes chunks 0 buf

/-- `Felt::from_hex_str`. -/
def fromHexStr (hexStr : List UInt8) : Except HexParseError Felt := do
  let buf ← fromHexStrBuf hexStr
  match fromBeBytes buf with
  | .ok felt => pure felt
  | .error _ => throw .overflow

theorem getD_append_length (P e : List UInt8) {j : ℕ} (hj : j < e.length) :
    (P ++ e).getD (P.length + j) 0 = e[j] := by
  simp [List.getD_eq_getElem?_getD, hj]

theorem fromHexStrLoop_toOption (P e : List UInt8) (K : ℕ) (he : e.length = 2 * K) :
    ∀ (r c : ℕ) (buf : Vector UInt8 32), c + r = K →
      (fromHexStrLoop (P ++ e) r c buf).toOption.map Vector.toList =
        (writeChunks 32 ((pairs e).reverse.drop c) c buf.toList).toOption
  | 0, c, buf, hc => by
    rw [List.drop_eq_nil_of_le (by simp; omega)]
    rfl
  | r + 1, c, buf, hc => by
    have hpl : (pairs e).length = K := by simp; omega
    have hc' : c < (pairs e).reverse.length := by simp; omega
    have h1 : 2 * (K - 1 - c) < e.length := by omega
    have h2 : 2 * (K - 1 - c) + 1 < e.length := by omega
    have hq : (pairs e).reverse[c] = (e[2 * (K - 1 - c)], e[2 * (K - 1 - c) + 1]) := by
      rw [List.getElem_reverse, getElem_pairs _ _ _ (by simp [hpl]; omega) (by simp [hpl]; omega)]
      simp [hpl]
    have hlow : (P ++ e).getD ((P ++ e).length - c * 2 - 1) 0 = e[2 * (K - 1 - c) + 1] := by
      rw [show (P ++ e).length - c * 2 - 1 = P.length + (2 * (K - 1 - c) + 1) by simp; omega]
      exact getD_append_length P e h2
    have hup : (P ++ e).getD ((P ++ e).length - c * 2 - 2) 0 = e[2 * (K - 1 - c)] := by
      rw [show (P ++ e).length - c * 2 - 2 = P.length + 2 * (K - 1 - c) by simp; omega]
      exact getD_append_length P e h1
    rw [List.drop_eq_getElem_cons hc', hq]
    simp only [fromHexStrLoop, writeChunks, hlow, hup]
    by_cases hd1 : IsHexDigit e[2 * (K - 1 - c)]
    · by_cases hd2 : IsHexDigit e[2 * (K - 1 - c) + 1]
      · simp only [parseHexDigit_of_isHexDigit hd1, parseHexDigit_of_isHexDigit hd2, bind, Except.bind]
        rw [fromHexStrLoop_toOption P e K he r (c + 1) _ (by omega), Vector.toList_set]
      · simp [parseHexDigit_of_isHexDigit hd1, parseHexDigit_of_not_isHexDigit hd2, bind, Except.bind,
          Except.toOption]
    · by_cases hd2 : IsHexDigit e[2 * (K - 1 - c) + 1]
      · simp [parseHexDigit_of_not_isHexDigit hd1, parseHexDigit_of_isHexDigit hd2, bind, Except.bind,
          Except.toOption]
      · simp [parseHexDigit_of_not_isHexDigit hd1, parseHexDigit_of_not_isHexDigit hd2, bind, Except.bind,
          Except.toOption]

theorem stripPrefix_eq_drop (s : List UInt8) :
    stripPrefix s = s.drop (if s.length ≥ 2 ∧ s.getD 0 0 = 48 ∧ s.getD 1 0 = 120 then 2 else 0) := by
  match s with
  | [] => rfl
  | [a] => simp [stripPrefix]
  | a :: b :: rest =>
    by_cases h : a = 48 ∧ b = 120
    · obtain ⟨rfl, rfl⟩ := h
      simp [stripPrefix]
    · have hp : ¬ ([48, 120] : List UInt8).isPrefixOf (a :: b :: rest) = true := by
        simp only [List.isPrefixOf, Bool.and_true, Bool.and_eq_true, beq_iff_eq]
        exact fun ⟨ha, hb⟩ => h ⟨ha.symm, hb.symm⟩
      have hcond : ¬ ((a :: b :: rest).length ≥ 2 ∧ (a :: b :: rest).getD 0 0 = 48 ∧
          (a :: b :: rest).getD 1 0 = 120) := by
        simp only [List.getD_cons_zero, List.getD_cons_succ]
        exact fun ⟨_, ha, hb⟩ => h ⟨ha, hb⟩
      rw [stripPrefix, if_neg hp, if_neg hcond]
      rfl

theorem fromHexStrBuf_toOption (s : List UInt8) :
    (fromHexStrBuf s).toOption.map Vector.toList = (bytesFromHexStr 32 s).toOption := by
  generalize hstart : (if s.length ≥ 2 ∧ s.getD 0 0 = 48 ∧ s.getD 1 0 = 120 then 2 else 0) = start
  have hstrip : stripPrefix s = s.drop start := hstart ▸ stripPrefix_eq_drop s
  unfold fromHexStrBuf bytesFromHexStr
  simp only [hstart, hstrip, rchunksExact2, List.length_drop]
  by_cases hgt : s.length - start > 64
  · rw [if_pos hgt, if_pos (show s.length - start > 32 * 2 by omega)]
    rfl
  rw [if_neg hgt, if_neg (show ¬ s.length - start > 32 * 2 by omega)]
  rcases Nat.mod_two_eq_zero_or_one (s.length - start) with hodd | hodd
  · rw [if_neg (show ¬ (s.length - start) % 2 = 1 by omega), hodd, List.take_zero, List.drop_zero]
    simp only [pure_bind]
    have hloop := fromHexStrLoop_toOption (s.take start) (s.drop start) ((s.length - start) / 2)
      (by simp; omega) ((s.length - start) / 2) 0 (Vector.replicate 32 0) (by omega)
    rw [List.take_append_drop, Vector.toList_replicate, List.drop_zero] at hloop
    exact hloop
  · have hlt : start < s.length := by omega
    have hget : s.getD start 0 = s[start] := by simp [List.getD_eq_getElem?_getD, hlt]
    rw [if_pos hodd, hodd, List.drop_eq_getElem_cons hlt, List.take_succ_cons, List.take_zero, hget]
    by_cases hd : IsHexDigit s[start]
    · simp only [parseHexDigit_of_isHexDigit hd, bind, Except.bind, pure, Except.pure]
      have hloop := fromHexStrLoop_toOption (s.take (start + 1)) (s.drop (start + 1)) ((s.length - start) / 2)
        (by simp; omega) ((s.length - start) / 2) 0 ((Vector.replicate 32 0).set (31 - (s.length - start) / 2)
          (UInt8.ofNat (digitValue s[start])) (by omega)) (by omega)
      rw [List.take_append_drop, Vector.toList_set, Vector.toList_replicate, List.drop_zero] at hloop
      rw [List.drop_succ_cons, List.drop_zero]
      exact hloop
    · simp [parseHexDigit_of_not_isHexDigit hd, bind, Except.bind, Except.toOption]

theorem val_eq_beValue (f : Felt) : f.val = beValue f.bytes.toList := by
  rw [val]
  generalize f.bytes.toList = l
  induction l with
  | nil => rfl
  | cons b l ih =>
    rw [List.reverse_cons, List.map_append, Nat.ofDigits_append, ih, beValue_cons]
    simp
    ring

theorem fromBeBytes_eq_ok_iff (bytes : Vector UInt8 32) (f : Felt) :
    fromBeBytes bytes = .ok f ↔ beValue bytes.toList < MontFelt.p ∧ f = ⟨bytes⟩ := by
  have hval : (MontFelt.ofWords bytes).val = beValue bytes.toList := by
    rw [← val_eq_val_ofWords ⟨bytes⟩, val_eq_beValue]
  rw [fromBeBytes_eq_ite, hval]
  by_cases h : beValue bytes.toList < MontFelt.p
  · rw [if_pos h]
    constructor
    · intro hf
      cases hf
      exact ⟨h, rfl⟩
    · rintro ⟨-, rfl⟩
      rfl
  · rw [if_neg h]
    simp [h]

theorem fromHexStrBuf_eq_ok_iff (s : List UInt8) (v : Vector UInt8 32) :
    fromHexStrBuf s = .ok v ↔ bytesFromHexStr 32 s = .ok v.toList := by
  have hrel := fromHexStrBuf_toOption s
  constructor
  · intro h
    rw [h] at hrel
    cases hb : bytesFromHexStr 32 s with
    | error e => rw [hb] at hrel; cases hrel
    | ok l => rw [hb] at hrel; cases hrel; rfl
  · intro h
    rw [h] at hrel
    cases hb : fromHexStrBuf s with
    | error e => rw [hb] at hrel; cases hrel
    | ok v' =>
      rw [hb] at hrel
      simp only [Except.toOption, Option.map_some, Option.some.injEq] at hrel
      rw [Vector.toList_inj.mp hrel]

theorem fromHexStr_eq_ok_iff (s : List UInt8) (f : Felt) :
    fromHexStr s = .ok f ↔ (stripPrefix s).length ≤ 64 ∧ (∀ c ∈ stripPrefix s, IsHexDigit c) ∧
      hexValue (stripPrefix s) < MontFelt.p ∧ f.val = hexValue (stripPrefix s) := by
  have hstages : fromHexStr s = .ok f ↔ ∃ v, fromHexStrBuf s = .ok v ∧ fromBeBytes v = .ok f := by
    unfold fromHexStr
    cases hbuf : fromHexStrBuf s with
    | error e => simp [bind, Except.bind]
    | ok v =>
      cases hfelt : fromBeBytes v with
      | error e => simp [bind, Except.bind, hfelt]
      | ok g => simp [bind, Except.bind, hfelt, pure, Except.pure]
  rw [hstages]
  constructor
  · rintro ⟨v, hv, hfelt⟩
    obtain ⟨hlen, hdigits, -, hvalue⟩ := (bytesFromHexStr_eq_ok_iff 32 s v.toList).mp ((fromHexStrBuf_eq_ok_iff s v).mp hv)
    obtain ⟨hlt, rfl⟩ := (fromBeBytes_eq_ok_iff v f).mp hfelt
    exact ⟨hlen, hdigits, hvalue ▸ hlt, by rw [val_eq_beValue, hvalue]⟩
  · rintro ⟨hlen, hdigits, hlt, hf⟩
    obtain ⟨l, hl, hlen', hvalue⟩ := bytesFromHexStr_of_digits (N := 32) hlen hdigits
    let v : Vector UInt8 32 := ⟨l.toArray, by simpa using hlen'⟩
    have hvl : v.toList = l := by simp [v]
    have hfv : f = ⟨v⟩ := by
      have hbytes : f.bytes = v := Vector.toList_inj.mp
        (beValue_inj (by simp [hvl, hlen']) (by rw [← val_eq_beValue, hf, hvl, hvalue]))
      rcases f with ⟨fb⟩
      simp only at hbytes
      rw [hbytes]
    refine ⟨v, (fromHexStrBuf_eq_ok_iff s v).mpr (by rw [hvl]; exact hl), ?_⟩
    exact (fromBeBytes_eq_ok_iff v f).mpr ⟨by rw [hvl, hvalue]; exact hlt, hfv⟩

theorem toHexStr_eq (f : Felt) : f.toHexStr = some (hexStrOf f.bytes.toList) :=
  bytesToHexStr_eq _

theorem asHexStr_eq {f : Felt} {buf : List UInt8} (hbuf : 66 ≤ buf.length) : f.asHexStr buf = f.toHexStr :=
  bytesAsHexStr_eq (by simpa using hbuf)

theorem fromHexStr_hexStrOf {f : Felt} (hf : f.val < MontFelt.p) :
    fromHexStr (hexStrOf f.bytes.toList) = .ok f := by
  have hlen : ((hexStrOf f.bytes.toList).drop 2).length ≤ 64 := by
    have := length_hexStrOf_le f.bytes.toList
    rw [Vector.length_toList] at this
    omega
  rw [fromHexStr_eq_ok_iff, stripPrefix_hexStrOf, hexValue_hexStrOf, ← val_eq_beValue]
  exact ⟨hlen, fun c hc => isHexDigit_of_mem_hexStrOf hc, hf, rfl⟩

theorem fromHexStr_hexStrOf_of_le {f : Felt} (hf : MontFelt.p ≤ f.val) :
    fromHexStr (hexStrOf f.bytes.toList) = .error .overflow := by
  have h32 := bytesFromHexStr_hexStrOf (show 0 < f.bytes.toList.length by simp)
  rw [Vector.length_toList] at h32
  have hbuf : fromHexStrBuf (hexStrOf f.bytes.toList) = .ok f.bytes :=
    (fromHexStrBuf_eq_ok_iff _ _).mpr h32
  have hover : fromBeBytes f.bytes = .error ⟨⟩ := by
    cases h : fromBeBytes f.bytes with
    | error e => rfl
    | ok g =>
      have hlt := ((fromBeBytes_eq_ok_iff _ g).mp h).1
      rw [← val_eq_beValue] at hlt
      omega
  simp only [fromHexStr, hbuf, hover, bind, Except.bind]
  rfl

theorem fromHexStr_rejects_ofBytes_max :
    MontFelt.p ≤ (ofBytes (Vector.replicate 32 255)).val ∧
      ∃ s, (ofBytes (Vector.replicate 32 255)).toHexStr = some s ∧ fromHexStr s = .error .overflow := by
  have hval : MontFelt.p ≤ (ofBytes (Vector.replicate 32 255)).val := by decide
  exact ⟨hval, _, toHexStr_eq _, fromHexStr_hexStrOf_of_le hval⟩

end Felt

/-- The hex codecs: a felt, and every byte array of at least one byte, read back from the
string it is written as; writing into a large enough buffer gives the same string, with no
leading zero digit but in `0x0`; and each parser accepts exactly the strings of at most two
digits a byte after an optional `0x` (for a felt, of a value below the modulus), returning
their value, as `from_be_bytes` accepts exactly the arrays below the modulus. -/
theorem hexCodecs_spec :
    (∀ f : Felt, f.val < MontFelt.p → ∃ s, f.toHexStr = some s ∧ Felt.fromHexStr s = .ok f) ∧
    (∀ (f : Felt) (buf : List UInt8), 66 ≤ buf.length → f.asHexStr buf = f.toHexStr) ∧
    (∀ f : Felt, ∃ s, f.toHexStr = some s ∧
      (s = [48, 120, 48] ∨ ∃ d ds, s = 48 :: 120 :: d :: ds ∧ d ≠ 48)) ∧
    (∀ (s : List UInt8) (f : Felt), Felt.fromHexStr s = .ok f ↔
      (Serde.stripPrefix s).length ≤ 64 ∧ (∀ c ∈ Serde.stripPrefix s, IsHexDigit c) ∧
      hexValue (Serde.stripPrefix s) < MontFelt.p ∧ f.val = hexValue (Serde.stripPrefix s)) ∧
    (∀ bytes : Vector UInt8 32, (∃ f, Felt.fromBeBytes bytes = .ok f) ↔ beValue bytes.toList < MontFelt.p) ∧
    (∀ (N : ℕ) (b : List UInt8), b.length = N → 0 < N →
      ∃ s, Serde.bytesToHexStr b = some s ∧ Serde.bytesFromHexStr N s = .ok b) ∧
    (∀ b buf : List UInt8, b.length * 2 + 2 ≤ buf.length → Serde.bytesAsHexStr b buf = Serde.bytesToHexStr b) ∧
    (∀ (N : ℕ) (s buf : List UInt8), Serde.bytesFromHexStr N s = .ok buf ↔
      (Serde.stripPrefix s).length ≤ N * 2 ∧ (∀ c ∈ Serde.stripPrefix s, IsHexDigit c) ∧
      buf.length = N ∧ beValue buf = hexValue (Serde.stripPrefix s)) := by
  refine ⟨fun f hf => ⟨_, Felt.toHexStr_eq f, Felt.fromHexStr_hexStrOf hf⟩,
    fun f buf hbuf => Felt.asHexStr_eq hbuf, fun f => ⟨_, Felt.toHexStr_eq f, ?_⟩,
    Felt.fromHexStr_eq_ok_iff, fun bytes => ?_, ?_,
    fun b buf hbuf => Serde.bytesAsHexStr_eq hbuf, Serde.bytesFromHexStr_eq_ok_iff⟩
  · rw [Serde.hexStrOf_eq]
    rcases Serde.hexStrOf_leading f.bytes.toList with h | ⟨d, ds, h, hd⟩
    · exact .inl (by rw [h])
    · exact .inr ⟨d, ds, by rw [h], hd⟩
  · constructor
    · rintro ⟨g, hg⟩
      exact ((Felt.fromBeBytes_eq_ok_iff bytes g).mp hg).1
    · intro h
      exact ⟨⟨bytes⟩, (Felt.fromBeBytes_eq_ok_iff bytes _).mpr ⟨h, rfl⟩⟩
  · rintro N b rfl hpos
    exact ⟨_, Serde.bytesToHexStr_eq b, Serde.bytesFromHexStr_hexStrOf hpos⟩

end Crypto

end Pathfinder
