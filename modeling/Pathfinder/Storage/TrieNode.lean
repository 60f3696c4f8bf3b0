import Pathfinder.Bincode.Standard
import Pathfinder.Bitmap.BitVec
import Pathfinder.Merkle.Tree

/-! The byte encoding of stored trie nodes, `StoredNode::encode` and `StoredNode::decode` of
`connection/trie.rs`, over the two crates they call, taken as parameters with the behaviour the
crates document: `bitvec`'s operations as a `Bitmap.BitVecOps`, and what bincode's standard
configuration does with the `StoredSerde` helper as a `SerdeCodec`. A node becomes the helper,
whose edge paths are the bytes of the aligned path followed by its length as one byte, and is
written into the buffer `insert_trie` reuses for every node. Decoding reads the helper back,
pops the length byte and resizes the path's bits to it. A node whose paths are shorter than
256 bits comes back equal, so the nodes a trie reads from the database are the ones the Merkle
model stores. The models `Bitmap.BitVec` and `Bincode.Standard` of the two crates meet the
laws, which the last theorem uses at a path that does not start at a byte boundary. -/
namespace Pathfinder
namespace Storage

open Bincode

/-- `TrieStorageIndex(u64)`. -/
abbrev TrieStorageIndex := UInt64

/-- `StoredNode`, over the type `B` of its `BitVec<u8, Msb0>` paths. -/
inductive StoredNode (B : Type) where
  | binary (left right : TrieStorageIndex)
  | edge (child : TrieStorageIndex) (path : B)
  | leafBinary
  | leafEdge (path : B)

/-- `StoredSerde`: the helper bincode writes, a path as its bytes. -/
inductive StoredSerde where
  | binary (left right : TrieStorageIndex)
  | edge (child : TrieStorageIndex) (path : List UInt8)
  | leafBinary
  | leafEdge (path : List UInt8)
  deriving DecidableEq, Repr

namespace StoredSerde

def pathLength : StoredSerde → ℕ
  | .edge _ path | .leafEdge path => path.length
  | _ => 0

def PathsFit (s : StoredSerde) : Prop := s.pathLength < 2 ^ 64

end StoredSerde

/-- What the node codec uses of bincode under `config::standard()`. -/
structure SerdeCodec where
  encoding : StoredSerde → List UInt8
  encodeIntoSlice : StoredSerde → List UInt8 → Except EncodeError (List UInt8 × ℕ)
  borrowDecodeFromSlice : List UInt8 → Except DecodeError (StoredSerde × ℕ)
  encodeIntoSlice_of_le : ∀ s dst, (encoding s).length ≤ dst.length →
    encodeIntoSlice s dst = .ok (encoding s ++ dst.drop (encoding s).length, (encoding s).length)
  borrowDecodeFromSlice_encoding : ∀ s, s.PathsFit →
    borrowDecodeFromSlice (encoding s) = .ok (s, (encoding s).length)
  length_encoding_le : ∀ s, (encoding s).length ≤ 19 + s.pathLength

namespace StoredNode

section Codec

variable {B : Type} (bv : Bitmap.BitVecOps B) (bc : SerdeCodec)

def encodePath (path : B) : List UInt8 :=
  let pathLength := UInt8.ofNat (bv.bits path).length
  bv.intoVec (bv.forceAlign path) ++ [pathLength]

def toSerde : StoredNode B → StoredSerde
  | .binary left right => .binary left right
  | .edge child path => .edge child (encodePath bv path)
  | .leafBinary => .leafBinary
  | .leafEdge path => .leafEdge (encodePath bv path)

/-- `StoredNode::encode`. -/
def encode (n : StoredNode B) (buffer : List UInt8) : Except EncodeError (List UInt8 × ℕ) :=
  bc.encodeIntoSlice (toSerde bv n) buffer

def decodePath (path : List UInt8) : Except DecodeError B :=
  match path.getLast? with
  | none => .error (.other "Edge node's path length is missing")
  | some pathLength => .ok (bv.resize (bv.fromVec path.dropLast) pathLength.toNat false)

def fromSerde : StoredSerde → Except DecodeError (StoredNode B)
  | .binary left right => pure (.binary left right)
  | .edge child path => return .edge child (← decodePath bv path)
  | .leafBinary => pure .leafBinary
  | .leafEdge path => return .leafEdge (← decodePath bv path)

/-- `StoredNode::decode`. -/
def decode (data : List UInt8) : Except DecodeError (StoredNode B) := do
  let helper ← bc.borrowDecodeFromSlice data
  fromSerde bv helper.1

/-- `#[derive(PartialEq)]`, paths compared as bit vectors. -/
def beq : StoredNode B → StoredNode B → Bool
  | .binary left right, .binary left' right' => left == left' && right == right'
  | .edge child path, .edge child' path' => child == child' && bv.bits path == bv.bits path'
  | .leafBinary, .leafBinary => true
  | .leafEdge path, .leafEdge path' => bv.bits path == bv.bits path'
  | _, _ => false

def toStored : StoredNode B → Merkle.StoredNode
  | .binary left right => .binary left.toNat right.toNat
  | .edge child path => .edge child.toNat (bv.bits path)
  | .leafBinary => .leafBinary
  | .leafEdge path => .leafEdge (bv.bits path)

def PathsFit : StoredNode B → Prop
  | .edge _ path | .leafEdge path => (bv.bits path).length < 256
  | _ => True

instance : DecidablePred (PathsFit bv) := fun n =>
  match n with
  | .binary .. | .leafBinary => isTrue trivial
  | .edge _ path | .leafEdge path => inferInstanceAs (Decidable ((bv.bits path).length < 256))

theorem beq_iff_toStored_eq (m n : StoredNode B) : beq bv m n = true ↔ toStored bv m = toStored bv n := by
  cases m <;> cases n <;> simp [beq, toStored, ← UInt64.toNat_inj]

@[simp] theorem length_encodePath (path : B) :
    (encodePath bv path).length = ((bv.bits path).length + 7) / 8 + 1 := by
  simp [encodePath, bv.length_intoVec, bv.head_forceAlign, bv.bits_forceAlign]

theorem decodePath_encodePath (path : B) :
    ∃ path', decodePath bv (encodePath bv path) = .ok path' ∧
      bv.bits path' = (bv.bits path).take ((bv.bits path).length % 256) := by
  have hlength : (UInt8.ofNat (bv.bits path).length).toNat = (bv.bits path).length % 256 :=
    UInt8.toNat_ofNat'
  refine ⟨bv.resize (bv.fromVec (bv.intoVec (bv.forceAlign path))) ((bv.bits path).length % 256) false,
    by simp [decodePath, encodePath, hlength], ?_⟩
  exact bv.bits_resize_fromVec_intoVec path (Nat.mod_le _ _) false

theorem pathsFit_toSerde {n : StoredNode B} (hn : PathsFit bv n) : (toSerde bv n).PathsFit := by
  cases n <;> simp only [toSerde, PathsFit, StoredSerde.PathsFit, StoredSerde.pathLength,
    length_encodePath] at hn ⊢ <;> omega

theorem length_encoding_toSerde_le {n : StoredNode B} (hn : PathsFit bv n) :
    (bc.encoding (toSerde bv n)).length ≤ 256 := by
  have hlen := bc.length_encoding_le (toSerde bv n)
  cases n <;> simp only [toSerde, PathsFit, StoredSerde.pathLength, length_encodePath] at hlen hn ⊢ <;>
    omega

theorem fromSerde_toSerde {n : StoredNode B} (hn : PathsFit bv n) :
    ∃ m, fromSerde bv (toSerde bv n) = .ok m ∧ toStored bv m = toStored bv n := by
  cases n with
  | binary left right => exact ⟨_, rfl, rfl⟩
  | leafBinary => exact ⟨_, rfl, rfl⟩
  | edge child path =>
    have hlen : (bv.bits path).length < 256 := hn
    obtain ⟨path', hpath, hbits⟩ := decodePath_encodePath bv path
    refine ⟨.edge child path', by simp [toSerde, fromSerde, hpath], ?_⟩
    rw [toStored, toStored, hbits, Nat.mod_eq_of_lt hlen, List.take_length]
  | leafEdge path =>
    have hlen : (bv.bits path).length < 256 := hn
    obtain ⟨path', hpath, hbits⟩ := decodePath_encodePath bv path
    refine ⟨.leafEdge path', by simp [toSerde, fromSerde, hpath], ?_⟩
    rw [toStored, toStored, hbits, Nat.mod_eq_of_lt hlen, List.take_length]

/-- Stored nodes round-trip: a node whose paths are shorter than 256 bits is written into the
256-byte buffer `insert_trie` uses, whatever it held before, and the bytes written decode to a
node equal to it, which the Merkle tree reads as the same node. -/
theorem decode_encode_eq (n : StoredNode B) (hn : PathsFit bv n) (buffer : List UInt8)
    (hbuffer : buffer.length = 256) :
    ∃ written len, encode bv bc n buffer = .ok (written, len) ∧
      ∃ m, decode bv bc (written.take len) = .ok m ∧ beq bv m n = true ∧ toStored bv m = toStored bv n := by
  have hfits : (bc.encoding (toSerde bv n)).length ≤ buffer.length :=
    hbuffer ▸ length_encoding_toSerde_le bv bc hn
  refine ⟨_, _, bc.encodeIntoSlice_of_le _ _ hfits, ?_⟩
  obtain ⟨m, hm, hstored⟩ := fromSerde_toSerde bv hn
  have hdecode : decode bv bc (bc.encoding (toSerde bv n)) = .ok m := by
    rw [decode, bc.borrowDecodeFromSlice_encoding _ (pathsFit_toSerde bv hn)]
    exact hm
  rw [List.take_left' rfl]
  exact ⟨m, hdecode, (beq_iff_toStored_eq bv m n).mpr hstored, hstored⟩

end Codec

end StoredNode

/-! ### The standard configuration

`#[derive(bincode::Encode, bincode::BorrowDecode)]` on the helper, over the wire format of
`Bincode.Standard`: the variant index as a `u32`, then the fields in order. -/

namespace StoredSerde

def encode : StoredSerde → List UInt8
  | .binary left right => varintEncodeU32 0 ++ varintEncodeU64 left ++ varintEncodeU64 right
  | .edge child path => varintEncodeU32 1 ++ varintEncodeU64 child ++ encodeVec path
  | .leafBinary => varintEncodeU32 2
  | .leafEdge path => varintEncodeU32 3 ++ encodeVec path

def decodeFields : ℕ → Decoder StoredSerde
  | 0 => return .binary (← varintDecodeU64) (← varintDecodeU64)
  | 1 => return .edge (← varintDecodeU64) (← decodeVec)
  | 2 => return .leafBinary
  | 3 => return .leafEdge (← decodeVec)
  | _ => throw .unexpectedVariant

def decode : Decoder StoredSerde := do
  let variantIndex ← varintDecodeU32
  decodeFields variantIndex.toNat

theorem run_decode_varintEncodeU32 (i : UInt32) (rest : List UInt8) :
    decode.run (varintEncodeU32 i ++ rest) = (decodeFields i.toNat).run rest :=
  run_bind_of_run (run_varintDecodeU32 i rest)

theorem run_decode_encode {s : StoredSerde} (hs : s.PathsFit) (rest : List UInt8) :
    decode.run (s.encode ++ rest) = .ok (s, rest) := by
  cases s with
  | binary left right =>
    rw [encode, List.append_assoc, List.append_assoc, run_decode_varintEncodeU32]
    show (decodeFields 0).run _ = _
    rw [decodeFields, run_bind_of_run (run_varintDecodeU64 left _),
      run_bind_of_run (run_varintDecodeU64 right _)]
    rfl
  | edge child path =>
    rw [encode, List.append_assoc, List.append_assoc, run_decode_varintEncodeU32]
    show (decodeFields 1).run _ = _
    rw [decodeFields, run_bind_of_run (run_varintDecodeU64 child _), run_bind_of_run (run_decodeVec hs _)]
    rfl
  | leafBinary =>
    rw [encode, run_decode_varintEncodeU32]
    rfl
  | leafEdge path =>
    rw [encode, List.append_assoc, run_decode_varintEncodeU32]
    show (decodeFields 3).run _ = _
    rw [decodeFields, run_bind_of_run (run_decodeVec hs _)]
    rfl

theorem length_varintEncodeU32_of_lt {i : UInt32} (hi : i.toNat < 4) : (varintEncodeU32 i).length = 1 :=
  length_varintEncode_of_le (by simp only [SINGLE_BYTE_MAX]; omega)

theorem length_encode_le (s : StoredSerde) : s.encode.length ≤ 19 + s.pathLength := by
  have h64 := fun i : UInt64 => length_varintEncode_le i.toNat
  cases s with
  | binary left right =>
    have := h64 left; have := h64 right
    simp only [encode, pathLength, List.length_append,
      length_varintEncodeU32_of_lt (show (0 : UInt32).toNat < 4 by decide), varintEncodeU64]
    omega
  | edge child path =>
    have := h64 child; have := length_encodeVec_le path
    simp only [encode, pathLength, List.length_append,
      length_varintEncodeU32_of_lt (show (1 : UInt32).toNat < 4 by decide), varintEncodeU64]
    omega
  | leafBinary =>
    simp only [encode, pathLength, length_varintEncodeU32_of_lt (show (2 : UInt32).toNat < 4 by decide)]
    omega
  | leafEdge path =>
    have := length_encodeVec_le path
    simp only [encode, pathLength, List.length_append,
      length_varintEncodeU32_of_lt (show (3 : UInt32).toNat < 4 by decide)]
    omega

end StoredSerde

def SerdeCodec.standard : SerdeCodec where
  encoding := StoredSerde.encode
  encodeIntoSlice s dst := Bincode.encodeIntoSlice s.encode dst
  borrowDecodeFromSlice := decodeFromSlice StoredSerde.decode
  encodeIntoSlice_of_le _ _ h := Bincode.encodeIntoSlice_of_le h
  borrowDecodeFromSlice_encoding _ hs := decodeFromSlice_of_run (StoredSerde.run_decode_encode hs [])
  length_encoding_le := StoredSerde.length_encode_le

theorem StoredNode.decode_encode_eq_unaligned :
    StoredNode.PathsFit Bitmap.BitVec.ops (.edge 7 ⟨[180, 192], 3, 6, by decide, by decide⟩) ∧
      (List.replicate 256 (255 : UInt8)).length = 256 ∧
      ∃ written len, StoredNode.encode Bitmap.BitVec.ops SerdeCodec.standard
          (.edge 7 ⟨[180, 192], 3, 6, by decide, by decide⟩) (List.replicate 256 255) = .ok (written, len) ∧
        ∃ m, StoredNode.decode Bitmap.BitVec.ops SerdeCodec.standard (written.take len) = .ok m ∧
          StoredNode.beq Bitmap.BitVec.ops m (.edge 7 ⟨[180, 192], 3, 6, by decide, by decide⟩) = true ∧
          StoredNode.toStored Bitmap.BitVec.ops m =
            StoredNode.toStored Bitmap.BitVec.ops (.edge 7 ⟨[180, 192], 3, 6, by decide, by decide⟩) :=
  ⟨by decide, by rw [List.length_replicate],
    StoredNode.decode_encode_eq _ _ _ (by decide) _ (by rw [List.length_replicate])⟩

end Storage
end Pathfinder
