import Pathfinder.Crypto.Felt
import Pathfinder.Bitmap.Msb

/-! The event Bloom filters of the storage crate. Each block's events go into one
`BloomFilter`; an `AggregateBloom` holds the filters of a range of blocks rotated by 90
degrees, one row per filter bit and one column per block, so that `check` reads the blocks
that may hold a matching event by AND-ing and OR-ing rows. The filter of the `bloomfilter`
crate is taken as the bytes of its bit vector, most significant bit first, with its seeded
hash functions as a parameter. The filter has no false negatives: every block with a
matching event is among the blocks `check` returns, also after the bitmap has been
compressed and read back. -/
namespace Pathfinder
namespace Storage

open Crypto Bitmap

/-- `AGGREGATE_BLOOM_BLOCK_RANGE_LEN` outside tests. -/
def AGGREGATE_BLOOM_BLOCK_RANGE_LEN : ℕ := 8192

/-- `AggregateBloom::BLOCK_RANGE_BYTES`. -/
def BLOCK_RANGE_BYTES : ℕ := AGGREGATE_BLOOM_BLOCK_RANGE_LEN / 8

/-- `BloomFilter::BITVEC_LEN`. -/
def BITVEC_LEN : ℕ := 16384

/-- `BloomFilter::BITVEC_BYTES`. -/
def BITVEC_BYTES : ℕ := BITVEC_LEN / 8

/-- `EVENT_KEY_FILTER_LIMIT`. -/
def EVENT_KEY_FILTER_LIMIT : ℕ := 16

/-- `Event` of the common crate; addresses and keys are felts. -/
structure Event where
  data : List Felt
  fromAddress : Felt
  keys : List Felt
  deriving DecidableEq

/-- The fields of `EventConstraints` that `check` reads. -/
structure EventConstraints where
  contractAddress : Option Felt
  keys : List (List Felt)
  deriving DecidableEq

def EventConstraints.Matches (c : EventConstraints) (e : Event) : Prop :=
  (∀ a, c.contractAddress = some a → e.fromAddress = a) ∧
  ∀ (i : ℕ) (g : List Felt), c.keys[i]? = some g → g ≠ [] → ∃ k ∈ g, e.keys[i]? = some k

def keyWithIdx (key : Felt) (idx : ℕ) : Felt :=
  ⟨key.bytes.set! 0 (key.bytes[0]! ||| (idx.toUInt8 <<< 4))⟩

/-- `BloomFilter`: the bytes of the crate's bit vector, as `bit_vec().to_bytes()` gives them. -/
structure BloomFilter where
  bytes : List UInt8
  deriving DecidableEq

/-- `BlockRange`: one bit per block of an aggregate's range, most significant bit first. -/
structure BlockRange where
  bytes : List UInt8
  deriving DecidableEq

/-- `AggregateBloom`. -/
structure AggregateBloom where
  bitmap : List UInt8
  fromBlock : ℕ
  toBlock : ℕ
  toBlock_eq : toBlock = fromBlock + AGGREGATE_BLOOM_BLOCK_RANGE_LEN - 1
  length_bitmap : bitmap.length = BLOCK_RANGE_BYTES * BITVEC_LEN

/-- zstd's bulk API as the filters use it; `none` is a failure, on which the callers panic. -/
structure Codec where
  compress : List UInt8 → Option (List UInt8)
  decompress : List UInt8 → ℕ → Option (List UInt8)

def Codec.RoundTrips (z : Codec) : Prop :=
  ∀ data, ∃ c, z.compress data = some c ∧ ∀ cap, data.length ≤ cap → z.decompress c cap = some data

section Filter
variable (hashes : Felt → List ℕ)

/-- `BloomFilter::new`: every bit clear. -/
def BloomFilter.new : BloomFilter := ⟨List.replicate BITVEC_BYTES 0⟩

/-- `BloomFilter::set`: the crate sets the bits its seeded hash functions give the key. -/
def BloomFilter.set (bloom : BloomFilter) (key : Felt) : BloomFilter :=
  ⟨(hashes key).foldl setMsb bloom.bytes⟩

/-- `bit_vec().iter()`: the bits, first to last. -/
def BloomFilter.bitVec (bloom : BloomFilter) : List Bool :=
  (List.range (8 * bloom.bytes.length)).map (msbBit bloom.bytes)

/-- `BloomFilter::indices_for_key`: the bits an empty filter has once the key is set. -/
def indicesForKey (key : Felt) : List ℕ :=
  (((BloomFilter.new.set hashes key).bitVec.zipIdx).filter (·.1)).map (·.2)

/-- `BloomFilter::set_address`. -/
def BloomFilter.setAddress (bloom : BloomFilter) (address : Felt) : BloomFilter :=
  bloom.set hashes address

/-- `BloomFilter::set_keys`: the first `EVENT_KEY_FILTER_LIMIT` keys, each with its position. -/
def BloomFilter.setKeys (bloom : BloomFilter) (keys : List Felt) : BloomFilter :=
  ((keys.take EVENT_KEY_FILTER_LIMIT).zipIdx).foldl (fun bloom p => bloom.set hashes (keyWithIdx p.1 p.2))
    bloom

def eventsBloom (events : List Event) : BloomFilter :=
  events.foldl (fun bloom e => (bloom.setKeys hashes e.keys).setAddress hashes e.fromAddress) .new

end Filter

section Range

/-- `BlockRange::EMPTY`. -/
def BlockRange.EMPTY : BlockRange := ⟨List.replicate BLOCK_RANGE_BYTES 0⟩

/-- `BlockRange::FULL`. -/
def BlockRange.FULL : BlockRange := ⟨List.replicate BLOCK_RANGE_BYTES 255⟩

/-- `BlockRange::copy_from_slice`. -/
def BlockRange.copyFromSlice (s : List UInt8) : BlockRange := ⟨s⟩

/-- `BitAnd` of block ranges, byte by byte. -/
def BlockRange.and (a b : BlockRange) : BlockRange := ⟨List.zipWith (· &&& ·) a.bytes b.bytes⟩

/-- `BitOr` of block ranges, byte by byte. -/
def BlockRange.or (a b : BlockRange) : BlockRange := ⟨List.zipWith (· ||| ·) a.bytes b.bytes⟩

/-- `BlockRange::iter_val`: the offsets whose bit is `val`. -/
def BlockRange.iterVal (r : BlockRange) (val : Bool) : List ℕ :=
  r.bytes.zipIdx.flatMap fun p => (List.range 8).filterMap fun bitIdx =>
    if (p.1 >>> (7 - bitIdx).toUInt8) &&& 1 == val.toUInt8 then some (p.2 * 8 + bitIdx) else none

/-- `BlockRange::iter_ones`. -/
def BlockRange.iterOnes (r : BlockRange) : List ℕ := r.iterVal true

end Range

section Aggregate
variable (hashes : Felt → List ℕ)

/-- `AggregateBloom::new`. -/
def AggregateBloom.new (fromBlock : ℕ) : AggregateBloom :=
  ⟨List.replicate (BLOCK_RANGE_BYTES * BITVEC_LEN) 0,fromBlock,
    fromBlock + AGGREGATE_BLOOM_BLOCK_RANGE_LEN - 1,rfl,List.length_replicate⟩

/-- `AggregateBloom::from_parts`, none where one of its asserts fails. -/
def AggregateBloom.fromParts (fromBlock toBlock : ℕ) (bitmap : List UInt8) : Option AggregateBloom :=
  if h : fromBlock + AGGREGATE_BLOOM_BLOCK_RANGE_LEN - 1 = toBlock ∧
      bitmap.length = BLOCK_RANGE_BYTES * BITVEC_LEN then
    some ⟨bitmap,fromBlock,toBlock,h.1.symm,h.2⟩
  else none

/-- `AggregateBloom::compress_bitmap`. -/
def AggregateBloom.compressBitmap (z : Codec) (agg : AggregateBloom) : Option (List UInt8) :=
  z.compress agg.bitmap

/-- `AggregateBloom::from_existing_compressed`. -/
def AggregateBloom.fromExistingCompressed (z : Codec) (fromBlock toBlock : ℕ)
    (compressed : List UInt8) : Option AggregateBloom := do
  let bitmap ← z.decompress compressed (BLOCK_RANGE_BYTES * BITVEC_LEN)
  AggregateBloom.fromParts fromBlock toBlock bitmap

def insertByte (byteIdx bitIdx : ℕ) (bitmap : List UInt8) (i : ℕ) (bloomByte : UInt8) : List UInt8 :=
  (List.range 8).foldl (fun bitmap offset =>
    bitmap.modify ((8 * i + offset) * BLOCK_RANGE_BYTES + byteIdx)
      (· ||| (((bloomByte >>> (7 - offset).toUInt8) &&& 1) <<< (7 - bitIdx).toUInt8))) bitmap

def insertBitmap (rel : ℕ) (bitmap bloomBytes : List UInt8) : List UInt8 :=
  ((bloomBytes.zipIdx).filter (·.1 ≠ 0)).foldl (fun bitmap p => insertByte (rel / 8) (rel % 8) bitmap p.2 p.1)
    bitmap

theorem length_insertByte (byteIdx bitIdx : ℕ) (bitmap : List UInt8) (i : ℕ) (b : UInt8) :
    (insertByte byteIdx bitIdx bitmap i b).length = bitmap.length :=
  foldl_invariant (fun bm : List UInt8 => bm.length = bitmap.length) _ _
    (fun _ _ _ h => (List.length_modify _ _ _).trans h) _ rfl

theorem length_insertBitmap (rel : ℕ) (bitmap bloomBytes : List UInt8) :
    (insertBitmap rel bitmap bloomBytes).length = bitmap.length :=
  foldl_invariant (fun bm : List UInt8 => bm.length = bitmap.length) _ _
    (fun _ _ _ h => (length_insertByte _ _ _ _ _).trans h) _ rfl

/-- `AggregateBloom::insert`, none where one of its asserts fails. -/
def AggregateBloom.insert (agg : AggregateBloom) (bloom : BloomFilter) (blockNumber : ℕ) :
    Option AggregateBloom :=
  if agg.fromBlock ≤ blockNumber ∧ blockNumber ≤ agg.toBlock ∧ bloom.bytes.length = BITVEC_BYTES then
    some { agg with
      bitmap := insertBitmap (blockNumber - agg.fromBlock) agg.bitmap bloom.bytes
      length_bitmap := (length_insertBitmap _ _ _).trans agg.length_bitmap }
  else none

/-- `matches_for_key` of `AggregateBloom::blocks_for_keys`: the key's rows AND-ed. -/
def AggregateBloom.matchesForKey (agg : AggregateBloom) (k : Felt) : BlockRange :=
  (indicesForKey hashes k).foldl (fun matchesForKey rowIdx => matchesForKey.and (.copyFromSlice
    ((agg.bitmap.drop (rowIdx * BLOCK_RANGE_BYTES)).take BLOCK_RANGE_BYTES))) .FULL

/-- `AggregateBloom::blocks_for_keys`: the blocks whose filter may hold one of the keys. -/
def AggregateBloom.blocksForKeys (agg : AggregateBloom) (keys : List Felt) : BlockRange :=
  if keys.isEmpty then .FULL else
  keys.foldl (fun blockMatches k => blockMatches.or (agg.matchesForKey hashes k)) .EMPTY

/-- `AggregateBloom::check_address`. -/
def AggregateBloom.checkAddress (agg : AggregateBloom) (address : Option Felt) : BlockRange :=
  match address with
  | some addr => agg.blocksForKeys hashes [addr]
  | none => .FULL

def AggregateBloom.checkKeysLoop (agg : AggregateBloom) : List (List Felt × ℕ) → BlockRange → BlockRange
  | [], result => result
  | (keyGroup,idx) :: rest, result =>
    if agg.blocksForKeys hashes (keyGroup.map (keyWithIdx · idx)) = .EMPTY then .EMPTY
    else agg.checkKeysLoop rest (result.and (agg.blocksForKeys hashes (keyGroup.map (keyWithIdx · idx))))

/-- `AggregateBloom::check_keys`: no key groups or an empty one match every block. -/
def AggregateBloom.checkKeys (agg : AggregateBloom) (keys : List (List Felt)) : BlockRange :=
  if keys.isEmpty || keys.any List.isEmpty then .FULL else agg.checkKeysLoop hashes keys.zipIdx .FULL

/-- `AggregateBloom::check`: the block numbers that may hold an event meeting the constraints. -/
def AggregateBloom.check (agg : AggregateBloom) (constraints : EventConstraints) : List ℕ :=
  ((agg.checkAddress hashes constraints.contractAddress).and
    (agg.checkKeys hashes constraints.keys)).iterOnes.map (agg.fromBlock + ·)

/-- `AggregateBloom::new` followed by `insert` of each block's filter, in the given order. -/
def insertBlocks (agg : AggregateBloom) (blocks : List (ℕ × List Event)) : Option AggregateBloom :=
  blocks.foldlM (fun agg p => agg.insert (eventsBloom hashes p.2) p.1) agg

def AggregateBloom.Complete (agg : AggregateBloom) (blocks : List (ℕ × List Event)) : Prop :=
  ∀ c : EventConstraints, c.keys.length ≤ EVENT_KEY_FILTER_LIMIT → ∀ b events, (b,events) ∈ blocks →
    ∀ e ∈ events, c.Matches e → b ∈ agg.check hashes c

end Aggregate

section FilterSpec
variable {hashes : Felt → List ℕ}

theorem length_set (bloom : BloomFilter) (key : Felt) :
    (bloom.set hashes key).bytes.length = bloom.bytes.length :=
  foldl_invariant (fun bytes : List UInt8 => bytes.length = bloom.bytes.length) _ _
    (fun _ _ _ h => (length_setMsb _ _).trans h) _ rfl

theorem msbBit_set (bloom : BloomFilter) (key : Felt) (j : ℕ) :
    msbBit (bloom.set hashes key).bytes j =
      (msbBit bloom.bytes j || (decide (j ∈ hashes key) && decide (j / 8 < bloom.bytes.length))) := by
  have h := foldl_sets msbBit (fun h j => decide (j = h) && decide (h / 8 < bloom.bytes.length))
    (fun bytes : List UInt8 => bytes.length = bloom.bytes.length) setMsb (hashes key)
    (fun _ _ _ h => (length_setMsb _ _).trans h) ?_ bloom.bytes rfl j
  · rw [BloomFilter.set,h]
    congr 1
    rw [Bool.eq_iff_iff]
    simp [List.any_eq_true]
  · intro acc h _ hl n
    by_cases hh : h / 8 < bloom.bytes.length
    · rw [msbBit_setMsb (hl ▸ hh)]
      simp [hh]
    · rw [setMsb_of_length_le (by omega)]
      simp [hh]

theorem length_setKeys (bloom : BloomFilter) (keys : List Felt) :
    (bloom.setKeys hashes keys).bytes.length = bloom.bytes.length :=
  foldl_invariant (fun b : BloomFilter => b.bytes.length = bloom.bytes.length) _ _
    (fun _ _ _ h => (length_set _ _).trans h) _ rfl

theorem msbBit_setKeys (bloom : BloomFilter) (keys : List Felt) (j : ℕ) :
    msbBit (bloom.setKeys hashes keys).bytes j = (msbBit bloom.bytes j ||
      ((keys.take EVENT_KEY_FILTER_LIMIT).zipIdx.any fun p =>
        decide (j ∈ hashes (keyWithIdx p.1 p.2)) && decide (j / 8 < bloom.bytes.length))) := by
  have h := foldl_sets (fun b j => msbBit b.bytes j)
    (fun p j => decide (j ∈ hashes (keyWithIdx p.1 p.2)) && decide (j / 8 < bloom.bytes.length))
    (fun b : BloomFilter => b.bytes.length = bloom.bytes.length)
    (fun b p => b.set hashes (keyWithIdx p.1 p.2)) ((keys.take EVENT_KEY_FILTER_LIMIT).zipIdx)
    (fun _ _ _ h => (length_set _ _).trans h) (fun acc _ _ h n => by rw [msbBit_set,h]) bloom rfl j
  rw [BloomFilter.setKeys]
  exact h

theorem length_eventsBloom (events : List Event) : (eventsBloom hashes events).bytes.length = BITVEC_BYTES :=
  foldl_invariant (fun b : BloomFilter => b.bytes.length = BITVEC_BYTES) _ _
    (fun _ _ _ h => by simp only [BloomFilter.setAddress,length_set,length_setKeys,h]) _
    List.length_replicate

theorem msbBit_eventsBloom (events : List Event) (j : ℕ) :
    msbBit (eventsBloom hashes events).bytes j = events.any fun e =>
      (((e.keys.take EVENT_KEY_FILTER_LIMIT).zipIdx.any fun p =>
        decide (j ∈ hashes (keyWithIdx p.1 p.2)) && decide (j / 8 < BITVEC_BYTES)) ||
        (decide (j ∈ hashes e.fromAddress) && decide (j / 8 < BITVEC_BYTES))) := by
  have h := foldl_sets (fun b j => msbBit b.bytes j) (fun e j =>
      ((e.keys.take EVENT_KEY_FILTER_LIMIT).zipIdx.any fun p =>
        decide (j ∈ hashes (keyWithIdx p.1 p.2)) && decide (j / 8 < BITVEC_BYTES)) ||
        (decide (j ∈ hashes e.fromAddress) && decide (j / 8 < BITVEC_BYTES)))
    (fun b : BloomFilter => b.bytes.length = BITVEC_BYTES)
    (fun bloom e => (bloom.setKeys hashes e.keys).setAddress hashes e.fromAddress) events
    (fun _ _ _ h => by simp only [BloomFilter.setAddress,length_set,length_setKeys,h]) ?_ .new
    List.length_replicate j
  · rw [eventsBloom,h]
    simp [BloomFilter.new]
  · intro acc e _ h n
    rw [BloomFilter.setAddress,msbBit_set,msbBit_setKeys,length_setKeys,h,Bool.or_assoc]

theorem eventsBloom_of_mem {events : List Event} {e : Event} (he : e ∈ events) {j : ℕ}
    (hj : j < BITVEC_LEN) :
    (j ∈ hashes e.fromAddress → msbBit (eventsBloom hashes events).bytes j = true) ∧
    ∀ i k, e.keys[i]? = some k → i < EVENT_KEY_FILTER_LIMIT → j ∈ hashes (keyWithIdx k i) →
      msbBit (eventsBloom hashes events).bytes j = true := by
  have hj8 : j / 8 < BITVEC_BYTES := by simp only [BITVEC_BYTES,BITVEC_LEN] at hj ⊢; omega
  refine ⟨fun ha => ?_,fun i k hk hi hkj => ?_⟩
  · rw [msbBit_eventsBloom,List.any_eq_true]
    exact ⟨e,he,by simp [ha,hj8]⟩
  · rw [msbBit_eventsBloom,List.any_eq_true]
    refine ⟨e,he,Bool.or_eq_true_iff.mpr (.inl (List.any_eq_true.mpr ⟨(k,i),?_,by simp [hkj,hj8]⟩))⟩
    rw [List.mem_zipIdx_iff_getElem?,List.getElem?_take,if_pos hi]
    simpa using hk

theorem mem_ones_bitVec (bloom : BloomFilter) (row : ℕ) :
    row ∈ ((bloom.bitVec.zipIdx).filter (·.1)).map (·.2) ↔
      row < 8 * bloom.bytes.length ∧ msbBit bloom.bytes row = true := by
  simp only [List.mem_map,List.mem_filter,Prod.exists,exists_eq_right,
    List.mem_zipIdx_iff_getElem?,BloomFilter.bitVec,List.getElem?_map]
  by_cases h : row < 8 * bloom.bytes.length <;> simp [h]

theorem mem_indicesForKey {key : Felt} {row : ℕ} :
    row ∈ indicesForKey hashes key ↔ row ∈ hashes key ∧ row < BITVEC_LEN := by
  have hl : (BloomFilter.new.set hashes key).bytes.length = BITVEC_BYTES :=
    (length_set _ _).trans List.length_replicate
  rw [indicesForKey,mem_ones_bitVec,hl,msbBit_set]
  simp only [BloomFilter.new,msbBit_replicate_zero,List.length_replicate,Bool.false_or,
    Bool.and_eq_true,decide_eq_true_eq]
  simp only [BITVEC_BYTES,BITVEC_LEN]
  exact ⟨fun ⟨_,h2,_⟩ => ⟨h2,by omega⟩,fun ⟨h1,h2⟩ => ⟨by omega,h1,by omega⟩⟩

end FilterSpec

section AggregateSpec

def AggregateBloom.bit (agg : AggregateBloom) (row col : ℕ) : Bool :=
  msbBit agg.bitmap (row * AGGREGATE_BLOOM_BLOCK_RANGE_LEN + col)

theorem msbBit_insertByte {bitmap : List UInt8} (hb : bitmap.length = BLOCK_RANGE_BYTES * BITVEC_LEN)
    {byteIdx bitIdx i : ℕ} (hby : byteIdx < BLOCK_RANGE_BYTES) (hbi : bitIdx < 8) (hi : i < BITVEC_BYTES)
    (v : UInt8) (n : ℕ) :
    msbBit (insertByte byteIdx bitIdx bitmap i v) n = (msbBit bitmap n ||
      (decide (n % AGGREGATE_BLOOM_BLOCK_RANGE_LEN = 8 * byteIdx + bitIdx) &&
        decide (n / AGGREGATE_BLOOM_BLOCK_RANGE_LEN / 8 = i) && bitMsb v (n / AGGREGATE_BLOOM_BLOCK_RANGE_LEN % 8))) := by
  have h := foldl_sets msbBit (fun offset n => decide (n / 8 = (8 * i + offset) * BLOCK_RANGE_BYTES + byteIdx) &&
      (decide (n % 8 = bitIdx) && bitMsb v offset))
    (fun bm : List UInt8 => bm.length = bitmap.length) (fun bitmap offset =>
      bitmap.modify ((8 * i + offset) * BLOCK_RANGE_BYTES + byteIdx)
        (· ||| (((v >>> (7 - offset).toUInt8) &&& 1) <<< (7 - bitIdx).toUInt8))) (List.range 8)
    (fun _ _ _ h => (List.length_modify _ _ _).trans h) ?_ bitmap rfl n
  · rw [insertByte,h]
    congr 1
    rw [Bool.eq_iff_iff]
    simp only [List.any_eq_true,List.mem_range,Bool.and_eq_true,decide_eq_true_eq]
    simp only [BLOCK_RANGE_BYTES,AGGREGATE_BLOOM_BLOCK_RANGE_LEN] at hby ⊢
    constructor
    · rintro ⟨o,ho,h1,h2,h3⟩
      have hr : n / 8192 % 8 = o := by omega
      exact ⟨⟨by omega,by omega⟩,hr ▸ h3⟩
    · rintro ⟨⟨h1,h2⟩,h3⟩
      exact ⟨n / 8192 % 8,by omega,by omega,by omega,h3⟩
  · intro acc o ho hl m
    have hm : (8 * i + o) * BLOCK_RANGE_BYTES + byteIdx < acc.length := by
      rw [hl,hb]
      simp only [List.mem_range] at ho
      simp only [BLOCK_RANGE_BYTES,AGGREGATE_BLOOM_BLOCK_RANGE_LEN,BITVEC_BYTES,BITVEC_LEN] at hby hi ⊢
      omega
    rw [msbBit_modify_or hm,bitMsb_and_one_shiftLeft _ hbi (Nat.mod_lt _ (by omega))]
    rfl

theorem msbBit_insertBitmap {bitmap bloomBytes : List UInt8}
    (hb : bitmap.length = BLOCK_RANGE_BYTES * BITVEC_LEN) (hbb : bloomBytes.length = BITVEC_BYTES)
    {rel : ℕ} (hrel : rel < AGGREGATE_BLOOM_BLOCK_RANGE_LEN) (n : ℕ) :
    msbBit (insertBitmap rel bitmap bloomBytes) n = (msbBit bitmap n ||
      (decide (n % AGGREGATE_BLOOM_BLOCK_RANGE_LEN = rel) &&
        msbBit bloomBytes (n / AGGREGATE_BLOOM_BLOCK_RANGE_LEN))) := by
  have hby : rel / 8 < BLOCK_RANGE_BYTES := by
    simp only [BLOCK_RANGE_BYTES,AGGREGATE_BLOOM_BLOCK_RANGE_LEN] at hrel ⊢
    omega
  have h := foldl_sets msbBit (fun (p : UInt8 × ℕ) n =>
      decide (n % AGGREGATE_BLOOM_BLOCK_RANGE_LEN = 8 * (rel / 8) + rel % 8) &&
        decide (n / AGGREGATE_BLOOM_BLOCK_RANGE_LEN / 8 = p.2) && bitMsb p.1 (n / AGGREGATE_BLOOM_BLOCK_RANGE_LEN % 8))
    (fun bm : List UInt8 => bm.length = bitmap.length)
    (fun bitmap p => insertByte (rel / 8) (rel % 8) bitmap p.2 p.1) ((bloomBytes.zipIdx).filter (·.1 ≠ 0))
    (fun _ _ _ h => (length_insertByte _ _ _ _ _).trans h) ?_ bitmap rfl n
  · rw [insertBitmap,h,List.any_filter]
    congr 1
    have hr : 8 * (rel / 8) + rel % 8 = rel := by omega
    rw [hr,Bool.eq_iff_iff]
    simp only [List.any_eq_true,Prod.exists,List.mem_zipIdx_iff_getElem?,Bool.and_eq_true,
      decide_eq_true_eq,msbBit,List.getD_eq_getElem?_getD]
    cases hx : bloomBytes[n / AGGREGATE_BLOOM_BLOCK_RANGE_LEN / 8]? with
    | none =>
      simp only [Option.getD_none,bitMsb_zero,Bool.false_eq_true,and_false,iff_false]
      rintro ⟨a,i,hi,-,⟨-,rfl⟩,-⟩
      rw [hx] at hi
      cases hi
    | some a =>
      simp only [Option.getD_some]
      constructor
      · rintro ⟨a',i,hi,-,⟨h1,rfl⟩,h3⟩
        rw [hx,Option.some.injEq] at hi
        exact ⟨h1,hi ▸ h3⟩
      · rintro ⟨h1,h3⟩
        refine ⟨a,_,hx,fun ha => ?_,⟨h1,rfl⟩,h3⟩
        rw [ha,bitMsb_zero] at h3
        cases h3
  · intro acc p hp hl m
    have hi : p.2 < BITVEC_BYTES := by
      have := (List.mem_zipIdx (List.mem_filter.mp hp).1).2.1
      omega
    exact msbBit_insertByte (hl.trans hb) hby (Nat.mod_lt _ (by omega)) hi _ _

theorem AggregateBloom.insert_spec {agg agg' : AggregateBloom} {bloom : BloomFilter} {b : ℕ}
    (h : agg.insert bloom b = some agg') :
    agg'.fromBlock = agg.fromBlock ∧ ∀ row col, col < AGGREGATE_BLOOM_BLOCK_RANGE_LEN →
      agg'.bit row col = (agg.bit row col || (decide (col = b - agg.fromBlock) && msbBit bloom.bytes row)) := by
  unfold AggregateBloom.insert at h
  split_ifs at h with hc
  cases h
  refine ⟨rfl,fun row col hcol => ?_⟩
  have hrel : b - agg.fromBlock < AGGREGATE_BLOOM_BLOCK_RANGE_LEN := by
    have := agg.toBlock_eq
    simp only [AGGREGATE_BLOOM_BLOCK_RANGE_LEN] at this ⊢
    omega
  have hmod : (row * AGGREGATE_BLOOM_BLOCK_RANGE_LEN + col) % AGGREGATE_BLOOM_BLOCK_RANGE_LEN = col := by
    simp only [AGGREGATE_BLOOM_BLOCK_RANGE_LEN] at hcol ⊢
    omega
  have hdiv : (row * AGGREGATE_BLOOM_BLOCK_RANGE_LEN + col) / AGGREGATE_BLOOM_BLOCK_RANGE_LEN = row := by
    simp only [AGGREGATE_BLOOM_BLOCK_RANGE_LEN] at hcol ⊢
    omega
  simp only [AggregateBloom.bit]
  rw [msbBit_insertBitmap agg.length_bitmap hc.2.2 hrel,hmod,hdiv]

theorem AggregateBloom.insert_isSome {agg : AggregateBloom} {bloom : BloomFilter} {b : ℕ}
    (h1 : agg.fromBlock ≤ b) (h2 : b ≤ agg.toBlock) (hl : bloom.bytes.length = BITVEC_BYTES) :
    ∃ agg', agg.insert bloom b = some agg' :=
  ⟨_,if_pos ⟨h1,h2,hl⟩⟩

end AggregateSpec

section QuerySpec
variable {hashes : Felt → List ℕ}

@[simp] theorem length_FULL : BlockRange.FULL.bytes.length = BLOCK_RANGE_BYTES := List.length_replicate
@[simp] theorem length_EMPTY : BlockRange.EMPTY.bytes.length = BLOCK_RANGE_BYTES := List.length_replicate

theorem length_and {a b : BlockRange} (ha : a.bytes.length = BLOCK_RANGE_BYTES)
    (hb : b.bytes.length = BLOCK_RANGE_BYTES) : (a.and b).bytes.length = BLOCK_RANGE_BYTES := by
  simp [BlockRange.and,ha,hb]

theorem length_or {a b : BlockRange} (ha : a.bytes.length = BLOCK_RANGE_BYTES)
    (hb : b.bytes.length = BLOCK_RANGE_BYTES) : (a.or b).bytes.length = BLOCK_RANGE_BYTES := by
  simp [BlockRange.or,ha,hb]

theorem BlockRange.msbBit_and {a b : BlockRange} (h : a.bytes.length = b.bytes.length) (n : ℕ) :
    msbBit (a.and b).bytes n = (msbBit a.bytes n && msbBit b.bytes n) :=
  Bitmap.msbBit_and h n

theorem BlockRange.msbBit_or {a b : BlockRange} (h : a.bytes.length = b.bytes.length) (n : ℕ) :
    msbBit (a.or b).bytes n = (msbBit a.bytes n || msbBit b.bytes n) :=
  Bitmap.msbBit_or h n

theorem msbBit_FULL {col : ℕ} (h : col < AGGREGATE_BLOOM_BLOCK_RANGE_LEN) : msbBit BlockRange.FULL.bytes col = true :=
  msbBit_replicate_max (by simp only [BLOCK_RANGE_BYTES,AGGREGATE_BLOOM_BLOCK_RANGE_LEN] at h ⊢; omega)

@[simp] theorem msbBit_EMPTY (col : ℕ) : msbBit BlockRange.EMPTY.bytes col = false :=
  msbBit_replicate_zero _ _

theorem AggregateBloom.length_row (agg : AggregateBloom) {row : ℕ} (h : row < BITVEC_LEN) :
    ((agg.bitmap.drop (row * BLOCK_RANGE_BYTES)).take BLOCK_RANGE_BYTES).length = BLOCK_RANGE_BYTES := by
  simp only [List.length_take,List.length_drop,agg.length_bitmap]
  simp only [BLOCK_RANGE_BYTES,AGGREGATE_BLOOM_BLOCK_RANGE_LEN,BITVEC_LEN] at h ⊢
  omega

theorem AggregateBloom.msbBit_row (agg : AggregateBloom) (row : ℕ) {col : ℕ}
    (h : col < AGGREGATE_BLOOM_BLOCK_RANGE_LEN) :
    msbBit ((agg.bitmap.drop (row * BLOCK_RANGE_BYTES)).take BLOCK_RANGE_BYTES) col = agg.bit row col := by
  have hc : col / 8 < BLOCK_RANGE_BYTES := by
    simp only [BLOCK_RANGE_BYTES,AGGREGATE_BLOOM_BLOCK_RANGE_LEN] at h ⊢
    omega
  rw [msbBit_drop_take _ _ _ hc,AggregateBloom.bit]
  congr 1
  simp only [BLOCK_RANGE_BYTES,AGGREGATE_BLOOM_BLOCK_RANGE_LEN]
  ring

theorem AggregateBloom.matchesForKey_spec (agg : AggregateBloom) (k : Felt) :
    (agg.matchesForKey hashes k).bytes.length = BLOCK_RANGE_BYTES ∧
      ∀ col < AGGREGATE_BLOOM_BLOCK_RANGE_LEN, msbBit (agg.matchesForKey hashes k).bytes col =
        (indicesForKey hashes k).all fun row => agg.bit row col := by
  have hrow : ∀ row ∈ indicesForKey hashes k, row < BITVEC_LEN := fun _ h => (mem_indicesForKey.mp h).2
  have hI : ∀ (acc : BlockRange), ∀ row ∈ indicesForKey hashes k, acc.bytes.length = BLOCK_RANGE_BYTES →
      (acc.and (.copyFromSlice ((agg.bitmap.drop (row * BLOCK_RANGE_BYTES)).take BLOCK_RANGE_BYTES))).bytes.length =
        BLOCK_RANGE_BYTES := fun _ row hr h => length_and h (agg.length_row (hrow row hr))
  rw [AggregateBloom.matchesForKey]
  refine ⟨foldl_invariant (fun acc : BlockRange => acc.bytes.length = BLOCK_RANGE_BYTES)
    (fun m rowIdx => m.and (.copyFromSlice ((agg.bitmap.drop (rowIdx * BLOCK_RANGE_BYTES)).take BLOCK_RANGE_BYTES)))
    (indicesForKey hashes k) hI .FULL length_FULL,fun col hcol => ?_⟩
  have h := foldl_keeps (fun r n => msbBit r.bytes n)
    (fun row n => msbBit ((agg.bitmap.drop (row * BLOCK_RANGE_BYTES)).take BLOCK_RANGE_BYTES) n)
    (fun acc : BlockRange => acc.bytes.length = BLOCK_RANGE_BYTES)
    (fun m rowIdx => m.and (.copyFromSlice ((agg.bitmap.drop (rowIdx * BLOCK_RANGE_BYTES)).take BLOCK_RANGE_BYTES)))
    (indicesForKey hashes k) hI
    (fun acc row hr h n => BlockRange.msbBit_and (h.trans (agg.length_row (hrow row hr)).symm) n)
    .FULL length_FULL col
  rw [h,msbBit_FULL hcol,Bool.true_and]
  simp only [agg.msbBit_row _ hcol]

theorem AggregateBloom.blocksForKeys_spec (agg : AggregateBloom) (keys : List Felt) :
    (agg.blocksForKeys hashes keys).bytes.length = BLOCK_RANGE_BYTES ∧
      ∀ col < AGGREGATE_BLOOM_BLOCK_RANGE_LEN, msbBit (agg.blocksForKeys hashes keys).bytes col =
        (keys.isEmpty || keys.any fun k => (indicesForKey hashes k).all fun row => agg.bit row col) := by
  unfold AggregateBloom.blocksForKeys
  by_cases he : keys.isEmpty
  · simp only [he,if_true,Bool.true_or]
    exact ⟨length_FULL,fun col hcol => msbBit_FULL hcol⟩
  · simp only [he,Bool.false_eq_true,↓reduceIte,Bool.false_or]
    have hm : ∀ k, (agg.matchesForKey hashes k).bytes.length = BLOCK_RANGE_BYTES :=
      fun k => (agg.matchesForKey_spec k).1
    have hI : ∀ (acc : BlockRange), ∀ k ∈ keys, acc.bytes.length = BLOCK_RANGE_BYTES →
        (acc.or (agg.matchesForKey hashes k)).bytes.length = BLOCK_RANGE_BYTES :=
      fun _ k _ h => length_or h (hm k)
    refine ⟨foldl_invariant (fun acc : BlockRange => acc.bytes.length = BLOCK_RANGE_BYTES)
      (fun bm k => bm.or (agg.matchesForKey hashes k)) keys hI .EMPTY length_EMPTY,fun col hcol => ?_⟩
    have hf : ∀ (acc : BlockRange), ∀ k ∈ keys, acc.bytes.length = BLOCK_RANGE_BYTES → ∀ n,
        msbBit (acc.or (agg.matchesForKey hashes k)).bytes n =
          (msbBit acc.bytes n || msbBit (agg.matchesForKey hashes k).bytes n) :=
      fun acc k _ h n => BlockRange.msbBit_or (h.trans (hm k).symm) n
    have h := @foldl_sets Felt BlockRange (fun r n => msbBit r.bytes n)
      (fun k n => msbBit (agg.matchesForKey hashes k).bytes n)
      (fun acc => acc.bytes.length = BLOCK_RANGE_BYTES)
      (fun bm k => bm.or (agg.matchesForKey hashes k)) keys hI hf .EMPTY length_EMPTY col
    rw [h,msbBit_EMPTY,Bool.false_or]
    simp only [(agg.matchesForKey_spec _).2 col hcol]

theorem AggregateBloom.checkKeysLoop_spec (agg : AggregateBloom) :
    ∀ (xs : List (List Felt × ℕ)) (result : BlockRange), result.bytes.length = BLOCK_RANGE_BYTES →
      (agg.checkKeysLoop hashes xs result).bytes.length = BLOCK_RANGE_BYTES ∧
      ∀ col < AGGREGATE_BLOOM_BLOCK_RANGE_LEN, msbBit (agg.checkKeysLoop hashes xs result).bytes col =
        (msbBit result.bytes col && xs.all fun p =>
          msbBit (agg.blocksForKeys hashes (p.1.map (keyWithIdx · p.2))).bytes col)
  | [], result, h => ⟨h,fun col _ => by simp [AggregateBloom.checkKeysLoop]⟩
  | (g,idx) :: rest, result, h => by
    have hb : (agg.blocksForKeys hashes (g.map (keyWithIdx · idx))).bytes.length = BLOCK_RANGE_BYTES :=
      (agg.blocksForKeys_spec _).1
    by_cases he : agg.blocksForKeys hashes (g.map (keyWithIdx · idx)) = .EMPTY
    · rw [AggregateBloom.checkKeysLoop,if_pos he]
      refine ⟨length_EMPTY,fun col _ => ?_⟩
      simp [he]
    · rw [AggregateBloom.checkKeysLoop,if_neg he]
      obtain ⟨h1,h2⟩ := agg.checkKeysLoop_spec rest _ (length_and h hb)
      refine ⟨h1,fun col hcol => ?_⟩
      rw [h2 col hcol,BlockRange.msbBit_and (h.trans hb.symm),List.all_cons,Bool.and_assoc]

theorem AggregateBloom.checkKeys_spec (agg : AggregateBloom) (keys : List (List Felt)) :
    (agg.checkKeys hashes keys).bytes.length = BLOCK_RANGE_BYTES ∧
      ∀ col < AGGREGATE_BLOOM_BLOCK_RANGE_LEN, msbBit (agg.checkKeys hashes keys).bytes col =
        (keys.isEmpty || keys.any List.isEmpty || keys.zipIdx.all fun p =>
          msbBit (agg.blocksForKeys hashes (p.1.map (keyWithIdx · p.2))).bytes col) := by
  unfold AggregateBloom.checkKeys
  by_cases h : (keys.isEmpty || keys.any List.isEmpty) = true
  · simp only [h,↓reduceIte,Bool.true_or]
    exact ⟨length_FULL,fun col hcol => msbBit_FULL hcol⟩
  · simp only [h,Bool.false_eq_true,↓reduceIte,Bool.false_or]
    obtain ⟨h1,h2⟩ := agg.checkKeysLoop_spec keys.zipIdx .FULL length_FULL
    exact ⟨h1,fun col hcol => by rw [h2 col hcol,msbBit_FULL hcol,Bool.true_and]⟩

theorem AggregateBloom.checkAddress_spec (agg : AggregateBloom) (address : Option Felt) :
    (agg.checkAddress hashes address).bytes.length = BLOCK_RANGE_BYTES ∧
      ∀ col < AGGREGATE_BLOOM_BLOCK_RANGE_LEN, msbBit (agg.checkAddress hashes address).bytes col =
        address.all fun a => (indicesForKey hashes a).all fun row => agg.bit row col := by
  cases address with
  | none => exact ⟨length_FULL,fun col hcol => msbBit_FULL hcol⟩
  | some a =>
    obtain ⟨h1,h2⟩ := @AggregateBloom.blocksForKeys_spec hashes agg [a]
    exact ⟨h1,fun col hcol => by simp [AggregateBloom.checkAddress,h2 col hcol]⟩

theorem BlockRange.mem_iterOnes (r : BlockRange) (n : ℕ) :
    n ∈ r.iterOnes ↔ n / 8 < r.bytes.length ∧ msbBit r.bytes n = true := by
  have hval : ∀ (byte : UInt8) o, ((byte >>> (7 - o).toUInt8) &&& 1 == true.toUInt8) = bitMsb byte o :=
    fun _ _ => rfl
  simp only [BlockRange.iterOnes,BlockRange.iterVal,hval,List.mem_flatMap,List.mem_filterMap,
    List.mem_range,Prod.exists,List.mem_zipIdx_iff_getElem?,Option.ite_none_right_eq_some,Option.some.injEq]
  constructor
  · rintro ⟨byte,byteIdx,hb,bitIdx,hbit,hset,rfl⟩
    have h1 : (byteIdx * 8 + bitIdx) / 8 = byteIdx := by omega
    have h2 : (byteIdx * 8 + bitIdx) % 8 = bitIdx := by omega
    refine ⟨?_,?_⟩
    · rw [h1]
      exact (List.getElem?_eq_some_iff.mp hb).1
    · rw [msbBit,h1,h2,List.getD_eq_getElem?_getD,hb]
      exact hset
  · rintro ⟨hn,hset⟩
    refine ⟨r.bytes[n / 8],n / 8,List.getElem?_eq_getElem hn,n % 8,Nat.mod_lt _ (by omega),?_,by omega⟩
    rwa [msbBit,List.getD_eq_getElem?_getD,List.getElem?_eq_getElem hn,Option.getD_some] at hset

theorem AggregateBloom.mem_check (agg : AggregateBloom) (c : EventConstraints) (b : ℕ) :
    b ∈ agg.check hashes c ↔ agg.fromBlock ≤ b ∧ b - agg.fromBlock < AGGREGATE_BLOOM_BLOCK_RANGE_LEN ∧
      msbBit ((agg.checkAddress hashes c.contractAddress).and (agg.checkKeys hashes c.keys)).bytes
        (b - agg.fromBlock) = true := by
  have hl := length_and (@AggregateBloom.checkAddress_spec hashes agg c.contractAddress).1
    (@AggregateBloom.checkKeys_spec hashes agg c.keys).1
  simp only [AggregateBloom.check,List.mem_map,BlockRange.mem_iterOnes,hl]
  constructor
  · rintro ⟨col,⟨hc,hset⟩,rfl⟩
    refine ⟨by omega,?_,by rwa [Nat.add_sub_cancel_left]⟩
    simp only [BLOCK_RANGE_BYTES,AGGREGATE_BLOOM_BLOCK_RANGE_LEN] at hc ⊢
    omega
  · rintro ⟨h1,h2,h3⟩
    refine ⟨b - agg.fromBlock,⟨?_,h3⟩,by omega⟩
    simp only [BLOCK_RANGE_BYTES,AGGREGATE_BLOOM_BLOCK_RANGE_LEN] at h2 ⊢
    omega

theorem BlockRange.iterOnes_pairwise (r : BlockRange) : r.iterOnes.Pairwise (· < ·) := by
  rw [BlockRange.iterOnes,BlockRange.iterVal,List.pairwise_flatMap]
  have hidx : (r.bytes.zipIdx).Pairwise fun a c => a.2 < c.2 := by
    rw [← List.pairwise_map (f := Prod.snd),List.zipIdx_map_snd]
    exact List.pairwise_lt_range' 1
  refine ⟨fun p _ => ?_,hidx.imp fun {a c} hac x hx y hy => ?_⟩
  · refine List.pairwise_lt_range.filterMap _ fun o o' hoo' v hv v' hv' => ?_
    simp only [Option.ite_none_right_eq_some,Option.some.injEq] at hv hv'
    omega
  · simp only [List.mem_filterMap,List.mem_range,Option.ite_none_right_eq_some,Option.some.injEq] at hx hy
    obtain ⟨o,ho,-,rfl⟩ := hx
    obtain ⟨o',ho',-,rfl⟩ := hy
    have : a.2 * 8 + 8 ≤ c.2 * 8 := by omega
    omega

theorem AggregateBloom.check_pairwise (agg : AggregateBloom) (c : EventConstraints) :
    (agg.check hashes c).Pairwise (· < ·) :=
  ((agg.checkAddress hashes c.contractAddress).and (agg.checkKeys hashes c.keys)).iterOnes_pairwise.map _
    fun _ _ h => Nat.add_lt_add_left h _

end QuerySpec

section Completeness
variable {hashes : Felt → List ℕ}

theorem insertBlocks_fromBlock : ∀ (blocks : List (ℕ × List Event)) {agg agg' : AggregateBloom},
    insertBlocks hashes agg blocks = some agg' → agg'.fromBlock = agg.fromBlock
  | [], _, _, h => by
    cases h
    rfl
  | p :: ps, agg, agg', h => by
    rw [insertBlocks,List.foldlM_cons] at h
    cases h1 : agg.insert (eventsBloom hashes p.2) p.1 with
    | none =>
      rw [h1] at h
      cases h
    | some agg1 =>
      rw [h1] at h
      exact (insertBlocks_fromBlock ps h).trans (AggregateBloom.insert_spec h1).1

theorem insertBlocks_spec : ∀ (blocks : List (ℕ × List Event)) (agg : AggregateBloom),
    (∀ p ∈ blocks, agg.fromBlock ≤ p.1 ∧ p.1 ≤ agg.toBlock) →
    ∃ agg', insertBlocks hashes agg blocks = some agg' ∧ agg'.fromBlock = agg.fromBlock ∧
      ∀ row col, col < AGGREGATE_BLOOM_BLOCK_RANGE_LEN → (agg'.bit row col = true ↔ agg.bit row col = true ∨
        ∃ p ∈ blocks, col = p.1 - agg.fromBlock ∧ msbBit (eventsBloom hashes p.2).bytes row = true)
  | [], agg, _ => ⟨agg,rfl,rfl,fun row col _ => by simp⟩
  | p :: ps, agg, hr => by
    obtain ⟨agg1,h1⟩ := agg.insert_isSome (hr p List.mem_cons_self).1 (hr p List.mem_cons_self).2
      (@length_eventsBloom hashes p.2)
    obtain ⟨hf1,hb1⟩ := AggregateBloom.insert_spec h1
    have hto : agg1.toBlock = agg.toBlock := by rw [agg1.toBlock_eq,agg.toBlock_eq,hf1]
    obtain ⟨agg',h',hf',hb'⟩ := insertBlocks_spec ps agg1 fun q hq => by
      rw [hf1,hto]
      exact hr q (List.mem_cons_of_mem _ hq)
    refine ⟨agg',?_,hf'.trans hf1,fun row col hcol => ?_⟩
    · simp only [insertBlocks,List.foldlM_cons,h1,Option.bind_eq_bind,Option.bind_some]
      exact h'
    · rw [hb' row col hcol,hf1,hb1 row col hcol]
      simp only [Bool.or_eq_true,Bool.and_eq_true,decide_eq_true_eq,List.mem_cons,or_and_right,exists_or,
        exists_eq_left,or_assoc]

theorem AggregateBloom.complete_of_bits {agg : AggregateBloom} {blocks : List (ℕ × List Event)}
    (hr : ∀ p ∈ blocks, agg.fromBlock ≤ p.1 ∧ p.1 - agg.fromBlock < AGGREGATE_BLOOM_BLOCK_RANGE_LEN)
    (hbits : ∀ p ∈ blocks, ∀ row, msbBit (eventsBloom hashes p.2).bytes row = true →
      agg.bit row (p.1 - agg.fromBlock) = true) :
    agg.Complete hashes blocks := by
  intro c hc b events hbe e he hm
  obtain ⟨hb1,hb2⟩ := hr _ hbe
  have hkey : ∀ key, (∀ j ∈ hashes key, j < BITVEC_LEN → msbBit (eventsBloom hashes events).bytes j = true) →
      ((indicesForKey hashes key).all fun row => agg.bit row (b - agg.fromBlock)) = true := by
    intro key hk
    rw [List.all_eq_true]
    intro row hrow
    obtain ⟨h1,h2⟩ := mem_indicesForKey.mp hrow
    exact hbits _ hbe row (hk row h1 h2)
  have haddr : msbBit (agg.checkAddress hashes c.contractAddress).bytes (b - agg.fromBlock) = true := by
    rw [(agg.checkAddress_spec c.contractAddress).2 _ hb2]
    cases ha : c.contractAddress with
    | none => rfl
    | some a =>
      obtain rfl := hm.1 a ha
      exact hkey _ fun j hj hjl => (eventsBloom_of_mem he hjl).1 hj
  have hkeys : msbBit (agg.checkKeys hashes c.keys).bytes (b - agg.fromBlock) = true := by
    rw [(agg.checkKeys_spec c.keys).2 _ hb2]
    by_cases hempty : (c.keys.isEmpty || c.keys.any List.isEmpty) = true
    · rw [hempty,Bool.true_or]
    · rw [Bool.eq_false_iff.mpr hempty,Bool.false_or,List.all_eq_true]
      rintro ⟨g,idx⟩ hp
      have hg : c.keys[idx]? = some g := List.mem_zipIdx_iff_getElem?.mp hp
      have hidx : idx < c.keys.length := (List.getElem?_eq_some_iff.mp hg).1
      have hne : g ≠ [] := by
        rintro rfl
        refine hempty (Bool.or_eq_true_iff.mpr (.inr (List.any_eq_true.mpr ⟨[],?_,rfl⟩)))
        exact List.mem_of_getElem? hg
      obtain ⟨k,hkg,hk⟩ := hm.2 idx g hg hne
      rw [(agg.blocksForKeys_spec _).2 _ hb2]
      refine Bool.or_eq_true_iff.mpr (.inr (List.any_eq_true.mpr ⟨keyWithIdx k idx,List.mem_map_of_mem hkg,?_⟩))
      exact hkey _ fun j hj hjl => (eventsBloom_of_mem he hjl).2 idx k hk (by omega) hj
  rw [agg.mem_check]
  refine ⟨hb1,hb2,?_⟩
  rw [BlockRange.msbBit_and ((agg.checkAddress_spec _).1.trans (agg.checkKeys_spec _).1.symm),haddr,hkeys]
  rfl

theorem AggregateBloom.fromExistingCompressed_compressBitmap {z : Codec} (hz : z.RoundTrips)
    (agg : AggregateBloom) : ∃ compressed, agg.compressBitmap z = some compressed ∧
      AggregateBloom.fromExistingCompressed z agg.fromBlock agg.toBlock compressed = some agg := by
  obtain ⟨c,hc,hd⟩ := hz agg.bitmap
  refine ⟨c,hc,?_⟩
  have h : agg.fromBlock + AGGREGATE_BLOOM_BLOCK_RANGE_LEN - 1 = agg.toBlock ∧
      agg.bitmap.length = BLOCK_RANGE_BYTES * BITVEC_LEN := ⟨agg.toBlock_eq.symm,agg.length_bitmap⟩
  simp only [AggregateBloom.fromExistingCompressed,hd _ (Nat.le_of_eq agg.length_bitmap),
    AggregateBloom.fromParts,dif_pos h,Option.bind_eq_bind,Option.bind_some]

theorem insertBlocks_complete {fromBlock : ℕ} {blocks : List (ℕ × List Event)}
    (hr : ∀ p ∈ blocks, fromBlock ≤ p.1 ∧ p.1 < fromBlock + AGGREGATE_BLOOM_BLOCK_RANGE_LEN) :
    ∃ agg, insertBlocks hashes (.new fromBlock) blocks = some agg ∧ agg.Complete hashes blocks := by
  have hr' : ∀ p ∈ blocks, (AggregateBloom.new fromBlock).fromBlock ≤ p.1 ∧
      p.1 ≤ (AggregateBloom.new fromBlock).toBlock := fun p hp => by
    have := hr p hp
    simp only [AggregateBloom.new,AGGREGATE_BLOOM_BLOCK_RANGE_LEN] at this ⊢
    omega
  obtain ⟨agg,h,hf,hb⟩ := insertBlocks_spec blocks _ hr'
  have hf' : agg.fromBlock = fromBlock := hf
  refine ⟨agg,h,AggregateBloom.complete_of_bits (fun p hp => ?_) (fun p hp row hrow => ?_)⟩
  · have := hr p hp
    rw [hf']
    omega
  · have hcol : p.1 - agg.fromBlock < AGGREGATE_BLOOM_BLOCK_RANGE_LEN := by
      have := hr p hp
      rw [hf']
      omega
    exact (hb row _ hcol).mpr (.inr ⟨p,hp,by rw [hf']; rfl,hrow⟩)

/-- The event Bloom filter has no false negatives. Whatever the crate's hash functions, an
aggregate built by `AggregateBloom::new` and `insert` of the filters of blocks of its range
is built without a panic, `check` returns every one of those blocks with an event that meets
constraints of at most `EVENT_KEY_FILTER_LIMIT` key positions, and for a compression that
reads back, the aggregate loaded from its compressed bitmap is the same one. -/
theorem insertBlocks_check_complete (hashes : Felt → List ℕ) {z : Codec} (hz : z.RoundTrips)
    {fromBlock : ℕ} {blocks : List (ℕ × List Event)}
    (hr : ∀ p ∈ blocks, fromBlock ≤ p.1 ∧ p.1 < fromBlock + AGGREGATE_BLOOM_BLOCK_RANGE_LEN) :
    ∃ agg, insertBlocks hashes (.new fromBlock) blocks = some agg ∧ agg.Complete hashes blocks ∧
      ∃ compressed, agg.compressBitmap z = some compressed ∧
        AggregateBloom.fromExistingCompressed z agg.fromBlock agg.toBlock compressed = some agg := by
  obtain ⟨agg,h,hc⟩ := insertBlocks_complete hr
  exact ⟨agg,h,hc,agg.fromExistingCompressed_compressBitmap hz⟩

theorem insertBlocks_check_complete_one_block :
    let z : Codec := ⟨some,fun c _ => some c⟩
    let hashes : Felt → List ℕ := fun _ => [5]
    let blocks : List (ℕ × List Event) := [(3,[⟨[],⟨Vector.replicate 32 0⟩,[]⟩])]
    z.RoundTrips ∧ (∀ p ∈ blocks, 0 ≤ p.1 ∧ p.1 < 0 + AGGREGATE_BLOOM_BLOCK_RANGE_LEN) ∧
      ∃ agg, insertBlocks hashes (.new 0) blocks = some agg ∧ agg.Complete hashes blocks ∧
        ∃ compressed, agg.compressBitmap z = some compressed ∧
          AggregateBloom.fromExistingCompressed z agg.fromBlock agg.toBlock compressed = some agg := by
  intro z hashes blocks
  have hz : z.RoundTrips := fun data => ⟨data,rfl,fun _ _ => rfl⟩
  have hr : ∀ p ∈ blocks, 0 ≤ p.1 ∧ p.1 < 0 + AGGREGATE_BLOOM_BLOCK_RANGE_LEN := by
    simp [blocks,AGGREGATE_BLOOM_BLOCK_RANGE_LEN]
  exact ⟨hz,hr,insertBlocks_check_complete hashes hz hr⟩

end Completeness

end Storage
end Pathfinder
