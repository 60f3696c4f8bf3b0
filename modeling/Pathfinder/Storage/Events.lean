import Pathfinder.Storage.Transactions

/-! `Transaction::events_in_range` (`connection/event.rs`): the events of a block range that
meet an address and key filter, as event subscriptions catch up with them. The Bloom filters
of the range (`load_event_filter_range`) name the candidate blocks, and the blocks are read
one after another until one has no header or no events. -/

namespace Pathfinder
namespace Storage

open Crypto

/-- `EmittedEvent`. -/
structure EmittedEvent where
  fromAddress : Felt
  data : List Felt
  keys : List Felt
  blockHash : Felt
  blockNumber : ℕ
  transactionHash : Felt
  deriving DecidableEq

variable {V R : Type}

/-- `Iterator::rposition`: the index of the last element that satisfies `p`. -/
def rposition {α : Type} (p : α → Bool) (l : List α) : Option ℕ :=
  (l.reverse.findIdx? p).map (l.length - 1 - ·)

def truncateKeys (keys : List (List Felt)) : List (List Felt) :=
  match rposition (fun k => !k.isEmpty) keys with
  | some lastNonEmpty => keys.take (lastNonEmpty + 1)
  | none => keys

def addressMatches (contractAddress : Option Felt) (e : Event) : Bool :=
  match contractAddress with
  | some address => e.fromAddress = address
  | none => true

def keysMatch (keys : List (List Felt)) (noKeyConstraints : Bool) (e : Event) : Bool :=
  if noKeyConstraints then true
  else if e.keys.length < keys.length then false
  else (e.keys.zip keys).all fun p => p.2.isEmpty || p.2.contains p.1

def emittedForBlock (contractAddress : Option Felt) (keys : List (List Felt)) (noKeyConstraints : Bool)
    (header : BlockHeader) (events : List (Felt × List Event)) : List EmittedEvent :=
  (((events.flatMap fun p => p.2.map fun e => (e,p.1)).filter fun q => addressMatches contractAddress q.1).filter
    fun q => keysMatch keys noKeyConstraints q.1).map
    fun q => ⟨q.1.fromAddress,q.1.data,q.1.keys,header.hash,header.number,q.2⟩

def Tables.scanBlocks (t : Tables V R) (emit : BlockHeader → List (Felt × List Event) → List EmittedEvent) :
    List ℕ → Except StoreError (List EmittedEvent)
  | [] => .ok []
  | block :: rest =>
    match t.blockHeader (.number block) with
    | none => .ok []
    | some header =>
      match t.eventsForBlock (.number block) with
      | .error e => .error e
      | .ok none => .ok []
      | .ok (some events) => do
        let more ← t.scanBlocks emit rest
        return emit header events ++ more

def Tables.blockEmitted (t : Tables V R) (emit : BlockHeader → List (Felt × List Event) → List EmittedEvent)
    (block : ℕ) : List EmittedEvent :=
  match t.blockHeader (.number block), t.eventsForBlock (.number block) with
  | some header, .ok (some events) => emit header events
  | _, _ => []

section Query
variable (hashes : Felt → List ℕ) (z : Codec)

/-- `load_event_filter_range`. -/
def Store.loadEventFilterRange (s : Store V R) (startBlock endBlock : ℕ) :
    Except StoreError (List AggregateBloom) := do
  let rows := (s.tables.eventFilters.filter fun r => r.fromBlock ≤ endBlock ∧ startBlock ≤ r.toBlock).insertionSort
    fun a b => a.fromBlock ≤ b.fromBlock
  let eventFilters ← rows.mapM fun r =>
    match AggregateBloom.fromExistingCompressed z r.fromBlock r.toBlock r.bitmap with
    | none => .error (.panic "Decompressing aggregate Bloom filter")
    | some filter => .ok filter
  let shouldIncludeRunning := match eventFilters.getLast? with
    | none => true
    | some last => decide (last.toBlock + 1 = s.runningEventFilter.filter.fromBlock ∧ endBlock > last.toBlock)
  return if shouldIncludeRunning then eventFilters ++ [s.runningEventFilter.filter] else eventFilters

/-- `events_in_range`. -/
def Store.eventsInRange (s : Store V R) (fromBlock toBlock : ℕ) (contractAddress : Option Felt)
    (keys : List (List Felt)) : Except StoreError (List EmittedEvent × Option ℕ) :=
  match s.tables.blockNumber .latest with
  | none => .ok ([],none)
  | some latestBlock =>
    if fromBlock > latestBlock then .ok ([],none) else do
    let toBlock := min toBlock latestBlock
    let keys := truncateKeys keys
    let constraints : EventConstraints := ⟨contractAddress,keys⟩
    let eventFilters ← s.loadEventFilterRange z fromBlock toBlock
    let blocksToScan := (eventFilters.flatMap (·.check hashes constraints)).filter
      fun block => fromBlock ≤ block ∧ block ≤ toBlock
    let noKeyConstraints := decide (constraints.keys.flatten.length = 0)
    let emittedEvents ← s.tables.scanBlocks (emittedForBlock contractAddress keys noKeyConstraints) blocksToScan
    return (emittedEvents,some toBlock)

end Query

section Chunks
variable {α β : Type} {key : α → ℕ}

def chunks (f : ℕ → β → List α) : ℕ → List β → List α
  | _, [] => []
  | n, b :: bs => f n b ++ chunks f (n + 1) bs

theorem le_key_of_mem_chunks {f : ℕ → β → List α} (hf : ∀ m b, ∀ x ∈ f m b, key x = m) :
    ∀ (n : ℕ) (bs : List β), ∀ x ∈ chunks f n bs, n ≤ key x
  | _, [], _, h => absurd h List.not_mem_nil
  | n, b :: bs, x, h => by
    rcases List.mem_append.mp h with h | h
    · exact Nat.le_of_eq (hf n b x h).symm
    · exact Nat.le_of_succ_le (le_key_of_mem_chunks hf (n + 1) bs x h)

theorem filter_chunks {f : ℕ → β → List α} (hf : ∀ m b, ∀ x ∈ f m b, key x = m) :
    ∀ (n k : ℕ) (bs : List β) (b : β), bs[k]? = some b →
      (chunks f n bs).filter (fun x => decide (key x = n + k)) = f (n + k) b
  | _, _, [], _, h => by simp at h
  | n, 0, c :: cs, b, h => by
    obtain rfl : c = b := by simpa using h
    have h1 : (f n c).filter (fun x => decide (key x = n + 0)) = f n c :=
      List.filter_eq_self.mpr fun x hx => by simpa using hf n c x hx
    have h2 : (chunks f (n + 1) cs).filter (fun x => decide (key x = n + 0)) = [] :=
      List.filter_eq_nil_iff.mpr fun x hx => by
        have := le_key_of_mem_chunks hf (n + 1) cs x hx
        simp only [decide_eq_true_eq]
        omega
    rw [chunks,List.filter_append,h1,h2,List.append_nil]
    rfl
  | n, k + 1, c :: cs, b, h => by
    have h1 : (f n c).filter (fun x => decide (key x = n + (k + 1))) = [] :=
      List.filter_eq_nil_iff.mpr fun x hx => by
        rw [hf n c x hx]
        simp
    rw [chunks,List.filter_append,h1,List.nil_append,show n + (k + 1) = n + 1 + k by omega]
    exact filter_chunks hf (n + 1) k cs b (by simpa using h)

theorem key_lt_of_mem_chunks {f : ℕ → β → List α} (hf : ∀ m b, ∀ x ∈ f m b, key x = m) :
    ∀ (n : ℕ) (bs : List β), ∀ x ∈ chunks f n bs, key x < n + bs.length
  | _, [], _, h => absurd h List.not_mem_nil
  | n, b :: bs, x, h => by
    rw [List.length_cons]
    rcases List.mem_append.mp h with h | h
    · rw [hf n b x h]
      omega
    · have := key_lt_of_mem_chunks hf (n + 1) bs x h
      omega

theorem mem_chunks {f : ℕ → β → List α} (hf : ∀ m b, ∀ x ∈ f m b, key x = m) {n k : ℕ} {bs : List β}
    {b : β} (hk : bs[k]? = some b) {x : α} (hx : x ∈ f (n + k) b) : x ∈ chunks f n bs := by
  rw [← filter_chunks hf n k bs b hk] at hx
  exact List.mem_of_mem_filter hx

end Chunks

section StoredBlocks

def headersOf : ℕ → List (SyncedBlock V R) → List BlockHeader :=
  chunks fun n b => [⟨n,b.hash⟩]

def hashRowsOf : ℕ → List (SyncedBlock V R) → List TransactionHashRow :=
  chunks fun n b => hashRows n 0 b.transactions

theorem rowsOf_eq_chunks : ∀ (n : ℕ) (bs : List (SyncedBlock V R)), rowsOf n bs = chunks (fun m b => b.row m) n bs
  | _, [] => rfl
  | n, b :: bs => by rw [rowsOf,chunks,rowsOf_eq_chunks (n + 1) bs]

theorem Tables.addBlocks_blockHeaders : ∀ (t : Tables V R) (n : ℕ) (bs : List (SyncedBlock V R)),
    (t.addBlocks n bs).blockHeaders = t.blockHeaders ++ headersOf n bs
  | _, _, [] => by simp [Tables.addBlocks,headersOf,chunks]
  | t, n, b :: bs => by
    rw [Tables.addBlocks,Tables.addBlocks_blockHeaders,headersOf,chunks,← headersOf]
    simp [Tables.addBlock]

theorem Tables.addBlocks_transactionHashes : ∀ (t : Tables V R) (n : ℕ) (bs : List (SyncedBlock V R)),
    (t.addBlocks n bs).transactionHashes = t.transactionHashes ++ hashRowsOf n bs
  | _, _, [] => by simp [Tables.addBlocks,hashRowsOf,chunks]
  | t, n, b :: bs => by
    rw [Tables.addBlocks,Tables.addBlocks_transactionHashes,hashRowsOf,chunks,← hashRowsOf]
    simp [Tables.addBlock]

theorem key_of_mem_row {m : ℕ} {b : SyncedBlock V R} {row : TransactionsRow V R} (h : row ∈ b.row m) :
    row.blockNumber = m := by
  unfold SyncedBlock.row at h
  split at h
  · exact absurd h List.not_mem_nil
  · rw [List.mem_singleton.mp h]

theorem key_of_mem_hashRows {m idx : ℕ} {transactions : List (Transaction V × R)} {r : TransactionHashRow}
    (h : r ∈ hashRows m idx transactions) : r.blockNumber = m := by
  obtain ⟨p,-,rfl⟩ := List.mem_map.mp h
  rfl

variable {t : Tables V R} {first k : ℕ} {blocks : List (SyncedBlock V R)} {b : SyncedBlock V R}

theorem Tables.find_addBlocks {α : Type} {key : α → ℕ} {old : List α} {f : ℕ → SyncedBlock V R → List α}
    (hf : ∀ m b, ∀ x ∈ f m b, key x = m) (hold : ∀ x ∈ old, key x < first) (hk : blocks[k]? = some b) :
    (old ++ chunks f first blocks).filter (fun x => decide (key x = first + k)) = f (first + k) b := by
  have h1 : old.filter (fun x => decide (key x = first + k)) = [] :=
    List.filter_eq_nil_iff.mpr fun x hx => by
      have := hold x hx
      simp only [decide_eq_true_eq]
      omega
  rw [List.filter_append,h1,List.nil_append,filter_chunks hf first k blocks b hk]

theorem Tables.transactionsRow_addBlocks (hold : ∀ row ∈ t.transactions, row.blockNumber < first)
    (hk : blocks[k]? = some b) :
    (t.addBlocks first blocks).transactionsRow (first + k) = (b.row (first + k)).head? := by
  have hfilter := @Tables.find_addBlocks V R first k blocks b _ TransactionsRow.blockNumber t.transactions
    (fun m c => c.row m) (fun m c x hx => key_of_mem_row hx) hold hk
  rw [Tables.transactionsRow,← List.head?_filter,Tables.addBlocks_transactions,rowsOf_eq_chunks,hfilter]

theorem Tables.queryTransactionHashesByBlock_addBlocks
    (hold : ∀ r ∈ t.transactionHashes, r.blockNumber < first) (hk : blocks[k]? = some b) :
    (t.addBlocks first blocks).queryTransactionHashesByBlock (first + k) = b.transactions.map (·.1.hash) := by
  have hfilter := @Tables.find_addBlocks V R first k blocks b _ TransactionHashRow.blockNumber
    t.transactionHashes (fun n c => hashRows n 0 c.transactions) (fun m c x hx => key_of_mem_hashRows hx) hold hk
  have hsorted : (hashRows (first + k) 0 b.transactions).Pairwise fun a c => a.idx ≤ c.idx := by
    rw [← List.pairwise_map (f := TransactionHashRow.idx),hashRows,List.map_map]
    have hidx : List.map (TransactionHashRow.idx ∘ fun p : (Transaction V × R) × ℕ =>
        (⟨p.1.1.hash,first + k,p.2⟩ : TransactionHashRow)) (b.transactions.zipIdx 0) =
        List.map Prod.snd (b.transactions.zipIdx 0) := rfl
    rw [hidx,List.zipIdx_map_snd]
    exact List.pairwise_le_range' 1
  rw [Tables.queryTransactionHashesByBlock,Tables.addBlocks_transactionHashes,hashRowsOf,hfilter,
    hsorted.insertionSort_eq,hashRows,List.map_map]
  conv_rhs => rw [← List.zipIdx_map_fst 0 b.transactions,List.map_map]
  rfl

theorem Tables.blockNumber_latest_addBlocks (hold : ∀ h ∈ t.blockHeaders, h.number < first)
    (hne : blocks ≠ []) :
    (t.addBlocks first blocks).blockNumber .latest = some (first + blocks.length - 1) := by
  have hf : ∀ m (c : SyncedBlock V R), ∀ x ∈ [(⟨m,c.hash⟩ : BlockHeader)], x.number = m :=
    fun m c x hx => by rw [List.mem_singleton.mp hx]
  have hpos : 0 < blocks.length := List.length_pos_iff.mpr hne
  obtain ⟨c,hc⟩ : ∃ c, blocks[blocks.length - 1]? = some c :=
    ⟨_,List.getElem?_eq_getElem (by omega)⟩
  rw [Tables.blockNumber,List.max?_eq_some_iff,Tables.addBlocks_blockHeaders,List.map_append]
  refine ⟨List.mem_append_right _ (List.mem_map.mpr ⟨_,mem_chunks hf hc (List.mem_singleton_self _),by
    show first + (blocks.length - 1) = _
    omega⟩),fun x hx => ?_⟩
  rcases List.mem_append.mp hx with hx | hx
  · obtain ⟨h,hh,rfl⟩ := List.mem_map.mp hx
    have := hold h hh
    omega
  · obtain ⟨h,hh,rfl⟩ := List.mem_map.mp hx
    have := key_lt_of_mem_chunks hf first blocks h hh
    omega

theorem Tables.eventsForBlock_addBlocks (hrows : ∀ row ∈ t.transactions, row.blockNumber < first)
    (hhashes : ∀ r ∈ t.transactionHashes, r.blockNumber < first) (hk : blocks[k]? = some b)
    (hlen : b.events.length = b.transactions.length) :
    (t.addBlocks first blocks).eventsForBlock (.number (first + k)) =
      .ok (if b.transactions.isEmpty && b.events.isEmpty then none
        else some ((b.events.zip (b.transactions.map (·.1.hash))).map fun p => (p.2,p.1))) := by
  have hf : ∀ m (c : SyncedBlock V R), ∀ x ∈ [(⟨m,c.hash⟩ : BlockHeader)], x.number = m :=
    fun m c x hx => by rw [List.mem_singleton.mp hx]
  have hnum : (t.addBlocks first blocks).blockNumber (.number (first + k)) = some (first + k) := by
    refine Tables.blockNumber_number ⟨⟨first + k,b.hash⟩,?_,rfl⟩
    rw [Tables.addBlocks_blockHeaders]
    exact List.mem_append_right _ (mem_chunks hf hk (List.mem_singleton_self _))
  have hrow := Tables.transactionsRow_addBlocks hrows hk
  have hhash := Tables.queryTransactionHashesByBlock_addBlocks hhashes hk
  unfold SyncedBlock.row at hrow
  by_cases hc : (b.transactions.isEmpty && b.events.isEmpty) = true
  · rw [if_pos hc] at hrow ⊢
    simp [Tables.eventsForBlock,hnum,Tables.queryEventsByBlock,hrow]
  · rw [if_neg hc] at hrow ⊢
    simp [Tables.eventsForBlock,hnum,Tables.queryEventsByBlock,hrow,hhash,hlen]

theorem Store.loadEventFilterRange_of_nil {z : Codec} {s : Store V R}
    (h : s.tables.eventFilters = []) (startBlock endBlock : ℕ) :
    s.loadEventFilterRange z startBlock endBlock = .ok [s.runningEventFilter.filter] := by
  simp [Store.loadEventFilterRange,h]

end StoredBlocks

section Scan
variable {t : Tables V R} {emit : BlockHeader → List (Felt × List Event) → List EmittedEvent}

theorem Tables.eq_of_blockNumber_number {n m : ℕ} (h : t.blockNumber (.number n) = some m) : m = n := by
  simp only [Tables.blockNumber] at h
  split at h
  · exact (Option.some.inj h).symm
  · cases h

theorem Tables.blockHeader_number {n : ℕ} {h : BlockHeader} (hh : t.blockHeader (.number n) = some h) :
    h.number = n := by
  simp only [Tables.blockHeader,Option.bind_eq_bind] at hh
  cases hn : t.blockNumber (.number n) with
  | none => rw [hn] at hh; cases hh
  | some m =>
    rw [hn,Option.bind_some] at hh
    rw [← Tables.eq_of_blockNumber_number hn]
    simpa using List.find?_some hh

theorem Tables.queryEventsByBlock_of_eventsForBlock {n : ℕ} {events : List (Felt × List Event)}
    (h : t.eventsForBlock (.number n) = .ok (some events)) : (t.queryEventsByBlock n).isSome := by
  unfold Tables.eventsForBlock at h
  split at h
  · cases h
  · rename_i m hm
    obtain rfl := Tables.eq_of_blockNumber_number hm
    split at h
    · cases h
    · rename_i hq
      rw [hq]
      rfl

theorem Tables.scanBlocks_blockNumber (hemit : ∀ h evs, ∀ x ∈ emit h evs, x.blockNumber = h.number) :
    ∀ (blocks : List ℕ) (E : List EmittedEvent), t.scanBlocks emit blocks = .ok E →
      ∀ e ∈ E, e.blockNumber ∈ blocks.takeWhile fun block => (t.queryEventsByBlock block).isSome
  | [], E, h, e, he => by
    cases h
    exact absurd he List.not_mem_nil
  | block :: rest, E, h, e, he => by
    unfold Tables.scanBlocks at h
    split at h
    · cases h
      exact absurd he List.not_mem_nil
    · rename_i header hheader
      split at h
      · cases h
      · cases h
        exact absurd he List.not_mem_nil
      · rename_i events hevents
        obtain ⟨more,hmore,hE⟩ := except_bind_eq_ok h
        cases hE
        rw [List.takeWhile_cons,if_pos (Tables.queryEventsByBlock_of_eventsForBlock hevents)]
        rcases List.mem_append.mp he with he | he
        · rw [hemit header events e he,Tables.blockHeader_number hheader]
          exact List.mem_cons_self
        · exact List.mem_cons_of_mem _ (Tables.scanBlocks_blockNumber hemit rest more hmore e he)

theorem Tables.scanBlocks_ok : ∀ (blocks : List ℕ), (∀ block ∈ blocks, ∀ err, t.eventsForBlock (.number block) ≠ .error err) →
    ∃ E, t.scanBlocks emit blocks = .ok E
  | [], _ => ⟨[],rfl⟩
  | block :: rest, h => by
    obtain ⟨more,hmore⟩ := Tables.scanBlocks_ok rest fun b hb => h b (List.mem_cons_of_mem _ hb)
    unfold Tables.scanBlocks
    split
    · exact ⟨_,rfl⟩
    · split
      · rename_i err herr
        exact absurd herr (h block List.mem_cons_self err)
      · exact ⟨_,rfl⟩
      · exact ⟨_,by rw [hmore]; rfl⟩

theorem lt_of_mem_takeWhile {p : ℕ → Bool} : ∀ {l : List ℕ} {c x : ℕ}, l.Pairwise (· < ·) → c ∈ l →
    p c = false → x ∈ l.takeWhile p → x < c
  | [], _, _, _, hc, _, _ => absurd hc List.not_mem_nil
  | a :: l, c, x, hl, hc, hp, hx => by
    rw [List.takeWhile_cons] at hx
    split at hx
    · rename_i hpa
      have hac : a ≠ c := fun h => by rw [h,hp] at hpa; cases hpa
      have hcl : c ∈ l := (List.mem_cons.mp hc).resolve_left hac.symm
      rcases List.mem_cons.mp hx with rfl | hx
      · exact List.rel_of_pairwise_cons hl hcl
      · exact lt_of_mem_takeWhile hl.of_cons hcl hp hx
    · exact absurd hx List.not_mem_nil

end Scan

section Catchup
variable {hashes : Felt → List ℕ} {z : Codec}

theorem emittedForBlock_blockNumber (contractAddress : Option Felt) (keys : List (List Felt))
    (noKeyConstraints : Bool) (header : BlockHeader) (events : List (Felt × List Event)) :
    ∀ x ∈ emittedForBlock contractAddress keys noKeyConstraints header events, x.blockNumber = header.number := by
  intro x hx
  obtain ⟨q,-,rfl⟩ := List.mem_map.mp hx
  rfl

theorem AggregateBloom.mem_check_unfiltered (agg : AggregateBloom) {block : ℕ} (h1 : agg.fromBlock ≤ block)
    (h2 : block - agg.fromBlock < AGGREGATE_BLOOM_BLOCK_RANGE_LEN) : block ∈ agg.check hashes ⟨none,[]⟩ := by
  rw [AggregateBloom.mem_check]
  refine ⟨h1,h2,?_⟩
  have hfull : (agg.checkAddress hashes (⟨none,[]⟩ : EventConstraints).contractAddress).and
      (agg.checkKeys hashes (⟨none,[]⟩ : EventConstraints).keys) = BlockRange.FULL.and BlockRange.FULL := rfl
  rw [hfull,BlockRange.msbBit_and rfl,msbBit_FULL h2,Bool.and_self]

/-- Event catch-up skips the events after a block with no transactions and no events:
`insert_transaction_data` writes no row for it, the loop of `events_in_range` stops there,
and yet it reports the whole range as scanned. Unfiltered, every block is a candidate. -/
theorem eventsInRange_before_empty_block {s : Store V R} {first i : ℕ} {blocks : List (SyncedBlock V R)}
    {b : SyncedBlock V R} (hs : s.Fresh first blocks) (hnew : s.runningEventFilter.filter = .new first)
    (hfilters : s.tables.eventFilters = []) (hhashes : ∀ r ∈ s.tables.transactionHashes, r.blockNumber < first)
    (hlen : ∀ c ∈ blocks, c.events.length = c.transactions.length)
    (hi : blocks[i]? = some b) (hb : b.transactions = [] ∧ b.events = []) :
    ∃ s', s.storeBlocks hashes z first blocks = .ok s' ∧
      ∃ E, s'.eventsInRange hashes z first (first + blocks.length - 1) none [] =
          .ok (E,some (first + blocks.length - 1)) ∧
        ∀ e ∈ E, e.blockNumber < first + i := by
  obtain ⟨filter,hfold,hrun⟩ := @Store.storeBlocks_spec V R hashes z blocks s first hs
  refine ⟨_,hrun,?_⟩
  have hilt : i < blocks.length := (List.getElem?_eq_some_iff.mp hi).1
  have hne : blocks ≠ [] := List.ne_nil_of_length_pos (by omega)
  have hrange := hs.lt_toBlock
  rw [hnew] at hrange
  simp only [AggregateBloom.new,AGGREGATE_BLOOM_BLOCK_RANGE_LEN] at hrange
  have hlatest := Tables.blockNumber_latest_addBlocks hs.headers_lt hne
  have hfrom : filter.fromBlock = first := by
    rw [insertBlocks_fromBlock _ hfold,hnew]
    rfl
  have hcands : ∀ block ∈ (filter.check hashes ⟨none,[]⟩).filter
      (fun block => decide (first ≤ block ∧ block ≤ first + blocks.length - 1)),
      ∃ k c, block = first + k ∧ blocks[k]? = some c := by
    intro block hblock
    have hin := (decide_eq_true_iff.mp (List.mem_filter.mp hblock).2)
    exact ⟨block - first,blocks[block - first],by omega,List.getElem?_eq_getElem (by omega)⟩
  have hok : ∀ block ∈ (filter.check hashes ⟨none,[]⟩).filter
      (fun block => decide (first ≤ block ∧ block ≤ first + blocks.length - 1)),
      ∀ err, (s.tables.addBlocks first blocks).eventsForBlock (.number block) ≠ .error err := by
    intro block hblock err
    obtain ⟨k,c,rfl,hc⟩ := hcands block hblock
    rw [Tables.eventsForBlock_addBlocks hs.rows_lt hhashes hc (hlen c (List.mem_of_getElem? hc))]
    intro h
    cases h
  obtain ⟨E,hE⟩ := @Tables.scanBlocks_ok V R (s.tables.addBlocks first blocks) (emittedForBlock none [] true) _ hok
  refine ⟨E,?_,fun e he => ?_⟩
  · have hmin : min (first + blocks.length - 1) (first + blocks.length - 1) = first + blocks.length - 1 :=
      min_self _
    have hgt : ¬ first > first + blocks.length - 1 := by omega
    have hload : (⟨s.tables.addBlocks first blocks,⟨filter,first + blocks.length⟩⟩ : Store V R).loadEventFilterRange z
        first (first + blocks.length - 1) = .ok [filter] :=
      Store.loadEventFilterRange_of_nil (by rw [Tables.addBlocks_eventFilters]; exact hfilters) _ _
    simp only [Store.eventsInRange,hlatest,hgt,↓reduceIte,hmin,hload,except_ok_bind,
      List.flatMap_cons,List.flatMap_nil,List.append_nil]
    rw [show truncateKeys [] = [] from rfl,show decide ((([] : List (List Felt))).flatten.length = 0) = true from rfl,hE]
    rfl
  · have hc : first + i ∈ (filter.check hashes ⟨none,[]⟩).filter
        (fun block => decide (first ≤ block ∧ block ≤ first + blocks.length - 1)) := by
      refine List.mem_filter.mpr ⟨filter.mem_check_unfiltered (by rw [hfrom]; omega)
        (by rw [hfrom,AGGREGATE_BLOOM_BLOCK_RANGE_LEN]; omega),?_⟩
      exact decide_eq_true (by omega)
    have hnone : (s.tables.addBlocks first blocks).queryEventsByBlock (first + i) = none := by
      rw [Tables.queryEventsByBlock,Tables.transactionsRow_addBlocks hs.rows_lt hi,row_empty hb]
      rfl
    have hpair := (@AggregateBloom.check_pairwise hashes filter ⟨none,[]⟩).filter
      (fun block => decide (first ≤ block ∧ block ≤ first + blocks.length - 1))
    exact lt_of_mem_takeWhile hpair hc (by rw [hnone]; rfl)
      (Tables.scanBlocks_blockNumber (emittedForBlock_blockNumber none [] true) _ E hE e he)

theorem eventsInRange_before_empty_genesis :
    let hashes : Felt → List ℕ := fun _ => [5]
    let z : Codec := ⟨some,fun c _ => some c⟩
    let tx : Transaction Unit × Unit := (⟨⟨Vector.replicate 32 1⟩,()⟩,())
    let empty : SyncedBlock Unit Unit := ⟨⟨Vector.replicate 32 2⟩,[],[]⟩
    let blocks : List (SyncedBlock Unit Unit) :=
      [empty,⟨⟨Vector.replicate 32 3⟩,[tx],[[⟨[],⟨Vector.replicate 32 4⟩,[]⟩]]⟩]
    Store.empty.Fresh 0 blocks ∧ (Store.empty : Store Unit Unit).runningEventFilter.filter = .new 0 ∧
      (Store.empty : Store Unit Unit).tables.eventFilters = [] ∧
      (∀ r ∈ (Store.empty : Store Unit Unit).tables.transactionHashes, r.blockNumber < 0) ∧
      (∀ c ∈ blocks, c.events.length = c.transactions.length) ∧ blocks[0]? = some empty ∧
      (empty.transactions = [] ∧ empty.events = []) ∧
      ∃ s', Store.empty.storeBlocks hashes z 0 blocks = .ok s' ∧
        ∃ E, s'.eventsInRange hashes z 0 (0 + blocks.length - 1) none [] = .ok (E,some (0 + blocks.length - 1)) ∧
          ∀ e ∈ E, e.blockNumber < 0 + 0 := by
  intro hashes z tx empty blocks
  have hs : (Store.empty : Store Unit Unit).Fresh 0 blocks :=
    ⟨rfl,le_refl _,by simp [Store.empty,AggregateBloom.new,AGGREGATE_BLOOM_BLOCK_RANGE_LEN,blocks],
      by simp [Store.empty],by simp [Store.empty],by simp [txHashes,blocks,tx,empty],by simp [Store.empty]⟩
  have hhashes : ∀ r ∈ (Store.empty : Store Unit Unit).tables.transactionHashes, r.blockNumber < 0 :=
    fun _ h => absurd h List.not_mem_nil
  have hlen : ∀ c ∈ blocks, c.events.length = c.transactions.length := by simp [blocks,empty]
  exact ⟨hs,rfl,rfl,hhashes,hlen,rfl,⟨rfl,rfl⟩,
    eventsInRange_before_empty_block hs rfl rfl hhashes hlen rfl ⟨rfl,rfl⟩⟩

end Catchup

end Storage
end Pathfinder
