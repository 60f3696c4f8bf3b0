import Mathlib.Data.List.MinMax
import Mathlib.Data.List.Sort
import Pathfinder.Storage.Bloom
import Pathfinder.Monad.Except

/-! The storage of blocks' transaction data and of the running event filter
(`connection/transaction.rs`, `connection/event.rs`). The tables `block_headers`,
`transactions`, `transaction_hashes` and `event_filters` are lists of rows, each insert checking
the table's key; a scan that SQLite makes in key order sorts its rows. With them the in-memory
`RunningEventFilter`, the writes `insert_transaction_data` and `update_events` with the
`upsert_block_event_filters` they call, the per-block reads, and `RunningEventFilter::rebuild`.
SQL errors and panics are both failures, of `StoreError`. -/

namespace Pathfinder
namespace Storage

open Crypto

/-- `StarknetTransaction`: its hash, and its variant, which storage keeps as it is. -/
structure Transaction (V : Type) where
  hash : Felt
  variant : V
  deriving DecidableEq

/-- The fields of `BlockHeader` that these functions read. -/
structure BlockHeader where
  number : ℕ
  hash : Felt
  deriving DecidableEq

/-- `FinalizedBlockId`. -/
inductive FinalizedBlockId where
  | number (n : ℕ)
  | hash (h : Felt)
  | latest
  deriving DecidableEq

/-- A row of `transactions`. -/
structure TransactionsRow (V R : Type) where
  blockNumber : ℕ
  transactions : List (Transaction V × R)
  events : Option (List (List Event))

/-- A row of `transaction_hashes`: the hash is the primary key. -/
structure TransactionHashRow where
  hash : Felt
  blockNumber : ℕ
  idx : ℕ
  deriving DecidableEq

/-- A row of `event_filters`, with its compressed bitmap; `(from_block, to_block)` is unique. -/
structure EventFilterRow where
  fromBlock : ℕ
  toBlock : ℕ
  bitmap : List UInt8
  deriving DecidableEq

/-- `RunningEventFilter`. -/
structure RunningEventFilter where
  filter : AggregateBloom
  nextBlock : ℕ

/-- The tables these functions read and write. -/
structure Tables (V R : Type) where
  blockHeaders : List BlockHeader
  transactions : List (TransactionsRow V R)
  transactionHashes : List TransactionHashRow
  eventFilters : List EventFilterRow

/-- The database with the in-memory state of `Storage` its transactions share. -/
structure Store (V R : Type) where
  tables : Tables V R
  runningEventFilter : RunningEventFilter

/-- Why a storage function fails. -/
inductive StoreError where
  | constraint (table : String)
  | internal (msg : String)
  | panic (msg : String)
  deriving DecidableEq

/-- A block as sync hands it to storage. -/
structure SyncedBlock (V R : Type) where
  hash : Felt
  transactions : List (Transaction V × R)
  events : List (List Event)

variable {V R : Type}

def Store.empty : Store V R := ⟨⟨[],[],[],[]⟩,⟨.new 0,0⟩⟩

section Reads

/-- `block_number`: the highest number for `Latest`, otherwise the number if a header has it. -/
def Tables.blockNumber (t : Tables V R) : FinalizedBlockId → Option ℕ
  | .latest => (t.blockHeaders.map (·.number)).max?
  | .number n => if t.blockHeaders.any (·.number = n) then some n else none
  | .hash h => (t.blockHeaders.find? (·.hash = h)).map (·.number)

/-- `block_header`. -/
def Tables.blockHeader (t : Tables V R) (block : FinalizedBlockId) : Option BlockHeader := do
  let n ← t.blockNumber block
  t.blockHeaders.find? (·.number = n)

def Tables.transactionsRow (t : Tables V R) (blockNumber : ℕ) : Option (TransactionsRow V R) :=
  t.transactions.find? (·.blockNumber = blockNumber)

/-- `query_transactions_by_block`: a block without a row has no transactions. -/
def Tables.queryTransactionsByBlock (t : Tables V R) (blockNumber : ℕ) : List (Transaction V × R) :=
  match t.transactionsRow blockNumber with
  | none => []
  | some row => row.transactions

/-- `query_transaction_hashes_by_block`, `ORDER BY idx`. -/
def Tables.queryTransactionHashesByBlock (t : Tables V R) (blockNumber : ℕ) : List Felt :=
  ((t.transactionHashes.filter (·.blockNumber = blockNumber)).insertionSort
    (fun a b => a.idx ≤ b.idx)).map (·.hash)

/-- `query_transactions_and_events_by_block`: `NULL` events read as no events. -/
def Tables.queryTransactionsAndEventsByBlock (t : Tables V R) (blockNumber : ℕ) :
    List (Transaction V × R) × List (List Event) :=
  match t.transactionsRow blockNumber with
  | none => ([],[])
  | some row => (row.transactions,row.events.getD [])

/-- `query_events_by_block`: none without a row or with `NULL` events. -/
def Tables.queryEventsByBlock (t : Tables V R) (blockNumber : ℕ) : Option (List (List Event)) :=
  match t.transactionsRow blockNumber with
  | none => none
  | some row => row.events

/-- `transaction_count`. -/
def Tables.transactionCount (t : Tables V R) (block : FinalizedBlockId) : ℕ :=
  match t.blockNumber block with
  | none => 0
  | some n => (t.queryTransactionsByBlock n).length

/-- `transaction_data_for_block`: the transactions zipped with the events. -/
def Tables.transactionDataForBlock (t : Tables V R) (block : FinalizedBlockId) :
    Option (List (Transaction V × R × List Event)) :=
  match t.blockNumber block with
  | none => none
  | some n =>
    let (transactions,events) := t.queryTransactionsAndEventsByBlock n
    some ((transactions.zip events).map fun p => (p.1.1,p.1.2,p.2))

/-- `transactions_for_block`. -/
def Tables.transactionsForBlock (t : Tables V R) (block : FinalizedBlockId) :
    Option (List (Transaction V)) :=
  match t.blockNumber block with
  | none => none
  | some n => some ((t.queryTransactionsByBlock n).map (·.1))

/-- `events_for_block`: each transaction's events with its hash. -/
def Tables.eventsForBlock (t : Tables V R) (block : FinalizedBlockId) :
    Except StoreError (Option (List (Felt × List Event))) :=
  match t.blockNumber block with
  | none => .ok none
  | some n =>
    match t.queryEventsByBlock n with
    | none => .ok none
    | some events =>
      let transactionHashes := t.queryTransactionHashesByBlock n
      if events.length ≠ transactionHashes.length then
        .error (.internal "Event list and transaction list mismatch")
      else .ok (some ((events.zip transactionHashes).map fun p => (p.2,p.1)))

def getTransactionsForBlock (t : Tables V R) (blockNumber : ℕ) : Option (List (Transaction V × R)) :=
  match t.transactionDataForBlock (.number blockNumber) with
  | none => none
  | some data => some (data.map fun d => (d.1,d.2.1))

/-- `SELECT to_block FROM event_filters ORDER BY from_block DESC LIMIT 1`. -/
def Tables.lastToBlock (t : Tables V R) : Option ℕ :=
  (t.eventFilters.argmax (·.fromBlock)).map (·.toBlock)

/-- `SELECT events FROM transactions WHERE block_number >= ?`, in the order of the key. -/
def Tables.transactionsFrom (t : Tables V R) (first : ℕ) : List (TransactionsRow V R) :=
  (t.transactions.filter (first ≤ ·.blockNumber)).insertionSort
    (fun a b => a.blockNumber ≤ b.blockNumber)

end Reads

section Writes
variable (hashes : Felt → List ℕ) (z : Codec)

/-- `insert_block_header`: `number` is the key. -/
def Tables.insertBlockHeader (t : Tables V R) (header : BlockHeader) : Except StoreError (Tables V R) :=
  if t.blockHeaders.any (·.number = header.number) then .error (.constraint "block_headers")
  else .ok { t with blockHeaders := t.blockHeaders ++ [header] }

def Tables.insertTransactionHash (t : Tables V R) (row : TransactionHashRow) :
    Except StoreError (Tables V R) :=
  if t.transactionHashes.any (·.hash = row.hash) then .error (.constraint "transaction_hashes")
  else if !t.blockHeaders.any (·.number = row.blockNumber) then .error (.constraint "transaction_hashes")
  else .ok { t with transactionHashes := t.transactionHashes ++ [row] }

def Tables.insertTransactionHashes (t : Tables V R) (blockNumber : ℕ) :
    ℕ → List (Transaction V × R) → Except StoreError (Tables V R)
  | _, [] => .ok t
  | idx, p :: rest => do
    let t ← t.insertTransactionHash ⟨p.1.hash,blockNumber,idx⟩
    t.insertTransactionHashes blockNumber (idx + 1) rest

def Tables.insertTransactionsRow (t : Tables V R) (row : TransactionsRow V R) :
    Except StoreError (Tables V R) :=
  if t.transactions.any (·.blockNumber = row.blockNumber) then .error (.constraint "transactions")
  else if !t.blockHeaders.any (·.number = row.blockNumber) then .error (.constraint "transactions")
  else .ok { t with transactions := t.transactions ++ [row] }

/-- `INSERT INTO event_filters ... ON CONFLICT DO UPDATE SET bitmap=excluded.bitmap`. -/
def upsertEventFilter (rows : List EventFilterRow) (row : EventFilterRow) : List EventFilterRow :=
  if rows.any (fun r => r.fromBlock = row.fromBlock ∧ r.toBlock = row.toBlock) then
    rows.map fun r => if r.fromBlock = row.fromBlock ∧ r.toBlock = row.toBlock then { r with bitmap := row.bitmap } else r
  else rows ++ [row]

/-- `upsert_block_event_filters`. -/
def Store.upsertBlockEventFilters (s : Store V R) (blockNumber : ℕ) (events : List Event) :
    Except StoreError (Store V R) :=
  match s.runningEventFilter.filter.insert (eventsBloom hashes events) blockNumber with
  | none => .error (.panic "Block number is not in the range")
  | some filter =>
    if blockNumber = filter.toBlock then
      match filter.compressBitmap z with
      | none => .error (.panic "Compressing aggregate Bloom filter")
      | some bitmap =>
        .ok { tables := { s.tables with
                eventFilters := upsertEventFilter s.tables.eventFilters ⟨filter.fromBlock,filter.toBlock,bitmap⟩ }
              runningEventFilter := ⟨.new (blockNumber + 1),blockNumber + 1⟩ }
    else .ok { s with runningEventFilter := ⟨filter,blockNumber + 1⟩ }

/-- `insert_transaction_data`. -/
def Store.insertTransactionData (s : Store V R) (blockNumber : ℕ) (transactions : List (Transaction V × R))
    (events : Option (List (List Event))) : Except StoreError (Store V R) := do
  let s ← match events with
    | some events => s.upsertBlockEventFilters hashes z blockNumber events.flatten
    | none => pure s
  if transactions.isEmpty && events.all List.isEmpty then
    return s
  let t ← s.tables.insertTransactionHashes blockNumber 0 transactions
  let t ← t.insertTransactionsRow ⟨blockNumber,transactions,events⟩
  return { s with tables := t }

/-- `update_events`. -/
def Store.updateEvents (s : Store V R) (blockNumber : ℕ) (events : List (List Event)) :
    Except StoreError (Store V R) :=
  let transactions := s.tables.transactions.map fun row =>
    if row.blockNumber = blockNumber then { row with events := some events } else row
  Store.upsertBlockEventFilters hashes z { s with tables := { s.tables with transactions } } blockNumber
    events.flatten

def insertRebuilt (first : ℕ) : ℕ → List (Option BloomFilter) → AggregateBloom →
    Except StoreError AggregateBloom
  | _, [], filter => .ok filter
  | _, none :: _, filter => .ok filter
  | block, some bloom :: rest, filter =>
    match filter.insert bloom (first + block) with
    | none => .error (.panic "Block number is not in the range")
    | some filter => insertRebuilt first (block + 1) rest filter

/-- `rebuild` from `first_running_event_filter_block` on, one filter for each row. -/
def RunningEventFilter.rebuildFrom (t : Tables V R) (first : ℕ) : Except StoreError RunningEventFilter := do
  let rebuiltFilters := (t.transactionsFrom first).map fun row =>
    row.events.map fun events => eventsBloom hashes events.flatten
  let filter ← insertRebuilt first 0 rebuiltFilters (.new first)
  return ⟨filter,first + rebuiltFilters.length⟩

/-- `RunningEventFilter::rebuild`: from the block after the last stored range, or genesis. -/
def RunningEventFilter.rebuild (t : Tables V R) (latest : ℕ) : Except StoreError RunningEventFilter :=
  match t.lastToBlock with
  | some lastToBlock =>
    if lastToBlock = latest then .ok ⟨.new (latest + 1),latest + 1⟩
    else RunningEventFilter.rebuildFrom hashes t (lastToBlock + 1)
  | none => RunningEventFilter.rebuildFrom hashes t 0

/-- `reset_in_memory_state`, after a reorg: the running filter is rebuilt. -/
def Store.resetInMemoryState (s : Store V R) (head : ℕ) : Except StoreError (Store V R) := do
  let running ← RunningEventFilter.rebuild hashes s.tables head
  return { s with runningEventFilter := running }

def Store.storeBlocks (s : Store V R) (first : ℕ) : List (SyncedBlock V R) → Except StoreError (Store V R)
  | [] => .ok s
  | b :: bs => do
    let t ← s.tables.insertBlockHeader ⟨first,b.hash⟩
    let s ← Store.insertTransactionData hashes z { s with tables := t } first b.transactions (some b.events)
    s.storeBlocks (first + 1) bs

end Writes

section Blocks

def hashRows (blockNumber idx : ℕ) (transactions : List (Transaction V × R)) : List TransactionHashRow :=
  (transactions.zipIdx idx).map fun p => ⟨p.1.1.hash,blockNumber,p.2⟩

def txHashes (blocks : List (SyncedBlock V R)) : List Felt :=
  blocks.flatMap fun b => b.transactions.map (·.1.hash)

def SyncedBlock.row (b : SyncedBlock V R) (n : ℕ) : List (TransactionsRow V R) :=
  if b.transactions.isEmpty && b.events.isEmpty then [] else [⟨n,b.transactions,some b.events⟩]

def Tables.addBlock (t : Tables V R) (n : ℕ) (b : SyncedBlock V R) : Tables V R :=
  { t with
    blockHeaders := t.blockHeaders ++ [⟨n,b.hash⟩]
    transactions := t.transactions ++ b.row n
    transactionHashes := t.transactionHashes ++ hashRows n 0 b.transactions }

def Tables.addBlocks (t : Tables V R) : ℕ → List (SyncedBlock V R) → Tables V R
  | _, [] => t
  | n, b :: bs => (t.addBlock n b).addBlocks (n + 1) bs

def rowsOf : ℕ → List (SyncedBlock V R) → List (TransactionsRow V R)
  | _, [] => []
  | n, b :: bs => b.row n ++ rowsOf (n + 1) bs

def blockEvents (first : ℕ) (blocks : List (SyncedBlock V R)) : List (ℕ × List Event) :=
  (blocks.zipIdx first).map fun p => (p.2,p.1.events.flatten)

/-- What storing `blocks` from block `first` on needs of the store. -/
structure Store.Fresh (s : Store V R) (first : ℕ) (blocks : List (SyncedBlock V R)) : Prop where
  nextBlock : s.runningEventFilter.nextBlock = first
  fromBlock_le : s.runningEventFilter.filter.fromBlock ≤ first
  lt_toBlock : first + blocks.length ≤ s.runningEventFilter.filter.toBlock
  headers_lt : ∀ h ∈ s.tables.blockHeaders, h.number < first
  rows_lt : ∀ row ∈ s.tables.transactions, row.blockNumber < first
  nodup : (txHashes blocks).Nodup
  fresh : ∀ r ∈ s.tables.transactionHashes, r.hash ∉ txHashes blocks

@[simp] theorem Tables.addBlock_eventFilters (t : Tables V R) (n : ℕ) (b : SyncedBlock V R) :
    (t.addBlock n b).eventFilters = t.eventFilters := rfl

@[simp] theorem Tables.addBlocks_eventFilters : ∀ (t : Tables V R) (n : ℕ) (blocks : List (SyncedBlock V R)),
    (t.addBlocks n blocks).eventFilters = t.eventFilters
  | _, _, [] => rfl
  | t, n, b :: bs => by rw [Tables.addBlocks,Tables.addBlocks_eventFilters,Tables.addBlock_eventFilters]

theorem Tables.addBlocks_transactions : ∀ (t : Tables V R) (n : ℕ) (blocks : List (SyncedBlock V R)),
    (t.addBlocks n blocks).transactions = t.transactions ++ rowsOf n blocks
  | _, _, [] => by simp [Tables.addBlocks,rowsOf]
  | t, n, b :: bs => by
    rw [Tables.addBlocks,Tables.addBlocks_transactions,rowsOf,Tables.addBlock,List.append_assoc]

@[simp] theorem hashRows_nil (n idx : ℕ) : hashRows n idx ([] : List (Transaction V × R)) = [] := rfl

theorem hashRows_cons (n idx : ℕ) (p : Transaction V × R) (rest : List (Transaction V × R)) :
    hashRows n idx (p :: rest) = ⟨p.1.hash,n,idx⟩ :: hashRows n (idx + 1) rest := by
  simp [hashRows,List.zipIdx_cons]

theorem mem_hashRows {n idx : ℕ} {transactions : List (Transaction V × R)} {r : TransactionHashRow}
    (h : r ∈ hashRows n idx transactions) : r.hash ∈ transactions.map (·.1.hash) := by
  obtain ⟨p,hp,rfl⟩ := List.mem_map.mp h
  exact List.mem_map.mpr ⟨p.1,List.fst_mem_of_mem_zipIdx hp,rfl⟩

theorem row_empty {b : SyncedBlock V R} (h : b.transactions = [] ∧ b.events = []) (n : ℕ) : b.row n = [] := by
  simp [SyncedBlock.row,h.1,h.2]

theorem row_nonempty {b : SyncedBlock V R} (h : ¬ (b.transactions = [] ∧ b.events = [])) (n : ℕ) :
    b.row n = [⟨n,b.transactions,some b.events⟩] := by
  have hb : (b.transactions.isEmpty && b.events.isEmpty) = false := by
    rw [Bool.and_eq_false_iff,List.isEmpty_eq_false_iff,List.isEmpty_eq_false_iff]
    by_contra hc
    push Not at hc
    exact h hc
  simp only [SyncedBlock.row,hb,Bool.false_eq_true,↓reduceIte]

theorem length_row_le (b : SyncedBlock V R) (n : ℕ) : (b.row n).length ≤ 1 := by
  unfold SyncedBlock.row
  split <;> simp

theorem length_rowsOf_le : ∀ (n : ℕ) (blocks : List (SyncedBlock V R)), (rowsOf n blocks).length ≤ blocks.length
  | _, [] => le_refl _
  | n, b :: bs => by
    have h1 := length_row_le b n
    have h2 := length_rowsOf_le (n + 1) bs
    rw [rowsOf,List.length_append,List.length_cons]
    omega

theorem length_rowsOf_lt : ∀ (n : ℕ) (blocks : List (SyncedBlock V R)),
    (∃ b ∈ blocks, b.transactions = [] ∧ b.events = []) → (rowsOf n blocks).length < blocks.length
  | _, [], ⟨_,hb,_⟩ => absurd hb List.not_mem_nil
  | n, b :: bs, ⟨c,hc,he⟩ => by
    rw [rowsOf,List.length_append,List.length_cons]
    rcases List.mem_cons.mp hc with rfl | hc
    · have := length_rowsOf_le (n + 1) bs
      rw [row_empty he]
      simp only [List.length_nil]
      omega
    · have h1 := length_row_le b n
      have h2 := length_rowsOf_lt (n + 1) bs ⟨c,hc,he⟩
      omega

theorem rowsOf_bounds : ∀ (n : ℕ) (blocks : List (SyncedBlock V R)), ∀ row ∈ rowsOf n blocks,
    n ≤ row.blockNumber ∧ ∃ events, row.events = some events
  | _, [], _, h => absurd h List.not_mem_nil
  | n, b :: bs, row, h => by
    rcases List.mem_append.mp h with h | h
    · unfold SyncedBlock.row at h
      split at h
      · exact absurd h List.not_mem_nil
      · obtain rfl := List.mem_singleton.mp h
        exact ⟨le_refl _,_,rfl⟩
    · obtain ⟨h1,h2⟩ := rowsOf_bounds (n + 1) bs row h
      exact ⟨by omega,h2⟩

theorem rowsOf_pairwise : ∀ (n : ℕ) (blocks : List (SyncedBlock V R)),
    (rowsOf n blocks).Pairwise fun a c => a.blockNumber < c.blockNumber
  | _, [] => List.Pairwise.nil
  | n, b :: bs => by
    rw [rowsOf,List.pairwise_append]
    refine ⟨?_,rowsOf_pairwise (n + 1) bs,fun a ha c hc => ?_⟩
    · unfold SyncedBlock.row
      split <;> simp
    · have hn : a.blockNumber = n := by
        unfold SyncedBlock.row at ha
        split at ha
        · exact absurd ha List.not_mem_nil
        · rw [List.mem_singleton.mp ha]
      have := (rowsOf_bounds (n + 1) bs c hc).1
      omega

end Blocks

section WriteSpec
variable {hashes : Felt → List ℕ} {z : Codec}

theorem Tables.insertBlockHeader_eq {t : Tables V R} {header : BlockHeader}
    (h : ∀ b ∈ t.blockHeaders, b.number ≠ header.number) :
    t.insertBlockHeader header = .ok { t with blockHeaders := t.blockHeaders ++ [header] } := by
  have hany : (t.blockHeaders.any fun b => decide (b.number = header.number)) = false :=
    List.any_eq_false.mpr fun b hb => by simpa using h b hb
  simp [Tables.insertBlockHeader,hany]

theorem Tables.insertTransactionHash_eq {t : Tables V R} {row : TransactionHashRow}
    (hfresh : ∀ r ∈ t.transactionHashes, r.hash ≠ row.hash)
    (hhead : ∃ b ∈ t.blockHeaders, b.number = row.blockNumber) :
    t.insertTransactionHash row = .ok { t with transactionHashes := t.transactionHashes ++ [row] } := by
  have hany : (t.transactionHashes.any fun r => decide (r.hash = row.hash)) = false :=
    List.any_eq_false.mpr fun r hr => by simpa using hfresh r hr
  have hh : (t.blockHeaders.any fun b => decide (b.number = row.blockNumber)) = true :=
    List.any_eq_true.mpr (by simpa using hhead)
  simp [Tables.insertTransactionHash,hany,hh]

theorem Tables.insertTransactionHashes_eq : ∀ (transactions : List (Transaction V × R)) (t : Tables V R)
    (n idx : ℕ), (∃ b ∈ t.blockHeaders, b.number = n) → (transactions.map (·.1.hash)).Nodup →
    (∀ r ∈ t.transactionHashes, r.hash ∉ transactions.map (·.1.hash)) →
    t.insertTransactionHashes n idx transactions =
      .ok { t with transactionHashes := t.transactionHashes ++ hashRows n idx transactions }
  | [], t, _, _, _, _, _ => by simp [Tables.insertTransactionHashes]
  | p :: rest, t, n, idx, hhead, hnd, hfresh => by
    rw [List.map_cons,List.nodup_cons] at hnd
    have h1 := @Tables.insertTransactionHash_eq V R t ⟨p.1.hash,n,idx⟩
      (fun r hr he => hfresh r hr (he ▸ List.mem_cons_self)) hhead
    have hfresh' : ∀ r ∈ t.transactionHashes ++ [⟨p.1.hash,n,idx⟩], r.hash ∉ rest.map (·.1.hash) := by
      intro r hr
      rcases List.mem_append.mp hr with hr | hr
      · exact fun hm => hfresh r hr (List.mem_cons_of_mem _ hm)
      · rw [List.mem_singleton.mp hr]
        exact hnd.1
    rw [Tables.insertTransactionHashes,h1,except_ok_bind,
      Tables.insertTransactionHashes_eq rest { t with transactionHashes := t.transactionHashes ++ [⟨p.1.hash,n,idx⟩] }
        n (idx + 1) hhead hnd.2 hfresh',hashRows_cons]
    simp

theorem Tables.insertTransactionsRow_eq {t : Tables V R} {row : TransactionsRow V R}
    (hrow : ∀ r ∈ t.transactions, r.blockNumber ≠ row.blockNumber)
    (hhead : ∃ b ∈ t.blockHeaders, b.number = row.blockNumber) :
    t.insertTransactionsRow row = .ok { t with transactions := t.transactions ++ [row] } := by
  have hany : (t.transactions.any fun r => decide (r.blockNumber = row.blockNumber)) = false :=
    List.any_eq_false.mpr fun r hr => by simpa using hrow r hr
  have hh : (t.blockHeaders.any fun b => decide (b.number = row.blockNumber)) = true :=
    List.any_eq_true.mpr (by simpa using hhead)
  simp [Tables.insertTransactionsRow,hany,hh]

theorem Store.upsertBlockEventFilters_eq {s : Store V R} {n : ℕ} {events : List Event} {filter : AggregateBloom}
    (h : s.runningEventFilter.filter.insert (eventsBloom hashes events) n = some filter)
    (hlt : n < s.runningEventFilter.filter.toBlock) :
    s.upsertBlockEventFilters hashes z n events = .ok { s with runningEventFilter := ⟨filter,n + 1⟩ } := by
  have hto : filter.toBlock = s.runningEventFilter.filter.toBlock := by
    rw [filter.toBlock_eq,s.runningEventFilter.filter.toBlock_eq,(AggregateBloom.insert_spec h).1]
  have hne : n ≠ filter.toBlock := by omega
  simp only [Store.upsertBlockEventFilters,h,hne,↓reduceIte]

theorem Store.insertTransactionData_eq {s : Store V R} {n : ℕ} {b : SyncedBlock V R} {filter : AggregateBloom}
    (h : s.runningEventFilter.filter.insert (eventsBloom hashes b.events.flatten) n = some filter)
    (hlt : n < s.runningEventFilter.filter.toBlock) (hhead : ∃ h ∈ s.tables.blockHeaders, h.number = n)
    (hrow : ∀ row ∈ s.tables.transactions, row.blockNumber ≠ n)
    (hnd : (b.transactions.map (·.1.hash)).Nodup)
    (hfresh : ∀ r ∈ s.tables.transactionHashes, r.hash ∉ b.transactions.map (·.1.hash)) :
    s.insertTransactionData hashes z n b.transactions (some b.events) =
      .ok ⟨{ s.tables with
              transactions := s.tables.transactions ++ b.row n
              transactionHashes := s.tables.transactionHashes ++ hashRows n 0 b.transactions },
        ⟨filter,n + 1⟩⟩ := by
  simp only [Store.insertTransactionData,Store.upsertBlockEventFilters_eq h hlt,except_ok_bind,Option.all_some]
  by_cases he : b.transactions = [] ∧ b.events = []
  · have hb : (b.transactions.isEmpty && b.events.isEmpty) = true := by simp [he.1,he.2]
    rw [hb]
    simp [row_empty he,he.1]
  · have hb : (b.transactions.isEmpty && b.events.isEmpty) = false := by
      rw [Bool.and_eq_false_iff,List.isEmpty_eq_false_iff,List.isEmpty_eq_false_iff]
      by_contra hc
      push Not at hc
      exact he hc
    rw [hb,Tables.insertTransactionHashes_eq _ _ n 0 hhead hnd hfresh]
    simp only [Bool.false_eq_true,↓reduceIte,except_ok_bind]
    rw [Tables.insertTransactionsRow_eq hrow hhead,row_nonempty he]
    rfl

theorem Store.storeBlocks_spec : ∀ (blocks : List (SyncedBlock V R)) (s : Store V R) (first : ℕ),
    s.Fresh first blocks →
    ∃ filter, insertBlocks hashes s.runningEventFilter.filter (blockEvents first blocks) = some filter ∧
      s.storeBlocks hashes z first blocks = .ok ⟨s.tables.addBlocks first blocks,⟨filter,first + blocks.length⟩⟩
  | [], s, first, hs => ⟨s.runningEventFilter.filter,rfl,by
      rw [Store.storeBlocks,← hs.nextBlock]
      rfl⟩
  | b :: bs, s, first, hs => by
    have hlen := hs.lt_toBlock
    rw [List.length_cons] at hlen
    obtain ⟨filter1,h1⟩ := s.runningEventFilter.filter.insert_isSome hs.fromBlock_le (by omega)
      (@length_eventsBloom hashes b.events.flatten)
    obtain ⟨hf1,-⟩ := AggregateBloom.insert_spec h1
    have hto1 : filter1.toBlock = s.runningEventFilter.filter.toBlock := by
      rw [filter1.toBlock_eq,s.runningEventFilter.filter.toBlock_eq,hf1]
    have hnd := hs.nodup
    rw [txHashes,List.flatMap_cons,List.nodup_append] at hnd
    have hheader : s.tables.insertBlockHeader ⟨first,b.hash⟩ =
        .ok { s.tables with blockHeaders := s.tables.blockHeaders ++ [⟨first,b.hash⟩] } :=
      Tables.insertBlockHeader_eq fun h hh => (hs.headers_lt h hh).ne
    have hdata := @Store.insertTransactionData_eq V R hashes z
      { s with tables := { s.tables with blockHeaders := s.tables.blockHeaders ++ [⟨first,b.hash⟩] } }
      first b filter1 h1 (by simp only; omega) ⟨⟨first,b.hash⟩,by simp,rfl⟩
      (fun row hr => (hs.rows_lt row hr).ne) hnd.1
      (fun r hr hm => hs.fresh r hr (List.mem_append_left _ hm))
    have hs1 : Store.Fresh ⟨s.tables.addBlock first b,⟨filter1,first + 1⟩⟩ (first + 1) bs := by
      refine ⟨rfl,by rw [hf1]; exact Nat.le_succ_of_le hs.fromBlock_le,by simp only [hto1]; omega,
        fun h hh => ?_,fun row hr => ?_,hnd.2.1,fun r hr hm => ?_⟩
      · rcases List.mem_append.mp hh with hh | hh
        · exact Nat.lt_succ_of_lt (hs.headers_lt h hh)
        · rw [List.mem_singleton.mp hh]
          exact Nat.lt_succ_self _
      · rcases List.mem_append.mp hr with hr | hr
        · exact Nat.lt_succ_of_lt (hs.rows_lt row hr)
        · unfold SyncedBlock.row at hr
          split at hr
          · exact absurd hr List.not_mem_nil
          · rw [List.mem_singleton.mp hr]
            exact Nat.lt_succ_self _
      · rcases List.mem_append.mp hr with hr | hr
        · exact hs.fresh r hr (List.mem_append_right _ hm)
        · exact hnd.2.2 _ (mem_hashRows hr) _ hm rfl
    obtain ⟨filter,hfold,hrun⟩ := Store.storeBlocks_spec bs _ (first + 1) hs1
    refine ⟨filter,?_,?_⟩
    · rw [blockEvents,List.zipIdx_cons,List.map_cons,insertBlocks,List.foldlM_cons]
      simp only [h1,Option.bind_eq_bind,Option.bind_some]
      exact hfold
    · rw [Store.storeBlocks,hheader,except_ok_bind,hdata,except_ok_bind]
      refine hrun.trans ?_
      rw [Tables.addBlocks,List.length_cons,Nat.add_assoc,Nat.add_comm 1]

end WriteSpec

section RebuildSpec
variable {hashes : Felt → List ℕ} {z : Codec}

@[simp] theorem Tables.lastToBlock_addBlocks (t : Tables V R) (n : ℕ) (blocks : List (SyncedBlock V R)) :
    (t.addBlocks n blocks).lastToBlock = t.lastToBlock := by
  simp [Tables.lastToBlock]

theorem Tables.transactionsFrom_eq {t : Tables V R} {first : ℕ} {old new : List (TransactionsRow V R)}
    (ht : t.transactions = old ++ new) (hold : ∀ row ∈ old, row.blockNumber < first)
    (hnew : ∀ row ∈ new, first ≤ row.blockNumber)
    (hsorted : new.Pairwise fun a c => a.blockNumber < c.blockNumber) :
    t.transactionsFrom first = new := by
  have h1 : old.filter (fun row => decide (first ≤ row.blockNumber)) = [] :=
    List.filter_eq_nil_iff.mpr fun row hr => by simpa using hold row hr
  have h2 : new.filter (fun row => decide (first ≤ row.blockNumber)) = new :=
    List.filter_eq_self.mpr fun row hr => by simpa using hnew row hr
  rw [Tables.transactionsFrom,ht,List.filter_append,h1,h2,List.nil_append]
  exact (hsorted.imp Nat.le_of_lt).insertionSort_eq

theorem insertRebuilt_eq (first : ℕ) : ∀ (evs : List (List Event)) (k : ℕ) (agg : AggregateBloom),
    insertRebuilt first k (evs.map fun e => some (eventsBloom hashes e)) agg =
      (insertBlocks hashes agg ((evs.zipIdx (first + k)).map fun p => (p.2,p.1))).elim
        (.error (.panic "Block number is not in the range")) .ok
  | [], _, _ => rfl
  | e :: rest, k, agg => by
    rw [List.map_cons,insertRebuilt,List.zipIdx_cons,List.map_cons,insertBlocks,List.foldlM_cons]
    cases h : agg.insert (eventsBloom hashes e) (first + k) with
    | none => rfl
    | some f =>
      simp only [Option.bind_eq_bind,Option.bind_some]
      rw [insertRebuilt_eq first rest (k + 1) f,Nat.add_assoc]
      rfl

theorem rebuildFrom_addBlocks {t : Tables V R} {first : ℕ} {blocks : List (SyncedBlock V R)}
    (hrows : ∀ row ∈ t.transactions, row.blockNumber < first)
    (hlen : (rowsOf first blocks).length ≤ AGGREGATE_BLOOM_BLOCK_RANGE_LEN) :
    ∃ filter, insertBlocks hashes (.new first)
        ((((rowsOf first blocks).map fun row => (row.events.getD []).flatten).zipIdx first).map
          fun p => (p.2,p.1)) = some filter ∧
      RunningEventFilter.rebuildFrom hashes (t.addBlocks first blocks) first =
        .ok ⟨filter,first + (rowsOf first blocks).length⟩ := by
  have hfrom : (t.addBlocks first blocks).transactionsFrom first = rowsOf first blocks :=
    Tables.transactionsFrom_eq (Tables.addBlocks_transactions t first blocks) hrows
      (fun row hr => (rowsOf_bounds first blocks row hr).1) (rowsOf_pairwise first blocks)
  have hfilters : (rowsOf first blocks).map (fun row => row.events.map fun events => eventsBloom hashes events.flatten) =
      ((rowsOf first blocks).map fun row => (row.events.getD []).flatten).map
        fun e => some (eventsBloom hashes e) := by
    rw [List.map_map]
    refine List.map_congr_left fun row hr => ?_
    obtain ⟨events,he⟩ := (rowsOf_bounds first blocks row hr).2
    simp [he]
  have hrange : ∀ p ∈ (((rowsOf first blocks).map fun row => (row.events.getD []).flatten).zipIdx first).map
      (fun p => (p.2,p.1)), (AggregateBloom.new first).fromBlock ≤ p.1 ∧ p.1 ≤ (AggregateBloom.new first).toBlock := by
    intro p hp
    obtain ⟨q,hq,rfl⟩ := List.mem_map.mp hp
    have := List.mem_zipIdx hq
    simp only [List.length_map] at this
    simp only [AggregateBloom.new,AGGREGATE_BLOOM_BLOCK_RANGE_LEN] at hlen ⊢
    omega
  obtain ⟨filter,hfilter,-⟩ := insertBlocks_spec _ _ hrange
  refine ⟨filter,hfilter,?_⟩
  simp only [RunningEventFilter.rebuildFrom,hfrom,hfilters,insertRebuilt_eq,Nat.add_zero,hfilter,
    Option.elim_some,except_ok_bind,List.length_map,except_pure]

theorem RunningEventFilter.rebuild_eq_rebuildFrom {t : Tables V R} {first latest : ℕ}
    (hlast : (t.lastToBlock.map (· + 1)).getD 0 = first) (hle : first ≤ latest) :
    RunningEventFilter.rebuild hashes t latest = RunningEventFilter.rebuildFrom hashes t first := by
  unfold RunningEventFilter.rebuild
  cases h : t.lastToBlock with
  | none =>
    rw [h] at hlast
    rw [← hlast]
    rfl
  | some l =>
    rw [h,Option.map_some,Option.getD_some] at hlast
    have hne : l ≠ latest := by omega
    simp only [hne,↓reduceIte,hlast]

/-- The running filter that `rebuild` builds after a block with no transactions and no
events does not agree with the one sync built block by block: `insert_transaction_data`
writes no row for that block, `rebuild` numbers the rows it finds one after another from the
first block, and so puts the later blocks' filters into earlier columns and expects a block
that is already stored. -/
theorem rebuild_nextBlock_lt_of_empty_block {s : Store V R} {first : ℕ} {blocks : List (SyncedBlock V R)}
    (hs : s.Fresh first blocks) (hnew : s.runningEventFilter.filter = .new first)
    (hlast : (s.tables.lastToBlock.map (· + 1)).getD 0 = first)
    (hempty : ∃ b ∈ blocks, b.transactions = [] ∧ b.events = []) :
    ∃ s', s.storeBlocks hashes z first blocks = .ok s' ∧
      ∃ r, RunningEventFilter.rebuild hashes s'.tables (first + blocks.length - 1) = .ok r ∧
        r.nextBlock < s'.runningEventFilter.nextBlock := by
  obtain ⟨filter,-,hrun⟩ := @Store.storeBlocks_spec V R hashes z blocks s first hs
  have hlt := length_rowsOf_lt first blocks hempty
  have hlen : (rowsOf first blocks).length ≤ AGGREGATE_BLOOM_BLOCK_RANGE_LEN := by
    have := hs.lt_toBlock
    rw [hnew] at this
    simp only [AggregateBloom.new,AGGREGATE_BLOOM_BLOCK_RANGE_LEN] at this ⊢
    omega
  obtain ⟨f,-,hr⟩ := @rebuildFrom_addBlocks V R hashes s.tables first blocks hs.rows_lt hlen
  have hreb : RunningEventFilter.rebuild hashes (s.tables.addBlocks first blocks) (first + blocks.length - 1) =
      RunningEventFilter.rebuildFrom hashes (s.tables.addBlocks first blocks) first :=
    RunningEventFilter.rebuild_eq_rebuildFrom (by rw [Tables.lastToBlock_addBlocks]; exact hlast) (by omega)
  refine ⟨_,hrun,⟨f,first + (rowsOf first blocks).length⟩,hreb.trans hr,?_⟩
  · show first + (rowsOf first blocks).length < first + blocks.length
    omega

theorem rebuild_nextBlock_lt_after_empty_genesis :
    let hashes : Felt → List ℕ := fun _ => [5]
    let z : Codec := ⟨some,fun c _ => some c⟩
    let tx : Transaction Unit × Unit := (⟨⟨Vector.replicate 32 1⟩,()⟩,())
    let blocks : List (SyncedBlock Unit Unit) :=
      [⟨⟨Vector.replicate 32 2⟩,[],[]⟩,⟨⟨Vector.replicate 32 3⟩,[tx],[[⟨[],⟨Vector.replicate 32 4⟩,[]⟩]]⟩]
    Store.empty.Fresh 0 blocks ∧ (Store.empty : Store Unit Unit).runningEventFilter.filter = .new 0 ∧
      ((Store.empty : Store Unit Unit).tables.lastToBlock.map (· + 1)).getD 0 = 0 ∧
      (∃ b ∈ blocks, b.transactions = [] ∧ b.events = []) ∧
      ∃ s', Store.empty.storeBlocks hashes z 0 blocks = .ok s' ∧
        ∃ r, RunningEventFilter.rebuild hashes s'.tables (0 + blocks.length - 1) = .ok r ∧
          r.nextBlock < s'.runningEventFilter.nextBlock := by
  intro hashes z tx blocks
  have hs : (Store.empty : Store Unit Unit).Fresh 0 blocks :=
    ⟨rfl,le_refl _,by simp [Store.empty,AggregateBloom.new,AGGREGATE_BLOOM_BLOCK_RANGE_LEN,blocks],
      by simp [Store.empty],by simp [Store.empty],by simp [txHashes,blocks,tx],by simp [Store.empty]⟩
  have hempty : ∃ b ∈ blocks, b.transactions = [] ∧ b.events = [] := ⟨_,List.mem_cons_self,rfl,rfl⟩
  exact ⟨hs,rfl,rfl,hempty,rebuild_nextBlock_lt_of_empty_block hs rfl rfl hempty⟩

end RebuildSpec

section ReadSpec
variable {hashes : Felt → List ℕ} {z : Codec}

theorem Tables.blockNumber_number {t : Tables V R} {n : ℕ} (h : ∃ b ∈ t.blockHeaders, b.number = n) :
    t.blockNumber (.number n) = some n := by
  have hany : (t.blockHeaders.any fun b => decide (b.number = n)) = true :=
    List.any_eq_true.mpr (by simpa using h)
  simp [Tables.blockNumber,hany]

theorem Tables.transactionsRow_append {rows : List (TransactionsRow V R)} {t : Tables V R}
    {row : TransactionsRow V R} (hrow : ∀ r ∈ rows, r.blockNumber ≠ row.blockNumber)
    (ht : t.transactions = rows ++ [row]) : t.transactionsRow row.blockNumber = some row := by
  have hnone : rows.find? (fun r => decide (r.blockNumber = row.blockNumber)) = none :=
    List.find?_eq_none.mpr fun r hr => by simpa using hrow r hr
  simp [Tables.transactionsRow,ht,List.find?_append,hnone]

theorem Tables.reads_of_row {t : Tables V R} {row : TransactionsRow V R}
    (hhead : ∃ b ∈ t.blockHeaders, b.number = row.blockNumber)
    (hrow : t.transactionsRow row.blockNumber = some row) :
    t.transactionDataForBlock (.number row.blockNumber) =
        some ((row.transactions.zip (row.events.getD [])).map fun p => (p.1.1,p.1.2,p.2)) ∧
      t.transactionCount (.number row.blockNumber) = row.transactions.length ∧
      t.transactionsForBlock (.number row.blockNumber) = some (row.transactions.map (·.1)) := by
  simp [Tables.transactionDataForBlock,Tables.transactionCount,Tables.transactionsForBlock,
    Tables.blockNumber_number hhead,Tables.queryTransactionsAndEventsByBlock,
    Tables.queryTransactionsByBlock,hrow]

theorem getTransactionsForBlock_eq {t : Tables V R} {n : ℕ} {data : List (Transaction V × R × List Event)}
    (h : t.transactionDataForBlock (.number n) = some data) :
    getTransactionsForBlock t n = some (data.map fun d => (d.1,d.2.1)) := by
  simp [getTransactionsForBlock,h]

theorem Store.insertTransactionData_none_eq {s : Store V R} {n : ℕ} {transactions : List (Transaction V × R)}
    (hne : transactions ≠ []) (hhead : ∃ h ∈ s.tables.blockHeaders, h.number = n)
    (hrow : ∀ row ∈ s.tables.transactions, row.blockNumber ≠ n)
    (hnd : (transactions.map (·.1.hash)).Nodup)
    (hfresh : ∀ r ∈ s.tables.transactionHashes, r.hash ∉ transactions.map (·.1.hash)) :
    s.insertTransactionData hashes z n transactions none =
      .ok { s with tables := { s.tables with
              transactions := s.tables.transactions ++ [⟨n,transactions,none⟩]
              transactionHashes := s.tables.transactionHashes ++ hashRows n 0 transactions } } := by
  have hb : (transactions.isEmpty && (none : Option (List (List Event))).all List.isEmpty) = false := by
    simpa using hne
  simp only [Store.insertTransactionData,except_pure,except_ok_bind,hb,Bool.false_eq_true,↓reduceIte,
    Tables.insertTransactionHashes_eq _ _ n 0 hhead hnd hfresh]
  rw [Tables.insertTransactionsRow_eq hrow hhead]
  rfl

/-- A block whose transactions are stored before its events, as checkpoint sync stores them,
reads back with no transaction data until `update_events`: `transaction_data_for_block` zips
its transactions with the `NULL` events read as no lists, so the p2p server sends none of
them, while `transaction_count` and `transactions_for_block` count them all. -/
theorem transactionDataForBlock_nil_of_events_none {s : Store V R} {n : ℕ}
    {transactions : List (Transaction V × R)} (hne : transactions ≠ [])
    (hhead : ∃ h ∈ s.tables.blockHeaders, h.number = n)
    (hrow : ∀ row ∈ s.tables.transactions, row.blockNumber ≠ n)
    (hnd : (transactions.map (·.1.hash)).Nodup)
    (hfresh : ∀ r ∈ s.tables.transactionHashes, r.hash ∉ transactions.map (·.1.hash)) :
    ∃ s', s.insertTransactionData hashes z n transactions none = .ok s' ∧
      s'.tables.transactionDataForBlock (.number n) = some [] ∧ getTransactionsForBlock s'.tables n = some [] ∧
      s'.tables.transactionCount (.number n) = transactions.length ∧
      s'.tables.transactionsForBlock (.number n) = some (transactions.map (·.1)) := by
  refine ⟨_,Store.insertTransactionData_none_eq hne hhead hrow hnd hfresh,?_⟩
  have hfind := @Tables.transactionsRow_append V R s.tables.transactions
    { s.tables with
      transactions := s.tables.transactions ++ [⟨n,transactions,none⟩]
      transactionHashes := s.tables.transactionHashes ++ hashRows n 0 transactions }
    ⟨n,transactions,none⟩ hrow rfl
  obtain ⟨hdata,hcount,hfor⟩ := Tables.reads_of_row hhead hfind
  simp only [List.zip_nil_right,List.map_nil,Option.getD_none] at hdata
  exact ⟨hdata,by rw [getTransactionsForBlock_eq hdata,List.map_nil],hcount,hfor⟩

theorem transactionDataForBlock_nil_at_checkpoint :
    let hashes : Felt → List ℕ := fun _ => [5]
    let z : Codec := ⟨some,fun c _ => some c⟩
    let tx : Transaction Unit × Unit := (⟨⟨Vector.replicate 32 1⟩,()⟩,())
    let s : Store Unit Unit := ⟨⟨[⟨0,⟨Vector.replicate 32 2⟩⟩],[],[],[]⟩,⟨.new 0,0⟩⟩
    [tx] ≠ [] ∧ (∃ h ∈ s.tables.blockHeaders, h.number = 0) ∧
      (∀ row ∈ s.tables.transactions, row.blockNumber ≠ 0) ∧ ([tx].map (·.1.hash)).Nodup ∧
      (∀ r ∈ s.tables.transactionHashes, r.hash ∉ [tx].map (·.1.hash)) ∧
      ∃ s', s.insertTransactionData hashes z 0 [tx] none = .ok s' ∧
        s'.tables.transactionDataForBlock (.number 0) = some [] ∧ getTransactionsForBlock s'.tables 0 = some [] ∧
        s'.tables.transactionCount (.number 0) = [tx].length ∧
        s'.tables.transactionsForBlock (.number 0) = some ([tx].map (·.1)) := by
  intro hashes z tx s
  have hne : [tx] ≠ [] := List.cons_ne_nil _ _
  have hhead : ∃ h ∈ s.tables.blockHeaders, h.number = 0 := ⟨_,List.mem_singleton_self _,rfl⟩
  have hrow : ∀ row ∈ s.tables.transactions, row.blockNumber ≠ 0 := fun _ h => absurd h List.not_mem_nil
  have hnd : ([tx].map (·.1.hash)).Nodup := List.nodup_singleton _
  have hfresh : ∀ r ∈ s.tables.transactionHashes, r.hash ∉ [tx].map (·.1.hash) :=
    fun _ h => absurd h List.not_mem_nil
  exact ⟨hne,hhead,hrow,hnd,hfresh,transactionDataForBlock_nil_of_events_none hne hhead hrow hnd hfresh⟩

end ReadSpec

end Storage
end Pathfinder
