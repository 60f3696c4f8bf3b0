import Mathlib.Data.List.MinMax
import Mathlib.Data.List.Nodup

/-! The consistency check at the start of checkpoint sync (`sync/checkpoint.rs`): the local
state is read from the database (`LocalState::from_db`), compared with an L1 checkpoint
(`CheckpointAnalysis::analyse`), and the analysis handled (`handle`), which fails, rolls the
local chain back to its L1 anchor with `rollback_to_anchor`, or does nothing. The database is the
tables these read and `purge_block` clears: the headers keyed by number, the event filters by
block range, the per-block state tables by block number, and the L1 states. -/

namespace Pathfinder
namespace Sync

/-- `EthereumStateUpdate`, its state root left out. -/
structure EthereumStateUpdate (H : Type) where
  blockNumber : ℕ
  blockHash : H
deriving DecidableEq

/-- The per-block state tables that `purge_block` deletes from by `block_number`. -/
inductive BlockTable
  | contractUpdates | nonceUpdates | storageUpdates | contractRoots | classCommitmentLeaves
  | contractStateHashes | classRoots | storageRoots | trieContractsRemovals
  | trieStorageRemovals | trieClassRemovals
deriving DecidableEq

/-- The tables, with rows of any type `R` in the per-block state tables. -/
structure Database (H R : Type) where
  /-- `block_headers` as `(number, hash)` -/
  blockHeaders : List (ℕ × H)
  /-- `event_filters` as `(from_block, to_block)` -/
  eventFilters : List (ℕ × ℕ)
  blockRows : BlockTable → List (ℕ × R)
  l1State : List (EthereumStateUpdate H)
  /-- `number` is the key of `block_headers` -/
  blockHeaders_nodup : (blockHeaders.map Prod.fst).Nodup

variable {H R : Type}

/-- `DELETE FROM table WHERE block_number = ?` on a table keyed by block number. -/
def deleteBlock {α : Type} (rows : List (ℕ × α)) (block : ℕ) : List (ℕ × α) :=
  rows.filter fun row => row.1 != block

@[simp] theorem mem_deleteBlock {α : Type} {rows : List (ℕ × α)} {block : ℕ} {x : ℕ × α} :
    x ∈ deleteBlock rows block ↔ x ∈ rows ∧ x.1 ≠ block := by
  simp [deleteBlock]

namespace Database

/-- `Transaction::purge_block`. -/
def purgeBlock (db : Database H R) (block : ℕ) : Database H R where
  eventFilters := db.eventFilters.filter fun filter => !(filter.1 ≤ block && block ≤ filter.2)
  blockHeaders := deleteBlock db.blockHeaders block
  blockRows table := deleteBlock (db.blockRows table) block
  l1State := db.l1State
  blockHeaders_nodup :=
    List.Nodup.sublist (List.filter_sublist.map Prod.fst) db.blockHeaders_nodup

@[simp] theorem blockHeaders_purgeBlock (db : Database H R) (block : ℕ) :
    (db.purgeBlock block).blockHeaders = deleteBlock db.blockHeaders block := rfl

@[simp] theorem blockRows_purgeBlock (db : Database H R) (block : ℕ) (table : BlockTable) :
    (db.purgeBlock block).blockRows table = deleteBlock (db.blockRows table) block := rfl

@[simp] theorem l1State_purgeBlock (db : Database H R) (block : ℕ) :
    (db.purgeBlock block).l1State = db.l1State := rfl

def purgeDown (lastBlockToRemove : ℕ) : ℕ → Database H R → Database H R
  | 0, db => if lastBlockToRemove ≤ 0 then db.purgeBlock 0 else db
  | head + 1, db =>
    if lastBlockToRemove ≤ head + 1 then purgeDown lastBlockToRemove head (db.purgeBlock (head + 1))
    else db

/-- `rollback_to_anchor`. -/
def rollbackToAnchor (db : Database H R) (localBlock : ℕ) (anchor : Option ℕ) : Database H R :=
  purgeDown ((anchor.map (· + 1)).getD 0) localBlock db

theorem mem_purgeDown {α : Type} (get : Database H R → List (ℕ × α))
    (hget : ∀ db block, get (db.purgeBlock block) = deleteBlock (get db) block)
    (lastBlockToRemove : ℕ) (head : ℕ) (db : Database H R) (x : ℕ × α) :
    x ∈ get (purgeDown lastBlockToRemove head db) ↔
      x ∈ get db ∧ ¬(lastBlockToRemove ≤ x.1 ∧ x.1 ≤ head) := by
  induction head generalizing db with
  | zero =>
    by_cases hlast : lastBlockToRemove ≤ 0
    · rw [purgeDown, if_pos hlast, hget, mem_deleteBlock]
      exact and_congr_right fun _ => by omega
    · rw [purgeDown, if_neg hlast]
      exact (and_iff_left (by omega)).symm
  | succ head ih =>
    by_cases hlast : lastBlockToRemove ≤ head + 1
    · rw [purgeDown, if_pos hlast, ih, hget, mem_deleteBlock, and_assoc]
      exact and_congr_right fun _ => by omega
    · rw [purgeDown, if_neg hlast]
      exact (and_iff_left (by omega)).symm

theorem mem_purgeDown_blockHeaders (lastBlockToRemove head : ℕ) (db : Database H R) (x : ℕ × H) :
    x ∈ (purgeDown lastBlockToRemove head db).blockHeaders ↔
      x ∈ db.blockHeaders ∧ ¬(lastBlockToRemove ≤ x.1 ∧ x.1 ≤ head) :=
  mem_purgeDown blockHeaders (fun _ _ => rfl) lastBlockToRemove head db x

theorem mem_purgeDown_blockRows (lastBlockToRemove head : ℕ) (db : Database H R)
    (table : BlockTable) (x : ℕ × R) :
    x ∈ (purgeDown lastBlockToRemove head db).blockRows table ↔
      x ∈ db.blockRows table ∧ ¬(lastBlockToRemove ≤ x.1 ∧ x.1 ≤ head) :=
  mem_purgeDown (fun db => db.blockRows table) (fun _ _ => rfl) lastBlockToRemove head db x

def rolledBack (localBlock : ℕ) (anchor : Option ℕ) (n : ℕ) : Prop :=
  (anchor.map (· + 1)).getD 0 ≤ n ∧ n ≤ localBlock

theorem mem_rollbackToAnchor_blockHeaders (db : Database H R) (localBlock : ℕ)
    (anchor : Option ℕ) (x : ℕ × H) :
    x ∈ (db.rollbackToAnchor localBlock anchor).blockHeaders ↔
      x ∈ db.blockHeaders ∧ ¬rolledBack localBlock anchor x.1 :=
  mem_purgeDown_blockHeaders _ _ db x

theorem mem_rollbackToAnchor_blockRows (db : Database H R) (localBlock : ℕ)
    (anchor : Option ℕ) (table : BlockTable) (x : ℕ × R) :
    x ∈ (db.rollbackToAnchor localBlock anchor).blockRows table ↔
      x ∈ db.blockRows table ∧ ¬rolledBack localBlock anchor x.1 :=
  mem_purgeDown_blockRows _ _ db table x

/-- `FinalizedBlockId`. -/
inductive FinalizedBlockId (H : Type)
  | latest
  | number (n : ℕ)
  | hash (h : H)

variable [DecidableEq H]

/-- `Transaction::block_id`: the highest header, the header of a number, or of a hash. -/
def blockId (db : Database H R) : FinalizedBlockId H → Option (ℕ × H)
  | .latest => db.blockHeaders.argmax Prod.fst
  | .number number => (db.blockHeaders.find? fun header => header.1 == number).map
      fun header => (number, header.2)
  | .hash hash => (db.blockHeaders.find? fun header => header.2 == hash).map
      fun header => (header.1, hash)

/-- `latest_l1_state`: the L1 state of the highest Starknet block number. -/
def latestL1State (db : Database H R) : Option (EthereumStateUpdate H) :=
  db.l1State.argmax EthereumStateUpdate.blockNumber

theorem blockId_number_of_mem {db : Database H R} {n : ℕ} {h : H} (hmem : (n, h) ∈ db.blockHeaders) :
    db.blockId (.number n) = some (n, h) := by
  have hsome : (db.blockHeaders.find? fun header => header.1 == n).isSome :=
    List.find?_isSome.mpr ⟨(n, h), hmem, by simp⟩
  obtain ⟨header, hfind⟩ := Option.isSome_iff_exists.mp hsome
  have hkey : header.1 = n := by simpa using List.find?_some hfind
  have heq : header = (n, h) :=
    List.inj_on_of_nodup_map db.blockHeaders_nodup (List.mem_of_find?_eq_some hfind) hmem hkey
  simp [blockId, hfind, heq]

theorem le_of_blockId_latest {db : Database H R} {latest : ℕ × H}
    (hid : db.blockId .latest = some latest) {x : ℕ × H} (hx : x ∈ db.blockHeaders) :
    x.1 ≤ latest.1 :=
  List.le_of_mem_argmax hx hid

theorem blockId_latest_of_mem {db : Database H R} {x : ℕ × H} (hx : x ∈ db.blockHeaders) :
    ∃ latest, db.blockId .latest = some latest ∧ x.1 ≤ latest.1 := by
  cases hid : db.blockId .latest with
  | none =>
    rw [blockId, List.argmax_eq_none] at hid
    rw [hid] at hx
    cases hx
  | some latest => exact ⟨latest, rfl, le_of_blockId_latest hid hx⟩

end Database

open Database

variable [DecidableEq H]

/-- `LocalState`. -/
structure LocalState (H : Type) where
  latestHeader : Option (ℕ × H)
  anchor : Option (EthereumStateUpdate H)
  checkpoint : Option (ℕ × H)

/-- `LocalState::from_db`. -/
def LocalState.fromDb (db : Database H R) (checkpoint : EthereumStateUpdate H) : LocalState H where
  latestHeader := db.blockId .latest
  checkpoint := db.blockId (.number checkpoint.blockNumber)
  anchor := db.latestL1State

/-- `CheckpointAnalysis`. -/
inductive CheckpointAnalysis (H : Type)
  | hashMismatchWithAnchor (block : ℕ) (checkpoint anchor : H)
  | predatesAnchor (checkpoint anchor : ℕ)
  | exceedsLocalChain (localBlock checkpoint : ℕ) (anchor : Option ℕ)
  | hashMismatchWithLocalChain (block : ℕ) (localHash checkpoint : H) (anchor : Option ℕ)
  | consistent

def CheckpointAnalysis.analyseLocalChain (localState : LocalState H)
    (checkpoint : EthereumStateUpdate H) : CheckpointAnalysis H :=
  match localState.latestHeader with
  | some latest =>
    if checkpoint.blockNumber > latest.1 then
      .exceedsLocalChain latest.1 checkpoint.blockNumber
        (localState.anchor.map EthereumStateUpdate.blockNumber)
    else
      match localState.checkpoint with
      | some (_, hash) =>
        if hash ≠ checkpoint.blockHash then
          .hashMismatchWithLocalChain checkpoint.blockNumber hash checkpoint.blockHash
            (localState.anchor.map EthereumStateUpdate.blockNumber)
        else .consistent
      | none => .consistent
  | none => .consistent

/-- `CheckpointAnalysis::analyse`. -/
def CheckpointAnalysis.analyse (localState : LocalState H) (checkpoint : EthereumStateUpdate H) :
    CheckpointAnalysis H :=
  match localState.anchor with
  | some anchor =>
    if checkpoint.blockNumber < anchor.blockNumber then
      .predatesAnchor checkpoint.blockNumber anchor.blockNumber
    else if checkpoint.blockNumber = anchor.blockNumber ∧ checkpoint.blockHash ≠ anchor.blockHash then
      .hashMismatchWithAnchor anchor.blockNumber checkpoint.blockHash anchor.blockHash
    else analyseLocalChain localState checkpoint
  | none => analyseLocalChain localState checkpoint

/-- `CheckpointAnalysis::handle`. -/
def CheckpointAnalysis.handle (analysis : CheckpointAnalysis H) (db : Database H R) :
    Except String (Database H R) :=
  match analysis with
  | .hashMismatchWithAnchor _ _ _ => throw "Ethereum checkpoint hash did not match local anchor."
  | .predatesAnchor _ _ => throw "Ethereum checkpoint is older than the local anchor."
  | .exceedsLocalChain localBlock _ anchor => pure (db.rollbackToAnchor localBlock anchor)
  | .hashMismatchWithLocalChain block _ _ anchor => pure (db.rollbackToAnchor block anchor)
  | .consistent => pure db

def analyseAndHandle (db : Database H R) (checkpoint : EthereumStateUpdate H) :
    Except String (Database H R) :=
  (CheckpointAnalysis.analyse (LocalState.fromDb db checkpoint) checkpoint).handle db

def AgreesWithAnchor (db : Database H R) (checkpoint : EthereumStateUpdate H) : Prop :=
  ∀ anchor ∈ db.latestL1State, anchor.blockNumber ≤ checkpoint.blockNumber ∧
    (checkpoint.blockNumber = anchor.blockNumber → checkpoint.blockHash = anchor.blockHash)

theorem analyse_of_agreesWithAnchor {db : Database H R} {checkpoint : EthereumStateUpdate H}
    (hagree : AgreesWithAnchor db checkpoint) :
    CheckpointAnalysis.analyse (LocalState.fromDb db checkpoint) checkpoint =
      CheckpointAnalysis.analyseLocalChain (LocalState.fromDb db checkpoint) checkpoint := by
  unfold CheckpointAnalysis.analyse
  split
  · rename_i anchor hanchor
    obtain ⟨hle, hhash⟩ := hagree anchor hanchor
    rw [if_neg (by omega), if_neg (fun h => h.2 (hhash h.1))]
  · rfl

def anchorNumber (db : Database H R) : Option ℕ :=
  db.latestL1State.map EthereumStateUpdate.blockNumber

theorem analyse_of_hashMismatch {db : Database H R} {checkpoint : EthereumStateUpdate H}
    (hagree : AgreesWithAnchor db checkpoint) {localHash : H}
    (hlocal : (checkpoint.blockNumber, localHash) ∈ db.blockHeaders)
    (hne : localHash ≠ checkpoint.blockHash) :
    CheckpointAnalysis.analyse (LocalState.fromDb db checkpoint) checkpoint =
      .hashMismatchWithLocalChain checkpoint.blockNumber localHash checkpoint.blockHash
        (anchorNumber db) := by
  obtain ⟨latest, hlatest, hle⟩ := blockId_latest_of_mem hlocal
  rw [analyse_of_agreesWithAnchor hagree, CheckpointAnalysis.analyseLocalChain]
  simp only [LocalState.fromDb, hlatest, blockId_number_of_mem hlocal]
  rw [if_neg (Nat.not_lt.mpr hle), if_pos hne]
  rfl

/-- A hash mismatch with the local chain below its tip rolls back only up to the checkpoint's
block: a header above the checkpoint stays, with its rows in every per-block table, though it is
above the anchor, so the anchor is not the local tip. -/
theorem analyseAndHandle_keeps_blocks_above_checkpoint (db : Database H R)
    (checkpoint : EthereumStateUpdate H) (hagree : AgreesWithAnchor db checkpoint) {localHash : H}
    (hlocal : (checkpoint.blockNumber, localHash) ∈ db.blockHeaders)
    (hne : localHash ≠ checkpoint.blockHash) {n : ℕ} {hash : H} (habove : (n, hash) ∈ db.blockHeaders)
    (hgt : checkpoint.blockNumber < n) :
    ∃ db', analyseAndHandle db checkpoint = .ok db' ∧ (n, hash) ∈ db'.blockHeaders ∧
      (∀ table row, (n, row) ∈ db.blockRows table → (n, row) ∈ db'.blockRows table) ∧
      ∀ anchor ∈ db.latestL1State, anchor.blockNumber < n := by
  have hkept : ¬rolledBack checkpoint.blockNumber (anchorNumber db) n :=
    fun h => absurd h.2 (by omega)
  refine ⟨db.rollbackToAnchor checkpoint.blockNumber (anchorNumber db), ?_, ?_, ?_, ?_⟩
  · rw [analyseAndHandle, analyse_of_hashMismatch hagree hlocal hne]
    rfl
  · exact (mem_rollbackToAnchor_blockHeaders _ _ _ _).mpr ⟨habove, hkept⟩
  · intro table row hrow
    exact (mem_rollbackToAnchor_blockRows _ _ _ _ _).mpr ⟨hrow, hkept⟩
  · intro anchor hanchor
    have := (hagree anchor hanchor).1
    omega

theorem analyseAndHandle_keeps_block_two :
    ∃ db', analyseAndHandle (⟨[(0, 10), (1, 11), (2, 12)], [], fun _ => [], [], by decide⟩ :
        Database ℕ ℕ) ⟨1, 99⟩ = .ok db' ∧ (2, 12) ∈ db'.blockHeaders ∧
      (∀ table row, (2, row) ∈ (fun _ => [] : BlockTable → List (ℕ × ℕ)) table →
        (2, row) ∈ db'.blockRows table) ∧
      ∀ anchor ∈ (⟨[(0, 10), (1, 11), (2, 12)], [], fun _ => [], [], by decide⟩ :
        Database ℕ ℕ).latestL1State, anchor.blockNumber < 2 :=
  analyseAndHandle_keeps_blocks_above_checkpoint _ ⟨1, 99⟩
    (fun anchor hanchor => by simp [latestL1State] at hanchor)
    (show ((1 : ℕ), (11 : ℕ)) ∈ [(0, 10), (1, 11), (2, 12)] by decide) (by decide) (by decide)
    (by decide)

end Sync
end Pathfinder
