import Mathlib.Data.List.Basic
import Mathlib.Tactic.Ring

/-! The server side of p2p sync (`pathfinder/src/p2p_network/sync/sync_handlers.rs`): `iterate`
walks the requested blocks from a start given by number or by hash, forward or backward by a
step, and a block handler sends each block's messages, then `Fin`. The protocol's messages
(`p2p_proto::event`) are modelled with what the handler and the client read of them; the
client's event requests start at a block number and go forward by one. A failing database read
is left out. -/

namespace Pathfinder
namespace P2p

/-- `EventsRequest`, with its `Iteration` from `start` forward by one for `limit` blocks. -/
structure EventsRequest where
  start : ℕ
  limit : ℕ
deriving DecidableEq

/-- `EventsResponse`: an event with the hash of the transaction that emitted it, or `Fin`. -/
inductive EventsResponse (T D : Type)
  | event (transactionHash : T) (dto : D)
  | fin
deriving DecidableEq

/-- `BlockNumberOrHash`. -/
inductive BlockNumberOrHash (H : Type)
  | number (n : ℕ)
  | hash (h : H)
deriving DecidableEq

inductive Direction
  | forward
  | backward
deriving DecidableEq

/-- `Step`: at least one. -/
structure Step where
  get : ℕ
  pos : 0 < get
deriving DecidableEq

/-- `Iteration`. -/
structure Iteration (H : Type) where
  start : BlockNumberOrHash H
  direction : Direction
  limit : ℕ
  step : Step

/-- `i64::MAX`, the largest `BlockNumber`. -/
def I64_MAX : ℕ := 2 ^ 63 - 1

/-- `BlockNumber::new`. -/
def blockNumberNew (n : ℕ) : Option ℕ := if n ≤ I64_MAX then some n else none

/-- `u64::checked_add`. -/
def checkedAdd (a b : ℕ) : Option ℕ := if a + b < 2 ^ 64 then some (a + b) else none

/-- `u64::checked_sub`. -/
def checkedSub (a b : ℕ) : Option ℕ := if b ≤ a then some (a - b) else none

namespace SyncHandlers

def MAX_BLOCKS_COUNT : ℕ := 100

variable {T D E α : Type}

/-- `get_start_block_number`. -/
def getStartBlockNumber {H : Type} (start : BlockNumberOrHash H)
    (blockId : H → Option {n : ℕ // n ≤ I64_MAX}) : Option ℕ :=
  match start with
  | .number n => blockNumberNew n
  | .hash h => (blockId h).map Subtype.val

/-- `get_next_block_number`. -/
def getNextBlockNumber (current : ℕ) (step : Step) (direction : Direction) : Option ℕ :=
  match direction with
  | .forward => (checkedAdd current step.get).bind blockNumberNew
  | .backward => (checkedSub current step.get).bind blockNumberNew

def iterateLoop (blockHandler : ℕ → Option (List α)) (step : Step) (direction : Direction) :
    ℕ → ℕ → List ℕ × List α
  | 0, _ => ([], [])
  | remaining + 1, blockNumber =>
    match blockHandler blockNumber with
    | none => ([blockNumber], [])
    | some messages =>
      let rest :=
        if remaining = 0 then ([], [])
        else
          match getNextBlockNumber blockNumber step direction with
          | none => ([], [])
          | some next => iterateLoop blockHandler step direction remaining next
      (blockNumber :: rest.1, messages ++ rest.2)

/-- `iterate`. -/
def Iteration.iterate {H : Type} (iteration : Iteration H)
    (blockId : H → Option {n : ℕ // n ≤ I64_MAX})
    (blockHandler : ℕ → Option (List α)) (fin : α) : List ℕ × List α :=
  if iteration.limit = 0 then ([], [fin])
  else
    match getStartBlockNumber iteration.start blockId with
    | none => ([], [fin])
    | some blockNumber =>
      let sent := iterateLoop blockHandler iteration.step iteration.direction
        (min iteration.limit MAX_BLOCKS_COUNT) blockNumber
      (sent.1, sent.2 ++ [fin])

/-- `get_events_for_block`. -/
def getEventsForBlock (toDto : E → D) (transactionData : ℕ → Option (List (T × List E)))
    (blockNumber : ℕ) : Option (List (EventsResponse T D)) :=
  (transactionData blockNumber).map fun txnData =>
    txnData.flatMap fun txn => txn.2.map fun event => .event txn.1 (toDto event)

/-- `blocking::get_events`. -/
def getEvents {H : Type} (blockId : H → Option {n : ℕ // n ≤ I64_MAX}) (toDto : E → D)
    (transactionData : ℕ → Option (List (T × List E))) (request : EventsRequest) :
    List (EventsResponse T D) :=
  (Iteration.iterate ⟨.number request.start, .forward, request.limit, ⟨1, Nat.one_pos⟩⟩ blockId
    (getEventsForBlock toDto transactionData) .fin).2

/-! ### The progression `iterate` walks -/

def progression (start : ℕ) (step : Step) (direction : Direction) (i : ℕ) : ℤ :=
  match direction with
  | .forward => start + step.get * i
  | .backward => start - step.get * i

def InRange (z : ℤ) : Prop := 0 ≤ z ∧ z ≤ I64_MAX

instance : DecidablePred InRange := fun z => inferInstanceAs (Decidable (0 ≤ z ∧ z ≤ _))

theorem I64_MAX_eq : I64_MAX = 9223372036854775807 := rfl

@[simp] theorem progression_zero (start : ℕ) (step : Step) (direction : Direction) :
    progression start step direction 0 = start := by
  cases direction <;> simp [progression]

theorem getNextBlockNumber_forward (current : ℕ) (step : Step) :
    getNextBlockNumber current step .forward =
      if current + step.get ≤ I64_MAX then some (current + step.get) else none := by
  rw [getNextBlockNumber, checkedAdd, I64_MAX_eq]
  by_cases hle : current + step.get ≤ 9223372036854775807
  · rw [if_pos (by omega), Option.bind_some, blockNumberNew, I64_MAX_eq]
  · rw [if_neg hle]
    split
    · rw [Option.bind_some, blockNumberNew, I64_MAX_eq, if_neg hle]
    · rfl

theorem getNextBlockNumber_backward {current : ℕ} (hcurrent : current ≤ I64_MAX) (step : Step) :
    getNextBlockNumber current step .backward =
      if step.get ≤ current then some (current - step.get) else none := by
  rw [getNextBlockNumber, checkedSub]
  split
  · rw [Option.bind_some, blockNumberNew, if_pos (by omega)]
  · rfl

theorem getNextBlockNumber_eq {current : ℕ} (hcurrent : current ≤ I64_MAX) (step : Step)
    (direction : Direction) :
    getNextBlockNumber current step direction =
      if InRange (progression current step direction 1) then
        some (progression current step direction 1).toNat
      else none := by
  by_cases hr : InRange (progression current step direction 1)
  · rw [if_pos hr]
    unfold InRange at hr
    cases direction with
    | forward =>
      simp only [progression] at hr ⊢
      rw [getNextBlockNumber_forward, if_pos (by omega)]
      congr 1
      omega
    | backward =>
      simp only [progression] at hr ⊢
      rw [getNextBlockNumber_backward hcurrent, if_pos (by omega)]
      congr 1
      omega
  · rw [if_neg hr]
    unfold InRange at hr
    cases direction with
    | forward =>
      simp only [progression] at hr
      rw [getNextBlockNumber_forward, if_neg (by omega)]
    | backward =>
      simp only [progression] at hr
      rw [getNextBlockNumber_backward hcurrent, if_neg (by omega)]

theorem progression_succ {current : ℕ} {step : Step} {direction : Direction}
    (hnext : 0 ≤ progression current step direction 1) (i : ℕ) :
    progression (progression current step direction 1).toNat step direction i =
      progression current step direction (i + 1) := by
  cases direction <;> simp only [progression] at hnext ⊢ <;> rw [Int.toNat_of_nonneg hnext] <;>
    push_cast <;> ring

theorem getStartBlockNumber_le {H : Type} {start : BlockNumberOrHash H}
    {blockId : H → Option {n : ℕ // n ≤ I64_MAX}} {n : ℕ}
    (h : getStartBlockNumber start blockId = some n) : n ≤ I64_MAX := by
  cases start with
  | number k =>
    rw [getStartBlockNumber, blockNumberNew] at h
    split at h
    · next hk => exact (Option.some.inj h) ▸ hk
    · cases h
  | hash k =>
    obtain ⟨b, -, rfl⟩ := Option.map_eq_some_iff.mp h
    exact b.2

/-- What the loop does from `start` in `count` turns. -/
structure Walks (blockHandler : ℕ → Option (List α)) (start : ℕ) (step : Step)
    (direction : Direction) (count m : ℕ) (sent : List ℕ × List α) : Prop where
  pos : 0 < m
  le : m ≤ count
  calls : sent.1 = (List.range m).map fun i => (progression start step direction i).toNat
  inRange : ∀ i < m, InRange (progression start step direction i)
  found : ∀ i, i + 1 < m → (blockHandler (progression start step direction i).toNat).isSome
  stops : m < count → blockHandler (progression start step direction (m - 1)).toNat = none ∨
    ¬InRange (progression start step direction m)
  messages : sent.2 = ((List.range m).map fun i =>
    (blockHandler (progression start step direction i).toNat).getD []).flatten

theorem walks_one {blockHandler : ℕ → Option (List α)} {start : ℕ} (hstart : start ≤ I64_MAX)
    (step : Step) (direction : Direction) {count : ℕ} (hcount : 0 < count)
    (hstop : 1 < count → blockHandler start = none ∨
      ¬InRange (progression start step direction 1)) :
    Walks blockHandler start step direction count 1 ([start], (blockHandler start).getD []) := by
  refine ⟨Nat.one_pos, hcount, ?_, ?_, fun i hi => by omega, ?_, ?_⟩
  · simp
  · intro i hi
    rw [Nat.lt_one_iff.mp hi, progression_zero]
    exact ⟨Int.natCast_nonneg start, Int.ofNat_le.mpr hstart⟩
  · simpa using hstop
  · simp

theorem iterateLoop_walks (blockHandler : ℕ → Option (List α)) (step : Step)
    (direction : Direction) {count : ℕ} (hcount : 0 < count) {start : ℕ}
    (hstart : start ≤ I64_MAX) :
    ∃ m, Walks blockHandler start step direction count m
      (iterateLoop blockHandler step direction count start) := by
  induction count generalizing start with
  | zero => omega
  | succ count ih =>
    rw [iterateLoop]
    cases hfound : blockHandler start with
    | none =>
      refine ⟨1, ?_⟩
      simpa [hfound] using @walks_one _ blockHandler start hstart step direction _ hcount
        (fun _ => .inl hfound)
    | some messages =>
      dsimp only
      by_cases hlast : count = 0
      · subst hlast
        refine ⟨1, ?_⟩
        simpa [hfound] using @walks_one _ blockHandler start hstart step direction _ hcount
          (fun h => by omega)
      rw [if_neg hlast, getNextBlockNumber_eq hstart]
      by_cases hnext : InRange (progression start step direction 1)
      · rw [if_pos hnext]
        dsimp only
        have hle : (progression start step direction 1).toNat ≤ I64_MAX := by
          have := hnext.2
          omega
        obtain ⟨m, hw⟩ := ih (Nat.pos_of_ne_zero hlast) hle
        have hshift := progression_succ hnext.1
        refine ⟨m + 1, ⟨by omega, by have := hw.le; omega, ?_, ?_, ?_, ?_, ?_⟩⟩
        · rw [List.range_succ_eq_map, List.map_cons, List.map_map, hw.calls]
          simp [Function.comp_def, hshift]
        · intro i hi
          cases i with
          | zero => exact ⟨by simp, by simpa using Int.ofNat_le.mpr hstart⟩
          | succ i => simpa [hshift] using hw.inRange i (by omega)
        · intro i hi
          cases i with
          | zero => simp [hfound]
          | succ i => simpa [hshift] using hw.found i (by omega)
        · intro hm
          have hpos := hw.pos
          rcases hw.stops (by omega) with h | h
          · left
            rw [hshift, show m - 1 + 1 = m + 1 - 1 by omega] at h
            exact h
          · right
            rwa [hshift] at h
        · rw [List.range_succ_eq_map, List.map_cons, List.map_map, List.flatten_cons, hw.messages]
          simp [Function.comp_def, hshift, hfound]
      · rw [if_neg hnext]
        refine ⟨1, ?_⟩
        simpa [hfound] using @walks_one _ blockHandler start hstart step direction _ hcount
          (fun _ => .inr hnext)

/-- `iterate` hands the block handler the numbers `s, s ± step, …` of the start block `s`, up
to and including the first block the handler does not find, before any number that is negative
or above `i64::MAX`, and at most `min(limit, MAX_BLOCKS_COUNT)` of them; it sends the found
blocks' messages and one `Fin`. With `limit = 0` or no start block it sends only `Fin`. -/
theorem iterate_walks {H : Type} (iteration : Iteration H)
    (blockId : H → Option {n : ℕ // n ≤ I64_MAX}) (blockHandler : ℕ → Option (List α))
    (fin : α) :
    ((iteration.limit = 0 ∨ getStartBlockNumber iteration.start blockId = none) ∧
        Iteration.iterate iteration blockId blockHandler fin = ([], [fin])) ∨
      ∃ start m calls messages, 0 < iteration.limit ∧
        getStartBlockNumber iteration.start blockId = some start ∧
        Walks blockHandler start iteration.step iteration.direction
          (min iteration.limit MAX_BLOCKS_COUNT) m (calls, messages) ∧
        Iteration.iterate iteration blockId blockHandler fin = (calls, messages ++ [fin]) := by
  unfold Iteration.iterate
  by_cases hlimit : iteration.limit = 0
  · exact .inl ⟨.inl hlimit, by rw [if_pos hlimit]⟩
  rw [if_neg hlimit]
  cases hstart : getStartBlockNumber iteration.start blockId with
  | none => exact .inl ⟨.inr rfl, rfl⟩
  | some start =>
    right
    have hcount : 0 < min iteration.limit MAX_BLOCKS_COUNT := by
      simp only [MAX_BLOCKS_COUNT]
      omega
    obtain ⟨m, hw⟩ := iterateLoop_walks blockHandler iteration.step iteration.direction hcount
      (getStartBlockNumber_le hstart)
    exact ⟨start, m, _, _, Nat.pos_of_ne_zero hlimit, rfl, hw, rfl⟩

theorem iterate_calls_missing_block :
    (Iteration.iterate (⟨.number 0, .forward, 2, ⟨1, Nat.one_pos⟩⟩ : Iteration Unit)
        (fun _ => none) (fun n => if n = 0 then some [n] else none) 7) = ([0, 1], [0, 7]) := by
  decide

end SyncHandlers

end P2p
end Pathfinder
