import Mathlib.Data.List.Infix
import Pathfinder.P2p.SyncHandlers
import Pathfinder.Monad.Except

/-! The client's event stream (`p2p/src/sync/client/peer_agnostic.rs`, `event_stream::make`).
Blocks are not delimited on the wire: the client cuts the responses by the number of events it
expects for each block, read from the counts stream, and groups consecutive events of one
transaction. `make` is run to its end. The peers it tries, over every refresh of the peer set,
are one list of attempts, each a peer with the answer it gives to a request (`send_request` and
the peer behind it, honest or not); the stream's items are returned with how its task ended.
Sending an item never fails: the consumer takes every item. -/

namespace Pathfinder
namespace P2p

/-- `BlockProgress`. -/
structure BlockProgress where
  count : ℕ
  countBackup : ℕ
deriving DecidableEq

namespace BlockProgress

def new (count : ℕ) : BlockProgress := ⟨count, count⟩

def get (progress : BlockProgress) : ℕ := progress.count

def rollback (progress : BlockProgress) : BlockProgress :=
  { progress with count := progress.countBackup }

@[simp] theorem new_count (count : ℕ) : (new count).count = count := rfl

@[simp] theorem new_countBackup (count : ℕ) : (new count).countBackup = count := rfl

@[simp] theorem get_eq (progress : BlockProgress) : progress.get = progress.count := rfl
end BlockProgress

@[simp] theorem rollback_count (progress : BlockProgress) :
    progress.rollback.count = progress.countBackup := rfl

@[simp] theorem rollback_countBackup (progress : BlockProgress) :
    progress.rollback.countBackup = progress.countBackup := rfl

/-- `PeerData`: data with the peer it came from. -/
structure PeerData (P α : Type) where
  peer : P
  data : α
deriving DecidableEq

/-- How the task behind a stream ends. -/
inductive Termination
  | returned
  | panicked (msg : String)
  | peersExhausted
deriving DecidableEq

namespace EventStream

def MAX_BLOCKS_COUNT : ℕ := 500

variable {P T D E : Type}

/-- `StreamItem<EventsForBlockByTransaction>`. -/
abbrev StreamItem (P T E : Type) := Except String (PeerData P (ℕ × List (T × List E)))

abbrev Response (T D : Type) := Except String (EventsResponse T D)

/-- `make_request`; `start.abs_diff(stop)` is the sum of the two truncated differences. -/
def makeRequest (start stop : ℕ) : EventsRequest :=
  ⟨start, min (start - stop + (stop - start) + 1) MAX_BLOCKS_COUNT⟩

/-- `try_next` on the counts stream. -/
def tryNext {α : Type} : List (Except String α) → Except String α × List (Except String α)
  | [] => (.error "Count stream terminated prematurely", [])
  | cnt :: counts => (cnt, counts)

/-- `yield_block`. -/
def yieldBlock (peer : P) (counts : List (Except String ℕ)) (events : List (T × List E))
    (start stop : ℕ) :
    List (StreamItem P T E) × Option (ℕ × BlockProgress × List (Except String ℕ)) :=
  let item : StreamItem P T E := .ok ⟨peer, (start, events)⟩
  if start = stop then ([item], none)
  else
    match tryNext counts with
    | (.error e, _) => ([item, .error e], none)
    | (.ok cnt, counts) => ([item], some (start + 1, BlockProgress.new cnt, counts))

theorem yieldBlock_eq_some {peer : P} {counts : List (Except String ℕ)}
    {events : List (T × List E)} {start stop : ℕ} {items : List (StreamItem P T E)} {start' : ℕ}
    {progress' : BlockProgress} {counts' : List (Except String ℕ)}
    (h : yieldBlock peer counts events start stop = (items, some (start', progress', counts'))) :
    items = [.ok ⟨peer, (start, events)⟩] ∧ start' = start + 1 ∧ start ≠ stop ∧
      counts = .ok progress'.countBackup :: counts' ∧ progress'.count = progress'.countBackup := by
  unfold yieldBlock at h
  split at h
  · cases h
  · next hne =>
    cases counts with
    | nil => cases h
    | cons cnt counts =>
      cases cnt with
      | error e => simp [tryNext] at h
      | ok cnt =>
        simp only [tryNext, Prod.mk.injEq, Option.some.injEq] at h
        obtain ⟨rfl, rfl, rfl, rfl⟩ := h
        exact ⟨rfl, rfl, hne, rfl, rfl⟩

theorem yieldBlock_counts_length {peer : P} {counts : List (Except String ℕ)}
    {events : List (T × List E)} {start stop : ℕ} {items : List (StreamItem P T E)} {start' : ℕ}
    {progress' : BlockProgress} {counts' : List (Except String ℕ)}
    (h : yieldBlock peer counts events start stop = (items, some (start', progress', counts'))) :
    counts'.length < counts.length := by
  rw [(yieldBlock_eq_some h).2.2.2.1]
  exact Nat.lt_succ_self _

variable [DecidableEq T]

def groupEvent (txnHash : T) (event : E) (state : Option T × List (T × List E)) :
    Except String (Option T × List (T × List E)) :=
  if state.1 = some txnHash then
    match state.2.getLast? with
    | none => .error "not empty"
    | some last => .ok (state.1, state.2.dropLast ++ [(last.1, last.2 ++ [event])])
  else .ok (some txnHash, state.2 ++ [(txnHash, [event])])

variable (tryFromDto : D → Option E)

/-- `handle_response`. -/
def handleResponse (response : Response T D) (currentTxn : Option T)
    (events : List (T × List E)) : Except String (Bool × Option T × List (T × List E)) :=
  match response with
  | .ok (.event txnHash dto) =>
    match tryFromDto dto with
    | none => .ok (true, currentTxn, events)
    | some event => (groupEvent txnHash event (currentTxn, events)).map fun state => (false, state)
  | .ok .fin => .ok (true, currentTxn, events)
  | .error _ => .ok (true, currentTxn, events)

/-- How the loop `while progress.get() > 0` over one block's responses ends. -/
inductive BlockRead (T D E : Type)
  | complete (rest : List (Response T D)) (progress : BlockProgress) (txn : Option T)
      (events : List (T × List E))
  | nextPeer (progress : BlockProgress)
  | panicked (msg : String)

def readEvents : List (Response T D) → BlockProgress → Option T → List (T × List E) →
    BlockRead T D E
  | responses, progress, txn, events =>
    if 0 < progress.get then
      match responses with
      | [] => .nextPeer progress
      | response :: rest =>
        match handleResponse tryFromDto response txn events with
        | .error msg => .panicked msg
        | .ok (true, _, _) => .nextPeer progress
        | .ok (false, txn, events) =>
          readEvents rest { progress with count := progress.count - 1 } txn events
    else .complete responses progress txn events

theorem readEvents_nil (progress : BlockProgress) (txn : Option T) (events : List (T × List E)) :
    readEvents tryFromDto [] progress txn events =
      if 0 < progress.count then .nextPeer progress else .complete [] progress txn events := by
  rw [readEvents, BlockProgress.get_eq]

theorem readEvents_cons (response : Response T D) (rest : List (Response T D))
    (progress : BlockProgress) (txn : Option T) (events : List (T × List E)) :
    readEvents tryFromDto (response :: rest) progress txn events =
      if 0 < progress.count then
        match handleResponse tryFromDto response txn events with
        | .error msg => .panicked msg
        | .ok (true, _, _) => .nextPeer progress
        | .ok (false, txn, events) =>
          readEvents tryFromDto rest { progress with count := progress.count - 1 } txn events
      else .complete (response :: rest) progress txn events := by
  rw [readEvents, BlockProgress.get_eq]

theorem readEvents_of_count_eq_zero (responses : List (Response T D)) {progress : BlockProgress}
    (hcount : progress.count = 0) (txn : Option T) (events : List (T × List E)) :
    readEvents tryFromDto responses progress txn events = .complete responses progress txn events := by
  cases responses with
  | nil => rw [readEvents_nil, if_neg (by omega)]
  | cons response rest => rw [readEvents_cons, if_neg (by omega)]

theorem readEvents_cons_of_continue (rest : List (Response T D)) {response : Response T D}
    {progress : BlockProgress} {txn txn' : Option T} {events events' : List (T × List E)}
    (hcount : 0 < progress.count)
    (h : handleResponse tryFromDto response txn events = .ok (false, txn', events')) :
    readEvents tryFromDto (response :: rest) progress txn events =
      readEvents tryFromDto rest { progress with count := progress.count - 1 } txn' events' := by
  rw [readEvents_cons, if_pos hcount, h]

theorem readEvents_cons_of_error (rest : List (Response T D)) {response : Response T D}
    {progress : BlockProgress} {txn : Option T} {events : List (T × List E)} {msg : String}
    (hcount : 0 < progress.count) (h : handleResponse tryFromDto response txn events = .error msg) :
    readEvents tryFromDto (response :: rest) progress txn events = .panicked msg := by
  rw [readEvents_cons, if_pos hcount, h]

/-- How a peer's session ends. -/
inductive Session
  | nextPeer (start : ℕ) (progress : BlockProgress) (counts : List (Except String ℕ))
  | finished (how : Termination)

def blockLoop (peer : P) (stop : ℕ) (counts : List (Except String ℕ))
    (responses : List (Response T D)) (start : ℕ) (progress : BlockProgress) (txn : Option T) :
    List (StreamItem P T E) × Session :=
  if start ≤ stop then
    match readEvents tryFromDto responses progress txn [] with
    | .panicked msg => ([], .finished (.panicked msg))
    | .nextPeer progress => ([], .nextPeer start progress counts)
    | .complete rest _ txn events =>
      match _hyield : yieldBlock peer counts events start stop with
      | (items, none) => (items, .finished .returned)
      | (items, some (start', progress', counts')) =>
        let more := blockLoop peer stop counts' rest start' progress' txn
        (items ++ more.1, more.2)
  else ([], .finished .returned)
termination_by counts.length
decreasing_by exact yieldBlock_counts_length _hyield

def peerLoop (stop : ℕ) :
    List (P × (EventsRequest → Except String (List (Response T D)))) → ℕ → BlockProgress →
      List (Except String ℕ) → List (StreamItem P T E) × Termination
  | [], _, _, _ => ([], .peersExhausted)
  | (peer, sendRequest) :: peers, start, progress, counts =>
    match sendRequest (makeRequest start stop) with
    | .error _ => peerLoop stop peers start progress counts
    | .ok responses =>
      match blockLoop tryFromDto peer stop counts responses start progress.rollback none with
      | (items, .finished how) => (items, how)
      | (items, .nextPeer start progress counts) =>
        let more := peerLoop stop peers start progress counts
        (items ++ more.1, more.2)

/-- `event_stream::make`: nothing is streamed unless the counts stream starts with a count. -/
def make (start stop : ℕ) (countsStream : List (Except String ℕ))
    (peers : List (P × (EventsRequest → Except String (List (Response T D))))) :
    List (StreamItem P T E) × Termination :=
  match countsStream with
  | .ok cnt :: counts => peerLoop tryFromDto stop peers start (BlockProgress.new cnt) counts
  | _ => ([], .returned)

section Grouping

def eventResponses (toDto : E → D) (events : List (T × E)) : List (Response T D) :=
  events.map fun v => .ok (.event v.1 (toDto v.2))

def groupEvents (events : List (T × E)) (state : Option T × List (T × List E)) :
    Except String (Option T × List (T × List E)) :=
  events.foldlM (fun state v => groupEvent v.1 v.2 state) state

@[simp] theorem groupEvents_nil (state : Option T × List (T × List E)) :
    groupEvents [] state = .ok state := rfl

theorem groupEvents_cons (v : T × E) (vs : List (T × E)) (state : Option T × List (T × List E)) :
    groupEvents (v :: vs) state = groupEvent v.1 v.2 state >>= groupEvents vs := rfl

theorem readEvents_eventResponses (toDto : E → D) {events : List (T × E)}
    (hdto : ∀ v ∈ events, tryFromDto (toDto v.2) = some v.2)
    {state state' : Option T × List (T × List E)} (h : groupEvents events state = .ok state')
    (rest : List (Response T D)) (m backup : ℕ) :
    readEvents tryFromDto (eventResponses toDto events ++ rest) ⟨events.length + m, backup⟩
        state.1 state.2 =
      readEvents tryFromDto rest ⟨m, backup⟩ state'.1 state'.2 := by
  induction events generalizing state with
  | nil =>
    cases h
    simp [eventResponses]
  | cons v vs ih =>
    rw [groupEvents_cons] at h
    obtain ⟨mid, hmid, hrest⟩ := except_bind_eq_ok h
    have hresp : handleResponse tryFromDto (.ok (.event v.1 (toDto v.2))) state.1 state.2 =
        .ok (false, mid.1, mid.2) := by
      simp [handleResponse, hdto v List.mem_cons_self, hmid, Except.map]
    calc readEvents tryFromDto (eventResponses toDto (v :: vs) ++ rest)
          ⟨(v :: vs).length + m, backup⟩ state.1 state.2
        = readEvents tryFromDto (eventResponses toDto vs ++ rest) ⟨vs.length + m, backup⟩
            mid.1 mid.2 := by
          rw [eventResponses, List.map_cons, List.cons_append,
            readEvents_cons_of_continue tryFromDto _ (by simp only [List.length_cons]; omega) hresp]
          congr 2
          simp
      _ = readEvents tryFromDto rest ⟨m, backup⟩ state'.1 state'.2 :=
          ih (fun w hw => hdto w (List.mem_cons_of_mem v hw)) hrest

theorem groupEvents_sameTxn (txnHash : T) (es : List E) (events : List (T × List E))
    (acc : List E) :
    groupEvents (es.map (txnHash, ·)) (some txnHash, events ++ [(txnHash, acc)]) =
      .ok (some txnHash, events ++ [(txnHash, acc ++ es)]) := by
  induction es generalizing acc with
  | nil => simp
  | cons e es ih =>
    have hstep : groupEvent txnHash e (some txnHash, events ++ [(txnHash, acc)]) =
        .ok (some txnHash, events ++ [(txnHash, acc ++ [e])]) := by
      simp [groupEvent]
    rw [List.map_cons, groupEvents_cons, hstep, except_ok_bind, ih]
    simp

theorem groupEvents_newTxn (txnHash : T) (e : E) (es : List E) (txn : Option T)
    (events : List (T × List E)) (htxn : txn ≠ some txnHash) :
    groupEvents ((e :: es).map (txnHash, ·)) (txn, events) =
      .ok (some txnHash, events ++ [(txnHash, e :: es)]) := by
  have hstep : groupEvent txnHash e (txn, events) =
      .ok (some txnHash, events ++ [(txnHash, [e])]) := by
    simp [groupEvent, htxn]
  rw [List.map_cons, groupEvents_cons, hstep, except_ok_bind, groupEvents_sameTxn]
  rfl

end Grouping

/-- A peer that sends the events of one transaction across the boundary of the first two blocks
makes the stream panic after the first block: the events vector is reset for the second block
while the current transaction is kept, and `expect("not empty")` fails on the empty vector. -/
theorem make_panics_on_txn_across_blocks (start stop : ℕ) (hlt : start < stop) (n m : ℕ)
    (counts : List (Except String ℕ)) (peer : P)
    (sendRequest : EventsRequest → Except String (List (Response T D)))
    (peers : List (P × (EventsRequest → Except String (List (Response T D)))))
    (txnHash : T) (dto : D) (event : E) (hdto : tryFromDto dto = some event)
    (rest : List (Response T D))
    (hresponses : sendRequest (makeRequest start stop) =
      .ok (List.replicate (n + 2) (.ok (.event txnHash dto)) ++ rest)) :
    make tryFromDto start stop (.ok (n + 1) :: .ok (m + 1) :: counts)
        ((peer, sendRequest) :: peers) =
      ([.ok ⟨peer, (start, [(txnHash, List.replicate (n + 1) event)])⟩], .panicked "not empty") := by
  have hwire : List.replicate (n + 2) (.ok (.event txnHash dto) : Response T D) ++ rest =
      eventResponses (fun _ => dto) ((List.replicate (n + 1) event).map (txnHash, ·)) ++
        (.ok (.event txnHash dto) :: rest) := by
    simp [eventResponses, List.replicate_succ', List.map_replicate]
  have hgroup : groupEvents ((List.replicate (n + 1) event).map (txnHash, ·)) (none, []) =
      .ok (some txnHash, [(txnHash, List.replicate (n + 1) event)]) := by
    rw [List.replicate_succ]
    exact groupEvents_newTxn txnHash event _ none [] (by simp)
  have hfirst : readEvents tryFromDto (List.replicate (n + 2) (.ok (.event txnHash dto)) ++ rest)
      (BlockProgress.new (n + 1)).rollback none [] =
        .complete (.ok (.event txnHash dto) :: rest) ⟨0, n + 1⟩ (some txnHash)
          [(txnHash, List.replicate (n + 1) event)] := by
    have hread := readEvents_eventResponses tryFromDto (fun _ => dto) (by simp [hdto]) hgroup
      (.ok (.event txnHash dto) :: rest) 0 (n + 1)
    simp only [List.length_map, List.length_replicate, Nat.add_zero] at hread
    rw [hwire]
    exact hread.trans (readEvents_of_count_eq_zero tryFromDto _ rfl _ _)
  have hsecond : readEvents tryFromDto (.ok (.event txnHash dto) :: rest) (BlockProgress.new (m + 1))
      (some txnHash) ([] : List (T × List E)) = .panicked "not empty" :=
    readEvents_cons_of_error tryFromDto rest (by simp)
      (by simp [handleResponse, hdto, groupEvent, Except.map])
  have hyield : yieldBlock peer (.ok (m + 1) :: counts) [(txnHash, List.replicate (n + 1) event)]
      start stop = ([.ok ⟨peer, (start, [(txnHash, List.replicate (n + 1) event)])⟩],
        some (start + 1, BlockProgress.new (m + 1), counts)) := by
    simp [yieldBlock, tryNext, hlt.ne]
  have hloop : blockLoop tryFromDto peer stop (.ok (m + 1) :: counts)
      (List.replicate (n + 2) (.ok (.event txnHash dto)) ++ rest) start
      (BlockProgress.new (n + 1)).rollback none =
        ([.ok ⟨peer, (start, [(txnHash, List.replicate (n + 1) event)])⟩],
          .finished (.panicked "not empty")) := by
    rw [blockLoop, if_pos hlt.le, hfirst]
    dsimp only
    split
    · next heq =>
      rw [hyield] at heq
      cases heq
    · next heq =>
      rw [hyield] at heq
      simp only [Prod.mk.injEq, Option.some.injEq] at heq
      obtain ⟨rfl, rfl, rfl, rfl⟩ := heq
      rw [blockLoop, if_pos (show start + 1 ≤ stop from hlt), hsecond]
      rfl
  simp [make, peerLoop, hresponses, hloop]

theorem make_panics_on_txn_across_blocks_zero_one :
    (0 : ℕ) < 1 ∧
      make (fun dto : ℕ => some dto) 0 1 [.ok 1, .ok 1]
          [((7 : ℕ), fun _ => .ok [.ok (.event (5 : ℕ) (3 : ℕ)), .ok (.event 5 3)])] =
        ([.ok ⟨7, (0, [(5, [3])])⟩], .panicked "not empty") :=
  ⟨by decide, make_panics_on_txn_across_blocks (fun dto : ℕ => some dto) 0 1 (by decide) 0 0 [] 7
    (fun _ => .ok [.ok (.event 5 3), .ok (.event 5 3)]) [] 5 3 3 rfl [] rfl⟩

end EventStream

end P2p
end Pathfinder
