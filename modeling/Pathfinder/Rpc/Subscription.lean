import Mathlib.Order.Basic

/-! The handover of a websocket subscription from catch-up to the live stream
(`jsonrpc/router/subscription.rs`, `RpcSubscriptionEndpoint::invoke`), run against the sync loop
that stores and announces blocks (`state/sync.rs`). The database holds the blocks
`0, …, stored - 1` and the `block_headers` channel has carried the headers of the blocks
`0, …, broadcast - 1`; a receiver delivers, in order, the headers sent after it was made. A
message is named by its block, one message per block as in `subscribe_new_heads`. The sync loop
and the subscription's task take steps in any interleaving (`System.run`): the client is sent
`s, s + 1, …` in order, each block once, and once the task has settled one more block makes it
send every block announced. -/

namespace Pathfinder
namespace Rpc

/-- The chain as a subscription sees it. -/
structure Chain where
  stored : ℕ
  broadcast : ℕ
  stored_le_broadcast : stored ≤ broadcast
  broadcast_le_stored_succ : broadcast ≤ stored + 1

def Chain.advance (c : Chain) : Chain :=
  if h : c.broadcast = c.stored then
    ⟨c.stored, c.broadcast + 1, by have := c.stored_le_broadcast; omega, by omega⟩
  else
    ⟨c.stored + 1, c.broadcast,
      by have := c.stored_le_broadcast; have := c.broadcast_le_stored_succ; omega,
      by have := c.broadcast_le_stored_succ; omega⟩

theorem Chain.stored_le_advance (c : Chain) : c.stored ≤ c.advance.stored := by
  unfold Chain.advance
  split <;> simp

theorem Chain.broadcast_le_advance (c : Chain) : c.broadcast ≤ c.advance.broadcast := by
  unfold Chain.advance
  split <;> simp

theorem Chain.advance_advance_broadcast (c : Chain) :
    c.advance.advance.broadcast = c.broadcast + 1 := by
  have := c.stored_le_broadcast
  have := c.broadcast_le_stored_succ
  unfold Chain.advance
  by_cases h : c.broadcast = c.stored
  · simp [h]
  · have hb : c.broadcast = c.stored + 1 := by omega
    simp [hb]

/-- `block_range(from, to)`: the headers with `from ≤ number ≤ to`, by number. -/
def blockRange (stored fromBlock toBlock : ℕ) : List ℕ :=
  (List.range stored).filter fun n => decide (fromBlock ≤ n ∧ n ≤ toBlock)

theorem blockRange_eq (stored fromBlock toBlock : ℕ) :
    blockRange stored fromBlock toBlock =
      List.range' fromBlock (min (toBlock + 1) stored - fromBlock) := by
  induction stored with
  | zero => simp [blockRange]
  | succ n ih =>
    rw [blockRange, List.range_succ, List.filter_append, ← blockRange, ih]
    by_cases hn : fromBlock ≤ n ∧ n ≤ toBlock
    · rw [show min (toBlock + 1) (n + 1) - fromBlock = min (toBlock + 1) n - fromBlock + 1 by omega,
        List.range'_1_concat]
      simp only [hn, and_self, decide_true, List.filter_cons_of_pos, List.filter_nil]
      congr 2
      omega
    · have hlen : min (toBlock + 1) (n + 1) - fromBlock = min (toBlock + 1) n - fromBlock := by
        omega
      rw [hlen, List.filter_cons_of_neg (by simpa using hn), List.filter_nil, List.append_nil]

/-- `CatchUp`. -/
structure CatchUp where
  messages : List ℕ
  lastBlock : Option ℕ
  deriving DecidableEq

/-- `SubscribeNewHeads::catch_up`. -/
def SubscribeNewHeads.catchUp (stored fromBlock toBlock : ℕ) : CatchUp :=
  let messages := blockRange stored fromBlock toBlock
  ⟨messages, messages.getLast?⟩

theorem SubscribeNewHeads.catchUp_messages (stored fromBlock toBlock : ℕ) :
    (catchUp stored fromBlock toBlock).messages =
      List.range' fromBlock (min (toBlock + 1) stored - fromBlock) :=
  blockRange_eq stored fromBlock toBlock

theorem SubscribeNewHeads.catchUp_lastBlock (stored fromBlock toBlock : ℕ) :
    (catchUp stored fromBlock toBlock).lastBlock =
      if fromBlock < min (toBlock + 1) stored then some (min (toBlock + 1) stored - 1)
      else none := by
  simp only [catchUp, blockRange_eq, List.getLast?_range']
  by_cases h : fromBlock < min (toBlock + 1) stored
  · rw [if_neg (by omega), if_pos h]
    congr 1
    omega
  · rw [if_pos (by omega), if_neg h]

/-- `RpcSubscriptionFlow::CATCH_UP_BATCH_SIZE`. -/
def CATCH_UP_BATCH_SIZE : ℕ := 64

/-- `BlockNumber::parent`. -/
def parent (n : ℕ) : Option ℕ :=
  if n = 0 then none else some (n - 1)

/-- Where the task spawned by `invoke` is. -/
inductive Phase where
  | catchUp (current : ℕ)
  | subscribe (current : ℕ)
  | awaitFirst (current rx : ℕ)
  | handover (current first : ℕ)
  | forward (rx : ℕ)
  deriving DecidableEq

def Phase.step (c : Chain) : Phase → Phase × List ℕ
  | .catchUp current =>
    let endBlock := current + CATCH_UP_BATCH_SIZE - 1
    let catchUp := SubscribeNewHeads.catchUp c.stored current endBlock
    match catchUp.lastBlock with
    | none => (.subscribe current, [])
    | some lastBlock =>
      (if lastBlock < endBlock then .subscribe (lastBlock + 1) else .catchUp (lastBlock + 1),
        catchUp.messages)
  | .subscribe current => (.awaitFirst current c.broadcast, [])
  | .awaitFirst current rx =>
    if rx < c.broadcast then (.handover current rx, []) else (.awaitFirst current rx, [])
  | .handover current first =>
    let gap :=
      match parent first with
      | some endBlock =>
        if current ≤ endBlock then (SubscribeNewHeads.catchUp c.stored current endBlock).messages
        else []
      | none => []
    (.forward (first + 1), gap ++ [first])
  | .forward rx =>
    if rx < c.broadcast then (.forward (rx + 1), [rx]) else (.forward rx, [])

def Phase.position : Phase → ℕ
  | .catchUp current | .subscribe current | .awaitFirst current _ | .handover current _ => current
  | .forward rx => rx

def Phase.Fits (c : Chain) : Phase → Prop
  | .catchUp current | .subscribe current => current ≤ c.stored
  | .awaitFirst current rx => current ≤ rx ∧ rx ≤ c.broadcast
  | .handover current first => current ≤ first ∧ first < c.broadcast
  | .forward rx => rx ≤ c.broadcast

def Phase.pending (c : Chain) : Phase → ℕ
  | .catchUp current => c.stored - current + 2
  | .subscribe _ => 1
  | .awaitFirst _ rx => if rx < c.broadcast then c.broadcast - rx + 1 else 0
  | .handover _ first => c.broadcast - first
  | .forward rx => c.broadcast - rx

theorem Phase.Fits.mono {c c' : Chain} (hs : c.stored ≤ c'.stored)
    (hb : c.broadcast ≤ c'.broadcast) {p : Phase} (h : p.Fits c) : p.Fits c' := by
  cases p <;> simp only [Phase.Fits] at h ⊢ <;> omega

theorem Phase.step_catchUp (c : Chain) (current : ℕ) :
    (Phase.catchUp current).step c =
      if current < c.stored then
        if c.stored < current + CATCH_UP_BATCH_SIZE then
          (.subscribe c.stored, List.range' current (c.stored - current))
        else (.catchUp (current + CATCH_UP_BATCH_SIZE), List.range' current CATCH_UP_BATCH_SIZE)
      else (.subscribe current, []) := by
  have hsize : CATCH_UP_BATCH_SIZE = 64 := rfl
  simp only [Phase.step, SubscribeNewHeads.catchUp_lastBlock, SubscribeNewHeads.catchUp_messages,
    hsize]
  by_cases hlt : current < c.stored
  · rw [if_pos (show current < min (current + 64 - 1 + 1) c.stored by omega), if_pos hlt]
    by_cases hshort : c.stored < current + 64
    · have hmin : min (current + 64 - 1 + 1) c.stored = c.stored := by omega
      rw [if_pos hshort, hmin]
      dsimp only
      rw [if_pos (by omega), show c.stored - 1 + 1 = c.stored by omega]
    · have hmin : min (current + 64 - 1 + 1) c.stored = current + 64 := by omega
      rw [if_neg hshort, hmin]
      dsimp only
      rw [if_neg (by omega), show current + 64 - 1 + 1 = current + 64 by omega,
        show current + 64 - current = 64 by omega]
  · rw [if_neg (show ¬current < min (current + 64 - 1 + 1) c.stored by omega), if_neg hlt]

theorem Phase.step_spec {c : Chain} {p : Phase} (h : p.Fits c) :
    (p.step c).1.Fits c ∧ p.position ≤ (p.step c).1.position ∧
      (p.step c).2 = List.range' p.position ((p.step c).1.position - p.position) := by
  have := c.stored_le_broadcast
  have := c.broadcast_le_stored_succ
  cases p with
  | catchUp current =>
    simp only [Phase.Fits] at h
    rw [Phase.step_catchUp]
    split_ifs with hlt hshort
    · exact ⟨Nat.le_refl _, h, rfl⟩
    · refine ⟨by simp only [Phase.Fits]; omega, by simp only [Phase.position]; omega, ?_⟩
      simp only [Phase.position, Nat.add_sub_cancel_left]
    · exact ⟨h, Nat.le_refl _, by simp [Phase.position]⟩
  | subscribe current =>
    simp only [Phase.Fits] at h
    exact ⟨⟨Nat.le_trans h c.stored_le_broadcast, Nat.le_refl _⟩, Nat.le_refl _, by simp [Phase.step, Phase.position]⟩
  | awaitFirst current rx =>
    simp only [Phase.Fits] at h
    simp only [Phase.step]
    split_ifs with hrx
    · exact ⟨⟨h.1, hrx⟩, Nat.le_refl _, by simp [Phase.position]⟩
    · exact ⟨h, Nat.le_refl _, by simp [Phase.position]⟩
  | handover current first =>
    simp only [Phase.Fits] at h
    have hgap : (match parent first with
        | some endBlock =>
          if current ≤ endBlock then
            (SubscribeNewHeads.catchUp c.stored current endBlock).messages
          else []
        | none => []) = List.range' current (first - current) := by
      unfold parent
      split_ifs with h0
      · rw [show first - current = 0 by omega, List.range'_zero]
      · dsimp only
        split_ifs with hle
        · rw [SubscribeNewHeads.catchUp_messages]
          congr 1
          omega
        · rw [show first - current = 0 by omega, List.range'_zero]
    simp only [Phase.step, hgap, Phase.Fits, Phase.position]
    refine ⟨by omega, by omega, ?_⟩
    rw [show first + 1 - current = first - current + 1 by omega, List.range'_1_concat]
    congr 2
    omega
  | forward rx =>
    simp only [Phase.Fits] at h
    simp only [Phase.step]
    split_ifs with hrx
    · exact ⟨hrx, Nat.le_succ rx, by simp [Phase.position]⟩
    · exact ⟨h, Nat.le_refl _, by simp [Phase.position]⟩

theorem Phase.pending_step_lt {c : Chain} {p : Phase} (h : p.Fits c) (hp : 0 < p.pending c) :
    (p.step c).1.pending c < p.pending c := by
  have := c.stored_le_broadcast
  cases p with
  | catchUp current =>
    have hsize : CATCH_UP_BATCH_SIZE = 64 := rfl
    rw [Phase.step_catchUp]
    split_ifs <;> simp only [Phase.pending] <;> omega
  | subscribe current =>
    simp only [Phase.step, Phase.pending]
    split_ifs <;> omega
  | awaitFirst current rx =>
    simp only [Phase.pending] at hp
    split_ifs at hp with hrx
    · simp only [Phase.step, hrx, if_true, Phase.pending]
      omega
    · omega
  | handover current first =>
    simp only [Phase.pending] at hp
    simp only [Phase.step, Phase.pending]
    omega
  | forward rx =>
    simp only [Phase.pending] at hp
    simp only [Phase.step, show rx < c.broadcast by omega, if_true, Phase.pending]
    omega

theorem Phase.step_of_pending_eq_zero {c : Chain} {p : Phase} (h : p.Fits c)
    (hp : p.pending c = 0) : p.step c = (p, []) := by
  cases p with
  | catchUp current => simp [Phase.pending] at hp
  | subscribe current => simp [Phase.pending] at hp
  | awaitFirst current rx =>
    have hrx : ¬rx < c.broadcast := by
      intro hrx
      simp [Phase.pending, hrx] at hp
    simp [Phase.step, hrx]
  | handover current first =>
    simp only [Phase.Fits] at h
    simp only [Phase.pending] at hp
    omega
  | forward rx =>
    simp only [Phase.pending] at hp
    simp [Phase.step, show ¬rx < c.broadcast by omega]

/-- The task's phase, the chain, and what the client has been sent. -/
structure System where
  chain : Chain
  phase : Phase
  sent : List ℕ

/-- Who takes the next step. -/
inductive Actor where
  | sync
  | subscription
  deriving DecidableEq

def System.step (st : System) : Actor → System
  | .sync => { st with chain := st.chain.advance }
  | .subscription =>
    { st with phase := (st.phase.step st.chain).1, sent := st.sent ++ (st.phase.step st.chain).2 }

def System.run (st : System) (actors : List Actor) : System :=
  actors.foldl System.step st

/-- `invoke` once the starting block `s` is resolved: the task catches up from it. -/
def System.init (c : Chain) (s : ℕ) : System :=
  ⟨c, .catchUp s, []⟩

@[simp] theorem System.run_nil (st : System) : st.run [] = st := rfl

@[simp] theorem System.run_cons (st : System) (a : Actor) (actors : List Actor) :
    st.run (a :: actors) = (st.step a).run actors := rfl

theorem System.run_append (st : System) (as bs : List Actor) :
    st.run (as ++ bs) = (st.run as).run bs :=
  List.foldl_append

/-- The subscription's invariant. -/
structure System.Inv (s : ℕ) (st : System) : Prop where
  start_le_position : s ≤ st.phase.position
  fits : st.phase.Fits st.chain
  sent_eq : st.sent = List.range' s (st.phase.position - s)

theorem range'_append_range' {a b d : ℕ} (hab : a ≤ b) (hbd : b ≤ d) :
    List.range' a (b - a) ++ List.range' b (d - b) = List.range' a (d - a) := by
  have happ := @List.range'_append_1 a (b - a) (d - b)
  rw [show a + (b - a) = b by omega, show b - a + (d - b) = d - a by omega] at happ
  exact happ

theorem System.init_inv {c : Chain} {s : ℕ} (hs : s ≤ c.stored) : (System.init c s).Inv s :=
  ⟨Nat.le_refl s, hs, by simp [System.init, Phase.position]⟩

theorem System.Inv.step {s : ℕ} {st : System} (hi : st.Inv s) : ∀ a, (st.step a).Inv s
  | .sync => ⟨hi.start_le_position,
      hi.fits.mono (Chain.stored_le_advance _) (Chain.broadcast_le_advance _), hi.sent_eq⟩
  | .subscription => by
    obtain ⟨hfits, hle, hsent⟩ := Phase.step_spec hi.fits
    refine ⟨Nat.le_trans hi.start_le_position hle, hfits, ?_⟩
    simp only [System.step, hi.sent_eq, hsent]
    exact range'_append_range' hi.start_le_position hle

theorem System.Inv.run {s : ℕ} : ∀ (actors : List Actor) {st : System}, st.Inv s →
    (st.run actors).Inv s
  | [], _, hi => hi
  | a :: actors, _, hi => System.Inv.run actors (hi.step a)

theorem System.run_settle {s : ℕ} : ∀ (n : ℕ) {st : System}, st.Inv s →
    st.phase.pending st.chain ≤ n →
    let st' := st.run (List.replicate n .subscription)
    st'.phase.pending st'.chain = 0
  | 0, _, _, hp => Nat.le_zero.mp hp
  | n + 1, st, hi, hp => by
    intro st'
    have hstep : st'= (st.step .subscription).run (List.replicate n .subscription) := rfl
    rw [hstep]
    refine System.run_settle n (hi.step .subscription) ?_
    by_cases h0 : st.phase.pending st.chain = 0
    · simp only [System.step, Phase.step_of_pending_eq_zero hi.fits h0, h0, Nat.zero_le]
    · have := Phase.pending_step_lt hi.fits (Nat.pos_of_ne_zero h0)
      simp only [System.step]
      omega

theorem System.position_next_block {s : ℕ} {st : System} (hi : st.Inv s)
    (hp : st.phase.pending st.chain = 0) :
    let st' := st.run [.sync, .sync, .subscription, .subscription]
    st'.phase.position = st'.chain.broadcast := by
  intro st'
  have hb := Chain.advance_advance_broadcast st.chain
  have hfits := hi.fits
  obtain ⟨c, phase, sent⟩ := st
  cases phase with
  | catchUp current => simp [Phase.pending] at hp
  | subscribe current => simp [Phase.pending] at hp
  | awaitFirst current rx =>
    simp only [Phase.Fits] at hfits
    simp only [Phase.pending] at hp
    have hrx : rx = c.broadcast := by
      split_ifs at hp
      omega
    simp [st', System.step, Phase.step, hb, hrx, Phase.position]
  | handover current first =>
    simp only [Phase.Fits] at hfits
    simp only [Phase.pending] at hp
    omega
  | forward rx =>
    simp only [Phase.Fits] at hfits
    simp only [Phase.pending] at hp
    have hrx : rx = c.broadcast := by omega
    simp [st', System.step, Phase.step, hb, hrx, Phase.position]

/- Blocks 0 and 1 are caught up on; block 2, stored and announced before the receiver is made,
waits for block 3, whose header brings the gap catch-up. -/
example : ((System.init ⟨2, 2, Nat.le_refl 2, Nat.le_succ 2⟩ 0).run
    [.subscription, .sync, .sync, .subscription, .subscription]).sent = [0, 1] := by decide

example : ((System.init ⟨2, 2, Nat.le_refl 2, Nat.le_succ 2⟩ 0).run
    [.subscription, .sync, .sync, .subscription, .subscription, .sync, .sync, .subscription,
      .subscription]).sent = [0, 1, 2, 3] := by decide

/- Seventy stored blocks from block 3 take a full batch and a short one. -/
example : ((System.init ⟨70, 70, Nat.le_refl 70, Nat.le_succ 70⟩ 3).run
    [.subscription, .subscription, .subscription]).phase = .awaitFirst 70 70 := by decide

/-- The handover from catch-up to the live stream sends every block once, in order: after any
interleaving of the sync loop with the subscription from a stored block `s`, the client has been
sent `s, s + 1, …` with no block missing or repeated; and the task, run until it waits and then
given one more block, has sent every block the chain has announced. -/
theorem invoke_sends_each_block_once (c : Chain) {s : ℕ} (hs : s < c.stored)
    (actors : List Actor) :
    let st := (System.init c s).run actors
    st.sent = List.range' s st.sent.length ∧
      ∃ n, let st' := st.run (List.replicate n .subscription ++
          [.sync, .sync, .subscription, .subscription])
        st'.sent = List.range' s (st'.chain.broadcast - s) := by
  intro st
  have hi : st.Inv s := System.Inv.run actors (System.init_inv (Nat.le_of_lt hs))
  refine ⟨?_, st.phase.pending st.chain, ?_⟩
  · rw [hi.sent_eq, List.length_range']
  · intro st'
    have hsettled := System.run_settle _ hi (Nat.le_refl _)
    have hi' := System.Inv.run (List.replicate (st.phase.pending st.chain) .subscription) hi
    have hst' : st' = (st.run (List.replicate (st.phase.pending st.chain) .subscription)).run
        [.sync, .sync, .subscription, .subscription] := System.run_append _ _ _
    rw [hst', (System.Inv.run _ hi').sent_eq, System.position_next_block hi' hsettled]

theorem invoke_sends_each_block_once_from_genesis :
    let st := (System.init ⟨2, 2, Nat.le_refl 2, Nat.le_succ 2⟩ 0).run [.subscription, .sync, .subscription]
    st.sent = List.range' 0 st.sent.length ∧
      ∃ n, let st' := st.run (List.replicate n .subscription ++
          [.sync, .sync, .subscription, .subscription])
        st'.sent = List.range' 0 (st'.chain.broadcast - 0) :=
  invoke_sends_each_block_once ⟨2, 2, Nat.le_refl 2, Nat.le_succ 2⟩ (by decide) _

end Rpc
end Pathfinder
