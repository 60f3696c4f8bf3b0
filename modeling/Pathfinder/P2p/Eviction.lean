import Mathlib.Data.List.Sort
import Mathlib.Data.List.MinMax
import Mathlib.Data.Prod.Lex

/-! Inbound peer eviction (`p2p/src/core/behaviour.rs`, `Behaviour::evict_inbound_peer`): three
protection steps shrink the map of inbound candidates, then a stable sort picks the peer to evict.
The candidate map is a list of distinct peer ids with their peers, in the map's iteration order;
`sort_by_key` and `sort_by` are stable sorts, here `insertionSort` of the same relation. Keyed
network groups are of any linear order, as the `[u8; 32]` of `KeyedNetworkGroup` is, and
`SHA3(eviction_secret || peer_id)` is a function `keyedHash` into one. -/

namespace Pathfinder
namespace P2p

/-- What eviction reads of a connected inbound peer. -/
structure Peer (G : Type) where
  keyedNetworkGroup : G
  minPing : Option ℕ
  connectedAt : ℕ
deriving DecidableEq

/-- What eviction writes of `Behaviour`. -/
structure Behaviour (P : Type) where
  evicted : List P
  closeConnections : List P
deriving DecidableEq

theorem head?_insertionSort {α : Type} (r : α → α → Prop) [DecidableRel r] [Std.Total r]
    [IsTrans α r] {l : List α} {e : α} (h : (l.insertionSort r).head? = some e) :
    e ∈ l ∧ ∀ c ∈ l, r e c := by
  cases hs : l.insertionSort r with
  | nil => rw [hs] at h; cases h
  | cons x rest =>
    rw [hs, List.head?_cons, Option.some.injEq] at h
    subst h
    have hpair := List.pairwise_insertionSort r l
    rw [hs, List.pairwise_cons] at hpair
    refine ⟨(List.mem_insertionSort r).mp (by rw [hs]; exact List.mem_cons_self), fun c hc => ?_⟩
    have hc' : c ∈ x :: rest := hs ▸ (List.mem_insertionSort r).mpr hc
    rcases List.mem_cons.mp hc' with rfl | hrest
    · exact (Std.Total.total c c).elim id id
    · exact hpair.1 c hrest

theorem then_ne_gt_iff {o₁ o₂ : Ordering} :
    o₁.then o₂ ≠ .gt ↔ o₁ = .lt ∨ o₁ = .eq ∧ o₂ ≠ .gt := by
  cases o₁ <;> simp [Ordering.then]

section Eviction
variable {P G K : Type} [DecidableEq P] [LinearOrder G] [LinearOrder K]

/-- `candidates.remove(peer_id)` for each of the protected peers. -/
def removePeers (candidates : List (P × Peer G)) (peerIds : List P) : List (P × Peer G) :=
  candidates.filter fun candidate => candidate.1 ∉ peerIds

/-- `grouped[&group]`: the candidates of a keyed network group, in iteration order. -/
def groupedPeers (candidates : List (P × Peer G)) (group : G) : List P :=
  (candidates.filter fun candidate => candidate.2.keyedNetworkGroup = group).map Prod.fst

def evictionCmp (candidates : List (P × Peer G)) (a b : P × Peer G) : Ordering :=
  (compare (groupedPeers candidates a.2.keyedNetworkGroup).length
    (groupedPeers candidates b.2.keyedNetworkGroup).length).then
  ((compare b.2.keyedNetworkGroup a.2.keyedNetworkGroup).then
    (compare a.2.connectedAt b.2.connectedAt))

def evictionKey (candidates : List (P × Peer G)) (a : P × Peer G) : ℕ ×ₗ (Gᵒᵈ ×ₗ ℕ) :=
  toLex ((groupedPeers candidates a.2.keyedNetworkGroup).length,
    toLex (OrderDual.toDual a.2.keyedNetworkGroup, a.2.connectedAt))

omit [DecidableEq P] in
theorem evictionCmp_ne_gt_iff (candidates : List (P × Peer G)) (a b : P × Peer G) :
    evictionCmp candidates a b ≠ .gt ↔ evictionKey candidates a ≤ evictionKey candidates b := by
  unfold evictionKey
  rw [evictionCmp, then_ne_gt_iff, then_ne_gt_iff, Prod.Lex.toLex_le_toLex,
    Prod.Lex.toLex_le_toLex, compare_lt_iff_lt, compare_eq_iff_eq, compare_lt_iff_lt,
    compare_eq_iff_eq, compare_le_iff_le]
  simp only [OrderDual.toDual_lt_toDual, OrderDual.toDual_inj]
  constructor
  · rintro (h | ⟨h1, h | ⟨h2, h3⟩⟩)
    · exact Or.inl h
    · exact Or.inr ⟨h1, Or.inl h⟩
    · exact Or.inr ⟨h1, Or.inr ⟨h2.symm, h3⟩⟩
  · rintro (h | ⟨h1, h | ⟨h2, h3⟩⟩)
    · exact Or.inl h
    · exact Or.inr ⟨h1, Or.inl h⟩
    · exact Or.inr ⟨h1, Or.inr ⟨h2.symm, h3⟩⟩

instance (candidates : List (P × Peer G)) :
    Std.Total fun a b : P × Peer G => evictionCmp candidates a b ≠ .gt where
  total a b := by
    rw [evictionCmp_ne_gt_iff, evictionCmp_ne_gt_iff]
    exact le_total _ _

instance (candidates : List (P × Peer G)) :
    IsTrans (P × Peer G) fun a b => evictionCmp candidates a b ≠ .gt where
  trans a b c hab hbc := by
    rw [evictionCmp_ne_gt_iff] at hab hbc ⊢
    exact le_trans hab hbc

variable (keyedHash : P → K)

def protectByGroup (candidates : List (P × Peer G)) : List P :=
  let groups := (candidates.map fun candidate => candidate.2.keyedNetworkGroup).dedup
  ((groups.insertionSort (· ≤ ·)).take 4).filterMap fun group =>
    (groupedPeers candidates group).argmin keyedHash

def protectByPing (candidates : List (P × Peer G)) : List P :=
  let pingTimes := candidates.filterMap fun candidate =>
    candidate.2.minPing.map fun ping => (candidate.1, ping)
  ((pingTimes.insertionSort fun a b => a.2 ≤ b.2).take 8).map Prod.fst

def protectByAge (candidates : List (P × Peer G)) : List P :=
  let connectedAt := candidates.map fun candidate => (candidate.1, candidate.2.connectedAt)
  ((connectedAt.insertionSort fun a b => b.2 ≤ a.2).take (candidates.length / 2)).map Prod.fst

def unprotected (candidates : List (P × Peer G)) : List (P × Peer G) :=
  let candidates₁ := removePeers candidates (protectByGroup keyedHash candidates)
  let candidates₂ := removePeers candidates₁ (protectByPing candidates₁)
  removePeers candidates₂ (protectByAge candidates₂)

/-- `Behaviour::evict_inbound_peer`. -/
def Behaviour.evictInboundPeer (s : Behaviour P) (candidates : List (P × Peer G)) :
    Except String (Behaviour P) :=
  match ((unprotected keyedHash candidates).insertionSort
      fun a b => evictionCmp candidates a b ≠ .gt).head? with
  | some (peerId, _) => .ok ⟨s.evicted ++ [peerId], s.closeConnections ++ [peerId]⟩
  | none => .error "inbound peer limit reached and no peers could be evicted"

/-- Eviction picks, among the unprotected candidates, a peer of a least populous group, and in
its group the one connected earliest: the final sort is ascending in population and in connection
time. -/
theorem evictInboundPeer_evicts_oldest_of_least_populous (s : Behaviour P)
    (candidates : List (P × Peer G)) {s' : Behaviour P}
    (h : s.evictInboundPeer keyedHash candidates = .ok s') :
    ∃ e ∈ unprotected keyedHash candidates,
      s' = ⟨s.evicted ++ [e.1], s.closeConnections ++ [e.1]⟩ ∧
      ∀ c ∈ unprotected keyedHash candidates,
        (groupedPeers candidates e.2.keyedNetworkGroup).length ≤
            (groupedPeers candidates c.2.keyedNetworkGroup).length ∧
          (c.2.keyedNetworkGroup = e.2.keyedNetworkGroup → e.2.connectedAt ≤ c.2.connectedAt) := by
  unfold Behaviour.evictInboundPeer at h
  split at h
  · rename_i peerId peer hhead
    obtain ⟨hmem, hfirst⟩ := head?_insertionSort _ hhead
    cases h
    refine ⟨(peerId, peer), hmem, rfl, fun c hc => ?_⟩
    have hle := (evictionCmp_ne_gt_iff candidates _ c).mp (hfirst c hc)
    unfold evictionKey at hle
    rw [Prod.Lex.toLex_le_toLex, Prod.Lex.toLex_le_toLex] at hle
    simp only [OrderDual.toDual_lt_toDual, OrderDual.toDual_inj] at hle
    refine ⟨?_, fun hgroup => ?_⟩
    · rcases hle with hlt | ⟨heq, -⟩
      · exact Nat.le_of_lt hlt
      · exact Nat.le_of_eq heq
    · rcases hle with hlt | ⟨-, hlt | ⟨-, hconn⟩⟩
      · rw [hgroup] at hlt
        exact absurd hlt (Nat.lt_irrefl _)
      · rw [hgroup] at hlt
        exact absurd hlt (lt_irrefl _)
      · exact hconn
  · cases h

theorem evictInboundPeer_evicts_peer_two :
    ∃ e ∈ unprotected id [(1, ⟨0, none, 1⟩), (2, ⟨0, none, 2⟩), (3, ⟨0, none, 3⟩),
        (4, ⟨0, none, 4⟩)],
      e.1 = 2 ∧ (⟨[], []⟩ : Behaviour ℕ).evictInboundPeer id
          [(1, (⟨0, none, 1⟩ : Peer ℕ)), (2, ⟨0, none, 2⟩), (3, ⟨0, none, 3⟩), (4, ⟨0, none, 4⟩)] =
        .ok ⟨[e.1], [e.1]⟩ ∧
      ∀ c ∈ unprotected id [(1, (⟨0, none, 1⟩ : Peer ℕ)), (2, ⟨0, none, 2⟩), (3, ⟨0, none, 3⟩),
          (4, ⟨0, none, 4⟩)],
        c.2.keyedNetworkGroup = e.2.keyedNetworkGroup → e.2.connectedAt ≤ c.2.connectedAt := by
  have hrun : (⟨[], []⟩ : Behaviour ℕ).evictInboundPeer id
      [(1, (⟨0, none, 1⟩ : Peer ℕ)), (2, ⟨0, none, 2⟩), (3, ⟨0, none, 3⟩), (4, ⟨0, none, 4⟩)] =
        .ok ⟨[2], [2]⟩ := by decide
  obtain ⟨e, hmem, hs', hmin⟩ := evictInboundPeer_evicts_oldest_of_least_populous id _ _ hrun
  have he : e.1 = 2 := by
    simp only [Behaviour.mk.injEq, List.nil_append, List.cons.injEq, and_true] at hs'
    exact hs'.1.symm
  exact ⟨e, hmem, he, by rw [hrun, he], fun c hc => (hmin c hc).2⟩

example : unprotected id [(1, (⟨0, none, 1⟩ : Peer ℕ)), (2, ⟨0, none, 2⟩), (3, ⟨0, none, 3⟩),
    (4, ⟨0, none, 4⟩)] = [(2, ⟨0, none, 2⟩), (3, ⟨0, none, 3⟩)] := by decide

end Eviction

end P2p
end Pathfinder
