import Pathfinder.Merkle.Commit

/-! Commits persisted and read back. A storage holds a commit when it keeps its old rows and
has every added node at an index of its own, with `NodeRef::Index` children resolved as
`Node::as_stored` does. Loading the new root from such a storage gives a tree holding the
same map, and roots loaded earlier keep theirs. -/
namespace Pathfinder
namespace Merkle

open Patricia Trie

section Persisted
variable {F : Type}

def NodeRef.resolveIdx (idx : ℕ → ℕ) : NodeRef → ℕ
  | .storageIndex i => i
  | .index j => idx j

/-- `Node::as_stored`: the node as persisted, its children by storage index. -/
def Node.asStored (idx : ℕ → ℕ) : Node → StoredNode
  | .binary l r => .binary (l.resolveIdx idx) (r.resolveIdx idx)
  | .edge c p => .edge (c.resolveIdx idx) p
  | .leafBinary => .leafBinary
  | .leafEdge p => .leafEdge p

/-- `st'` holds the commit `u` on top of `st`, added node `j` at `idx j`; nothing is pruned. -/
structure Persisted (st : Storage F) (u : TrieUpdate F) (idx : ℕ → ℕ) (st' : Storage F) :
    Prop where
  get_old : ∀ i n, st.get i = some n → st'.get i = some n
  hash_old : ∀ i h, st.hash i = some h → st'.hash i = some h
  get_added : ∀ j h n, u.nodesAdded[j]? = some (h,n) → st'.get (idx j) = some (n.asStored idx)
  hash_added : ∀ j h n, u.nodesAdded[j]? = some (h,n) → st'.hash (idx j) = some h

end Persisted

section Mono
variable {F : Type} {st st' : Storage F} {ok ok' : ℕ → Trie F → Prop}
  {lf lf' : List Bool → Option F}

theorem Stored.find_lf {i : ℕ} {path : List Bool} {t : Trie F} (h : Stored st ok lf i path t)
    {q : List Bool} {v : F} (hq : t.find q = some v) : lf (path ++ q) = some v := by
  induction h generalizing q with
  | binary _ _ _ _ ihl ihr =>
    cases q with
    | nil => simp at hq
    | cons b q =>
      cases b
      · simpa using ihl (by simpa using hq)
      · simpa using ihr (by simpa using hq)
  | @edge _ _ p _ _ _ _ _ ih =>
    cases hd : dropPrefix p q with
    | none => simp [find_edge,hd] at hq
    | some r =>
      obtain rfl := dropPrefix_eq_some.mp hd
      simpa using ih (by simpa using hq)
  | leafBinary _ _ ha hb =>
    cases q with
    | nil => simp at hq
    | cons b q =>
      cases b <;> cases q <;> simp [find] at hq <;> subst hq <;> assumption
  | @leafEdge _ p _ _ _ _ hv =>
    cases hd : dropPrefix p q with
    | none => simp [find_edge,hd] at hq
    | some r =>
      obtain rfl := dropPrefix_eq_some.mp hd
      cases r with
      | nil => simp [find] at hq; subst hq; simpa using hv
      | cons b r => simp [find] at hq

theorem Denotes.find_lf {path : List Bool} {n : InternalNode} {t : Trie F}
    (h : Denotes st ok lf path n t) {q : List Bool} {v : F} (hq : t.find q = some v) :
    lf (path ++ q) = some v := by
  induction h generalizing q with
  | unresolved hs => exact hs.find_lf hq
  | leaf hv =>
    cases q with
    | nil => simp [find] at hq; subst hq; simpa using hv
    | cons b q => simp [find] at hq
  | binary _ _ ihl ihr =>
    cases q with
    | nil => simp at hq
    | cons b q =>
      cases b
      · simpa using ihl (by simpa using hq)
      · simpa using ihr (by simpa using hq)
  | @edge _ _ p _ _ _ ih =>
    cases hd : dropPrefix p q with
    | none => simp [find_edge,hd] at hq
    | some r =>
      obtain rfl := dropPrefix_eq_some.mp hd
      simpa using ih (by simpa using hq)

theorem Stored.mono {i : ℕ} {path : List Bool} {t : Trie F} (h : Stored st ok lf i path t)
    (hg : ∀ j n, st.get j = some n → st'.get j = some n) (ho : ∀ j t, ok j t → ok' j t)
    (hl : ∀ q v, t.find q = some v → lf' (path ++ q) = some v) : Stored st' ok' lf' i path t := by
  induction h with
  | binary hget hok _ _ ihl ihr =>
    exact .binary (hg _ _ hget) (ho _ _ hok)
      (ihl fun q v hq => by simpa using hl (false :: q) v (by simpa using hq))
      (ihr fun q v hq => by simpa using hl (true :: q) v (by simpa using hq))
  | @edge _ _ p _ _ hget hok _ ih =>
    exact .edge (hg _ _ hget) (ho _ _ hok)
      (ih fun q v hq => by simpa using hl (p ++ q) v (by simpa using hq))
  | leafBinary hget hok _ _ =>
    exact .leafBinary (hg _ _ hget) (ho _ _ hok) (hl [false] _ rfl) (hl [true] _ rfl)
  | @leafEdge _ p _ _ hget hok _ =>
    exact .leafEdge (hg _ _ hget) (ho _ _ hok) (hl p _ (by simp [find]))

theorem HashOk.mono {hasher : NodeHasher F} (hh : ∀ i h, st.hash i = some h → st'.hash i = some h)
    {i : ℕ} {t : Trie F} (h : HashOk hasher st i t) : HashOk hasher st' i t :=
  hh i _ h

end Mono

section Reload
variable {F : Type} {hasher : NodeHasher F} {st st' : Storage F} {lf lf' : List Bool → Option F}
  {u : TrieUpdate F} {idx : ℕ → ℕ}

theorem Emitted.toStored {r : NodeRef} {path : List Bool} {t : Trie F}
    (h : Emitted hasher st (HashOk hasher st) lf u.nodesAdded r path t) (hp : Persisted st u idx st')
    (hl : ∀ q v, t.find q = some v → lf' (path ++ q) = some v) :
    Stored st' (HashOk hasher st') lf' (r.resolveIdx idx) path t := by
  induction h with
  | stored hs => exact hs.mono hp.get_old (fun _ _ => HashOk.mono hp.hash_old) hl
  | binary hj _ _ ihl ihr =>
    exact .binary (hp.get_added _ _ _ hj) (hp.hash_added _ _ _ hj)
      (ihl fun q v hq => by simpa using hl (false :: q) v (by simpa using hq))
      (ihr fun q v hq => by simpa using hl (true :: q) v (by simpa using hq))
  | @edge _ _ p _ _ hj _ ih =>
    exact .edge (hp.get_added _ _ _ hj) (hp.hash_added _ _ _ hj)
      (ih fun q v hq => by simpa using hl (p ++ q) v (by simpa using hq))
  | leafBinary hj _ _ =>
    exact .leafBinary (hp.get_added _ _ _ hj) (hp.hash_added _ _ _ hj) (hl [false] _ rfl)
      (hl [true] _ rfl)
  | @leafEdge _ p _ _ hj _ =>
    exact .leafEdge (hp.get_added _ _ _ hj) (hp.hash_added _ _ _ hj)
      (hl p _ (by simp [find]))

end Reload

end Merkle
end Pathfinder
