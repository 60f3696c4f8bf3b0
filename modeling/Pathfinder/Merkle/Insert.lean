import Pathfinder.Merkle.Session

/-! `Transaction::insert_trie` of the storage crate, and the shape of what `commit` hands it.
`commit_subtree` appends a subtree's nodes children first, the left subtree before the right,
so the root's subtree is the whole of `nodes_added`, root last, every child before its parent,
each node recording the hash of its children's hashes. `insert_trie` walks the nodes from the
root with an explicit stack, right child first, and inserts them in reverse: that is the
order of `nodes_added` again, so every child has its index when its parent is stored, and
node `j` lands at the `j`-th fresh index, as the session's `appendNodes` assumes. -/
namespace Pathfinder
namespace Merkle

section Model
variable {F : Type}

def collect (added : List (F × Node)) : ℕ → List NodeRef → List ℕ → Except String (List ℕ)
  | _, [], acc => .ok acc
  | 0, _ :: _, _ => .error "out of fuel"
  | fuel + 1, .storageIndex _ :: stack, acc => collect added fuel stack acc
  | fuel + 1, .index idx :: stack, acc =>
    match added[idx]? with
    | none => .error "Node index missing"
    | some (_,.binary left right) => collect added fuel (right :: left :: stack) (acc ++ [idx])
    | some (_,.edge child _) => collect added fuel (child :: stack) (acc ++ [idx])
    | some (_,_) => collect added fuel stack (acc ++ [idx])

def NodeRef.toStorageIndex (indices : ℕ → Option ℕ) (msg : String) : NodeRef → Except String ℕ
  | .storageIndex id => .ok id
  | .index idx =>
    match indices idx with
    | some id => .ok id
    | none => .error msg

/-- `Node::as_stored` with its map of the indices assigned so far. -/
def Node.toStored (indices : ℕ → Option ℕ) : Node → Except String StoredNode
  | .binary left right => do
    let left ← left.toStorageIndex indices "Left child index missing"
    let right ← right.toStorageIndex indices "Right child index missing"
    pure (.binary left right)
  | .edge child path => do
    let child ← child.toStorageIndex indices "Child index missing"
    pure (.edge child path)
  | .leafEdge path => pure (.leafEdge path)
  | .leafBinary => pure .leafBinary

/-- `INSERT INTO {table} (hash, data) VALUES(?, ?) RETURNING idx`, the row landing at `i`. -/
def Storage.insertRow (st : Storage F) (i : ℕ) (hash : F) (node : StoredNode) : Storage F :=
  ⟨fun k => if k = i then some node else st.get k,fun k => if k = i then some hash else st.hash k,
    st.leaf⟩

def insertNodes (added : List (F × Node)) : List ℕ → ℕ → (ℕ → Option ℕ) → Storage F →
    Except String ((ℕ → Option ℕ) × ℕ × Storage F)
  | [], next, indices, st => .ok (indices,next,st)
  | idx :: rest, next, indices, st =>
    match added[idx]? with
    | none => .error "Node index missing"
    | some (hash,node) => do
      let stored ← node.toStored indices
      insertNodes added rest (next + 1) (fun k => if k = idx then some next else indices k)
        (st.insertRow next hash stored)

/-- `Transaction::insert_trie` without pruning, on a table whose next free index is `N`. -/
def insertTrie [Zero F] [DecidableEq F] (fuel : ℕ) (st : Storage F) (N : ℕ) (u : TrieUpdate F) :
    Except String (RootIndexUpdate × Storage F) :=
  if u.nodesAdded.isEmpty then
    if !u.nodesRemoved.isEmpty && u.rootCommitment = 0 then .ok (.trieEmpty,st)
    else .ok (.unchanged,st)
  else do
    let toInsert ← collect u.nodesAdded fuel [.index (u.nodesAdded.length - 1)] []
    let (indices,_,st') ← insertNodes u.nodesAdded toInsert.reverse N (fun _ => none) st
    match indices (u.nodesAdded.length - 1) with
    | some idx => .ok (.updated idx,st')
    | none => .error "Root index must exist as we just inserted it"

end Model

section Shape
variable {F : Type} (hasher : NodeHasher F) (st : Storage F) (lf : List Bool → Option F)

/-- The reference `r` to the subtree at `path` names `added[lo..hi)`, hashing to `h`. -/
inductive Spans (added : List (F × Node)) : List Bool → NodeRef → ℕ → ℕ → ℕ → F → Prop
  | stored {path : List Bool} {i lo : ℕ} {h : F} :
      st.hash i = some h → Spans added path (.storageIndex i) lo lo 1 h
  | binary {path : List Bool} {j lo m : ℕ} {l r : NodeRef} {pl pr : ℕ} {hl hr : F} :
      added[j]? = some (hasher.binary hl hr,.binary l r) →
      Spans added (path ++ [false]) l lo m pl hl → Spans added (path ++ [true]) r m j pr hr →
      Spans added path (.index j) lo (j + 1) (pl + pr + 1) (hasher.binary hl hr)
  | edge {path p : List Bool} {j lo : ℕ} {c : NodeRef} {pc : ℕ} {hc : F} :
      added[j]? = some (hasher.edge hc p,.edge c p) → Spans added (path ++ p) c lo j pc hc →
      Spans added path (.index j) lo (j + 1) (pc + 1) (hasher.edge hc p)
  | leafBinary {path : List Bool} {j : ℕ} {a b : F} :
      added[j]? = some (hasher.binary a b,.leafBinary) →
      lf (path ++ [false]) = some a → lf (path ++ [true]) = some b →
      Spans added path (.index j) j (j + 1) 1 (hasher.binary a b)
  | leafEdge {path p : List Bool} {j : ℕ} {v : F} :
      added[j]? = some (hasher.edge v p,.leafEdge p) → lf (path ++ p) = some v →
      Spans added path (.index j) j (j + 1) 1 (hasher.edge v p)

def Node.refs : Node → List NodeRef
  | .binary l r => [l,r]
  | .edge c _ => [c]
  | _ => []

/-- Node `k` is reached from `r` through the references of added nodes. -/
inductive Reaches (added : List (F × Node)) : NodeRef → ℕ → Prop
  | self {j : ℕ} : Reaches added (.index j) j
  | child {j k : ℕ} {h : F} {n : Node} {c : NodeRef} :
      added[j]? = some (h,n) → c ∈ n.refs → Reaches added c k → Reaches added (.index j) k

def ChildrenBefore (added : List (F × Node)) : Prop :=
  ∀ j h n, added[j]? = some (h,n) → ∀ i, NodeRef.index i ∈ n.refs → i < j

end Shape

section SpansLemmas
variable {F : Type} {hasher : NodeHasher F} {st : Storage F} {lf : List Bool → Option F}
  {added : List (F × Node)}

theorem Spans.mono {added' : List (F × Node)} {path : List Bool} {r : NodeRef} {lo hi pops : ℕ}
    {h : F} (hs : Spans hasher st lf added path r lo hi pops h) (hp : added <+: added') :
    Spans hasher st lf added' path r lo hi pops h := by
  have hget : ∀ {j x}, added[j]? = some x → added'[j]? = some x := getElem?_of_prefix hp
  induction hs with
  | stored hh => exact .stored hh
  | binary hj _ _ ihl ihr => exact .binary (hget hj) ihl ihr
  | edge hj _ ih => exact .edge (hget hj) ih
  | leafBinary hj ha hb => exact .leafBinary (hget hj) ha hb
  | leafEdge hj hv => exact .leafEdge (hget hj) hv

theorem Spans.bounds {path : List Bool} {r : NodeRef} {lo hi pops : ℕ} {h : F}
    (hs : Spans hasher st lf added path r lo hi pops h) : lo ≤ hi ∧ pops ≤ 2 * (hi - lo) + 1 := by
  induction hs <;> omega

theorem Spans.stored_eq {path : List Bool} {i lo hi pops : ℕ} {h : F}
    (hs : Spans hasher st lf added path (.storageIndex i) lo hi pops h) : lo = hi := by
  cases hs; rfl

theorem Spans.index_eq {path : List Bool} {j lo hi pops : ℕ} {h : F}
    (hs : Spans hasher st lf added path (.index j) lo hi pops h) : hi = j + 1 := by
  cases hs <;> rfl

theorem Spans.index_lt {path : List Bool} {r : NodeRef} {lo hi pops : ℕ} {h : F}
    (hs : Spans hasher st lf added path r lo hi pops h) {i : ℕ} (hi' : r = .index i) : i < hi := by
  subst hi'
  have := hs.index_eq
  omega

theorem Spans.reaches {path : List Bool} {r : NodeRef} {lo hi pops : ℕ} {h : F}
    (hs : Spans hasher st lf added path r lo hi pops h) : ∀ k, lo ≤ k → k < hi → Reaches added r k := by
  induction hs with
  | stored => intro k h1 h2; omega
  | @binary _ j lo m l r _ _ _ _ hj hsl hsr ihl ihr =>
    intro k h1 h2
    have hl := hsl.bounds
    have hr := hsr.bounds
    rcases Nat.lt_or_ge k m with hk | hk
    · exact .child hj (by simp [Node.refs]) (ihl k h1 hk)
    · rcases Nat.lt_or_ge k j with hk' | hk'
      · exact .child hj (by simp [Node.refs]) (ihr k hk hk')
      · obtain rfl : k = j := by omega
        exact .self
  | @edge _ _ j lo c _ _ hj hsc ih =>
    intro k h1 h2
    rcases Nat.lt_or_ge k j with hk | hk
    · exact .child hj (by simp [Node.refs]) (ih k h1 hk)
    · obtain rfl : k = j := by omega
      exact .self
  | @leafBinary _ j _ _ _ _ _ =>
    intro k h1 h2
    obtain rfl : k = j := by omega
    exact .self
  | @leafEdge _ _ j _ _ _ =>
    intro k h1 h2
    obtain rfl : k = j := by omega
    exact .self

theorem Spans.children_lt {path : List Bool} {r : NodeRef} {lo hi pops : ℕ} {h : F}
    (hs : Spans hasher st lf added path r lo hi pops h) :
    ∀ k, lo ≤ k → k < hi → ∀ h n, added[k]? = some (h,n) → ∀ i, .index i ∈ n.refs → i < k := by
  induction hs with
  | stored => intro k h1 h2; omega
  | @binary _ j lo m l r _ _ _ _ hj hsl hsr ihl ihr =>
    intro k h1 h2 h' n hk i hi
    have hl := hsl.bounds
    have hr := hsr.bounds
    rcases Nat.lt_or_ge k m with hkm | hkm
    · exact ihl k h1 hkm h' n hk i hi
    · rcases Nat.lt_or_ge k j with hkj | hkj
      · exact ihr k hkm hkj h' n hk i hi
      · obtain rfl : k = j := by omega
        rw [hj] at hk
        cases hk
        simp only [Node.refs,List.mem_cons,List.not_mem_nil,or_false] at hi
        rcases hi with rfl | rfl
        · have := hsl.index_lt rfl; omega
        · have := hsr.index_lt rfl; omega
  | @edge _ _ j lo c _ _ hj hsc ih =>
    intro k h1 h2 h' n hk i hi
    rcases Nat.lt_or_ge k j with hkj | hkj
    · exact ih k h1 hkj h' n hk i hi
    · obtain rfl : k = j := by omega
      rw [hj] at hk
      cases hk
      simp only [Node.refs,List.mem_cons,List.not_mem_nil,or_false] at hi
      subst hi
      have := hsc.index_lt rfl
      have := hsc.bounds
      omega
  | @leafBinary _ j _ _ hj _ _ =>
    intro k h1 h2 h' n hk i hi
    obtain rfl : k = j := by omega
    rw [hj] at hk
    cases hk
    simp [Node.refs] at hi
  | @leafEdge _ _ j _ hj _ =>
    intro k h1 h2 h' n hk i hi
    obtain rfl : k = j := by omega
    rw [hj] at hk
    cases hk
    simp [Node.refs] at hi

theorem Spans.collect_eq {path : List Bool} {r : NodeRef} {lo hi pops : ℕ} {h : F}
    (hs : Spans hasher st lf added path r lo hi pops h) :
    ∀ fuel stack acc, collect added (fuel + pops) (r :: stack) acc =
      collect added fuel stack (acc ++ (List.range' lo (hi - lo)).reverse) := by
  induction hs with
  | stored => intro fuel stack acc; simp [collect]
  | @binary _ j lo m l r pl pr _ _ hj hsl hsr ihl ihr =>
    intro fuel stack acc
    have hl := hsl.bounds
    have hr := hsr.bounds
    have hseg : List.range' lo (j + 1 - lo) =
        List.range' lo (m - lo) ++ List.range' m (j - m) ++ [j] := by
      have hsplit : List.range' lo (m - lo) ++ List.range' m (j - m) = List.range' lo (j - lo) := by
        have := @List.range'_append lo (m - lo) (j - m) 1
        rwa [show lo + 1 * (m - lo) = m by omega,show m - lo + (j - m) = j - lo by omega] at this
      rw [hsplit,show j + 1 - lo = (j - lo) + 1 by omega,List.range'_1_concat,
        show lo + (j - lo) = j by omega]
    rw [show fuel + (pl + pr + 1) = fuel + pl + pr + 1 by omega]
    simp only [collect,hj]
    rw [ihr,ihl,hseg]
    simp
  | @edge _ _ j lo c pc _ hj hsc ih =>
    intro fuel stack acc
    have hc := hsc.bounds
    have hseg : List.range' lo (j + 1 - lo) = List.range' lo (j - lo) ++ [j] := by
      rw [show j + 1 - lo = (j - lo) + 1 by omega,List.range'_1_concat,
        show lo + (j - lo) = j by omega]
    rw [show fuel + (pc + 1) = fuel + pc + 1 by omega]
    simp only [collect,hj]
    rw [ih,hseg]
    simp
  | leafBinary hj => intro fuel stack acc; simp [collect,hj]
  | leafEdge hj => intro fuel stack acc; simp [collect,hj]

end SpansLemmas

section CommitShape
variable {F : Type} {hasher : NodeHasher F} {tree : MerkleTree F} {st : Storage F}

theorem commitSubtree_spans : ∀ {n : InternalNode} {path : List Bool} {acc acc' : Committed F}
    {h : F} {ref : Option NodeRef},
    commitSubtree hasher tree st n path acc = .ok ((h,ref),acc') →
    acc.added <+: acc'.added ∧
      match ref with
      | none => acc'.added = acc.added ∧ leafValue tree.leaves st path = some h
      | some r => ∃ pops, Spans hasher st (leafValue tree.leaves st) acc'.added path r
          acc.added.length acc'.added.length pops h
  | .unresolved idx, path, acc, acc', h, ref, hc => by
    cases hh : st.hash idx with
    | none => simp [commitSubtree,hh] at hc
    | some h' =>
      simp only [commitSubtree,hh,Except.ok.injEq,Prod.mk.injEq] at hc
      obtain ⟨⟨rfl,rfl⟩,rfl⟩ := hc
      exact ⟨List.prefix_refl _,1,.stored hh⟩
  | .leaf, path, acc, acc', h, ref, hc => by
    have hv : leafValue tree.leaves st path = some h ∧ ref = none ∧ acc' = acc := by
      cases hl : tree.leaves path with
      | some v =>
        simp only [commitSubtree,hl,Except.ok.injEq,Prod.mk.injEq] at hc
        obtain ⟨⟨rfl,rfl⟩,rfl⟩ := hc
        exact ⟨by simp [leafValue,hl],rfl,rfl⟩
      | none =>
        cases hs : st.leaf path with
        | none => simp [commitSubtree,hl,hs] at hc
        | some v =>
          simp only [commitSubtree,hl,hs,Except.ok.injEq,Prod.mk.injEq] at hc
          obtain ⟨⟨rfl,rfl⟩,rfl⟩ := hc
          exact ⟨by simp [leafValue,hl,hs],rfl,rfl⟩
    obtain ⟨hv,rfl,rfl⟩ := hv
    exact ⟨List.prefix_refl _,rfl,hv⟩
  | .binary si _ l r, path, acc, acc', h, ref, hc => by
    simp only [commitSubtree] at hc
    obtain ⟨⟨⟨lh,lc⟩,acc1⟩,h1,hc⟩ := except_bind_eq_ok hc
    obtain ⟨⟨⟨rh,rc⟩,acc2⟩,h2,hc⟩ := except_bind_eq_ok hc
    obtain ⟨hp1,hs1⟩ := commitSubtree_spans h1
    obtain ⟨hp2,hs2⟩ := commitSubtree_spans h2
    have hp3 : ∀ x, acc2.added <+: acc2.added ++ [x] := fun _ => List.prefix_append _ _
    cases lc <;> cases rc <;> simp only [except_ok_bind,except_error_bind,except_pure,
      Except.ok.injEq,Prod.mk.injEq,reduceCtorEq] at hc hs1 hs2
    · obtain ⟨⟨rfl,rfl⟩,rfl⟩ := hc
      obtain ⟨he1,hv1⟩ := hs1
      obtain ⟨he2,hv2⟩ := hs2
      refine ⟨(hp1.trans hp2).trans (hp3 _),1,?_⟩
      have hlen : acc2.added.length = acc.added.length := by rw [he2,he1]
      simp only [List.length_append,List.length_singleton,hlen]
      exact .leafBinary (by simp [hlen.symm]) hv1 hv2
    · obtain ⟨⟨rfl,rfl⟩,rfl⟩ := hc
      obtain ⟨pl,hsl⟩ := hs1
      obtain ⟨pr,hsr⟩ := hs2
      refine ⟨(hp1.trans hp2).trans (hp3 _),pl + pr + 1,?_⟩
      simp only [List.length_append,List.length_singleton]
      exact .binary (by simp) ((hsl.mono hp2).mono (hp3 _)) (hsr.mono (hp3 _))
  | .edge si _ p c, path, acc, acc', h, ref, hc => by
    simp only [commitSubtree] at hc
    obtain ⟨⟨⟨ch,cc⟩,acc1⟩,h1,hc⟩ := except_bind_eq_ok hc
    obtain ⟨hp1,hs1⟩ := commitSubtree_spans h1
    simp only [except_pure,Except.ok.injEq,Prod.mk.injEq] at hc
    obtain ⟨⟨rfl,rfl⟩,rfl⟩ := hc
    refine ⟨hp1.trans (List.prefix_append _ _),?_⟩
    cases cc with
    | none =>
      obtain ⟨he1,hv1⟩ := hs1
      refine ⟨1,?_⟩
      simp only [List.length_append,List.length_singleton,he1]
      exact .leafEdge (by simp) hv1
    | some cr =>
      obtain ⟨pc,hsc⟩ := hs1
      refine ⟨pc + 1,?_⟩
      simp only [List.length_append,List.length_singleton]
      exact .edge (by simp) (hsc.mono (List.prefix_append _ _))

theorem commit_spans [Zero F] {u : TrieUpdate F} (hc : commit hasher tree st = .ok u)
    (hne : u.nodesAdded ≠ []) :
    ∃ pops, Spans hasher st (leafValue tree.leaves st) u.nodesAdded []
      (.index (u.nodesAdded.length - 1)) 0 u.nodesAdded.length pops u.rootCommitment := by
  have hlen : 0 < u.nodesAdded.length := List.length_pos_of_ne_nil hne
  cases hr : tree.root with
  | none => simp [commit,hr] at hc; subst hc; simp at hlen
  | some root =>
    by_cases hu : ∃ i, root = .unresolved i
    · obtain ⟨i,rfl⟩ := hu
      cases hh : st.hash i <;> simp [commit,hr,hh] at hc
      subst hc
      simp at hlen
    · simp only [not_exists] at hu
      rw [commit_resolved hr hu] at hc
      obtain ⟨⟨⟨h,ref⟩,acc⟩,h1,hc⟩ := except_bind_eq_ok hc
      simp only [except_pure,Except.ok.injEq] at hc
      subst hc
      obtain ⟨-,hs⟩ := commitSubtree_spans h1
      cases ref with
      | none => simp only at hs; simp [hs.1] at hlen
      | some r =>
        obtain ⟨pops,hs⟩ := hs
        cases r with
        | storageIndex i => have := hs.stored_eq; simp at this hlen; omega
        | index j =>
          have := hs.index_eq
          simp only [List.length_nil] at this hs ⊢
          exact ⟨pops,by rw [show acc.added.length - 1 = j by omega]; exact hs⟩

end CommitShape

section InsertLemmas
variable {F : Type} {st : Storage F} {N : ℕ}

theorem toStored_eq {indices : ℕ → Option ℕ} {idx : ℕ → ℕ} {n : Node}
    (h : ∀ i, .index i ∈ n.refs → indices i = some (idx i)) :
    n.toStored indices = .ok (n.asStored idx) := by
  have hr : ∀ (r : NodeRef) msg, r ∈ n.refs → r.toStorageIndex indices msg = .ok (r.resolveIdx idx) := by
    intro r msg hr
    cases r with
    | storageIndex i => rfl
    | index i => simp [NodeRef.toStorageIndex,h i hr,NodeRef.resolveIdx]
  cases n with
  | binary l r =>
    simp [Node.toStored,hr l _ (by simp [Node.refs]),hr r _ (by simp [Node.refs]),Node.asStored]
  | edge c p => simp [Node.toStored,hr c _ (by simp [Node.refs]),Node.asStored]
  | leafBinary => rfl
  | leafEdge p => rfl

theorem insertRow_appendNodes {u : TrieUpdate F} {leaf : List Bool → Option F} {j : ℕ} {h : F}
    {n : Node} (hj : u.nodesAdded[j]? = some (h,n)) :
    (appendNodes st N {u with nodesAdded := u.nodesAdded.take j} leaf).insertRow (N + j) h
      (n.asStored (N + ·)) = appendNodes st N {u with nodesAdded := u.nodesAdded.take (j + 1)} leaf := by
  simp only [Storage.insertRow,appendNodes,List.getElem?_take]
  congr 1 <;> funext k <;> by_cases hk : k = N + j
  · simp [hk,hj]
  · by_cases hN : N ≤ k
    · have hlt : k - N < j + 1 ↔ k - N < j := by omega
      simp only [hk,hN,hlt,if_false,if_true]
    · simp [hk,hN]
  · simp [hk,hj]
  · by_cases hN : N ≤ k
    · have hlt : k - N < j + 1 ↔ k - N < j := by omega
      simp only [hk,hN,hlt,if_false,if_true]
    · simp [hk,hN]

theorem appendNodes_take_zero {u : TrieUpdate F} (hst : st.Below N) :
    appendNodes st N {u with nodesAdded := u.nodesAdded.take 0} st.leaf = st := by
  obtain ⟨g,hh,lv⟩ := st
  simp only [appendNodes,List.take_zero,List.getElem?_nil,Option.map_none]
  congr 1 <;> funext k <;> by_cases hN : N ≤ k
  · simp only [hN,if_true]
    exact (hst k hN).1.symm
  · simp [hN]
  · simp only [hN,if_true]
    exact (hst k hN).2.symm
  · simp [hN]

theorem insertNodes_range {u : TrieUpdate F} (hc : ChildrenBefore u.nodesAdded) :
    ∀ k j, j + k ≤ u.nodesAdded.length →
      insertNodes u.nodesAdded (List.range' j k) (N + j)
          (fun i => if i < j then some (N + i) else none)
          (appendNodes st N {u with nodesAdded := u.nodesAdded.take j} st.leaf) =
        .ok (fun i => if i < j + k then some (N + i) else none,N + (j + k),
          appendNodes st N {u with nodesAdded := u.nodesAdded.take (j + k)} st.leaf)
  | 0, j, _ => by simp [insertNodes]
  | k + 1, j, hk => by
    obtain ⟨⟨h,n⟩,hj⟩ : ∃ e, u.nodesAdded[j]? = some e :=
      ⟨_,List.getElem?_eq_getElem (by omega)⟩
    have hs : n.toStored (fun i => if i < j then some (N + i) else none) =
        .ok (n.asStored (N + ·)) := toStored_eq fun i hi => by simp [hc j h n hj i hi]
    have hidx : (fun i => if i = j then some (N + j) else if i < j then some (N + i) else none) =
        fun i => if i < j + 1 then some (N + i) else none := by
      funext i
      by_cases h1 : i = j
      · simp [h1]
      · by_cases h2 : i < j
        · simp [h1,h2,show i < j + 1 by omega]
        · simp [h1,h2,show ¬ i < j + 1 by omega]
    have ih := insertNodes_range hc k (j + 1) (by omega)
    rw [show j + 1 + k = j + (k + 1) by omega] at ih
    rw [List.range'_succ]
    simp only [insertNodes,hj,hs,except_ok_bind]
    rw [insertRow_appendNodes hj,hidx,show N + j + 1 = N + (j + 1) by omega]
    exact ih

end InsertLemmas

section InsertTrie
variable {F : Type} [Zero F] [DecidableEq F] {st : Storage F} {N : ℕ}

theorem insertTrie_of_spans {hasher : NodeHasher F} {st₀ : Storage F} {lf : List Bool → Option F}
    {u : TrieUpdate F} {path : List Bool} {pops fuel : ℕ} {h : F}
    (hs : Spans hasher st₀ lf u.nodesAdded path (.index (u.nodesAdded.length - 1)) 0
      u.nodesAdded.length pops h) (hst : st.Below N) (hfuel : pops ≤ fuel) :
    insertTrie fuel st N u = .ok (.updated (N + (u.nodesAdded.length - 1)),appendNodes st N u st.leaf) := by
  have hlen : 0 < u.nodesAdded.length := by have := hs.index_eq; omega
  have hne : u.nodesAdded.isEmpty = false := by
    simpa [List.isEmpty_iff] using List.ne_nil_of_length_pos hlen
  have hcol : collect u.nodesAdded fuel [.index (u.nodesAdded.length - 1)] [] =
      .ok (List.range' 0 u.nodesAdded.length).reverse := by
    rw [show fuel = fuel - pops + pops by omega,hs.collect_eq]
    simp [collect]
  have hc : ChildrenBefore u.nodesAdded := fun j h n hj =>
    hs.children_lt j (Nat.zero_le _) (List.getElem?_eq_some_iff.mp hj).1 h n hj
  have hins := @insertNodes_range F st N u hc u.nodesAdded.length 0 (by omega)
  simp only [Nat.zero_add,Nat.not_lt_zero,if_false,Nat.add_zero,appendNodes_take_zero hst,
    List.take_length] at hins
  simp only [insertTrie,hne,Bool.false_eq_true,if_false,hcol,except_ok_bind,List.reverse_reverse,
    hins]
  simp only [show u.nodesAdded.length - 1 < u.nodesAdded.length by omega,if_true]

theorem insertTrie_of_commit {hasher : NodeHasher F} {tree : MerkleTree F} {u : TrieUpdate F}
    (hc : commit hasher tree st = .ok u) (hst : st.Below N) {fuel : ℕ}
    (hfuel : 2 * u.nodesAdded.length + 1 ≤ fuel) :
    insertTrie fuel st N u = .ok (rootIndexUpdate u (N + ·),
      if u.nodesAdded = [] then st else appendNodes st N u st.leaf) := by
  by_cases hne : u.nodesAdded = []
  · simp only [insertTrie,rootIndexUpdate,hne,List.isEmpty_nil,if_true,Bool.and_eq_true,
      decide_eq_true_eq]
    split_ifs <;> rfl
  · obtain ⟨pops,hs⟩ := commit_spans hc hne
    have hb := hs.bounds
    rw [insertTrie_of_spans hs hst (by omega)]
    simp [rootIndexUpdate,hne]

/-- `commit` hands `insert_trie` a well-formed update, for every tree: the added nodes are the
segment of the root, which comes last, each recording `TrieNode::hash` of its children's
hashes; every node is reached from the root and refers to earlier nodes only. `insert_trie`
then stores node `j` at the `j`-th fresh index, never missing a child's index, and reports
the root's index; with nothing added, `TrieEmpty` exactly when nodes were removed and the
root is zero (`rootIndexUpdate`). -/
theorem commit_insertTrie_wellFormed {hasher : NodeHasher F} {tree : MerkleTree F}
    {u : TrieUpdate F} (hc : commit hasher tree st = .ok u) :
    (u.nodesAdded ≠ [] →
      (∃ pops, Spans hasher st (leafValue tree.leaves st) u.nodesAdded []
        (.index (u.nodesAdded.length - 1)) 0 u.nodesAdded.length pops u.rootCommitment) ∧
      (∀ k < u.nodesAdded.length, Reaches u.nodesAdded (.index (u.nodesAdded.length - 1)) k) ∧
      ChildrenBefore u.nodesAdded) ∧
    ∀ {N fuel : ℕ}, st.Below N → 2 * u.nodesAdded.length + 1 ≤ fuel →
      insertTrie fuel st N u = .ok (rootIndexUpdate u (N + ·),
        if u.nodesAdded = [] then st else appendNodes st N u st.leaf) := by
  refine ⟨fun hne => ?_,fun hst hfuel => insertTrie_of_commit hc hst hfuel⟩
  obtain ⟨pops,hs⟩ := commit_spans hc hne
  refine ⟨⟨pops,hs⟩,fun k hk => hs.reaches k (Nat.zero_le _) hk,fun j h n hj => ?_⟩
  exact hs.children_lt j (Nat.zero_le _) (List.getElem?_eq_some_iff.mp hj).1 h n hj

theorem commit_insertTrie_two_leaves :
    commit (NodeHasher.ofFeltHash fun a b : ℕ => a + 2 * b)
        ⟨some (.binary none 0 .leaf .leaf),fun _ => some 3,[]⟩
        ⟨fun _ => none,fun _ => none,fun _ => none⟩ = .ok ⟨[(9,.leafBinary)],[],9⟩ ∧
      insertTrie 3 ⟨fun _ => none,fun _ => none,fun _ => none⟩ 0 ⟨[(9,.leafBinary)],[],9⟩ =
        .ok (.updated 0,appendNodes ⟨fun _ => none,fun _ => none,fun _ => none⟩ 0
          ⟨[(9,.leafBinary)],[],9⟩ fun _ => none) :=
  ⟨rfl,(commit_insertTrie_wellFormed (rfl : commit (NodeHasher.ofFeltHash fun a b : ℕ => a + 2 * b)
    ⟨some (.binary none 0 .leaf .leaf),fun _ => some 3,[]⟩
    ⟨fun _ => none,fun _ => none,fun _ => none⟩ = .ok ⟨[(9,.leafBinary)],[],9⟩)).2
    (fun _ _ => ⟨rfl,rfl⟩) (by decide)⟩

end InsertTrie

section Step
variable {F : Type} [Zero F] [DecidableEq F] {HEIGHT : ℕ} {hasher : NodeHasher F}

theorem step_commit_of_insertTrie {s : Session F} {u : TrieUpdate F}
    (hc : commit hasher s.tree s.st = .ok u) {N fuel : ℕ} (hst : s.st.Below N)
    (hfuel : 2 * u.nodesAdded.length + 1 ≤ fuel) {ri : RootIndexUpdate} {st' : Storage F}
    (hi : insertTrie fuel s.st N u = .ok (ri,st')) :
    Step HEIGHT hasher s .commit ⟨{st' with leaf := leafValue s.tree.leaves s.st},
      s.versions ++ [(ri.apply s.rootIdx,leafValue s.tree.leaves s.st)],ri.apply s.rootIdx,
      MerkleTree.load (ri.apply s.rootIdx)⟩ := by
  rw [insertTrie_of_commit hc hst hfuel,Except.ok.injEq,Prod.mk.injEq] at hi
  obtain ⟨rfl,rfl⟩ := hi
  have hp : Persisted s.st u (N + ·) {(if u.nodesAdded = [] then s.st else appendNodes s.st N u s.st.leaf)
      with leaf := leafValue s.tree.leaves s.st} := by
    by_cases hne : u.nodesAdded = []
    · simp only [hne,if_true]
      exact ⟨fun _ _ h => h,fun _ _ h => h,fun j _ _ hj => by simp [hne] at hj,
        fun j _ _ hj => by simp [hne] at hj⟩
    · simp only [hne,if_false]
      exact appendNodes_persisted hst u _
  exact .commit hc hp rfl

end Step

end Merkle
end Pathfinder
