import Pathfinder.Patricia.Trie
import Pathfinder.Monad.Except

/-! The binary Merkle-Patricia tree of `crates/merkle-tree` (`tree.rs`, `merkle_node.rs`):
an in-memory tree whose nodes are resolved lazily from storage, changed by `set` and
read by `get`, and committed to a `TrieUpdate` of added and removed nodes. The node
hash `H` is a parameter, as the `FeltHash` type parameter is in the source. -/
namespace Pathfinder
namespace Merkle

open Patricia

/-- `StoredNode`: children by storage index, leaf children implied by the `Leaf*` variants. -/
inductive StoredNode where
  | binary (left right : ℕ)
  | edge (child : ℕ) (path : List Bool)
  | leafBinary
  | leafEdge (path : List Bool)
  deriving DecidableEq, Repr

/-- `NodeRef`: a child already in storage, or the position of a node added by the same commit. -/
inductive NodeRef where
  | storageIndex (idx : ℕ)
  | index (idx : ℕ)
  deriving DecidableEq, Repr

/-- `Node` of the storage crate: a node as a commit emits it. -/
inductive Node where
  | binary (left right : NodeRef)
  | edge (child : NodeRef) (path : List Bool)
  | leafBinary
  | leafEdge (path : List Bool)
  deriving DecidableEq, Repr

/-- `TrieUpdate`. -/
structure TrieUpdate (F : Type) where
  nodesAdded : List (F × Node)
  nodesRemoved : List ℕ
  rootCommitment : F

/-- `InternalNode`: a node not yet fetched from storage, a binary branch, an edge, or a leaf. -/
inductive InternalNode where
  | unresolved (idx : ℕ)
  | binary (storageIndex : Option ℕ) (height : ℕ) (left right : InternalNode)
  | edge (storageIndex : Option ℕ) (height : ℕ) (path : List Bool) (child : InternalNode)
  | leaf
  deriving DecidableEq, Repr

def InternalNode.storageIndex : InternalNode → Option ℕ
  | unresolved idx => some idx
  | binary si .. => si
  | edge si .. => si
  | leaf => none

/-- The `Storage` trait: stored nodes and their hashes by index, leaf values by key. -/
structure Storage (F : Type) where
  get : ℕ → Option StoredNode
  hash : ℕ → Option F
  leaf : List Bool → Option F

/-- `BinaryNode::calculate_hash` and `EdgeNode::calculate_hash`. -/
structure NodeHasher (F : Type) where
  binary : F → F → F
  edge : F → List Bool → F

/-- `Felt::from_bits`: the bits read as a number, most significant first. -/
def bitsValue (bits : List Bool) : ℕ := bits.foldl (fun acc b => 2 * acc + b.toNat) 0

def NodeHasher.ofFeltHash {F : Type} [Add F] [NatCast F] (H : F → F → F) : NodeHasher F :=
  ⟨H,fun child path => H child (bitsValue path) + (path.length : F)⟩

/-- `MerkleTree<H, HEIGHT>`. -/
structure MerkleTree (F : Type) where
  root : Option InternalNode
  leaves : List Bool → Option F
  nodesRemoved : List ℕ

namespace MerkleTree
variable {F : Type}

/-- `MerkleTree::new`: a tree whose root is still in storage. -/
def new (root : ℕ) : MerkleTree F := ⟨some (.unresolved root),fun _ => none,[]⟩

/-- `MerkleTree::empty`. -/
def empty : MerkleTree F := ⟨none,fun _ => none,[]⟩

end MerkleTree

/-- A node passed by `traverse`, with a hole where the walk continued. -/
inductive PathFrame where
  | binary (storageIndex : Option ℕ) (height : ℕ) (dir : Bool) (sibling : InternalNode)
  | edge (storageIndex : Option ℕ) (height : ℕ) (path : List Bool)

def PathFrame.fill : PathFrame → InternalNode → InternalNode
  | binary si h d s, n => if d then .binary si h s n else .binary si h n s
  | edge si h p, n => .edge si h p n

def plug : List PathFrame → InternalNode → InternalNode
  | [], n => n
  | f::fs, n => plug fs (f.fill n)

/-- `EdgeNode::path_matches`: the edge's path is the key's next bits after its height. -/
def pathMatches (height : ℕ) (path key : List Bool) : Bool :=
  path == (key.drop height).take path.length

/-- `EdgeNode::common_path`: the part of the path that the key follows from the edge's height. -/
def commonPath (height : ℕ) (path key : List Bool) : List Bool :=
  path.take (commonLength (key.drop height) path)

section Operations
variable {F : Type} (HEIGHT : ℕ) (st : Storage F)

/-- `MerkleTree::resolve`: load the stored node `index` as a node at `height`. -/
def resolve (index height : ℕ) : Except String InternalNode :=
  if height < HEIGHT then
    match st.get index with
    | none => .error s!"Node {index} at height {height} is missing"
    | some (.binary l r) => .ok (.binary (some index) height (.unresolved l) (.unresolved r))
    | some (.edge c p) => .ok (.edge (some index) height p (.unresolved c))
    | some .leafBinary => .ok (.binary (some index) height .leaf .leaf)
    | some (.leafEdge p) => .ok (.edge (some index) height p .leaf)
  else
    .error s!"Attempted to resolve a node with height {height} which exceeds the tree height {HEIGHT}"

/-- `MerkleTree::traverse`. -/
def traverse (dst : List Bool) :
    ℕ → InternalNode → ℕ → List PathFrame → Except String (List PathFrame × InternalNode)
  | 0, _, _, _ => .error "traverse ran out of rounds"
  | fuel+1, current, height, nodes =>
    match current with
    | .unresolved idx => do
      let node ← resolve HEIGHT st idx height
      traverse dst fuel node height nodes
    | .binary si h l r =>
      let next := dst.getD h false
      traverse dst fuel (if next then r else l) (height+1)
        (.binary si h next (if next then l else r) :: nodes)
    | .edge si h p c =>
      if pathMatches h p dst then traverse dst fuel c (height+p.length) (.edge si h p :: nodes)
      else .ok (nodes,current)
    | .leaf => .ok (nodes,.leaf)

/-- `traverse` from the root; a tree of height `HEIGHT` is walked in `2 * HEIGHT + 2` rounds. -/
def walk (dst : List Bool) (root : InternalNode) :
    Except String (List PathFrame × InternalNode) :=
  traverse HEIGHT st dst (2*HEIGHT+2) root 0 []

/-- `MerkleTree::merge_edges`. -/
def mergeEdges : InternalNode → Except String (InternalNode × List ℕ)
  | .edge si h p c => do
    let resolved ← match c with
      | .unresolved idx => resolve HEIGHT st idx (h+p.length)
      | other => pure other
    match resolved with
    | .edge csi _ cp cc => pure (.edge si h (p ++ cp) cc,csi.toList)
    | _ => pure (.edge si h p c,[])
  | n => pure (n,[])

def splitEdge (h : ℕ) (path : List Bool) (child : InternalNode) (key : List Bool) : InternalNode :=
  let common := commonPath h path key
  let branchHeight := h + common.length
  let childHeight := branchHeight + 1
  let newPath := key.drop childHeight
  let oldPath := path.drop (common.length+1)
  let new := if newPath.isEmpty then .leaf else .edge none childHeight newPath .leaf
  let old := if oldPath.isEmpty then child else .edge none childHeight oldPath child
  let branch := if key.getD branchHeight false then .binary none branchHeight old new
    else .binary none branchHeight new old
  if common.isEmpty then branch else .edge none h common branch

def mergeParent (edge : InternalNode) : List PathFrame → Except String (InternalNode × List ℕ)
  | .edge psi ph pp :: rest => do
    let (merged,dropped) ← mergeEdges HEIGHT st (.edge psi ph pp edge)
    pure (plug rest merged,dropped)
  | rest => pure (plug rest edge,[])

def deleteFrom (t : MerkleTree F) : List PathFrame → List ℕ → Except String (MerkleTree F)
  | [], removed => .ok { t with root := none, nodesRemoved := t.nodesRemoved ++ removed }
  | .edge si _ _ :: nodes, removed => deleteFrom t nodes (removed ++ si.toList)
  | .binary si h d s :: nodes, removed => do
    let (edge,dropped) ← mergeEdges HEIGHT st (.edge none h [!d] s)
    let (root,dropped') ← mergeParent HEIGHT st edge nodes
    pure { t with root := some root,
                  nodesRemoved := t.nodesRemoved ++ dropped ++ si.toList ++ dropped' ++ removed }

/-- `MerkleTree::delete_leaf`; keys without a leaf leave the tree as the walk resolved it. -/
def deleteLeaf (t : MerkleTree F) (key : List Bool) : Except String (MerkleTree F) :=
  match t.root with
  | none => .ok t
  | some root => do
    let (nodes,last) ← walk HEIGHT st key root
    match last with
    | .leaf => deleteFrom HEIGHT st t nodes []
    | _ => pure { t with root := some (plug nodes last) }

/-- `MerkleTree::set`; the value zero deletes the key. -/
def set [DecidableEq F] [Zero F] (t : MerkleTree F) (key : List Bool) (value : F) :
    Except String (MerkleTree F) :=
  if value = 0 then deleteLeaf HEIGHT st t key
  else
    match t.root with
    | none =>
      .ok { t with root := some (.edge none 0 key .leaf),
                   leaves := Function.update t.leaves key (some value) }
    | some root => do
      let (nodes,last) ← walk HEIGHT st key root
      let updated ← match last with
        | .edge _ h p c => pure (splitEdge h p c key)
        | .leaf => pure .leaf
        | _ => .error "The end of a traversion cannot be unresolved or binary"
      pure { root := some (plug nodes updated),
             leaves := Function.update t.leaves key (some value),
             nodesRemoved := t.nodesRemoved ++ last.storageIndex.toList }

/-- `MerkleTree::get`: the value at `key`, and the tree with the walked nodes resolved. -/
def get (t : MerkleTree F) (key : List Bool) : Except String (Option F × MerkleTree F) :=
  match t.root with
  | none => .ok (none,t)
  | some root => do
    let (nodes,last) ← walk HEIGHT st key root
    let t' := { t with root := some (plug nodes last) }
    if last = .leaf then
      match t.leaves key with
      | some v => pure (some v,t')
      | none => pure (st.leaf key,t')
    else pure (none,t')

end Operations

/-- The `added` and `removed` vectors `commit_subtree` appends to. -/
structure Committed (F : Type) where
  added : List (F × Node)
  removed : List ℕ

section Commit
variable {F : Type} (hasher : NodeHasher F) (t : MerkleTree F) (st : Storage F)

/-- `MerkleTree::commit_subtree`. -/
def commitSubtree : InternalNode → List Bool → Committed F →
    Except String ((F × Option NodeRef) × Committed F)
  | .unresolved idx, _, acc =>
    match st.hash idx with
    | some h => .ok ((h,some (.storageIndex idx)),acc)
    | none => .error "Stored node's hash is missing"
  | .leaf, path, acc =>
    match t.leaves path with
    | some v => .ok ((v,none),acc)
    | none =>
      match st.leaf path with
      | some v => .ok ((v,none),acc)
      | none => .error "Leaf value missing from storage"
  | .binary si _ l r, path, acc => do
    let ((lh,lc),acc) ← commitSubtree l (path ++ [false]) acc
    let ((rh,rc),acc) ← commitSubtree r (path ++ [true]) acc
    let hash := hasher.binary lh rh
    let persisted ← match lc, rc with
      | none, none => pure Node.leafBinary
      | some left, some right => pure (Node.binary left right)
      | _, _ => .error "Inconsistent binary children. Both children must be leaves or not leaves."
    let removed := acc.removed ++ si.toList
    pure ((hash,some (.index acc.added.length)),⟨acc.added ++ [(hash,persisted)],removed⟩)
  | .edge si _ p c, path, acc => do
    let ((ch,cc),acc) ← commitSubtree c (path ++ p) acc
    let hash := hasher.edge ch p
    let persisted := match cc with
      | none => Node.leafEdge p
      | some child => Node.edge child p
    pure ((hash,some (.index acc.added.length)),⟨acc.added ++ [(hash,persisted)],acc.removed ++ si.toList⟩)

/-- `MerkleTree::commit`. -/
def commit [Zero F] : Except String (TrieUpdate F) := do
  let (rootHash,acc) ← match t.root with
    | some (.unresolved idx) =>
      match st.hash idx with
      | some h => pure (h,(⟨[],[]⟩ : Committed F))
      | none => .error "Root node's hash is missing"
    | some other => do
      let ((h,_),acc) ← commitSubtree hasher t st other [] ⟨[],[]⟩
      pure (h,acc)
    | none => pure (0,⟨[],[]⟩)
  pure ⟨acc.added,acc.removed ++ t.nodesRemoved,rootHash⟩

end Commit

end Merkle
end Pathfinder
