import Pathfinder.Merkle.Session

/-! Merkle proofs. `MerkleTree::get_proofs` walks the stored nodes from a root towards a key
and records every node it passes, children by hash, with the node's own hash; the tests'
`verify_proof` rehashes that chain from the root. On a stored trie whose nodes carry their
hashes, every key of the trie's height gets a proof, and the proof is a chain from the root
hash down to the key's value, or down to an edge that leaves the key: the verifier accepts
it as a proof of membership or of non-membership. -/
namespace Pathfinder
namespace Merkle

open Patricia Trie

section GetProofs
variable {F : Type}

/-- `TrieNode` of the common crate: a node as a proof shows it, its children by hash. -/
inductive TrieNode (F : Type) where
  | binary (left right : F)
  | edge (child : F) (path : List Bool)
  deriving DecidableEq, Repr

/-- `TrieNode::hash`. -/
def TrieNode.hash (hasher : NodeHasher F) : TrieNode F → F
  | binary left right => hasher.binary left right
  | edge child path => hasher.edge child path

/-- `GetProofError`. -/
inductive GetProofError where
  | internal (msg : String)
  | storageNodeMissing (idx : ℕ)
  deriving DecidableEq, Repr

/-- `anyhow::Context::context` on an `Option`: a missing value is an internal error. -/
def context {α : Type} (msg : String) : Option α → Except GetProofError α
  | some a => .ok a
  | none => .error (.internal msg)

/-- `key.get(height..height + len)`. -/
def keySlice (key : List Bool) (height len : ℕ) : Option (List Bool) :=
  if height + len ≤ key.length then some ((key.drop height).take len) else none

def proofNode (st : Storage F) (key : List Bool) (height : ℕ) :
    StoredNode → Except GetProofError (Option ℕ × ℕ × TrieNode F)
  | .binary left right => do
    let next ← context "Key path too short for binary node"
      (key[height]?.map fun b => if b then right else left)
    let l ← context "Left child's hash is missing" (st.hash left)
    let r ← context "Right child's hash is missing" (st.hash right)
    pure (some next,height + 1,.binary l r)
  | .edge child path => do
    let k ← context "Key path is too short for edge node" (keySlice key height path.length)
    let c ← context "Child's hash is missing" (st.hash child)
    pure (if k = path then some child else none,height + path.length,.edge c path)
  | .leafBinary => do
    let l ← context "Left leaf is missing" (st.leaf (key.take height ++ [false]))
    let r ← context "Right leaf is missing" (st.leaf (key.take height ++ [true]))
    pure (none,height,.binary l r)
  | .leafEdge path => do
    let c ← context "Child leaf is missing" (st.leaf (key.take height ++ path))
    pure (none,height,.edge c path)

def proofWalk (st : Storage F) (key : List Bool) :
    ℕ → Option ℕ → ℕ → List (TrieNode F × F) → Except GetProofError (List (TrieNode F × F))
  | _, none, _, nodes => .ok nodes
  | 0, some _, _, _ => .error (.internal "out of fuel")
  | fuel+1, some index, height, nodes =>
    match st.get index with
    | none => .error (.storageNodeMissing index)
    | some node => do
      let (next,height',node) ← proofNode st key height node
      let nodeHash ← context "Node hash is missing" (st.hash index)
      proofWalk st key fuel next height' (nodes ++ [(node,nodeHash)])

/-- `MerkleTree::get_proofs`: for each key, the nodes from the root towards it, root first. -/
def getProofs (root : ℕ) (st : Storage F) (keys : List (List Bool)) (fuel : ℕ) :
    Except GetProofError (List (List (TrieNode F × F))) :=
  keys.mapM fun key => proofWalk st key fuel (some root) 0 []

@[simp] theorem context_some {α : Type} (msg : String) (a : α) : context msg (some a) = .ok a := rfl

@[simp] theorem proofWalk_none (st : Storage F) (key : List Bool) (fuel height : ℕ)
    (nodes : List (TrieNode F × F)) : proofWalk st key fuel none height nodes = .ok nodes := by
  cases fuel <;> rfl

theorem proofWalk_round {st : Storage F} {key : List Bool} {fuel index height height' : ℕ}
    {nodes : List (TrieNode F × F)} {node : StoredNode} {next : Option ℕ} {tn : TrieNode F} {x : F}
    (hg : st.get index = some node) (hn : proofNode st key height node = .ok (next,height',tn))
    (hh : st.hash index = some x) :
    proofWalk st key (fuel + 1) (some index) height nodes =
      proofWalk st key fuel next height' (nodes ++ [(tn,x)]) := by
  simp only [proofWalk,hg,hn,hh]
  rfl

theorem keySlice_append (path rest : List Bool) {n : ℕ} (h : n ≤ rest.length) :
    keySlice (path ++ rest) path.length n = some (rest.take n) := by
  simp [keySlice,h]

end GetProofs

section Chain
variable {F : Type} (hasher : NodeHasher F)

/-- `Membership` of the tests. -/
inductive Membership where
  | member
  | nonMember
  deriving DecidableEq, Repr

def proofVerdict : Option F → Except (Option Membership) F
  | some v => .ok v
  | none => .error (some .nonMember)

/-- A proof for the key bits `rest` below a node of hash `h`, where the trie answers `x`. -/
inductive Chain : F → List Bool → Option F → List (TrieNode F × F) → Prop
  | leaf {v : F} : Chain v [] (some v) []
  | binary {l r : F} {b : Bool} {rest : List Bool} {x : Option F} {proof : List (TrieNode F × F)} :
      Chain (if b then r else l) rest x proof →
      Chain (hasher.binary l r) (b :: rest) x ((.binary l r,hasher.binary l r) :: proof)
  | edge {c : F} {p rest : List Bool} {x : Option F} {proof : List (TrieNode F × F)} :
      Chain c rest x proof → Chain (hasher.edge c p) (p ++ rest) x ((.edge c p,hasher.edge c p) :: proof)
  | diverge {c : F} {p rest : List Bool} :
      p.length ≤ rest.length → rest.take p.length ≠ p →
      Chain (hasher.edge c p) rest none [(.edge c p,hasher.edge c p)]

variable {hasher}

theorem Chain.hashes {h : F} {rest : List Bool} {x : Option F} {proof : List (TrieNode F × F)}
    (hc : Chain hasher h rest x proof) : ∀ e ∈ proof, e.1.hash hasher = e.2 := by
  induction hc with
  | leaf => simp
  | binary _ ih => simpa [TrieNode.hash] using ih
  | edge _ ih => simpa [TrieNode.hash] using ih
  | diverge => simp [TrieNode.hash]

end Chain

section Verify
variable {F : Type} [DecidableEq F] (hasher : NodeHasher F)

def verifyNodes : F → List Bool → List (TrieNode F × F) → Option (Except (Option Membership) F)
  | expected, _, [] => some (.ok expected)
  | expected, remaining, (node,_) :: proofs =>
    if node.hash hasher ≠ expected then some (.error none) else
    match node, remaining with
    | .binary _ _, [] => none
    | .binary left right, b :: remaining => verifyNodes (if b then right else left) remaining proofs
    | .edge child path, remaining =>
      if remaining.length < path.length then none
      else if path ≠ remaining.take path.length then some (.error (some .nonMember))
      else verifyNodes child (remaining.drop path.length) proofs

/-- `verify_proof` of the tests, whose keys are 251 bits long; `none` is a panic. -/
def verifyProof (root : F) (key : List Bool) (value : F) (proofs : List (TrieNode F × F)) :
    Option (Option Membership) :=
  if key.length ≠ 251 then some none else
  (verifyNodes hasher root key proofs).map fun
    | .ok expected => if expected = value then some .member else none
    | .error r => r

variable {hasher}

theorem Chain.verifyNodes_eq {h : F} {rest : List Bool} {x : Option F}
    {proof : List (TrieNode F × F)} (hc : Chain hasher h rest x proof) :
    verifyNodes hasher h rest proof = some (proofVerdict x) := by
  induction hc with
  | leaf => rfl
  | binary _ ih => simpa [verifyNodes,TrieNode.hash] using ih
  | edge _ ih => simpa [verifyNodes,TrieNode.hash] using ih
  | diverge hle hne => simp [verifyNodes,TrieNode.hash,proofVerdict,hle,Ne.symm hne]

theorem Chain.verifyProof_member {h v : F} {key : List Bool} {proof : List (TrieNode F × F)}
    (hc : Chain hasher h key (some v) proof) (hk : key.length = 251) :
    verifyProof hasher h key v proof = some (some .member) := by
  simp [verifyProof,hk,hc.verifyNodes_eq,proofVerdict]

theorem Chain.verifyProof_nonMember {h : F} {key : List Bool} {proof : List (TrieNode F × F)}
    (hc : Chain hasher h key none proof) (hk : key.length = 251) (v : F) :
    verifyProof hasher h key v proof = some (some .nonMember) := by
  simp [verifyProof,hk,hc.verifyNodes_eq,proofVerdict]

end Verify

section Walk
variable {F : Type} {hasher : NodeHasher F} {st : Storage F}

theorem Stored.hash_eq {lf : List Bool → Option F} {i : ℕ} {path : List Bool} {t : Trie F}
    (hs : Stored st (HashOk hasher st) lf i path t) : st.hash i = some (trieHash hasher t) :=
  hs.ok_root

theorem proofWalk_stored {i : ℕ} {path : List Bool} {t : Trie F}
    (hs : Stored st (HashOk hasher st) st.leaf i path t) {rest : List Bool} (hw : t.WF rest.length)
    {fuel : ℕ} (hf : rest.length ≤ fuel) (nodes : List (TrieNode F × F)) :
    ∃ proof, proofWalk st (path ++ rest) fuel (some i) path.length nodes = .ok (nodes ++ proof) ∧
      Chain hasher (trieHash hasher t) rest (t.find rest) proof := by
  induction hs generalizing rest fuel nodes with
  | @binary i l r path tl tr hg ho hsl hsr ihl ihr =>
    obtain ⟨hpos,hwl,hwr⟩ := hw
    obtain ⟨b,rest,rfl⟩ := List.exists_cons_of_length_pos hpos
    obtain ⟨fuel,rfl⟩ : ∃ f, fuel = f + 1 := ⟨fuel - 1,by simp at hf; omega⟩
    have hf' : rest.length ≤ fuel := by simp at hf; omega
    have hn : proofNode st (path ++ b :: rest) path.length (.binary l r) =
        .ok (some (if b then r else l),path.length + 1,
          .binary (trieHash hasher tl) (trieHash hasher tr)) := by
      simp [proofNode,hsl.hash_eq,hsr.hash_eq]
    have ho' : st.hash i = some (hasher.binary (trieHash hasher tl) (trieHash hasher tr)) := ho
    rw [proofWalk_round hg hn ho']
    have ih : ∀ nodes, ∃ proof, proofWalk st (path ++ b :: rest) fuel (some (if b then r else l))
        (path.length + 1) nodes = .ok (nodes ++ proof) ∧
        Chain hasher (if b then trieHash hasher tr else trieHash hasher tl) rest
          ((binary tl tr).find (b :: rest)) proof := by
      intro nodes
      cases b
      · simpa using @ihl rest (by simpa using hwl) fuel hf' nodes
      · simpa using @ihr rest (by simpa using hwr) fuel hf' nodes
    obtain ⟨proof,hp,hc⟩ := ih (nodes ++ [(.binary (trieHash hasher tl) (trieHash hasher tr),
      hasher.binary (trieHash hasher tl) (trieHash hasher tr))])
    rw [trieHash_binary]
    refine ⟨_,?_,.binary hc⟩
    rw [hp]
    simp
  | @edge i c p path tc hg ho hsc ih =>
    obtain ⟨hp0,hpl,-,hwc⟩ := hw
    have hlen : 0 < p.length := List.length_pos_of_ne_nil hp0
    obtain ⟨fuel,rfl⟩ : ∃ f, fuel = f + 1 := ⟨fuel - 1,by omega⟩
    have hn : proofNode st (path ++ rest) path.length (.edge c p) =
        .ok (if rest.take p.length = p then some c else none,path.length + p.length,
          .edge (trieHash hasher tc) p) := by
      simp [proofNode,keySlice_append path rest hpl,hsc.hash_eq]
    have ho' : st.hash i = some (hasher.edge (trieHash hasher tc) p) := ho
    rw [proofWalk_round hg hn ho']
    by_cases hpre : p <+: rest
    · obtain ⟨rest,rfl⟩ := hpre
      obtain ⟨proof,hp,hc⟩ := @ih rest (by simpa using hwc) fuel
        (by simp at hf; omega) (nodes ++ [(.edge (trieHash hasher tc) p,hasher.edge (trieHash hasher tc) p)])
      refine ⟨_,?_,by simpa using Chain.edge hc⟩
      simpa using hp
    · have hne : rest.take p.length ≠ p := fun h => hpre (List.prefix_iff_eq_take.mpr h.symm)
      refine ⟨[(.edge (trieHash hasher tc) p,hasher.edge (trieHash hasher tc) p)],by simp [hne],?_⟩
      rw [find_edge_eq_none tc hpre]
      exact .diverge hpl hne
  | @leafBinary i path a b hg ho ha hb =>
    obtain ⟨hpos,hwa,-⟩ := hw
    obtain ⟨d,rest,rfl⟩ := List.exists_cons_of_length_pos hpos
    obtain rfl : rest = [] := List.eq_nil_of_length_eq_zero (by simpa [WF] using hwa)
    obtain ⟨fuel,rfl⟩ : ∃ f, fuel = f + 1 := ⟨fuel - 1,by simp at hf; omega⟩
    have hn : proofNode st (path ++ [d]) path.length .leafBinary =
        .ok (none,path.length,.binary a b) := by
      simp [proofNode,ha,hb]
    refine ⟨_,by simpa using proofWalk_round hg hn ho,?_⟩
    have hx : (binary (leaf a) (leaf b)).find [d] = some (if d then b else a) := by
      cases d <;> rfl
    rw [hx]
    exact .binary .leaf
  | @leafEdge i p path v hg ho hv =>
    obtain ⟨hp0,hpl,-,hwv⟩ := hw
    have hlen : p.length = rest.length := by simp [WF] at hwv; omega
    obtain ⟨fuel,rfl⟩ : ∃ f, fuel = f + 1 :=
      ⟨fuel - 1,by have := List.length_pos_of_ne_nil hp0; omega⟩
    have hn : proofNode st (path ++ rest) path.length (.leafEdge p) =
        .ok (none,path.length,.edge v p) := by
      simp [proofNode,hv]
    refine ⟨_,by simpa using proofWalk_round hg hn ho,?_⟩
    by_cases hpr : p = rest
    · subst hpr
      have hx : (edge p (leaf v)).find p = some v := by simp [find]
      rw [hx]
      simpa using Chain.edge (p := p) (@Chain.leaf _ hasher v)
    · have hne : rest.take p.length ≠ p := by rwa [hlen,List.take_length,ne_comm]
      rw [find_edge_eq_none _ fun h => hpr (h.eq_of_length hlen)]
      exact .diverge (Nat.le_of_eq hlen) hne

end Walk

section Soundness
variable {F : Type} [DecidableEq F] {hasher : NodeHasher F} {st : Storage F}

/-- Merkle proofs are sound and complete. For a trie stored at root index `r` with root hash
`h`, whose nodes carry their hashes, and every key of the trie's height, `get_proofs` returns
a chain from `h` along the key, each node recorded with its hash, to the key's value or to an
edge that leaves the key; on keys of 251 bits `verify_proof` accepts it as a proof of
membership of the key's value, and as a proof of non-membership of an absent key. -/
theorem getProofs_chain {HEIGHT r : ℕ} {T : Trie F} {h : F}
    (hs : Stored st (HashOk hasher st) st.leaf r [] T) (hw : T.WF HEIGHT) (hh : st.hash r = some h)
    {key : List Bool} (hk : key.length = HEIGHT) {fuel : ℕ} (hf : HEIGHT ≤ fuel) :
    ∃ proof, getProofs r st [key] fuel = .ok [proof] ∧
      Chain hasher h key (T.find key) proof ∧ (∀ e ∈ proof, e.1.hash hasher = e.2) ∧
      (HEIGHT = 251 →
        (∀ v, T.find key = some v → verifyProof hasher h key v proof = some (some .member)) ∧
        (T.find key = none → ∀ v, verifyProof hasher h key v proof = some (some .nonMember))) := by
  have hroot : h = trieHash hasher T := Option.some.inj (hh.symm.trans hs.hash_eq)
  subst hk hroot
  obtain ⟨proof,hp,hc⟩ := proofWalk_stored hs hw hf []
  have hp' : proofWalk st key fuel (some r) 0 [] = .ok proof := by simpa using hp
  refine ⟨proof,?_,hc,hc.hashes,fun h251 => ⟨fun v hv => ?_,fun hv v => ?_⟩⟩
  · simp [getProofs,hp']
  · rw [hv] at hc
    exact hc.verifyProof_member h251
  · rw [hv] at hc
    exact hc.verifyProof_nonMember h251 v

theorem getProofs_chain_one_edge :
    let hasher : NodeHasher ℕ := .ofFeltHash fun a b => a + 2 * b
    let T : Trie ℕ := edge (List.replicate 251 true) (leaf 7)
    let st : Storage ℕ := ⟨fun i => if i = 0 then some (.leafEdge (List.replicate 251 true)) else none,
      fun _ => some (trieHash hasher T),fun _ => some 7⟩
    Stored st (HashOk hasher st) st.leaf 0 [] T ∧ T.WF 251 ∧
    ∃ proof, getProofs 0 st [List.replicate 251 true] 251 = .ok [proof] ∧
      Chain hasher (trieHash hasher T) (List.replicate 251 true) (T.find (List.replicate 251 true))
        proof ∧ (∀ e ∈ proof, e.1.hash hasher = e.2) ∧
      (251 = 251 →
        (∀ v, T.find (List.replicate 251 true) = some v →
          verifyProof hasher (trieHash hasher T) (List.replicate 251 true) v proof = some (some .member)) ∧
        (T.find (List.replicate 251 true) = none → ∀ v,
          verifyProof hasher (trieHash hasher T) (List.replicate 251 true) v proof =
            some (some .nonMember))) := by
  intro hasher T st
  have hs : Stored st (HashOk hasher st) st.leaf 0 [] T := .leafEdge rfl rfl rfl
  have hl : (List.replicate 251 true).length = 251 := List.length_replicate
  have hw : T.WF 251 := ⟨List.replicate_succ_ne_nil,Nat.le_of_eq hl,rfl,by rw [hl]; rfl⟩
  exact ⟨hs,hw,getProofs_chain hs hw rfl hl (Nat.le_refl _)⟩

end Soundness

end Merkle
end Pathfinder
