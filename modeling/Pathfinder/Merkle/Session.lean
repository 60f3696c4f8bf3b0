import Mathlib.Data.List.Forall2
import Pathfinder.Merkle.Persist

/-! A client of one tree, as the storage crate drives it: writes and reads on the tree in
memory, and commits that are persisted and reloaded from the new root index, as
`insert_trie` reports it. The invariant: the tree holds the map written so far, every
persisted version's root still holds that version's map, and the tree keeps track of
the root index it was loaded from, so that `RootIndexUpdate::Unchanged` reloads the right
root. -/
namespace Pathfinder
namespace Merkle

open Patricia Trie

section RootIndex
variable {F : Type} {HEIGHT : ℕ} {st : Storage F}

def PathFrame.storageIndex : PathFrame → Option ℕ
  | .binary si .. => si
  | .edge si .. => si

@[simp] theorem PathFrame.storageIndex_fill (f : PathFrame) (n : InternalNode) :
    (f.fill n).storageIndex = f.storageIndex := by
  cases f with
  | binary si h d s => cases d <;> rfl
  | edge => rfl

def outerIndex (fs : List PathFrame) : Option ℕ := fs.getLast?.bind PathFrame.storageIndex

theorem outerIndex_cons {fs : List PathFrame} (hf : fs ≠ []) (f : PathFrame) :
    outerIndex (f :: fs) = outerIndex fs := by
  cases fs with
  | nil => exact absurd rfl hf
  | cons g gs => simp [outerIndex]

theorem storageIndex_plug_of_ne_nil {fs : List PathFrame} (h : fs ≠ []) (x : InternalNode) :
    (plug fs x).storageIndex = outerIndex fs := by
  induction fs generalizing x with
  | nil => exact absurd rfl h
  | cons f fs ih =>
    cases fs with
    | nil => simp [plug,outerIndex]
    | cons g gs => simpa [plug,outerIndex] using ih (by simp) (f.fill x)

theorem storageIndex_plug_congr (fs : List PathFrame) {x y : InternalNode}
    (h : x.storageIndex = y.storageIndex) : (plug fs x).storageIndex = (plug fs y).storageIndex := by
  cases fs with
  | nil => exact h
  | cons f fs => rw [storageIndex_plug_of_ne_nil (by simp),storageIndex_plug_of_ne_nil (by simp)]

def InternalNode.Resolved (n : InternalNode) : Prop := ∀ i, n ≠ .unresolved i

theorem resolved_plug {x : InternalNode} (hx : x.Resolved) : ∀ fs : List PathFrame, (plug fs x).Resolved
  | [] => hx
  | f :: fs => resolved_plug (by
      cases f with
      | binary si h d s => cases d <;> simp [PathFrame.fill,InternalNode.Resolved]
      | edge si h p => simp [PathFrame.fill,InternalNode.Resolved]) fs

theorem resolve_storageIndex {idx h : ℕ} {n : InternalNode} (hr : resolve HEIGHT st idx h = .ok n) :
    n.storageIndex = some idx := by
  unfold resolve at hr
  split at hr
  · split at hr <;> cases hr <;> rfl
  · cases hr

theorem traverse_storageIndex {dst : List Bool} :
    ∀ (fuel : ℕ) (node : InternalNode) (h : ℕ) (frames frames' : List PathFrame)
      (last : InternalNode), traverse HEIGHT st dst fuel node h frames = .ok (frames',last) →
      (plug frames' last).storageIndex = (plug frames node).storageIndex ∧ last.Resolved := by
  intro fuel
  induction fuel with
  | zero => intro node h frames frames' last he; cases he
  | succ fuel ih =>
    intro node h frames frames' last he
    cases node with
    | unresolved idx =>
      obtain ⟨n,hr,hn⟩ := except_bind_eq_ok he
      obtain ⟨h1,h2⟩ := ih n h frames frames' last hn
      exact ⟨h1.trans (storageIndex_plug_congr frames (resolve_storageIndex hr)),h2⟩
    | binary si ht l r =>
      have hfill : ∀ d : Bool, (PathFrame.binary si ht d (if d then l else r)).fill
          (if d then r else l) = .binary si ht l r := by intro d; cases d <;> rfl
      obtain ⟨h1,h2⟩ := ih _ _ _ _ _ he
      refine ⟨h1.trans ?_,h2⟩
      simp only [plug,hfill]
    | edge si ht p c =>
      simp only [traverse] at he
      split at he
      · obtain ⟨h1,h2⟩ := ih _ _ _ _ _ he
        exact ⟨h1,h2⟩
      · cases he; exact ⟨rfl,by simp [InternalNode.Resolved]⟩
    | leaf => cases he; exact ⟨rfl,by simp [InternalNode.Resolved]⟩

theorem mergeEdges_storageIndex {si : Option ℕ} {h : ℕ} {p : List Bool} {c n : InternalNode}
    {d : List ℕ} (hm : mergeEdges HEIGHT st (.edge si h p c) = .ok (n,d)) :
    n.storageIndex = si ∧ n.Resolved := by
  unfold mergeEdges at hm
  cases c with
  | unresolved idx =>
    obtain ⟨res,-,hm⟩ := except_bind_eq_ok hm
    dsimp only at hm
    split at hm <;> cases hm <;> exact ⟨rfl,by simp [InternalNode.Resolved]⟩
  | binary csi ch l r => cases hm; exact ⟨rfl,by simp [InternalNode.Resolved]⟩
  | edge csi ch cp cc => cases hm; exact ⟨rfl,by simp [InternalNode.Resolved]⟩
  | leaf => cases hm; exact ⟨rfl,by simp [InternalNode.Resolved]⟩

def KeepsRoot (t t' : MerkleTree F) : Prop :=
  (∀ n, t'.root = some n → n.Resolved) ∧
  ((t.nodesRemoved ≠ [] ∨ ∃ n, t.root = some n ∧ n.storageIndex ≠ none) →
    t'.nodesRemoved ≠ [] ∨ ∃ n, t'.root = some n ∧ n.storageIndex ≠ none)

theorem keepsRoot_of_none {t t' : MerkleTree F} (hr : t.root = none) (hr' : ∀ n, t'.root = some n → n.Resolved)
    (hn : ∃ extra, t'.nodesRemoved = t.nodesRemoved ++ extra) : KeepsRoot t t' := by
  obtain ⟨extra,he⟩ := hn
  refine ⟨hr',?_⟩
  rintro (h | ⟨n,hn,-⟩)
  · exact .inl (by simp [he,h])
  · simp [hr] at hn

theorem keepsRoot_of_walk {t t' : MerkleTree F} {key : List Bool} {root last x : InternalNode}
    {frames : List PathFrame} {extra : List ℕ} (hr : t.root = some root)
    (hw : walk HEIGHT st key root = .ok (frames,last)) (hr' : t'.root = some (plug frames x))
    (hx : x.Resolved) (he : t'.nodesRemoved = t.nodesRemoved ++ extra)
    (hxl : x.storageIndex = last.storageIndex ∨ extra = last.storageIndex.toList) :
    KeepsRoot t t' := by
  obtain ⟨hsi,-⟩ := traverse_storageIndex _ _ _ _ _ _ hw
  refine ⟨fun n hn => by rw [hr'] at hn; cases hn; exact resolved_plug hx frames,?_⟩
  rintro (h | ⟨n,hn,hsn⟩)
  · exact .inl (by simp [he,h])
  · rw [hr] at hn; cases hn
    by_cases hf : frames = []
    · subst hf
      simp only [plug] at hsi
      rcases hxl with hxl | hxl
      · exact .inr ⟨_,hr',by simpa [plug,hxl,hsi] using hsn⟩
      · obtain ⟨i,hi⟩ := Option.ne_none_iff_exists'.mp hsn
        exact .inl (by simp [he,hxl,hsi,hi])
    · refine .inr ⟨_,hr',?_⟩
      rw [storageIndex_plug_of_ne_nil hf,← storageIndex_plug_of_ne_nil hf last,hsi]
      simpa [plug] using hsn

theorem mergeParent_rootIndex {edge root : InternalNode} {fs : List PathFrame} {d : List ℕ}
    (he : edge.Resolved) (hm : mergeParent HEIGHT st edge fs = .ok (root,d)) :
    root.Resolved ∧ (fs ≠ [] → root.storageIndex = outerIndex fs) := by
  match fs, hm with
  | .edge psi ph pp :: rest, hm =>
    obtain ⟨⟨merged,dm⟩,hme,hm⟩ := except_bind_eq_ok hm
    cases hm
    obtain ⟨hms,hmr⟩ := mergeEdges_storageIndex hme
    refine ⟨resolved_plug hmr rest,fun _ => ?_⟩
    cases rest with
    | nil => simpa [plug,outerIndex,PathFrame.storageIndex] using hms
    | cons g gs => rw [storageIndex_plug_of_ne_nil (by simp)]; simp [outerIndex]
  | [], hm => cases hm; exact ⟨he,by simp⟩
  | .binary psi ph pd ps :: rest, hm =>
    cases hm
    exact ⟨resolved_plug he _,fun hne => storageIndex_plug_of_ne_nil hne _⟩

theorem deleteFrom_rootIndex {t t' : MerkleTree F} :
    ∀ {fs : List PathFrame} {removed : List ℕ}, deleteFrom HEIGHT st t fs removed = .ok t' →
      (∀ n, t'.root = some n → n.Resolved) ∧
      ((t.nodesRemoved ++ removed ≠ [] ∨ outerIndex fs ≠ none) →
        t'.nodesRemoved ≠ [] ∨ ∃ n, t'.root = some n ∧ n.storageIndex ≠ none)
  | [], removed, h => by
    cases h
    exact ⟨by simp,fun hp => .inl (by simpa [outerIndex] using hp)⟩
  | .edge si _ _ :: fs, removed, h => by
    obtain ⟨h1,h2⟩ := @deleteFrom_rootIndex t t' fs (removed ++ si.toList) h
    refine ⟨h1,fun hp => h2 ?_⟩
    rcases hp with hp | hp
    · exact .inl (by simp_all)
    · cases fs with
      | nil => exact .inl (by cases si <;> simp_all [outerIndex,PathFrame.storageIndex])
      | cons g gs => exact .inr (by rwa [← outerIndex_cons (by simp)])
  | .binary si h d s :: fs, removed, hd => by
    obtain ⟨⟨edge,dropped⟩,h0,hd⟩ := except_bind_eq_ok hd
    obtain ⟨⟨root,dropped'⟩,h1,hd⟩ := except_bind_eq_ok hd
    cases hd
    obtain ⟨hr,hro⟩ := mergeParent_rootIndex (mergeEdges_storageIndex h0).2 h1
    refine ⟨by simp only [Option.some.injEq]; rintro n rfl; exact hr,fun hp => ?_⟩
    rcases hp with hp | hp
    · exact .inl (by simp_all)
    · by_cases hf : fs = []
      · subst hf
        exact .inl (by cases si <;> simp_all [outerIndex,PathFrame.storageIndex])
      · refine .inr ⟨root,rfl,?_⟩
        rwa [hro hf,← outerIndex_cons hf]

theorem splitEdge_resolved (h : ℕ) (p : List Bool) (c : InternalNode) (key : List Bool) :
    (splitEdge h p c key).Resolved := by
  simp only [splitEdge]
  split <;> split <;> simp [InternalNode.Resolved]

theorem set_keepsRoot [DecidableEq F] [Zero F] {t t' : MerkleTree F} {key : List Bool} {value : F}
    (hd : deleteLeaf HEIGHT st t key = .ok t' → KeepsRoot t t')
    (hs : set HEIGHT st t key value = .ok t') : KeepsRoot t t' := by
  unfold set at hs
  split at hs
  · exact hd hs
  · cases hr : t.root with
    | none =>
      rw [hr] at hs; cases hs
      exact keepsRoot_of_none hr (by simp [InternalNode.Resolved]) ⟨[],by simp⟩
    | some root =>
      rw [hr] at hs
      obtain ⟨⟨frames,last⟩,hw,hs⟩ := except_bind_eq_ok hs
      cases last with
      | edge si h p c =>
        cases hs
        exact keepsRoot_of_walk hr hw rfl (splitEdge_resolved _ _ _ _) rfl (.inr rfl)
      | leaf =>
        cases hs
        exact keepsRoot_of_walk hr hw rfl (by simp [InternalNode.Resolved]) rfl (.inr rfl)
      | unresolved i => cases hs
      | binary si h l r => cases hs

theorem deleteLeaf_keepsRoot {t t' : MerkleTree F} {key : List Bool}
    (hd : deleteLeaf HEIGHT st t key = .ok t') : KeepsRoot t t' := by
  unfold deleteLeaf at hd
  cases hr : t.root with
  | none =>
    rw [hr] at hd; cases hd
    exact keepsRoot_of_none hr (by simp [hr]) ⟨[],by simp⟩
  | some root =>
    rw [hr] at hd
    obtain ⟨⟨frames,last⟩,hw,hd⟩ := except_bind_eq_ok hd
    obtain ⟨hsi,hlr⟩ := traverse_storageIndex _ _ _ _ _ _ hw
    cases last with
    | leaf =>
      obtain ⟨h1,h2⟩ := @deleteFrom_rootIndex F HEIGHT st t t' frames [] hd
      refine ⟨h1,?_⟩
      rintro (h | ⟨n,hn,hsn⟩)
      · exact h2 (.inl (by simpa using h))
      · rw [hr] at hn; cases hn
        refine h2 (.inr ?_)
        by_cases hf : frames = []
        · subst hf
          exact absurd hsi.symm (by simpa [plug,InternalNode.storageIndex] using hsn)
        · rwa [← storageIndex_plug_of_ne_nil hf .leaf,hsi]
    | edge si h p c =>
      cases hd
      exact keepsRoot_of_walk hr hw rfl hlr (List.append_nil _).symm (.inl rfl)
    | unresolved i => exact absurd rfl (hlr i)
    | binary si h l r =>
      cases hd
      exact keepsRoot_of_walk hr hw rfl hlr (List.append_nil _).symm (.inl rfl)

theorem get_keepsRoot {t t' : MerkleTree F} {key : List Bool} {x : Option F}
    (hg : get HEIGHT st t key = .ok (x,t')) : KeepsRoot t t' := by
  unfold get at hg
  cases hr : t.root with
  | none =>
    rw [hr] at hg; cases hg
    exact keepsRoot_of_none hr (by simp [hr]) ⟨[],by simp⟩
  | some root =>
    rw [hr] at hg
    obtain ⟨⟨frames,last⟩,hw,hg⟩ := except_bind_eq_ok hg
    obtain ⟨-,hlr⟩ := traverse_storageIndex _ _ _ _ _ _ hw
    have ht' : t' = { t with root := some (plug frames last) } := by
      simp only at hg
      by_cases hleaf : last = .leaf
      · rw [if_pos hleaf] at hg
        revert hg
        cases t.leaves key <;> intro hg <;> cases hg <;> rfl
      · rw [if_neg hleaf] at hg
        cases hg; rfl
    subst ht'
    exact keepsRoot_of_walk hr hw rfl hlr (List.append_nil _).symm (.inl rfl)

def RootIndexOk (rootIdx : Option ℕ) (t : MerkleTree F) : Prop :=
  (∀ i, t.root = some (.unresolved i) → rootIdx = some i ∧ t.nodesRemoved = []) ∧
  (rootIdx ≠ none → t.nodesRemoved ≠ [] ∨ ∃ n, t.root = some n ∧ n.storageIndex ≠ none)

theorem RootIndexOk.of_keepsRoot {rootIdx : Option ℕ} {t t' : MerkleTree F}
    (h : RootIndexOk rootIdx t) (hk : KeepsRoot t t') : RootIndexOk rootIdx t' :=
  ⟨fun i hi => absurd rfl (hk.1 _ hi i),fun hr => hk.2 (h.2 hr)⟩

end RootIndex

section Session
variable {F : Type}

/-- `RootIndexUpdate` of the storage crate: what `insert_trie` did to the root index. -/
inductive RootIndexUpdate where
  | unchanged
  | trieEmpty
  | updated (idx : ℕ)
  deriving DecidableEq, Repr

def rootIndexUpdate [Zero F] [DecidableEq F] (u : TrieUpdate F) (idx : ℕ → ℕ) :
    RootIndexUpdate :=
  if u.nodesAdded.isEmpty then
    if !u.nodesRemoved.isEmpty ∧ u.rootCommitment = 0 then .trieEmpty else .unchanged
  else .updated (idx (u.nodesAdded.length - 1))

def RootIndexUpdate.apply (rootIdx : Option ℕ) : RootIndexUpdate → Option ℕ
  | .unchanged => rootIdx
  | .trieEmpty => none
  | .updated i => some i

def MerkleTree.load (rootIdx : Option ℕ) : MerkleTree F :=
  match rootIdx with
  | some r => .new r
  | none => .empty

/-- A client of one tree. -/
structure Session (F : Type) where
  st : Storage F
  versions : List (Option ℕ × (List Bool → Option F))
  rootIdx : Option ℕ
  tree : MerkleTree F

/-- What a client does with the tree. -/
inductive Op (F : Type) where
  | set (key : List Bool) (value : F)
  | get (key : List Bool)
  | commit

def Op.KeyOk (HEIGHT : ℕ) : Op F → Prop
  | .set key _ => key.length = HEIGHT
  | .get key => key.length = HEIGHT
  | .commit => True

variable [Zero F] [DecidableEq F] (HEIGHT : ℕ) (hasher : NodeHasher F)

/-- One step of a client. -/
inductive Step : Session F → Op F → Session F → Prop
  | set {s : Session F} {key : List Bool} {value : F} {t' : MerkleTree F} :
      set HEIGHT s.st s.tree key value = .ok t' → Step s (.set key value) { s with tree := t' }
  | get {s : Session F} {key : List Bool} {x : Option F} {t' : MerkleTree F} :
      get HEIGHT s.st s.tree key = .ok (x,t') → Step s (.get key) { s with tree := t' }
  | commit {s : Session F} {u : TrieUpdate F} {idx : ℕ → ℕ} {st' : Storage F} :
      commit hasher s.tree s.st = .ok u → Persisted s.st u idx st' →
      st'.leaf = leafValue s.tree.leaves s.st →
      Step s .commit ⟨st',s.versions ++ [((rootIndexUpdate u idx).apply s.rootIdx,st'.leaf)],
        (rootIndexUpdate u idx).apply s.rootIdx,MerkleTree.load ((rootIndexUpdate u idx).apply s.rootIdx)⟩

/-- Steps one after another. -/
inductive Run : Session F → List (Op F) → Session F → Prop
  | nil {s : Session F} : Run s [] s
  | cons {s s' s'' : Session F} {op : Op F} {ops : List (Op F)} :
      Step HEIGHT hasher s op s' → Run s' ops s'' → Run s (op :: ops) s''

def opsWritten (m : List Bool → Option F) : List (Op F) → List Bool → Option F
  | [] => m
  | .set key value :: ops => opsWritten (written m key value) ops
  | _ :: ops => opsWritten m ops

def committedMaps (m : List Bool → Option F) : List (Op F) → List (List Bool → Option F)
  | [] => []
  | .set key value :: ops => committedMaps (written m key value) ops
  | .get _ :: ops => committedMaps m ops
  | .commit :: ops => m :: committedMaps m ops

/-- The client's invariant. -/
structure SessionOk (s : Session F) (m : List Bool → Option F) (ms : List (List Bool → Option F)) :
    Prop where
  tree : Represents HEIGHT s.st (HashOk hasher s.st) s.tree m
  rootIndex : RootIndexOk s.rootIdx s.tree
  versions : List.Forall₂ (fun (v : Option ℕ × (List Bool → Option F)) m =>
    Represents HEIGHT { s.st with leaf := v.2 } (HashOk hasher s.st) (MerkleTree.load v.1) m)
    s.versions ms

end Session

section Load
variable {F : Type} {HEIGHT : ℕ} {hasher : NodeHasher F} {st st' : Storage F}

theorem represents_build_some {ok : ℕ → Trie F → Prop} {t : MerkleTree F}
    {m : List Bool → Option F} {T : Trie F} (ht : Represents HEIGHT st ok t m)
    (hb : build HEIGHT m = some T) :
    ∃ n, t.root = some n ∧ Denotes st ok (leafValue t.leaves st) [] n T := by
  cases hr : t.root with
  | none => rw [represents_root_none ht hr] at hb; cases hb
  | some n =>
    obtain ⟨T',hb',hT⟩ := represents_root_some ht hr
    rw [hb] at hb'; cases hb'
    exact ⟨n,rfl,hT⟩

theorem represents_load_mono {r : Option ℕ} {m : List Bool → Option F}
    (h : Represents HEIGHT st (HashOk hasher st) (MerkleTree.load r) m)
    (hg : ∀ i n, st.get i = some n → st'.get i = some n)
    (hh : ∀ i h, st.hash i = some h → st'.hash i = some h) (hl : st'.leaf = st.leaf) :
    Represents HEIGHT st' (HashOk hasher st') (MerkleTree.load r) m := by
  cases r with
  | none =>
    have hb := represents_root_none h rfl
    simp [Represents,OptDenotes,MerkleTree.load,MerkleTree.empty,hb]
  | some r =>
    obtain ⟨T,hb,hT⟩ := represents_root_some h rfl
    cases hT with
    | unresolved hs =>
      refine represents_new_of_build (hs.mono hg (fun _ _ => HashOk.mono hh) fun q v hq => ?_) hb
      simpa [hl,leafValue,MerkleTree.load,MerkleTree.new] using hs.find_lf hq

theorem rootIndexOk_load (r : Option ℕ) : RootIndexOk r (MerkleTree.load r : MerkleTree F) := by
  cases r with
  | none => exact ⟨by simp [MerkleTree.load,MerkleTree.empty],fun h => absurd rfl h⟩
  | some r =>
    refine ⟨fun i hi => ?_,fun _ => .inr ⟨_,rfl,by simp [InternalNode.storageIndex]⟩⟩
    simp only [MerkleTree.load,MerkleTree.new,Option.some.injEq,InternalNode.unresolved.injEq] at hi
    exact ⟨by rw [hi],rfl⟩

end Load

section Steps
variable {F : Type} [Zero F] [DecidableEq F] {HEIGHT : ℕ} {hasher : NodeHasher F}
  {s s' : Session F} {m : List Bool → Option F} {ms : List (List Bool → Option F)}

theorem step_set_ok (hH : 0 < HEIGHT) {key : List Bool} {value : F} (hk : key.length = HEIGHT)
    (hs : SessionOk HEIGHT hasher s m ms) (hstep : Step HEIGHT hasher s (.set key value) s') :
    SessionOk HEIGHT hasher s' (written m key value) ms := by
  cases hstep with
  | set h =>
    obtain ⟨t',h',ht'⟩ := set_represents hH hk hs.tree
    rw [h] at h'; cases h'
    exact ⟨ht',hs.rootIndex.of_keepsRoot (set_keepsRoot deleteLeaf_keepsRoot h),hs.versions⟩

theorem step_get_ok {key : List Bool} (hk : key.length = HEIGHT)
    (hs : SessionOk HEIGHT hasher s m ms) (hstep : Step HEIGHT hasher s (.get key) s') :
    SessionOk HEIGHT hasher s' m ms := by
  cases hstep with
  | get h =>
    obtain ⟨t',h',ht'⟩ := get_represents hk hs.tree
    rw [h] at h'; cases h'
    exact ⟨ht',hs.rootIndex.of_keepsRoot (get_keepsRoot h),hs.versions⟩

theorem reload_represents (hH : 0 < HEIGHT) {u : TrieUpdate F} {idx : ℕ → ℕ}
    (hs : SessionOk HEIGHT hasher s m ms) (hc : commit hasher s.tree s.st = .ok u)
    (hp : Persisted s.st u idx st') (hl : st'.leaf = leafValue s.tree.leaves s.st) :
    Represents HEIGHT st' (HashOk hasher st')
      (MerkleTree.load ((rootIndexUpdate u idx).apply s.rootIdx)) m := by
  obtain ⟨u',hc',hroot,hempty,hnone,hem⟩ := commit_spec hH hs.tree
  rw [hc] at hc'; cases hc'
  have hleaf : ∀ {n T}, Denotes s.st (HashOk hasher s.st) (leafValue s.tree.leaves s.st) [] n T →
      ∀ q v, T.find q = some v → st'.leaf ([] ++ q) = some v := fun hT q v hq => by
    rw [hl]; exact hT.find_lf hq
  by_cases hadd : u.nodesAdded = []
  · obtain ⟨hr,hrem⟩ := hempty hadd
    rcases hr with hr | ⟨i,hr⟩
    · have hb := represents_root_none hs.tree hr
      have hz : u.rootCommitment = 0 := by simp [hroot,patriciaRoot,hb]
      by_cases hnr : s.tree.nodesRemoved = []
      · have hri : s.rootIdx = none := by
          by_contra hne
          rcases hs.rootIndex.2 hne with h | ⟨n,hn,-⟩
          · exact h hnr
          · simp [hr] at hn
        simp [rootIndexUpdate,hadd,hrem,hnr,hri,RootIndexUpdate.apply,MerkleTree.load,Represents,
          OptDenotes,hb,MerkleTree.empty]
      · simp [rootIndexUpdate,hadd,hrem,hnr,hz,RootIndexUpdate.apply,MerkleTree.load,Represents,
          OptDenotes,hb,MerkleTree.empty]
    · obtain ⟨hri,hnr⟩ := hs.rootIndex.1 i hr
      obtain ⟨n,hn,hT⟩ := represents_root_some hs.tree hr
      cases hT with
      | unresolved hsT =>
        have hst := hsT.mono hp.get_old (fun _ _ => HashOk.mono hp.hash_old) (hleaf (.unresolved hsT))
        simpa [rootIndexUpdate,hadd,hrem,hnr,hri,RootIndexUpdate.apply,MerkleTree.load] using
          represents_new_of_build hst hn
  · have hb : ∃ T, build HEIGHT m = some T := by
      cases hbm : build HEIGHT m with
      | none => exact absurd (hnone hbm) hadd
      | some T => exact ⟨T,rfl⟩
    obtain ⟨T,hb⟩ := hb
    obtain ⟨n,-,hT⟩ := represents_build_some hs.tree hb
    have hst := (hem T hb hadd).toStored hp (hleaf hT)
    simpa [rootIndexUpdate,hadd,RootIndexUpdate.apply,MerkleTree.load,NodeRef.resolveIdx] using
      represents_new_of_build hst hb

theorem step_commit_ok (hH : 0 < HEIGHT) (hs : SessionOk HEIGHT hasher s m ms)
    (hstep : Step HEIGHT hasher s .commit s') : SessionOk HEIGHT hasher s' m (ms ++ [m]) := by
  cases hstep with
  | @commit u idx st' hc hp hl =>
    have hnew := reload_represents hH hs hc hp hl
    refine ⟨hnew,rootIndexOk_load _,List.rel_append ?_ (.cons hnew .nil)⟩
    refine hs.versions.imp fun v mv hv => ?_
    have hv' : Represents HEIGHT { s.st with leaf := v.2 } (HashOk hasher { s.st with leaf := v.2 })
        (MerkleTree.load v.1) mv := hv
    exact represents_load_mono hv' hp.get_old hp.hash_old rfl

theorem opsWritten_cons (m : List Bool → Option F) (op : Op F) (ops : List (Op F)) :
    opsWritten m (op :: ops) = opsWritten (opsWritten m [op]) ops := by
  cases op <;> rfl

theorem committedMaps_cons (m : List Bool → Option F) (op : Op F) (ops : List (Op F)) :
    committedMaps m (op :: ops) = committedMaps m [op] ++ committedMaps (opsWritten m [op]) ops := by
  cases op <;> rfl

theorem step_sessionOk (hH : 0 < HEIGHT) {op : Op F} (hop : op.KeyOk HEIGHT)
    (hs : SessionOk HEIGHT hasher s m ms) (hstep : Step HEIGHT hasher s op s') :
    SessionOk HEIGHT hasher s' (opsWritten m [op]) (ms ++ committedMaps m [op]) := by
  cases op with
  | set key value => simpa [opsWritten,committedMaps] using step_set_ok hH hop hs hstep
  | get key => simpa [opsWritten,committedMaps] using step_get_ok hop hs hstep
  | commit => simpa [opsWritten,committedMaps] using step_commit_ok hH hs hstep

theorem run_sessionOk (hH : 0 < HEIGHT) :
    ∀ {s s' : Session F} {ops : List (Op F)} {m : List Bool → Option F}
      {ms : List (List Bool → Option F)}, SessionOk HEIGHT hasher s m ms →
      Run HEIGHT hasher s ops s' → (∀ op ∈ ops, op.KeyOk HEIGHT) →
      SessionOk HEIGHT hasher s' (opsWritten m ops) (ms ++ committedMaps m ops)
  | _, _, [], _, _, hs, .nil, _ => by simpa [opsWritten,committedMaps] using hs
  | _, _, op :: ops, _, _, hs, .cons hstep hrun, hops => by
    have h := run_sessionOk hH (step_sessionOk hH (hops op (by simp)) hs hstep) hrun
      fun o ho => hops o (by simp [ho])
    rwa [opsWritten_cons,committedMaps_cons,← List.append_assoc]

end Steps

section Progress
variable {F : Type}

def Storage.Below (st : Storage F) (N : ℕ) : Prop := ∀ i, N ≤ i → st.get i = none ∧ st.hash i = none

def appendNodes (st : Storage F) (N : ℕ) (u : TrieUpdate F) (leaf : List Bool → Option F) :
    Storage F :=
  ⟨fun i => if N ≤ i then (u.nodesAdded[i - N]?).map fun e => e.2.asStored (N + ·) else st.get i,
    fun i => if N ≤ i then (u.nodesAdded[i - N]?).map Prod.fst else st.hash i,leaf⟩

theorem appendNodes_persisted {st : Storage F} {N : ℕ} (h : st.Below N) (u : TrieUpdate F)
    (leaf : List Bool → Option F) : Persisted st u (N + ·) (appendNodes st N u leaf) where
  get_old i n hi := by
    have hN : ¬ N ≤ i := fun hN => by simp [(h i hN).1] at hi
    simp [appendNodes,hN,hi]
  hash_old i x hi := by
    have hN : ¬ N ≤ i := fun hN => by simp [(h i hN).2] at hi
    simp [appendNodes,hN,hi]
  get_added j x n hj := by simp [appendNodes,hj]
  hash_added j x n hj := by simp [appendNodes,hj]

theorem appendNodes_below (st : Storage F) (N : ℕ) (u : TrieUpdate F)
    (leaf : List Bool → Option F) : (appendNodes st N u leaf).Below (N + u.nodesAdded.length) := by
  intro i hi
  have hN : N ≤ i := by omega
  have hj : u.nodesAdded[i - N]? = none := List.getElem?_eq_none (by omega)
  simp [appendNodes,hN,hj]

variable [Zero F] [DecidableEq F] {HEIGHT : ℕ} {hasher : NodeHasher F}

theorem step_exists (hH : 0 < HEIGHT) {s : Session F} {m : List Bool → Option F}
    {ms : List (List Bool → Option F)} (hs : SessionOk HEIGHT hasher s m ms) {N : ℕ}
    (hN : s.st.Below N) {op : Op F} (hop : op.KeyOk HEIGHT) :
    ∃ s' N', Step HEIGHT hasher s op s' ∧ s'.st.Below N' := by
  cases op with
  | set key value =>
    obtain ⟨t',h,-⟩ := set_represents hH hop hs.tree
    exact ⟨_,N,.set h,hN⟩
  | get key =>
    obtain ⟨t',h,-⟩ := get_represents hop hs.tree
    exact ⟨_,N,.get h,hN⟩
  | commit =>
    obtain ⟨u,hc,-⟩ := commit_spec hH hs.tree
    exact ⟨_,_,.commit hc (appendNodes_persisted hN u _) rfl,appendNodes_below _ _ u _⟩

theorem run_exists (hH : 0 < HEIGHT) :
    ∀ (ops : List (Op F)) {s : Session F} {m : List Bool → Option F}
      {ms : List (List Bool → Option F)} {N : ℕ}, SessionOk HEIGHT hasher s m ms → s.st.Below N →
      (∀ op ∈ ops, op.KeyOk HEIGHT) → ∃ s', Run HEIGHT hasher s ops s'
  | [], s, _, _, _, _, _, _ => ⟨s,.nil⟩
  | op :: ops, _, _, _, _, hs, hN, hops => by
    have hop := hops op (by simp)
    obtain ⟨s₁,N₁,hstep,hN₁⟩ := step_exists hH hs hN hop
    obtain ⟨s',hrun⟩ := run_exists hH ops (step_sessionOk hH hop hs hstep) hN₁
      fun o ho => hops o (by simp [ho])
    exact ⟨s',.cons hstep hrun⟩

theorem SessionOk.runs (hH : 0 < HEIGHT) {s : Session F} {m : List Bool → Option F}
    {ms : List (List Bool → Option F)} (hs : SessionOk HEIGHT hasher s m ms) {N : ℕ}
    (hN : s.st.Below N) {ops : List (Op F)} (hops : ∀ op ∈ ops, op.KeyOk HEIGHT) :
    (∃ s', Run HEIGHT hasher s ops s') ∧ ∀ {s'}, Run HEIGHT hasher s ops s' →
      SessionOk HEIGHT hasher s' (opsWritten m ops) (ms ++ committedMaps m ops) :=
  ⟨run_exists hH ops hs hN hops,fun hrun => run_sessionOk hH hs hrun hops⟩

end Progress

section Client
variable {F : Type}

def Session.empty (st : Storage F) : Session F := ⟨st,[],none,.empty⟩

def Session.loaded (st : Storage F) (r : ℕ) : Session F := ⟨st,[(some r,st.leaf)],some r,.new r⟩

def ReadsBack (HEIGHT : ℕ) (s : Session F) (m : List Bool → Option F)
    (ms : List (List Bool → Option F)) : Prop :=
  (∀ key, key.length = HEIGHT → ∃ t', get HEIGHT s.st s.tree key = .ok (m key,t')) ∧
  List.Forall₂ (fun (v : Option ℕ × (List Bool → Option F)) mv => ∀ key, key.length = HEIGHT →
    ∃ t', get HEIGHT { s.st with leaf := v.2 } (MerkleTree.load v.1) key = .ok (mv key,t'))
    s.versions ms

variable {HEIGHT : ℕ} {hasher : NodeHasher F}

theorem sessionOk_empty (st : Storage F) :
    SessionOk HEIGHT hasher (Session.empty st) (fun _ => none) [] :=
  ⟨represents_empty,rootIndexOk_load none,.nil⟩

theorem sessionOk_loaded {st : Storage F} {r : ℕ} {T : Trie F}
    (hs : Stored st (HashOk hasher st) st.leaf r [] T) (hw : T.WF HEIGHT) :
    SessionOk HEIGHT hasher (Session.loaded st r) T.find [T.find] :=
  ⟨represents_new hs hw,rootIndexOk_load (some r),.cons (represents_new hs hw) .nil⟩

theorem SessionOk.readsBack {s : Session F} {m : List Bool → Option F}
    {ms : List (List Bool → Option F)} (hs : SessionOk HEIGHT hasher s m ms) :
    ReadsBack HEIGHT s m ms := by
  refine ⟨fun key hk => (get_represents hk hs.tree).imp fun _ h => h.1,?_⟩
  exact hs.versions.imp fun v mv hv key hk => (get_represents hk hv).imp fun _ h => h.1

theorem SessionOk.commit_root [Zero F] (hH : 0 < HEIGHT) {s : Session F}
    {m : List Bool → Option F} {ms : List (List Bool → Option F)} (hs : SessionOk HEIGHT hasher s m ms) :
    ∃ u, commit hasher s.tree s.st = .ok u ∧ u.rootCommitment = patriciaRoot hasher HEIGHT m := by
  obtain ⟨u,hc,hroot,-⟩ := commit_spec hH hs.tree
  exact ⟨u,hc,hroot⟩

/-- History independence: every list of writes, reads and commits on keys of `HEIGHT` bits
runs to the end from an empty storage or from a stored version, and the commit after any such
run returns the root commitment of the map the writes leave. -/
theorem commit_rootCommitment_eq_patriciaRoot [Zero F] [DecidableEq F] (hH : 0 < HEIGHT)
    {ops : List (Op F)} (hops : ∀ op ∈ ops, op.KeyOk HEIGHT) :
    (∀ {st : Storage F} {N : ℕ}, st.Below N →
      (∃ s', Run HEIGHT hasher (Session.empty st) ops s') ∧
      ∀ s', Run HEIGHT hasher (Session.empty st) ops s' →
        ∃ u, commit hasher s'.tree s'.st = .ok u ∧
          u.rootCommitment = patriciaRoot hasher HEIGHT (opsWritten (fun _ => none) ops)) ∧
    ∀ {st : Storage F} {r : ℕ} {T : Trie F} {N : ℕ},
      Stored st (HashOk hasher st) st.leaf r [] T → T.WF HEIGHT → st.Below N →
      (∃ s', Run HEIGHT hasher (Session.loaded st r) ops s') ∧
      ∀ s', Run HEIGHT hasher (Session.loaded st r) ops s' →
        ∃ u, commit hasher s'.tree s'.st = .ok u ∧
          u.rootCommitment = patriciaRoot hasher HEIGHT (opsWritten T.find ops) :=
  ⟨fun hN => ((sessionOk_empty _).runs hH hN hops).imp_right fun h _ hrun => (h hrun).commit_root hH,
    fun hs hw hN => ((sessionOk_loaded hs hw).runs hH hN hops).imp_right fun h _ hrun =>
      (h hrun).commit_root hH⟩

theorem commit_rootCommitment_five_ops :
    let hasher : NodeHasher ℕ := .ofFeltHash fun a b => a + 2 * b
    let ops : List (Op ℕ) := [.set [true,false] 5,.commit,.set [false,false] 7,.get [true,false],
      .set [true,false] 0]
    let st : Storage ℕ := ⟨fun _ => none,fun _ => none,fun _ => none⟩
    0 < 2 ∧ (∀ op ∈ ops, op.KeyOk 2) ∧ st.Below 0 ∧
      ∃ s', Run 2 hasher (Session.empty st) ops s' ∧ ∃ u, commit hasher s'.tree s'.st = .ok u ∧
        u.rootCommitment = patriciaRoot hasher 2 (opsWritten (fun _ => none) ops) := by
  intro hasher ops st
  have hops : ∀ op ∈ ops, op.KeyOk 2 := by simp [ops,Op.KeyOk]
  have hN : st.Below 0 := fun _ _ => ⟨rfl,rfl⟩
  obtain ⟨⟨s',hrun⟩,hroot⟩ := (commit_rootCommitment_eq_patriciaRoot (by decide) hops).1 hN
  exact ⟨by decide,hops,hN,s',hrun,hroot s' hrun⟩

/-- Read-your-writes across commits: every list of operations runs to the end, and after any
such run `get` returns the last value written to a key (none when it was never written or last
written zero), and every version persisted along the way, the one loaded first included, still
returns its values. -/
theorem run_readsBack [Zero F] [DecidableEq F] (hH : 0 < HEIGHT) {ops : List (Op F)}
    (hops : ∀ op ∈ ops, op.KeyOk HEIGHT) :
    (∀ {st : Storage F} {N : ℕ}, st.Below N →
      (∃ s', Run HEIGHT hasher (Session.empty st) ops s') ∧
      ∀ s', Run HEIGHT hasher (Session.empty st) ops s' →
        ReadsBack HEIGHT s' (opsWritten (fun _ => none) ops) (committedMaps (fun _ => none) ops)) ∧
    ∀ {st : Storage F} {r : ℕ} {T : Trie F} {N : ℕ},
      Stored st (HashOk hasher st) st.leaf r [] T → T.WF HEIGHT → st.Below N →
      (∃ s', Run HEIGHT hasher (Session.loaded st r) ops s') ∧
      ∀ s', Run HEIGHT hasher (Session.loaded st r) ops s' →
        ReadsBack HEIGHT s' (opsWritten T.find ops) (T.find :: committedMaps T.find ops) :=
  ⟨fun hN => ((sessionOk_empty _).runs hH hN hops).imp_right fun h _ hrun => (h hrun).readsBack,
    fun hs hw hN => ((sessionOk_loaded hs hw).runs hH hN hops).imp_right fun h _ hrun =>
      (h hrun).readsBack⟩

theorem run_readsBack_five_ops :
    let hasher : NodeHasher ℕ := .ofFeltHash fun a b => a + 2 * b
    let ops : List (Op ℕ) := [.set [true,false] 5,.commit,.set [false,false] 7,.get [true,false],
      .set [true,false] 0]
    let st : Storage ℕ := ⟨fun _ => none,fun _ => none,fun _ => none⟩
    0 < 2 ∧ (∀ op ∈ ops, op.KeyOk 2) ∧ st.Below 0 ∧
      ∃ s', Run 2 hasher (Session.empty st) ops s' ∧
        ReadsBack 2 s' (opsWritten (fun _ => none) ops) (committedMaps (fun _ => none) ops) := by
  intro hasher ops st
  have hops : ∀ op ∈ ops, op.KeyOk 2 := by simp [ops,Op.KeyOk]
  have hN : st.Below 0 := fun _ _ => ⟨rfl,rfl⟩
  obtain ⟨⟨s',hrun⟩,hreads⟩ := (run_readsBack (by decide) hops).1 hN
  exact ⟨by decide,hops,hN,s',hrun,hreads s' hrun⟩

end Client

end Merkle
end Pathfinder
