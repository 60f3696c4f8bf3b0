import Pathfinder.Merkle.Update

/-! What `commit` computes. On a tree whose stored nodes carry their trie's hash, the
root commitment is the hash of the canonical trie of the map the tree holds, and the
added nodes, read from the root reference, spell out that trie. -/
namespace Pathfinder
namespace Merkle

open Patricia Trie

section Spec
variable {F : Type} (hasher : NodeHasher F)

def trieHash (t : Trie F) : F := t.hash hasher.binary hasher.edge

def HashOk (st : Storage F) (i : ℕ) (t : Trie F) : Prop := st.hash i = some (trieHash hasher t)

def patriciaRoot [Zero F] (HEIGHT : ℕ) (m : List Bool → Option F) : F :=
  match build HEIGHT m with
  | none => 0
  | some T => trieHash hasher T

@[simp] theorem trieHash_leaf (v : F) : trieHash hasher (leaf v) = v := rfl

@[simp] theorem trieHash_binary (l r : Trie F) :
    trieHash hasher (binary l r) = hasher.binary (trieHash hasher l) (trieHash hasher r) := rfl
end Spec

section Emitted
variable {F : Type} (hasher : NodeHasher F) (st : Storage F) (ok : ℕ → Trie F → Prop)
  (lf : List Bool → Option F)

@[simp] theorem trieHash_edge (p : List Bool) (c : Trie F) :
    trieHash hasher (edge p c) = hasher.edge (trieHash hasher c) p := rfl

/-- The reference `r`, to an added node or to storage, stands for the trie `t` at `path`. -/
inductive Emitted (added : List (F × Node)) : NodeRef → List Bool → Trie F → Prop
  | stored {i : ℕ} {path : List Bool} {t : Trie F} :
      Stored st ok lf i path t → Emitted added (.storageIndex i) path t
  | binary {j : ℕ} {l r : NodeRef} {path : List Bool} {tl tr : Trie F} :
      added[j]? = some (trieHash hasher (.binary tl tr),.binary l r) →
      Emitted added l (path ++ [false]) tl → Emitted added r (path ++ [true]) tr →
      Emitted added (.index j) path (.binary tl tr)
  | edge {j : ℕ} {c : NodeRef} {p path : List Bool} {tc : Trie F} :
      added[j]? = some (trieHash hasher (.edge p tc),.edge c p) →
      Emitted added c (path ++ p) tc → Emitted added (.index j) path (.edge p tc)
  | leafBinary {j : ℕ} {path : List Bool} {a b : F} :
      added[j]? = some (hasher.binary a b,.leafBinary) →
      lf (path ++ [false]) = some a → lf (path ++ [true]) = some b →
      Emitted added (.index j) path (.binary (.leaf a) (.leaf b))
  | leafEdge {j : ℕ} {p path : List Bool} {v : F} :
      added[j]? = some (hasher.edge v p,.leafEdge p) → lf (path ++ p) = some v →
      Emitted added (.index j) path (.edge p (.leaf v))

variable {hasher st ok lf}

theorem getElem?_of_prefix {α : Type} {l l' : List α} (hp : l <+: l') {j : ℕ} {x : α}
    (h : l[j]? = some x) : l'[j]? = some x := by
  obtain ⟨hlt,rfl⟩ := List.getElem?_eq_some_iff.mp h
  exact List.prefix_iff_getElem?.mp hp j hlt

theorem Emitted.mono {added added' : List (F × Node)} {r : NodeRef} {path : List Bool}
    {t : Trie F} (h : Emitted hasher st ok lf added r path t) (hp : added <+: added') :
    Emitted hasher st ok lf added' r path t := by
  have hget : ∀ {j x}, added[j]? = some x → added'[j]? = some x := getElem?_of_prefix hp
  induction h with
  | stored hs => exact .stored hs
  | binary hj _ _ ihl ihr => exact .binary (hget hj) ihl ihr
  | edge hj _ ih => exact .edge (hget hj) ih
  | leafBinary hj ha hb => exact .leafBinary (hget hj) ha hb
  | leafEdge hj hv => exact .leafEdge (hget hj) hv

theorem Emitted.index_lt {added : List (F × Node)} {j : ℕ} {path : List Bool} {t : Trie F}
    (h : Emitted hasher st ok lf added (.index j) path t) : j < added.length := by
  cases h <;> exact (List.getElem?_eq_some_iff.mp ‹_›).1

end Emitted

section Commit
variable {F : Type} {HEIGHT : ℕ} {hasher : NodeHasher F} {tree : MerkleTree F} {st : Storage F}

def InternalNode.resolvedIndices : InternalNode → List ℕ
  | .unresolved _ => []
  | .leaf => []
  | .binary si _ l r => l.resolvedIndices ++ r.resolvedIndices ++ si.toList
  | .edge si _ _ c => c.resolvedIndices ++ si.toList

def InternalNode.committedRef (n : InternalNode) (added : ℕ) : Option NodeRef :=
  match n with
  | .unresolved i => some (.storageIndex i)
  | .leaf => none
  | _ => some (.index (added - 1))

theorem commitSubtree_spec {n : InternalNode} {path : List Bool} {t : Trie F} {m : ℕ}
    (hn : Denotes st (HashOk hasher st) (leafValue tree.leaves st) path n t) (hw : t.WF m)
    (acc : Committed F) :
    ∃ ref acc', commitSubtree hasher tree st n path acc = .ok ((trieHash hasher t,ref),acc') ∧
      acc.added <+: acc'.added ∧ acc'.removed = acc.removed ++ n.resolvedIndices ∧
      ref = n.committedRef acc'.added.length ∧ (ref = none ↔ m = 0) ∧
      ∀ r, ref = some r →
        Emitted hasher st (HashOk hasher st) (leafValue tree.leaves st) acc'.added r path t := by
  induction hn generalizing m acc with
  | @unresolved i _ _ hs =>
    have hh := hs.ok_root
    unfold HashOk at hh
    refine ⟨some (.storageIndex i),acc,by simp [commitSubtree,hh],List.prefix_refl _,
      by simp [InternalNode.resolvedIndices],rfl,?_,?_⟩
    · have := hs.pos hw; simp; omega
    · rintro r ⟨⟩; exact .stored hs
  | @leaf path v hv =>
    refine ⟨none,acc,?_,List.prefix_refl _,by simp [InternalNode.resolvedIndices],rfl,
      iff_of_true rfl hw,by simp⟩
    cases hl : tree.leaves path with
    | some w => simp only [leafValue,hl,Option.some.injEq] at hv; subst hv; simp [commitSubtree,hl]
    | none => simp only [leafValue,hl] at hv; simp [commitSubtree,hl,hv]
  | @binary si path l r tl tr hl hr ihl ihr =>
    obtain ⟨hpos,hwl,hwr⟩ := hw
    obtain ⟨lc,acc1,h1,hp1,hr1,-,hn1,he1⟩ := ihl hwl acc
    obtain ⟨rc,acc2,h2,hp2,hr2,-,hn2,he2⟩ := ihr hwr acc1
    have hsame : lc = none ↔ rc = none := hn1.trans hn2.symm
    have hleaf : lc = none → ∃ a b, tl = .leaf a ∧ tr = .leaf b := fun h0 => by
      obtain ⟨a,rfl⟩ := (hwl.exists_leaf_iff).mpr (hn1.mp h0)
      obtain ⟨b,rfl⟩ := (hwr.exists_leaf_iff).mpr (hn1.mp h0)
      exact ⟨a,b,rfl,rfl⟩
    have hp : acc.added <+: acc2.added := hp1.trans hp2
    cases lc with
    | none =>
      obtain ⟨a,b,rfl,rfl⟩ := hleaf rfl
      have hrc : rc = none := hsame.mp rfl
      subst hrc
      refine ⟨some (.index acc2.added.length),⟨acc2.added ++ [(hasher.binary a b,.leafBinary)],
        acc2.removed ++ si.toList⟩,by simp [commitSubtree,h1,h2],hp.trans (List.prefix_append _ _),
        by simp [hr2,hr1,InternalNode.resolvedIndices],by simp [InternalNode.committedRef],
        by simp; omega,?_⟩
      rintro r ⟨⟩
      exact .leafBinary (by simp) hl.leaf_value.2 hr.leaf_value.2
    | some lr =>
      obtain ⟨rr,rfl⟩ := Option.ne_none_iff_exists'.mp (mt hsame.mpr (by simp))
      refine ⟨some (.index acc2.added.length),⟨acc2.added ++
        [(hasher.binary (trieHash hasher tl) (trieHash hasher tr),.binary lr rr)],
        acc2.removed ++ si.toList⟩,by simp [commitSubtree,h1,h2],hp.trans (List.prefix_append _ _),
        by simp [hr2,hr1,InternalNode.resolvedIndices],by simp [InternalNode.committedRef],
        by simp; omega,?_⟩
      rintro r ⟨⟩
      exact .binary (by simp) ((he1 lr rfl).mono (hp2.trans (List.prefix_append _ _)))
        ((he2 rr rfl).mono (List.prefix_append _ _))
  | @edge si path p c tc hc ih =>
    obtain ⟨hpne,hpm,hce,hcw⟩ := hw
    obtain ⟨cc,acc1,h1,hp1,hr1,-,hn1,he1⟩ := ih hcw acc
    have hmpos : 0 < m := by have := List.length_pos_of_ne_nil hpne; omega
    cases cc with
    | none =>
      obtain ⟨v,rfl⟩ := (hcw.exists_leaf_iff).mpr (hn1.mp rfl)
      refine ⟨some (.index acc1.added.length),⟨acc1.added ++ [(hasher.edge v p,.leafEdge p)],
        acc1.removed ++ si.toList⟩,by simp [commitSubtree,h1],hp1.trans (List.prefix_append _ _),
        by simp [hr1,InternalNode.resolvedIndices],by simp [InternalNode.committedRef],
        by simp; omega,?_⟩
      rintro r ⟨⟩
      exact .leafEdge (by simp) hc.leaf_value.2
    | some cr =>
      refine ⟨some (.index acc1.added.length),⟨acc1.added ++
        [(hasher.edge (trieHash hasher tc) p,.edge cr p)],acc1.removed ++ si.toList⟩,
        by simp [commitSubtree,h1],hp1.trans (List.prefix_append _ _),
        by simp [hr1,InternalNode.resolvedIndices],by simp [InternalNode.committedRef],
        by simp; omega,?_⟩
      rintro r ⟨⟩
      exact .edge (by simp) ((he1 cr rfl).mono (List.prefix_append _ _))

theorem commit_resolved [Zero F] {root : InternalNode} (hr : tree.root = some root)
    (hu : ∀ i, root ≠ .unresolved i) :
    commit hasher tree st = (do
      let ((h,_),acc) ← commitSubtree hasher tree st root [] ⟨[],[]⟩
      pure ⟨acc.added,acc.removed ++ tree.nodesRemoved,h⟩) := by
  cases root with
  | unresolved i => exact absurd rfl (hu i)
  | _ => simp [commit,hr]

theorem commit_spec [Zero F] (hH : 0 < HEIGHT) {m : List Bool → Option F}
    (ht : Represents HEIGHT st (HashOk hasher st) tree m) :
    ∃ u, commit hasher tree st = .ok u ∧ u.rootCommitment = patriciaRoot hasher HEIGHT m ∧
      (u.nodesAdded = [] → (tree.root = none ∨ ∃ i, tree.root = some (.unresolved i)) ∧
        u.nodesRemoved = tree.nodesRemoved) ∧
      (build HEIGHT m = none → u.nodesAdded = []) ∧
      ∀ T, build HEIGHT m = some T → u.nodesAdded ≠ [] →
        Emitted hasher st (HashOk hasher st) (leafValue tree.leaves st) u.nodesAdded
          (.index (u.nodesAdded.length - 1)) [] T := by
  cases hr : tree.root with
  | none =>
    have hb := represents_root_none ht hr
    exact ⟨⟨[],tree.nodesRemoved,0⟩,by simp [commit,hr],by simp [patriciaRoot,hb],
      fun _ => ⟨.inl rfl,rfl⟩,fun _ => rfl,by simp [hb]⟩
  | some root =>
    obtain ⟨T,hb,hT⟩ := represents_root_some ht hr
    have hwT := wf_build HEIGHT m T hb
    have hroot : patriciaRoot hasher HEIGHT m = trieHash hasher T := by simp [patriciaRoot,hb]
    by_cases hu : ∃ i, root = .unresolved i
    · obtain ⟨i,rfl⟩ := hu
      cases hT with
      | unresolved hs =>
        have hh : st.hash i = some (trieHash hasher T) := hs.ok_root
        exact ⟨⟨[],tree.nodesRemoved,trieHash hasher T⟩,by simp [commit,hr,hh],hroot.symm,
          fun _ => ⟨.inr ⟨i,rfl⟩,rfl⟩,by simp [hb],by simp⟩
    · simp only [not_exists] at hu
      have hleaf : root ≠ .leaf := by
        rintro rfl
        obtain ⟨v,rfl⟩ : ∃ v, T = .leaf v := by cases hT; exact ⟨_,rfl⟩
        have h0 : HEIGHT = 0 := hwT
        omega
      obtain ⟨ref,acc,hc,-,-,href,-,he⟩ := @commitSubtree_spec F hasher tree st _ _ _ _ hT hwT ⟨[],[]⟩
      have href' : ref = some (.index (acc.added.length - 1)) := by
        rw [href]; cases root <;> simp_all [InternalNode.committedRef]
      have hne : acc.added ≠ [] := by
        have := (he _ href').index_lt
        exact List.ne_nil_of_length_pos (by omega)
      refine ⟨⟨acc.added,acc.removed ++ tree.nodesRemoved,trieHash hasher T⟩,
        by rw [commit_resolved hr hu,hc]; rfl,hroot.symm,fun h => absurd h hne,by simp [hb],
        fun T' hT' _ => ?_⟩
      rw [hb] at hT'; cases hT'
      exact he _ href'

end Commit

end Merkle
end Pathfinder
