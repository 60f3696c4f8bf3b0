import Pathfinder.Merkle.Tree
import Pathfinder.Patricia.Zipper

/-! What an in-memory tree stands for. Every node, read along its path from the root,
denotes an abstract trie: stored nodes through storage, leaf values through a leaf
function. `resolve`, `traverse` and `merge_edges` keep what the tree denotes. -/
namespace Pathfinder
namespace Merkle

open Patricia Trie

section Relations
variable {F : Type} (st : Storage F) (ok : ℕ → Trie F → Prop) (lf : List Bool → Option F)

/-- The stored node `i`, reached along `path`, stands for the trie `t`. -/
inductive Stored : ℕ → List Bool → Trie F → Prop
  | binary {i l r : ℕ} {path : List Bool} {tl tr : Trie F} :
      st.get i = some (.binary l r) → ok i (.binary tl tr) →
      Stored l (path ++ [false]) tl → Stored r (path ++ [true]) tr →
      Stored i path (.binary tl tr)
  | edge {i c : ℕ} {p path : List Bool} {tc : Trie F} :
      st.get i = some (.edge c p) → ok i (.edge p tc) → Stored c (path ++ p) tc →
      Stored i path (.edge p tc)
  | leafBinary {i : ℕ} {path : List Bool} {a b : F} :
      st.get i = some .leafBinary → ok i (.binary (.leaf a) (.leaf b)) →
      lf (path ++ [false]) = some a → lf (path ++ [true]) = some b →
      Stored i path (.binary (.leaf a) (.leaf b))
  | leafEdge {i : ℕ} {p path : List Bool} {v : F} :
      st.get i = some (.leafEdge p) → ok i (.edge p (.leaf v)) → lf (path ++ p) = some v →
      Stored i path (.edge p (.leaf v))

/-- The in-memory node `n`, reached along `path`, stands for the trie `t`. -/
inductive Denotes : List Bool → InternalNode → Trie F → Prop
  | unresolved {i : ℕ} {path : List Bool} {t : Trie F} :
      Stored st ok lf i path t → Denotes path (.unresolved i) t
  | leaf {path : List Bool} {v : F} : lf path = some v → Denotes path .leaf (.leaf v)
  | binary {si : Option ℕ} {path : List Bool} {l r : InternalNode} {tl tr : Trie F} :
      Denotes (path ++ [false]) l tl → Denotes (path ++ [true]) r tr →
      Denotes path (.binary si path.length l r) (.binary tl tr)
  | edge {si : Option ℕ} {path p : List Bool} {c : InternalNode} {tc : Trie F} :
      Denotes (path ++ p) c tc → Denotes path (.edge si path.length p c) (.edge p tc)

def FramesDenote : List PathFrame → List (Patricia.Frame F) → Prop
  | [], [] => True
  | .binary _ h d s :: fs, .binary d' s' :: afs =>
    d' = d ∧ h = (walked afs).length ∧ Denotes st ok lf (walked afs ++ [!d]) s s' ∧ FramesDenote fs afs
  | .edge _ h p :: fs, .edge p' :: afs => p' = p ∧ h = (walked afs).length ∧ FramesDenote fs afs
  | _, _ => False

end Relations

section Congr
variable {F : Type} {st : Storage F} {ok : ℕ → Trie F → Prop} {lf lf' : List Bool → Option F}

theorem Stored.congr {i : ℕ} {path : List Bool} {t : Trie F} (h : Stored st ok lf i path t)
    (hl : ∀ k, path <+: k → lf k = lf' k) : Stored st ok lf' i path t := by
  induction h with
  | binary hg ho _ _ ihl ihr =>
    exact .binary hg ho (ihl fun k hk => hl k ((List.prefix_append _ _).trans hk))
      (ihr fun k hk => hl k ((List.prefix_append _ _).trans hk))
  | edge hg ho _ ih => exact .edge hg ho (ih fun k hk => hl k ((List.prefix_append _ _).trans hk))
  | leafBinary hg ho ha hb =>
    exact .leafBinary hg ho (by rwa [← hl _ (List.prefix_append _ _)])
      (by rwa [← hl _ (List.prefix_append _ _)])
  | leafEdge hg ho hv => exact .leafEdge hg ho (by rwa [← hl _ (List.prefix_append _ _)])

theorem Denotes.congr {path : List Bool} {n : InternalNode} {t : Trie F}
    (h : Denotes st ok lf path n t) (hl : ∀ k, path <+: k → lf k = lf' k) :
    Denotes st ok lf' path n t := by
  induction h with
  | unresolved hs => exact .unresolved (hs.congr hl)
  | leaf hv => exact .leaf (by rwa [← hl _ (List.prefix_refl _)])
  | binary _ _ ihl ihr =>
    exact .binary (ihl fun k hk => hl k ((List.prefix_append _ _).trans hk))
      (ihr fun k hk => hl k ((List.prefix_append _ _).trans hk))
  | edge _ ih => exact .edge (ih fun k hk => hl k ((List.prefix_append _ _).trans hk))

theorem FramesDenote.congr {key : List Bool} {fs : List PathFrame} {afs : List (Patricia.Frame F)}
    (h : FramesDenote st ok lf fs afs) (hk : walked afs <+: key) (hl : ∀ k, k ≠ key → lf k = lf' k) :
    FramesDenote st ok lf' fs afs := by
  induction fs generalizing afs with
  | nil => cases afs <;> simp_all [FramesDenote]
  | cons f fs ih =>
    cases f with
    | binary si h d s =>
      cases afs with
      | nil => exact h.elim
      | cons g afs =>
        cases g with
        | edge p => exact h.elim
        | binary d' s' =>
          obtain ⟨rfl,hh,hs,hf⟩ := h
          have hk' : walked afs ++ [d'] <+: key := by simpa [walked,Frame.bits] using hk
          refine ⟨rfl,hh,hs.congr fun k hpk => hl k ?_,ih hf ((List.prefix_append _ _).trans hk')⟩
          rintro rfl
          obtain ⟨r,hr⟩ := hk'
          obtain ⟨r',hr'⟩ := hpk
          rw [← hr',List.append_assoc,List.append_assoc,List.append_cancel_left_eq] at hr
          simp at hr
    | edge si h p =>
      cases afs with
      | nil => exact h.elim
      | cons g afs =>
        cases g with
        | binary d' s' => exact h.elim
        | edge p' =>
          obtain ⟨rfl,hh,hf⟩ := h
          exact ⟨rfl,hh,ih hf ((List.prefix_append _ _).trans (by simpa [walked,Frame.bits] using hk))⟩

end Congr

section Plug
variable {F : Type} {st : Storage F} {ok : ℕ → Trie F → Prop} {lf : List Bool → Option F}

theorem denotes_plug {fs : List PathFrame} {afs : List (Patricia.Frame F)} {n : InternalNode}
    {t : Trie F} (hf : FramesDenote st ok lf fs afs) (hn : Denotes st ok lf (walked afs) n t) :
    Denotes st ok lf [] (plug fs n) (Patricia.plug afs t) := by
  induction fs generalizing afs n t with
  | nil =>
    cases afs with
    | nil => exact hn
    | cons g afs => exact hf.elim
  | cons f fs ih =>
    cases f with
    | binary si h d s =>
      cases afs with
      | nil => exact hf.elim
      | cons g afs =>
        cases g with
        | edge p => exact hf.elim
        | binary d' s' =>
          obtain ⟨rfl,rfl,hs,hfs⟩ := hf
          have hn' : Denotes st ok lf (walked afs ++ [d']) n t := by simpa [walked,Frame.bits] using hn
          apply ih hfs
          cases d'
          · exact .binary hn' hs
          · exact .binary hs hn'
    | edge si h p =>
      cases afs with
      | nil => exact hf.elim
      | cons g afs =>
        cases g with
        | binary d' s' => exact hf.elim
        | edge p' =>
          obtain ⟨rfl,rfl,hfs⟩ := hf
          exact @ih afs _ _ hfs (.edge (by simpa [walked,Frame.bits] using hn))

end Plug

section Steps
variable {F : Type} {HEIGHT : ℕ} {st : Storage F} {ok : ℕ → Trie F → Prop}
  {lf : List Bool → Option F}

theorem Stored.pos {i m : ℕ} {path : List Bool} {t : Trie F} (h : Stored st ok lf i path t)
    (hw : t.WF m) : 0 < m := by
  cases h with
  | binary => exact hw.1
  | leafBinary => exact hw.1
  | edge =>
    obtain ⟨hp,hpm,-⟩ := hw
    have := List.length_pos_of_ne_nil hp; omega
  | leafEdge =>
    obtain ⟨hp,hpm,-⟩ := hw
    have := List.length_pos_of_ne_nil hp; omega

theorem Stored.ok_root {i : ℕ} {path : List Bool} {t : Trie F} (h : Stored st ok lf i path t) :
    ok i t := by
  cases h <;> assumption

theorem Denotes.leaf_value {path : List Bool} {n : InternalNode} {v : F}
    (h : Denotes st ok lf path n (.leaf v)) : n = .leaf ∧ lf path = some v := by
  cases h with
  | unresolved hs => cases hs
  | leaf hv => exact ⟨rfl,hv⟩

def InternalNode.rounds : InternalNode → ℕ
  | .unresolved _ => 2
  | _ => 1

theorem InternalNode.rounds_le (n : InternalNode) : n.rounds ≤ 2 := by
  cases n <;> simp [InternalNode.rounds]

theorem resolve_spec {i : ℕ} {path : List Bool} {t : Trie F} (hs : Stored st ok lf i path t)
    (hlt : path.length < HEIGHT) :
    ∃ n, resolve HEIGHT st i path.length = .ok n ∧ Denotes st ok lf path n t ∧
      n.storageIndex = some i ∧ n.rounds = 1 := by
  cases hs with
  | binary hg _ hl hr => exact ⟨_,by simp [resolve,hlt,hg],.binary (.unresolved hl) (.unresolved hr),rfl,rfl⟩
  | edge hg _ hc => exact ⟨_,by simp [resolve,hlt,hg],.edge (.unresolved hc),rfl,rfl⟩
  | leafBinary hg _ ha hb => exact ⟨_,by simp [resolve,hlt,hg],.binary (.leaf ha) (.leaf hb),rfl,rfl⟩
  | leafEdge hg _ hv => exact ⟨_,by simp [resolve,hlt,hg],.edge (.leaf hv),rfl,rfl⟩

theorem pathMatches_iff (h : ℕ) (p dst : List Bool) : pathMatches h p dst = true ↔ p <+: dst.drop h := by
  simp [pathMatches,List.prefix_iff_eq_take]

def WalkEnd (dst : List Bool) (afs : List (Patricia.Frame F)) : InternalNode → Prop
  | .leaf => walked afs = dst
  | .edge _ _ p _ => ¬ p <+: dst.drop (walked afs).length
  | _ => False

theorem traverse_spec {dst : List Bool} (hdst : dst.length = HEIGHT) :
    ∀ (fuel : ℕ) (node : InternalNode) (frames : List PathFrame) (afs : List (Patricia.Frame F))
      (t : Trie F), FramesDenote st ok lf frames afs → Denotes st ok lf (walked afs) node t →
      walked afs <+: dst → t.WF (HEIGHT - (walked afs).length) →
      2 * (HEIGHT - (walked afs).length) + node.rounds ≤ fuel →
      ∃ frames' last afs' tl,
        traverse HEIGHT st dst fuel node (walked afs).length frames = .ok (frames',last) ∧
        FramesDenote st ok lf frames' afs' ∧ Denotes st ok lf (walked afs') last tl ∧
        Patricia.plug afs' tl = Patricia.plug afs t ∧ walked afs' <+: dst ∧
        WalkEnd dst afs' last ∧ tl.WF (HEIGHT - (walked afs').length) := by
  intro fuel
  induction fuel with
  | zero =>
    intro node _ _ _ _ _ _ _ hf
    cases node <;> simp [InternalNode.rounds] at hf
  | succ fuel ih =>
    intro node frames afs t hfr hn hpre hwf hf
    have hlen : (walked afs).length ≤ HEIGHT := hdst ▸ hpre.length_le
    cases hn with
    | unresolved hs =>
      have hlt : (walked afs).length < HEIGHT := by have := hs.pos hwf; omega
      obtain ⟨n,hr,hn',-,hrounds⟩ := resolve_spec hs hlt
      obtain ⟨frames',last,afs',tl,he,h1⟩ := ih n frames afs t hfr hn' hpre hwf
        (by simp [InternalNode.rounds] at hf; omega)
      exact ⟨frames',last,afs',tl,by simpa [traverse,hr] using he,h1⟩
    | leaf hv =>
      refine ⟨frames,.leaf,afs,_,rfl,hfr,.leaf hv,rfl,hpre,?_,hwf⟩
      have h0 : HEIGHT - (walked afs).length = 0 := hwf
      exact hpre.eq_of_length (by omega)
    | @binary si path l r tl tr hl hr =>
      obtain ⟨hpos,hwl,hwr⟩ := hwf
      obtain ⟨rest,hrest⟩ := hpre
      have hne : rest ≠ [] := by
        rintro rfl
        have := congrArg List.length hrest
        simp at this; omega
      obtain ⟨d,rest',rfl⟩ := List.exists_cons_of_ne_nil hne
      have hd : dst.getD (walked afs).length false = d := by simp [← hrest]
      have hpre' : walked (Patricia.Frame.binary d (if d then tl else tr) :: afs) <+: dst :=
        ⟨rest',by simp [walked,Frame.bits,← hrest]⟩
      have hfr' : FramesDenote st ok lf (.binary si (walked afs).length d (if d then l else r) :: frames)
          (.binary d (if d then tl else tr) :: afs) := by
        cases d
        · exact ⟨rfl,rfl,by simpa using hr,hfr⟩
        · exact ⟨rfl,rfl,by simpa using hl,hfr⟩
      have hlen' : (walked (Patricia.Frame.binary d (if d then tl else tr) :: afs)).length =
          (walked afs).length + 1 := by simp [walked,Frame.bits]
      obtain ⟨frames',last,afs',tl',he,h1,h2,h3,h4⟩ := ih (if d then r else l) _ _ (if d then tr else tl) hfr'
        (by cases d <;> simpa [walked,Frame.bits])
        hpre' (by rw [hlen']; cases d <;> simpa [Nat.sub_add_eq] using ‹_›)
        (by
          have hf1 : 2 * (HEIGHT - (walked afs).length) + 1 ≤ fuel + 1 := hf
          have := InternalNode.rounds_le (if d then r else l)
          rw [hlen']; omega)
      refine ⟨frames',last,afs',tl',?_,h1,h2,?_,h4⟩
      · rw [hlen'] at he
        simp only [traverse,hd]
        exact he
      · rw [h3]; cases d <;> rfl
    | @edge si path p c tc hc =>
      obtain ⟨hp,hpm,hce,hcw⟩ := hwf
      by_cases hm : p <+: dst.drop (walked afs).length
      · have hpre' : walked (Patricia.Frame.edge p :: afs) <+: dst := by
          obtain ⟨rest,hrest⟩ := hpre
          obtain ⟨rest',hrest'⟩ := hm
          refine ⟨rest',?_⟩
          rw [← hrest] at hrest' ⊢
          simp only [List.drop_left] at hrest'
          simp [walked,Frame.bits,hrest']
        have hlen' : (walked (Patricia.Frame.edge p :: afs)).length = (walked afs).length + p.length := by
          simp [walked,Frame.bits]
        have hp1 := List.length_pos_of_ne_nil hp
        obtain ⟨frames',last,afs',tl',he,h1⟩ := ih c (.edge si (walked afs).length p :: frames)
          (.edge p :: afs) tc ⟨rfl,rfl,hfr⟩ (by simpa [walked,Frame.bits] using hc) hpre'
          (by rw [hlen',← Nat.sub_sub]; exact hcw)
          (by
            have hf1 : 2 * (HEIGHT - (walked afs).length) + 1 ≤ fuel + 1 := hf
            have := InternalNode.rounds_le c
            rw [hlen']; omega)
        refine ⟨frames',last,afs',tl',?_,h1⟩
        rw [hlen'] at he
        simpa [traverse,(pathMatches_iff _ _ _).mpr hm] using he
      · have hm' : pathMatches (walked afs).length p dst = false := by
          simpa [← pathMatches_iff] using hm
        exact ⟨frames,.edge si _ p c,afs,_,by simp [traverse,hm'],hfr,.edge hc,rfl,hpre,hm,
          ⟨hp,hpm,hce,hcw⟩⟩

theorem mergeEdges_spec {path p : List Bool} {si : Option ℕ} {c : InternalNode} {tc : Trie F}
    (hc : Denotes st ok lf (path ++ p) c tc) (hw : tc.WF (HEIGHT - (path ++ p).length)) :
    ∃ n dropped, mergeEdges HEIGHT st (.edge si path.length p c) = .ok (n,dropped) ∧
      Denotes st ok lf path n (extend p tc) := by
  cases hc with
  | @unresolved i _ _ hs =>
    have hlt : (path ++ p).length < HEIGHT := by have := hs.pos hw; omega
    obtain ⟨n,hr,hn,-,hn1⟩ := resolve_spec hs hlt
    rw [List.length_append] at hr
    cases hn with
    | @edge csi _ cp cc tcc hcc =>
      exact ⟨.edge si path.length (p ++ cp) cc,csi.toList,by simp [mergeEdges,hr],
        .edge (by simpa using hcc)⟩
    | binary hl hr' =>
      exact ⟨.edge si path.length p (.unresolved i),[],by simp [mergeEdges,hr],.edge (.unresolved hs)⟩
    | leaf hv =>
      exact ⟨.edge si path.length p (.unresolved i),[],by simp [mergeEdges,hr],.edge (.unresolved hs)⟩
    | unresolved hs' => exact absurd hn1 (by simp [InternalNode.rounds])
  | @edge csi _ cp cc tcc hcc =>
    exact ⟨.edge si path.length (p ++ cp) cc,csi.toList,by simp [mergeEdges],.edge (by simpa using hcc)⟩
  | @binary bsi _ l r tl tr hl hr =>
    exact ⟨.edge si path.length p (.binary bsi _ l r),[],by simp [mergeEdges],.edge (.binary hl hr)⟩
  | leaf hv => exact ⟨.edge si path.length p .leaf,[],by simp [mergeEdges],.edge (.leaf hv)⟩

end Steps

end Merkle
end Pathfinder
