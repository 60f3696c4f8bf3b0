import Pathfinder.Merkle.Denote

/-! `set` and `delete_leaf` keep the tree canonical. A tree represents a key/value map when
its nodes, read through storage and its leaf values, denote the canonical trie of the map;
every write moves the represented map by `Function.update`. -/
namespace Pathfinder
namespace Merkle

open Patricia Trie

section Represents
variable {F : Type}

def leafValue (leaves : List Bool → Option F) (st : Storage F) (k : List Bool) : Option F :=
  match leaves k with
  | some v => some v
  | none => st.leaf k

def OptDenotes (st : Storage F) (ok : ℕ → Trie F → Prop) (lf : List Bool → Option F) :
    Option InternalNode → Option (Trie F) → Prop
  | none, none => True
  | some n, some t => Denotes st ok lf [] n t
  | _, _ => False

def Represents (HEIGHT : ℕ) (st : Storage F) (ok : ℕ → Trie F → Prop) (t : MerkleTree F)
    (m : List Bool → Option F) : Prop :=
  OptDenotes st ok (leafValue t.leaves st) t.root (build HEIGHT m)

def written [Zero F] [DecidableEq F] (m : List Bool → Option F) (key : List Bool) (value : F) :
    List Bool → Option F :=
  Function.update m key (if value = 0 then none else some value)

theorem leafValue_update (leaves : List Bool → Option F) (st : Storage F) (key : List Bool)
    (v : F) (k : List Bool) :
    leafValue (Function.update leaves key (some v)) st k =
      if k = key then some v else leafValue leaves st k := by
  by_cases hk : k = key
  · subst hk; simp [leafValue]
  · simp [leafValue,hk]

end Represents

section Update
variable {F : Type} {HEIGHT : ℕ} {st : Storage F} {ok : ℕ → Trie F → Prop}
  {lf : List Bool → Option F}

theorem denotes_elide {Q p : List Bool} {n : InternalNode} {t : Trie F}
    (h : Denotes st ok lf (Q ++ p) n t) :
    Denotes st ok lf Q (if p.isEmpty then n else .edge none Q.length p n) (mkEdge p t) := by
  cases p with
  | nil => simpa [mkEdge] using h
  | cons b p => simpa [mkEdge] using (Denotes.edge h : Denotes st ok lf Q (.edge none _ _ n) _)

theorem splitEdge_spec {P p r : List Bool} {c : InternalNode} {tc : Trie F} {v : F}
    (hc : Denotes st ok lf (P ++ p) c tc) (hne : ¬ p <+: r) (hlen : p.length ≤ r.length)
    (hv : lf (P ++ r) = some v) :
    Denotes st ok lf P (splitEdge P.length p c (P ++ r)) (Patricia.split p tc r v) := by
  obtain ⟨a,x,e',r',rfl,rfl,hs⟩ := split_decomp tc v hne hlen
  rw [hs]
  have hcommon : commonPath P.length (a ++ x :: e') (P ++ (a ++ (!x) :: r')) = a := by
    have hx : (!x) ≠ x := by cases x <;> decide
    simp [commonPath,commonLength_append_cons _ _ _ hx]
  have hold : Denotes st ok lf (P ++ a ++ [x])
      (if e'.isEmpty then c else .edge none (P ++ a ++ [x]).length e' c) (mkEdge e' tc) :=
    denotes_elide (by simpa using hc)
  have hnew : Denotes st ok lf (P ++ a ++ [!x])
      (if r'.isEmpty then .leaf else .edge none (P ++ a ++ [!x]).length r' .leaf)
      (mkEdge r' (leaf v)) :=
    denotes_elide (.leaf (by simpa using hv))
  have hbranch : Denotes st ok lf (P ++ a)
      (if !x then .binary none (P ++ a).length
          (if e'.isEmpty then c else .edge none (P ++ a ++ [x]).length e' c)
          (if r'.isEmpty then .leaf else .edge none (P ++ a ++ [!x]).length r' .leaf)
        else .binary none (P ++ a).length
          (if r'.isEmpty then .leaf else .edge none (P ++ a ++ [!x]).length r' .leaf)
          (if e'.isEmpty then c else .edge none (P ++ a ++ [x]).length e' c))
      (if x then .binary (mkEdge r' (leaf v)) (mkEdge e' tc)
        else .binary (mkEdge e' tc) (mkEdge r' (leaf v))) := by
    cases x
    · exact .binary hold hnew
    · exact .binary hnew hold
  have hd : (P ++ (a ++ (!x) :: r')).drop (P.length + a.length + 1) = r' := by
    have hk : P ++ (a ++ (!x) :: r') = (P ++ a ++ [!x]) ++ r' := by simp
    rw [hk,List.drop_left']
    simp; omega
  simpa [splitEdge,hcommon,hd,List.getD_append,Nat.add_assoc] using denotes_elide hbranch

theorem walk_spec {dst : List Bool} {root : InternalNode} {t : Trie F}
    (hdst : dst.length = HEIGHT) (hr : Denotes st ok lf [] root t) (hw : t.WF HEIGHT) :
    ∃ frames last afs tl, walk HEIGHT st dst root = .ok (frames,last) ∧
      FramesDenote st ok lf frames afs ∧ Denotes st ok lf (walked afs) last tl ∧
      Patricia.plug afs tl = t ∧ walked afs <+: dst ∧ WalkEnd dst afs last ∧
      tl.WF (HEIGHT - (walked afs).length) := by
  have hf : 2 * (HEIGHT - (walked ([] : List (Patricia.Frame F))).length) + root.rounds ≤
      2 * HEIGHT + 2 := by
    have := root.rounds_le; simp; omega
  exact traverse_spec hdst _ root [] [] t trivial hr List.nil_prefix hw hf

theorem deleteFrom_spec {t : MerkleTree F} :
    ∀ {fs : List PathFrame} {afs : List (Patricia.Frame F)} {m : ℕ} {e : Bool}
      (removed : List ℕ), FramesDenote st ok lf fs afs → FramesWF afs m e HEIGHT →
      ∃ t', deleteFrom HEIGHT st t fs removed = .ok t' ∧ t'.leaves = t.leaves ∧
        OptDenotes st ok lf t'.root (deleteAbove afs)
  | [], [], _, _, removed, _, _ => ⟨_,rfl,rfl,trivial⟩
  | .edge si h p :: fs, .edge p' :: afs, m, e, removed, hfr, hwf => by
    obtain ⟨hp,-,hwf'⟩ := hwf
    obtain ⟨t',he,hl,hd⟩ := deleteFrom_spec (removed ++ si.toList) hfr.2.2 hwf'
    exact ⟨t',he,hl,hd⟩
  | .binary si h d s :: fs, .binary d' s' :: afs, m, e, removed, hfr, hwf => by
    obtain ⟨rfl,rfl,hs,hfs⟩ := hfr
    obtain ⟨hws,hwf'⟩ := hwf
    have hlen := hwf'.walked_length
    obtain ⟨n0,dropped,h0,hn0⟩ := @mergeEdges_spec F HEIGHT st ok lf _ _ none _ _ hs
      (by simp; rwa [show HEIGHT - ((walked afs).length + 1) = m by omega])
    cases fs with
    | nil =>
      cases afs with
      | nil =>
        simp only [deleteFrom,mergeParent,h0,except_ok_bind]
        simpa [OptDenotes,deleteAbove,plug,Patricia.plug,walked] using hn0
      | cons g afs => exact hfs.elim
    | cons f fs =>
      cases f with
      | binary psi ph pd ps =>
        cases afs with
        | nil => exact hfs.elim
        | cons g afs =>
          cases g with
          | edge pp => exact hfs.elim
          | binary pd' ps' =>
            simpa [deleteFrom,mergeParent,h0,OptDenotes,deleteAbove] using denotes_plug hfs hn0
      | edge psi ph pp =>
        cases afs with
        | nil => exact hfs.elim
        | cons g afs =>
          cases g with
          | binary pd' ps' => exact hfs.elim
          | edge pp' =>
            obtain ⟨rfl,rfl,hfs'⟩ := hfs
            obtain ⟨hpp,-,hwf''⟩ := hwf'
            have hlen' := hwf''.walked_length
            have hn0' : Denotes st ok lf (walked afs ++ pp') n0 (extend [!d'] s') := by
              simpa [walked,Frame.bits] using hn0
            obtain ⟨n1,dropped',h1,hn1⟩ := @mergeEdges_spec F HEIGHT st ok lf _ _ psi _ _ hn0'
              (wf_extend (by simp) (by simp; omega) (by simp at hlen' ⊢; rwa [show HEIGHT -
                ((walked afs).length + pp'.length) - 1 = m by omega]))
            simpa [deleteFrom,mergeParent,h0,h1,OptDenotes,deleteAbove] using denotes_plug hfs' hn1

end Update

section Represents
variable {F : Type} {HEIGHT : ℕ} {st : Storage F} {ok : ℕ → Trie F → Prop}

theorem represents_empty : Represents HEIGHT st ok (MerkleTree.empty : MerkleTree F) fun _ => none := by
  simp [Represents,OptDenotes,MerkleTree.empty,build_eq_none]

theorem represents_new_of_build {root : ℕ} {T : Trie F} {m : List Bool → Option F}
    (hs : Stored st ok st.leaf root [] T) (hb : build HEIGHT m = some T) :
    Represents HEIGHT st ok (MerkleTree.new root) m := by
  simp only [Represents,MerkleTree.new,hb,OptDenotes]
  exact .unresolved (hs.congr fun k _ => by simp [leafValue])

theorem represents_new {root : ℕ} {T : Trie F} (hs : Stored st ok st.leaf root [] T)
    (hw : T.WF HEIGHT) : Represents HEIGHT st ok (MerkleTree.new root) T.find :=
  represents_new_of_build hs (build_eq_of_wf hw fun _ _ => rfl)

theorem represents_root_none {t : MerkleTree F} {m : List Bool → Option F}
    (ht : Represents HEIGHT st ok t m) (hr : t.root = none) : build HEIGHT m = none := by
  unfold Represents at ht
  rw [hr] at ht
  cases hb : build HEIGHT m with
  | none => rfl
  | some T => rw [hb] at ht; exact ht.elim

theorem represents_root_some {t : MerkleTree F} {m : List Bool → Option F} {root : InternalNode}
    (ht : Represents HEIGHT st ok t m) (hr : t.root = some root) :
    ∃ T, build HEIGHT m = some T ∧ Denotes st ok (leafValue t.leaves st) [] root T := by
  unfold Represents at ht
  rw [hr] at ht
  cases hb : build HEIGHT m with
  | none => rw [hb] at ht; exact ht.elim
  | some T => rw [hb] at ht; exact ⟨T,rfl,ht⟩

theorem deleteLeaf_represents {t : MerkleTree F} {m : List Bool → Option F} {key : List Bool}
    (hk : key.length = HEIGHT) (ht : Represents HEIGHT st ok t m) :
    ∃ t', deleteLeaf HEIGHT st t key = .ok t' ∧
      Represents HEIGHT st ok t' (Function.update m key none) := by
  cases hr : t.root with
  | none =>
    have hb := represents_root_none ht hr
    refine ⟨t,by simp [deleteLeaf,hr],?_⟩
    have hm : ∀ k, k.length = HEIGHT → m k = none := fun k hk' => by
      simpa [hb] using (findOpt_build m hk').symm
    have hb' : build HEIGHT (Function.update m key none) = none :=
      build_eq_none fun k hk' => by by_cases hkk : k = key <;> simp [hkk,hm k hk']
    simp [Represents,hr,hb',OptDenotes]
  | some root =>
    obtain ⟨T,hb,hT⟩ := represents_root_some ht hr
    have hwT := wf_build HEIGHT m T hb
    obtain ⟨frames,last,afs,tl,hw,hfr,hl,hplug,hpre,hend,hwl⟩ := walk_spec hk hT hwT
    cases hl with
    | @leaf _ v hv =>
      have hX : ∀ q, (leaf v).find q = if q = [] then some v else none := find_leaf v
      rw [← hplug] at hwT hb
      obtain ⟨m0,hfw,hw0⟩ := wf_plug_inv hwT
      obtain ⟨t',hd,hleaves,hod⟩ := @deleteFrom_spec F HEIGHT st ok _ t _ _ _ _ [] hfr hfw
      refine ⟨t',by simp [deleteLeaf,hr,hw,hd],?_⟩
      have hkey : walked afs ++ [] = key := by simpa [WalkEnd] using hend
      have hb' : build HEIGHT (Function.update m key none) = deleteAbove afs := by
        refine build_eq_of_findOpt (wf_deleteAbove hX hfw hw0) fun k hk' => ?_
        rw [findOpt_deleteAbove hX k,hkey]
        by_cases hkk : k = key
        · simp [hkk]
        · have hf := findOpt_build m hk'
          rw [hb,findOpt_some] at hf
          simp [hkk,hf]
      simpa [Represents,hb',hleaves] using hod
    | @edge si _ p c tc hc =>
      obtain ⟨r,rfl⟩ := hpre
      have hend' : ¬ p <+: r := by simpa [WalkEnd] using hend
      have hmk : m (walked afs ++ r) = none := by
        have hf := findOpt_build m hk
        rw [hb,findOpt_some,← hplug,find_plug_walked,find_edge_eq_none _ hend'] at hf
        exact hf.symm
      rw [Function.update_eq_self_iff.mpr hmk.symm]
      simpa [deleteLeaf,hr,hw,Represents,OptDenotes,hb,leafValue,← hplug] using
        denotes_plug hfr (.edge hc)
    | unresolved => exact hend.elim
    | binary => exact hend.elim

theorem setValue_represents [DecidableEq F] [Zero F] (hH : 0 < HEIGHT) {t : MerkleTree F}
    {m : List Bool → Option F} {key : List Bool} {value : F} (hv : value ≠ 0)
    (hk : key.length = HEIGHT) (ht : Represents HEIGHT st ok t m) :
    ∃ t', set HEIGHT st t key value = .ok t' ∧
      Represents HEIGHT st ok t' (Function.update m key (some value)) := by
  have hlf : ∀ k, k ≠ key → leafValue t.leaves st k =
      leafValue (Function.update t.leaves key (some value)) st k := by
    intro k hkk; simp [leafValue_update,hkk]
  cases hr : t.root with
  | none =>
    have hb := represents_root_none ht hr
    have hm : ∀ k, k.length = HEIGHT → m k = none := fun k hk' => by
      simpa [hb] using (findOpt_build m hk').symm
    have hkne : key ≠ [] := by rintro rfl; simp at hk; omega
    have hb' : build HEIGHT (Function.update m key (some value)) = some (edge key (leaf value)) := by
      refine build_eq_of_wf ⟨hkne,Nat.le_of_eq hk,rfl,by simp [hk,Trie.WF]⟩ fun k hk' => ?_
      by_cases hkk : k = key <;> simp [find_edge_leaf,hkk,hm k hk']
    have hl : Denotes st ok (leafValue (Function.update t.leaves key (some value)) st) []
        (.edge none 0 key .leaf) (edge key (leaf value)) := .edge (.leaf (by simp [leafValue]))
    simpa [set,hv,hr,Represents,hb',OptDenotes] using hl
  | some root =>
    obtain ⟨T,hb,hT⟩ := represents_root_some ht hr
    have hwT := wf_build HEIGHT m T hb
    obtain ⟨frames,last,afs,tl,hw,hfr,hl,hplug,hpre,hend,hwl⟩ := walk_spec hk hT hwT
    have hfr' := hfr.congr hpre hlf
    rw [← hplug] at hwT hb
    cases hl with
    | @leaf _ v0 hv0 =>
      have hkey : walked afs = key := hend
      obtain ⟨m0,hfw,hw0⟩ := wf_plug_inv hwT
      have hA : ∀ q, (leaf value).find q = if q = [] then some value else (leaf v0).find q := by
        intro q; by_cases hq : q = [] <;> simp [find_leaf,hq]
      have hb' := build_update_plug hb hA (wf_plug hfw hw0)
      rw [List.append_nil,hkey] at hb'
      simpa [set,hv,hr,hw,Represents,hb',OptDenotes] using
        denotes_plug hfr' (.leaf (by simp [leafValue,hkey]))
    | @edge si _ p c tc hc =>
      obtain ⟨r,rfl⟩ := hpre
      have hend' : ¬ p <+: r := by simpa [WalkEnd] using hend
      obtain ⟨m0,hfw,hw0⟩ := wf_plug_inv hwT
      have hm0 : m0 = r.length := by
        have := hfw.walked_length
        simp at hk; omega
      have hlen : p.length ≤ r.length := hm0 ▸ hw0.2.1
      have hA := find_split tc value hend' hlen
      have hwA : (Patricia.split p tc r value).WF m0 := wf_split value hend' hw0 hm0.symm
      have hb' := build_update_plug hb hA (wf_plug (hfw.of_true _) hwA)
      have hc' : Denotes st ok (leafValue (Function.update t.leaves (walked afs ++ r) (some value)) st)
          (walked afs ++ p) c tc := by
        refine hc.congr fun k hpk => hlf k ?_
        rintro rfl
        exact hend' ((List.prefix_append_right_inj _).mp hpk)
      have hsplit := splitEdge_spec (v := value) hc' hend' hlen (by rw [leafValue_update]; simp)
      simpa [set,hv,hr,hw,Represents,hb',OptDenotes] using denotes_plug hfr' hsplit
    | unresolved => exact hend.elim
    | binary => exact hend.elim

theorem get_represents {t : MerkleTree F} {m : List Bool → Option F} {key : List Bool}
    (hk : key.length = HEIGHT) (ht : Represents HEIGHT st ok t m) :
    ∃ t', get HEIGHT st t key = .ok (m key,t') ∧ Represents HEIGHT st ok t' m := by
  cases hr : t.root with
  | none =>
    have hb := represents_root_none ht hr
    have hm : m key = none := by simpa [hb] using (findOpt_build m hk).symm
    exact ⟨t,by simp [get,hr,hm],ht⟩
  | some root =>
    obtain ⟨T,hb,hT⟩ := represents_root_some ht hr
    have hwT := wf_build HEIGHT m T hb
    obtain ⟨frames,last,afs,tl,hw,hfr,hl,hplug,hpre,hend,hwl⟩ := walk_spec hk hT hwT
    have hmk : m key = T.find key := by
      have hf := findOpt_build m hk
      rw [hb,findOpt_some] at hf
      exact hf.symm
    have ht' : Represents HEIGHT st ok { t with root := some (plug frames last) } m := by
      simpa [Represents,OptDenotes,hb,← hplug] using denotes_plug hfr hl
    cases hl with
    | @leaf _ v hv =>
      have hkey : walked afs = key := hend
      have hv' : m key = some v := by
        rw [hmk,← hplug,← hkey,← List.append_nil (walked afs),find_plug_walked]; rfl
      refine ⟨_,?_,ht'⟩
      rw [hkey] at hv
      cases hl : t.leaves key with
      | some w =>
        have hw' : w = v := by simpa [leafValue,hl] using hv
        simp [get,hr,hw,hl,hv',hw']
      | none =>
        have hs : st.leaf key = some v := by simpa [leafValue,hl] using hv
        simp [get,hr,hw,hl,hv',hs]
    | @edge si _ p c tc hc =>
      obtain ⟨r,rfl⟩ := hpre
      have hend' : ¬ p <+: r := by simpa [WalkEnd] using hend
      have hv' : m (walked afs ++ r) = none := by
        rw [hmk,← hplug,find_plug_walked,find_edge_eq_none _ hend']
      exact ⟨_,by simp [get,hr,hw,hv'],ht'⟩
    | unresolved => exact hend.elim
    | binary => exact hend.elim

theorem set_represents [DecidableEq F] [Zero F] (hH : 0 < HEIGHT) {t : MerkleTree F}
    {m : List Bool → Option F} {key : List Bool} {value : F}
    (hk : key.length = HEIGHT) (ht : Represents HEIGHT st ok t m) :
    ∃ t', set HEIGHT st t key value = .ok t' ∧ Represents HEIGHT st ok t' (written m key value) := by
  by_cases hv : value = 0
  · obtain ⟨t',hd,ht'⟩ := deleteLeaf_represents hk ht
    exact ⟨t',by simp [set,hv,hd],by simpa [written,hv] using ht'⟩
  · obtain ⟨t',hs,ht'⟩ := setValue_represents hH hv hk ht
    exact ⟨t',hs,by simpa [written,hv] using ht'⟩

end Represents

section Run
variable {F : Type} [DecidableEq F] [Zero F] (HEIGHT : ℕ) (st : Storage F)

def setAll (t : MerkleTree F) : List (List Bool × F) → Except String (MerkleTree F)
  | [] => .ok t
  | (k,v) :: ops => do
    let t' ← set HEIGHT st t k v
    setAll t' ops

def writtenAll (m : List Bool → Option F) : List (List Bool × F) → List Bool → Option F
  | [] => m
  | (k,v) :: ops => writtenAll (written m k v) ops

variable {HEIGHT st} {ok : ℕ → Trie F → Prop}

theorem setAll_represents (hH : 0 < HEIGHT) :
    ∀ {t : MerkleTree F} {m : List Bool → Option F} (ops : List (List Bool × F)),
      Represents HEIGHT st ok t m → (∀ op ∈ ops, op.1.length = HEIGHT) →
      ∃ t', setAll HEIGHT st t ops = .ok t' ∧ Represents HEIGHT st ok t' (writtenAll m ops)
  | t, m, [], ht, _ => ⟨t,rfl,ht⟩
  | t, m, (k,v) :: ops, ht, hops => by
    obtain ⟨t1,h1,ht1⟩ := @set_represents F HEIGHT st ok _ _ hH t m k v (hops (k,v) (by simp)) ht
    obtain ⟨t2,h2,ht2⟩ := setAll_represents hH ops ht1 fun op hop => hops op (by simp [hop])
    exact ⟨t2,by simp [setAll,h1,h2],ht2⟩

theorem setAll_wellFormed (hH : 0 < HEIGHT) (ops : List (List Bool × F))
    (hops : ∀ op ∈ ops, op.1.length = HEIGHT) :
    (∃ t', setAll HEIGHT st MerkleTree.empty ops = .ok t' ∧
      Represents HEIGHT st ok t' (writtenAll (fun _ => none) ops)) ∧
    ∀ (root : ℕ) (T : Trie F), Stored st ok st.leaf root [] T → T.WF HEIGHT →
      ∃ t', setAll HEIGHT st (MerkleTree.new root) ops = .ok t' ∧
        Represents HEIGHT st ok t' (writtenAll T.find ops) :=
  ⟨setAll_represents hH ops represents_empty hops,
    fun _ _ hs hw => setAll_represents hH ops (represents_new hs hw) hops⟩

theorem setAll_wellFormed_two_bits :
    let st : Storage ℕ := ⟨fun _ => none,fun _ => none,fun _ => none⟩
    let ops : List (List Bool × ℕ) := [([true,false],5),([false,false],7),([true,false],0)]
    0 < 2 ∧ (∀ op ∈ ops, op.1.length = 2) ∧
    ((∃ t', setAll 2 st MerkleTree.empty ops = .ok t' ∧
      Represents 2 st (fun _ _ => True) t' (writtenAll (fun _ => none) ops)) ∧
    ∀ (root : ℕ) (T : Trie ℕ), Stored st (fun _ _ => True) st.leaf root [] T → T.WF 2 →
      ∃ t', setAll 2 st (MerkleTree.new root) ops = .ok t' ∧
        Represents 2 st (fun _ _ => True) t' (writtenAll T.find ops)) :=
  ⟨by decide,by decide,setAll_wellFormed (by decide) _ (by decide)⟩

end Run

end Merkle
end Pathfinder
