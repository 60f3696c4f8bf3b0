import Pathfinder.Patricia.Trie

/-! Walks into a Patricia trie as zippers: the frames passed on the way down, the trie
rebuilt around the hole, and the two local rewrites an update makes at the end of a
walk: splitting an edge that the new key leaves, and deleting a leaf together with the
branch above it. -/
namespace Pathfinder
namespace Patricia

open Trie

theorem dropPrefix_append_append (a p s : List Bool) :
    dropPrefix (a ++ p) (a ++ s) = dropPrefix p s := by
  induction a with
  | nil => rfl
  | cons b a ih => simp [dropPrefix,ih]

section Leaf
variable {α : Type}

theorem find_edge_leaf (p : List Bool) (v : α) (q : List Bool) :
    (edge p (leaf v)).find q = if q = p then some v else none := by
  cases hd : dropPrefix p q with
  | none =>
    have hq : q ≠ p := by rintro rfl; simp at hd
    simp [find_edge,hd,hq]
  | some s =>
    obtain rfl := dropPrefix_eq_some.mp hd
    cases s <;> simp [find]

theorem find_edge_cons (x y : Bool) (p : List Bool) (c : Trie α) (s : List Bool) :
    (edge (x::p) c).find (y::s) = if x = y then (edge p c).find s else none := by
  by_cases h : x = y <;> simp [find_edge,dropPrefix,h]

theorem find_edge_append_left (a p : List Bool) (c : Trie α) (s : List Bool) :
    (edge (a ++ p) c).find (a ++ s) = (edge p c).find s := by
  simp only [find_edge,dropPrefix_append_append]

end Leaf

/-- One step down from a node: into a binary branch towards `dir`, or along an edge. -/
inductive Frame (α : Type) where
  | binary (dir : Bool) (sibling : Trie α)
  | edge (path : List Bool)

namespace Frame
variable {α : Type}

def bits : Frame α → List Bool
  | binary d _ => [d]
  | edge p => p

def fill : Frame α → Trie α → Trie α
  | binary d s, t => if d then .binary s t else .binary t s
  | edge p, t => .edge p t

theorem find_fill_bits (f : Frame α) (t : Trie α) (r : List Bool) :
    (f.fill t).find (f.bits ++ r) = t.find r := by
  cases f with
  | binary d s => cases d <;> rfl
  | edge p => simp [fill,bits]

theorem find_fill_off_bits (f : Frame α) (t t' : Trie α) {r : List Bool}
    (h : ¬ f.bits <+: r) : (f.fill t).find r = (f.fill t').find r := by
  cases f with
  | binary d s =>
    cases r with
    | nil => cases d <;> rfl
    | cons b r =>
      have hb : b = !d := by
        cases b <;> cases d <;> simp_all [bits]
      subst hb; cases d <;> rfl
  | edge p =>
    have h' : ¬ p <+: r := h
    simp only [fill]
    rw [find_edge_eq_none _ h',find_edge_eq_none _ h']

end Frame

section Plug
variable {α : Type}

def plug : List (Frame α) → Trie α → Trie α
  | [], t => t
  | f::fs, t => plug fs (f.fill t)

def walked : List (Frame α) → List Bool
  | [] => []
  | f::fs => walked fs ++ f.bits

theorem find_plug_walked (fs : List (Frame α)) (t : Trie α) (r : List Bool) :
    (plug fs t).find (walked fs ++ r) = t.find r := by
  induction fs generalizing t r with
  | nil => rfl
  | cons f fs ih => simp only [plug,walked,List.append_assoc,ih,Frame.find_fill_bits]

theorem find_plug_off_walked (fs : List (Frame α)) (t t' : Trie α) {k : List Bool}
    (h : ¬ walked fs <+: k) : (plug fs t).find k = (plug fs t').find k := by
  induction fs generalizing t t' with
  | nil => simp [walked] at h
  | cons f fs ih =>
    simp only [plug]
    by_cases hp : walked fs <+: k
    · obtain ⟨r,rfl⟩ := hp
      rw [find_plug_walked,find_plug_walked]
      apply Frame.find_fill_off_bits
      intro hf
      exact h ((List.prefix_append_right_inj (walked fs)).mpr hf)
    · exact ih _ _ hp

theorem find_plug_update {fs : List (Frame α)} {A B : Trie α} {w : List Bool} {x : Option α}
    (h : ∀ q, A.find q = if q = w then x else B.find q) (k : List Bool) :
    (plug fs A).find k = if k = walked fs ++ w then x else (plug fs B).find k := by
  by_cases hp : walked fs <+: k
  · obtain ⟨q,rfl⟩ := hp
    simp only [find_plug_walked,h,List.append_cancel_left_eq]
  · have hk : k ≠ walked fs ++ w := fun he => hp (he ▸ List.prefix_append _ _)
    simp [find_plug_off_walked fs A B hp,hk]

def FramesWF : List (Frame α) → ℕ → Bool → ℕ → Prop
  | [], m, _, n => m = n
  | .binary _ s :: fs, m, _, n => s.WF m ∧ FramesWF fs (m+1) false n
  | .edge p :: fs, m, e, n => p ≠ [] ∧ e = false ∧ FramesWF fs (m+p.length) true n

theorem wf_plug {fs : List (Frame α)} {m n : ℕ} {t : Trie α} (hf : FramesWF fs m t.isEdge n)
    (ht : t.WF m) : (plug fs t).WF n := by
  induction fs generalizing m t with
  | nil => exact (show m = n from hf) ▸ ht
  | cons f fs ih =>
    cases f with
    | binary d s =>
      obtain ⟨hs,hfs⟩ := hf
      cases d
      · exact ih (m := m+1) hfs ⟨by omega,by simpa using ht,by simpa using hs⟩
      · exact ih (m := m+1) hfs ⟨by omega,by simpa using hs,by simpa using ht⟩
    | edge p =>
      obtain ⟨hp,he,hfs⟩ := hf
      exact ih (m := m+p.length) hfs ⟨hp,by omega,he,by simpa using ht⟩

theorem wf_plug_inv {fs : List (Frame α)} {n : ℕ} {t : Trie α} (h : (plug fs t).WF n) :
    ∃ m, FramesWF fs m t.isEdge n ∧ t.WF m := by
  induction fs generalizing t with
  | nil => exact ⟨n,rfl,h⟩
  | cons f fs ih =>
    obtain ⟨m',hf,hw⟩ := ih h
    cases f with
    | binary d s =>
      cases d
      · obtain ⟨hm,ht,hs⟩ := hw
        exact ⟨m'-1,⟨hs,by rwa [Nat.sub_add_cancel hm]⟩,ht⟩
      · obtain ⟨hm,hs,ht⟩ := hw
        exact ⟨m'-1,⟨hs,by rwa [Nat.sub_add_cancel hm]⟩,ht⟩
    | edge p =>
      obtain ⟨hp,hpm,he,ht⟩ := hw
      exact ⟨m'-p.length,⟨hp,he,by rwa [Nat.sub_add_cancel hpm]⟩,ht⟩

theorem FramesWF.walked_length {fs : List (Frame α)} {m n : ℕ} {e : Bool}
    (h : FramesWF fs m e n) : m + (walked fs).length = n := by
  induction fs generalizing m e with
  | nil => exact h
  | cons f fs ih =>
    cases f with
    | binary d s => have := ih h.2; simp [walked,Frame.bits] at this ⊢; omega
    | edge p => have := ih h.2.2; simp [walked,Frame.bits] at this ⊢; omega

theorem FramesWF.of_true {fs : List (Frame α)} {m n : ℕ} (e : Bool) (h : FramesWF fs m true n) :
    FramesWF fs m e n := by
  cases fs with
  | nil => exact h
  | cons f fs =>
    cases f with
    | binary d s => exact h
    | edge p => exact absurd h.2.1 (by simp)

theorem build_update_plug {fs : List (Frame α)} {A B : Trie α} {w : List Bool} {x : Option α}
    {n : ℕ} {f : List Bool → Option α} (hB : build n f = some (plug fs B))
    (hA : ∀ q, A.find q = if q = w then x else B.find q) (hw : (plug fs A).WF n) :
    build n (Function.update f (walked fs ++ w) x) = some (plug fs A) := by
  refine build_eq_of_wf hw fun k hk => ?_
  rw [find_plug_update hA k]
  by_cases hkw : k = walked fs ++ w
  · simp [hkw]
  · have hf := findOpt_build f hk
    rw [hB,findOpt_some] at hf
    simp [hkw,hf]

end Plug

section Split
variable {α : Type}

def split (e : List Bool) (c : Trie α) (r : List Bool) (v : α) : Trie α :=
  let j := commonLength r e
  let new := mkEdge (r.drop (j+1)) (leaf v)
  let old := mkEdge (e.drop (j+1)) c
  mkEdge (e.take j) (if r.getD j false then .binary old new else .binary new old)

theorem split_decomp {e r : List Bool} (c : Trie α) (v : α) (hne : ¬ e <+: r)
    (hlen : e.length ≤ r.length) :
    ∃ a x e' r', e = a ++ x :: e' ∧ r = a ++ (!x) :: r' ∧
      split e c r v = mkEdge a (if x then .binary (mkEdge r' (leaf v)) (mkEdge e' c)
        else .binary (mkEdge e' c) (mkEdge r' (leaf v))) := by
  have htake := take_commonLength r e
  have hle := commonLength_le_right r e
  set j := commonLength r e with hj
  have hje : j < e.length := by
    by_contra hc
    have he : e.take j = e := List.take_of_length_le (by omega)
    exact hne ⟨r.drop j,by rw [← he,← htake,List.take_append_drop]⟩
  have hjr : j < r.length := by omega
  have hne' := getD_commonLength r e hjr hje
  rw [← hj] at hne'
  have hx : r[j] = !e[j] := by
    rw [List.getD_eq_getElem _ _ hjr,List.getD_eq_getElem _ _ hje] at hne'
    revert hne'; cases r[j] <;> cases e[j] <;> simp
  have he : e = e.take j ++ e[j] :: e.drop (j+1) := by
    rw [← List.drop_eq_getElem_cons hje,List.take_append_drop]
  have hr : r = e.take j ++ r[j] :: r.drop (j+1) := by
    rw [← htake,← List.drop_eq_getElem_cons hjr,List.take_append_drop]
  refine ⟨e.take j,e[j],e.drop (j+1),r.drop (j+1),he,hx ▸ hr,?_⟩
  simp only [split,← hj,List.getD_eq_getElem _ _ hjr,hx]
  cases e[j] <;> rfl

theorem find_split {e r : List Bool} (c : Trie α) (v : α) (hne : ¬ e <+: r)
    (hlen : e.length ≤ r.length) (q : List Bool) :
    (split e c r v).find q = if q = r then some v else (edge e c).find q := by
  obtain ⟨a,x,e',r',rfl,rfl,hs⟩ := split_decomp c v hne hlen
  rw [hs,find_mkEdge]
  cases hd : dropPrefix a q with
  | none =>
    have ha := dropPrefix_eq_none.mp hd
    have hq : q ≠ a ++ (!x) :: r' := by rintro rfl; exact ha (List.prefix_append _ _)
    have hn : ¬ a ++ x :: e' <+: q := fun h => ha ((List.prefix_append _ _).trans h)
    simp [find_edge,hd,hq,find_edge_eq_none _ hn]
  | some s =>
    obtain rfl := dropPrefix_eq_some.mp hd
    simp only [find_edge_append,find_edge_append_left,List.append_cancel_left_eq]
    cases s with
    | nil => cases x <;> simp [find_edge,dropPrefix]
    | cons y s =>
      cases x <;> cases y <;> simp [find_mkEdge,find_edge_leaf,find_edge_cons]

theorem wf_split {m : ℕ} {e r : List Bool} {c : Trie α} (v : α) (hne : ¬ e <+: r)
    (hw : (edge e c).WF m) (hr : r.length = m) : (split e c r v).WF m := by
  obtain ⟨-,hem,hc,hcw⟩ := hw
  obtain ⟨a,x,e',r',rfl,rfl,hs⟩ := split_decomp c v hne (by omega)
  simp only [List.length_append,List.length_cons] at hem hcw hr
  rw [hs]
  have hnew : (mkEdge r' (leaf v)).WF (m - a.length - 1) :=
    wf_mkEdge (by omega) rfl (by simp [WF]; omega)
  have hold : (mkEdge e' c).WF (m - a.length - 1) :=
    wf_mkEdge (by omega) hc (by rwa [show m - a.length - 1 - e'.length = m - (a.length + (e'.length + 1)) by omega])
  apply wf_mkEdge (by omega) (by cases x <;> rfl)
  cases x
  · exact ⟨by omega,hold,hnew⟩
  · exact ⟨by omega,hnew,hold⟩

end Split

section Delete
variable {α : Type}

def deleteAbove : List (Frame α) → Option (Trie α)
  | [] => none
  | .edge _ :: fs => deleteAbove fs
  | .binary d s :: fs =>
    some (match fs with
      | .edge p :: fs' => plug fs' (extend p (extend [!d] s))
      | fs => plug fs (extend [!d] s))

theorem find_extend_sibling {X : Trie α} {w : List Bool} {v : α} (d : Bool) (s : Trie α)
    (hX : ∀ q, X.find q = if q = w then some v else none) (q : List Bool) :
    (extend [!d] s).find q = if q = d :: w then none else ((Frame.binary d s).fill X).find q := by
  rw [find_extend]
  cases q with
  | nil => cases d <;> rfl
  | cons y q =>
    cases d <;> cases y <;> simp [find_edge,dropPrefix,Frame.fill,hX]

theorem findOpt_deleteAbove {fs : List (Frame α)} {X : Trie α} {w : List Bool} {v : α}
    (hX : ∀ q, X.find q = if q = w then some v else none) (k : List Bool) :
    findOpt (deleteAbove fs) k = if k = walked fs ++ w then none else (plug fs X).find k := by
  induction fs generalizing X w with
  | nil =>
    simp only [deleteAbove,findOpt_none,walked,List.nil_append,plug,hX]
    split <;> rfl
  | cons f fs ih =>
    cases f with
    | edge p =>
      have hX' : ∀ q, ((Frame.edge p).fill X).find q = if q = p ++ w then some v else none := by
        intro q
        by_cases hp : p <+: q
        · obtain ⟨r,rfl⟩ := hp
          simp [Frame.fill,hX]
        · have hq : q ≠ p ++ w := fun he => hp (he ▸ List.prefix_append _ _)
          simp [Frame.fill,find_edge_eq_none _ hp,hq]
      simpa [deleteAbove,plug,walked,List.append_assoc,Frame.bits] using ih hX'
    | binary d s =>
      have hN := find_extend_sibling d s hX
      have hw : walked (Frame.binary d s :: fs) ++ w = walked fs ++ (d :: w) := by
        simp [walked,Frame.bits]
      rw [hw]
      simp only [deleteAbove,findOpt_some,plug]
      split
      · rename_i p fs'
        have hM : ∀ q, (extend p (extend [!d] s)).find q =
            if q = p ++ d :: w then none else ((Frame.edge p).fill ((Frame.binary d s).fill X)).find q := by
          intro q
          rw [find_extend,Frame.fill]
          exact @find_plug_update _ [Frame.edge p] _ _ _ _ hN q
        simpa [plug,walked,Frame.bits,List.append_assoc] using @find_plug_update _ fs' _ _ _ _ hM k
      · exact find_plug_update hN k

theorem wf_deleteAbove {fs : List (Frame α)} {X : Trie α} {w : List Bool} {v : α} {m n : ℕ}
    (hX : ∀ q, X.find q = if q = w then some v else none) (hf : FramesWF fs m X.isEdge n)
    (hw : X.WF m) : ∀ t, deleteAbove fs = some t → t.WF n := by
  induction fs generalizing X w m with
  | nil => simp [deleteAbove]
  | cons f fs ih =>
    cases f with
    | edge p =>
      obtain ⟨hp,he,hfs⟩ := hf
      have hX' : ∀ q, (edge p X).find q = if q = p ++ w then some v else none := by
        intro q
        by_cases hq : p <+: q
        · obtain ⟨r,rfl⟩ := hq
          simp [hX]
        · have hq' : q ≠ p ++ w := fun h => hq (h ▸ List.prefix_append _ _)
          simp [find_edge_eq_none _ hq,hq']
      exact ih hX' hfs ⟨hp,by omega,he,by simpa using hw⟩
    | binary d s =>
      obtain ⟨hs,hfs⟩ := hf
      have hN : (extend [!d] s).WF (m+1) := wf_extend (by simp) (by simp) (by simpa using hs)
      intro t ht
      simp only [deleteAbove,Option.some.injEq] at ht
      subst ht
      split
      · rename_i p fs'
        obtain ⟨hp,-,hfs'⟩ := hfs
        exact wf_plug (by simpa using hfs') (wf_extend hp (by omega) (by simpa using hN))
      · rename_i hnot
        refine wf_plug ?_ hN
        cases fs with
        | nil => exact hfs
        | cons g gs =>
          cases g with
          | binary d' s' => exact hfs
          | edge p => exact absurd rfl (hnot p gs)

end Delete

end Patricia
end Pathfinder
