import Mathlib.Data.List.Basic
import Mathlib.Data.List.GetD

/-! Binary Patricia tries over bit-string keys. A trie is canonical at `n` key bits
when every edge is maximal and non-empty and every leaf sits `n` bits down; the
canonical trie of a finite map is computed by `build`, and it is the only one. -/
namespace Pathfinder
namespace Patricia

def dropPrefix : List Bool → List Bool → Option (List Bool)
  | [], k => some k
  | _::_, [] => none
  | a::p, b::k => if a = b then dropPrefix p k else none

theorem dropPrefix_eq_some {p k r : List Bool} : dropPrefix p k = some r ↔ k = p ++ r := by
  induction p generalizing k with
  | nil => simp [dropPrefix,eq_comm]
  | cons a p ih =>
    cases k with
    | nil => simp [dropPrefix]
    | cons b k =>
      by_cases h : a = b
      · subst h; simp [dropPrefix,ih]
      · simp [dropPrefix,h,Ne.symm h]

@[simp] theorem dropPrefix_append (p r : List Bool) : dropPrefix p (p ++ r) = some r :=
  dropPrefix_eq_some.mpr rfl

@[simp] theorem dropPrefix_self (p : List Bool) : dropPrefix p p = some [] :=
  dropPrefix_eq_some.mpr (List.append_nil p).symm

theorem dropPrefix_eq_none {p k : List Bool} : dropPrefix p k = none ↔ ¬ p <+: k := by
  constructor
  · rintro h ⟨r,rfl⟩
    simp at h
  · intro h
    cases hd : dropPrefix p k with
    | none => rfl
    | some r => exact absurd ⟨r,(dropPrefix_eq_some.mp hd).symm⟩ h

def commonLength : List Bool → List Bool → ℕ
  | a::as, b::bs => if a = b then commonLength as bs + 1 else 0
  | _, _ => 0

theorem commonLength_cons_cons (a b : Bool) (as bs : List Bool) :
    commonLength (a::as) (b::bs) = if a = b then commonLength as bs + 1 else 0 := rfl

theorem commonLength_nil_left (bs : List Bool) : commonLength [] bs = 0 := rfl

theorem commonLength_nil_right (as : List Bool) : commonLength as [] = 0 := by
  cases as <;> rfl

theorem commonLength_le_right (as bs : List Bool) : commonLength as bs ≤ bs.length := by
  induction as generalizing bs with
  | nil => simp [commonLength_nil_left]
  | cons a as ih =>
    cases bs with
    | nil => simp [commonLength_nil_right]
    | cons b bs =>
      simp only [commonLength_cons_cons,List.length_cons]
      split <;> have := ih bs <;> omega

theorem take_commonLength (as bs : List Bool) :
    as.take (commonLength as bs) = bs.take (commonLength as bs) := by
  induction as generalizing bs with
  | nil => simp [commonLength_nil_left]
  | cons a as ih =>
    cases bs with
    | nil => simp [commonLength_nil_right]
    | cons b bs =>
      simp only [commonLength_cons_cons]
      split
      · rename_i h; subst h; simp [ih]
      · simp

theorem commonLength_append_cons (a as bs : List Bool) {x y : Bool} (h : x ≠ y) :
    commonLength (a ++ x :: as) (a ++ y :: bs) = a.length := by
  induction a with
  | nil => simp [commonLength_cons_cons,h]
  | cons b a ih => simp [commonLength_cons_cons,ih]

theorem getD_commonLength (as bs : List Bool) (ha : commonLength as bs < as.length)
    (hb : commonLength as bs < bs.length) :
    as.getD (commonLength as bs) false ≠ bs.getD (commonLength as bs) false := by
  induction as generalizing bs with
  | nil => simp at ha
  | cons a as ih =>
    cases bs with
    | nil => simp at hb
    | cons b bs =>
      by_cases h : a = b
      · subst h
        simp only [commonLength_cons_cons,if_true,List.length_cons,Nat.add_lt_add_iff_right] at ha hb ⊢
        simpa using ih bs ha hb
      · simp [commonLength_cons_cons,h]

/-- A binary Patricia trie: leaves, binary branches on one key bit, and edges along a path. -/
inductive Trie (α : Type) where
  | leaf (value : α)
  | binary (left right : Trie α)
  | edge (path : List Bool) (child : Trie α)
  deriving DecidableEq, Repr

namespace Trie
variable {α : Type}

def isEdge : Trie α → Bool
  | edge _ _ => true
  | _ => false

def find : Trie α → List Bool → Option α
  | leaf v, [] => some v
  | leaf _, _::_ => none
  | binary _ _, [] => none
  | binary l r, b::k => if b then r.find k else l.find k
  | edge p c, k =>
    match dropPrefix p k with
    | some r => c.find r
    | none => none

def WF : ℕ → Trie α → Prop
  | n, leaf _ => n = 0
  | n, binary l r => 0 < n ∧ l.WF (n-1) ∧ r.WF (n-1)
  | n, edge p c => p ≠ [] ∧ p.length ≤ n ∧ c.isEdge = false ∧ c.WF (n-p.length)

def hash (hb : α → α → α) (he : α → List Bool → α) : Trie α → α
  | leaf v => v
  | binary l r => hb (l.hash hb he) (r.hash hb he)
  | edge p c => he (c.hash hb he) p

@[simp] theorem find_binary_false (l r : Trie α) (k : List Bool) :
    (binary l r).find (false::k) = l.find k := rfl

@[simp] theorem find_binary_true (l r : Trie α) (k : List Bool) :
    (binary l r).find (true::k) = r.find k := rfl

@[simp] theorem find_binary_nil (l r : Trie α) : (binary l r).find [] = none := rfl

theorem find_edge (p : List Bool) (c : Trie α) (k : List Bool) :
    (edge p c).find k = match dropPrefix p k with
      | some r => c.find r
      | none => none := rfl

@[simp] theorem find_edge_append (p : List Bool) (c : Trie α) (r : List Bool) :
    (edge p c).find (p ++ r) = c.find r := by
  simp [find_edge]

theorem find_edge_eq_none {p k : List Bool} (c : Trie α) (h : ¬ p <+: k) :
    (edge p c).find k = none := by
  simp [find_edge,dropPrefix_eq_none.mpr h]

theorem find_leaf (v : α) (k : List Bool) : (leaf v).find k = if k = [] then some v else none := by
  cases k <;> rfl

theorem WF.exists_leaf_iff {n : ℕ} {t : Trie α} (h : t.WF n) : (∃ v, t = leaf v) ↔ n = 0 := by
  cases t with
  | leaf v => exact ⟨fun _ => h,fun _ => ⟨v,rfl⟩⟩
  | binary l r => simpa using Nat.pos_iff_ne_zero.mp h.1
  | edge p c =>
    obtain ⟨hp,hpn,-⟩ := h
    have := List.length_pos_of_ne_nil hp
    simp; omega

def extend (p : List Bool) : Trie α → Trie α
  | edge q c => edge (p ++ q) c
  | t => edge p t

def mkEdge (p : List Bool) (c : Trie α) : Trie α := if p = [] then c else edge p c

theorem find_extend (p : List Bool) (t : Trie α) (k : List Bool) :
    (extend p t).find k = (edge p t).find k := by
  cases t with
  | edge q c =>
    simp only [extend,find_edge]
    cases hk : dropPrefix p k with
    | none =>
      have hn : ¬ p ++ q <+: k := fun h => (dropPrefix_eq_none.mp hk) ((List.prefix_append p q).trans h)
      simp [dropPrefix_eq_none.mpr hn]
    | some r =>
      obtain rfl := dropPrefix_eq_some.mp hk
      cases hr : dropPrefix q r with
      | none =>
        have hn : ¬ p ++ q <+: p ++ r := by rwa [List.prefix_append_right_inj,← dropPrefix_eq_none]
        simp [dropPrefix_eq_none.mpr hn,hr]
      | some s =>
        obtain rfl := dropPrefix_eq_some.mp hr
        simp [← List.append_assoc]
  | leaf v => rfl
  | binary l r => rfl

@[simp] theorem isEdge_extend (p : List Bool) (t : Trie α) : (extend p t).isEdge = true := by
  cases t <;> rfl

theorem wf_extend {n : ℕ} {p : List Bool} {t : Trie α} (hp : p ≠ []) (hn : p.length ≤ n)
    (ht : t.WF (n - p.length)) : (extend p t).WF n := by
  cases t with
  | edge q c =>
    obtain ⟨hq,hqn,hc,hcw⟩ := ht
    refine ⟨by simp [hp],by simp; omega,hc,?_⟩
    have he : n - (p ++ q).length = n - p.length - q.length := by simp; omega
    rwa [he]
  | leaf v => exact ⟨hp,hn,rfl,ht⟩
  | binary l r => exact ⟨hp,hn,rfl,ht⟩

theorem find_mkEdge (p : List Bool) (c : Trie α) (k : List Bool) :
    (mkEdge p c).find k = (edge p c).find k := by
  by_cases hp : p = []
  · subst hp; simp [mkEdge,find_edge,dropPrefix]
  · simp [mkEdge,hp]

theorem wf_mkEdge {n : ℕ} {p : List Bool} {c : Trie α} (hn : p.length ≤ n)
    (hc : c.isEdge = false) (hw : c.WF (n - p.length)) : (mkEdge p c).WF n := by
  by_cases hp : p = []
  · subst hp; simpa [mkEdge] using hw
  · simp only [mkEdge,hp,if_false]
    exact ⟨hp,hn,hc,hw⟩

end Trie

open Trie

def findOpt {α : Type} : Option (Trie α) → List Bool → Option α
  | none, _ => none
  | some t, k => t.find k

@[simp] theorem findOpt_none {α : Type} (k : List Bool) : findOpt (none : Option (Trie α)) k = none :=
  rfl
@[simp] theorem findOpt_some {α : Type} (t : Trie α) (k : List Bool) : findOpt (some t) k = t.find k :=
  rfl

def combine {α : Type} : Option (Trie α) → Option (Trie α) → Option (Trie α)
  | none, none => none
  | some l, none => some (extend [false] l)
  | none, some r => some (extend [true] r)
  | some l, some r => some (binary l r)

def build {α : Type} : ℕ → (List Bool → Option α) → Option (Trie α)
  | 0, f => (f []).map leaf
  | n+1, f => combine (build n fun k => f (false::k)) (build n fun k => f (true::k))

section Build
variable {α : Type}

theorem findOpt_combine_cons (a b : Option (Trie α)) (x : Bool) (k : List Bool) :
    findOpt (combine a b) (x::k) = if x then findOpt b k else findOpt a k := by
  cases a <;> cases b <;> cases x <;>
    simp [combine,find_extend,find_edge,dropPrefix]

theorem findOpt_build {n : ℕ} (f : List Bool → Option α) {k : List Bool} (hk : k.length = n) :
    findOpt (build n f) k = f k := by
  induction n generalizing f k with
  | zero =>
    obtain rfl := List.eq_nil_of_length_eq_zero hk
    cases h : f [] <;> simp [build,h,find]
  | succ n ih =>
    cases k with
    | nil => simp at hk
    | cons x k =>
      simp only [build,findOpt_combine_cons]
      have hk' : k.length = n := by simpa using hk
      cases x <;> simp [ih _ hk']

theorem wf_combine {n : ℕ} {a b : Option (Trie α)} (ha : ∀ t, a = some t → t.WF n)
    (hb : ∀ t, b = some t → t.WF n) : ∀ t, combine a b = some t → t.WF (n+1) := by
  intro t ht
  cases a with
  | none =>
    cases b with
    | none => simp [combine] at ht
    | some r =>
      obtain rfl : extend [true] r = t := by simpa [combine] using ht
      exact wf_extend (by simp) (by simp) (by simpa using hb r rfl)
  | some l =>
    cases b with
    | none =>
      obtain rfl : extend [false] l = t := by simpa [combine] using ht
      exact wf_extend (by simp) (by simp) (by simpa using ha l rfl)
    | some r =>
      obtain rfl : binary l r = t := by simpa [combine] using ht
      exact ⟨by omega,by simpa using ha l rfl,by simpa using hb r rfl⟩

theorem wf_build (n : ℕ) (f : List Bool → Option α) : ∀ t, build n f = some t → t.WF n := by
  induction n generalizing f with
  | zero =>
    intro t ht
    cases h : f [] <;> simp [build,h] at ht
    subst ht; rfl
  | succ n ih => exact wf_combine (ih _) (ih _)

theorem build_eq_none {n : ℕ} {f : List Bool → Option α} (hf : ∀ k, k.length = n → f k = none) :
    build n f = none := by
  induction n generalizing f with
  | zero => simp [build,hf [] rfl]
  | succ n ih =>
    have h0 := ih (f := fun k => f (false::k)) (fun k hk => hf _ (by simp [hk]))
    have h1 := ih (f := fun k => f (true::k)) (fun k hk => hf _ (by simp [hk]))
    simp [build,h0,h1,combine]

def below (x : Bool) : Trie α → Option (Trie α)
  | binary l r => some (if x then r else l)
  | edge (b::q) c => if b = x then some (mkEdge q c) else none
  | _ => none

theorem findOpt_below {n : ℕ} {t : Trie α} (x : Bool) (k : List Bool) (ht : t.WF (n+1)) :
    findOpt (below x t) k = t.find (x::k) := by
  cases t with
  | edge p c =>
    cases p with
    | nil => simp [WF] at ht
    | cons b q =>
      by_cases hb : b = x
      · subst hb; simp [below,find_mkEdge,find_edge,dropPrefix]
      · simp [below,hb,find_edge,dropPrefix]
  | leaf v => simp [WF] at ht
  | binary l r => cases x <;> rfl

theorem wf_below {n : ℕ} {t : Trie α} (x : Bool) (ht : t.WF (n+1)) :
    ∀ s, below x t = some s → s.WF n := by
  intro s hs
  cases t with
  | leaf v => simp [below] at hs
  | binary l r =>
    obtain ⟨-,hl,hr⟩ := ht
    cases x <;> simp [below] at hs <;> subst hs <;> simpa using ‹_›
  | edge p c =>
    obtain ⟨hp,hpn,hc,hw⟩ := ht
    cases p with
    | nil => simp at hp
    | cons b q =>
      by_cases hb : b = x
      · simp only [below,hb,if_true,Option.some.injEq] at hs
        subst hs
        exact wf_mkEdge (by simp at hpn; omega) hc (by simpa [Nat.add_sub_add_right] using hw)
      · simp [below,hb] at hs

theorem combine_below {n : ℕ} {t : Trie α} (ht : t.WF (n+1)) :
    combine (below false t) (below true t) = some t := by
  cases t with
  | leaf v => simp [WF] at ht
  | binary l r => rfl
  | edge p c =>
    obtain ⟨hp,-,hc,-⟩ := ht
    cases p with
    | nil => simp at hp
    | cons b q =>
      cases b <;> by_cases hq : q = [] <;>
        simp [below,combine,mkEdge,hq,extend] <;> cases c <;> simp_all [isEdge]

theorem build_eq_of_wf {n : ℕ} {t : Trie α} {f : List Bool → Option α} (ht : t.WF n)
    (hf : ∀ k, k.length = n → t.find k = f k) : build n f = some t := by
  induction n generalizing t f with
  | zero =>
    cases t with
    | leaf v => simp [build,← hf [] rfl,find]
    | binary l r => simp [WF] at ht
    | edge p c =>
      obtain ⟨hp,hn,-⟩ := ht
      exact absurd (List.eq_nil_of_length_eq_zero (Nat.le_zero.mp hn)) hp
  | succ n ih =>
    have hpart : ∀ x : Bool, build n (fun k => f (x::k)) = below x t := by
      intro x
      cases hb : below x t with
      | none =>
        apply build_eq_none
        intro k hk
        rw [← hf _ (by simp [hk]),← findOpt_below x k ht,hb,findOpt_none]
      | some s =>
        apply ih (wf_below x ht s hb)
        intro k hk
        rw [← hf _ (by simp [hk]),← findOpt_below x k ht,hb,findOpt_some]
    simp only [build,hpart]
    exact combine_below ht

theorem build_eq_of_findOpt {n : ℕ} {o : Option (Trie α)} {f : List Bool → Option α}
    (hw : ∀ t, o = some t → t.WF n) (hf : ∀ k, k.length = n → findOpt o k = f k) : build n f = o := by
  cases o with
  | none => exact build_eq_none fun k hk => (hf k hk).symm
  | some t => exact build_eq_of_wf (hw t rfl) hf

end Build

end Patricia
end Pathfinder
