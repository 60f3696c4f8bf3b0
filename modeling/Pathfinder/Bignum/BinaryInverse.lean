import Mathlib.Data.Nat.Prime.Basic
import Mathlib.Data.Nat.ModEq
import Mathlib.Tactic.Ring

/-!
# Binary extended Euclid for inverses modulo an odd prime

The binary algorithm of Guajardo et al. (2006, alg. 16) inverts `x` modulo an odd prime `N`
with halvings and subtractions only. Its state `(u, v, b, c)` starts at `(x, N, r, 0)` and keeps
`x · b ≡ u · r` and `x · c ≡ v · r (mod N)`, with `u` and `v` coprime: an even `u` is halved
with `b` halved modulo `N`, and the smaller of `u` and `v` is taken from the other with the
matching accumulator. `u + v` goes down every round, so the loop stops, at `u = 1` or `v = 1`,
on an accumulator `y` with `x · y ≡ r`. With `r = R²` in Montgomery form, `y` stands for the
inverse of the element that `x` stands for.

The algorithm is written once over a type `L` of numbers with the operations the code calls,
and `Implements` says what it needs of them, read through a map `val` to `ℕ`. Its loops take
fuel; `none` is a loop that has not ended.
-/

namespace Pathfinder
namespace Bignum

/-- The operations a binary inverse calls on its numbers. -/
structure InverseOps (L : Type) where
  P : L
  R2 : L
  ZERO : L
  isZero : L → Bool
  isEven : L → Bool
  /-- `u.0 == one`: the number is `1`. -/
  isOne : L → Bool
  div2 : L → L
  addNoreduce : L → L → L
  subNoreduce : L → L → L
  constSub : L → L → L
  lt : L → L → Bool

namespace InverseOps

variable {L : Type} (ops : InverseOps L)

/-- `b` halved modulo `P`: `b.div2()` for even `b`, else `b.add_noreduce(&P).div2()`. -/
def half (b : L) : L := if ops.isEven b then ops.div2 b else ops.div2 (ops.addNoreduce b ops.P)

/-- `while u.is_even() { u = u.div2(); b = half(b) }`. -/
def halveLoop : ℕ → L × L → Option (L × L)
  | 0, _ => none
  | fuel + 1, (u, b) => if ops.isEven u then halveLoop fuel (ops.div2 u, ops.half b) else some (u, b)

def subtract (u v b c : L) : L × L × L × L :=
  if ops.lt v u then (ops.subNoreduce u v, v, ops.constSub b c, c)
  else (u, ops.subNoreduce v u, b, ops.constSub c b)

/-- `while u.0 != one && v.0 != one { … }`. -/
def loop : ℕ → L × L × L × L → Option (L × L × L × L)
  | 0, _ => none
  | fuel + 1, (u, v, b, c) =>
    if !ops.isOne u && !ops.isOne v then do
      let (u, b) ← ops.halveLoop (fuel + 1) (u, b)
      let (v, c) ← ops.halveLoop (fuel + 1) (v, c)
      loop fuel (ops.subtract u v b c)
    else some (u, v, b, c)

/-- `inverse`: `None` for zero, else the accumulator of whichever of `u` and `v` reached one. -/
def inverse (fuel : ℕ) (x : L) : Option (Option L) :=
  if ops.isZero x then some none
  else (ops.loop fuel (x, ops.P, ops.R2, ops.ZERO)).map fun s =>
    some (if ops.isOne s.1 then s.2.2.1 else s.2.2.2)

/-! ## More fuel gives the same result -/

theorem halveLoop_succ : ∀ {n : ℕ} {s r : L × L}, ops.halveLoop n s = some r →
    ops.halveLoop (n + 1) s = some r
  | 0, _, _, h => absurd h (by simp [halveLoop])
  | n + 1, (u, b), r, h => by
    rw [halveLoop] at h ⊢
    split at h
    · rw [if_pos ‹_›]
      exact halveLoop_succ h
    · rwa [if_neg ‹_›]

theorem loop_succ : ∀ {n : ℕ} {s r : L × L × L × L}, ops.loop n s = some r →
    ops.loop (n + 1) s = some r
  | 0, _, _, h => absurd h (by simp [loop])
  | n + 1, (u, v, b, c), r, h => by
    rw [loop] at h ⊢
    split at h
    · rw [if_pos ‹_›]
      rcases hu : ops.halveLoop (n + 1) (u, b) with _ | ⟨u', b'⟩
      · simp [hu] at h
      rcases hv : ops.halveLoop (n + 1) (v, c) with _ | ⟨v', c'⟩
      · simp [hu, hv] at h
      simp only [hu, hv, Option.bind_eq_bind, Option.bind_some] at h
      simp only [ops.halveLoop_succ hu, ops.halveLoop_succ hv, Option.bind_eq_bind,
        Option.bind_some]
      exact loop_succ h
    · rwa [if_neg ‹_›]

theorem loop_mono {m n : ℕ} (hle : m ≤ n) {s r : L × L × L × L} (h : ops.loop m s = some r) :
    ops.loop n s = some r := by
  induction n, hle using Nat.le_induction with
  | base => exact h
  | succ n _ ih => exact ops.loop_succ ih

/-! ## What the algorithm needs of the operations -/

/-- The operations compute, through `val`, what their names say, for the odd modulus `N`. -/
structure Implements (val : L → ℕ) (N : ℕ) : Prop where
  val_P : val ops.P = N
  val_R2 : val ops.R2 < N
  val_ZERO : val ops.ZERO = 0
  isZero_iff : ∀ a, ops.isZero a = true ↔ val a = 0
  isEven_iff : ∀ a, ops.isEven a = true ↔ val a % 2 = 0
  isOne_iff : ∀ a, ops.isOne a = true ↔ val a = 1
  val_div2 : ∀ a, val (ops.div2 a) = val a / 2
  val_addNoreduce : ∀ a x, val a < N → val x ≤ N → val (ops.addNoreduce a x) = val a + val x
  val_subNoreduce : ∀ a x, val x ≤ val a → val (ops.subNoreduce a x) = val a - val x
  constSub_lt : ∀ a x, val a < N → val x < N → val (ops.constSub a x) < N
  constSub_modEq : ∀ a x, val a < N → val x < N → val (ops.constSub a x) + val x ≡ val a [MOD N]
  lt_iff : ∀ a x, ops.lt a x = true ↔ val a < val x

def Acc (val : L → ℕ) (N x : ℕ) (u b : L) : Prop :=
  val b < N ∧ x * val b ≡ val u * val ops.R2 [MOD N]

/-- The loop's invariant. -/
structure Inv (val : L → ℕ) (N x : ℕ) (u v b c : L) : Prop where
  acc_u : ops.Acc val N x u b
  acc_v : ops.Acc val N x v c
  coprime : Nat.Coprime (val u) (val v)
  pos_u : 0 < val u
  pos_v : 0 < val v ∨ val u = 1

section Correct
variable {ops} {val : L → ℕ} {N : ℕ} (h : ops.Implements val N) (hodd : N % 2 = 1) (x : ℕ)

include h hodd

theorem half_spec {b : L} (hb : val b < N) :
    val (ops.half b) < N ∧ 2 * val (ops.half b) ≡ val b [MOD N] := by
  unfold half
  split
  · next he =>
    have he := (h.isEven_iff b).mp he
    rw [h.val_div2]
    exact ⟨by omega, by rw [Nat.mul_div_cancel' (Nat.dvd_of_mod_eq_zero he)]⟩
  · next he =>
    have hodd' : val b % 2 = 1 := by
      have := (h.isEven_iff b).not.mp he
      omega
    rw [h.val_div2, h.val_addNoreduce _ _ hb (h.val_P.le), h.val_P]
    refine ⟨by omega, ?_⟩
    rw [Nat.mul_div_cancel' (by omega)]
    exact Nat.add_modEq_right

theorem Acc.half {u b : L} (hacc : ops.Acc val N x u b) (he : val u % 2 = 0) :
    ops.Acc val N x (ops.div2 u) (ops.half b) := by
  obtain ⟨hlt, hhalf⟩ := half_spec h hodd hacc.1
  refine ⟨hlt, ?_⟩
  have hcop : Nat.Coprime N 2 := by
    rw [Nat.coprime_comm, Nat.coprime_two_left]
    exact Nat.odd_iff.mpr hodd
  refine Nat.ModEq.cancel_left_of_coprime hcop ?_
  rw [h.val_div2]
  calc 2 * (x * val (ops.half b)) = x * (2 * val (ops.half b)) := by ring
    _ ≡ x * val b [MOD N] := hhalf.mul_left x
    _ ≡ val u * val ops.R2 [MOD N] := hacc.2
    _ = 2 * (val u / 2 * val ops.R2) := by
      rw [← mul_assoc, Nat.mul_div_cancel' (Nat.dvd_of_mod_eq_zero he)]

omit hodd in
theorem Acc.sub {u v b c : L} (hb : ops.Acc val N x u b) (hc : ops.Acc val N x v c)
    (hvu : val v ≤ val u) :
    val (ops.constSub b c) < N ∧
      x * val (ops.constSub b c) ≡ (val u - val v) * val ops.R2 [MOD N] := by
  refine ⟨h.constSub_lt _ _ hb.1 hc.1, Nat.ModEq.add_right_cancel (hc.2) ?_⟩
  calc x * val (ops.constSub b c) + x * val c = x * (val (ops.constSub b c) + val c) := by ring
    _ ≡ x * val b [MOD N] := (h.constSub_modEq _ _ hb.1 hc.1).mul_left x
    _ ≡ val u * val ops.R2 [MOD N] := hb.2
    _ = (val u - val v) * val ops.R2 + val v * val ops.R2 := by
      rw [← add_mul, Nat.sub_add_cancel hvu]

theorem halveLoop_spec : ∀ (fuel : ℕ) (u b : L), 0 < val u → val u < 2 ^ fuel →
    ops.Acc val N x u b →
    ∃ u' b', ops.halveLoop fuel (u, b) = some (u', b') ∧ val u' % 2 = 1 ∧ val u' ∣ val u ∧
      ops.Acc val N x u' b'
  | 0, _, _, hpos, hlt, _ => absurd hlt (by rw [pow_zero]; omega)
  | fuel + 1, u, b, hpos, hlt, hacc => by
    rw [halveLoop]
    by_cases he : ops.isEven u = true
    · have he' := (h.isEven_iff u).mp he
      rw [if_pos he]
      have hdiv := h.val_div2 u
      obtain ⟨u', b', hloop, hodd', hdvd, hacc'⟩ :=
        halveLoop_spec fuel (ops.div2 u) (ops.half b) (by omega)
          (by rw [pow_succ] at hlt; omega) (hacc.half h hodd x he')
      refine ⟨u', b', hloop, hodd', ?_, hacc'⟩
      rw [hdiv] at hdvd
      exact hdvd.trans (Nat.div_dvd_of_dvd (Nat.dvd_of_mod_eq_zero he'))
    · rw [if_neg he]
      have := (h.isEven_iff u).not.mp he
      exact ⟨u, b, rfl, by omega, dvd_rfl, hacc⟩

omit hodd in
theorem subtract_spec {u v b c : L} (hb : ops.Acc val N x u b) (hc : ops.Acc val N x v c)
    (hcop : Nat.Coprime (val u) (val v)) (hu : 0 < val u) (hv : 0 < val v) :
    ∃ u' v' b' c', ops.subtract u v b c = (u', v', b', c') ∧ ops.Inv val N x u' v' b' c' ∧
      val u' + val v' < val u + val v := by
  unfold subtract
  by_cases hlt : ops.lt v u = true
  · have hlt' := (h.lt_iff v u).mp hlt
    have hsub := h.val_subNoreduce u v hlt'.le
    obtain ⟨hb', hmod⟩ := hb.sub h x hc hlt'.le
    rw [if_pos hlt]
    refine ⟨_, _, _, _, rfl, ⟨⟨hb', by rwa [hsub]⟩, hc, ?_, by omega, .inl hv⟩, by omega⟩
    rw [hsub]
    exact (Nat.coprime_sub_self_left hlt'.le).mpr hcop
  · have hle : val u ≤ val v := by
      have := (h.lt_iff v u).not.mp hlt
      omega
    have hsub := h.val_subNoreduce v u hle
    obtain ⟨hc', hmod⟩ := hc.sub h x hb hle
    rw [if_neg hlt]
    have hcop' : Nat.Coprime (val u) (val v - val u) := (Nat.coprime_sub_self_right hle).mpr hcop
    refine ⟨_, _, _, _, rfl, ⟨hb, ⟨hc', by rwa [hsub]⟩, by rwa [hsub], hu, ?_⟩, by omega⟩
    rw [hsub]
    by_cases heq : val u = val v
    · rw [heq, Nat.coprime_self] at hcop
      exact .inr (heq.trans hcop)
    · exact .inl (by omega)

theorem loop_spec : ∀ (fuel : ℕ) (u v b c : L), ops.Inv val N x u v b c → val u + val v ≤ fuel →
    ∃ u' v' b' c', ops.loop fuel (u, v, b, c) = some (u', v', b', c') ∧
      ops.Inv val N x u' v' b' c' ∧
      (val u' = 1 ∨ val v' = 1)
  | 0, _, _, _, _, hinv, hfuel => absurd hinv.pos_u (by omega)
  | fuel + 1, u, v, b, c, hinv, hfuel => by
    rw [loop]
    by_cases hgo : (!ops.isOne u && !ops.isOne v) = true
    · rw [if_pos hgo]
      simp only [Bool.and_eq_true, Bool.not_eq_true', Bool.eq_false_iff, ne_eq] at hgo
      have hu1 : val u ≠ 1 := fun h1 => hgo.1 ((h.isOne_iff u).mpr h1)
      have hv1 : val v ≠ 1 := fun h1 => hgo.2 ((h.isOne_iff v).mpr h1)
      have hv : 0 < val v := hinv.pos_v.resolve_right hu1
      obtain ⟨u₁, b₁, hlu, -, hdu, hacc_u⟩ := halveLoop_spec h hodd x (fuel + 1) u b hinv.pos_u
        (lt_of_le_of_lt (by omega) (Nat.lt_two_pow_self)) hinv.acc_u
      obtain ⟨v₁, c₁, hlv, -, hdv, hacc_v⟩ := halveLoop_spec h hodd x (fuel + 1) v c hv
        (lt_of_le_of_lt (by omega) (Nat.lt_two_pow_self)) hinv.acc_v
      have hcop : Nat.Coprime (val u₁) (val v₁) :=
        (hinv.coprime.coprime_dvd_left hdu).coprime_dvd_right hdv
      have hu₁ := Nat.pos_of_dvd_of_pos hdu hinv.pos_u
      have hv₁ := Nat.pos_of_dvd_of_pos hdv hv
      obtain ⟨u₂, v₂, b₂, c₂, hsub, hinv₂, hlt⟩ := subtract_spec h x hacc_u hacc_v hcop hu₁ hv₁
      have hle₁ := Nat.le_of_dvd hinv.pos_u hdu
      have hle₂ := Nat.le_of_dvd hv hdv
      simp only [hlu, hlv, hsub, Option.bind_eq_bind, Option.bind_some]
      exact loop_spec fuel u₂ v₂ b₂ c₂ hinv₂ (by omega)
    · rw [if_neg hgo]
      simp only [Bool.and_eq_true, Bool.not_eq_true', not_and, Bool.eq_false_iff, ne_eq,
        not_not] at hgo
      refine ⟨u, v, b, c, rfl, hinv, ?_⟩
      by_cases hu1 : ops.isOne u = true
      · exact .inl ((h.isOne_iff u).mp hu1)
      · exact .inr ((h.isOne_iff v).mp (hgo hu1))

omit hodd in
theorem inv_start (hN : N.Prime) {a : L} (hpos : 0 < val a) (ha : val a < N) :
    ops.Inv val N (val a) a ops.P ops.R2 ops.ZERO := by
  refine ⟨⟨h.val_R2, rfl⟩, ⟨by rw [h.val_ZERO]; exact hN.pos, ?_⟩, ?_, hpos, .inl ?_⟩
  · rw [h.val_ZERO, h.val_P, mul_zero]
    exact (Nat.modEq_zero_iff_dvd.mpr (dvd_mul_right N _)).symm
  · rw [h.val_P]
    exact (Nat.coprime_comm.mp ((Nat.Prime.coprime_iff_not_dvd hN).mpr
      (Nat.not_dvd_of_pos_of_lt hpos ha)))
  · rw [h.val_P]
    exact hN.pos

theorem inverse_spec (hN : N.Prime) (a : L) (ha : val a < N) :
    ∃ r, (∀ n, val a + N ≤ n → ops.inverse n a = some r) ∧ (r = none ↔ val a = 0) ∧
      ∀ y, r = some y → val y < N ∧ val a * val y ≡ val ops.R2 [MOD N] := by
  by_cases hz : val a = 0
  · refine ⟨none, fun n _ => ?_, iff_of_true rfl hz, fun y hy => absurd hy (by simp)⟩
    rw [inverse, if_pos ((h.isZero_iff a).mpr hz)]
  · have hpos : 0 < val a := Nat.pos_of_ne_zero hz
    obtain ⟨u, v, b, c, hloop, hinv, hone⟩ := loop_spec h hodd (val a) (val a + N) a ops.P ops.R2
      ops.ZERO (inv_start h hN hpos ha) (by rw [h.val_P])
    refine ⟨some (if ops.isOne u then b else c), fun n hn => ?_, ?_, fun y hy => ?_⟩
    · rw [inverse, if_neg (by rwa [h.isZero_iff]), ops.loop_mono hn hloop]
      rfl
    · exact iff_of_false (by simp) hz
    · cases hy
      by_cases hu : ops.isOne u = true
      · rw [if_pos hu]
        have hu1 := (h.isOne_iff u).mp hu
        refine ⟨hinv.acc_u.1, ?_⟩
        simpa [hu1] using hinv.acc_u.2
      · rw [if_neg hu]
        have hv1 : val v = 1 := hone.resolve_left fun h1 => hu ((h.isOne_iff u).mpr h1)
        refine ⟨hinv.acc_v.1, ?_⟩
        simpa [hv1] using hinv.acc_v.2

end Correct

end InverseOps

end Bignum
end Pathfinder
