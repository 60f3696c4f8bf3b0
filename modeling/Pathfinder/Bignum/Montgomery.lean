import Mathlib.Data.ZMod.Basic
import Mathlib.Tactic.Ring
import Mathlib.Tactic.Linarith

/-! Montgomery form. A residue modulo `N` is kept as a number `x` standing for `x · R⁻¹`,
where `R` is a power of the word size and `R'` an inverse of `R` modulo `N`. Sums and
differences of representatives represent the sums and differences, a number `q` with
`R · q ≡ a · b` represents the product, and Montgomery reduction (add a multiple of `N` that
clears the low words, then drop them) stays below `2N` on inputs below `R · N`, so that one
conditional subtraction brings it below `N`. -/
namespace Pathfinder
namespace Bignum

def montDecode (N R' x : ℕ) : ZMod N := (x : ZMod N) * R'

variable {N R R' : ℕ}

theorem montDecode_congr {a b : ℕ} (h : a ≡ b [MOD N]) : montDecode N R' a = montDecode N R' b := by
  rw [montDecode,montDecode,(ZMod.natCast_eq_natCast_iff _ _ _).mpr h]

theorem montDecode_add {a b c : ℕ} (h : c ≡ a + b [MOD N]) :
    montDecode N R' c = montDecode N R' a + montDecode N R' b := by
  rw [montDecode_congr h,montDecode,montDecode,montDecode]
  push_cast
  ring

theorem montDecode_sub {a b c : ℕ} (h : c + b ≡ a [MOD N]) :
    montDecode N R' c = montDecode N R' a - montDecode N R' b := by
  rw [← montDecode_congr h,montDecode,montDecode,montDecode]
  push_cast
  ring

theorem montDecode_mul (hR : R * R' ≡ 1 [MOD N]) {a b c : ℕ} (h : R * c ≡ a * b [MOD N]) :
    montDecode N R' c = montDecode N R' a * montDecode N R' b := by
  have hR' : (R : ZMod N) * R' = 1 := by exact_mod_cast (ZMod.natCast_eq_natCast_iff _ _ _).mpr hR
  have hc : (R : ZMod N) * c = a * b := by exact_mod_cast (ZMod.natCast_eq_natCast_iff _ _ _).mpr h
  calc montDecode N R' c = (R * R') * (c * R') := by rw [hR',one_mul,montDecode]
    _ = (R * c) * R' * R' := by ring
    _ = montDecode N R' a * montDecode N R' b := by rw [hc,montDecode,montDecode]; ring

theorem montDecode_eq_of_modEq (hR : R * R' ≡ 1 [MOD N]) {x y : ℕ} (h : R * x ≡ y [MOD N]) :
    montDecode N R' y = x := by
  have hR' : (R : ZMod N) * R' = 1 := by exact_mod_cast (ZMod.natCast_eq_natCast_iff _ _ _).mpr hR
  rw [← montDecode_congr h,montDecode]
  push_cast
  calc (R : ZMod N) * x * R' = x * (R * R') := by ring
    _ = x := by rw [hR',mul_one]

theorem modEq_of_mul_left (hR : R * R' ≡ 1 [MOD N]) {a b : ℕ} (h : R * a ≡ R * b [MOD N]) :
    a ≡ b [MOD N] := by
  have ha : a ≡ R' * (R * a) [MOD N] := by
    simpa [← mul_assoc,mul_comm R' R] using (hR.mul_right a).symm
  have hb : R' * (R * b) ≡ b [MOD N] := by
    simpa [← mul_assoc,mul_comm R' R] using hR.mul_right b
  exact ha.trans ((h.mul_left R').trans hb)

theorem redc_lt {t k q : ℕ} (h : R * q = t + k * N) (ht : t < R * N) (hk : k < R) : q < 2 * N := by
  have hkN : k * N ≤ R * N := Nat.mul_le_mul_right _ hk.le
  have : R * q < R * (2 * N) := by rw [h,Nat.mul_left_comm]; omega
  exact Nat.lt_of_mul_lt_mul_left this

theorem condSub_spec {x : ℕ} (h : x < 2 * N) :
    (if N ≤ x then x - N else x) < N ∧ (if N ≤ x then x - N else x) ≡ x [MOD N] := by
  by_cases hx : N ≤ x
  · rw [if_pos hx]
    refine ⟨by omega,?_⟩
    calc x - N ≡ x - N + N [MOD N] := (Nat.add_modEq_right).symm
      _ = x := Nat.sub_add_cancel hx
  · rw [if_neg hx]
    exact ⟨by omega,rfl⟩

end Bignum
end Pathfinder
