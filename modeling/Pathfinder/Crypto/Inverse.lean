import Pathfinder.Bignum.BinaryInverse
import Pathfinder.Crypto.Moduli
import Mathlib.Data.Nat.Bitwise

/-!
# Field inversion

`MontFelt::inverse` (`montfelt/inverse.rs`) is the binary extended Euclid of
`Bignum.BinaryInverse` on the limbs, started from `(x, P, R2, 0)`. For `x` standing for
`X = x · 2^-256`, an accumulator `y` with `x · y ≡ R2 = 2^512` stands for `2^512 / x · 2^-256`,
the inverse of `X`: the Montgomery product `x * y` is `MontFelt::ONE`. That the loop ends rests
on `p` being prime.
-/

namespace Pathfinder
namespace Crypto

section Shift
variable (a b : UInt64)

theorem toNat_shiftRight_one_or :
    ((a >>> 1) ||| (b <<< 63)).toNat = a.toNat / 2 + 2 ^ 63 * (b.toNat % 2) := by
  have ha : a.toNat < 2 ^ 64 := a.toNat_lt
  have hlow : a.toNat / 2 < 2 ^ 63 := by omega
  simp only [UInt64.toNat_or, UInt64.toNat_shiftLeft, UInt64.toNat_shiftRight,
    Nat.shiftRight_eq_div_pow]
  rw [show UInt64.toNat 63 % 64 = 63 by rfl, show UInt64.toNat 1 % 64 = 1 by rfl, pow_one]
  have hhigh : b.toNat <<< 63 % 2 ^ 64 = (b.toNat % 2) <<< 63 := by
    rw [Nat.shiftLeft_eq, Nat.shiftLeft_eq]; omega
  rw [hhigh, Nat.lor_comm, ← Nat.shiftLeft_add_eq_or_of_lt hlow, Nat.shiftLeft_eq]
  ring

theorem toNat_shiftRight_one : (a >>> 1).toNat = a.toNat / 2 := by
  simp [UInt64.toNat_shiftRight, Nat.shiftRight_eq_div_pow]

theorem toNat_and_one : (a &&& 1).toNat = a.toNat % 2 := by
  rw [UInt64.toNat_and, UInt64.toNat_one, Nat.and_one_is_mod]

end Shift

namespace MontFelt

/-- `is_even`: the low bit of the low limb. -/
def isEven (a : MontFelt) : Bool := a.l0 &&& 1 == 0

/-- `div2`: each limb shifted right by one, taking the low bit of the limb above. -/
def div2 (a : MontFelt) : MontFelt :=
  ⟨(a.l0 >>> 1) ||| (a.l1 <<< 63), (a.l1 >>> 1) ||| (a.l2 <<< 63),
    (a.l2 >>> 1) ||| (a.l3 <<< 63), a.l3 >>> 1⟩

/-- `const_lt`: `const_cmp(x) as i8 < 0`. -/
def constLt (a x : MontFelt) : Bool := (constCmp a x).isLT

def inverseOps : Bignum.InverseOps MontFelt where
  P := P
  R2 := R2
  ZERO := ZERO
  isZero := isZero
  isEven := isEven
  isOne u := u == ⟨1, 0, 0, 0⟩
  div2 := div2
  addNoreduce := addAssignNoreduce
  subNoreduce := subAssignNoreduce
  constSub := constSub
  lt := constLt

/-- `MontFelt::inverse`, with fuel for its loops. -/
def inverse (fuel : ℕ) (a : MontFelt) : Option (Option MontFelt) := inverseOps.inverse fuel a

theorem val_div2 (a : MontFelt) : a.div2.val = a.val / 2 := by
  simp only [div2, val, toNat_shiftRight_one_or, toNat_shiftRight_one]
  omega

theorem isEven_iff (a : MontFelt) : a.isEven = true ↔ a.val % 2 = 0 := by
  simp only [isEven, beq_iff_eq, ← UInt64.toNat_inj, toNat_and_one, UInt64.toNat_zero, val]
  omega

theorem constLt_iff (a x : MontFelt) : a.constLt x = true ↔ a.val < x.val := by
  rw [constLt, constCmp_eq]
  rcases Nat.lt_trichotomy a.val x.val with h | h | h
  · simp [Nat.compare_eq_lt.mpr h, h]
  · simp [h]
  · simp [Nat.compare_eq_gt.mpr h, h.le]

theorem beq_one_iff (a : MontFelt) : (a == ⟨1, 0, 0, 0⟩) = true ↔ a.val = 1 := by
  rw [beq_iff_eq]
  constructor
  · rintro rfl
    rfl
  · intro h
    exact ext_val (h.trans rfl)

theorem val_ONE : ONE.val ≡ 2 ^ 256 [MOD p] := by decide

theorem implements_inverseOps : inverseOps.Implements val p where
  val_P := val_P
  val_R2 := by decide
  val_ZERO := rfl
  isZero_iff := isZero_iff
  isEven_iff := isEven_iff
  isOne_iff := beq_one_iff
  val_div2 := val_div2
  val_addNoreduce a x ha hx := by
    have := p_lt
    rw [show inverseOps.addNoreduce a x = addAssignNoreduce a x from rfl, addAssignNoreduce_eq,
      constAddNoreduce_val (by omega)]
  val_subNoreduce a x h := by
    rw [show inverseOps.subNoreduce a x = subAssignNoreduce a x from rfl, subAssignNoreduce_eq,
      constSubNoreduce_val h]
  constSub_lt a x ha hx := (constSub_spec ha hx).1
  constSub_modEq a x ha hx := (constSub_spec ha hx).2
  lt_iff := constLt_iff

theorem mul_eq_ONE {x y : MontFelt} (hx : x.val < p) (hy : y.val < p)
    (h : x.val * y.val ≡ R2.val [MOD p]) : x.mul y = ONE := by
  obtain ⟨hlt, hmod⟩ := constMul_spec hx hy
  have hone : ONE.val < p := by decide
  have h2 : 2 ^ 256 * (x.constMul y).val ≡ 2 ^ 256 * ONE.val [MOD p] :=
    calc 2 ^ 256 * (x.constMul y).val ≡ x.val * y.val [MOD p] := hmod
      _ ≡ R2.val [MOD p] := h
      _ ≡ 2 ^ 256 * 2 ^ 256 [MOD p] := val_R2
      _ ≡ 2 ^ 256 * ONE.val [MOD p] := (val_ONE.symm).mul_left _
  rw [mul_eq_constMul]
  exact ext_val (Nat.ModEq.eq_of_lt_of_lt (Bignum.modEq_of_mul_left R_mul_RInv h2) hlt hone)

theorem inverse_spec (x : MontFelt) (hx : x.val < p) :
    ∃ r, (∀ n, x.val + p ≤ n → x.inverse n = some r) ∧ (r = none ↔ x.isZero = true) ∧
      ∀ y, r = some y → y.val < p ∧ x.mul y = ONE := by
  obtain ⟨r, hrun, hnone, hsome⟩ :=
    Bignum.InverseOps.inverse_spec implements_inverseOps (by decide) prime_p x hx
  refine ⟨r, hrun, by rw [hnone, isZero_iff], fun y hy => ?_⟩
  obtain ⟨hlt, hmod⟩ := hsome y hy
  exact ⟨hlt, mul_eq_ONE hx hlt hmod⟩

end MontFelt

end Crypto
end Pathfinder
