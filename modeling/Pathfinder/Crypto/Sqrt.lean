import Pathfinder.Bignum.TonelliShanks
import Pathfinder.Crypto.Inverse
import Mathlib.FieldTheory.Finite.Basic

/-! `MontFelt::sqrt` (`montfelt/sqrt.rs`), Tonelli–Shanks on the limbs: `p - 1 = 2^192 · t` with
`t = 2^59 + 17`, `SQRT_Z` stands for `3^t`, which has order `2^192` since `3` is no square
modulo `p`, and `a^((t-1)/2)` is computed by `MontFelt::pow`, square and multiply over the bits
of the exponent's limbs. The algorithm and its proof are `Bignum.TonelliShanks`'s; here the limb
operations are shown to be the field's on reduced values, and `AffinePoint::from_x` is read off. -/
namespace Pathfinder
namespace Crypto

instance fact_prime_p : Fact (Nat.Prime MontFelt.p) := ⟨prime_p⟩

namespace MontFelt

/-- `is_one`: the limbs of `R`. -/
def isOne (a : MontFelt) : Bool := a.l0 == R.l0 && a.l1 == R.l1 && a.l2 == R.l2 && a.l3 == R.l3

/-- `BitIteratorBE::new(s)`: counting `n` down from `64 · len`, bit `n % 64` of limb `n / 64`. -/
def bitIteratorBE (s : List UInt64) : ℕ → List Bool
  | 0 => []
  | n + 1 => decide (s[n / 64]! &&& ((1 : UInt64) <<< (n % 64).toUInt64) > 0) :: bitIteratorBE s n

/-- `pow`. -/
def pow (a : MontFelt) (exp : List UInt64) : MontFelt :=
  Bignum.powBits ONE square mul a ((bitIteratorBE exp (64 * exp.length)).dropWhile fun i => !i)

/-- `SQRT_S`: `p - 1 = 2^SQRT_S · t`. -/
def SQRT_S : ℕ := 192

/-- `SQRT_T_MINUS_ONE_DIV2`: `(t - 1) / 2`. -/
def SQRT_T_MINUS_ONE_DIV2 : List UInt64 := [288230376151711752,0,0,0]

/-- `SQRT_Z`: `3^t` in Montgomery form. -/
def SQRT_Z : MontFelt :=
  ⟨4685640052668284376,12298664652803292137,735711535595279732,514024103053294630⟩

def sqrtOps : Bignum.SqrtOps MontFelt where
  ZERO := ZERO
  SQRT_Z := SQRT_Z
  SQRT_S := SQRT_S
  isZero := isZero
  isOne := isOne
  mul := mul
  square := square
  powTMinusOneDiv2 a := a.pow SQRT_T_MINUS_ONE_DIV2

/-- `MontFelt::sqrt`, with fuel for its loops. -/
def sqrt (fuel : ℕ) (a : MontFelt) : Option (Option MontFelt) := sqrtOps.sqrt fuel a

/-! ### The limb operations on reduced values -/

section Reduced
variable {a x : MontFelt}

theorem cast_R_mul_RInv : ((2 ^ 256 : ℕ) : ZMod p) * RInv = 1 := by
  exact_mod_cast (ZMod.natCast_eq_natCast_iff _ _ _).mpr R_mul_RInv

theorem dec_injective (ha : a.val < p) (hx : x.val < p) (h : a.dec = x.dec) : a = x := by
  have hcast : (a.val : ZMod p) = x.val := by
    calc (a.val : ZMod p) = a.dec * (2 ^ 256 : ℕ) := by
          rw [dec, Bignum.montDecode, mul_assoc, mul_comm (RInv : ZMod p), cast_R_mul_RInv, mul_one]
      _ = x.val := by
          rw [h, dec, Bignum.montDecode, mul_assoc, mul_comm (RInv : ZMod p), cast_R_mul_RInv,
            mul_one]
  exact ext_val (Nat.ModEq.eq_of_lt_of_lt ((ZMod.natCast_eq_natCast_iff _ _ _).mp hcast) ha hx)

theorem dec_ONE : ONE.dec = 1 := by
  rw [dec, Bignum.montDecode_eq_of_modEq R_mul_RInv (by rw [mul_one]; exact val_ONE.symm),
    Nat.cast_one]

theorem isOne_iff_eq (a : MontFelt) : a.isOne = true ↔ a = ONE := by
  obtain ⟨a0,a1,a2,a3⟩ := a
  simp only [isOne,ONE,R,mk.injEq,Bool.and_eq_true,beq_iff_eq,and_assoc]

theorem isOne_iff (ha : a.val < p) : a.isOne = true ↔ a.dec = 1 := by
  rw [isOne_iff_eq,← dec_ONE]
  exact ⟨congrArg dec,dec_injective ha (by decide)⟩

theorem isZero_iff_dec (ha : a.val < p) : a.isZero = true ↔ a.dec = 0 := by
  rw [isZero_iff,← dec_ZERO]
  exact ⟨fun h => congrArg dec (ext_val (h.trans rfl)),
    fun h => (congrArg val (dec_injective ha (by decide) h)).trans rfl⟩

end Reduced

set_option maxRecDepth 10000 in
theorem bitsValue_SQRT_T_MINUS_ONE_DIV2 :
    Bignum.bitsValue ((bitIteratorBE SQRT_T_MINUS_ONE_DIV2 (64 * SQRT_T_MINUS_ONE_DIV2.length)).dropWhile
      fun i => !i) = 288230376151711752 := by
  rw [Bignum.bitsValue_dropWhile]
  decide

theorem pow_spec {a : MontFelt} (ha : a.val < p) (exp : List UInt64) :
    (a.pow exp).val < p ∧ (a.pow exp).dec =
      a.dec ^ Bignum.bitsValue ((bitIteratorBE exp (64 * exp.length)).dropWhile fun i => !i) := by
  have hone : ONE.val < p := by decide
  unfold pow
  exact @Bignum.powBits_spec _ ONE square mul (ZMod p) _ (fun a => a.val < p) dec a
    (fun _ hr => square_spec hr) (fun _ hr => mul_spec hr ha) hone dec_ONE _

theorem implements_sqrtOps : sqrtOps.Implements (fun a => a.val < p) dec 288230376151711752 where
  ok_ZERO := by decide
  dec_ZERO := dec_ZERO
  ok_SQRT_Z := by decide
  isZero_iff _ ha := isZero_iff_dec ha
  isOne_iff _ ha := isOne_iff ha
  ok_mul _ _ ha hx := (mul_spec ha hx).1
  dec_mul _ _ ha hx := (mul_spec ha hx).2
  ok_square _ ha := (square_spec ha).1
  dec_square _ ha := (square_spec ha).2
  ok_pow _ ha := (pow_spec ha _).1
  dec_pow _ ha := (pow_spec ha _).2.trans (by rw [bitsValue_SQRT_T_MINUS_ONE_DIV2])

theorem dec_SQRT_Z_pow : SQRT_Z.dec ^ 2 ^ (SQRT_S - 1) = -1 := by
  have hpow : (SQRT_Z.val * RInv) ^ 2 ^ 191 % p = p - 1 := by
    rw [← Pratt.powMod_eq p 192 _ _ (by norm_num)]
    decide +kernel
  have hcast : ((p - 1 : ℕ) : ZMod p) = -1 := by
    rw [Nat.cast_sub p_pos,ZMod.natCast_self,Nat.cast_one,zero_sub]
  rw [dec,Bignum.montDecode,← Nat.cast_mul,← Nat.cast_pow,← ZMod.natCast_mod,
    show SQRT_S - 1 = 191 from rfl,hpow,hcast]

theorem pow_two_pow_SQRT_S (y : ZMod p) (hy : y ≠ 0) :
    y ^ (2 ^ SQRT_S * (2 * 288230376151711752 + 1)) = 1 := by
  rw [show 2 ^ SQRT_S * (2 * 288230376151711752 + 1) = p - 1 by decide]
  exact ZMod.pow_card_sub_one_eq_one hy

theorem sqrt_spec (a : MontFelt) (ha : a.val < p) :
    ∃ r, (∀ m, SQRT_S < m → a.sqrt m = some r) ∧ (r = none ↔ ¬ IsSquare a.dec) ∧
      ∀ y, r = some y → y.val < p ∧ y.square = a := by
  obtain ⟨r,hrun,hnone,hsome⟩ := Bignum.SqrtOps.sqrt_spec implements_sqrtOps (by decide)
    dec_SQRT_Z_pow pow_two_pow_SQRT_S a ha
  refine ⟨r,hrun,hnone,fun y hy => ?_⟩
  obtain ⟨hlt,hdec⟩ := hsome y hy
  obtain ⟨hsq,hdsq⟩ := square_spec hlt
  exact ⟨hlt,dec_injective hsq ha (hdsq.trans hdec)⟩

theorem fromX_rhs_spec {x : MontFelt} (hx : x.val < p) :
    (((x.square.mul x).add (CURVE_A.mul x)).add CURVE_B).val < p ∧
      (((x.square.mul x).add (CURVE_A.mul x)).add CURVE_B).dec = x.dec ^ 3 + x.dec + CURVE_B.dec := by
  obtain ⟨h2,d2⟩ := square_spec hx
  obtain ⟨h3,d3⟩ := mul_spec h2 hx
  obtain ⟨ha,da⟩ := mul_spec (by decide : CURVE_A.val < p) hx
  have hb : CURVE_B.val < p := (constMul_spec (by decide) (by decide)).1
  rw [add_eq_constAdd,add_eq_constAdd]
  refine ⟨(constAdd_spec (constAdd_spec h3 ha).1 hb).1,?_⟩
  rw [dec_constAdd (constAdd_spec h3 ha).1 hb,dec_constAdd h3 ha,d3,d2,da,show CURVE_A = ONE from rfl,
    dec_ONE]
  ring

end MontFelt

theorem fromX_spec {S Pt : Type} (C : Curve S Pt)
    (hC : ∀ y : MontFelt, y.val < MontFelt.p → ∃ n, ∀ m, n ≤ m → y.sqrt m = some (C.sqrt y))
    {x : MontFelt} (hx : x.val < MontFelt.p) :
    ((AffinePoint.fromX C x).isSome ↔ IsSquare (x.dec ^ 3 + x.dec + CURVE_B.dec)) ∧
      ∀ pt, AffinePoint.fromX C x = some pt →
        pt.x = x ∧ pt.infinity = false ∧ pt.y.dec ^ 2 = x.dec ^ 3 + x.dec + CURVE_B.dec := by
  obtain ⟨hy2,hdy2⟩ := MontFelt.fromX_rhs_spec hx
  obtain ⟨r,hrun,hnone,hsome⟩ := MontFelt.sqrt_spec _ hy2
  have hsqrt : C.sqrt (((x.square.mul x).add (CURVE_A.mul x)).add CURVE_B) = r := by
    obtain ⟨n,hn⟩ := hC _ hy2
    exact Option.some.inj ((hn (max n 193) (le_max_left _ _)).symm.trans
      (hrun _ (by simp [MontFelt.SQRT_S])))
  rw [AffinePoint.fromX,hsqrt,← hdy2]
  refine ⟨?_,fun pt hpt => ?_⟩
  · rw [Option.isSome_map,← not_iff_not,Bool.not_eq_true,Option.isSome_eq_false_iff,
      Option.isNone_iff_eq_none,hnone]
  · obtain ⟨y,hy,rfl⟩ := Option.map_eq_some_iff.mp hpt
    obtain ⟨hlt,hsq⟩ := hsome y hy
    refine ⟨rfl,rfl,?_⟩
    rw [← (MontFelt.square_spec hlt).2,hsq]

/-- The square root is Tonelli–Shanks': it ends on every reduced input, with `None` exactly for
the elements that are no square and otherwise a root; and so `from_x`, with the code's square
root, gives a point exactly when `x³ + x + b` is a square, and the point is on the curve. -/
theorem sqrt_fromX_correct :
    (∀ a : MontFelt, a.val < MontFelt.p →
      ∃ r, (∀ m, MontFelt.SQRT_S < m → a.sqrt m = some r) ∧ (r = none ↔ ¬ IsSquare a.dec) ∧
        ∀ y, r = some y → y.val < MontFelt.p ∧ y.square = a) ∧
    ∀ {S Pt : Type} (C : Curve S Pt),
      (∀ y : MontFelt, y.val < MontFelt.p → ∃ n, ∀ m, n ≤ m → y.sqrt m = some (C.sqrt y)) →
      ∀ x : MontFelt, x.val < MontFelt.p →
        ((AffinePoint.fromX C x).isSome ↔ IsSquare (x.dec ^ 3 + x.dec + CURVE_B.dec)) ∧
        ∀ pt, AffinePoint.fromX C x = some pt →
          pt.x = x ∧ pt.infinity = false ∧ pt.y.dec ^ 2 = x.dec ^ 3 + x.dec + CURVE_B.dec :=
  ⟨MontFelt.sqrt_spec,fun C hC _ hx => fromX_spec C hC hx⟩

theorem MontFelt.sqrt_join_eventually (y : MontFelt) (hy : y.val < MontFelt.p) :
    ∃ n, ∀ m, n ≤ m → y.sqrt m = some (y.sqrt 193).join := by
  obtain ⟨r,hrun,-⟩ := MontFelt.sqrt_spec y hy
  refine ⟨193,fun m hm => ?_⟩
  rw [hrun m (by simp only [MontFelt.SQRT_S]; omega),hrun 193 (by decide),Option.join_some]

def sqrtCurve : Curve Unit Unit := { Curve.trivial with sqrt := fun y => (y.sqrt 193).join }

theorem sqrtCurve_sqrt (y : MontFelt) (hy : y.val < MontFelt.p) :
    ∃ n, ∀ m, n ≤ m → y.sqrt m = some (sqrtCurve.sqrt y) :=
  MontFelt.sqrt_join_eventually y hy

theorem sqrt_fromX_correct_ZERO :
    MontFelt.ZERO.val < MontFelt.p ∧
      (∃ r, ∀ m, MontFelt.SQRT_S < m → MontFelt.ZERO.sqrt m = some r) ∧
      ((AffinePoint.fromX sqrtCurve MontFelt.ZERO).isSome ↔
        IsSquare (MontFelt.ZERO.dec ^ 3 + MontFelt.ZERO.dec + CURVE_B.dec)) :=
  ⟨by decide,(sqrt_fromX_correct.1 MontFelt.ZERO (by decide)).imp fun _ h => h.1,
    (sqrt_fromX_correct.2 sqrtCurve sqrtCurve_sqrt MontFelt.ZERO (by decide)).1⟩

end Crypto
end Pathfinder
