import Pathfinder.Crypto.Sqrt
import Pathfinder.Crypto.CurveOrder
import Pathfinder.Crypto.Curve

/-! The Stark curve as the code computes it, an instance of `Curve`. Scalars are
`CurveOrderMontFelt` with its own conversions, `+`, `*` and `inverse`; square roots are
`MontFelt::sqrt`; points are the `ProjectivePoint`s of `Crypto.Curve` over `ZMod p`, the field the
`MontFelt` operations compute in, and reach the code's `AffinePoint` through the reduced
representation of their coordinates. `gen_multiply_elm` adds points of a precomputed table of
multiples of `G`, which is not modelled: it is `multiply_elm` at `CURVE_G`, as the code's test of
the table checks. The loops of `sqrt` and `inverse` get the fuel they need.

At the generator's `x` both halves of the ECDSA findings are run: `ecdsa_verify_partial` panics
on a message in `[n, p)`, and `ecdsa_sign_k` returns a signature with `s = 0`. -/
namespace Pathfinder
namespace Crypto

namespace MontFelt

def ofVal (n : ℕ) : MontFelt :=
  ⟨UInt64.ofNat n,UInt64.ofNat (n / 2 ^ 64),UInt64.ofNat (n / 2 ^ 128),UInt64.ofNat (n / 2 ^ 192)⟩

def ofZMod (y : ZMod p) : MontFelt := ofVal (y.val * 2 ^ 256 % p)

theorem val_ofVal {n : ℕ} (hn : n < 2 ^ 256) : (ofVal n).val = n := by
  simp only [val,ofVal,UInt64.toNat_ofNat']
  omega

theorem ofZMod_spec (y : ZMod p) : (ofZMod y).val < p ∧ (ofZMod y).dec = y := by
  have hlt : y.val * 2 ^ 256 % p < p := Nat.mod_lt _ p_pos
  have hv : (ofZMod y).val = y.val * 2 ^ 256 % p := val_ofVal (by have := p_lt; omega)
  refine ⟨hv ▸ hlt,?_⟩
  rw [dec,Bignum.montDecode,hv,ZMod.natCast_mod,Nat.cast_mul,ZMod.natCast_zmod_val,mul_assoc,
    cast_R_mul_RInv,mul_one]

theorem ofZMod_natCast {k : ℕ} (hk : k < p) : ofZMod (k : ZMod p) = ofVal (k * 2 ^ 256 % p) := by
  rw [ofZMod,ZMod.val_natCast,Nat.mod_eq_of_lt hk]

end MontFelt

/-- `CURVE_G`: the numbers its `from_hex` reads, and `z = 1`. -/
def CURVE_G : Algebra.ProjectivePoint (ZMod MontFelt.p) :=
  ⟨(0x1EF15C18599971B7BECED415A40F0C7DEACFD9B0D1819E03D723D8BC943CFCA : ℕ),
    (0x5668060AA49730B7BE4801DF46EC62DE53ECD11ABE43A32873000C36E8DC1F : ℕ),1,false⟩

def starkCurve : Curve CurveOrderMontFelt (Algebra.ProjectivePoint (ZMod MontFelt.p)) where
  scalarFromBeBytes := CurveOrderMontFelt.fromBeBytes
  scalarToBeBytes := CurveOrderMontFelt.toBeBytes
  scalarZero := CurveOrderMontFelt.ZERO
  scalarInverse a := (a.inverse (2 ^ 256)).join
  scalarAdd := CurveOrderMontFelt.constAdd
  scalarMul := CurveOrderMontFelt.constMul
  sqrt y := (y.sqrt 193).join
  G := CURVE_G
  ofAffine a := Algebra.ProjectivePoint.ofAffine ⟨a.x.dec,a.y.dec,a.infinity⟩
  toAffine pt := (Algebra.AffinePoint.ofProjective pt).map fun a =>
    ⟨MontFelt.ofZMod a.x,MontFelt.ofZMod a.y,a.infinity⟩
  genMultiplyElm k := CURVE_G.multiply k.intoLeBits
  multiplyElm pt k := pt.multiply k.intoLeBits
  pointAdd := Algebra.ProjectivePoint.add
  pointNegate := Algebra.ProjectivePoint.negate

theorem starkCurve_scalarInverse (a : CurveOrderMontFelt) :
    starkCurve.scalarInverse a = (a.inverse (2 ^ 256)).join := rfl

theorem starkCurve_toAffine (pt : Algebra.ProjectivePoint (ZMod MontFelt.p)) :
    starkCurve.toAffine pt = (Algebra.AffinePoint.ofProjective pt).map fun a =>
      ⟨MontFelt.ofZMod a.x,MontFelt.ofZMod a.y,a.infinity⟩ := rfl

theorem starkCurve_genMultiplyElm (k : CurveOrderMontFelt) :
    starkCurve.genMultiplyElm k = CURVE_G.multiply k.intoLeBits := rfl

theorem starkCurve_sqrt (y : MontFelt) (hy : y.val < MontFelt.p) :
    ∃ n, ∀ m, n ≤ m → y.sqrt m = some (starkCurve.sqrt y) :=
  MontFelt.sqrt_join_eventually y hy

theorem getPkPoint_isSome {S Pt : Type} (C : Curve S Pt)
    (hC : ∀ y : MontFelt, y.val < MontFelt.p → ∃ n, ∀ m, n ≤ m → y.sqrt m = some (C.sqrt y))
    {x : MontFelt} (hx : x.val < MontFelt.p) (hsq : IsSquare (x.dec ^ 3 + x.dec + CURVE_B.dec)) :
    (getPkPoint C x).isSome := by
  obtain ⟨hiff,hpt⟩ := fromX_spec C hC hx
  obtain ⟨pt,hfx⟩ := Option.isSome_iff_exists.mp (hiff.mpr hsq)
  simp only [getPkPoint,hfx,(hpt pt hfx).2.1]
  rfl

/-! ### The generator -/

set_option maxRecDepth 10000 in
theorem intoLeBits_ONE : CurveOrderMontFelt.ONE.intoLeBits = true :: List.replicate 255 false := by
  decide

theorem genMultiplyElm_ONE : starkCurve.genMultiplyElm CurveOrderMontFelt.ONE = CURVE_G := by
  rw [starkCurve_genMultiplyElm,intoLeBits_ONE]
  exact Algebra.ProjectivePoint.multiply_true_replicate_false rfl 255

theorem toAffine_CURVE_G :
    starkCurve.toAffine CURVE_G = some
      ⟨⟨14484022957141291997,5884444832209845738,299981207024966779,232005955912912577⟩,
        ⟨6241159653446987914,664812301889158119,18147424675297964973,405578048423154473⟩,false⟩ := by
  have hz : Algebra.inverse CURVE_G.z = some 1 := by
    rw [show CURVE_G.z = 1 from rfl,Algebra.inverse_of_ne_zero one_ne_zero,inv_one]
  rw [starkCurve_toAffine,Algebra.AffinePoint.ofProjective,hz]
  simp only [Option.map_some,mul_one,CURVE_G]
  rw [MontFelt.ofZMod_natCast (by decide),MontFelt.ofZMod_natCast (by decide)]
  decide

theorem scalarInverse_ONE :
    starkCurve.scalarInverse CurveOrderMontFelt.ONE = some CurveOrderMontFelt.ONE := by
  obtain ⟨r,hrun,hnone,hsome⟩ := CurveOrderMontFelt.inverse_spec CurveOrderMontFelt.ONE (by decide)
  rw [starkCurve_scalarInverse,hrun _ (by decide)]
  cases r with
  | none => exact absurd (hnone.mp rfl) (by decide)
  | some y =>
    obtain ⟨hy,hmul⟩ := hsome y rfl
    rw [Option.join_some,← hmul,CurveOrderMontFelt.ONE_constMul hy]

/-! ### ECDSA at the generator -/

section Ecdsa
variable {S Pt : Type} (C : Curve S Pt)

/-- A message in `[n, p)` makes `ecdsa_verify_partial` panic for every public key that passes
`get_pk_point`, whatever `r` and `s` are: `CurveOrderMontFelt::try_from(f_z).unwrap()` runs
before `f_z >= UPPER_BOUND` is checked. -/
theorem ecdsaVerifyPartial_panics_of_curveOrder_le {pk z : Felt} (r s : Felt)
    (hpk : (getPkPoint C (MontFelt.ofFelt pk)).isSome) (hn : curveOrder ≤ z.val)
    (hp : z.val < MontFelt.p) : ecdsaVerifyPartial C pk z r s = none := by
  obtain ⟨P,hP⟩ := Option.isSome_iff_exists.mp hpk
  have hz : C.ofMontFelt (MontFelt.ofFelt z) = .error () := by
    rw [Curve.ofMontFelt,if_neg]
    rw [MontFelt.ofFelt_ltNative_CURVE_ORDER hp]
    omega
  simp only [ecdsaVerifyPartial,hP,ecdsaVerifyInner,hz]
  rfl

theorem ecdsaVerifyPartial_panics_at_curveOrder :
    let pk : Felt := ⟨#v[1,239,21,193,133,153,151,27,123,236,237,65,90,64,240,199,222,172,253,155,
      13,24,25,224,61,114,61,139,201,67,207,202]⟩
    let z : Felt := ⟨#v[8,0,0,0,0,0,0,16,255,255,255,255,255,255,255,255,183,129,18,109,202,231,178,
      50,30,102,162,65,173,198,77,47]⟩
    let one : Felt := ⟨(Vector.replicate 31 0).push 1⟩
    (getPkPoint starkCurve (MontFelt.ofFelt pk)).isSome ∧ curveOrder ≤ z.val ∧
      z.val < MontFelt.p ∧ ecdsaVerifyPartial starkCurve pk z one one = none := by
  intro pk z one
  have hx : (MontFelt.ofFelt pk).val < MontFelt.p := by decide
  have hsq : IsSquare ((MontFelt.ofFelt pk).dec ^ 3 + (MontFelt.ofFelt pk).dec + CURVE_B.dec) := by
    have hy : (⟨6241159653446987914,664812301889158119,18147424675297964973,405578048423154473⟩ :
        MontFelt).val < MontFelt.p := by decide
    refine ⟨MontFelt.dec ⟨6241159653446987914,664812301889158119,18147424675297964973,
      405578048423154473⟩,?_⟩
    rw [← (MontFelt.fromX_rhs_spec hx).2,← sq,← (MontFelt.square_spec hy).2]
    decide +kernel
  have hpk := getPkPoint_isSome starkCurve starkCurve_sqrt hx hsq
  exact ⟨hpk,by decide,by decide,
    ecdsaVerifyPartial_panics_of_curveOrder_le starkCurve one one hpk (by decide) (by decide)⟩

/-- No signature with `s = 0` verifies: the check `f_s == MontFelt::ZERO` rejects it, if
nothing before it has. -/
theorem ecdsaVerifyPartial_ne_ok_of_zero_s (pk z r : Felt) :
    ecdsaVerifyPartial C pk z r ⟨Vector.replicate 32 0⟩ ≠ some (.ok ()) := by
  unfold ecdsaVerifyPartial
  split
  · simp
  · simp only [ecdsaVerifyInner,MontFelt.ofFelt_zero,true_or,if_true]
    intro h
    simp only [Option.bind_eq_bind,Option.bind_eq_some_iff] at h
    obtain ⟨_,-,_,-,_,-,h⟩ := h
    split_ifs at h <;> simp at h

theorem ecdsaSignK_returns_zero_s :
    let one : Felt := ⟨(Vector.replicate 31 0).push 1⟩
    let z : Felt := ⟨#v[6,16,234,62,122,102,104,245,132,19,18,190,165,191,15,55,216,212,20,210,189,
      207,152,81,224,244,100,181,228,130,125,101]⟩
    let gx : Felt := ⟨#v[1,239,21,193,133,153,151,27,123,236,237,65,90,64,240,199,222,172,253,155,
      13,24,25,224,61,114,61,139,201,67,207,202]⟩
    getPk starkCurve one = some (some gx) ∧
      ecdsaSignK starkCurve one z one = some (.ok (gx,⟨Vector.replicate 32 0⟩)) ∧
      ecdsaVerifyPartial starkCurve gx z gx ⟨Vector.replicate 32 0⟩ ≠ some (.ok ()) := by
  intro one z gx
  have hone : starkCurve.ofFelt one = .ok CurveOrderMontFelt.ONE := by decide +kernel
  have hz : starkCurve.ofFelt z = .ok ⟨11315045577325574203,9876198441075317223,1710643651796210761,
      521653761886744670⟩ := by
    decide +kernel
  refine ⟨?_,?_,ecdsaVerifyPartial_ne_ok_of_zero_s starkCurve gx z gx⟩
  · delta getPk
    rw [hone]
    dsimp only
    rw [genMultiplyElm_ONE,toAffine_CURVE_G,Option.bind_some]
    decide +kernel
  · delta ecdsaSignK
    rw [hone,hz]
    dsimp only
    simp only [genMultiplyElm_ONE,toAffine_CURVE_G,scalarInverse_ONE]
    decide +kernel

end Ecdsa

end Crypto
end Pathfinder
