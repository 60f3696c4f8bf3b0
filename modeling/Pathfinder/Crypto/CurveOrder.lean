import Pathfinder.Crypto.Inverse

/-! `CurveOrderMontFelt` (`field/curveorder`), an element of the field modulo the curve order
`n` in Montgomery form: four 64-bit limbs, least significant first, holding `x · 2^256 mod n`.
Its carry chains, comparison, parity and halving do on the four words what `MontFelt`'s do, so
they are related to them through `limbs` and their lemmas reused; Montgomery reduction reads
the modulus and `M0`, and is proved here for `n`. -/
namespace Pathfinder
namespace Crypto

/-- `CurveOrderMontFelt([u64; 4])`, least significant limb first. -/
structure CurveOrderMontFelt where
  l0 : UInt64
  l1 : UInt64
  l2 : UInt64
  l3 : UInt64
  deriving DecidableEq, Repr

namespace CurveOrderMontFelt

/-- `CurveOrderMontFelt::P`, the modulus. -/
def P : CurveOrderMontFelt :=
  ⟨2190616671734353199,13222870243701404210,18446744073709551615,576460752303423504⟩

/-- `CurveOrderMontFelt::R`, `2^256 mod n`. -/
def R : CurveOrderMontFelt :=
  ⟨5877859471073257295,14366136140576156654,8,576460752303422961⟩

/-- `CurveOrderMontFelt::R2`, `2^512 mod n`. -/
def R2 : CurveOrderMontFelt :=
  ⟨6927015553468754061,5808788430323081401,13470454832524147387,565735549540988526⟩

/-- `CurveOrderMontFelt::M0`, `-n⁻¹ mod 2^64`. -/
def M0 : UInt64 := 13504954208620504625

/-- `CurveOrderMontFelt::ZERO`. -/
def ZERO : CurveOrderMontFelt := ⟨0,0,0,0⟩

/-- `CurveOrderMontFelt::ONE`. -/
def ONE : CurveOrderMontFelt := R

/-- `is_zero`. -/
def isZero (a : CurveOrderMontFelt) : Bool := a.l0 == 0 && a.l1 == 0 && a.l2 == 0 && a.l3 == 0

/-- `is_even`. -/
def isEven (a : CurveOrderMontFelt) : Bool := a.l0 &&& 1 == 0

/-- `cmp`: the `while i > 0` loop from the most significant limb, `-1`, `0`, `1` as orderings. -/
def cmp (a x : CurveOrderMontFelt) : Ordering :=
  MontFelt.cmpLimbs [a.l3,a.l2,a.l1,a.l0] [x.l3,x.l2,x.l1,x.l0]

/-- `gt`: `cmp(x) > 0`. -/
def gt (a x : CurveOrderMontFelt) : Bool := (cmp a x).isGT

/-- `geq`: `cmp(x) >= 0`. -/
def geq (a x : CurveOrderMontFelt) : Bool := (cmp a x).isGE

/-- `add_noreduce`: the `while i < 4` carry loop. -/
def addNoreduce (a x : CurveOrderMontFelt) : CurveOrderMontFelt :=
  let (r0,carry) := constAdc a.l0 x.l0 0
  let (r1,carry) := constAdc a.l1 x.l1 carry
  let (r2,carry) := constAdc a.l2 x.l2 carry
  let (r3,_) := constAdc a.l3 x.l3 carry
  ⟨r0,r1,r2,r3⟩

/-- `sub_noreduce`: the `while i < 4` borrow loop. -/
def subNoreduce (a x : CurveOrderMontFelt) : CurveOrderMontFelt :=
  let (r0,borrow) := constSbb a.l0 x.l0 0
  let (r1,borrow) := constSbb a.l1 x.l1 borrow
  let (r2,borrow) := constSbb a.l2 x.l2 borrow
  let (r3,_) := constSbb a.l3 x.l3 borrow
  ⟨r0,r1,r2,r3⟩

/-- `reduce_partial`: subtract `n` from a value at or above it. -/
def reducePartial (a : CurveOrderMontFelt) : CurveOrderMontFelt :=
  if a.geq P then a.subNoreduce P else a

/-- `const_add`, also `+`. -/
def constAdd (a x : CurveOrderMontFelt) : CurveOrderMontFelt := (a.addNoreduce x).reducePartial

/-- `const_sub`: add `n` first when the subtrahend is the larger. -/
def constSub (a x : CurveOrderMontFelt) : CurveOrderMontFelt :=
  if x.gt a then (a.addNoreduce P).subNoreduce x else a.subNoreduce x

/-- `div2`: each limb shifted right by one, taking the low bit of the limb above. -/
def div2 (a : CurveOrderMontFelt) : CurveOrderMontFelt :=
  ⟨(a.l0 >>> 1) ||| (a.l1 <<< 63),(a.l1 >>> 1) ||| (a.l2 <<< 63),
    (a.l2 >>> 1) ||| (a.l3 <<< 63),a.l3 >>> 1⟩

def montRound (r0 r1 r2 r3 r4 carry2 : UInt64) : UInt64 × UInt64 × UInt64 × UInt64 × UInt64 :=
  let k := r0 * M0
  let (_,carry) := constMac k P.l0 r0 0
  let (r1,carry) := constMac k P.l1 r1 carry
  let (r2,carry) := constMac k P.l2 r2 carry
  let (r3,carry) := constMac k P.l3 r3 carry
  let (r4,carry2) := constAdc r4 carry2 carry
  (r1,r2,r3,r4,carry2)

def montRounds (r0 r1 r2 r3 r4 r5 r6 r7 : UInt64) : CurveOrderMontFelt :=
  let (r1,r2,r3,r4,carry2) := montRound r0 r1 r2 r3 r4 0
  let (r2,r3,r4,r5,carry2) := montRound r1 r2 r3 r4 r5 carry2
  let (r3,r4,r5,r6,carry2) := montRound r2 r3 r4 r5 r6 carry2
  let (r4,r5,r6,r7,_) := montRound r3 r4 r5 r6 r7 carry2
  ⟨r4,r5,r6,r7⟩

/-- `mont_reduce`. -/
def montReduce (r0 r1 r2 r3 r4 r5 r6 r7 : UInt64) : CurveOrderMontFelt :=
  (montRounds r0 r1 r2 r3 r4 r5 r6 r7).reducePartial

/-- `reduce_full`: out of Montgomery form. -/
def reduceFull (a : CurveOrderMontFelt) : CurveOrderMontFelt := montReduce a.l0 a.l1 a.l2 a.l3 0 0 0 0

def limbs (a : CurveOrderMontFelt) : MontFelt := ⟨a.l0,a.l1,a.l2,a.l3⟩

/-- `const_mul`. -/
def constMul (a x : CurveOrderMontFelt) : CurveOrderMontFelt :=
  let (r0,r1,r2,r3,r4) := MontFelt.mulRow a.l0 x.limbs 0 0 0 0
  let (r1,r2,r3,r4,r5) := MontFelt.mulRow a.l1 x.limbs r1 r2 r3 r4
  let (r2,r3,r4,r5,r6) := MontFelt.mulRow a.l2 x.limbs r2 r3 r4 r5
  let (r3,r4,r5,r6,r7) := MontFelt.mulRow a.l3 x.limbs r3 r4 r5 r6
  montReduce r0 r1 r2 r3 r4 r5 r6 r7

/-- `from_be_bytes`. -/
def fromBeBytes (bytes : Vector UInt8 32) : CurveOrderMontFelt :=
  let x := MontFelt.ofWords bytes
  (⟨x.l0,x.l1,x.l2,x.l3⟩ : CurveOrderMontFelt).constMul R2

/-- `to_be_bytes`: the reduced value's words `r3`, `r2`, `r1`, `r0`, one after another. -/
def toBeBytes (a : CurveOrderMontFelt) : Vector UInt8 32 :=
  let s := a.reduceFull
  let r0 := u64ToBeBytes s.l0
  let r1 := u64ToBeBytes s.l1
  let r2 := u64ToBeBytes s.l2
  let r3 := u64ToBeBytes s.l3
  Vector.ofFn fun j =>
    if j.val < 8 then r3[j.val % 8]! else if j.val < 16 then r2[j.val % 8]!
    else if j.val < 24 then r1[j.val % 8]! else r0[j.val % 8]!

/-- `into_le_bits`. -/
def intoLeBits (a : CurveOrderMontFelt) : List Bool :=
  let s := a.reduceFull
  (List.range 256).map fun i => ([s.l0,s.l1,s.l2,s.l3][i / 64]! >>> (i % 64).toUInt64) &&& 1 == 1

def inverseOps : Bignum.InverseOps CurveOrderMontFelt where
  P := P
  R2 := R2
  ZERO := ZERO
  isZero := isZero
  isEven := isEven
  isOne u := u == ⟨1,0,0,0⟩
  div2 := div2
  addNoreduce := addNoreduce
  subNoreduce := subNoreduce
  constSub := constSub
  lt v u := cmp v u == .lt

/-- `CurveOrderMontFelt::inverse`, with fuel for its loops. -/
def inverse (fuel : ℕ) (a : CurveOrderMontFelt) : Option (Option CurveOrderMontFelt) :=
  inverseOps.inverse fuel a

/-! ### The limbs as a number -/

def val (a : CurveOrderMontFelt) : ℕ := a.limbs.val

def RInv : ℕ := 529907965149806381670474843155920116774363659056372410366629184878454845563

theorem R_mul_RInv : 2 ^ 256 * RInv ≡ 1 [MOD curveOrder] := by decide

theorem val_P : P.val = curveOrder := by decide

theorem curveOrder_lt : curveOrder < 2 ^ 252 := by decide

theorem limbs_injective : Function.Injective limbs := by
  rintro ⟨a0,a1,a2,a3⟩ ⟨b0,b1,b2,b3⟩ h
  simpa [limbs] using h

theorem ext_val {a b : CurveOrderMontFelt} (h : a.val = b.val) : a = b :=
  limbs_injective (MontFelt.ext_val h)

theorem val_lt (a : CurveOrderMontFelt) : a.val < 2 ^ 256 := MontFelt.val_lt a.limbs

/-! The operations that do not read the modulus are `MontFelt`'s on the same words. -/

section Limbs
variable (a x : CurveOrderMontFelt)

theorem limbs_addNoreduce : (a.addNoreduce x).limbs = a.limbs.constAddNoreduce x.limbs := rfl

theorem limbs_subNoreduce : (a.subNoreduce x).limbs = a.limbs.constSubNoreduce x.limbs := rfl

theorem cmp_eq : cmp a x = compare a.val x.val := MontFelt.constCmp_eq a.limbs x.limbs

theorem gt_iff : a.gt x = true ↔ x.val < a.val := MontFelt.constGt_iff a.limbs x.limbs

theorem geq_iff : a.geq x = true ↔ x.val ≤ a.val := MontFelt.constGeq_iff a.limbs x.limbs

theorem isZero_iff : a.isZero = true ↔ a.val = 0 := MontFelt.isZero_iff a.limbs

theorem isEven_iff : a.isEven = true ↔ a.val % 2 = 0 := MontFelt.isEven_iff a.limbs

theorem val_div2 : a.div2.val = a.val / 2 := MontFelt.val_div2 a.limbs

theorem cmp_eq_lt_iff : (cmp a x == .lt) = true ↔ a.val < x.val := by
  rw [beq_iff_eq,cmp_eq,Nat.compare_eq_lt]

theorem beq_one_iff : (a == ⟨1,0,0,0⟩) = true ↔ a.val = 1 := by
  rw [beq_iff_eq]
  constructor
  · rintro rfl
    rfl
  · intro h
    exact ext_val (h.trans rfl)

end Limbs

section Additive
variable {a x : CurveOrderMontFelt}

theorem val_addNoreduce (h : a.val + x.val < 2 ^ 256) : (a.addNoreduce x).val = a.val + x.val := by
  rw [val,limbs_addNoreduce]
  exact MontFelt.constAddNoreduce_val h

theorem val_subNoreduce (h : x.val ≤ a.val) : (a.subNoreduce x).val = a.val - x.val := by
  rw [val,limbs_subNoreduce]
  exact MontFelt.constSubNoreduce_val h

theorem val_reducePartial : a.reducePartial.val = if curveOrder ≤ a.val then a.val - curveOrder else a.val := by
  by_cases h : curveOrder ≤ a.val
  · rw [reducePartial,if_pos ((geq_iff a P).mpr (by rw [val_P]; exact h)),if_pos h,
      val_subNoreduce (by rw [val_P]; exact h),val_P]
  · have hg : a.geq P = false := by
      rw [Bool.eq_false_iff,ne_eq,geq_iff,val_P]
      exact h
    rw [reducePartial,if_neg (by simp [hg]),if_neg h]

theorem reducePartial_spec (h : a.val < 2 * curveOrder) :
    a.reducePartial.val < curveOrder ∧ a.reducePartial.val ≡ a.val [MOD curveOrder] := by
  rw [val_reducePartial]
  exact Bignum.condSub_spec h

theorem constSub_spec (ha : a.val < curveOrder) (hx : x.val < curveOrder) :
    (constSub a x).val < curveOrder ∧ (constSub a x).val + x.val ≡ a.val [MOD curveOrder] := by
  have := curveOrder_lt
  by_cases hg : a.val < x.val
  · have ht := val_addNoreduce (a := a) (x := P) (by rw [val_P]; omega)
    rw [val_P] at ht
    have hr := val_subNoreduce (a := a.addNoreduce P) (x := x) (by omega)
    rw [constSub,if_pos ((gt_iff x a).mpr hg),hr,ht]
    refine ⟨by omega,?_⟩
    rw [Nat.sub_add_cancel (by omega)]
    exact Nat.add_modEq_right
  · have hr := val_subNoreduce (a := a) (x := x) (by omega)
    rw [constSub,if_neg (by simpa [gt_iff] using hg),hr,Nat.sub_add_cancel (by omega)]
    exact ⟨by omega,rfl⟩

end Additive

/-! ### Montgomery reduction modulo `n` -/

section Reduction

theorem low_clear (r0 : UInt64) : (r0.toNat + (r0 * M0).toNat * P.l0.toNat) % 2 ^ 64 = 0 := by
  rw [UInt64.toNat_mul]
  simp only [M0,P,UInt64.reduceToNat]
  omega

theorem montRound_spec (r0 r1 r2 r3 r4 c2 : UInt64) (hc : c2.toNat ≤ 1) :
    ∃ o1 o2 o3 o4 oc, montRound r0 r1 r2 r3 r4 c2 = (o1,o2,o3,o4,oc) ∧ oc.toNat ≤ 1 ∧
      ∃ k < 2 ^ 64, r0.toNat + 2 ^ 64 * r1.toNat + 2 ^ 128 * r2.toNat + 2 ^ 192 * r3.toNat +
        2 ^ 256 * (r4.toNat + c2.toNat) + k * curveOrder =
        2 ^ 64 * (o1.toNat + 2 ^ 64 * o2.toNat + 2 ^ 128 * o3.toNat + 2 ^ 192 * o4.toNat +
          2 ^ 256 * oc.toNat) := by
  have hr4 := UInt64.toNat_lt_two_pow r4
  have hclear := low_clear r0
  obtain ⟨x0,d0,e0,h0⟩ := constMac_spec (r0 * M0) P.l0 r0 0
  obtain ⟨o1,d1,e1,h1⟩ := constMac_spec (r0 * M0) P.l1 r1 d0
  obtain ⟨o2,d2,e2,h2⟩ := constMac_spec (r0 * M0) P.l2 r2 d1
  obtain ⟨o3,d3,e3,h3⟩ := constMac_spec (r0 * M0) P.l3 r3 d2
  have hd3 := UInt64.toNat_lt_two_pow d3
  obtain ⟨o4,oc,e4,h4,b4⟩ := constAdc_spec r4 c2 d3 (by omega)
  have hx0 := UInt64.toNat_lt_two_pow x0
  refine ⟨o1,o2,o3,o4,oc,by simp only [montRound,e0,e1,e2,e3,e4],b4,(r0 * M0).toNat,
    UInt64.toNat_lt_two_pow _,?_⟩
  simp only [P,UInt64.reduceToNat] at h0 h1 h2 h3 hclear
  simp only [curveOrder]
  omega

theorem montRounds_spec (r0 r1 r2 r3 r4 r5 r6 r7 : UInt64) :
    ∃ K < 2 ^ 256, ∃ c, r0.toNat + 2 ^ 64 * r1.toNat + 2 ^ 128 * r2.toNat + 2 ^ 192 * r3.toNat +
      2 ^ 256 * r4.toNat + 2 ^ 320 * r5.toNat + 2 ^ 384 * r6.toNat + 2 ^ 448 * r7.toNat +
      K * curveOrder = 2 ^ 256 * (montRounds r0 r1 r2 r3 r4 r5 r6 r7).val + 2 ^ 512 * c := by
  obtain ⟨a1,a2,a3,a4,c1,E1,b1,k1,hk1,h1⟩ := montRound_spec r0 r1 r2 r3 r4 0 (by decide)
  obtain ⟨b2,b3,b4,b5,c2,E2,b2',k2,hk2,h2⟩ := montRound_spec a1 a2 a3 a4 r5 c1 b1
  obtain ⟨d3,d4,d5,d6,c3,E3,b3',k3,hk3,h3⟩ := montRound_spec b2 b3 b4 b5 r6 c2 b2'
  obtain ⟨f4,f5,f6,f7,c4,E4,-,k4,hk4,h4⟩ := montRound_spec d3 d4 d5 d6 r7 c3 b3'
  refine ⟨k1 + 2 ^ 64 * k2 + 2 ^ 128 * k3 + 2 ^ 192 * k4,by omega,c4.toNat,?_⟩
  simp only [montRounds,E1,E2,E3,E4,val,limbs,MontFelt.val]
  simp only [curveOrder,UInt64.toNat_zero] at h1 h2 h3 h4 ⊢
  omega

theorem montReduce_spec (r0 r1 r2 r3 r4 r5 r6 r7 : UInt64)
    (hT : r0.toNat + 2 ^ 64 * r1.toNat + 2 ^ 128 * r2.toNat + 2 ^ 192 * r3.toNat +
      2 ^ 256 * r4.toNat + 2 ^ 320 * r5.toNat + 2 ^ 384 * r6.toNat + 2 ^ 448 * r7.toNat <
      2 ^ 256 * curveOrder) :
    (montReduce r0 r1 r2 r3 r4 r5 r6 r7).val < curveOrder ∧
      2 ^ 256 * (montReduce r0 r1 r2 r3 r4 r5 r6 r7).val ≡
        r0.toNat + 2 ^ 64 * r1.toNat + 2 ^ 128 * r2.toNat + 2 ^ 192 * r3.toNat +
        2 ^ 256 * r4.toNat + 2 ^ 320 * r5.toNat + 2 ^ 384 * r6.toNat + 2 ^ 448 * r7.toNat
        [MOD curveOrder] := by
  obtain ⟨K,hK,c,h⟩ := montRounds_spec r0 r1 r2 r3 r4 r5 r6 r7
  set T := r0.toNat + 2 ^ 64 * r1.toNat + 2 ^ 128 * r2.toNat + 2 ^ 192 * r3.toNat +
    2 ^ 256 * r4.toNat + 2 ^ 320 * r5.toNat + 2 ^ 384 * r6.toNat + 2 ^ 448 * r7.toNat
  set m := montRounds r0 r1 r2 r3 r4 r5 r6 r7
  have hKn : K * curveOrder ≤ 2 ^ 256 * curveOrder := Nat.mul_le_mul_right _ hK.le
  have hn := curveOrder_lt
  have hm : 2 ^ 256 * m.val = T + K * curveOrder := by
    have := val_lt m
    omega
  obtain ⟨hlt,hmod⟩ := reducePartial_spec (Bignum.redc_lt hm hT hK)
  refine ⟨hlt,?_⟩
  calc 2 ^ 256 * m.reducePartial.val ≡ 2 ^ 256 * m.val [MOD curveOrder] := hmod.mul_left _
    _ = T + K * curveOrder := hm
    _ ≡ T [MOD curveOrder] := Nat.add_mul_mod_self_right T K curveOrder

theorem constMul_spec {a x : CurveOrderMontFelt} (ha : a.val < curveOrder) (hx : x.val < curveOrder) :
    (a.constMul x).val < curveOrder ∧ 2 ^ 256 * (a.constMul x).val ≡ a.val * x.val [MOD curveOrder] := by
  obtain ⟨r0,r1,r2,r3,r4,E0,h0⟩ := MontFelt.mulRow_spec a.l0 x.limbs 0 0 0 0
  obtain ⟨s1,s2,s3,s4,r5,E1,h1⟩ := MontFelt.mulRow_spec a.l1 x.limbs r1 r2 r3 r4
  obtain ⟨t2,t3,t4,t5,r6,E2,h2⟩ := MontFelt.mulRow_spec a.l2 x.limbs s2 s3 s4 r5
  obtain ⟨u3,u4,u5,u6,r7,E3,h3⟩ := MontFelt.mulRow_spec a.l3 x.limbs t3 t4 t5 r6
  have ha' : a.val * x.val = a.l0.toNat * x.limbs.val + 2 ^ 64 * (a.l1.toNat * x.limbs.val) +
      2 ^ 128 * (a.l2.toNat * x.limbs.val) + 2 ^ 192 * (a.l3.toNat * x.limbs.val) := by
    simp only [val,limbs,MontFelt.val]
    ring
  have hT : r0.toNat + 2 ^ 64 * s1.toNat + 2 ^ 128 * t2.toNat + 2 ^ 192 * u3.toNat +
      2 ^ 256 * u4.toNat + 2 ^ 320 * u5.toNat + 2 ^ 384 * u6.toNat + 2 ^ 448 * r7.toNat =
      a.val * x.val := by
    simp only [UInt64.toNat_zero] at h0
    omega
  have hlt : a.val * x.val < 2 ^ 256 * curveOrder :=
    calc a.val * x.val < curveOrder * curveOrder := Nat.mul_lt_mul'' ha hx
      _ ≤ 2 ^ 256 * curveOrder := Nat.mul_le_mul_right _ (by have := curveOrder_lt; omega)
  have h := montReduce_spec r0 s1 t2 u3 u4 u5 u6 r7 (hT ▸ hlt)
  rw [hT] at h
  simpa only [constMul,E0,E1,E2,E3] using h

end Reduction

/-! ### Inversion -/

theorem implements_inverseOps : inverseOps.Implements val curveOrder where
  val_P := val_P
  val_R2 := by decide
  val_ZERO := rfl
  isZero_iff := isZero_iff
  isEven_iff := isEven_iff
  isOne_iff := beq_one_iff
  val_div2 := val_div2
  val_addNoreduce a x ha hx := by
    have := curveOrder_lt
    exact val_addNoreduce (by omega)
  val_subNoreduce a x h := val_subNoreduce h
  constSub_lt a x ha hx := (constSub_spec ha hx).1
  constSub_modEq a x ha hx := (constSub_spec ha hx).2
  lt_iff := cmp_eq_lt_iff

theorem val_R2 : R2.val ≡ 2 ^ 256 * 2 ^ 256 [MOD curveOrder] := by decide

theorem val_ONE : ONE.val ≡ 2 ^ 256 [MOD curveOrder] := by decide

theorem constMul_eq_ONE {x y : CurveOrderMontFelt} (hx : x.val < curveOrder)
    (hy : y.val < curveOrder) (h : x.val * y.val ≡ R2.val [MOD curveOrder]) :
    x.constMul y = ONE := by
  obtain ⟨hlt,hmod⟩ := constMul_spec hx hy
  have hone : ONE.val < curveOrder := by decide
  have h2 : 2 ^ 256 * (x.constMul y).val ≡ 2 ^ 256 * ONE.val [MOD curveOrder] :=
    calc 2 ^ 256 * (x.constMul y).val ≡ x.val * y.val [MOD curveOrder] := hmod
      _ ≡ R2.val [MOD curveOrder] := h
      _ ≡ 2 ^ 256 * 2 ^ 256 [MOD curveOrder] := val_R2
      _ ≡ 2 ^ 256 * ONE.val [MOD curveOrder] := (val_ONE.symm).mul_left _
  exact ext_val (Nat.ModEq.eq_of_lt_of_lt (Bignum.modEq_of_mul_left R_mul_RInv h2) hlt hone)

theorem ONE_constMul {y : CurveOrderMontFelt} (hy : y.val < curveOrder) : ONE.constMul y = y := by
  obtain ⟨hlt,hmod⟩ := constMul_spec (by decide : ONE.val < curveOrder) hy
  have h2 : 2 ^ 256 * (ONE.constMul y).val ≡ 2 ^ 256 * y.val [MOD curveOrder] :=
    hmod.trans (val_ONE.mul_right _)
  exact ext_val (Nat.ModEq.eq_of_lt_of_lt (Bignum.modEq_of_mul_left R_mul_RInv h2) hlt hy)

theorem inverse_spec (x : CurveOrderMontFelt) (hx : x.val < curveOrder) :
    ∃ r, (∀ m, x.val + curveOrder ≤ m → x.inverse m = some r) ∧ (r = none ↔ x.isZero = true) ∧
      ∀ y, r = some y → y.val < curveOrder ∧ x.constMul y = ONE := by
  obtain ⟨r,hrun,hnone,hsome⟩ :=
    Bignum.InverseOps.inverse_spec implements_inverseOps (by decide) prime_curveOrder x hx
  refine ⟨r,hrun,by rw [hnone,isZero_iff],fun y hy => ?_⟩
  obtain ⟨hlt,hmod⟩ := hsome y hy
  exact ⟨hlt,constMul_eq_ONE hx hlt hmod⟩

end CurveOrderMontFelt

/-- Both inverses end on every reduced input, give `None` exactly for zero, and otherwise a
reduced `y` whose Montgomery product with `x` is `ONE`. -/
theorem fieldInverse_correct :
    (∀ x : MontFelt, x.val < MontFelt.p →
      ∃ r, (∀ m, x.val + MontFelt.p ≤ m → x.inverse m = some r) ∧ (r = none ↔ x.isZero = true) ∧
        ∀ y, r = some y → y.val < MontFelt.p ∧ x.mul y = MontFelt.ONE) ∧
    (∀ x : CurveOrderMontFelt, x.val < curveOrder →
      ∃ r, (∀ m, x.val + curveOrder ≤ m → x.inverse m = some r) ∧ (r = none ↔ x.isZero = true) ∧
        ∀ y, r = some y → y.val < curveOrder ∧ x.constMul y = CurveOrderMontFelt.ONE) :=
  ⟨MontFelt.inverse_spec,CurveOrderMontFelt.inverse_spec⟩

theorem fieldInverse_correct_ONE :
    MontFelt.ONE.val < MontFelt.p ∧ CurveOrderMontFelt.ONE.val < curveOrder ∧
      (∃ r, ∀ m, MontFelt.ONE.val + MontFelt.p ≤ m → MontFelt.ONE.inverse m = some r) ∧
      ∃ r, ∀ m, CurveOrderMontFelt.ONE.val + curveOrder ≤ m →
        CurveOrderMontFelt.ONE.inverse m = some r :=
  ⟨by decide,by decide,(fieldInverse_correct.1 MontFelt.ONE (by decide)).imp fun _ h => h.1,
    (fieldInverse_correct.2 CurveOrderMontFelt.ONE (by decide)).imp fun _ h => h.1⟩

end Crypto
end Pathfinder
