import Pathfinder.Crypto.MontFelt
import Pathfinder.Bignum.Digits
import Pathfinder.Bignum.Montgomery

/-! What the `MontFelt` operations compute. The limbs read as a number `val`, and stand for
the field element `dec = val · 2^-256 mod p`. On representations below `p` every operation
returns a representation below `p` of the field operation's result, and the `const` and
in-place forms return the same limbs on every input. -/
namespace Pathfinder
namespace Crypto
namespace MontFelt

def p : ℕ := 3618502788666131213697322783095070105623107215331596699973092056135872020481

def RInv : ℕ := 113078212145816603762751633895895194930089271709401121343797004406777446400

def val (a : MontFelt) : ℕ :=
  a.l0.toNat + 2 ^ 64 * a.l1.toNat + 2 ^ 128 * a.l2.toNat + 2 ^ 192 * a.l3.toNat

def dec (a : MontFelt) : ZMod p := Bignum.montDecode p RInv a.val

theorem R_mul_RInv : 2 ^ 256 * RInv ≡ 1 [MOD p] := by decide

theorem val_P : P.val = p := by decide

theorem p_lt : p < 2 ^ 252 := by decide

theorem p_pos : 0 < p := by decide

theorem limbs_lt (a : MontFelt) :
    a.l0.toNat < 2 ^ 64 ∧ a.l1.toNat < 2 ^ 64 ∧ a.l2.toNat < 2 ^ 64 ∧ a.l3.toNat < 2 ^ 64 :=
  ⟨UInt64.toNat_lt_two_pow _,UInt64.toNat_lt_two_pow _,UInt64.toNat_lt_two_pow _,
    UInt64.toNat_lt_two_pow _⟩

theorem val_lt (a : MontFelt) : a.val < 2 ^ 256 := by
  obtain ⟨h0,h1,h2,h3⟩ := limbs_lt a
  simp only [val]
  omega

theorem ext_val {a b : MontFelt} (h : a.val = b.val) : a = b := by
  obtain ⟨a0,a1,a2,a3⟩ := a
  obtain ⟨b0,b1,b2,b3⟩ := b
  have ha := limbs_lt ⟨a0,a1,a2,a3⟩
  have hb := limbs_lt ⟨b0,b1,b2,b3⟩
  simp only [val] at h ha hb
  simp only [mk.injEq,← UInt64.toNat_inj]
  omega

theorem eq_of_val_add {r r' : MontFelt} {c c' : ℕ} (h : r.val + 2 ^ 256 * c = r'.val + 2 ^ 256 * c') :
    r = r' := by
  have := val_lt r
  have := val_lt r'
  exact ext_val (by omega)

section Carry
variable (a x : MontFelt)

theorem constAddNoreduce_spec :
    ∃ c ≤ 1, (constAddNoreduce a x).val + 2 ^ 256 * c = a.val + x.val := by
  obtain ⟨a0,a1,a2,a3⟩ := limbs_lt a
  obtain ⟨x0,x1,x2,x3⟩ := limbs_lt x
  obtain ⟨r0,c0,e0,h0,b0⟩ := constAdc_spec a.l0 x.l0 0 (by simp; omega)
  obtain ⟨r1,c1,e1,h1,b1⟩ := constAdc_spec a.l1 x.l1 c0 (by omega)
  obtain ⟨r2,c2,e2,h2,b2⟩ := constAdc_spec a.l2 x.l2 c1 (by omega)
  obtain ⟨r3,c3,e3,h3,b3⟩ := constAdc_spec a.l3 x.l3 c2 (by omega)
  refine ⟨c3.toNat,b3,?_⟩
  simp only [UInt64.toNat_zero] at h0
  simp only [constAddNoreduce,e0,e1,e2,e3,val]
  omega

theorem addAssignNoreduce_spec :
    ∃ c ≤ 1, (addAssignNoreduce a x).val + 2 ^ 256 * c = a.val + x.val := by
  obtain ⟨r0,c0,e0,h0,b0⟩ := adc_spec a.l0 x.l0 0 (by decide)
  obtain ⟨r1,c1,e1,h1,b1⟩ := adc_spec a.l1 x.l1 c0 b0
  obtain ⟨r2,c2,e2,h2,b2⟩ := adc_spec a.l2 x.l2 c1 b1
  obtain ⟨r3,c3,e3,h3,b3⟩ := adc_spec a.l3 x.l3 c2 b2
  refine ⟨c3.toNat,b3,?_⟩
  simp only [UInt8.toNat_zero] at h0
  simp only [addAssignNoreduce,e0,e1,e2,e3,val]
  omega

theorem doubleAssignNoreduce_spec :
    ∃ c ≤ 1, a.doubleAssignNoreduce.val + 2 ^ 256 * c = a.val + a.val := by
  obtain ⟨r0,c0,e0,h0,b0⟩ := adc_spec a.l0 a.l0 0 (by decide)
  obtain ⟨r1,c1,e1,h1,b1⟩ := adc_spec a.l1 a.l1 c0 b0
  obtain ⟨r2,c2,e2,h2,b2⟩ := adc_spec a.l2 a.l2 c1 b1
  obtain ⟨r3,c3,e3,h3,b3⟩ := adc_spec a.l3 a.l3 c2 b2
  refine ⟨c3.toNat,b3,?_⟩
  simp only [UInt8.toNat_zero] at h0
  simp only [doubleAssignNoreduce,e0,e1,e2,e3,val]
  omega

theorem constSubNoreduce_spec :
    ∃ b ≤ 1, (constSubNoreduce a x).val + x.val = a.val + 2 ^ 256 * b := by
  obtain ⟨r0,c0,e0,h0,b0⟩ := constSbb_spec a.l0 x.l0 0 (by decide)
  obtain ⟨r1,c1,e1,h1,b1⟩ := constSbb_spec a.l1 x.l1 c0 b0
  obtain ⟨r2,c2,e2,h2,b2⟩ := constSbb_spec a.l2 x.l2 c1 b1
  obtain ⟨r3,c3,e3,h3,b3⟩ := constSbb_spec a.l3 x.l3 c2 b2
  refine ⟨c3.toNat,b3,?_⟩
  simp only [UInt64.toNat_zero] at h0
  simp only [constSubNoreduce,e0,e1,e2,e3,val]
  omega

theorem subAssignNoreduce_spec :
    ∃ b ≤ 1, (subAssignNoreduce a x).val + x.val = a.val + 2 ^ 256 * b := by
  obtain ⟨r0,c0,e0,h0,b0⟩ := sbb_spec a.l0 x.l0 0 (by decide)
  obtain ⟨r1,c1,e1,h1,b1⟩ := sbb_spec a.l1 x.l1 c0 b0
  obtain ⟨r2,c2,e2,h2,b2⟩ := sbb_spec a.l2 x.l2 c1 b1
  obtain ⟨r3,c3,e3,h3,b3⟩ := sbb_spec a.l3 x.l3 c2 b2
  refine ⟨c3.toNat,b3,?_⟩
  simp only [UInt8.toNat_zero] at h0
  simp only [subAssignNoreduce,e0,e1,e2,e3,val]
  omega

/-! The in-place carry loops compute the same limbs as the `const` ones. -/

theorem addAssignNoreduce_eq : addAssignNoreduce a x = constAddNoreduce a x := by
  obtain ⟨c,-,h⟩ := addAssignNoreduce_spec a x
  obtain ⟨c',-,h'⟩ := constAddNoreduce_spec a x
  exact eq_of_val_add (h.trans h'.symm)

theorem doubleAssignNoreduce_eq : a.doubleAssignNoreduce = constAddNoreduce a a := by
  obtain ⟨c,-,h⟩ := doubleAssignNoreduce_spec a
  obtain ⟨c',-,h'⟩ := constAddNoreduce_spec a a
  exact eq_of_val_add (h.trans h'.symm)

theorem subAssignNoreduce_eq : subAssignNoreduce a x = constSubNoreduce a x := by
  obtain ⟨b,-,h⟩ := subAssignNoreduce_spec a x
  obtain ⟨b',-,h'⟩ := constSubNoreduce_spec a x
  have e : (subAssignNoreduce a x).val + 2 ^ 256 * b' = (constSubNoreduce a x).val + 2 ^ 256 * b := by
    omega
  exact eq_of_val_add e

end Carry

section Compare

theorem cmpLimbs_eq : ∀ as bs : List UInt64,
    cmpLimbs as bs = Bignum.cmpDigits (as.map UInt64.toNat) (bs.map UInt64.toNat)
  | a :: as, b :: bs => by
    simp only [cmpLimbs,List.map_cons,Bignum.cmpDigits,UInt64.lt_iff_toNat_lt,gt_iff_lt,
      cmpLimbs_eq as bs]
  | [], [] => rfl
  | [], _ :: _ => rfl
  | _ :: _, [] => rfl

theorem constCmp_eq (a x : MontFelt) : constCmp a x = compare a.val x.val := by
  have hv : ∀ y : MontFelt,
      Nat.ofDigits (2 ^ 64) ([y.l3,y.l2,y.l1,y.l0].map UInt64.toNat).reverse = y.val := by
    intro y
    simp only [List.map_cons,List.map_nil,List.reverse_cons,List.reverse_nil,List.nil_append,
      List.cons_append,Nat.ofDigits_cons,Nat.ofDigits_nil,val]
    ring
  have hd : ∀ y : MontFelt, ∀ d ∈ [y.l3,y.l2,y.l1,y.l0].map UInt64.toNat, d < 2 ^ 64 := by
    intro y d hd
    simp only [List.map_cons,List.map_nil,List.mem_cons,List.not_mem_nil,or_false] at hd
    rcases hd with rfl | rfl | rfl | rfl <;> exact UInt64.toNat_lt_two_pow _
  rw [constCmp,cmpLimbs_eq,@Bignum.cmpDigits_eq_compare (2 ^ 64) (by norm_num)
    ([a.l3,a.l2,a.l1,a.l0].map UInt64.toNat) ([x.l3,x.l2,x.l1,x.l0].map UInt64.toNat) rfl (hd a)
    (hd x),hv,hv]

theorem constGeq_iff (a x : MontFelt) : a.constGeq x = true ↔ x.val ≤ a.val := by
  rw [constGeq,constCmp_eq]
  rcases Nat.lt_trichotomy a.val x.val with h | h | h
  · simp [Nat.compare_eq_lt.mpr h,h]
  · simp [h]
  · simp [Nat.compare_eq_gt.mpr h,h.le]

theorem constGt_iff (a x : MontFelt) : a.constGt x = true ↔ x.val < a.val := by
  rw [constGt,constCmp_eq]
  rcases Nat.lt_trichotomy a.val x.val with h | h | h
  · simp [Nat.compare_eq_lt.mpr h,h.le]
  · simp [h]
  · simp [Nat.compare_eq_gt.mpr h,h]

theorem isZero_iff (a : MontFelt) : a.isZero = true ↔ a.val = 0 := by
  simp only [isZero,Bool.and_eq_true,beq_iff_eq,val,← UInt64.toNat_inj,UInt64.toNat_zero]
  omega

end Compare

section Reduce
variable (a : MontFelt)

theorem constReducePartial_val :
    (constReducePartial a).val = if p ≤ a.val then a.val - p else a.val := by
  by_cases h : p ≤ a.val
  · have hg : a.constGeq P = true := (constGeq_iff a P).mpr (by rw [val_P]; exact h)
    obtain ⟨b,-,hb⟩ := constSubNoreduce_spec a P
    have := val_lt (a.constSubNoreduce P)
    rw [val_P] at hb
    rw [constReducePartial,if_pos hg,if_pos h]
    omega
  · have hg : a.constGeq P = false := by
      rw [Bool.eq_false_iff,ne_eq,constGeq_iff,val_P]
      exact h
    rw [constReducePartial,if_neg (by simp [hg]),if_neg h]

theorem constReducePartial_spec (h : a.val < 2 * p) :
    (constReducePartial a).val < p ∧ (constReducePartial a).val ≡ a.val [MOD p] := by
  rw [constReducePartial_val]
  exact Bignum.condSub_spec h

theorem reducePartial_eq : reducePartial a = constReducePartial a := by
  rw [reducePartial,constReducePartial,subAssignNoreduce_eq]

end Reduce

section Additive
variable {a x : MontFelt}

theorem constAddNoreduce_val (h : a.val + x.val < 2 ^ 256) :
    (constAddNoreduce a x).val = a.val + x.val := by
  obtain ⟨c,-,hc⟩ := constAddNoreduce_spec a x
  have := val_lt (constAddNoreduce a x)
  omega

theorem constSubNoreduce_val (h : x.val ≤ a.val) : (constSubNoreduce a x).val = a.val - x.val := by
  obtain ⟨b,-,hb⟩ := constSubNoreduce_spec a x
  have := val_lt (constSubNoreduce a x)
  have := val_lt a
  omega

variable (ha : a.val < p) (hx : x.val < p)
include ha hx

theorem constAdd_spec : (constAdd a x).val < p ∧ (constAdd a x).val ≡ a.val + x.val [MOD p] := by
  have hs := constAddNoreduce_val (a := a) (x := x) (by have := p_lt; omega)
  rw [constAdd,← hs]
  exact constReducePartial_spec _ (by rw [hs]; omega)

theorem constSub_spec : (constSub a x).val < p ∧ (constSub a x).val + x.val ≡ a.val [MOD p] := by
  have := p_lt
  by_cases hg : a.val < x.val
  · have ht := constAddNoreduce_val (a := a) (x := P) (by rw [val_P]; omega)
    rw [val_P] at ht
    have hr := constSubNoreduce_val (a := a.constAddNoreduce P) (x := x) (by omega)
    rw [constSub,if_pos ((constGt_iff x a).mpr hg),hr,ht]
    refine ⟨by omega,?_⟩
    rw [Nat.sub_add_cancel (by omega)]
    exact Nat.add_modEq_right
  · have hr := constSubNoreduce_val (a := a) (x := x) (by omega)
    rw [constSub,if_neg (by simpa [constGt_iff] using hg),hr,Nat.sub_add_cancel (by omega)]
    exact ⟨by omega,rfl⟩

end Additive

section Unary
variable {a : MontFelt} (ha : a.val < p)
include ha

theorem constDouble_spec : a.constDouble.val < p ∧ a.constDouble.val ≡ a.val + a.val [MOD p] :=
  constAdd_spec ha ha

theorem constNeg_spec : a.constNeg.val < p ∧ a.constNeg.val + a.val ≡ 0 [MOD p] := by
  by_cases hz : a.val = 0
  · rw [constNeg,if_pos ((isZero_iff a).mpr hz),hz]
    exact ⟨by omega,rfl⟩
  · have hr := constSubNoreduce_val (a := P) (x := a) (by rw [val_P]; omega)
    rw [constNeg,if_neg (by simpa [isZero_iff] using hz),hr,val_P,Nat.sub_add_cancel ha.le]
    exact ⟨by omega,Nat.modEq_zero_iff_dvd.mpr (dvd_refl p)⟩

end Unary

section Reduction

theorem montRound_spec (r0 r1 r2 r3 r4 c2 : UInt64) (hc : c2.toNat ≤ 1) :
    ∃ o1 o2 o3 o4 oc, montRound r0 r1 r2 r3 r4 c2 = (o1,o2,o3,o4,oc) ∧ oc.toNat ≤ 1 ∧
      ∃ k < 2 ^ 64, r0.toNat + 2 ^ 64 * r1.toNat + 2 ^ 128 * r2.toNat + 2 ^ 192 * r3.toNat +
        2 ^ 256 * (r4.toNat + c2.toNat) + k * p =
        2 ^ 64 * (o1.toNat + 2 ^ 64 * o2.toNat + 2 ^ 128 * o3.toNat + 2 ^ 192 * o4.toNat +
          2 ^ 256 * oc.toNat) := by
  have hr0 := UInt64.toNat_lt_two_pow r0
  have hr4 := UInt64.toNat_lt_two_pow r4
  have hk : (r0 * M0).toNat = r0.toNat * (2 ^ 64 - 1) % 2 ^ 64 := by
    rw [UInt64.toNat_mul]
    rfl
  obtain ⟨x0,d0,e0,h0⟩ := constMac_spec (r0 * M0) P.l0 r0 0
  obtain ⟨o1,d1,e1,h1⟩ := constMac_spec (r0 * M0) P.l1 r1 d0
  obtain ⟨o2,d2,e2,h2⟩ := constMac_spec (r0 * M0) P.l2 r2 d1
  obtain ⟨o3,d3,e3,h3⟩ := constMac_spec (r0 * M0) P.l3 r3 d2
  have hd3 := UInt64.toNat_lt_two_pow d3
  obtain ⟨o4,oc,e4,h4,b4⟩ := constAdc_spec r4 c2 d3 (by omega)
  have hx0 := UInt64.toNat_lt_two_pow x0
  refine ⟨o1,o2,o3,o4,oc,by simp only [montRound,e0,e1,e2,e3,e4],b4,(r0 * M0).toNat,
    UInt64.toNat_lt_two_pow _,?_⟩
  simp only [P,p,UInt64.toNat_zero] at h0 h1 h2 h3 ⊢
  rw [hk] at h0 h1 h2 h3 ⊢
  simp only [UInt64.reduceToNat] at h0 h1 h2 h3
  omega

theorem montRounds_spec (r0 r1 r2 r3 r4 r5 r6 r7 : UInt64) :
    ∃ K < 2 ^ 256, ∃ c, r0.toNat + 2 ^ 64 * r1.toNat + 2 ^ 128 * r2.toNat + 2 ^ 192 * r3.toNat +
      2 ^ 256 * r4.toNat + 2 ^ 320 * r5.toNat + 2 ^ 384 * r6.toNat + 2 ^ 448 * r7.toNat + K * p =
      2 ^ 256 * (montRounds r0 r1 r2 r3 r4 r5 r6 r7).val + 2 ^ 512 * c := by
  obtain ⟨a1,a2,a3,a4,c1,E1,b1,k1,hk1,h1⟩ := montRound_spec r0 r1 r2 r3 r4 0 (by decide)
  obtain ⟨b2,b3,b4,b5,c2,E2,b2',k2,hk2,h2⟩ := montRound_spec a1 a2 a3 a4 r5 c1 b1
  obtain ⟨d3,d4,d5,d6,c3,E3,b3',k3,hk3,h3⟩ := montRound_spec b2 b3 b4 b5 r6 c2 b2'
  obtain ⟨f4,f5,f6,f7,c4,E4,-,k4,hk4,h4⟩ := montRound_spec d3 d4 d5 d6 r7 c3 b3'
  refine ⟨k1 + 2 ^ 64 * k2 + 2 ^ 128 * k3 + 2 ^ 192 * k4,by omega,c4.toNat,?_⟩
  simp only [montRounds,E1,E2,E3,E4,val]
  simp only [p,UInt64.toNat_zero] at h1 h2 h3 h4 ⊢
  omega

theorem constMontReduce_spec (r0 r1 r2 r3 r4 r5 r6 r7 : UInt64)
    (hT : r0.toNat + 2 ^ 64 * r1.toNat + 2 ^ 128 * r2.toNat + 2 ^ 192 * r3.toNat +
      2 ^ 256 * r4.toNat + 2 ^ 320 * r5.toNat + 2 ^ 384 * r6.toNat + 2 ^ 448 * r7.toNat <
      2 ^ 256 * p) :
    (constMontReduce r0 r1 r2 r3 r4 r5 r6 r7).val < p ∧
      2 ^ 256 * (constMontReduce r0 r1 r2 r3 r4 r5 r6 r7).val ≡
        r0.toNat + 2 ^ 64 * r1.toNat + 2 ^ 128 * r2.toNat + 2 ^ 192 * r3.toNat +
        2 ^ 256 * r4.toNat + 2 ^ 320 * r5.toNat + 2 ^ 384 * r6.toNat + 2 ^ 448 * r7.toNat [MOD p] := by
  obtain ⟨K,hK,c,h⟩ := montRounds_spec r0 r1 r2 r3 r4 r5 r6 r7
  set T := r0.toNat + 2 ^ 64 * r1.toNat + 2 ^ 128 * r2.toNat + 2 ^ 192 * r3.toNat +
    2 ^ 256 * r4.toNat + 2 ^ 320 * r5.toNat + 2 ^ 384 * r6.toNat + 2 ^ 448 * r7.toNat
  set m := montRounds r0 r1 r2 r3 r4 r5 r6 r7
  have hKp : K * p ≤ 2 ^ 256 * p := Nat.mul_le_mul_right _ hK.le
  have hp := p_lt
  have hm : 2 ^ 256 * m.val = T + K * p := by omega
  have hm2 := Bignum.redc_lt hm hT hK
  obtain ⟨hlt,hmod⟩ := constReducePartial_spec m hm2
  refine ⟨hlt,?_⟩
  calc 2 ^ 256 * m.constReducePartial.val ≡ 2 ^ 256 * m.val [MOD p] := hmod.mul_left _
    _ = T + K * p := hm
    _ ≡ T [MOD p] := Nat.add_mul_mod_self_right T K p

theorem constReduceFull_spec (a : MontFelt) :
    a.constReduceFull.val < p ∧ 2 ^ 256 * a.constReduceFull.val ≡ a.val [MOD p] := by
  have hT : a.l0.toNat + 2 ^ 64 * a.l1.toNat + 2 ^ 128 * a.l2.toNat + 2 ^ 192 * a.l3.toNat +
      2 ^ 256 * (0 : UInt64).toNat + 2 ^ 320 * (0 : UInt64).toNat + 2 ^ 384 * (0 : UInt64).toNat +
      2 ^ 448 * (0 : UInt64).toNat = a.val := by
    simp only [UInt64.toNat_zero,val]
    omega
  have hlt : a.val < 2 ^ 256 * p :=
    calc a.val < 2 ^ 256 := val_lt a
      _ ≤ 2 ^ 256 * p := Nat.le_mul_of_pos_right _ p_pos
  have h := constMontReduce_spec a.l0 a.l1 a.l2 a.l3 0 0 0 0 (hT ▸ hlt)
  rw [hT] at h
  exact h

end Reduction

section Multiplicative

theorem mulRow_spec (ai : UInt64) (x : MontFelt) (r0 r1 r2 r3 : UInt64) :
    ∃ o0 o1 o2 o3 c, mulRow ai x r0 r1 r2 r3 = (o0,o1,o2,o3,c) ∧
      o0.toNat + 2 ^ 64 * o1.toNat + 2 ^ 128 * o2.toNat + 2 ^ 192 * o3.toNat + 2 ^ 256 * c.toNat =
        ai.toNat * x.val + r0.toNat + 2 ^ 64 * r1.toNat + 2 ^ 128 * r2.toNat + 2 ^ 192 * r3.toNat := by
  obtain ⟨o0,c0,e0,h0⟩ := constMac_spec ai x.l0 r0 0
  obtain ⟨o1,c1,e1,h1⟩ := constMac_spec ai x.l1 r1 c0
  obtain ⟨o2,c2,e2,h2⟩ := constMac_spec ai x.l2 r2 c1
  obtain ⟨o3,c3,e3,h3⟩ := constMac_spec ai x.l3 r3 c2
  have hx : ai.toNat * x.val = ai.toNat * x.l0.toNat + 2 ^ 64 * (ai.toNat * x.l1.toNat) +
      2 ^ 128 * (ai.toNat * x.l2.toNat) + 2 ^ 192 * (ai.toNat * x.l3.toNat) := by
    simp only [val]
    ring
  refine ⟨o0,o1,o2,o3,c3,by simp only [mulRow,e0,e1,e2,e3],?_⟩
  simp only [UInt64.toNat_zero] at h0
  omega

theorem val_mul_lt {a x : MontFelt} (ha : a.val < p) (hx : x.val < p) : a.val * x.val < 2 ^ 256 * p :=
  calc a.val * x.val < p * p := Nat.mul_lt_mul'' ha hx
    _ ≤ 2 ^ 256 * p := Nat.mul_le_mul_right _ (by have := p_lt; omega)

theorem constMul_spec {a x : MontFelt} (ha : a.val < p) (hx : x.val < p) :
    (a.constMul x).val < p ∧ 2 ^ 256 * (a.constMul x).val ≡ a.val * x.val [MOD p] := by
  obtain ⟨r0,r1,r2,r3,r4,E0,h0⟩ := mulRow_spec a.l0 x 0 0 0 0
  obtain ⟨s1,s2,s3,s4,r5,E1,h1⟩ := mulRow_spec a.l1 x r1 r2 r3 r4
  obtain ⟨t2,t3,t4,t5,r6,E2,h2⟩ := mulRow_spec a.l2 x s2 s3 s4 r5
  obtain ⟨u3,u4,u5,u6,r7,E3,h3⟩ := mulRow_spec a.l3 x t3 t4 t5 r6
  have ha' : a.val * x.val = a.l0.toNat * x.val + 2 ^ 64 * (a.l1.toNat * x.val) +
      2 ^ 128 * (a.l2.toNat * x.val) + 2 ^ 192 * (a.l3.toNat * x.val) := by
    simp only [val]
    ring
  have hT : r0.toNat + 2 ^ 64 * s1.toNat + 2 ^ 128 * t2.toNat + 2 ^ 192 * u3.toNat +
      2 ^ 256 * u4.toNat + 2 ^ 320 * u5.toNat + 2 ^ 384 * u6.toNat + 2 ^ 448 * r7.toNat =
      a.val * x.val := by
    simp only [UInt64.toNat_zero] at h0
    omega
  have h := constMontReduce_spec r0 s1 t2 u3 u4 u5 u6 r7 (hT ▸ val_mul_lt ha hx)
  rw [hT] at h
  simpa only [constMul,E0,E1,E2,E3] using h

theorem constSquare_spec {a : MontFelt} (ha : a.val < p) :
    a.constSquare.val < p ∧ 2 ^ 256 * a.constSquare.val ≡ a.val * a.val [MOD p] := by
  obtain ⟨a0,a1,a2,a3⟩ := limbs_lt a
  obtain ⟨s1,c1,e1,h1⟩ := constMac_spec a.l0 a.l1 0 0
  obtain ⟨s2,c2,e2,h2⟩ := constMac_spec a.l0 a.l2 0 c1
  obtain ⟨s3,t4,e3,h3⟩ := constMac_spec a.l0 a.l3 0 c2
  obtain ⟨s3',d1,e4,h4⟩ := constMac_spec a.l1 a.l2 s3 0
  obtain ⟨s4,t5,e5,h5⟩ := constMac_spec a.l1 a.l3 t4 d1
  obtain ⟨s5,t6,e6,h6⟩ := constMac_spec a.l2 a.l3 t5 0
  have g1 := toNat_shiftLeft_one s1
  have g2 := toNat_shiftLeft_one_or s2 s1
  have g3 := toNat_shiftLeft_one_or s3' s2
  have g4 := toNat_shiftLeft_one_or s4 s3'
  have g5 := toNat_shiftLeft_one_or s5 s4
  have g6 := toNat_shiftLeft_one_or t6 s5
  have g7 := toNat_shiftRight_63 t6
  have hb := fun x : UInt64 => UInt64.toNat_lt_two_pow x
  obtain ⟨v0,f0,E0,k0⟩ := constMac_spec a.l0 a.l0 0 0
  obtain ⟨v1,f1,E1,k1,-⟩ := constAdc_spec (s1 <<< 1) 0 f0 (by have := hb (s1 <<< 1); have := hb f0; simp only [UInt64.toNat_zero]; omega)
  obtain ⟨v2,f2,E2,k2⟩ := constMac_spec a.l1 a.l1 ((s2 <<< 1) ||| (s1 >>> 63)) f1
  obtain ⟨v3,f3,E3,k3,-⟩ := constAdc_spec ((s3' <<< 1) ||| (s2 >>> 63)) 0 f2
    (by have := hb ((s3' <<< 1) ||| (s2 >>> 63)); have := hb f2; simp only [UInt64.toNat_zero]; omega)
  obtain ⟨v4,f4,E4,k4⟩ := constMac_spec a.l2 a.l2 ((s4 <<< 1) ||| (s3' >>> 63)) f3
  obtain ⟨v5,f5,E5,k5,-⟩ := constAdc_spec ((s5 <<< 1) ||| (s4 >>> 63)) 0 f4
    (by have := hb ((s5 <<< 1) ||| (s4 >>> 63)); have := hb f4; simp only [UInt64.toNat_zero]; omega)
  obtain ⟨v6,f6,E6,k6⟩ := constMac_spec a.l3 a.l3 ((t6 <<< 1) ||| (s5 >>> 63)) f5
  obtain ⟨v7,f7,E7,k7,-⟩ := constAdc_spec (t6 >>> 63) 0 f6 (by have := hb (t6 >>> 63); have := hb f6; simp only [UInt64.toNat_zero]; omega)
  have hsq : a.val * a.val = a.l0.toNat * a.l0.toNat + 2 ^ 64 * (2 * (a.l0.toNat * a.l1.toNat)) +
      2 ^ 128 * (2 * (a.l0.toNat * a.l2.toNat) + a.l1.toNat * a.l1.toNat) +
      2 ^ 192 * (2 * (a.l0.toNat * a.l3.toNat + a.l1.toNat * a.l2.toNat)) +
      2 ^ 256 * (2 * (a.l1.toNat * a.l3.toNat) + a.l2.toNat * a.l2.toNat) +
      2 ^ 256 * (2 ^ 64 * (2 * (a.l2.toNat * a.l3.toNat))) +
      2 ^ 256 * (2 ^ 128 * (a.l3.toNat * a.l3.toNat)) := by
    simp only [val]
    ring
  have hlt : a.val * a.val < 2 ^ 256 * p := val_mul_lt ha ha
  have hp := p_lt
  have hT : v0.toNat + 2 ^ 64 * v1.toNat + 2 ^ 128 * v2.toNat + 2 ^ 192 * v3.toNat +
      2 ^ 256 * v4.toNat + 2 ^ 320 * v5.toNat + 2 ^ 384 * v6.toNat + 2 ^ 448 * v7.toNat =
      a.val * a.val := by
    simp only [UInt64.toNat_zero] at h1 h2 h3 h4 h6 k0 k1 k3 k5 k7
    omega
  have h := constMontReduce_spec v0 v1 v2 v3 v4 v5 v6 v7 (hT ▸ hlt)
  rw [hT] at h
  simpa only [constSquare,e1,e2,e3,e4,e5,e6,E0,E1,E2,E3,E4,E5,E6,E7] using h

end Multiplicative

/-! On representations below `p`, the operations are the field's. -/

section Decode
variable {a x : MontFelt}

theorem dec_constAdd (ha : a.val < p) (hx : x.val < p) : (a.constAdd x).dec = a.dec + x.dec :=
  Bignum.montDecode_add (constAdd_spec ha hx).2

theorem dec_constSub (ha : a.val < p) (hx : x.val < p) : (a.constSub x).dec = a.dec - x.dec :=
  Bignum.montDecode_sub (constSub_spec ha hx).2

theorem dec_constNeg (ha : a.val < p) : a.constNeg.dec = -a.dec := by
  have h : a.constNeg.dec = Bignum.montDecode p RInv 0 - a.dec :=
    Bignum.montDecode_sub (constNeg_spec ha).2
  rw [h,Bignum.montDecode,Nat.cast_zero,zero_mul,zero_sub]

theorem dec_constDouble (ha : a.val < p) : a.constDouble.dec = a.dec + a.dec :=
  Bignum.montDecode_add (constDouble_spec ha).2

theorem dec_constMul (ha : a.val < p) (hx : x.val < p) : (a.constMul x).dec = a.dec * x.dec :=
  Bignum.montDecode_mul R_mul_RInv (constMul_spec ha hx).2

theorem dec_constSquare (ha : a.val < p) : a.constSquare.dec = a.dec ^ 2 := by
  rw [sq]
  exact Bignum.montDecode_mul R_mul_RInv (constSquare_spec ha).2

end Decode

/-! The in-place operations return the limbs of the `const` ones, on every input. -/

section Twins
variable (a x : MontFelt)

theorem add_eq_constAdd : a.add x = a.constAdd x := by
  rw [add,constAdd,addAssignNoreduce_eq,reducePartial_eq]

theorem double_eq_constDouble : a.double = a.constDouble := by
  rw [double,constDouble,doubleAssignNoreduce_eq,reducePartial_eq]

theorem sub_eq_constSub : a.sub x = a.constSub x := by
  unfold sub constSub
  split <;> simp only [addAssignNoreduce_eq,subAssignNoreduce_eq]

theorem negate_eq_constNeg : a.negate = a.constNeg := by
  unfold negate constNeg
  cases a.isZero <;> simp [subAssignNoreduce_eq]

theorem montReduce_eq_constMontReduce (r0 r1 r2 r3 r4 r5 r6 r7 : UInt64) :
    montReduce r0 r1 r2 r3 r4 r5 r6 r7 = constMontReduce r0 r1 r2 r3 r4 r5 r6 r7 := by
  rw [montReduce,constMontReduce,reducePartial_eq]

theorem mul_eq_constMul : a.mul x = a.constMul x := by
  simp only [mul,constMul,mulRow,mac_eq_constMac,montReduce_eq_constMontReduce]

theorem square_eq_constSquare : a.square = a.constSquare := by
  simp only [square,constSquare,mac_eq_constMac,acc_eq_constAdc,montReduce_eq_constMontReduce]

end Twins

/-! The code's operations on reduced values: a reduced result, and the field operation. -/

section Reduced
variable {a x : MontFelt}

theorem dec_ZERO : ZERO.dec = 0 := by
  rw [dec, Bignum.montDecode, show ZERO.val = 0 from rfl, Nat.cast_zero, zero_mul]

theorem add_spec (ha : a.val < p) (hx : x.val < p) :
    (a.add x).val < p ∧ (a.add x).dec = a.dec + x.dec := by
  rw [add_eq_constAdd]
  exact ⟨(constAdd_spec ha hx).1,dec_constAdd ha hx⟩

theorem sub_spec (ha : a.val < p) (hx : x.val < p) :
    (a.sub x).val < p ∧ (a.sub x).dec = a.dec - x.dec := by
  rw [sub_eq_constSub]
  exact ⟨(constSub_spec ha hx).1,dec_constSub ha hx⟩

theorem double_spec (ha : a.val < p) : a.double.val < p ∧ a.double.dec = 2 * a.dec := by
  rw [double_eq_constDouble,two_mul]
  exact ⟨(constDouble_spec ha).1,dec_constDouble ha⟩

theorem mul_spec (ha : a.val < p) (hx : x.val < p) :
    (a.mul x).val < p ∧ (a.mul x).dec = a.dec * x.dec := by
  rw [mul_eq_constMul]
  exact ⟨(constMul_spec ha hx).1,dec_constMul ha hx⟩

theorem square_spec (ha : a.val < p) : a.square.val < p ∧ a.square.dec = a.dec ^ 2 := by
  rw [square_eq_constSquare]
  exact ⟨(constSquare_spec ha).1,dec_constSquare ha⟩

end Reduced

end MontFelt
end Crypto
end Pathfinder
