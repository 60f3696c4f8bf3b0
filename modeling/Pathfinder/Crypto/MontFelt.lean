import Pathfinder.Crypto.Core

/-! `MontFelt`, an element of the Stark field `p = 2^251 + 17·2^192 + 1` in Montgomery form:
four 64-bit limbs, least significant first, holding `x · 2^256 mod p` for the element `x`.
Every operation comes as a `const fn` and as an in-place method; both are modelled as the
source writes them, the in-place ones returning the updated value. -/
namespace Pathfinder
namespace Crypto

/-- `MontFelt([u64; 4])`, least significant limb first. -/
structure MontFelt where
  l0 : UInt64
  l1 : UInt64
  l2 : UInt64
  l3 : UInt64
  deriving DecidableEq, Repr

namespace MontFelt

/-- `MontFelt::P`, the modulus. -/
def P : MontFelt := ⟨1,0,0,576460752303423505⟩

/-- `MontFelt::R`, `2^256 mod p`: the element one. -/
def R : MontFelt :=
  ⟨18446744073709551585,18446744073709551615,18446744073709551615,576460752303422960⟩

/-- `MontFelt::R2`, `2^512 mod p`. -/
def R2 : MontFelt := ⟨18446741271209837569,5151653887,18446744073700081664,576413109808302096⟩

/-- `MontFelt::M0`, `-p⁻¹ mod 2^64`. -/
def M0 : UInt64 := 18446744073709551615

/-- `MontFelt::ZERO`. -/
def ZERO : MontFelt := ⟨0,0,0,0⟩

/-- `MontFelt::ONE`. -/
def ONE : MontFelt := R

/-- `is_zero`. -/
def isZero (a : MontFelt) : Bool := a.l0 == 0 && a.l1 == 0 && a.l2 == 0 && a.l3 == 0

def cmpLimbs : List UInt64 → List UInt64 → Ordering
  | a :: as, b :: bs => if a < b then .lt else if a > b then .gt else cmpLimbs as bs
  | _, _ => .eq

/-- `const_cmp`: the representations compared as numbers. -/
def constCmp (a x : MontFelt) : Ordering := cmpLimbs [a.l3,a.l2,a.l1,a.l0] [x.l3,x.l2,x.l1,x.l0]

/-- `const_gt`: `const_cmp(x) as i8 > 0`. -/
def constGt (a x : MontFelt) : Bool := (constCmp a x).isGT

/-- `const_geq`: `const_cmp(x) as i8 >= 0`. -/
def constGeq (a x : MontFelt) : Bool := (constCmp a x).isGE

/-! ### Additive operations, `const` forms -/

/-- `const_add_noreduce`: the `while i < 4` carry loop. -/
def constAddNoreduce (a x : MontFelt) : MontFelt :=
  let (r0,carry) := constAdc a.l0 x.l0 0
  let (r1,carry) := constAdc a.l1 x.l1 carry
  let (r2,carry) := constAdc a.l2 x.l2 carry
  let (r3,_) := constAdc a.l3 x.l3 carry
  ⟨r0,r1,r2,r3⟩

/-- `const_sub_noreduce`: the `while i < 4` borrow loop. -/
def constSubNoreduce (a x : MontFelt) : MontFelt :=
  let (r0,borrow) := constSbb a.l0 x.l0 0
  let (r1,borrow) := constSbb a.l1 x.l1 borrow
  let (r2,borrow) := constSbb a.l2 x.l2 borrow
  let (r3,_) := constSbb a.l3 x.l3 borrow
  ⟨r0,r1,r2,r3⟩

/-- `const_reduce_partial`: subtract `p` from a value below `2p` once. -/
def constReducePartial (a : MontFelt) : MontFelt :=
  if a.constGeq P then a.constSubNoreduce P else a

/-- `const_neg`. -/
def constNeg (a : MontFelt) : MontFelt := if a.isZero then a else P.constSubNoreduce a

/-- `const_double`. -/
def constDouble (a : MontFelt) : MontFelt := (a.constAddNoreduce a).constReducePartial

/-- `const_add`. -/
def constAdd (a x : MontFelt) : MontFelt := (a.constAddNoreduce x).constReducePartial

/-- `const_sub`: add `p` first when the subtrahend is the larger. -/
def constSub (a x : MontFelt) : MontFelt :=
  if x.constGt a then (a.constAddNoreduce P).constSubNoreduce x else a.constSubNoreduce x

/-! ### Additive operations, in-place forms -/

/-- `double_assign_noreduce`: `adc(&mut self[i], self[i], carry)` over the limbs. -/
def doubleAssignNoreduce (a : MontFelt) : MontFelt :=
  let (r0,carry) := adc a.l0 a.l0 0
  let (r1,carry) := adc a.l1 a.l1 carry
  let (r2,carry) := adc a.l2 a.l2 carry
  let (r3,_) := adc a.l3 a.l3 carry
  ⟨r0,r1,r2,r3⟩

/-- `add_assign_noreduce`, also `add_noreduce`. -/
def addAssignNoreduce (a x : MontFelt) : MontFelt :=
  let (r0,carry) := adc a.l0 x.l0 0
  let (r1,carry) := adc a.l1 x.l1 carry
  let (r2,carry) := adc a.l2 x.l2 carry
  let (r3,_) := adc a.l3 x.l3 carry
  ⟨r0,r1,r2,r3⟩

/-- `sub_assign_noreduce`, also `sub_noreduce`. -/
def subAssignNoreduce (a x : MontFelt) : MontFelt :=
  let (r0,borrow) := sbb a.l0 x.l0 0
  let (r1,borrow) := sbb a.l1 x.l1 borrow
  let (r2,borrow) := sbb a.l2 x.l2 borrow
  let (r3,_) := sbb a.l3 x.l3 borrow
  ⟨r0,r1,r2,r3⟩

/-- `reduce_partial_assign`, also `reduce_partial`. -/
def reducePartial (a : MontFelt) : MontFelt :=
  if a.constGeq P then a.subAssignNoreduce P else a

/-- `negate_assign`, also `negate` and `-`. -/
def negate (a : MontFelt) : MontFelt := if !a.isZero then P.subAssignNoreduce a else a

/-- `double_assign`, also `double`. -/
def double (a : MontFelt) : MontFelt := a.doubleAssignNoreduce.reducePartial

/-- `add_assign`, also `add` and `+`. -/
def add (a x : MontFelt) : MontFelt := (a.addAssignNoreduce x).reducePartial

/-- `sub_assign`, also `sub` and `-`: `p` is added in place first when `x` is the larger. -/
def sub (a x : MontFelt) : MontFelt :=
  let a' := if x.constGt a then a.addAssignNoreduce P else a
  a'.subAssignNoreduce x

/-! ### Montgomery reduction -/

def montRound (r0 r1 r2 r3 r4 carry2 : UInt64) : UInt64 × UInt64 × UInt64 × UInt64 × UInt64 :=
  let k := r0 * M0
  let (_,carry) := constMac k P.l0 r0 0
  let (r1,carry) := constMac k P.l1 r1 carry
  let (r2,carry) := constMac k P.l2 r2 carry
  let (r3,carry) := constMac k P.l3 r3 carry
  let (r4,carry2) := constAdc r4 carry2 carry
  (r1,r2,r3,r4,carry2)

def montRounds (r0 r1 r2 r3 r4 r5 r6 r7 : UInt64) : MontFelt :=
  let (r1,r2,r3,r4,carry2) := montRound r0 r1 r2 r3 r4 0
  let (r2,r3,r4,r5,carry2) := montRound r1 r2 r3 r4 r5 carry2
  let (r3,r4,r5,r6,carry2) := montRound r2 r3 r4 r5 r6 carry2
  let (r4,r5,r6,r7,_) := montRound r3 r4 r5 r6 r7 carry2
  ⟨r4,r5,r6,r7⟩

/-- `const_mont_reduce`. -/
def constMontReduce (r0 r1 r2 r3 r4 r5 r6 r7 : UInt64) : MontFelt :=
  (montRounds r0 r1 r2 r3 r4 r5 r6 r7).constReducePartial

/-- `mont_reduce`. -/
def montReduce (r0 r1 r2 r3 r4 r5 r6 r7 : UInt64) : MontFelt :=
  (montRounds r0 r1 r2 r3 r4 r5 r6 r7).reducePartial

/-- `const_reduce_full`: `x · 2^-256 mod p`, the element as a number. -/
def constReduceFull (a : MontFelt) : MontFelt := constMontReduce a.l0 a.l1 a.l2 a.l3 0 0 0 0

/-- `reduce_full`. -/
def reduceFull (a : MontFelt) : MontFelt := montReduce a.l0 a.l1 a.l2 a.l3 0 0 0 0

/-! ### Multiplicative operations -/

def mulRow (ai : UInt64) (x : MontFelt) (r0 r1 r2 r3 : UInt64) :
    UInt64 × UInt64 × UInt64 × UInt64 × UInt64 :=
  let (r0,carry) := constMac ai x.l0 r0 0
  let (r1,carry) := constMac ai x.l1 r1 carry
  let (r2,carry) := constMac ai x.l2 r2 carry
  let (r3,carry) := constMac ai x.l3 r3 carry
  (r0,r1,r2,r3,carry)

/-- `const_mul`: the SOS product, then Montgomery reduction. -/
def constMul (a x : MontFelt) : MontFelt :=
  let (r0,r1,r2,r3,r4) := mulRow a.l0 x 0 0 0 0
  let (r1,r2,r3,r4,r5) := mulRow a.l1 x r1 r2 r3 r4
  let (r2,r3,r4,r5,r6) := mulRow a.l2 x r2 r3 r4 r5
  let (r3,r4,r5,r6,r7) := mulRow a.l3 x r3 r4 r5 r6
  constMontReduce r0 r1 r2 r3 r4 r5 r6 r7

/-- `mul`, also `*`. -/
def mul (a x : MontFelt) : MontFelt :=
  let (r0,carry) := mac a.l0 x.l0 0 0
  let (r1,carry) := mac a.l0 x.l1 0 carry
  let (r2,carry) := mac a.l0 x.l2 0 carry
  let (r3,carry) := mac a.l0 x.l3 0 carry
  let r4 := carry
  let (r1,carry) := mac a.l1 x.l0 r1 0
  let (r2,carry) := mac a.l1 x.l1 r2 carry
  let (r3,carry) := mac a.l1 x.l2 r3 carry
  let (r4,carry) := mac a.l1 x.l3 r4 carry
  let r5 := carry
  let (r2,carry) := mac a.l2 x.l0 r2 0
  let (r3,carry) := mac a.l2 x.l1 r3 carry
  let (r4,carry) := mac a.l2 x.l2 r4 carry
  let (r5,carry) := mac a.l2 x.l3 r5 carry
  let r6 := carry
  let (r3,carry) := mac a.l3 x.l0 r3 0
  let (r4,carry) := mac a.l3 x.l1 r4 carry
  let (r5,carry) := mac a.l3 x.l2 r5 carry
  let (r6,carry) := mac a.l3 x.l3 r6 carry
  let r7 := carry
  montReduce r0 r1 r2 r3 r4 r5 r6 r7

/-- `const_square`. -/
def constSquare (a : MontFelt) : MontFelt :=
  let (r1,carry) := constMac a.l0 a.l1 0 0
  let (r2,carry) := constMac a.l0 a.l2 0 carry
  let (r3,carry) := constMac a.l0 a.l3 0 carry
  let r4 := carry
  let (r3,carry) := constMac a.l1 a.l2 r3 0
  let (r4,carry) := constMac a.l1 a.l3 r4 carry
  let r5 := carry
  let (r5,carry) := constMac a.l2 a.l3 r5 0
  let r6 := carry
  let r7 := r6 >>> 63
  let r6 := (r6 <<< 1) ||| (r5 >>> 63)
  let r5 := (r5 <<< 1) ||| (r4 >>> 63)
  let r4 := (r4 <<< 1) ||| (r3 >>> 63)
  let r3 := (r3 <<< 1) ||| (r2 >>> 63)
  let r2 := (r2 <<< 1) ||| (r1 >>> 63)
  let r1 := r1 <<< 1
  let (r0,carry) := constMac a.l0 a.l0 0 0
  let (r1,carry) := constAdc r1 0 carry
  let (r2,carry) := constMac a.l1 a.l1 r2 carry
  let (r3,carry) := constAdc r3 0 carry
  let (r4,carry) := constMac a.l2 a.l2 r4 carry
  let (r5,carry) := constAdc r5 0 carry
  let (r6,carry) := constMac a.l3 a.l3 r6 carry
  let (r7,_) := constAdc r7 0 carry
  constMontReduce r0 r1 r2 r3 r4 r5 r6 r7

/-- `square`: as `const_square`, the carries of the diagonal taken by `acc`. -/
def square (a : MontFelt) : MontFelt :=
  let (r1,carry) := mac a.l0 a.l1 0 0
  let (r2,carry) := mac a.l0 a.l2 0 carry
  let (r3,carry) := mac a.l0 a.l3 0 carry
  let r4 := carry
  let (r3,carry) := mac a.l1 a.l2 r3 0
  let (r4,carry) := mac a.l1 a.l3 r4 carry
  let r5 := carry
  let (r5,carry) := mac a.l2 a.l3 r5 0
  let r6 := carry
  let r7 := r6 >>> 63
  let r6 := (r6 <<< 1) ||| (r5 >>> 63)
  let r5 := (r5 <<< 1) ||| (r4 >>> 63)
  let r4 := (r4 <<< 1) ||| (r3 >>> 63)
  let r3 := (r3 <<< 1) ||| (r2 >>> 63)
  let r2 := (r2 <<< 1) ||| (r1 >>> 63)
  let r1 := r1 <<< 1
  let (r0,carry) := mac a.l0 a.l0 0 0
  let (r1,carry) := acc r1 carry
  let (r2,carry) := mac a.l1 a.l1 r2 carry
  let (r3,carry) := acc r3 carry
  let (r4,carry) := mac a.l2 a.l2 r4 carry
  let (r5,carry) := acc r5 carry
  let (r6,carry) := mac a.l3 a.l3 r6 carry
  let (r7,_) := acc r7 carry
  montReduce r0 r1 r2 r3 r4 r5 r6 r7

end MontFelt

end Crypto
end Pathfinder
