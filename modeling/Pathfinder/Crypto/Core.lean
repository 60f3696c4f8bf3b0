import Mathlib

/-! The word arithmetic of `core.rs` on 64-bit limbs: addition with carry, subtraction with
borrow, and multiply-accumulate. The `const` forms pass carries as `u64` in tuples; the
in-place forms pass them as `u8` and update the limb through `&mut`, which the model returns.
Temporaries the source computes in `u128` are natural numbers here: none of them reaches
`2^128`. Each operation is exact on the inputs the field code gives it, and the two forms
agree there. -/
namespace Pathfinder
namespace Crypto

/-- `u64::overflowing_add`: the wrapped sum and whether it wrapped. -/
def overflowingAdd (a b : UInt64) : UInt64 × Bool := (a + b,2 ^ 64 ≤ a.toNat + b.toNat)

/-- `u64::overflowing_sub`: the wrapped difference and whether it wrapped. -/
def overflowingSub (a b : UInt64) : UInt64 × Bool := (a - b,a.toNat < b.toNat)

/-- `const_adc`: `(lo, hi) = a + b + carry`. -/
def constAdc (a b carry : UInt64) : UInt64 × UInt64 :=
  let (s,c1) := overflowingAdd a b
  let (s,c2) := overflowingAdd s carry
  (s,(c1 || c2).toUInt64)

/-- `adc` as compiled off x86-64: `a := a + b + carry`, returning the carry. -/
def adc (a b : UInt64) (carry : UInt8) : UInt64 × UInt8 :=
  let tmp := a.toNat + b.toNat + carry.toNat
  (UInt64.ofNat tmp,UInt8.ofNat (tmp >>> 64))

/-- `acc`: `a + carry`, updating the carry. -/
def acc (a carry : UInt64) : UInt64 × UInt64 :=
  let t := a.toNat + carry.toNat
  (UInt64.ofNat t,UInt64.ofNat (t >>> 64))

/-- `const_sbb`: `(lo, hi) = a - b - borrow`. -/
def constSbb (a b borrow : UInt64) : UInt64 × UInt64 :=
  let (d,b1) := overflowingSub a b
  let (d,b2) := overflowingSub d borrow
  (d,(b1 || b2).toUInt64)

/-- `sbb` as compiled off x86-64: `a := a - b - borrow`, returning the borrow. -/
def sbb (a b : UInt64) (borrow : UInt8) : UInt64 × UInt8 :=
  let tmp := 2 ^ 64 + a.toNat - b.toNat - borrow.toNat
  (UInt64.ofNat tmp,if tmp >>> 64 = 0 then 1 else 0)

/-- `const_mac`: `(lo, hi) = a * b + c + carry`. -/
def constMac (a b c carry : UInt64) : UInt64 × UInt64 :=
  let tmp := a.toNat * b.toNat + c.toNat + carry.toNat
  (UInt64.ofNat tmp,UInt64.ofNat (tmp >>> 64))

/-- `mac`: `a * b + c + carry`, the carry updated through `&mut`. -/
def mac (a b c carry : UInt64) : UInt64 × UInt64 :=
  let tmp := a.toNat * b.toNat + c.toNat + carry.toNat
  (UInt64.ofNat tmp,UInt64.ofNat (tmp >>> 64))

section Spec
variable (a b c : UInt64)

theorem UInt64.toNat_lt_two_pow : a.toNat < 2 ^ 64 := a.toNat_lt_size

@[simp] theorem toNat_toUInt64_bool (x : Bool) : x.toUInt64.toNat = x.toNat := by
  cases x <;> rfl

theorem constAdc_spec (h : a.toNat + b.toNat + c.toNat < 2 ^ 65) :
    ∃ lo hi, constAdc a b c = (lo,hi) ∧ lo.toNat + 2 ^ 64 * hi.toNat = a.toNat + b.toNat + c.toNat ∧
      hi.toNat ≤ 1 := by
  have ha := UInt64.toNat_lt_two_pow a
  have hb := UInt64.toNat_lt_two_pow b
  refine ⟨_,_,rfl,?_⟩
  simp only [UInt64.toNat_add,toNat_toUInt64_bool]
  by_cases h1 : 2 ^ 64 ≤ a.toNat + b.toNat <;>
    by_cases h2 : 2 ^ 64 ≤ (a.toNat + b.toNat) % 2 ^ 64 + c.toNat <;>
    simp only [h1,h2,decide_true,decide_false,Bool.or_true,Bool.or_false,Bool.toNat_true,
      Bool.toNat_false] <;> omega

theorem adc_spec (carry : UInt8) (h : carry.toNat ≤ 1) :
    ∃ lo hi, adc a b carry = (lo,hi) ∧ lo.toNat + 2 ^ 64 * hi.toNat = a.toNat + b.toNat + carry.toNat ∧
      hi.toNat ≤ 1 := by
  have ha := UInt64.toNat_lt_two_pow a
  have hb := UInt64.toNat_lt_two_pow b
  refine ⟨_,_,rfl,?_⟩
  simp only [UInt64.toNat_ofNat',UInt8.toNat_ofNat',Nat.shiftRight_eq_div_pow]
  omega

theorem acc_eq_constAdc : acc a c = constAdc a 0 c := by
  have ha := UInt64.toNat_lt_two_pow a
  have hc := UInt64.toNat_lt_two_pow c
  have ha' : ¬ 2 ^ 64 ≤ a.toNat := by omega
  refine Prod.ext (UInt64.toNat_inj.mp ?_) (UInt64.toNat_inj.mp ?_)
  · simp [acc,constAdc,overflowingAdd,UInt64.toNat_add]
  · simp only [acc,constAdc,overflowingAdd,UInt64.toNat_ofNat',Nat.shiftRight_eq_div_pow,
      UInt64.toNat_add,toNat_toUInt64_bool]
    by_cases hs : 2 ^ 64 ≤ a.toNat + c.toNat <;>
    simp only [hs,ha',UInt64.toNat_zero,Nat.add_zero,Nat.mod_eq_of_lt (UInt64.toNat_lt_two_pow a),
      decide_true,decide_false,Bool.or_true,Bool.false_or,Bool.toNat_true,Bool.toNat_false] <;> omega

theorem constSbb_spec (h : c.toNat ≤ 1) :
    ∃ lo hi, constSbb a b c = (lo,hi) ∧ lo.toNat + b.toNat + c.toNat = a.toNat + 2 ^ 64 * hi.toNat ∧
      hi.toNat ≤ 1 := by
  have ha := UInt64.toNat_lt_two_pow a
  have hb := UInt64.toNat_lt_two_pow b
  refine ⟨_,_,rfl,?_⟩
  simp only [UInt64.toNat_sub,toNat_toUInt64_bool]
  by_cases h1 : a.toNat < b.toNat <;>
    by_cases h2 : (2 ^ 64 - b.toNat + a.toNat) % 2 ^ 64 < c.toNat <;>
    simp only [h1,h2,decide_true,decide_false,Bool.or_true,Bool.or_false,Bool.toNat_true,
      Bool.toNat_false] <;> omega

theorem sbb_spec (borrow : UInt8) (h : borrow.toNat ≤ 1) :
    ∃ lo hi, sbb a b borrow = (lo,hi) ∧
      lo.toNat + b.toNat + borrow.toNat = a.toNat + 2 ^ 64 * hi.toNat ∧ hi.toNat ≤ 1 := by
  have ha := UInt64.toNat_lt_two_pow a
  have hb := UInt64.toNat_lt_two_pow b
  refine ⟨_,_,rfl,?_⟩
  simp only [UInt64.toNat_ofNat',Nat.shiftRight_eq_div_pow]
  split <;> simp <;> omega

theorem constMac_spec (d : UInt64) :
    ∃ lo hi, constMac a b c d = (lo,hi) ∧
      lo.toNat + 2 ^ 64 * hi.toNat = a.toNat * b.toNat + c.toNat + d.toNat := by
  have ha := UInt64.toNat_lt_two_pow a
  have hb := UInt64.toNat_lt_two_pow b
  have hc := UInt64.toNat_lt_two_pow c
  have hd := UInt64.toNat_lt_two_pow d
  have hab : a.toNat * b.toNat ≤ (2 ^ 64 - 1) * (2 ^ 64 - 1) := Nat.mul_le_mul (by omega) (by omega)
  refine ⟨_,_,rfl,?_⟩
  simp only [UInt64.toNat_ofNat',Nat.shiftRight_eq_div_pow]
  omega

theorem mac_eq_constMac (d : UInt64) : mac a b c d = constMac a b c d := rfl

theorem toNat_shiftLeft_one_or :
    ((a <<< 1) ||| (b >>> 63)).toNat = 2 * a.toNat % 2 ^ 64 + b.toNat / 2 ^ 63 := by
  have hb := UInt64.toNat_lt_two_pow b
  have hq : b.toNat / 2 ^ 63 < 2 ^ 1 := by omega
  have hx : 2 * a.toNat % 2 ^ 64 = (a.toNat % 2 ^ 63) <<< 1 := by rw [Nat.shiftLeft_eq]; omega
  simp only [UInt64.toNat_or,UInt64.toNat_shiftLeft,UInt64.toNat_shiftRight,Nat.shiftLeft_eq,
    Nat.shiftRight_eq_div_pow]
  rw [show a.toNat * 2 ^ (UInt64.toNat 1 % 64) % 2 ^ 64 = 2 * a.toNat % 2 ^ 64 by simp; omega,hx,
    show UInt64.toNat 63 % 64 = 63 by rfl,← Nat.shiftLeft_add_eq_or_of_lt hq]

theorem toNat_shiftLeft_one : (a <<< 1).toNat = 2 * a.toNat % 2 ^ 64 := by
  simp only [UInt64.toNat_shiftLeft,Nat.shiftLeft_eq]
  simp
  omega

theorem toNat_shiftRight_63 : (a >>> 63).toNat = a.toNat / 2 ^ 63 := by
  simp [UInt64.toNat_shiftRight,Nat.shiftRight_eq_div_pow]

end Spec

end Crypto
end Pathfinder
