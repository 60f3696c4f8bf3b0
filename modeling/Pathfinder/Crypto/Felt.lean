import Pathfinder.Crypto.Field
import Mathlib.Tactic.IntervalCases

/-! `Felt`, a field element as 32 big-endian bytes, and its conversions to and from
`MontFelt`. Bytes are read as four big-endian 64-bit words; `MontFelt::from_be_bytes` brings
the words into Montgomery form and `to_be_bytes` writes back the reduced value's words, so a
byte string below `p` comes back unchanged, and `Felt`'s `+` and `-`, which go through
`MontFelt`, are addition and subtraction modulo `p`. -/
namespace Pathfinder
namespace Crypto

/-- `u64::from_be_bytes`. -/
def u64FromBeBytes (b : Vector UInt8 8) : UInt64 :=
  UInt64.ofNat (Nat.ofDigits 256 (b.toList.reverse.map UInt8.toNat))

/-- `u64::to_be_bytes`: byte `i` holds bits `56 - 8i` to `63 - 8i`. -/
def u64ToBeBytes (x : UInt64) : Vector UInt8 8 :=
  Vector.ofFn fun i => (x >>> UInt64.ofNat (56 - 8 * i.val)).toUInt8

def beWord (bytes : Vector UInt8 32) (k : Fin 4) : UInt64 :=
  u64FromBeBytes (Vector.ofFn fun i : Fin 8 => bytes[8 * k.val + i.val])

/-- `OverflowError`. -/
structure OverflowError where
  deriving DecidableEq, Repr

/-- `Felt([u8; 32])`: big-endian bytes. -/
structure Felt where
  bytes : Vector UInt8 32
  deriving DecidableEq, Repr

namespace MontFelt

/-- `MontFelt::from_be_bytes`. -/
def fromBeBytes (bytes : Vector UInt8 32) : MontFelt :=
  let r0 := beWord bytes 0
  let r1 := beWord bytes 1
  let r2 := beWord bytes 2
  let r3 := beWord bytes 3
  let x : MontFelt := ⟨r3,r2,r1,r0⟩
  x.constMul R2

/-- `MontFelt::to_be_bytes`. -/
def toBeBytes (a : MontFelt) : Vector UInt8 32 :=
  let s := a.constReduceFull
  let r0 := u64ToBeBytes s.l0
  let r1 := u64ToBeBytes s.l1
  let r2 := u64ToBeBytes s.l2
  let r3 := u64ToBeBytes s.l3
  Vector.ofFn fun j =>
    if j.val < 8 then r3[j.val % 8] else if j.val < 16 then r2[j.val % 8]
    else if j.val < 24 then r1[j.val % 8] else r0[j.val % 8]

/-- `From<Felt> for MontFelt`. -/
def ofFelt (f : Felt) : MontFelt := fromBeBytes f.bytes

end MontFelt

namespace Felt

/-- `MODULUS_U64`: the modulus as big-endian words. -/
def MODULUS_U64 : List UInt64 := [576460752303423505,0,0,1]

def overflowLoop : List UInt64 → List UInt64 → Option Bool
  | l :: ls, m :: ms => if l < m then some false else if l > m then none else overflowLoop ls ms
  | _, _ => some true

/-- `Felt::from_be_bytes`: the bytes, when they spell a number below the modulus. -/
def fromBeBytes (bytes : Vector UInt8 32) : Except OverflowError Felt :=
  let limbs := [beWord bytes 0,beWord bytes 1,beWord bytes 2,beWord bytes 3]
  match overflowLoop limbs MODULUS_U64 with
  | some false => .ok ⟨bytes⟩
  | _ => .error ⟨⟩

/-- `From<[u8; 32]> for Felt`: the bytes as they are, with no check against the modulus. -/
def ofBytes (bytes : Vector UInt8 32) : Felt := ⟨bytes⟩

/-- `From<MontFelt> for Felt`: `from_be_bytes(fp.to_be_bytes()).unwrap()`, `none` for the panic. -/
def ofMontFelt (a : MontFelt) : Option Felt := (fromBeBytes a.toBeBytes).toOption

/-- `Felt + Felt`, through `MontFelt`'s `+`. -/
def add (a b : Felt) : Option Felt := ofMontFelt ((MontFelt.ofFelt a).add (MontFelt.ofFelt b))

/-- `Felt - Felt`, through `MontFelt`'s `-`. -/
def sub (a b : Felt) : Option Felt := ofMontFelt ((MontFelt.ofFelt a).sub (MontFelt.ofFelt b))

def val (f : Felt) : ℕ := Nat.ofDigits 256 (f.bytes.toList.reverse.map UInt8.toNat)

end Felt

section Bytes

theorem toList_eq_eight (b : Vector UInt8 8) :
    b.toList = [b.get 0,b.get 1,b.get 2,b.get 3,b.get 4,b.get 5,b.get 6,b.get 7] := by
  apply List.ext_getElem (by simp)
  intro i h1 h2
  simp only [Vector.length_toList] at h1
  interval_cases i <;> simp [Vector.get_eq_getElem]

theorem u64FromBeBytes_toNat (b : Vector UInt8 8) :
    (u64FromBeBytes b).toNat = Nat.ofDigits 256 (b.toList.reverse.map UInt8.toNat) := by
  have hlt := Nat.ofDigits_lt_base_pow_length (b := 256) (l := b.toList.reverse.map UInt8.toNat)
    (by norm_num) fun d hd => by
      obtain ⟨a,-,rfl⟩ := List.mem_map.mp hd
      exact a.toNat_lt
  simp only [List.length_map,List.length_reverse,Vector.length_toList] at hlt
  rw [u64FromBeBytes,UInt64.toNat_ofNat',Nat.mod_eq_of_lt (by simpa using hlt)]

theorem u64ToBeBytes_u64FromBeBytes (b : Vector UInt8 8) : u64ToBeBytes (u64FromBeBytes b) = b := by
  have hv := u64FromBeBytes_toNat b
  rw [toList_eq_eight] at hv
  simp only [Vector.get_eq_getElem,Fin.coe_ofNat_eq_mod,Nat.reduceMod,List.reverse_cons,List.reverse_nil,List.nil_append,List.cons_append,List.map_cons,
    List.map_nil,Nat.ofDigits_cons,Nat.ofDigits_nil] at hv
  have h0 := b[0].toNat_lt
  have h1 := b[1].toNat_lt
  have h2 := b[2].toNat_lt
  have h3 := b[3].toNat_lt
  have h4 := b[4].toNat_lt
  have h5 := b[5].toNat_lt
  have h6 := b[6].toNat_lt
  have h7 := b[7].toNat_lt
  apply Vector.ext
  intro i hi
  simp only [u64ToBeBytes,Vector.getElem_ofFn,← UInt8.toNat_inj,UInt64.toNat_toUInt8,
    UInt64.toNat_shiftRight,Nat.shiftRight_eq_div_pow]
  interval_cases i <;> simp only [UInt64.toNat_ofNat'] <;> norm_num <;> omega

theorem u64FromBeBytes_u64ToBeBytes (x : UInt64) : u64FromBeBytes (u64ToBeBytes x) = x := by
  have hx := UInt64.toNat_lt_two_pow x
  rw [← UInt64.toNat_inj,u64FromBeBytes_toNat,toList_eq_eight]
  simp only [u64ToBeBytes,Vector.get_eq_getElem,Vector.getElem_ofFn,List.reverse_cons,List.reverse_nil,List.nil_append,
    List.cons_append,List.map_cons,List.map_nil,Nat.ofDigits_cons,Nat.ofDigits_nil,
    UInt64.toNat_toUInt8,UInt64.toNat_shiftRight,Nat.shiftRight_eq_div_pow,UInt64.toNat_ofNat']
  norm_num
  omega

theorem bytes_eq_of_beWord {b b' : Vector UInt8 32} (h : ∀ k, beWord b k = beWord b' k) : b = b' := by
  have hc : ∀ (k : Fin 4) (i : Fin 8), b[8 * k.val + i.val] = b'[8 * k.val + i.val] := by
    intro k i
    have := congrArg (fun w => (u64ToBeBytes w)[i.val]) (h k)
    simpa [beWord,u64ToBeBytes_u64FromBeBytes] using this
  apply Vector.ext
  intro j hj
  obtain ⟨q,r,hr,rfl⟩ : ∃ q r, r < 8 ∧ j = 8 * q + r :=
    ⟨j / 8,j % 8,Nat.mod_lt _ (by decide),(Nat.div_add_mod j 8).symm⟩
  exact hc ⟨q,by omega⟩ ⟨r,hr⟩

theorem beWord_interleave (r3 r2 r1 r0 : Vector UInt8 8) (k : Fin 4) :
    beWord (Vector.ofFn fun j : Fin 32 =>
      if j.val < 8 then r3[j.val % 8] else if j.val < 16 then r2[j.val % 8]
      else if j.val < 24 then r1[j.val % 8] else r0[j.val % 8]) k =
      u64FromBeBytes ([r3,r2,r1,r0].get ⟨k.val,by simp⟩) := by
  rw [beWord]
  congr 1
  apply Vector.ext
  intro i hi
  simp only [Vector.getElem_ofFn]
  fin_cases k <;> simp only [List.get_eq_getElem] <;> split_ifs <;>
    first | omega | (simp only [List.getElem_cons_zero,List.getElem_cons_succ]; congr 1; omega)

theorem u64FromBeBytes_get_four (s : MontFelt) (k : Fin 4) :
    u64FromBeBytes ([u64ToBeBytes s.l3,u64ToBeBytes s.l2,u64ToBeBytes s.l1,u64ToBeBytes s.l0].get
      ⟨k.val,by simp⟩) = [s.l3,s.l2,s.l1,s.l0].get ⟨k.val,by simp⟩ := by
  fin_cases k <;> simp [u64FromBeBytes_u64ToBeBytes]

theorem beWord_toBeBytes (a : MontFelt) (k : Fin 4) :
    beWord a.toBeBytes k = [a.constReduceFull.l3,a.constReduceFull.l2,a.constReduceFull.l1,
      a.constReduceFull.l0].get ⟨k.val,by simp⟩ := by
  unfold MontFelt.toBeBytes
  generalize a.constReduceFull = s
  rw [beWord_interleave]
  exact u64FromBeBytes_get_four s k

theorem toList_eq_32 (b : Vector UInt8 32) : b.toList = [b[0],b[1],b[2],b[3],b[4],b[5],b[6],b[7],
    b[8],b[9],b[10],b[11],b[12],b[13],b[14],b[15],b[16],b[17],b[18],b[19],b[20],b[21],b[22],b[23],
    b[24],b[25],b[26],b[27],b[28],b[29],b[30],b[31]] := by
  apply List.ext_getElem (by simp)
  intro i h1 h2
  simp only [Vector.length_toList] at h1
  interval_cases i <;> simp

end Bytes

namespace MontFelt

def ofWords (bytes : Vector UInt8 32) : MontFelt :=
  ⟨beWord bytes 3,beWord bytes 2,beWord bytes 1,beWord bytes 0⟩

theorem fromBeBytes_eq (bytes : Vector UInt8 32) : fromBeBytes bytes = (ofWords bytes).constMul R2 :=
  rfl

theorem ofWords_eq_of_beWord {b : Vector UInt8 32} {s : MontFelt}
    (h : ∀ k, beWord b k = [s.l3,s.l2,s.l1,s.l0].get ⟨k.val,by simp⟩) : ofWords b = s := by
  obtain ⟨l0,l1,l2,l3⟩ := s
  simp only [ofWords,h]
  rfl

theorem ofWords_toBeBytes (a : MontFelt) : ofWords a.toBeBytes = a.constReduceFull :=
  ofWords_eq_of_beWord (beWord_toBeBytes a)

theorem bytes_eq_of_ofWords {b b' : Vector UInt8 32} (h : ofWords b = ofWords b') : b = b' := by
  simp only [ofWords,MontFelt.mk.injEq] at h
  obtain ⟨h3,h2,h1,h0⟩ := h
  refine bytes_eq_of_beWord fun k => ?_
  match k with
  | 0 => exact h0
  | 1 => exact h1
  | 2 => exact h2
  | 3 => exact h3

theorem val_ofWords (bytes : Vector UInt8 32) :
    (ofWords bytes).val = Nat.ofDigits 256 (bytes.toList.reverse.map UInt8.toNat) := by
  simp only [ofWords,val,beWord,u64FromBeBytes_toNat,toList_eq_eight,toList_eq_32,
    Vector.get_eq_getElem,Vector.getElem_ofFn,List.reverse_cons,List.reverse_nil,List.nil_append,List.cons_append,
    List.map_cons,List.map_nil,Nat.ofDigits_cons,Nat.ofDigits_nil]
  norm_num
  omega

theorem val_R2 : R2.val ≡ 2 ^ 256 * 2 ^ 256 [MOD p] := by decide

theorem constMul_R2_spec {x : MontFelt} (h : x.val < p) :
    (x.constMul R2).val < p ∧ (x.constMul R2).val ≡ x.val * 2 ^ 256 [MOD p] := by
  obtain ⟨hlt,hmod⟩ := constMul_spec h (by decide : R2.val < p)
  refine ⟨hlt,Bignum.modEq_of_mul_left R_mul_RInv ?_⟩
  calc 2 ^ 256 * (x.constMul R2).val ≡ x.val * R2.val [MOD p] := hmod
    _ ≡ x.val * (2 ^ 256 * 2 ^ 256) [MOD p] := val_R2.mul_left _
    _ = 2 ^ 256 * (x.val * 2 ^ 256) := by ring

theorem constReduceFull_constMul_R2 {x : MontFelt} (h : x.val < p) :
    (x.constMul R2).constReduceFull = x := by
  obtain ⟨-,hmy⟩ := constMul_R2_spec h
  obtain ⟨hz,hmz⟩ := constReduceFull_spec (x.constMul R2)
  have hzx : (x.constMul R2).constReduceFull.val ≡ x.val [MOD p] :=
    Bignum.modEq_of_mul_left R_mul_RInv (hmz.trans (by rw [Nat.mul_comm] at hmy; exact hmy))
  exact ext_val (hzx.eq_of_lt_of_lt hz h)

theorem fromBeBytes_spec {bytes : Vector UInt8 32} (h : (ofWords bytes).val < p) :
    (fromBeBytes bytes).val < p ∧ (fromBeBytes bytes).val ≡ (ofWords bytes).val * 2 ^ 256 [MOD p] := by
  rw [fromBeBytes_eq]
  exact constMul_R2_spec h

theorem toBeBytes_fromBeBytes {bytes : Vector UInt8 32} (h : (ofWords bytes).val < p) :
    (fromBeBytes bytes).toBeBytes = bytes := by
  apply bytes_eq_of_ofWords
  rw [ofWords_toBeBytes,fromBeBytes_eq,constReduceFull_constMul_R2 h]

theorem dec_fromBeBytes {bytes : Vector UInt8 32} (h : (ofWords bytes).val < p) :
    (fromBeBytes bytes).dec = (ofWords bytes).val := by
  have hmod := (fromBeBytes_spec h).2
  rw [Nat.mul_comm] at hmod
  exact Bignum.montDecode_eq_of_modEq R_mul_RInv hmod.symm

theorem val_ofWords_toBeBytes (a : MontFelt) :
    (ofWords a.toBeBytes).val < p ∧ ((ofWords a.toBeBytes).val : ZMod p) = a.dec := by
  obtain ⟨hlt,hmod⟩ := constReduceFull_spec a
  rw [ofWords_toBeBytes]
  exact ⟨hlt,(Bignum.montDecode_eq_of_modEq R_mul_RInv hmod).symm⟩

end MontFelt

namespace Felt
open MontFelt

theorem overflowLoop_eq_some_false_iff : ∀ ls ms : List UInt64,
    overflowLoop ls ms = some false ↔ cmpLimbs ls ms = .lt
  | l :: ls, m :: ms => by
    simp only [overflowLoop,cmpLimbs]
    split_ifs <;> simp [overflowLoop_eq_some_false_iff ls ms]
  | [], [] => by simp [overflowLoop,cmpLimbs]
  | [], _ :: _ => by simp [overflowLoop,cmpLimbs]
  | _ :: _, [] => by simp [overflowLoop,cmpLimbs]

theorem val_eq_val_ofWords (f : Felt) : f.val = (ofWords f.bytes).val :=
  (val_ofWords f.bytes).symm

theorem fromBeBytes_eq_ite (bytes : Vector UInt8 32) :
    fromBeBytes bytes = if (ofWords bytes).val < p then .ok ⟨bytes⟩ else .error ⟨⟩ := by
  have hc : cmpLimbs [beWord bytes 0,beWord bytes 1,beWord bytes 2,beWord bytes 3] MODULUS_U64 =
      compare (ofWords bytes).val p := by
    rw [← val_P,← constCmp_eq]
    rfl
  have hiff : overflowLoop [beWord bytes 0,beWord bytes 1,beWord bytes 2,beWord bytes 3]
      MODULUS_U64 = some false ↔ (ofWords bytes).val < p := by
    rw [overflowLoop_eq_some_false_iff,hc,Nat.compare_eq_lt]
  unfold fromBeBytes
  rcases ho : overflowLoop [beWord bytes 0,beWord bytes 1,beWord bytes 2,beWord bytes 3]
    MODULUS_U64 with _ | _ | _
  · have hv : ¬ (ofWords bytes).val < p := fun hv => by simp [hiff.mpr hv] at ho
    simp [ho,hv]
  · simp [ho,hiff.mp ho]
  · have hv : ¬ (ofWords bytes).val < p := fun hv => by simp [hiff.mpr hv] at ho
    simp [ho,hv]

theorem ofMontFelt_eq (a : MontFelt) : ofMontFelt a = some ⟨a.toBeBytes⟩ := by
  rw [ofMontFelt,fromBeBytes_eq_ite,if_pos (val_ofWords_toBeBytes a).1]
  rfl

theorem ofMontFelt_spec (a : MontFelt) :
    ∃ c, ofMontFelt a = some c ∧ c.val < p ∧ (c.val : ZMod p) = a.dec :=
  ⟨⟨a.toBeBytes⟩,ofMontFelt_eq a,by simpa only [val_eq_val_ofWords] using val_ofWords_toBeBytes a⟩

theorem ofMontFelt_ofFelt {f : Felt} (h : f.val < p) : ofMontFelt (ofFelt f) = some f := by
  rw [val_eq_val_ofWords] at h
  rw [ofMontFelt_eq,ofFelt,toBeBytes_fromBeBytes h]

theorem ofFelt_spec {f : Felt} (h : f.val < p) : (ofFelt f).val < p ∧ (ofFelt f).dec = f.val := by
  rw [val_eq_val_ofWords] at h ⊢
  exact ⟨(fromBeBytes_spec h).1,dec_fromBeBytes h⟩

variable {a b : Felt} (ha : a.val < p) (hb : b.val < p)
include ha hb

theorem add_spec : ∃ c, add a b = some c ∧ c.val < p ∧ (c.val : ZMod p) = a.val + b.val := by
  obtain ⟨ya,da⟩ := ofFelt_spec ha
  obtain ⟨yb,db⟩ := ofFelt_spec hb
  obtain ⟨c,hc,hlt,hd⟩ := ofMontFelt_spec ((ofFelt a).add (ofFelt b))
  refine ⟨c,hc,hlt,?_⟩
  rw [hd,add_eq_constAdd,dec_constAdd ya yb,da,db]

theorem sub_spec : ∃ c, sub a b = some c ∧ c.val < p ∧ (c.val : ZMod p) = a.val - b.val := by
  obtain ⟨ya,da⟩ := ofFelt_spec ha
  obtain ⟨yb,db⟩ := ofFelt_spec hb
  obtain ⟨c,hc,hlt,hd⟩ := ofMontFelt_spec ((ofFelt a).sub (ofFelt b))
  refine ⟨c,hc,hlt,?_⟩
  rw [hd,sub_eq_constSub,dec_constSub ya yb,da,db]

end Felt

open MontFelt in
/-- `MontFelt` is the field `ℤ/pℤ` in Montgomery form: on representations below `p` the
`const` operations return representations below `p` of the field's sum, difference, negation,
double, product and square, the in-place operations return the same limbs, bytes below `p`
come back from `from_be_bytes` and `to_be_bytes` unchanged, and `Felt`'s `+` and `-` are
addition and subtraction modulo `p`. -/
theorem montFelt_field_arith :
    (∀ a x : MontFelt, a.val < p → x.val < p →
      (a.constAdd x).val < p ∧ (a.constAdd x).dec = a.dec + x.dec ∧
      (a.constSub x).val < p ∧ (a.constSub x).dec = a.dec - x.dec ∧
      a.constNeg.val < p ∧ a.constNeg.dec = -a.dec ∧
      a.constDouble.val < p ∧ a.constDouble.dec = a.dec + a.dec ∧
      (a.constMul x).val < p ∧ (a.constMul x).dec = a.dec * x.dec ∧
      a.constSquare.val < p ∧ a.constSquare.dec = a.dec ^ 2) ∧
    (∀ a x : MontFelt, a.add x = a.constAdd x ∧ a.sub x = a.constSub x ∧
      a.negate = a.constNeg ∧ a.double = a.constDouble ∧ a.mul x = a.constMul x ∧
      a.square = a.constSquare) ∧
    (∀ bytes : Vector UInt8 32, (ofWords bytes).val < p → (fromBeBytes bytes).toBeBytes = bytes) ∧
    (∀ f : Felt, f.val < p → Felt.ofMontFelt (ofFelt f) = some f) ∧
    (∀ f g : Felt, f.val < p → g.val < p →
      (∃ c, Felt.add f g = some c ∧ c.val < p ∧ (c.val : ZMod p) = f.val + g.val) ∧
      (∃ c, Felt.sub f g = some c ∧ c.val < p ∧ (c.val : ZMod p) = f.val - g.val)) := by
  refine ⟨fun a x ha hx => ?_,fun a x => ?_,fun _ h => toBeBytes_fromBeBytes h,
    fun _ h => Felt.ofMontFelt_ofFelt h,fun _ _ hf hg => ⟨Felt.add_spec hf hg,Felt.sub_spec hf hg⟩⟩
  · exact ⟨(constAdd_spec ha hx).1,dec_constAdd ha hx,(constSub_spec ha hx).1,dec_constSub ha hx,
      (constNeg_spec ha).1,dec_constNeg ha,(constDouble_spec ha).1,dec_constDouble ha,
      (constMul_spec ha hx).1,dec_constMul ha hx,(constSquare_spec ha).1,dec_constSquare ha⟩
  · exact ⟨add_eq_constAdd a x,sub_eq_constSub a x,negate_eq_constNeg a,double_eq_constDouble a,
      mul_eq_constMul a x,square_eq_constSquare a⟩

open MontFelt in
theorem montFelt_field_arith_one :
    ONE.val < p ∧ (ONE.constAdd ONE).dec = ONE.dec + ONE.dec ∧
      Felt.ofMontFelt (ofFelt ⟨Vector.replicate 32 0⟩) = some ⟨Vector.replicate 32 0⟩ :=
  ⟨by decide,(montFelt_field_arith.1 ONE ONE (by decide) (by decide)).2.1,
    montFelt_field_arith.2.2.2.1 ⟨Vector.replicate 32 0⟩ (by decide)⟩

end Crypto
end Pathfinder
