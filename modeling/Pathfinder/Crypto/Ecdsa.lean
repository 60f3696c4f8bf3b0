import Pathfinder.Crypto.Felt

/-! ECDSA over the Stark curve: the range checks of `ecdsa_sign_k` and `ecdsa_verify_inner`
and the conversions between `Felt`, `MontFelt` and the curve-order field around them. The
curve-order field and the point arithmetic are the parameter `Curve`, which `Crypto.Stark`
instantiates with the code's; every check the code makes on its inputs is modelled, and a panic
is `none`.

`ecdsa_verify_inner` unwraps `CurveOrderMontFelt::try_from` of `z`, `r` and `s` before it
checks them against `2^251`, so a message or signature value in `[n, p)` panics, and the
signer never checks `s`, so a signature with `s = 0`, which the verifier rejects, can be
returned. -/
namespace Pathfinder
namespace Crypto

/-- `SignatureError`. -/
inductive SignatureError where
  | Signature
  | Randomness
  | Message
  | SecretKey
  | PublicKey
  deriving DecidableEq, Repr

/-- `AffinePoint`. -/
structure AffinePoint where
  x : MontFelt
  y : MontFelt
  infinity : Bool
  deriving DecidableEq, Repr

/-- The arithmetic beyond the range checks, left abstract. -/
structure Curve (S Pt : Type) where
  /-- `CurveOrderMontFelt::from_be_bytes`. -/
  scalarFromBeBytes : Vector UInt8 32 → S
  /-- `CurveOrderMontFelt::to_be_bytes`. -/
  scalarToBeBytes : S → Vector UInt8 32
  /-- `CurveOrderMontFelt::ZERO`. -/
  scalarZero : S
  /-- `CurveOrderMontFelt::inverse`. -/
  scalarInverse : S → Option S
  scalarAdd : S → S → S
  scalarMul : S → S → S
  /-- `MontFelt::sqrt`. -/
  sqrt : MontFelt → Option MontFelt
  /-- `CURVE_G`. -/
  G : Pt
  /-- `From<&AffinePoint> for ProjectivePoint`. -/
  ofAffine : AffinePoint → Pt
  /-- `From<&ProjectivePoint> for AffinePoint`, `none` where `z.inverse().unwrap()` panics. -/
  toAffine : Pt → Option AffinePoint
  /-- `ProjectivePoint::gen_multiply_elm`. -/
  genMultiplyElm : S → Pt
  /-- `ProjectivePoint::multiply_elm`. -/
  multiplyElm : Pt → S → Pt
  /-- `ProjectivePoint::add` and `ProjectivePoint::negate`. -/
  pointAdd : Pt → Pt → Pt
  pointNegate : Pt → Pt

namespace MontFelt

/-- `const_cmp_native`: the reduced limbs compared. -/
def constCmpNative (a x : MontFelt) : Ordering := a.constReduceFull.constCmp x.constReduceFull

/-- `<` of `Ord for MontFelt`, which compares through `const_cmp_native`. -/
def ltNative (a x : MontFelt) : Bool := a.constCmpNative x == .lt

end MontFelt

/-- `CURVE_A`. -/
def CURVE_A : MontFelt := MontFelt.ONE

/-- `CURVE_B`: `from_hex` of the curve's `b`, its limbs brought into Montgomery form. -/
def CURVE_B : MontFelt :=
  (⟨17640033189612134025,6961107535718323649,1517248451085576389,500484584450703582⟩ :
    MontFelt).constMul MontFelt.R2

/-- `CURVE_ORDER`: `from_hex` of the order `n` of the curve. -/
def CURVE_ORDER : MontFelt :=
  (⟨2190616671734353199,13222870243701404210,18446744073709551615,576460752303423504⟩ :
    MontFelt).constMul MontFelt.R2

/-- `UPPER_BOUND`: `2^251` in Montgomery form, as raw limbs. -/
def UPPER_BOUND : MontFelt :=
  ⟨18446743986131435553,160989183,18446744073709255680,576459263475450960⟩

def curveOrder : ℕ := 3618502788666131213697322783095070105526743751716087489154079457884512865583

/-- `AffinePoint::from_x`: `y` is a square root of `x³ + a·x + b`. -/
def AffinePoint.fromX {S Pt : Type} (C : Curve S Pt) (x : MontFelt) : Option AffinePoint :=
  let y2 := ((x.square.mul x).add (CURVE_A.mul x)).add CURVE_B
  (C.sqrt y2).map fun y => ⟨x,y,false⟩

section Ecdsa
variable {S Pt : Type} (C : Curve S Pt)

/-- `TryFrom<MontFelt> for CurveOrderMontFelt`. -/
def Curve.ofMontFelt (value : MontFelt) : Except Unit S :=
  if value.ltNative CURVE_ORDER then .ok (C.scalarFromBeBytes value.toBeBytes) else .error ()

/-- `TryFrom<Felt> for CurveOrderMontFelt`. -/
def Curve.ofFelt (value : Felt) : Except Unit S :=
  let montvalue := MontFelt.ofFelt value
  if montvalue.ltNative CURVE_ORDER then .ok (C.scalarFromBeBytes value.bytes) else .error ()

/-- `From<CurveOrderMontFelt> for Felt`: `from_be_bytes(value.to_be_bytes()).unwrap()`. -/
def Curve.toFelt (value : S) : Option Felt := (Felt.fromBeBytes (C.scalarToBeBytes value)).toOption

/-- `get_pk`: the outer `none` is a panic of `AffinePoint::from`. -/
def getPk (sk : Felt) : Option (Option Felt) :=
  match C.ofFelt sk with
  | .error _ => some none
  | .ok k => (C.toAffine (C.genMultiplyElm k)).bind fun ap => (Felt.ofMontFelt ap.x).map some

/-- `ecdsa_sign_k`. -/
def ecdsaSignK [DecidableEq S] (sk z k : Felt) : Option (Except SignatureError (Felt × Felt)) :=
  match C.ofFelt sk, C.ofFelt z, C.ofFelt k with
  | .error _, _, _ => some (.error .SecretKey)
  | .ok _, .error _, _ => some (.error .Message)
  | .ok _, .ok _, .error _ => some (.error .Randomness)
  | .ok sk, .ok z, .ok k =>
    if k = C.scalarZero then some (.error .Randomness) else do
      let x := (← C.toAffine (C.genMultiplyElm k)).x
      if !x.ltNative UPPER_BOUND then return .error .Randomness
      let r ← (C.ofMontFelt x).toOption
      let kinv ← C.scalarInverse k
      let s := C.scalarMul kinv (C.scalarAdd z (C.scalarMul r sk))
      let r ← C.toFelt r
      let s ← C.toFelt s
      return .ok (r,s)

/-- `get_pk_point`: the point of `pk`, when `pk` is the `x` of a finite point. -/
def getPkPoint (pk : MontFelt) : Option AffinePoint :=
  match AffinePoint.fromX C pk with
  | some p => if !p.infinity then some p else none
  | none => none

/-- `ecdsa_verify_inner`. -/
def ecdsaVerifyInner (pk : Pt) (z r s : Felt) : Option (Except SignatureError Unit) := do
  let f_z := MontFelt.ofFelt z
  let f_r := MontFelt.ofFelt r
  let f_s := MontFelt.ofFelt s
  let cf_z ← (C.ofMontFelt f_z).toOption
  let cf_r ← (C.ofMontFelt f_r).toOption
  let cf_s ← (C.ofMontFelt f_s).toOption
  if !f_z.ltNative UPPER_BOUND then return .error .Message
  if f_r = MontFelt.ZERO ∨ !f_r.ltNative UPPER_BOUND then return .error .Signature
  if f_s = MontFelt.ZERO ∨ !f_s.ltNative UPPER_BOUND then return .error .Signature
  let cf_s ← C.scalarInverse cf_s
  let u1 := C.scalarMul cf_z cf_s
  let u2 := C.scalarMul cf_r cf_s
  let u1g := C.multiplyElm C.G u1
  let u2pk := C.multiplyElm pk u2
  let r1 ← C.toAffine (C.pointAdd u1g u2pk)
  let r2 ← C.toAffine (C.pointAdd u1g (C.pointNegate u2pk))
  if r1.x = f_r ∨ r2.x = f_r then return .ok () else return .error .Signature

/-- `ecdsa_verify_partial`. -/
def ecdsaVerifyPartial (pk z r s : Felt) : Option (Except SignatureError Unit) :=
  match getPkPoint C (MontFelt.ofFelt pk) with
  | none => some (.error .PublicKey)
  | some pkPoint => ecdsaVerifyInner C (C.ofAffine pkPoint) z r s

end Ecdsa

namespace MontFelt

theorem ltNative_iff (a x : MontFelt) :
    a.ltNative x = true ↔ a.constReduceFull.val < x.constReduceFull.val := by
  rw [ltNative,constCmpNative,constCmp_eq,beq_iff_eq,Nat.compare_eq_lt]

theorem val_constReduceFull_CURVE_ORDER : CURVE_ORDER.constReduceFull.val = curveOrder := by
  rw [CURVE_ORDER,constReduceFull_constMul_R2 (by decide)]
  decide

theorem ofFelt_ltNative_CURVE_ORDER {z : Felt} (hz : z.val < p) :
    (ofFelt z).ltNative CURVE_ORDER = true ↔ z.val < curveOrder := by
  rw [Felt.val_eq_val_ofWords] at hz ⊢
  rw [ltNative_iff,val_constReduceFull_CURVE_ORDER,ofFelt,fromBeBytes_eq,
    constReduceFull_constMul_R2 hz]

theorem ofFelt_zero : ofFelt ⟨Vector.replicate 32 0⟩ = ZERO := by decide

end MontFelt

def Curve.trivial : Curve Unit Unit :=
  ⟨fun _ => (),fun _ => Vector.replicate 32 0,(),fun _ => some (),fun _ _ => (),fun _ _ => (),
    fun _ => some MontFelt.ZERO,(),fun _ => (),fun _ => some ⟨MontFelt.ZERO,MontFelt.ZERO,false⟩,
    fun _ => (),fun _ _ => (),fun _ _ => (),fun _ => ()⟩

end Crypto
end Pathfinder
