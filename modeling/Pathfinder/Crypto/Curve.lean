import Mathlib.Algebra.Field.Rat
import Mathlib.Tactic.FieldSimp
import Mathlib.Tactic.Ring
import Mathlib.Tactic.LinearCombination

/-! The Stark curve's point arithmetic (`crypto/src/algebra/curve/affine.rs` and
`projective.rs`). The code calls `MontFelt`'s `+`, `-`, `*`, negation, `square`, `double` and
`inverse`; they are here the operations of the field `K` they implement (`Crypto.Field` proves
each `MontFelt` operation is the field's on reduced values): `.square()` is `_ ^ 2`, `.double()`
is `2 * _`, `MontFelt::THREE` and `MontFelt::TWO` are `3` and `2`, and `inverse` is `none` at
zero. A panic of `inverse().unwrap()` is `none`. A scalar's bits are least significant first.

A projective point `(x, y, z)` stands for the affine point `(x / z, y / z)`. The formulas use
neither the curve equation nor `a = 1` beyond `double`, so the refinement holds over any field.
`AffinePoint::from` never sets `infinity`, and `ProjectivePoint::from` never carries it. -/

namespace Pathfinder
namespace Crypto
namespace Algebra

variable {K : Type} [Field K] [DecidableEq K]

/-- `MontFelt::inverse`: `None` for zero. -/
def inverse (a : K) : Option K := if a = 0 then none else some a⁻¹

theorem inverse_of_ne_zero {a : K} (ha : a ≠ 0) : inverse a = some a⁻¹ := by
  simp [inverse, ha]

/-- `AffinePoint`. -/
structure AffinePoint (K : Type) where
  x : K
  y : K
  infinity : Bool
deriving DecidableEq

/-- `ProjectivePoint`. -/
structure ProjectivePoint (K : Type) where
  x : K
  y : K
  z : K
  infinity : Bool
deriving DecidableEq

namespace AffinePoint

def identity : AffinePoint K := ⟨0, 0, true⟩

def negate (p : AffinePoint K) : AffinePoint K := { p with y := -p.y }

/-- `double`: the tangent's slope `(3x² + a) / 2y` with `a = 1`. -/
def double (p : AffinePoint K) : Option (AffinePoint K) :=
  if p.infinity then some p
  else
    (inverse (2 * p.y)).map fun divisorInv =>
      let lambda := (3 * (p.x * p.x) + 1) * divisorInv
      let resultX := lambda * lambda - p.x - p.x
      { p with x := resultX, y := lambda * (p.x - resultX) - p.y }

/-- `add`: the chord's slope `(y₂ - y₁) / (x₂ - x₁)`. -/
def add (p other : AffinePoint K) : Option (AffinePoint K) :=
  if other.infinity then some p
  else if p.infinity then some { p with x := other.x, y := other.y, infinity := other.infinity }
  else if p.x = other.x then
    if p.y ≠ other.y then some { p with infinity := true } else p.double
  else
    (inverse (other.x - p.x)).map fun divisorInv =>
      let lambda := (other.y - p.y) * divisorInv
      let resultX := lambda * lambda - p.x - other.x
      { p with x := resultX, y := lambda * (p.x - resultX) - p.y }

/-- `multiply`: double and add over the bits from the most significant one. -/
def multiply (p : AffinePoint K) (bits : List Bool) : Option (AffinePoint K) :=
  bits.foldr (fun b acc => do
      let product ← acc
      let product ← product.double
      if b then product.add p else pure product)
    (some identity)

/-- `From<&ProjectivePoint> for AffinePoint`. -/
def ofProjective (p : ProjectivePoint K) : Option (AffinePoint K) :=
  (inverse p.z).map fun zinv => ⟨p.x * zinv, p.y * zinv, false⟩

end AffinePoint

namespace ProjectivePoint

/-- `From<&AffinePoint> for ProjectivePoint`. -/
def ofAffine (p : AffinePoint K) : ProjectivePoint K := ⟨p.x, p.y, 1, false⟩

def identity : ProjectivePoint K := ⟨0, 0, 1, true⟩

def negate (p : ProjectivePoint K) : ProjectivePoint K := { p with y := -p.y }

/-- `double`: `t = 3x² + a z²` with `a = 1`. -/
def double (p : ProjectivePoint K) : ProjectivePoint K :=
  if p.infinity then p
  else
    let x2 := p.x ^ 2
    let t := x2 + 2 * x2 + p.z ^ 2
    let u := 2 * (p.y * p.z)
    let v := 2 * (u * p.x * p.y)
    let w := t ^ 2 - 2 * v
    let uy := u * p.y
    { p with x := u * w, y := t * (v - w) - 2 * (uy * uy), z := u * u * u }

/-- `add`. -/
def add (p other : ProjectivePoint K) : ProjectivePoint K :=
  if other.infinity then p
  else if p.infinity then
    { p with x := other.x, y := other.y, z := other.z, infinity := other.infinity }
  else
    let u0 := p.x * other.z
    let u1 := other.x * p.z
    let t0 := p.y * other.z
    let t1 := other.y * p.z
    if u0 = u1 then
      if t0 ≠ t1 then { p with infinity := true } else p.double
    else
      let t := t0 - t1
      let u := u0 - u1
      let u2 := u ^ 2
      let v := p.z * other.z
      let w := t ^ 2 * v - u2 * (u0 + u1)
      let u3 := u * u2
      { p with x := u * w, y := t * (u0 * u2 - w) - t0 * u3, z := u3 * v }

/-- `add_affine`. -/
def addAffine (p : ProjectivePoint K) (other : AffinePoint K) : ProjectivePoint K :=
  if other.infinity then p
  else if p.infinity then
    { p with x := other.x, y := other.y, z := 1, infinity := other.infinity }
  else
    let u0 := p.x
    let u1 := other.x * p.z
    let t0 := p.y
    let t1 := other.y * p.z
    if u0 = u1 then
      if t0 ≠ t1 then { p with infinity := true } else p.double
    else
      let t := t0 - t1
      let u := u0 - u1
      let u2 := u * u
      let v := p.z
      let w := t * t * v - u2 * (u0 + u1)
      let u3 := u * u2
      { p with x := u * w, y := t * (u0 * u2 - w) - t0 * u3, z := u3 * v }

/-- `multiply`: double and add over the bits from the most significant one. -/
def multiply (p : ProjectivePoint K) (bits : List Bool) : ProjectivePoint K :=
  bits.foldr (fun b product => if b then product.double.add p else product.double) identity

omit [DecidableEq K] in
theorem double_identity : (identity : ProjectivePoint K).double = identity := rfl

theorem identity_add {p : ProjectivePoint K} (hp : p.infinity = false) : identity.add p = p := by
  rw [add, if_neg (by rw [hp]; decide), if_pos (show (identity : ProjectivePoint K).infinity from rfl)]

theorem multiply_true_replicate_false {p : ProjectivePoint K} (hp : p.infinity = false) (n : ℕ) :
    p.multiply (true :: List.replicate n false) = p := by
  have hzeros : (List.replicate n false).foldr
      (fun b product => if b then product.double.add p else product.double) identity = identity := by
    induction n with
    | zero => rfl
    | succ n ih => rw [List.replicate_succ, List.foldr_cons, ih, if_neg Bool.false_ne_true, double_identity]
  rw [multiply, List.foldr_cons, hzeros, if_pos rfl, double_identity, identity_add hp]

end ProjectivePoint

/-! ### Projective points against affine ones -/

/-- A projective point stands for an affine point. -/
inductive Represents : ProjectivePoint K → AffinePoint K → Prop
  | infinity {p : ProjectivePoint K} {a : AffinePoint K} :
      p.infinity = true → a.infinity = true → Represents p a
  | finite {p : ProjectivePoint K} {a : AffinePoint K} :
      p.infinity = false → a.infinity = false → p.z ≠ 0 → a.x = p.x / p.z → a.y = p.y / p.z →
      Represents p a

theorem Represents.ofProjective_eq {p : ProjectivePoint K} {a : AffinePoint K}
    (hrep : Represents p a) (ha : a.infinity = false) : AffinePoint.ofProjective p = some a := by
  cases hrep with
  | infinity _ ha' => simp [ha] at ha'
  | finite _ _ hz hx hy =>
    rw [AffinePoint.ofProjective, inverse_of_ne_zero hz, Option.map_some, Option.some.injEq]
    cases a
    simp_all [div_eq_mul_inv]

/-- A finite point plus its negation: the projective sum is flagged at infinity, but
`AffinePoint::from` turns it into the finite point `P` itself, where the affine sum of the two
converted points is the point at infinity. -/
theorem ofProjective_add_negate {p : ProjectivePoint K} (hp : p.infinity = false) (hz : p.z ≠ 0)
    (hy : p.y ≠ 0) (h2 : (2 : K) ≠ 0) :
    (p.add p.negate).infinity = true ∧
      AffinePoint.ofProjective (p.add p.negate) = some ⟨p.x / p.z, p.y / p.z, false⟩ ∧
      ((AffinePoint.ofProjective p).bind fun a =>
          (AffinePoint.ofProjective p.negate).bind a.add) =
        some ⟨p.x / p.z, p.y / p.z, true⟩ := by
  have hyz : p.y * p.z ≠ -p.y * p.z := by
    intro h
    have : 2 * (p.y * p.z) = 0 := by linear_combination h
    simp [h2, hy, hz] at this
  have hsum : p.add p.negate = { p with infinity := true } := by
    rw [ProjectivePoint.add, if_neg (by simp [ProjectivePoint.negate, hp]), if_neg (by simp [hp])]
    dsimp only [ProjectivePoint.negate]
    rw [if_pos rfl, if_pos hyz]
  have hrp : Represents p ⟨p.x / p.z, p.y / p.z, false⟩ := .finite hp rfl hz rfl rfl
  have hrn : Represents p.negate ⟨p.x / p.z, -p.y / p.z, false⟩ := .finite hp rfl hz rfl rfl
  have hneg : p.y / p.z ≠ -p.y / p.z := by
    rw [Ne, div_left_inj' hz]
    intro h
    exact hyz (by rw [← h])
  refine ⟨by rw [hsum], ?_, ?_⟩
  · rw [hsum, AffinePoint.ofProjective, inverse_of_ne_zero hz]
    simp [div_eq_mul_inv]
  · rw [hrp.ofProjective_eq rfl, hrn.ofProjective_eq rfl, Option.bind_some, Option.bind_some,
      AffinePoint.add, if_neg Bool.false_ne_true, if_neg Bool.false_ne_true, if_pos rfl, if_pos hneg]

theorem ofProjective_add_negate_one_two :
    ((⟨1, 2, 1, false⟩ : ProjectivePoint ℚ).add ⟨1, -2, 1, false⟩).infinity = true ∧
      AffinePoint.ofProjective ((⟨1, 2, 1, false⟩ : ProjectivePoint ℚ).add ⟨1, -2, 1, false⟩) =
        some ⟨1 / 1, 2 / 1, false⟩ ∧
      ((AffinePoint.ofProjective (⟨1, 2, 1, false⟩ : ProjectivePoint ℚ)).bind fun a =>
          (AffinePoint.ofProjective ⟨1, -2, 1, false⟩).bind a.add) =
        some ⟨1 / 1, 2 / 1, true⟩ :=
  ofProjective_add_negate (p := ⟨1, 2, 1, false⟩) rfl one_ne_zero two_ne_zero two_ne_zero

end Algebra
end Crypto
end Pathfinder
