import Mathlib.Algebra.Field.Basic
import Mathlib.Algebra.Ring.Parity
import Mathlib.Data.Nat.Find
import Mathlib.Logic.Function.Iterate
import Mathlib.Tactic.Ring

/-!
# Square roots by Tonelli–Shanks

Let `q - 1 = 2^s · t` with `t = 2e + 1` odd, so that every nonzero `a` of a field of `q`
elements has `a^(2^s · t) = 1`. Tonelli–Shanks starts from `x = a^(e+1)` and `b = a^t`, so that
`x² = a · b`, and from a `z` of order `2^s`. While `b ≠ 1` it finds the least `k` with
`b^(2^k) = 1`. If `k = s`, then `a^((q-1)/2) ≠ 1` and `a` is no square. Otherwise `b` and
`z^(2^(v-k))` both have order `2^k`, and multiplying `b` by the one and `x` by its square root
lowers the order of `b`, keeping `x² = a · b`. The run ends when `b = 1`, with `x² = a`.

As in `Bignum.BinaryInverse`, the algorithm is written once over a type `L` with the operations
the code calls, and `Implements` says what it needs of them, read through a map `dec` into a
field on the values where `ok` holds. Loops take fuel; `none` is a run that has not ended.
Square and multiply, which computes `a^e`, is here too.
-/

namespace Pathfinder
namespace Bignum

section Power
variable {L : Type} (one : L) (square : L → L) (mul : L → L → L)

def powBits (a : L) (bits : List Bool) : L :=
  bits.foldl (fun res i => let res := square res; if i then mul res a else res) one

def bitsValue (bits : List Bool) : ℕ := bits.foldl (fun n i => 2 * n + i.toNat) 0

theorem bitsValue_dropWhile (bits : List Bool) :
    bitsValue (bits.dropWhile fun i => !i) = bitsValue bits := by
  induction bits with
  | nil => rfl
  | cons i bits ih =>
    cases i
    · rw [List.dropWhile_cons_of_pos rfl, ih]
      rfl
    · rw [List.dropWhile_cons_of_neg (by simp)]

variable {M : Type} [Monoid M] {ok : L → Prop} {dec : L → M} {a : L}
  (hsq : ∀ r, ok r → ok (square r) ∧ dec (square r) = dec r ^ 2)
  (hmul : ∀ r, ok r → ok (mul r a) ∧ dec (mul r a) = dec r * dec a)
include hsq hmul

theorem foldl_powBits (bits : List Bool) : ∀ (res : L) (n : ℕ), ok res → dec res = dec a ^ n →
    ok (bits.foldl (fun res i => let res := square res; if i then mul res a else res) res) ∧
      dec (bits.foldl (fun res i => let res := square res; if i then mul res a else res) res) =
        dec a ^ bits.foldl (fun n i => 2 * n + i.toNat) n := by
  induction bits with
  | nil => exact fun res n hok hdec => ⟨hok, hdec⟩
  | cons i bits ih =>
    intro res n hok hdec
    obtain ⟨hok', hdec'⟩ := hsq res hok
    have hsquare : dec (square res) = dec a ^ (2 * n) := by rw [hdec', hdec, ← pow_mul, mul_comm]
    apply ih
    · cases i
      · exact hok'
      · exact (hmul _ hok').1
    · cases i
      · simpa using hsquare
      · dsimp only
        rw [if_pos rfl, (hmul _ hok').2, hsquare, Bool.toNat_true, pow_succ]

theorem powBits_spec (hone : ok one) (hdone : dec one = 1) (bits : List Bool) :
    ok (powBits one square mul a bits) ∧ dec (powBits one square mul a bits) = dec a ^ bitsValue bits :=
  foldl_powBits square mul hsq hmul bits one 0 hone (by rw [hdone, pow_zero])

end Power

section TwoPower
variable {M : Type} [Monoid M]

theorem pow_two_pow_add (y : M) (k n : ℕ) : y ^ 2 ^ (k + n) = (y ^ 2 ^ k) ^ 2 ^ n := by
  rw [pow_add, pow_mul]

theorem pow_two_pow_eq_one_of_le {y : M} {k m : ℕ} (hy : y ^ 2 ^ k = 1) (hkm : k ≤ m) :
    y ^ 2 ^ m = 1 := by
  obtain ⟨n, rfl⟩ := Nat.exists_eq_add_of_le hkm
  rw [pow_two_pow_add, hy, one_pow]

end TwoPower

section Half
variable {F : Type} [Field F] {y : F} {k : ℕ}

theorem pow_two_pow_eq_one_of_half (hk : 1 ≤ k) (hy : y ^ 2 ^ (k - 1) = -1) : y ^ 2 ^ k = 1 := by
  obtain ⟨j, rfl⟩ : ∃ j, k = j + 1 := ⟨k - 1, by omega⟩
  rw [Nat.add_sub_cancel] at hy
  rw [pow_two_pow_add, hy, pow_one, neg_one_sq]

theorem half_eq_neg_one (hk : 1 ≤ k) (hy : y ^ 2 ^ k = 1) (hne : y ^ 2 ^ (k - 1) ≠ 1) :
    y ^ 2 ^ (k - 1) = -1 := by
  have hsq : y ^ 2 ^ (k - 1) * y ^ 2 ^ (k - 1) = 1 := by
    rw [← sq, ← pow_mul, ← pow_succ, Nat.sub_add_cancel hk, hy]
  exact (mul_self_eq_one_iff.mp hsq).resolve_left hne

end Half

/-- The operations Tonelli–Shanks calls on its field elements. -/
structure SqrtOps (L : Type) where
  ZERO : L
  SQRT_Z : L
  SQRT_S : ℕ
  isZero : L → Bool
  isOne : L → Bool
  mul : L → L → L
  square : L → L
  /-- `self.pow(SQRT_T_MINUS_ONE_DIV2)`. -/
  powTMinusOneDiv2 : L → L

namespace SqrtOps

variable {L : Type} (ops : SqrtOps L)

/-- `while !b2k.is_one() { b2k = b2k.square(); k += 1; }`. -/
def search : ℕ → L → ℕ → Option ℕ
  | 0, _, _ => none
  | fuel + 1, b2k, k => if ops.isOne b2k then some k else search fuel (ops.square b2k) (k + 1)

/-- `while !b.is_one() { … }` over `(z, x, b, v)`; `v - k` on `u32` panics below zero. -/
def loop : ℕ → L × L × L × ℕ → Option (Option L)
  | 0, _ => none
  | fuel + 1, (z, x, b, v) =>
    if ops.isOne b then some (some x)
    else
      (ops.search (fuel + 1) b 0).bind fun k =>
        if k = ops.SQRT_S then some none
        else if v < k then none
        else
          let w := ops.square^[v - k - 1] z
          let z := ops.square w
          loop fuel (z, ops.mul x w, ops.mul b z, k)

/-- `sqrt`: zero is its own root; otherwise the loop from `x = w · a` and `b = x · w`. -/
def sqrt (fuel : ℕ) (a : L) : Option (Option L) :=
  if ops.isZero a then some (some ops.ZERO)
  else
    let w := ops.powTMinusOneDiv2 a
    let x := ops.mul w a
    let b := ops.mul x w
    ops.loop fuel (ops.SQRT_Z, x, b, ops.SQRT_S)

/-- What Tonelli–Shanks needs of the operations, read through `dec` where `ok` holds. -/
structure Implements {F : Type} [Field F] (ok : L → Prop) (dec : L → F) (e : ℕ) : Prop where
  ok_ZERO : ok ops.ZERO
  dec_ZERO : dec ops.ZERO = 0
  ok_SQRT_Z : ok ops.SQRT_Z
  isZero_iff : ∀ a, ok a → (ops.isZero a = true ↔ dec a = 0)
  isOne_iff : ∀ a, ok a → (ops.isOne a = true ↔ dec a = 1)
  ok_mul : ∀ a x, ok a → ok x → ok (ops.mul a x)
  dec_mul : ∀ a x, ok a → ok x → dec (ops.mul a x) = dec a * dec x
  ok_square : ∀ a, ok a → ok (ops.square a)
  dec_square : ∀ a, ok a → dec (ops.square a) = dec a ^ 2
  ok_pow : ∀ a, ok a → ok (ops.powTMinusOneDiv2 a)
  dec_pow : ∀ a, ok a → dec (ops.powTMinusOneDiv2 a) = dec a ^ e

/-- The loop's invariant for the input `A`. -/
structure Inv {F : Type} [Field F] (ok : L → Prop) (dec : L → F) (A : F) (z x b : L) (v : ℕ) :
    Prop where
  ok_z : ok z
  ok_x : ok x
  ok_b : ok b
  one_le : 1 ≤ v
  le_S : v ≤ ops.SQRT_S
  sq_x : dec x ^ 2 = A * dec b
  z_half : dec z ^ 2 ^ (v - 1) = -1
  b_pow : dec b ^ 2 ^ v = 1
  b_half : v < ops.SQRT_S → dec b ^ 2 ^ (v - 1) = 1

section Correct
variable {ops} {F : Type} [Field F] {ok : L → Prop} {dec : L → F} {e : ℕ}
  (h : ops.Implements ok dec e)
include h

theorem dec_square_pow {b : L} (hb : ok b) (i : ℕ) :
    dec (ops.square b) ^ 2 ^ i = dec b ^ 2 ^ (i + 1) := by
  rw [h.dec_square b hb, ← pow_mul, ← pow_succ']

theorem iterate_square (n : ℕ) : ∀ z, ok z →
    ok (ops.square^[n] z) ∧ dec (ops.square^[n] z) = dec z ^ 2 ^ n := by
  induction n with
  | zero => exact fun z hz => ⟨hz, by rw [Function.iterate_zero_apply, pow_zero, pow_one]⟩
  | succ n ih =>
    intro z hz
    obtain ⟨hok, hdec⟩ := ih (ops.square z) (h.ok_square z hz)
    rw [Function.iterate_succ_apply]
    exact ⟨hok, by rw [hdec, dec_square_pow h hz]⟩

theorem search_spec (fuel : ℕ) : ∀ (b : L) (k0 k : ℕ), ok b → dec b ^ 2 ^ k = 1 →
    (∀ i < k, dec b ^ 2 ^ i ≠ 1) → k < fuel → ops.search fuel b k0 = some (k0 + k) := by
  induction fuel with
  | zero => exact fun _ _ _ _ _ _ hk => absurd hk (Nat.not_lt_zero _)
  | succ fuel ih =>
    intro b k0 k hb hk hmin hfuel
    rw [search]
    by_cases hone : ops.isOne b = true
    · have hb1 : dec b = 1 := (h.isOne_iff b hb).mp hone
      obtain rfl : k = 0 := by
        by_contra hk0
        exact hmin 0 (by omega) (by rw [pow_zero, pow_one, hb1])
      rw [if_pos hone]
      rfl
    · obtain ⟨k', rfl⟩ : ∃ k', k = k' + 1 := by
        refine ⟨k - 1, ?_⟩
        by_contra hk0
        rw [show k = 0 by omega, pow_zero, pow_one] at hk
        exact hone ((h.isOne_iff b hb).mpr hk)
      rw [if_neg hone, ih (ops.square b) (k0 + 1) k' (h.ok_square b hb)
        (by rw [dec_square_pow h hb]; exact hk)
        (fun i hi => by rw [dec_square_pow h hb]; exact hmin (i + 1) (by omega)) (by omega)]
      congr 1
      omega

theorem inv_round {A : F} {z x b : L} {v K : ℕ} (hinv : ops.Inv ok dec A z x b v) (hK1 : 1 ≤ K)
    (hKv : K < v) (hKpow : dec b ^ 2 ^ K = 1) (hbK : dec b ^ 2 ^ (K - 1) = -1) :
    ops.Inv ok dec A (ops.square (ops.square^[v - K - 1] z)) (ops.mul x (ops.square^[v - K - 1] z))
        (ops.mul b (ops.square (ops.square^[v - K - 1] z))) K ∧
      dec (ops.mul b (ops.square (ops.square^[v - K - 1] z))) ^ 2 ^ (K - 1) = 1 := by
  obtain ⟨hw, hdw⟩ := iterate_square h (v - K - 1) z hinv.ok_z
  set w := ops.square^[v - K - 1] z
  have hz' : ok (ops.square w) := h.ok_square w hw
  have hdz' : dec (ops.square w) = dec z ^ 2 ^ (v - K) := by
    rw [h.dec_square w hw, hdw, ← pow_mul, ← pow_succ, Nat.sub_add_cancel (by omega)]
  have hzhalf : dec (ops.square w) ^ 2 ^ (K - 1) = -1 := by
    rw [hdz', ← pow_mul, ← pow_add, show v - K + (K - 1) = v - 1 by omega]
    exact hinv.z_half
  have hbhalf : dec (ops.mul b (ops.square w)) ^ 2 ^ (K - 1) = 1 := by
    rw [h.dec_mul _ _ hinv.ok_b hz', mul_pow, hbK, hzhalf, neg_one_mul, neg_neg]
  refine ⟨⟨hz', h.ok_mul _ _ hinv.ok_x hw, h.ok_mul _ _ hinv.ok_b hz', hK1,
    by have := hinv.le_S; omega, ?_, hzhalf, ?_, fun _ => hbhalf⟩, hbhalf⟩
  · rw [h.dec_mul _ _ hinv.ok_x hw, h.dec_mul _ _ hinv.ok_b hz', h.dec_square w hw, mul_pow,
      hinv.sq_x]
    ring
  · rw [h.dec_mul _ _ hinv.ok_b hz', mul_pow, hKpow, one_mul]
    exact pow_two_pow_eq_one_of_half hK1 hzhalf

theorem loop_spec (A : F) (v : ℕ) : ∀ z x b, ops.Inv ok dec A z x b v →
    ∃ r, (∀ fuel, v < fuel → ops.loop fuel (z, x, b, v) = some r) ∧
      (r = none ↔ dec b ^ 2 ^ (v - 1) ≠ 1) ∧ ∀ y, r = some y → ok y ∧ dec y ^ 2 = A := by
  induction v using Nat.strong_induction_on with
  | _ v ih =>
  intro z x b hinv
  by_cases hone : ops.isOne b = true
  · have hb1 : dec b = 1 := (h.isOne_iff b hinv.ok_b).mp hone
    refine ⟨some x, fun fuel hfuel => ?_, ?_, ?_⟩
    · obtain ⟨f, rfl⟩ : ∃ f, fuel = f + 1 := ⟨fuel - 1, by omega⟩
      rw [loop, if_pos hone]
    · simp [hb1]
    · rintro y ⟨⟩
      exact ⟨hinv.ok_x, by rw [hinv.sq_x, hb1, mul_one]⟩
  · classical
    have hb1 : dec b ≠ 1 := fun h1 => hone ((h.isOne_iff b hinv.ok_b).mpr h1)
    have hex : ∃ k, dec b ^ 2 ^ k = 1 := ⟨v, hinv.b_pow⟩
    have hKpow : dec b ^ 2 ^ Nat.find hex = 1 := Nat.find_spec hex
    have hKmin : ∀ i < Nat.find hex, dec b ^ 2 ^ i ≠ 1 := fun i hi => Nat.find_min hex hi
    have hKv : Nat.find hex ≤ v := Nat.find_min' hex hinv.b_pow
    set K := Nat.find hex
    have hK1 : 1 ≤ K := by
      by_contra hK0
      rw [show K = 0 by omega, pow_zero, pow_one] at hKpow
      exact hb1 hKpow
    have hsearch : ∀ f, v < f + 1 → ops.search (f + 1) b 0 = some K := fun f hf => by
      rw [search_spec h (f + 1) b 0 K hinv.ok_b hKpow hKmin (by omega), Nat.zero_add]
    by_cases hKS : K = ops.SQRT_S
    · have hvS : v = ops.SQRT_S := le_antisymm hinv.le_S (hKS ▸ hKv)
      refine ⟨none, fun fuel hfuel => ?_, iff_of_true rfl (hKmin (v - 1) (by omega)),
        fun y hy => absurd hy (by simp)⟩
      obtain ⟨f, rfl⟩ : ∃ f, fuel = f + 1 := ⟨fuel - 1, by omega⟩
      rw [loop, if_neg hone, hsearch f hfuel, Option.bind_some, if_pos hKS]
    · have hhalf : dec b ^ 2 ^ (v - 1) = 1 := by
        by_cases hvS : v < ops.SQRT_S
        · exact hinv.b_half hvS
        · exact pow_two_pow_eq_one_of_le hKpow (by have := hinv.le_S; omega)
      have hKlt : K < v := by
        have := Nat.find_min' hex hhalf
        have := hinv.one_le
        omega
      obtain ⟨hinv', hbhalf'⟩ := inv_round h hinv hK1 hKlt hKpow
        (half_eq_neg_one hK1 hKpow (hKmin (K - 1) (by omega)))
      obtain ⟨r, hrun, hnone, hsome⟩ := ih K hKlt _ _ _ hinv'
      refine ⟨r, fun fuel hfuel => ?_, iff_of_false (fun hr => hnone.mp hr hbhalf')
        (fun hne => hne hhalf), hsome⟩
      obtain ⟨f, rfl⟩ : ∃ f, fuel = f + 1 := ⟨fuel - 1, by omega⟩
      rw [loop, if_neg hone, hsearch f hfuel, Option.bind_some, if_neg hKS,
        if_neg (by omega)]
      exact hrun f (by omega)

theorem sqrt_spec (hS : 1 ≤ ops.SQRT_S) (hz : dec ops.SQRT_Z ^ 2 ^ (ops.SQRT_S - 1) = -1)
    (hfermat : ∀ y : F, y ≠ 0 → y ^ (2 ^ ops.SQRT_S * (2 * e + 1)) = 1) (a : L) (ha : ok a) :
    ∃ r, (∀ n, ops.SQRT_S < n → ops.sqrt n a = some r) ∧ (r = none ↔ ¬ IsSquare (dec a)) ∧
      ∀ y, r = some y → ok y ∧ dec y ^ 2 = dec a := by
  by_cases hzero : ops.isZero a = true
  · have ha0 : dec a = 0 := (h.isZero_iff a ha).mp hzero
    refine ⟨some ops.ZERO, fun n _ => by rw [sqrt, if_pos hzero], ?_, ?_⟩
    · simp [ha0]
    · rintro y ⟨⟩
      exact ⟨h.ok_ZERO, by rw [h.dec_ZERO, ha0, zero_pow two_ne_zero]⟩
  · have ha0 : dec a ≠ 0 := fun h0 => hzero ((h.isZero_iff a ha).mpr h0)
    have hw := h.ok_pow a ha
    have hx := h.ok_mul _ _ hw ha
    have hdx : dec (ops.mul (ops.powTMinusOneDiv2 a) a) = dec a ^ (e + 1) := by
      rw [h.dec_mul _ _ hw ha, h.dec_pow a ha, pow_succ]
    have hdb : dec (ops.mul (ops.mul (ops.powTMinusOneDiv2 a) a) (ops.powTMinusOneDiv2 a)) =
        dec a ^ (2 * e + 1) := by
      rw [h.dec_mul _ _ hx hw, hdx, h.dec_pow a ha, ← pow_add]
      ring_nf
    have hinv : ops.Inv ok dec (dec a) ops.SQRT_Z (ops.mul (ops.powTMinusOneDiv2 a) a)
        (ops.mul (ops.mul (ops.powTMinusOneDiv2 a) a) (ops.powTMinusOneDiv2 a)) ops.SQRT_S :=
      ⟨h.ok_SQRT_Z, hx, h.ok_mul _ _ hx hw, hS, le_rfl, by rw [hdx, hdb]; ring, hz,
        by rw [hdb, ← pow_mul, mul_comm]; exact hfermat _ ha0, fun hlt => absurd hlt (lt_irrefl _)⟩
    obtain ⟨r, hrun, hnone, hsome⟩ := loop_spec h (dec a) _ _ _ _ hinv
    refine ⟨r, fun n hn => by rw [sqrt, if_neg hzero]; exact hrun n hn, ?_, hsome⟩
    rw [hnone]
    constructor
    · rintro hne ⟨c, hc⟩
      have hc0 : c ≠ 0 := by rintro rfl; rw [mul_zero] at hc; exact ha0 hc
      obtain ⟨S', hS'⟩ : ∃ S', ops.SQRT_S = S' + 1 := ⟨ops.SQRT_S - 1, by omega⟩
      apply hne
      rw [hdb, hc, ← sq, ← pow_mul, ← pow_mul, hS', Nat.add_sub_cancel, ← hfermat c hc0, hS']
      congr 1
      ring
    · intro hnsq hhalf
      obtain ⟨y, rfl⟩ := Option.ne_none_iff_exists'.mp (fun hr => hnone.mp hr hhalf)
      exact hnsq ⟨dec y, by rw [← (hsome y rfl).2, sq]⟩

end Correct

end SqrtOps

end Bignum
end Pathfinder
