import Mathlib.Data.Nat.Digits.Lemmas

/-! Numbers written as digit strings, least significant digit first as `Nat.ofDigits` reads
them. Comparing two numbers of one length digit by digit from the most significant end
compares the numbers, and reading a string of digits in groups of `k` reads the same number
in base `B ^ k`. -/
namespace Pathfinder
namespace Bignum

def cmpDigits : List ℕ → List ℕ → Ordering
  | a :: as, b :: bs => if a < b then .lt else if b < a then .gt else cmpDigits as bs
  | _, _ => .eq

variable {B : ℕ}

theorem ofDigits_reverse_lt (hB : 1 < B) (ds : List ℕ) (h : ∀ d ∈ ds, d < B) :
    Nat.ofDigits B ds.reverse < B ^ ds.length := by
  simpa using Nat.ofDigits_lt_base_pow_length hB (l := ds.reverse) (by simpa using h)

theorem compare_add_left_pow {x y n a b : ℕ} (hx : x < B ^ n) (hy : y < B ^ n) :
    compare (x + B ^ n * a) (y + B ^ n * b) =
      if a < b then .lt else if b < a then .gt else compare x y := by
  rcases Nat.lt_trichotomy a b with h | rfl | h
  · have : B ^ n * (a + 1) ≤ B ^ n * b := Nat.mul_le_mul_left _ h
    rw [if_pos h, Nat.compare_eq_lt]
    rw [Nat.mul_succ] at this
    omega
  · simp only [lt_irrefl,if_false]
    simp only [compare,compareOfLessAndEq,Nat.add_lt_add_iff_right,Nat.add_right_cancel_iff]
  · have : B ^ n * (b + 1) ≤ B ^ n * a := Nat.mul_le_mul_left _ h
    rw [if_neg (Nat.lt_asymm h), if_pos h, Nat.compare_eq_gt]
    rw [Nat.mul_succ] at this
    omega

theorem cmpDigits_eq_compare (hB : 1 < B) : ∀ {as bs : List ℕ}, as.length = bs.length →
    (∀ d ∈ as, d < B) → (∀ d ∈ bs, d < B) →
    cmpDigits as bs = compare (Nat.ofDigits B as.reverse) (Nat.ofDigits B bs.reverse)
  | [], [], _, _, _ => rfl
  | a :: as, b :: bs, hl, ha, hb => by
    have hl' : as.length = bs.length := by simpa using hl
    have hx := ofDigits_reverse_lt hB as fun d hd => ha d (by simp [hd])
    have hy := ofDigits_reverse_lt hB bs fun d hd => hb d (by simp [hd])
    rw [← hl'] at hy
    rw [Nat.ofDigits_reverse_cons,Nat.ofDigits_reverse_cons,← hl',compare_add_left_pow hx hy,
      ← cmpDigits_eq_compare hB hl' (fun d hd => ha d (by simp [hd])) fun d hd => hb d (by simp [hd])]
    rfl

end Bignum
end Pathfinder
