import Mathlib.Data.List.Prime
import Mathlib.NumberTheory.LucasPrimality

/-!
# Primality by Pratt certificates

Lucas's test (`lucas_primality`) proves `p` prime from a witness `a` with `a^(p-1) ≡ 1` and
`a^((p-1)/q) ≢ 1 (mod p)` for each prime `q` dividing `p - 1`. A Pratt certificate gives the
witness and the factorization of `p - 1`, whose primes are certified the same way. Here a
certificate is a list of entries, each factor of an entry certified by an entry before it, and
`check` is a Boolean test of it that the kernel evaluates; the powers are computed by
square-and-multiply, so a 256-bit exponent costs a few hundred multiplications.
-/

namespace Pathfinder
namespace Pratt

/-- `a ^ n % m` by square-and-multiply, reading at most `bits` bits of `n`. -/
def powMod (m : ℕ) : ℕ → ℕ → ℕ → ℕ
  | 0, _, _ => 1 % m
  | bits + 1, a, n =>
    if n = 0 then 1 % m
    else
      let r := powMod m bits (a * a % m) (n / 2)
      if n % 2 = 1 then r * a % m else r

theorem powMod_eq (m : ℕ) : ∀ (bits a n : ℕ), n < 2 ^ bits → powMod m bits a n = a ^ n % m
  | 0, a, n, h => by
    obtain rfl : n = 0 := by simpa using h
    rfl
  | bits + 1, a, n, h => by
    rw [powMod]
    split_ifs with h0 hodd
    · rw [h0, pow_zero]
    · have hn : n / 2 < 2 ^ bits := by rw [pow_succ] at h; omega
      rw [powMod_eq m bits _ _ hn, ← Nat.pow_mod, Nat.mod_mul_mod]
      conv_rhs => rw [← Nat.div_add_mod n 2, hodd, pow_succ, pow_mul, sq]
    · have hn : n / 2 < 2 ^ bits := by rw [pow_succ] at h; omega
      have heven : n % 2 = 0 := by omega
      rw [powMod_eq m bits _ _ hn, ← Nat.pow_mod]
      conv_rhs => rw [← Nat.div_add_mod n 2, heven, add_zero, pow_mul, sq]

theorem pow_eq_one_iff_mod {p : ℕ} (hp : 2 ≤ p) (a n : ℕ) :
    (a : ZMod p) ^ n = 1 ↔ a ^ n % p = 1 := by
  rw [← Nat.cast_pow, ← Nat.cast_one, ZMod.natCast_eq_natCast_iff', Nat.one_mod_eq_one.mpr (by omega)]

/-- One entry of a certificate. -/
structure Entry where
  p : ℕ
  a : ℕ
  factors : List (ℕ × ℕ)

def Entry.check (bits : ℕ) (proven : List ℕ) (e : Entry) : Bool :=
  2 ≤ e.p && e.p ≤ 2 ^ bits && e.factors.all (fun f => proven.contains f.1) &&
    (e.factors.map fun f => f.1 ^ f.2).prod == e.p - 1 &&
    powMod e.p bits e.a (e.p - 1) == 1 &&
    e.factors.all fun f => powMod e.p bits e.a ((e.p - 1) / f.1) != 1

def check (bits : ℕ) : List ℕ → List Entry → Bool
  | _, [] => true
  | proven, e :: es => e.check bits proven && check bits (e.p :: proven) es

theorem mem_of_dvd_prod {q : ℕ} (hq : q.Prime) {factors : List (ℕ × ℕ)}
    (hprimes : ∀ f ∈ factors, f.1.Prime) (h : q ∣ (factors.map fun f => f.1 ^ f.2).prod) :
    ∃ f ∈ factors, q = f.1 := by
  obtain ⟨x, hx, hqx⟩ := (Prime.dvd_prod_iff hq.prime).mp h
  obtain ⟨f, hf, rfl⟩ := List.mem_map.mp hx
  exact ⟨f, hf, (Nat.prime_dvd_prime_iff_eq hq (hprimes f hf)).mp (hq.dvd_of_dvd_pow hqx)⟩

theorem Entry.prime_of_check {bits : ℕ} {proven : List ℕ} {e : Entry}
    (hproven : ∀ q ∈ proven, q.Prime) (h : e.check bits proven = true) : e.p.Prime := by
  simp only [Entry.check, Bool.and_eq_true, decide_eq_true_eq, List.all_eq_true,
    List.contains_iff_mem, beq_iff_eq, bne_iff_ne, ne_eq] at h
  obtain ⟨⟨⟨⟨⟨h2, hbits⟩, hknown⟩, hprod⟩, hfermat⟩, horders⟩ := h
  have hexp : ∀ n, n ≤ e.p - 1 → n < 2 ^ bits := fun n hn => by omega
  have hprimes : ∀ f ∈ e.factors, f.1.Prime := fun f hf => hproven _ (hknown f hf)
  refine lucas_primality e.p (e.a : ZMod e.p) ?_ ?_
  · rw [pow_eq_one_iff_mod h2, ← powMod_eq _ _ _ _ (hexp _ le_rfl)]
    exact hfermat
  · intro q hq hdvd
    rw [← hprod] at hdvd
    obtain ⟨f, hf, rfl⟩ := mem_of_dvd_prod hq hprimes hdvd
    rw [ne_eq, pow_eq_one_iff_mod h2, ← powMod_eq _ _ _ _ (hexp _ (Nat.div_le_self _ _))]
    exact horders f hf

theorem prime_of_check {bits : ℕ} :
    ∀ {proven : List ℕ} {es : List Entry}, (∀ q ∈ proven, q.Prime) →
      check bits proven es = true → ∀ e ∈ es, e.p.Prime
  | _, [], _, _, _, he => absurd he List.not_mem_nil
  | proven, e :: es, hproven, h, e', he' => by
    rw [check, Bool.and_eq_true] at h
    have hp := Entry.prime_of_check hproven h.1
    have hproven' : ∀ q ∈ e.p :: proven, q.Prime := by
      intro q hq
      rcases List.mem_cons.mp hq with rfl | hq
      · exact hp
      · exact hproven q hq
    rcases List.mem_cons.mp he' with rfl | he'
    · exact hp
    · exact prime_of_check hproven' h.2 e' he'

theorem prime_of_check_append {bits : ℕ} {es : List Entry} {e : Entry}
    (h : check bits [] (es ++ [e]) = true) : e.p.Prime :=
  prime_of_check (fun _ hq => absurd hq List.not_mem_nil) h e (by simp)

end Pratt
end Pathfinder
