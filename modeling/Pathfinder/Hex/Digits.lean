import Mathlib.Data.List.Basic
import Mathlib.Tactic.Ring

/-! Hexadecimal digit strings and big-endian byte strings as the numbers they spell: the value
of a string of ASCII hex digits of either case, the value of a byte string, the two lower-case
digits a byte is written as, and digits paired into bytes. Values are read most significant
first, as a left fold, so that appending a digit multiplies by the base. -/
namespace Pathfinder
namespace Hex

section Digit

def IsHexDigit (c : UInt8) : Prop :=
  (48 ≤ c.toNat ∧ c.toNat ≤ 57) ∨ (65 ≤ c.toNat ∧ c.toNat ≤ 70) ∨ (97 ≤ c.toNat ∧ c.toNat ≤ 102)

instance : DecidablePred IsHexDigit := fun c =>
  inferInstanceAs (Decidable ((48 ≤ c.toNat ∧ c.toNat ≤ 57) ∨ (65 ≤ c.toNat ∧ c.toNat ≤ 70) ∨
    (97 ≤ c.toNat ∧ c.toNat ≤ 102)))

def digitValue (c : UInt8) : ℕ :=
  if c.toNat ≤ 57 then c.toNat - 48 else if c.toNat ≤ 70 then c.toNat - 55 else c.toNat - 87

def lowerDigit (d : ℕ) : UInt8 := UInt8.ofNat (if d < 10 then 48 + d else 87 + d)

theorem digitValue_lt {c : UInt8} (hc : IsHexDigit c) : digitValue c < 16 := by
  unfold IsHexDigit at hc
  unfold digitValue
  split_ifs <;> omega

theorem isHexDigit_lowerDigit {d : ℕ} (hd : d < 16) : IsHexDigit (lowerDigit d) := by
  revert d
  decide

theorem digitValue_lowerDigit {d : ℕ} (hd : d < 16) : digitValue (lowerDigit d) = d := by
  revert d
  decide

theorem lowerDigit_eq_zero_iff {d : ℕ} (hd : d < 16) : lowerDigit d = 48 ↔ d = 0 := by
  revert d
  decide

end Digit

section Value

def hexValue (ds : List UInt8) : ℕ := ds.foldl (fun acc d => 16 * acc + digitValue d) 0

def beValue (bytes : List UInt8) : ℕ := bytes.foldl (fun acc b => 256 * acc + b.toNat) 0

theorem foldl_hexValue (ds : List UInt8) (acc : ℕ) :
    ds.foldl (fun acc d => 16 * acc + digitValue d) acc = 16 ^ ds.length * acc + hexValue ds := by
  induction ds generalizing acc with
  | nil => simp [hexValue]
  | cons d ds ih =>
    simp only [hexValue, List.foldl_cons, List.length_cons] at ih ⊢
    rw [ih, ih (16 * 0 + digitValue d), pow_succ]
    ring

theorem foldl_beValue (bytes : List UInt8) (acc : ℕ) :
    bytes.foldl (fun acc b => 256 * acc + b.toNat) acc = 256 ^ bytes.length * acc + beValue bytes := by
  induction bytes generalizing acc with
  | nil => simp [beValue]
  | cons b bytes ih =>
    simp only [beValue, List.foldl_cons, List.length_cons] at ih ⊢
    rw [ih, ih (256 * 0 + b.toNat), pow_succ]
    ring

theorem hexValue_append (a b : List UInt8) : hexValue (a ++ b) = 16 ^ b.length * hexValue a + hexValue b := by
  rw [hexValue, List.foldl_append, foldl_hexValue]
  rfl

theorem beValue_append (a b : List UInt8) : beValue (a ++ b) = 256 ^ b.length * beValue a + beValue b := by
  rw [beValue, List.foldl_append, foldl_beValue]
  rfl

theorem hexValue_cons (d : UInt8) (ds : List UInt8) :
    hexValue (d :: ds) = 16 ^ ds.length * digitValue d + hexValue ds := by
  rw [← List.singleton_append, hexValue_append]
  simp [hexValue]

theorem beValue_cons (b : UInt8) (bytes : List UInt8) :
    beValue (b :: bytes) = 256 ^ bytes.length * b.toNat + beValue bytes := by
  rw [← List.singleton_append, beValue_append]
  simp [beValue]

theorem beValue_lt (bytes : List UInt8) : beValue bytes < 256 ^ bytes.length := by
  induction bytes with
  | nil => simp [beValue]
  | cons b bytes ih =>
    have hb : b.toNat < 256 := b.toNat_lt
    have hweight := Nat.mul_le_mul_left (256 ^ bytes.length) (show b.toNat + 1 ≤ 256 by omega)
    rw [Nat.mul_add, Nat.mul_one] at hweight
    rw [beValue_cons, List.length_cons, pow_succ]
    omega

theorem hexValue_zero_cons (ds : List UInt8) : hexValue (48 :: ds) = hexValue ds := by
  rw [hexValue_cons]
  simp [digitValue]

theorem beValue_replicate_zero_append (k : ℕ) (bytes : List UInt8) :
    beValue (List.replicate k 0 ++ bytes) = beValue bytes := by
  induction k with
  | zero => rfl
  | succ k ih =>
    rw [List.replicate_succ, List.cons_append, beValue_cons, ih]
    simp

theorem beValue_dropWhile_zero (bytes : List UInt8) :
    beValue (bytes.dropWhile (· == 0)) = beValue bytes := by
  induction bytes with
  | nil => rfl
  | cons b bytes ih =>
    by_cases hb : b = 0
    · rw [List.dropWhile_cons_of_pos (by simp [hb]), ih, beValue_cons, hb]
      simp
    · rw [List.dropWhile_cons_of_neg (by simp [hb])]

theorem beValue_inj : ∀ {a b : List UInt8}, a.length = b.length → beValue a = beValue b → a = b
  | [], [], _, _ => rfl
  | x :: a, y :: b, hlen, h => by
    have hlen' : a.length = b.length := by simpa using hlen
    rw [beValue_cons, beValue_cons, hlen'] at h
    have hpos : 0 < 256 ^ b.length := Nat.pow_pos (by decide)
    have hx : (256 ^ b.length * x.toNat + beValue a) / 256 ^ b.length = x.toNat := by
      rw [Nat.mul_add_div hpos, Nat.div_eq_of_lt (hlen' ▸ beValue_lt a), Nat.add_zero]
    have hy : (256 ^ b.length * y.toNat + beValue b) / 256 ^ b.length = y.toNat := by
      rw [Nat.mul_add_div hpos, Nat.div_eq_of_lt (beValue_lt b), Nat.add_zero]
    have hxy : x = y := UInt8.toNat_inj.mp (by rw [← hx, ← hy, h])
    subst hxy
    rw [beValue_inj hlen' (by omega)]

end Value

section Pairs

def hexPair (b : UInt8) : List UInt8 := [lowerDigit (b.toNat / 16), lowerDigit (b.toNat % 16)]

theorem isHexDigit_of_mem_flatMap_hexPair {bytes : List UInt8} {c : UInt8}
    (hc : c ∈ bytes.flatMap hexPair) : IsHexDigit c := by
  obtain ⟨b, -, hb⟩ := List.mem_flatMap.mp hc
  have hhigh : b.toNat / 16 < 16 := by have := b.toNat_lt; omega
  have hlow : b.toNat % 16 < 16 := Nat.mod_lt _ (by omega)
  simp only [hexPair, List.mem_cons, List.not_mem_nil, or_false] at hb
  rcases hb with rfl | rfl
  · exact isHexDigit_lowerDigit hhigh
  · exact isHexDigit_lowerDigit hlow

theorem hexValue_flatMap_hexPair (bytes : List UInt8) : hexValue (bytes.flatMap hexPair) = beValue bytes := by
  induction bytes with
  | nil => rfl
  | cons b bytes ih =>
    have hhigh : b.toNat / 16 < 16 := by have := b.toNat_lt; omega
    have hlow : b.toNat % 16 < 16 := Nat.mod_lt _ (by omega)
    have hlen : (bytes.flatMap hexPair).length = 2 * bytes.length := by
      simp [hexPair, List.length_flatMap]
      ring
    rw [List.flatMap_cons, hexValue_append, ih, beValue_cons, hlen, pow_mul]
    simp only [hexPair, hexValue_cons, List.length_cons, List.length_nil, digitValue_lowerDigit hhigh,
      digitValue_lowerDigit hlow]
    simp [hexValue]
    omega

def pairs {α : Type} : List α → List (α × α)
  | a :: b :: rest => (a, b) :: pairs rest
  | _ => []

@[simp] theorem length_pairs {α : Type} : ∀ l : List α, (pairs l).length = l.length / 2
  | [] => by simp [pairs]
  | [_] => by simp [pairs]
  | _ :: _ :: rest => by
    simp only [pairs, List.length_cons, length_pairs rest]
    omega

theorem getElem_pairs {α : Type} : ∀ (l : List α) (j : ℕ) (hj : j < (pairs l).length)
    (h1 : 2 * j < l.length) (h2 : 2 * j + 1 < l.length), (pairs l)[j] = (l[2 * j], l[2 * j + 1])
  | a :: b :: rest, 0, _, _, _ => rfl
  | a :: b :: rest, j + 1, hj, h1, h2 => by
    have hrest := getElem_pairs rest j (by simp at hj ⊢; omega) (by simp at h1; omega) (by simp at h2; omega)
    simp only [pairs, List.getElem_cons_succ, hrest]
    simp [show 2 * (j + 1) = 2 * j + 2 by ring]

theorem mem_of_mem_pairs {α : Type} : ∀ {l : List α} {q : α × α}, q ∈ pairs l → q.1 ∈ l ∧ q.2 ∈ l
  | a :: b :: rest, q, hq => by
    rcases List.mem_cons.mp hq with rfl | hq
    · simp
    · have := mem_of_mem_pairs hq
      exact ⟨List.mem_cons_of_mem _ (List.mem_cons_of_mem _ this.1),
        List.mem_cons_of_mem _ (List.mem_cons_of_mem _ this.2)⟩

theorem exists_mem_pairs {α : Type} : ∀ {l : List α}, l.length % 2 = 0 → ∀ c ∈ l,
    ∃ q ∈ pairs l, c = q.1 ∨ c = q.2
  | [_], he, _, _ => by simp at he
  | a :: b :: rest, he, c, hc => by
    rcases List.mem_cons.mp hc with rfl | hc
    · exact ⟨(c, b), List.mem_cons_self, .inl rfl⟩
    rcases List.mem_cons.mp hc with rfl | hc
    · exact ⟨(a, c), List.mem_cons_self, .inr rfl⟩
    have heven : rest.length % 2 = 0 := by
      simp only [List.length_cons] at he
      omega
    obtain ⟨q, hq, hcq⟩ := exists_mem_pairs heven c hc
    exact ⟨q, List.mem_cons_of_mem _ hq, hcq⟩

def pairByte (p : UInt8 × UInt8) : UInt8 := UInt8.ofNat (16 * digitValue p.1 + digitValue p.2)

theorem beValue_map_pairByte : ∀ {e : List UInt8}, e.length % 2 = 0 → (∀ c ∈ e, IsHexDigit c) →
    beValue ((pairs e).map pairByte) = hexValue e
  | [], _, _ => rfl
  | [_], he, _ => by simp at he
  | h :: l :: rest, he, hd => by
    have hh := digitValue_lt (hd h (by simp))
    have hl := digitValue_lt (hd l (by simp))
    have heven : rest.length % 2 = 0 := by
      simp only [List.length_cons] at he
      omega
    have hrest := beValue_map_pairByte heven fun c hc => hd c (by simp [hc])
    have hbyte : (pairByte (h, l)).toNat = 16 * digitValue h + digitValue l := by
      show (UInt8.ofNat (16 * digitValue h + digitValue l)).toNat = _
      rw [UInt8.toNat_ofNat']
      omega
    have hlen : ((pairs rest).map pairByte).length * 2 = rest.length := by
      simp only [List.length_map, length_pairs]
      omega
    have hweight : (16 : ℕ) ^ rest.length = 256 ^ ((pairs rest).map pairByte).length := by
      rw [← hlen, pow_mul']
      norm_num
    rw [pairs, List.map_cons, beValue_cons, hrest, hbyte, hexValue_cons, hexValue_cons, List.length_cons,
      pow_succ, hweight]
    ring

end Pairs

end Hex
end Pathfinder
