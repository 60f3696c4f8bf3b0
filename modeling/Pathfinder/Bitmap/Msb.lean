import Mathlib.Data.Nat.Bitwise
import Mathlib.Data.List.Basic

/-! Bit strings stored in bytes, most significant bit first: bit `n` lives at bit `7 - n % 8`
of byte `n / 8`. Reading, setting, combining bytewise and slicing such strings, and folds
of updates that only ever set bits. -/
namespace Pathfinder
namespace Bitmap

def bitMsb (byte : UInt8) (o : ℕ) : Bool := (byte >>> (7 - o).toUInt8) &&& 1 == 1

def msbBit (bytes : List UInt8) (n : ℕ) : Bool := bitMsb (bytes.getD (n / 8) 0) (n % 8)

def setMsb (bytes : List UInt8) (n : ℕ) : List UInt8 :=
  bytes.modify (n / 8) (· ||| (1 <<< (7 - n % 8).toUInt8))

section Byte

theorem toNat_shiftAmount {o : ℕ} (ho : o < 8) : ((7 - o).toUInt8).toNat % 8 = 7 - o := by
  rw [Nat.toUInt8_eq,UInt8.toNat_ofNat_of_lt' (show 7 - o < 256 by omega)]
  omega

theorem bitMsb_eq_testBit (byte : UInt8) {o : ℕ} (ho : o < 8) :
    bitMsb byte o = byte.toNat.testBit (7 - o) := by
  rw [bitMsb,Nat.testBit_eq_decide_div_mod_eq,Bool.eq_iff_iff,beq_iff_eq,← UInt8.toNat_inj]
  simp only [UInt8.toNat_and,UInt8.toNat_shiftRight,toNat_shiftAmount ho,Nat.shiftRight_eq_div_pow,
    decide_eq_true_eq,UInt8.toNat_one,Nat.and_one_is_mod]

@[simp] theorem bitMsb_zero (o : ℕ) : bitMsb 0 o = false := by
  simp [bitMsb]

theorem bitMsb_max {o : ℕ} (ho : o < 8) : bitMsb 255 o = true := by
  revert o
  decide

theorem bitMsb_or (a b : UInt8) {o : ℕ} (ho : o < 8) :
    bitMsb (a ||| b) o = (bitMsb a o || bitMsb b o) := by
  simp only [bitMsb_eq_testBit _ ho,UInt8.toNat_or,Nat.testBit_or]

theorem bitMsb_and (a b : UInt8) {o : ℕ} (ho : o < 8) :
    bitMsb (a &&& b) o = (bitMsb a o && bitMsb b o) := by
  simp only [bitMsb_eq_testBit _ ho,UInt8.toNat_and,Nat.testBit_and]

theorem bitMsb_and_one_shiftLeft (c : UInt8) {k o : ℕ} (hk : k < 8) (ho : o < 8) :
    bitMsb ((c &&& 1) <<< (7 - k).toUInt8) o = (decide (o = k) && (c &&& 1 == 1)) := by
  have hc : (c &&& 1 == 1) = c.toNat.testBit 0 := by
    rw [Nat.testBit_eq_decide_div_mod_eq,Bool.eq_iff_iff,beq_iff_eq,← UInt8.toNat_inj]
    simp [Nat.and_one_is_mod]
  rw [bitMsb_eq_testBit _ ho,hc]
  simp only [UInt8.toNat_shiftLeft,UInt8.toNat_and,toNat_shiftAmount hk,Nat.testBit_mod_two_pow,
    Nat.testBit_shiftLeft,Nat.testBit_and,UInt8.toNat_one]
  by_cases hok : o = k
  · subst hok
    simp only [Nat.sub_self,Nat.testBit_zero]
    simp
    omega
  · have h1 : ∀ n, Nat.testBit 1 (n + 1) = false := fun n => by simp [Nat.testBit_succ]
    by_cases hle : 7 - k ≤ 7 - o
    · rw [show 7 - o - (7 - k) = 7 - o - (7 - k) - 1 + 1 by omega,h1]
      simp [hok]
    · simp [hle,hok]

end Byte

section Bytes

theorem msbBit_modify_or {bytes : List UInt8} {m : ℕ} (hm : m < bytes.length) (c : UInt8) (n : ℕ) :
    msbBit (bytes.modify m (· ||| c)) n = (msbBit bytes n || (decide (n / 8 = m) && bitMsb c (n % 8))) := by
  have hn : n % 8 < 8 := Nat.mod_lt _ (by omega)
  simp only [msbBit,List.getD_eq_getElem?_getD,List.getElem?_modify]
  by_cases h : n / 8 = m
  · subst h
    simp [List.getElem?_eq_getElem hm,bitMsb_or _ _ hn]
  · simp [Ne.symm h,h]

theorem msbBit_setMsb {bytes : List UInt8} {n : ℕ} (hn : n / 8 < bytes.length) (j : ℕ) :
    msbBit (setMsb bytes n) j = (msbBit bytes j || decide (j = n)) := by
  have hj : j % 8 < 8 := Nat.mod_lt _ (by omega)
  have hn8 : n % 8 < 8 := Nat.mod_lt _ (by omega)
  have h1 : (1 : UInt8) = 1 &&& 1 := rfl
  rw [setMsb,msbBit_modify_or hn,h1,bitMsb_and_one_shiftLeft _ hn8 hj]
  congr 1
  by_cases h : j = n
  · simp [h]
  · have : ¬ (j / 8 = n / 8 ∧ j % 8 = n % 8) := fun ⟨h1,h2⟩ => h (by omega)
    simp only [not_and] at this
    by_cases h' : j / 8 = n / 8 <;> simp [h,h',this]

theorem setMsb_of_length_le {bytes : List UInt8} {n : ℕ} (hn : bytes.length ≤ n / 8) :
    setMsb bytes n = bytes :=
  List.modify_eq_self hn

@[simp] theorem length_setMsb (bytes : List UInt8) (n : ℕ) : (setMsb bytes n).length = bytes.length :=
  List.length_modify _ _ _

@[simp] theorem msbBit_replicate_zero (k n : ℕ) : msbBit (List.replicate k 0) n = false := by
  simp [msbBit,List.getD_eq_getElem?_getD,List.getElem?_replicate]
  split <;> simp

theorem msbBit_replicate_max {k n : ℕ} (hn : n / 8 < k) : msbBit (List.replicate k 255) n = true := by
  simp [msbBit,List.getD_eq_getElem?_getD,hn,bitMsb_max (Nat.mod_lt n (by omega))]

theorem msbBit_of_length_le {bytes : List UInt8} {n : ℕ} (hn : bytes.length ≤ n / 8) :
    msbBit bytes n = false := by
  simp [msbBit,List.getD_eq_getElem?_getD,List.getElem?_eq_none hn]

theorem msbBit_zipWith {f : UInt8 → UInt8 → UInt8} {g : Bool → Bool → Bool}
    (hf : ∀ a b o, o < 8 → bitMsb (f a b) o = g (bitMsb a o) (bitMsb b o)) (hg : g false false = false)
    {a b : List UInt8} (hab : a.length = b.length) (n : ℕ) :
    msbBit (List.zipWith f a b) n = g (msbBit a n) (msbBit b n) := by
  by_cases ha : n / 8 < a.length
  · have hb : n / 8 < b.length := hab ▸ ha
    simp only [msbBit,List.getD_eq_getElem?_getD,List.getElem?_zipWith,List.getElem?_eq_getElem ha,
      List.getElem?_eq_getElem hb,Option.getD_some]
    exact hf _ _ _ (Nat.mod_lt _ (by omega))
  · rw [msbBit_of_length_le (by simp; omega),msbBit_of_length_le (by omega),
      msbBit_of_length_le (by omega),hg]

theorem msbBit_and {a b : List UInt8} (hab : a.length = b.length) (n : ℕ) :
    msbBit (List.zipWith (· &&& ·) a b) n = (msbBit a n && msbBit b n) :=
  msbBit_zipWith (fun a b _ ho => bitMsb_and a b ho) rfl hab n

theorem msbBit_or {a b : List UInt8} (hab : a.length = b.length) (n : ℕ) :
    msbBit (List.zipWith (· ||| ·) a b) n = (msbBit a n || msbBit b n) :=
  msbBit_zipWith (fun a b _ ho => bitMsb_or a b ho) rfl hab n

theorem msbBit_drop_take (bytes : List UInt8) (d t : ℕ) {n : ℕ} (hn : n / 8 < t) :
    msbBit ((bytes.drop d).take t) n = msbBit bytes (8 * d + n) := by
  have h8 : (8 * d + n) / 8 = d + n / 8 := by omega
  have hm : (8 * d + n) % 8 = n % 8 := by omega
  simp only [msbBit,List.getD_eq_getElem?_getD,List.getElem?_take,List.getElem?_drop,h8,hm,if_pos hn]

end Bytes

section Folds
variable {α β : Type} (P : β → ℕ → Bool) (Q : α → ℕ → Bool) (I : β → Prop) (f : β → α → β)

theorem foldl_sets : ∀ (xs : List α), (∀ acc, ∀ x ∈ xs, I acc → I (f acc x)) →
    (∀ acc, ∀ x ∈ xs, I acc → ∀ n, P (f acc x) n = (P acc n || Q x n)) →
    ∀ acc, I acc → ∀ n, P (xs.foldl f acc) n = (P acc n || xs.any (Q · n))
  | [], _, _, acc, _, n => by simp
  | x :: xs, hI, hf, acc, h, n => by
    have ih := foldl_sets xs (fun a y hy => hI a y (List.mem_cons_of_mem _ hy))
      (fun a y hy => hf a y (List.mem_cons_of_mem _ hy)) _ (hI acc x List.mem_cons_self h) n
    rw [List.foldl_cons,ih,hf acc x List.mem_cons_self h n,List.any_cons,Bool.or_assoc]

theorem foldl_keeps : ∀ (xs : List α), (∀ acc, ∀ x ∈ xs, I acc → I (f acc x)) →
    (∀ acc, ∀ x ∈ xs, I acc → ∀ n, P (f acc x) n = (P acc n && Q x n)) →
    ∀ acc, I acc → ∀ n, P (xs.foldl f acc) n = (P acc n && xs.all (Q · n))
  | [], _, _, acc, _, n => by simp
  | x :: xs, hI, hf, acc, h, n => by
    have ih := foldl_keeps xs (fun a y hy => hI a y (List.mem_cons_of_mem _ hy))
      (fun a y hy => hf a y (List.mem_cons_of_mem _ hy)) _ (hI acc x List.mem_cons_self h) n
    rw [List.foldl_cons,ih,hf acc x List.mem_cons_self h n,List.all_cons,Bool.and_assoc]

theorem foldl_invariant : ∀ (xs : List α), (∀ acc, ∀ x ∈ xs, I acc → I (f acc x)) →
    ∀ acc, I acc → I (xs.foldl f acc)
  | [], _, _, h => h
  | x :: xs, hI, acc, h =>
    foldl_invariant xs (fun a y hy => hI a y (List.mem_cons_of_mem _ hy)) _ (hI acc x List.mem_cons_self h)

end Folds

end Bitmap
end Pathfinder
