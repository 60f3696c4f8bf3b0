import Mathlib.Data.List.Basic

/-! How the class hash of a Cairo 0 contract writes JSON strings (`class-hash/src/lib.rs`):
serde_json's string writer with `PythonDefaultFormatter`, whose `write_string_fragment` escapes
every non-ASCII character itself. The class hash of cairo-lang hashes what Python's `json.dumps`
writes, so the formatter is compared with Python's escaping of a string (`pythonJsonDumpsStr`,
the reference, written from its documented behaviour: `"`, `\` and `\b \f \n \r \t` as short
escapes, every other character outside `' '`..`'~'` as `\uXXXX` with four zero-padded digits per
UTF-16 unit). The formatter pads `\u{i:4x}` with spaces, so the two differ on DEL and on
`0x80`..`0xfff`. serde_json's own escapes of `"`, `\` and the control characters are a
parameter `escape`. Text is a list of characters. -/

namespace Pathfinder
namespace ClassHash

def quoteChar : Char := Char.ofNat 0x22

def backslashChar : Char := Char.ofNat 0x5c

/-- `n` in lower-case hex, right-aligned in `width` columns filled with `fill`. -/
def hexPadded (fill : Char) (width n : ℕ) : List Char :=
  let digits := Nat.toDigits 16 n
  List.replicate (width - digits.length) fill ++ digits

/-- `\u` and a UTF-16 unit in four columns filled with `fill`. -/
def unicodeEscape (fill : Char) (unit : ℕ) : List Char :=
  backslashChar :: 'u' :: hexPadded fill 4 unit

/-- `char::encode_utf16`: one unit below `0x10000`, else a surrogate pair. -/
def utf16Units (c : Char) : List ℕ :=
  if c.toNat < 0x10000 then [c.toNat]
  else [0xd800 + (c.toNat - 0x10000) / 0x400, 0xdc00 + (c.toNat - 0x10000) % 0x400]

/-- `PythonDefaultFormatter::write_string_fragment`. -/
def PythonDefaultFormatter.writeStringFragment (fragment : List Char) : List Char :=
  fragment.flatMap fun c =>
    if c.toNat < 0x80 then [c] else (utf16Units c).flatMap (unicodeEscape ' ')

def serdeEscapes (c : Char) : Bool :=
  c.toNat < 0x20 || c == quoteChar || c == backslashChar

def formatEscapedStrContents (escape : Char → List Char) : List Char → List Char → List Char
  | fragment, [] => PythonDefaultFormatter.writeStringFragment fragment
  | fragment, c :: rest =>
    if serdeEscapes c then
      PythonDefaultFormatter.writeStringFragment fragment ++ escape c ++
        formatEscapedStrContents escape [] rest
    else formatEscapedStrContents escape (fragment ++ [c]) rest

def serializeStr (escape : Char → List Char) (s : List Char) : List Char :=
  quoteChar :: formatEscapedStrContents escape [] s ++ [quoteChar]

def pythonEscapeChar (c : Char) : List Char :=
  if c = quoteChar then [backslashChar, quoteChar]
  else if c = backslashChar then [backslashChar, backslashChar]
  else if c.toNat = 0x08 then [backslashChar, 'b']
  else if c.toNat = 0x0c then [backslashChar, 'f']
  else if c.toNat = 0x0a then [backslashChar, 'n']
  else if c.toNat = 0x0d then [backslashChar, 'r']
  else if c.toNat = 0x09 then [backslashChar, 't']
  else if 0x20 ≤ c.toNat ∧ c.toNat ≤ 0x7e then [c]
  else (utf16Units c).flatMap (unicodeEscape '0')

def pythonJsonDumpsStr (s : List Char) : List Char :=
  quoteChar :: s.flatMap pythonEscapeChar ++ [quoteChar]

def divergesFromPython (c : Char) : Bool :=
  c.toNat == 0x7f || (0x80 ≤ c.toNat && c.toNat < 0x1000)

section Lists
variable {α β : Type}

theorem flatMap_eq_flatMap_iff {f g : α → List β} [DecidableEq β] :
    ∀ {l : List α}, (∀ a ∈ l, f a = g a ∨
        ∃ (k : ℕ) (x y : β), (f a)[k]? = some x ∧ (g a)[k]? = some y ∧ x ≠ y) →
      (l.flatMap f = l.flatMap g ↔ ∀ a ∈ l, f a = g a)
  | [], _ => by simp
  | a :: l, h => by
    simp only [List.flatMap_cons, List.forall_mem_cons]
    have ih := flatMap_eq_flatMap_iff (fun b hb => h b (List.mem_cons_of_mem a hb))
    rcases h a List.mem_cons_self with heq | ⟨k, x, y, hx, hy, hxy⟩
    · rw [heq, List.append_cancel_left_eq, ih]
      simp
    · have hne : f a ++ l.flatMap f ≠ g a ++ l.flatMap g := by
        intro happ
        obtain ⟨hkf, -⟩ := List.getElem?_eq_some_iff.mp hx
        obtain ⟨hkg, -⟩ := List.getElem?_eq_some_iff.mp hy
        have hk := congrArg (·[k]?) happ
        rw [List.getElem?_append_left hkf, List.getElem?_append_left hkg, hx, hy] at hk
        exact hxy (Option.some.inj hk)
      simp only [hne, false_iff, not_and]
      intro hfg
      rw [hfg, hy] at hx
      exact absurd (Option.some.inj hx).symm hxy

end Lists

theorem formatEscapedStrContents_eq (escape : Char → List Char) :
    ∀ (fragment s : List Char), formatEscapedStrContents escape fragment s =
      PythonDefaultFormatter.writeStringFragment fragment ++
        s.flatMap fun c => if serdeEscapes c then escape c
          else PythonDefaultFormatter.writeStringFragment [c]
  | fragment, [] => by simp [formatEscapedStrContents]
  | fragment, c :: rest => by
    by_cases hc : serdeEscapes c = true
    · simp [formatEscapedStrContents, hc, formatEscapedStrContents_eq escape [] rest,
        PythonDefaultFormatter.writeStringFragment]
    · simp [formatEscapedStrContents, hc, formatEscapedStrContents_eq escape (fragment ++ [c]) rest,
        PythonDefaultFormatter.writeStringFragment]

def serdeChar (escape : Char → List Char) (c : Char) : List Char :=
  if serdeEscapes c then escape c else PythonDefaultFormatter.writeStringFragment [c]

theorem hexPadded_space_eq_zero_iff (n : ℕ) :
    hexPadded ' ' 4 n = hexPadded '0' 4 n ↔ 0x1000 ≤ n := by
  have hlen : (Nat.toDigits 16 n).length ≤ 3 ↔ n < 16 ^ 3 :=
    Nat.length_toDigits_le_iff (by decide) (by decide)
  simp only [hexPadded, List.append_cancel_right_eq]
  constructor
  · intro h
    by_contra hn
    have hpos : 0 < 4 - (Nat.toDigits 16 n).length := by
      have := hlen.mpr (by omega)
      omega
    obtain ⟨k, hk⟩ : ∃ k, 4 - (Nat.toDigits 16 n).length = k + 1 := ⟨_, (Nat.succ_pred_eq_of_pos hpos).symm⟩
    rw [hk, List.replicate_succ, List.replicate_succ] at h
    exact absurd (List.cons.inj h).1 (by decide)
  · intro hn
    have : ¬(Nat.toDigits 16 n).length ≤ 3 := fun h => by have := hlen.mp h; omega
    rw [show 4 - (Nat.toDigits 16 n).length = 0 by omega]
    rfl

theorem unicodeEscape_getElem_two {n : ℕ} (fill : Char) (h : n < 0x1000) :
    (unicodeEscape fill n)[2]? = some fill := by
  have hlen : (Nat.toDigits 16 n).length ≤ 3 := (Nat.length_toDigits_le_iff (by decide)
    (by decide)).mpr (by omega)
  obtain ⟨k, hk⟩ : ∃ k, 4 - (Nat.toDigits 16 n).length = k + 1 :=
    ⟨4 - (Nat.toDigits 16 n).length - 1, by omega⟩
  simp [unicodeEscape, hexPadded, hk, List.replicate_succ]

theorem le_of_mem_utf16Units {c : Char} (h : 0x1000 ≤ c.toNat) :
    ∀ u ∈ utf16Units c, 0x1000 ≤ u := by
  unfold utf16Units
  split_ifs <;> simp <;> omega

theorem quoteChar_toNat : quoteChar.toNat = 0x22 := rfl

theorem backslashChar_toNat : backslashChar.toNat = 0x5c := rfl

theorem toNat_of_serdeEscapes_eq_false {c : Char} (h : serdeEscapes c = false) :
    0x20 ≤ c.toNat ∧ c.toNat ≠ 0x22 ∧ c.toNat ≠ 0x5c := by
  simp only [serdeEscapes, Bool.or_eq_false_iff, decide_eq_false_iff_not, Nat.not_lt,
    beq_eq_false_iff_ne] at h
  obtain ⟨⟨hlt, hq⟩, hb⟩ := h
  refine ⟨hlt, fun hc => hq ?_, fun hc => hb ?_⟩
  · exact Char.toNat_inj.mp (hc.trans quoteChar_toNat.symm)
  · exact Char.toNat_inj.mp (hc.trans backslashChar_toNat.symm)

theorem pythonEscapeChar_of_le {c : Char} (hlo : 0x20 ≤ c.toNat) (hq : c.toNat ≠ 0x22)
    (hb : c.toNat ≠ 0x5c) :
    pythonEscapeChar c =
      if c.toNat ≤ 0x7e then [c] else (utf16Units c).flatMap (unicodeEscape '0') := by
  have hq' : c ≠ quoteChar := fun h => hq (by rw [h]; rfl)
  have hb' : c ≠ backslashChar := fun h => hb (by rw [h]; rfl)
  simp only [pythonEscapeChar, hq', hb', if_false]
  rw [if_neg (by omega), if_neg (by omega), if_neg (by omega), if_neg (by omega),
    if_neg (by omega)]
  by_cases h7e : c.toNat ≤ 0x7e
  · rw [if_pos ⟨hlo, h7e⟩, if_pos h7e]
  · rw [if_neg (by omega), if_neg h7e]

theorem serdeChar_of_serdeEscapes_eq_false (escape : Char → List Char) {c : Char}
    (h : serdeEscapes c = false) :
    serdeChar escape c =
      if c.toNat < 0x80 then [c] else (utf16Units c).flatMap (unicodeEscape ' ') := by
  simp [serdeChar, h, PythonDefaultFormatter.writeStringFragment]

theorem serdeChar_conflict (escape : Char → List Char) {c : Char}
    (hc : divergesFromPython c = true) :
    ∃ (k : ℕ) (x y : Char), (serdeChar escape c)[k]? = some x ∧
      (pythonEscapeChar c)[k]? = some y ∧ x ≠ y := by
  simp only [divergesFromPython, Bool.or_eq_true, beq_iff_eq, Bool.and_eq_true,
    decide_eq_true_eq] at hc
  have hs : serdeEscapes c = false := by
    simp only [serdeEscapes, Bool.or_eq_false_iff, decide_eq_false_iff_not, beq_eq_false_iff_ne]
    refine ⟨⟨by omega, fun h => ?_⟩, fun h => ?_⟩
    · have := congrArg Char.toNat h; rw [quoteChar_toNat] at this; omega
    · have := congrArg Char.toNat h; rw [backslashChar_toNat] at this; omega
  have hunits : utf16Units c = [c.toNat] := by
    simp only [utf16Units]; rw [if_pos (by omega)]
  rw [serdeChar_of_serdeEscapes_eq_false escape hs,
    pythonEscapeChar_of_le (by omega) (by omega) (by omega),
    if_neg (show ¬c.toNat ≤ 0x7e by omega), hunits, List.flatMap_singleton]
  rcases hc with hdel | ⟨hlo, hhi⟩
  · rw [if_pos (show c.toNat < 0x80 by omega)]
    refine ⟨0, c, backslashChar, rfl, rfl, fun h => ?_⟩
    have := congrArg Char.toNat h
    rw [backslashChar_toNat] at this
    omega
  · rw [if_neg (show ¬c.toNat < 0x80 by omega), List.flatMap_singleton]
    exact ⟨2, ' ', '0', unicodeEscape_getElem_two ' ' hhi, unicodeEscape_getElem_two '0' hhi,
      by decide⟩

theorem serdeChar_eq_of_diverges_eq_false {escape : Char → List Char}
    (hescape : ∀ c, serdeEscapes c = true → escape c = pythonEscapeChar c) {c : Char}
    (hc : divergesFromPython c = false) : serdeChar escape c = pythonEscapeChar c := by
  cases hs : serdeEscapes c
  · obtain ⟨hlo, hq, hb⟩ := toNat_of_serdeEscapes_eq_false hs
    simp only [divergesFromPython, Bool.or_eq_false_iff, beq_eq_false_iff_ne, Bool.and_eq_false_iff,
      decide_eq_false_iff_not, Nat.not_le, Nat.not_lt] at hc
    rw [serdeChar_of_serdeEscapes_eq_false escape hs, pythonEscapeChar_of_le hlo hq hb]
    by_cases hascii : c.toNat < 0x80
    · rw [if_pos hascii, if_pos (by omega)]
    · rw [if_neg hascii, if_neg (by omega)]
      refine List.flatMap_congr fun u hu => ?_
      have hu' := le_of_mem_utf16Units (by omega) u hu
      simp only [unicodeEscape, (hexPadded_space_eq_zero_iff u).mpr hu']
  · simp [serdeChar, hs, hescape c hs]

/-- The formatter writes a string as Python's `json.dumps` does exactly when the string has no
DEL and no character from `U+0080` to `U+0FFF`: `{i:4x}` pads those with spaces where Python
writes zeros, and DEL is ASCII to the formatter but escaped by Python. -/
theorem serializeStr_eq_pythonJsonDumpsStr_iff {escape : Char → List Char}
    (hescape : ∀ c, serdeEscapes c = true → escape c = pythonEscapeChar c) (s : List Char) :
    serializeStr escape s = pythonJsonDumpsStr s ↔ ∀ c ∈ s, divergesFromPython c = false := by
  have hcontents : formatEscapedStrContents escape [] s = s.flatMap (serdeChar escape) := by
    rw [formatEscapedStrContents_eq]
    rfl
  rw [serializeStr, pythonJsonDumpsStr, hcontents]
  simp only [List.cons.injEq, List.append_cancel_right_eq, true_and]
  rw [flatMap_eq_flatMap_iff fun c _ => ?_]
  · refine forall₂_congr fun c _ => ⟨fun h => ?_, serdeChar_eq_of_diverges_eq_false hescape⟩
    cases hd : divergesFromPython c
    · rfl
    · obtain ⟨k, x, y, hx, hy, hxy⟩ := serdeChar_conflict escape hd
      rw [h, hy] at hx
      exact absurd (Option.some.inj hx).symm hxy
  · cases hd : divergesFromPython c
    · exact .inl (serdeChar_eq_of_diverges_eq_false hescape hd)
    · exact .inr (serdeChar_conflict escape hd)

/- `é` (U+00E9): the formatter writes `"\u  e9"`, Python `"\u00e9"`; DEL stays raw. -/
example : serializeStr pythonEscapeChar [Char.ofNat 0xe9] =
    [quoteChar, backslashChar, 'u', ' ', ' ', 'e', '9', quoteChar] := by decide

example : pythonJsonDumpsStr [Char.ofNat 0xe9] =
    [quoteChar, backslashChar, 'u', '0', '0', 'e', '9', quoteChar] := by decide

example : serializeStr pythonEscapeChar [Char.ofNat 0x7f] = [quoteChar, Char.ofNat 0x7f, quoteChar] := by
  decide

theorem serializeStr_ne_pythonJsonDumpsStr_e_acute :
    serializeStr pythonEscapeChar [Char.ofNat 0xe9] ≠ pythonJsonDumpsStr [Char.ofNat 0xe9] :=
  fun h => absurd ((serializeStr_eq_pythonJsonDumpsStr_iff (fun _ _ => rfl) _).mp h
    (Char.ofNat 0xe9) List.mem_cons_self) (by decide)

end ClassHash
end Pathfinder
