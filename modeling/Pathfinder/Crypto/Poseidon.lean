import Pathfinder.Crypto.Field
import Pathfinder.Hades.Compress
import Mathlib.LinearAlgebra.Matrix.Notation
import Mathlib.Data.Matrix.Mul
import Mathlib.Algebra.BigOperators.Fin
import Mathlib.Tactic.Ring
import Mathlib.Tactic.FinCases
import Mathlib.Tactic.IntervalCases

/-! The Poseidon sponge over three field elements (`hash/poseidon/hash.rs`): the one-shot
`poseidon_hash_many` and the streaming `PoseidonHasher`. Both add messages to the rate, two at
a time, and permute; the permutation is a parameter, as the same `permute` serves both. The
field is any type with `+`, `0` and `1`; `MontFelt` is one, with its own addition. -/

namespace Pathfinder
namespace Crypto

/-- `MontFelt`'s `AddAssign`, `MontFelt::ZERO` and `MontFelt::ONE`. -/
instance : Add MontFelt := ⟨MontFelt.add⟩
instance : Zero MontFelt := ⟨MontFelt.ZERO⟩
instance : One MontFelt := ⟨MontFelt.ONE⟩
instance : Sub MontFelt := ⟨MontFelt.sub⟩
instance : Mul MontFelt := ⟨MontFelt.mul⟩
instance : Inhabited MontFelt := ⟨MontFelt.ZERO⟩

section Sponge
variable {F : Type} [Add F] (permute : Vector F 3 → Vector F 3)

/-- `state[0] += a; state[1] += b;`, the rate absorbing two elements. -/
def addRate (state : Vector F 3) (a b : F) : Vector F 3 :=
  let state := state.set 0 (state[0] + a)
  state.set 1 (state[1] + b)

def absorbPairs : Vector F 3 → List F → Vector F 3 × List F
  | state, m0 :: m1 :: rest => absorbPairs (permute (addRate state m0 m1)) rest
  | state, r => (state, r)

theorem length_absorbPairs_lt : ∀ (state : Vector F 3) (msgs : List F),
    (absorbPairs permute state msgs).2.length < 2
  | _, _ :: _ :: rest => length_absorbPairs_lt _ rest
  | _, [] => by simp [absorbPairs]
  | _, [_] => by simp [absorbPairs]

/-- `PoseidonHasher`: the sponge state, and a message waiting for the next one. -/
structure PoseidonHasher (F : Type) where
  state : Vector F 3
  buffer : Option F

/-- `PoseidonHasher::write`. -/
def PoseidonHasher.write (h : PoseidonHasher F) (msg : F) : PoseidonHasher F :=
  match h.buffer with
  | some previousMessage => ⟨permute (addRate h.state previousMessage msg), none⟩
  | none => { h with buffer := some msg }

theorem PoseidonHasher.write_write (state : Vector F 3) (a b : F) :
    ((⟨state, none⟩ : PoseidonHasher F).write permute a).write permute b =
      ⟨permute (addRate state a b), none⟩ := rfl

variable [One F]

def squeezeRemainder (state : Vector F 3) (r : List F) (hr : r.length < 2) : F :=
  let state := if h : r.length = 1 then state.set 0 (state[0] + r.get ⟨0, by omega⟩) else state
  let state := state.set r.length (state.get ⟨r.length, by omega⟩ + 1) (by omega)
  (permute state)[0]

/-- `PoseidonHasher::finish`. -/
def PoseidonHasher.finish (h : PoseidonHasher F) : F :=
  let state :=
    match h.buffer with
    | some lastMessage => addRate h.state lastMessage 1
    | none => h.state.set 0 (h.state[0] + 1)
  (permute state)[0]

theorem PoseidonHasher.finish_foldl_write (state : Vector F 3) (msgs : List F) :
    (msgs.foldl (PoseidonHasher.write permute) ⟨state, none⟩).finish permute =
      squeezeRemainder permute (absorbPairs permute state msgs).1
        (absorbPairs permute state msgs).2 (length_absorbPairs_lt permute state msgs) := by
  induction state, msgs using absorbPairs.induct permute with
  | case1 state m0 m1 rest ih =>
    rw [List.foldl_cons, List.foldl_cons, PoseidonHasher.write_write, ih]
    rfl
  | case2 state r hr =>
    match r, hr with
    | [], _ => rfl
    | [m], _ => rfl
    | _ :: _ :: _, hr => exact absurd rfl (hr _ _ _)

variable [Zero F]

/-- `poseidon_hash_many`. -/
def poseidonHashMany (msgs : List F) : F :=
  let absorbed := absorbPairs permute #v[0, 0, 0] msgs
  squeezeRemainder permute absorbed.1 absorbed.2 (length_absorbPairs_lt permute _ msgs)

/-- `PoseidonHasher::new`. -/
def PoseidonHasher.new : PoseidonHasher F := ⟨#v[0, 0, 0], none⟩

/-- The streaming hasher agrees with the one-shot sponge: writing `m1, …, mn` into
`PoseidonHasher::new()` and finishing gives `poseidon_hash_many(&[m1, …, mn])`, for every `n`. -/
theorem poseidonHasher_finish_eq_poseidonHashMany (msgs : List F) :
    (msgs.foldl (PoseidonHasher.write permute) PoseidonHasher.new).finish permute =
      poseidonHashMany permute msgs :=
  PoseidonHasher.finish_foldl_write permute _ msgs

end Sponge

/-!
## The Poseidon permutation and its compressed round keys

`hash/poseidon/permutation.rs` runs the Hades permutation on three words: four full rounds,
83 partial rounds and four full rounds, reading three keys of `POSEIDON_COMP_CONSTS` for a full
round and one for a partial round. The generator `consts_poseidon.rs` makes that table with
`compress_roundkeys` from the specification's 91 key triples: a partial round keeps only the key
of the word it cubes, and the keys of the other two words are moved through the mix into the
next round, up to the first of the last full rounds.

The rounds are written twice. Over any commutative ring `F`, as in `Crypto.Curve`, `.double()`
is `2 * _`, `.square()` is `_ ^ 2`, and `MontFelt::ZERO`, `TWO` and `THREE` are `0`, `2` and `3`;
there the compressed table is shown to give the reference permutation. In `Mont` they run on
`MontFelt` with the code's own `+`, `-`, `*`, `double` and `square`; on reduced words they compute
the rounds over `ZMod p` (`permute_rep`). The table is the parameter `comp` of `permute`, read at
`idx` as the code indexes it; a panic of the generator's slicing and indexing is `none`.
-/

namespace Poseidon

variable {F : Type}

def FULL_ROUNDS : ℕ := 8

def PARTIAL_ROUNDS : ℕ := 83

/-! ## The permutation -/

section Permutation
variable [CommRing F]

/-- `mix`: the matrix `M = ((3,1,1),(1,-1,1),(1,1,-2))` through `t = a + b + c`. -/
def mix (state : Vector F 3) : Vector F 3 :=
  let t := state[0] + state[1] + state[2]
  let state := state.set 0 (t + 2 * state[0])
  let state := state.set 1 (t - 2 * state[1])
  state.set 2 (t - (2 * state[2] + state[2]))

/-- `full_round`: the three keys at `idx`, every word cubed, `mix`. -/
def fullRound [Inhabited F] (comp : List F) (state : Vector F 3) (idx : ℕ) : Vector F 3 :=
  let state := state.set 0 (state[0] + comp[idx]!)
  let state := state.set 1 (state[1] + comp[idx + 1]!)
  let state := state.set 2 (state[2] + comp[idx + 2]!)
  let state := state.set 0 (state[0] ^ 2 * state[0])
  let state := state.set 1 (state[1] ^ 2 * state[1])
  let state := state.set 2 (state[2] ^ 2 * state[2])
  mix state

/-- `partial_round`: the key at `idx` on the last word, only that word cubed, `mix`. -/
def partialRound [Inhabited F] (comp : List F) (state : Vector F 3) (idx : ℕ) : Vector F 3 :=
  let state := state.set 2 (state[2] + comp[idx]!)
  let state := state.set 2 (state[2] ^ 2 * state[2])
  mix state

end Permutation

/-- `for _ in 0..n { round(state, idx); idx += step; }`, the state and the index threaded. -/
def roundLoop (round : Vector F 3 → ℕ → Vector F 3) (step : ℕ) :
    ℕ → Vector F 3 × ℕ → Vector F 3 × ℕ
  | 0, acc => acc
  | n + 1, (state, idx) => roundLoop round step n (round state idx, idx + step)

/-- `permute`, with `POSEIDON_COMP_CONSTS` as `comp`. -/
def permute [CommRing F] [Inhabited F] (comp : List F) (state : Vector F 3) : Vector F 3 :=
  let (state, idx) := roundLoop (fullRound comp) 3 (FULL_ROUNDS / 2) (state, 0)
  let (state, idx) := roundLoop (partialRound comp) 1 PARTIAL_ROUNDS (state, idx)
  (roundLoop (fullRound comp) 3 (FULL_ROUNDS / 2) (state, idx)).1

theorem permute_eq [CommRing F] [Inhabited F] (comp : List F) (state : Vector F 3) :
    permute comp state =
      let r1 := roundLoop (fullRound comp) 3 4 (state, 0)
      let r2 := roundLoop (partialRound comp) 1 83 (r1.1, r1.2)
      (roundLoop (fullRound comp) 3 4 (r2.1, r2.2)).1 := rfl

/-! ## The code's rounds, on `MontFelt` -/

namespace Mont

/-- `mix`. -/
def mix (state : Vector MontFelt 3) : Vector MontFelt 3 :=
  let t := state[0] + state[1] + state[2]
  let state := state.set 0 (t + state[0].double)
  let state := state.set 1 (t - state[1].double)
  state.set 2 (t - (state[2].double + state[2]))

/-- `full_round`. -/
def fullRound (comp : List MontFelt) (state : Vector MontFelt 3) (idx : ℕ) : Vector MontFelt 3 :=
  let state := state.set 0 (state[0] + comp[idx]!)
  let state := state.set 1 (state[1] + comp[idx + 1]!)
  let state := state.set 2 (state[2] + comp[idx + 2]!)
  let state := state.set 0 (state[0].square * state[0])
  let state := state.set 1 (state[1].square * state[1])
  let state := state.set 2 (state[2].square * state[2])
  mix state

/-- `partial_round`. -/
def partialRound (comp : List MontFelt) (state : Vector MontFelt 3) (idx : ℕ) : Vector MontFelt 3 :=
  let state := state.set 2 (state[2] + comp[idx]!)
  let state := state.set 2 (state[2].square * state[2])
  mix state

/-- `permute`, with `POSEIDON_COMP_CONSTS` as `comp`. -/
def permute (comp : List MontFelt) (state : Vector MontFelt 3) : Vector MontFelt 3 :=
  let (state, idx) := roundLoop (fullRound comp) 3 (FULL_ROUNDS / 2) (state, 0)
  let (state, idx) := roundLoop (partialRound comp) 1 PARTIAL_ROUNDS (state, idx)
  (roundLoop (fullRound comp) 3 (FULL_ROUNDS / 2) (state, idx)).1

theorem permute_eq (comp : List MontFelt) (state : Vector MontFelt 3) :
    permute comp state =
      let r1 := roundLoop (fullRound comp) 3 4 (state, 0)
      let r2 := roundLoop (partialRound comp) 1 83 (r1.1, r1.2)
      (roundLoop (fullRound comp) 3 4 (r2.1, r2.2)).1 := rfl

end Mont

/-! ## The generator of the table -/

/-- `flatten_roundkeys`. -/
def flattenRoundkeys (rcs : List (Vector F 3)) : List F := rcs.flatMap Vector.toList

section Generator
variable [CommRing F]

/-- `state[i] += rcs[idx][i]` for the three words. -/
def addRoundKey (state rc : Vector F 3) : Vector F 3 :=
  let state := state.set 0 (state[0] + rc[0])
  let state := state.set 1 (state[1] + rc[1])
  state.set 2 (state[2] + rc[2])

def mixConsts (state : Vector F 3) : Vector F 3 :=
  let t := state[0] + state[1] + state[2]
  let state := state.set 0 (t + 2 * state[0])
  let state := state.set 1 (t - 2 * state[1])
  state.set 2 (t - 3 * state[2])

def compressPartialLoop (rcs : List (Vector F 3)) :
    ℕ → List F × Vector F 3 × ℕ → Option (List F × Vector F 3 × ℕ)
  | 0, acc => some acc
  | n + 1, (result, state, idx) => do
    let state := addRoundKey state (← rcs[idx]?)
    compressPartialLoop rcs n (result ++ [state[2]], mixConsts (state.set 2 0), idx + 1)

/-- `compress_roundkeys_partial`. -/
def compressRoundkeysPartial (rcs : List (Vector F 3)) : Option (List F) := do
  let (result, state, idx) ←
    compressPartialLoop rcs PARTIAL_ROUNDS ([], #v[0, 0, 0], FULL_ROUNDS / 2)
  let state := addRoundKey state (← rcs[idx]?)
  pure (result ++ [state[0], state[1], state[2]])

end Generator

/-- `&xs[..n]`, which panics past the end. -/
def sliceTo {α : Type} (xs : List α) (n : ℕ) : Option (List α) :=
  if n ≤ xs.length then some (xs.take n) else none

/-- `&xs[n..]`, which panics past the end. -/
def sliceFrom {α : Type} (xs : List α) (n : ℕ) : Option (List α) :=
  if n ≤ xs.length then some (xs.drop n) else none

/-- `compress_roundkeys`. -/
def compressRoundkeys [CommRing F] (rcs : List (Vector F 3)) : Option (List F) := do
  let result := flattenRoundkeys (← sliceTo rcs (FULL_ROUNDS / 2))
  let result := result ++ (← compressRoundkeysPartial rcs)
  pure (result ++ flattenRoundkeys (← sliceFrom rcs (FULL_ROUNDS / 2 + PARTIAL_ROUNDS + 1)))

/-! ## The reference permutation -/

section Reference
variable [CommRing F]

def MDS : Matrix (Fin 3) (Fin 3) F := (!![3, 1, 1; 1, -1, 1; 1, 1, -2] : Matrix (Fin 3) (Fin 3) ℤ).map (↑)

def hadesRound (full : Bool) (rc state : Vector F 3) : Vector F 3 :=
  let added := Vector.ofFn fun i => state[i] + rc[i]
  let subbed := Vector.ofFn fun i => if full || i = 2 then added[i] ^ 3 else added[i]
  Vector.ofFn fun j => ∑ i, MDS j i * subbed[i]

def hadesPermute (rcs : List (Vector F 3)) (state : Vector F 3) : Vector F 3 :=
  let state := (rcs.take (FULL_ROUNDS / 2)).foldl (fun s rc => hadesRound true rc s) state
  let state := ((rcs.drop (FULL_ROUNDS / 2)).take PARTIAL_ROUNDS).foldl
    (fun s rc => hadesRound false rc s) state
  (rcs.drop (FULL_ROUNDS / 2 + PARTIAL_ROUNDS)).foldl (fun s rc => hadesRound true rc s) state

end Reference

/-! ## The rounds as rounds of `Hades` -/

def words (v : Vector F 3) : Fin 3 → F := fun i => v[i]

@[simp] theorem words_apply (v : Vector F 3) (i : Fin 3) : words v i = v[i] := rfl

theorem words_injective : Function.Injective (words (F := F)) := fun _ _ h =>
  Vector.ext fun i hi => congrFun h ⟨i, hi⟩

section Layers
variable [CommRing F]

def onLast (k : F) : Fin 3 → F := Pi.single 2 k

def mdsMix : (Fin 3 → F) →+ (Fin 3 → F) where
  toFun := MDS.mulVec
  map_zero' := Matrix.mulVec_zero MDS
  map_add' := Matrix.mulVec_add MDS

def keepLast : (Fin 3 → F) →+ (Fin 3 → F) where
  toFun d := onLast (d 2)
  map_zero' := by simp [onLast]
  map_add' a b := by simp [onLast, Pi.single_add]

theorem keepLast_apply (d : Fin 3 → F) : keepLast d = onLast (d 2) := rfl

def cubeAll (s : Fin 3 → F) : Fin 3 → F := fun i => s i ^ 3

def cubeLast (s : Fin 3 → F) : Fin 3 → F := Function.update s 2 (s 2 ^ 3)

theorem passes_cubeLast : Hades.Passes (cubeLast (F := F)) keepLast := by
  intro s d
  funext i
  fin_cases i <;> simp [cubeLast, keepLast_apply, onLast]

theorem mdsMix_apply (s : Fin 3 → F) :
    mdsMix s = ![3 * s 0 + s 1 + s 2, s 0 - s 1 + s 2, s 0 + s 1 - 2 * s 2] := by
  funext j
  fin_cases j <;> simp [mdsMix, MDS, Matrix.mulVec, dotProduct, Fin.sum_univ_three] <;> ring

theorem words_mix (state : Vector F 3) : words (mix state) = mdsMix (words state) := by
  rw [mdsMix_apply]
  funext j
  fin_cases j <;> simp [mix] <;> ring

theorem words_mixConsts (state : Vector F 3) : words (mixConsts state) = mdsMix (words state) := by
  rw [mdsMix_apply]
  funext j
  fin_cases j <;> simp [mixConsts] <;> ring

theorem words_addRoundKey (state rc : Vector F 3) :
    words (addRoundKey state rc) = words state + words rc := by
  funext j
  fin_cases j <;> simp [addRoundKey]

theorem words_set_two_zero (state : Vector F 3) :
    words (state.set 2 0) = words state - keepLast (words state) := by
  funext j
  fin_cases j <;> simp [keepLast_apply, onLast]

theorem words_zero : words (#v[0, 0, 0] : Vector F 3) = 0 := by
  funext j
  fin_cases j <;> rfl

theorem words_hadesRound_true (rc state : Vector F 3) :
    words (hadesRound true rc state) = Hades.round cubeAll mdsMix (words rc) (words state) := by
  funext j
  simp [hadesRound, Hades.round, mdsMix, Matrix.mulVec, dotProduct, cubeAll]

theorem words_hadesRound_false (rc state : Vector F 3) :
    words (hadesRound false rc state) = Hades.round cubeLast mdsMix (words rc) (words state) := by
  funext j
  simp only [hadesRound, Hades.round, mdsMix, AddMonoidHom.coe_mk, ZeroHom.coe_mk, Matrix.mulVec,
    dotProduct, words_apply, Fin.getElem_fin, Vector.getElem_ofFn]
  apply Finset.sum_congr rfl
  intro i _
  fin_cases i <;> simp [cubeLast]

theorem words_foldl_hadesRound (full : Bool) (sbox : (Fin 3 → F) → Fin 3 → F)
    (hround : ∀ rc state, words (hadesRound full rc state) =
      Hades.round sbox mdsMix (words rc) (words state)) :
    ∀ (rcs : List (Vector F 3)) (state : Vector F 3),
      words (rcs.foldl (fun s rc => hadesRound full rc s) state) =
        Hades.rounds sbox mdsMix (rcs.map words) (words state)
  | [], _ => rfl
  | rc :: rcs, state => by
    rw [List.foldl_cons, words_foldl_hadesRound full sbox hround rcs, hround]
    rfl

section Table
variable [Inhabited F]

def tripleAt (comp : List F) (idx : ℕ) : Fin 3 → F := ![comp[idx]!, comp[idx + 1]!, comp[idx + 2]!]

theorem words_fullRound (comp : List F) (state : Vector F 3) (idx : ℕ) :
    words (fullRound comp state idx) = Hades.round cubeAll mdsMix (tripleAt comp idx) (words state) := by
  rw [fullRound, words_mix, Hades.round]
  congr 1
  funext j
  fin_cases j <;> simp [cubeAll, tripleAt] <;> ring

theorem words_partialRound (comp : List F) (state : Vector F 3) (idx : ℕ) :
    words (partialRound comp state idx) =
      Hades.round cubeLast mdsMix (onLast comp[idx]!) (words state) := by
  rw [partialRound, words_mix, Hades.round]
  congr 1
  funext j
  fin_cases j <;> simp [cubeLast, onLast]
  ring

end Table

end Layers

/-! ## The loops read the table in order -/

theorem getElem?_of_drop_eq_cons {α : Type} {l rest : List α} {i : ℕ} {a : α}
    (h : l.drop i = a :: rest) : l[i]? = some a := by
  rw [← Nat.add_zero i, ← List.getElem?_drop, h]
  rfl

theorem drop_succ_of_drop_eq_cons {α : Type} {l rest : List α} {i : ℕ} {a : α}
    (h : l.drop i = a :: rest) : l.drop (i + 1) = rest := by
  rw [← List.drop_drop, h]
  rfl

theorem getElem!_of_drop_eq_cons {α : Type} [Inhabited α] {l rest : List α} {i : ℕ} {a : α}
    (h : l.drop i = a :: rest) : l[i]! = a := by
  rw [List.getElem!_eq_getElem?_getD, getElem?_of_drop_eq_cons h]
  rfl

theorem toList_eq_three (v : Vector F 3) : v.toList = [v[0], v[1], v[2]] := by
  apply List.ext_getElem (by simp)
  intro i h1 h2
  simp only [Vector.length_toList] at h1
  interval_cases i <;> simp

theorem flattenRoundkeys_cons (rc : Vector F 3) (rcs : List (Vector F 3)) :
    flattenRoundkeys (rc :: rcs) = rc[0] :: rc[1] :: rc[2] :: flattenRoundkeys rcs := by
  rw [flattenRoundkeys, List.flatMap_cons, toList_eq_three]
  rfl

@[simp] theorem length_flattenRoundkeys (rcs : List (Vector F 3)) :
    (flattenRoundkeys rcs).length = 3 * rcs.length := by
  induction rcs with
  | nil => rfl
  | cons rc rcs ih =>
    rw [flattenRoundkeys_cons, List.length_cons, List.length_cons, List.length_cons, ih,
      List.length_cons]
    ring

theorem roundLoop_snd (round : Vector F 3 → ℕ → Vector F 3) (step : ℕ) :
    ∀ (n : ℕ) (state : Vector F 3) (idx : ℕ),
      (roundLoop round step n (state, idx)).2 = idx + step * n
  | 0, _, _ => rfl
  | n + 1, state, idx => by
    rw [roundLoop, roundLoop_snd round step n]
    ring

theorem roundLoop_rel {G : Type} (R : Vector F 3 → Vector G 3 → Prop)
    {round : Vector F 3 → ℕ → Vector F 3} {round' : Vector G 3 → ℕ → Vector G 3}
    (hround : ∀ v w idx, R v w → R (round v idx) (round' w idx)) (step : ℕ) :
    ∀ (n : ℕ) (v : Vector F 3) (w : Vector G 3) (idx : ℕ), R v w →
      R (roundLoop round step n (v, idx)).1 (roundLoop round' step n (w, idx)).1
  | 0, _, _, _, h => h
  | n + 1, v, w, idx, h => roundLoop_rel R hround step n _ _ (idx + step) (hround v w idx h)

section Loops
variable [CommRing F] [Inhabited F]

theorem words_roundLoop_fullRound (comp : List F) :
    ∀ (keys : List (Vector F 3)) (rest : List F) (state : Vector F 3) (idx : ℕ),
      comp.drop idx = flattenRoundkeys keys ++ rest →
      words (roundLoop (fullRound comp) 3 keys.length (state, idx)).1 =
        Hades.rounds cubeAll mdsMix (keys.map words) (words state)
  | [], _, _, _, _ => rfl
  | rc :: keys, rest, state, idx, h => by
    rw [flattenRoundkeys_cons] at h
    have h1 := drop_succ_of_drop_eq_cons h
    have h2 := drop_succ_of_drop_eq_cons h1
    have h3 := drop_succ_of_drop_eq_cons h2
    have htriple : tripleAt comp idx = words rc := by
      funext j
      fin_cases j
      · exact getElem!_of_drop_eq_cons h
      · exact getElem!_of_drop_eq_cons h1
      · exact getElem!_of_drop_eq_cons h2
    rw [List.length_cons, roundLoop, words_roundLoop_fullRound comp keys rest _ (idx + 3) h3,
      words_fullRound, htriple]
    rfl

theorem words_roundLoop_partialRound (comp : List F) :
    ∀ (keys rest : List F) (state : Vector F 3) (idx : ℕ), comp.drop idx = keys ++ rest →
      words (roundLoop (partialRound comp) 1 keys.length (state, idx)).1 =
        Hades.rounds cubeLast mdsMix (keys.map onLast) (words state)
  | [], _, _, _, _ => rfl
  | k :: keys, rest, state, idx, h => by
    have h1 := drop_succ_of_drop_eq_cons h
    rw [List.length_cons, roundLoop, words_roundLoop_partialRound comp keys rest _ (idx + 1) h1,
      words_partialRound, getElem!_of_drop_eq_cons h]
    rfl

end Loops

section Compress
variable [CommRing F]

theorem compressPartialLoop_spec (rcs : List (Vector F 3)) :
    ∀ (keys rest : List (Vector F 3)) (result : List F) (state : Vector F 3) (idx : ℕ),
      rcs.drop idx = keys ++ rest →
      ∃ pushed state', compressPartialLoop rcs keys.length (result, state, idx) =
          some (result ++ pushed, state', idx + keys.length) ∧
        (Hades.compress mdsMix keepLast (words state) (keys.map words)).1 = pushed.map onLast ∧
        words state' = (Hades.compress mdsMix keepLast (words state) (keys.map words)).2
  | [], _, result, state, idx, _ => ⟨[], state, by simp [compressPartialLoop], rfl, rfl⟩
  | rc :: keys, rest, result, state, idx, h => by
    have hget := getElem?_of_drop_eq_cons h
    obtain ⟨pushed, state', hloop, hkeys, hstate⟩ :=
      compressPartialLoop_spec rcs keys rest (result ++ [(addRoundKey state rc)[2]])
        (mixConsts ((addRoundKey state rc).set 2 0)) (idx + 1) (drop_succ_of_drop_eq_cons h)
    have hcarry : words (mixConsts ((addRoundKey state rc).set 2 0)) =
        mdsMix (words state + words rc - keepLast (words state + words rc)) := by
      rw [words_mixConsts, words_set_two_zero, words_addRoundKey]
    have hkept : keepLast (words state + words rc) = onLast (addRoundKey state rc)[2] := by
      rw [← words_addRoundKey, keepLast_apply, words_apply]
      rfl
    refine ⟨(addRoundKey state rc)[2] :: pushed, state', ?_, ?_, ?_⟩
    · simp only [List.length_cons, compressPartialLoop, hget, Option.bind_eq_bind,
        Option.bind_some, hloop, List.append_assoc, List.singleton_append]
      rw [Nat.add_assoc, Nat.add_comm 1]
    · simp only [List.map_cons, Hades.compress]
      rw [← hcarry, hkeys, hkept]
    · simp only [List.map_cons, Hades.compress]
      rw [← hcarry, hstate]

end Compress

/-! ## The code's arithmetic computes the rounds over `ZMod p` -/

def Rep (a : MontFelt) (y : ZMod MontFelt.p) : Prop := a.val < MontFelt.p ∧ a.dec = y

def RepState (v : Vector MontFelt 3) (w : Vector (ZMod MontFelt.p) 3) : Prop :=
  ∀ i : Fin 3, Rep v[i] w[i]

namespace Rep
variable {a x : MontFelt} {y z : ZMod MontFelt.p}

theorem ZERO : Rep MontFelt.ZERO 0 := ⟨by decide, MontFelt.dec_ZERO⟩

theorem add : Rep a y → Rep x z → Rep (a + x) (y + z)
  | ⟨ha, rfl⟩, ⟨hx, rfl⟩ => MontFelt.add_spec ha hx

theorem sub : Rep a y → Rep x z → Rep (a - x) (y - z)
  | ⟨ha, rfl⟩, ⟨hx, rfl⟩ => MontFelt.sub_spec ha hx

theorem mul : Rep a y → Rep x z → Rep (a * x) (y * z)
  | ⟨ha, rfl⟩, ⟨hx, rfl⟩ => MontFelt.mul_spec ha hx

theorem double : Rep a y → Rep a.double (2 * y)
  | ⟨ha, rfl⟩ => MontFelt.double_spec ha

theorem square : Rep a y → Rep a.square (y ^ 2)
  | ⟨ha, rfl⟩ => MontFelt.square_spec ha

theorem cube (h : Rep a y) : Rep (a.square * a) (y ^ 2 * y) := h.square.mul h

theorem getElem!_of_forall₂ :
    ∀ {l : List MontFelt} {l' : List (ZMod MontFelt.p)}, List.Forall₂ Rep l l' → ∀ i : ℕ,
      Rep l[i]! l'[i]!
  | _, _, .nil, _ => by
    rw [List.getElem!_nil, List.getElem!_nil]
    exact ZERO
  | _, _, .cons ha _, 0 => by
    rw [List.getElem!_cons_zero, List.getElem!_cons_zero]
    exact ha
  | _, _, .cons _ h, i + 1 => by
    rw [List.getElem!_cons_succ, List.getElem!_cons_succ]
    exact getElem!_of_forall₂ h i

end Rep

theorem RepState.set {v w} (h : RepState v w) {x y} (hx : Rep x y) (i : ℕ) (hi : i < 3) :
    RepState (v.set i x hi) (w.set i y hi) := by
  intro j
  simp only [Fin.getElem_fin, Vector.getElem_set]
  split
  · exact hx
  · exact h j

section Refinement
variable {compM : List MontFelt} {comp : List (ZMod MontFelt.p)} {v w}

theorem mix_rep (h : RepState v w) : RepState (Mont.mix v) (mix w) := by
  have ht := ((h 0).add (h 1)).add (h 2)
  have h0 := h.set (ht.add (h 0).double) 0 (by decide)
  have h1 := h0.set (ht.sub (h0 1).double) 1 (by decide)
  exact h1.set (ht.sub ((h1 2).double.add (h1 2))) 2 (by decide)

theorem fullRound_rep (hcomp : List.Forall₂ Rep compM comp) (h : RepState v w) (idx : ℕ) :
    RepState (Mont.fullRound compM v idx) (fullRound comp w idx) := by
  have h0 := h.set ((h 0).add (Rep.getElem!_of_forall₂ hcomp idx)) 0 (by decide)
  have h1 := h0.set ((h0 1).add (Rep.getElem!_of_forall₂ hcomp (idx + 1))) 1 (by decide)
  have h2 := h1.set ((h1 2).add (Rep.getElem!_of_forall₂ hcomp (idx + 2))) 2 (by decide)
  have h3 := h2.set (h2 0).cube 0 (by decide)
  have h4 := h3.set (h3 1).cube 1 (by decide)
  exact mix_rep (h4.set (h4 2).cube 2 (by decide))

theorem partialRound_rep (hcomp : List.Forall₂ Rep compM comp) (h : RepState v w) (idx : ℕ) :
    RepState (Mont.partialRound compM v idx) (partialRound comp w idx) := by
  have h2 := h.set ((h 2).add (Rep.getElem!_of_forall₂ hcomp idx)) 2 (by decide)
  exact mix_rep (h2.set (h2 2).cube 2 (by decide))

theorem permute_rep (hcomp : List.Forall₂ Rep compM comp) (h : RepState v w) :
    RepState (Mont.permute compM v) (permute comp w) := by
  have hfull := roundLoop_rel RepState (fun _ _ idx h => fullRound_rep hcomp h idx) 3
  have hpart := roundLoop_rel RepState (fun _ _ idx h => partialRound_rep hcomp h idx) 1
  rw [Mont.permute_eq, permute_eq]
  simp only [roundLoop_snd]
  exact hfull 4 _ _ _ (hpart 83 _ _ _ (hfull 4 _ _ _ h))

end Refinement

/-! ## The compressed permutation is the reference one -/

/-- With the table `compress_roundkeys` makes from `4 + 83 + 4` key triples, `permute` computes
the Hades permutation that adds every key in every round. -/
theorem permute_compressRoundkeys [CommRing F] [Inhabited F] (rcs : List (Vector F 3))
    (hrcs : rcs.length = FULL_ROUNDS / 2 + PARTIAL_ROUNDS + FULL_ROUNDS / 2) :
    ∃ comp, compressRoundkeys rcs = some comp ∧
      ∀ state, permute comp state = hadesPermute rcs state := by
  simp only [FULL_ROUNDS, PARTIAL_ROUNDS, Nat.reduceDiv, Nat.reduceAdd] at hrcs
  obtain ⟨first, middle, rc, last, rfl, hfirst, hmiddle, hlast⟩ : ∃ first middle rc last,
      rcs = first ++ middle ++ rc :: last ∧ first.length = 4 ∧ middle.length = 83 ∧
        last.length = 3 := by
    have h87 : rcs.drop 87 = rcs.get ⟨87, by omega⟩ :: rcs.drop 88 := by
      rw [List.get_eq_getElem]
      exact List.drop_eq_getElem_cons (by omega)
    refine ⟨rcs.take 4, (rcs.drop 4).take 83, rcs.get ⟨87, by omega⟩, rcs.drop 88, ?_,
      by simp; omega, by simp; omega, by simp; omega⟩
    rw [← h87, show rcs.drop 87 = (rcs.drop 4).drop 83 by rw [List.drop_drop], List.append_assoc,
      List.take_append_drop, List.take_append_drop]
  have htake4 : (first ++ middle ++ rc :: last).take 4 = first := by
    rw [List.append_assoc, List.take_left' hfirst]
  have hdrop4 : (first ++ middle ++ rc :: last).drop 4 = middle ++ rc :: last := by
    rw [List.append_assoc, List.drop_left' hfirst]
  have hdrop87 : (first ++ middle ++ rc :: last).drop 87 = rc :: last :=
    List.drop_left' (by simp [hfirst, hmiddle])
  have htake83 : (middle ++ rc :: last).take 83 = middle := List.take_left' hmiddle
  obtain ⟨pushed, state', hloop, hkeys, hstate⟩ :=
    compressPartialLoop_spec _ middle (rc :: last) [] #v[0, 0, 0] 4 hdrop4
  have hpushed : pushed.length = 83 := by
    have := congrArg List.length hkeys
    simp only [Hades.length_compress, List.length_map, hmiddle] at this
    omega
  set o := addRoundKey state' rc
  set comp := flattenRoundkeys first ++ (pushed ++ [o[0], o[1], o[2]]) ++ flattenRoundkeys last
    with hcomp
  refine ⟨comp, ?_, fun state => words_injective ?_⟩
  · rw [hmiddle] at hloop
    simp only [compressRoundkeys, compressRoundkeysPartial, FULL_ROUNDS, PARTIAL_ROUNDS,
      Nat.reduceDiv, Nat.reduceAdd, sliceTo, sliceFrom, List.length_append, List.length_cons,
      hfirst, hmiddle, hlast, htake4, drop_succ_of_drop_eq_cons hdrop87, hloop,
      getElem?_of_drop_eq_cons hdrop87, Option.bind_eq_bind, Option.bind_some, List.nil_append]
    rfl
  · have w1 := words_roundLoop_fullRound comp first
      (pushed ++ [o[0], o[1], o[2]] ++ flattenRoundkeys last) state 0
      (by rw [hcomp, List.drop_zero, List.append_assoc])
    have w2 := words_roundLoop_partialRound comp pushed ([o[0], o[1], o[2]] ++ flattenRoundkeys last)
      (roundLoop (fullRound comp) 3 4 (state, 0)).1 12
      (by rw [hcomp, List.append_assoc, List.drop_left' (by simp [hfirst]), List.append_assoc])
    have w3 := words_roundLoop_fullRound comp (o :: last) []
      (roundLoop (partialRound comp) 1 83 ((roundLoop (fullRound comp) 3 4 (state, 0)).1, 12)).1 95
      (by rw [hcomp, List.append_assoc, List.append_assoc, ← List.append_assoc (flattenRoundkeys first),
        List.drop_left' (by simp [hfirst, hpushed]), List.append_nil, flattenRoundkeys_cons]; rfl)
    rw [hfirst] at w1
    rw [hpushed] at w2
    rw [List.length_cons, hlast] at w3
    have hpartial := Hades.rounds_add_of_passes mdsMix passes_cubeLast (middle.map words)
      (words (roundLoop (fullRound comp) 3 4 (state, 0)).1) (words #v[0, 0, 0])
    rw [hkeys, ← hstate, words_zero, add_zero] at hpartial
    have href : words (hadesPermute (first ++ middle ++ rc :: last) state) =
        Hades.rounds cubeAll mdsMix ((rc :: last).map words)
          (Hades.rounds cubeLast mdsMix (middle.map words)
            (Hades.rounds cubeAll mdsMix (first.map words) (words state))) := by
      simp only [hadesPermute, FULL_ROUNDS, PARTIAL_ROUNDS, Nat.reduceDiv, Nat.reduceAdd, htake4,
        hdrop4, htake83, hdrop87]
      rw [words_foldl_hadesRound true cubeAll words_hadesRound_true,
        words_foldl_hadesRound false cubeLast words_hadesRound_false,
        words_foldl_hadesRound true cubeAll words_hadesRound_true]
    rw [permute_eq]
    simp only [roundLoop_snd, Nat.reduceMul, Nat.reduceAdd, zero_add]
    rw [w3, href, ← w1, hpartial, ← w2, List.map_cons, List.map_cons, Hades.rounds_cons,
      Hades.rounds_cons, Hades.round_add_offset, words_addRoundKey]

theorem permute_compressRoundkeys_replicate :
    (List.replicate 91 (#v[1, 2, 3] : Vector (ZMod MontFelt.p) 3)).length =
        FULL_ROUNDS / 2 + PARTIAL_ROUNDS + FULL_ROUNDS / 2 ∧
      ∃ comp, compressRoundkeys (List.replicate 91 (#v[1, 2, 3] : Vector (ZMod MontFelt.p) 3)) =
          some comp ∧
        ∀ state, permute comp state = hadesPermute (List.replicate 91 #v[1, 2, 3]) state ∧
          ∀ compM stateM, List.Forall₂ Rep compM comp → RepState stateM state →
            RepState (Mont.permute compM stateM) (hadesPermute (List.replicate 91 #v[1, 2, 3]) state) := by
  have hlen : (List.replicate 91 (#v[1, 2, 3] : Vector (ZMod MontFelt.p) 3)).length =
      FULL_ROUNDS / 2 + PARTIAL_ROUNDS + FULL_ROUNDS / 2 := by
    rw [List.length_replicate]
    rfl
  obtain ⟨comp, hcomp, hperm⟩ := permute_compressRoundkeys _ hlen
  refine ⟨hlen, comp, hcomp, fun state => ⟨hperm state, fun compM stateM hc hs => ?_⟩⟩
  rw [← hperm state]
  exact permute_rep hc hs

end Poseidon
end Crypto
end Pathfinder
