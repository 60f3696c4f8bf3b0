import Mathlib.Algebra.Group.Hom.Defs
import Mathlib.Tactic.Abel

/-!
# Moving round keys through the linear layer

A round of a substitution-permutation network adds a key, applies an S-box layer and mixes the
words with an additive map. When the S-box layer leaves some words alone, as the partial rounds
of Hades do, the part of a key on those words may as well be added after the layer; the mix
being additive, it then becomes part of the next round's key. `compress` folds a list of keys
so: each round keeps the part of its key that the S-box reads, and what is left over is carried
to the end, where it is handed back as an offset.
-/

namespace Pathfinder
namespace Hades

variable {S : Type} [AddCommGroup S]

section Rounds
variable (sbox : S → S) (mix : S →+ S)

def round (key s : S) : S := mix (sbox (s + key))

def rounds (keys : List S) (s : S) : S := keys.foldl (fun s key => round sbox mix key s) s

@[simp] theorem rounds_nil (s : S) : rounds sbox mix [] s = s := rfl

@[simp] theorem rounds_cons (key : S) (keys : List S) (s : S) :
    rounds sbox mix (key :: keys) s = rounds sbox mix keys (round sbox mix key s) := rfl

theorem round_add_offset (key s offset : S) :
    round sbox mix key (s + offset) = round sbox mix (offset + key) s := by
  rw [round, round, add_assoc]

end Rounds

def Passes (sbox : S → S) (keep : S →+ S) : Prop :=
  ∀ s d, sbox (s + d) = sbox (s + keep d) + (d - keep d)

def compress (mix keep : S →+ S) : S → List S → List S × S
  | offset, [] => ([], offset)
  | offset, key :: keys =>
    let d := offset + key
    let rest := compress mix keep (mix (d - keep d)) keys
    (keep d :: rest.1, rest.2)

@[simp] theorem length_compress (mix keep : S →+ S) :
    ∀ (offset : S) (keys : List S), (compress mix keep offset keys).1.length = keys.length
  | _, [] => rfl
  | _, _ :: keys => congrArg Nat.succ (length_compress mix keep _ keys)

section Passes
variable {sbox : S → S} {keep : S →+ S} (mix : S →+ S)

theorem round_add_of_passes (h : Passes sbox keep) (key s offset : S) :
    round sbox mix key (s + offset) =
      round sbox mix (keep (offset + key)) s + mix (offset + key - keep (offset + key)) := by
  rw [round_add_offset, round, round, h, map_add]

theorem rounds_add_of_passes (h : Passes sbox keep) (keys : List S) (s offset : S) :
    rounds sbox mix keys (s + offset) =
      rounds sbox mix (compress mix keep offset keys).1 s + (compress mix keep offset keys).2 := by
  induction keys generalizing s offset with
  | nil => rfl
  | cons key keys ih =>
    rw [rounds_cons, round_add_of_passes mix h, ih]
    rfl

end Passes

end Hades
end Pathfinder
