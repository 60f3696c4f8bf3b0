import Mathlib.Data.List.MinMax

/-! The L1–L2 pointer of the sync loop (`state/sync.rs`): the newest local block whose hash the
L1 state stored for its number confirms. Three writers move it: `l1_update` stores an L1 state
and points at its block if that block is stored with the same hash; `l2_update` stores the next
block and points at it only if it is the block right after the pointer and its L1 state is
already stored; `l2_reorg` drops the blocks from a tail on and pulls the pointer below it. The
store is the local block hashes by number, the `l1_state` table by Starknet block number (a
reorg does not purge it) and the pointer; hashes are of any type with equality. -/

namespace Pathfinder
namespace Sync

/-- What the pointer's writers read and write. -/
structure L1L2Store (H : Type) where
  blocks : List H
  /-- `starknet_block_hash` of the `l1_state` row of each Starknet block number -/
  l1State : ℕ → Option H
  /-- `l1_l2_pointer` -/
  pointer : Option ℕ

namespace L1L2Store
variable {H : Type} [DecidableEq H]

def empty : L1L2Store H := ⟨[], fun _ => none, none⟩

/-- `l1_update`. -/
def l1Update (s : L1L2Store H) (n : ℕ) (h : H) : L1L2Store H :=
  let s := { s with l1State := Function.update s.l1State n (some h) }
  match s.blocks[n]? with
  | some l2Hash => if l2Hash = h then { s with pointer := some n } else s
  | none => s

/-- `l2_update`. -/
def l2Update (s : L1L2Store H) (h : H) : L1L2Store H :=
  let number := s.blocks.length
  let s := { s with blocks := s.blocks ++ [h] }
  let expectedNext := (s.pointer.map (· + 1)).getD 0
  if expectedNext = number then
    match s.l1State number with
    | some l1Hash => if l1Hash = h then { s with pointer := some number } else s
    | none => s
  else s

/-- `l2_reorg`. -/
def l2Reorg (s : L1L2Store H) (reorgTail : ℕ) : L1L2Store H :=
  let s := { s with blocks := s.blocks.take reorgTail }
  match s.pointer with
  | some l1l2Head =>
    if reorgTail = 0 then { s with pointer := none }
    else if reorgTail ≤ l1l2Head then { s with pointer := some (reorgTail - 1) }
    else s
  | none => s

@[simp] theorem blocks_l2Update (s : L1L2Store H) (h : H) :
    (s.l2Update h).blocks = s.blocks ++ [h] := by
  delta l2Update
  dsimp only
  split
  · split
    · split <;> rfl
    · rfl
  · rfl

@[simp] theorem l1State_l2Update (s : L1L2Store H) (h : H) :
    (s.l2Update h).l1State = s.l1State := by
  delta l2Update
  dsimp only
  split
  · split
    · split <;> rfl
    · rfl
  · rfl

theorem pointer_l2Update (s : L1L2Store H) (h : H) :
    (s.l2Update h).pointer =
      if (s.pointer.map (· + 1)).getD 0 = s.blocks.length ∧ s.l1State s.blocks.length = some h
      then some s.blocks.length else s.pointer := by
  delta l2Update
  dsimp only
  split
  · rename_i hnext
    split
    · rename_i l1Hash hl1
      by_cases heq : l1Hash = h
      · simp [hnext, hl1, heq]
      · simp [hnext, hl1, heq]
    · rename_i hl1
      simp [hl1]
  · rename_i hnext
    simp [hnext]

def confirmed (s : L1L2Store H) (n : ℕ) : Bool :=
  match s.blocks[n]? with
  | some h => s.l1State n == some h
  | none => false

def newestConfirmed (s : L1L2Store H) : Option ℕ :=
  ((List.range s.blocks.length).filter s.confirmed).max?

theorem confirmed_iff {s : L1L2Store H} {n : ℕ} :
    s.confirmed n = true ↔ ∃ h, s.blocks[n]? = some h ∧ s.l1State n = some h := by
  unfold confirmed
  split
  · rename_i h hn
    simp [hn]
  · rename_i hn
    simp [hn]

theorem lt_length_of_confirmed {s : L1L2Store H} {n : ℕ} (h : s.confirmed n = true) :
    n < s.blocks.length := by
  obtain ⟨_, hn, -⟩ := confirmed_iff.mp h
  exact (List.getElem?_eq_some_iff.mp hn).1

theorem l1State_of_confirmed {s : L1L2Store H} {n : ℕ} (h : s.confirmed n = true) :
    s.l1State n ≠ none := by
  obtain ⟨_, -, hl1⟩ := confirmed_iff.mp h
  simp [hl1]

theorem newestConfirmed_eq_of_confirmed {s : L1L2Store H} {n : ℕ} (h : s.confirmed n = true)
    (hl1 : ∀ m, s.l1State m ≠ none → m ≤ n) : s.newestConfirmed = some n := by
  rw [newestConfirmed, List.max?_eq_some_iff]
  refine ⟨List.mem_filter.mpr ⟨List.mem_range.mpr (lt_length_of_confirmed h), h⟩, ?_⟩
  intro m hm
  exact hl1 m (l1State_of_confirmed (List.mem_filter.mp hm).2)

theorem confirmed_l2Update (s : L1L2Store H) {h : H} (hl1 : s.l1State s.blocks.length = some h) :
    (s.l2Update h).confirmed s.blocks.length = true :=
  confirmed_iff.mpr ⟨h, by simp, by simpa using hl1⟩

/-- The pointer falls behind when an L1 state comes before its block: `l2_update` stores block
`n` whose L1 state, with its hash, is already there, but `n` is not the block after the pointer,
so the pointer stays where it was while block `n` is the newest confirmed one. -/
theorem l2Update_pointer_lags (s : L1L2Store H) (h : H)
    (hpointer : ∀ p, s.pointer = some p → p < s.blocks.length)
    (hl1 : s.l1State s.blocks.length = some h)
    (hgap : (s.pointer.map (· + 1)).getD 0 ≠ s.blocks.length)
    (habove : ∀ m, s.l1State m ≠ none → m ≤ s.blocks.length) :
    (s.l2Update h).pointer = s.pointer ∧
      (s.l2Update h).newestConfirmed = some s.blocks.length ∧
      (s.l2Update h).pointer ≠ (s.l2Update h).newestConfirmed := by
  have hptr : (s.l2Update h).pointer = s.pointer := by
    rw [pointer_l2Update, if_neg (fun hc => hgap hc.1)]
  have hnewest : (s.l2Update h).newestConfirmed = some s.blocks.length := by
    refine newestConfirmed_eq_of_confirmed (confirmed_l2Update s hl1) fun m hm => habove m ?_
    rwa [l1State_l2Update] at hm
  refine ⟨hptr, hnewest, ?_⟩
  rw [hptr, hnewest]
  intro hp
  exact absurd (hpointer _ hp) (Nat.lt_irrefl _)

/-- The three writers of the pointer, as the sync loop's events. -/
inductive L1L2Action (H : Type)
  | l1Update (n : ℕ) (h : H)
  | l2Update (h : H)
  | l2Reorg (reorgTail : ℕ)

def step (s : L1L2Store H) : L1L2Action H → L1L2Store H
  | .l1Update n h => s.l1Update n h
  | .l2Update h => s.l2Update h
  | .l2Reorg reorgTail => s.l2Reorg reorgTail

def run (s : L1L2Store H) (actions : List (L1L2Action H)) : L1L2Store H :=
  actions.foldl step s

def Allowed (s : L1L2Store H) : L1L2Action H → Prop
  | .l1Update n _ => ∀ m, s.l1State m ≠ none → m < n
  | .l2Update _ => True
  | .l2Reorg reorgTail => ∀ p, s.pointer = some p → p < reorgTail

def AllowedRun : L1L2Store H → List (L1L2Action H) → Prop
  | _, [] => True
  | s, a :: actions => Allowed s a ∧ AllowedRun (s.step a) actions

example : ((empty : L1L2Store ℕ).run [.l2Update 10, .l2Update 11, .l1Update 1 11]).pointer =
    some 1 := by decide

theorem l2Update_pointer_lags_l1_first :
    AllowedRun (empty : L1L2Store ℕ) [.l1Update 1 11, .l2Update 10, .l2Update 11] ∧
      ((empty : L1L2Store ℕ).run [.l1Update 1 11, .l2Update 10, .l2Update 11]).pointer = none ∧
      ((empty : L1L2Store ℕ).run [.l1Update 1 11, .l2Update 10, .l2Update 11]).newestConfirmed =
        some 1 := by
  have hrun : (empty : L1L2Store ℕ).run [.l1Update 1 11, .l2Update 10] =
      ⟨[10], Function.update (fun _ => none) 1 (some 11), none⟩ := by
    simp [run, step, empty, l1Update, l2Update]
  have hallowed : AllowedRun (empty : L1L2Store ℕ) [.l1Update 1 11, .l2Update 10, .l2Update 11] := by
    simp [AllowedRun, Allowed, empty]
  have habove : ∀ m, Function.update (fun _ => none) 1 (some 11) m ≠ none → m ≤ 1 := by
    intro m hm
    by_contra hgt
    exact hm (Function.update_of_ne (by omega) _ _)
  obtain ⟨hptr, hnewest, -⟩ := l2Update_pointer_lags
    ((empty : L1L2Store ℕ).run [.l1Update 1 11, .l2Update 10]) 11
    (by rw [hrun]; intro p hp; cases hp) (by rw [hrun]; rfl) (by rw [hrun]; decide)
    (by rw [hrun]; exact habove)
  rw [hrun] at hptr hnewest
  exact ⟨hallowed, hptr, hnewest⟩

end L1L2Store

end Sync
end Pathfinder
