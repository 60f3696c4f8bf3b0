import Mathlib.Data.List.AList

/-! The cache of the latest L2 blocks (`state/sync/l2.rs`, `BlockChain`): a map from block
numbers to a block's hash and state commitment, with the head and the tail of the window it
covers. `push` first drops the blocks from `number` up to the head, which a reorg replaces,
then evicts the tail when the map is full, and inserts. The `HashMap` is an association list
with distinct keys. Its `capacity()` is fixed when `HashMap::with_capacity(capacity)` builds it,
at a value the standard library only promises to be at least `capacity`, and is taken to stay
there, since `push` evicts before the map outgrows it. -/

namespace Pathfinder
namespace Sync

/-- `BlockChain`, over the type `V` of a block's hash and state commitment. -/
structure BlockChain (V : Type) where
  head : ℕ
  tail : ℕ
  map : AList (fun _ : ℕ => V)
  mapCapacity : ℕ

namespace BlockChain

variable {V : Type}

def resetToGenesis (bc : BlockChain V) : BlockChain V :=
  { bc with map := ∅, head := 0, tail := 0 }

@[simp] theorem resetToGenesis_map (bc : BlockChain V) : bc.resetToGenesis.map = ∅ := rfl

@[simp] theorem resetToGenesis_head (bc : BlockChain V) : bc.resetToGenesis.head = 0 := rfl

@[simp] theorem resetToGenesis_tail (bc : BlockChain V) : bc.resetToGenesis.tail = 0 := rfl

@[simp] theorem resetToGenesis_mapCapacity (bc : BlockChain V) :
    bc.resetToGenesis.mapCapacity = bc.mapCapacity := rfl

def get (bc : BlockChain V) (block : ℕ) : Option V := bc.map.lookup block

/-- `push`: remove `number..=head`, evict the tail when the map is full, insert. -/
def push (bc : BlockChain V) (number : ℕ) (value : V) : BlockChain V :=
  let map := (List.range' number (bc.head + 1 - number)).foldl (fun map i => map.erase i) bc.map
  let evict := bc.mapCapacity = map.entries.length
  { head := number
    tail := if evict then bc.tail + 1 else bc.tail
    map := (if evict then map.erase bc.tail else map).insert number value
    mapCapacity := bc.mapCapacity }

section PushFields

variable (bc : BlockChain V) (number : ℕ) (value : V)

def removed : AList (fun _ : ℕ => V) :=
  (List.range' number (bc.head + 1 - number)).foldl (fun map i => map.erase i) bc.map

@[simp] theorem push_head : (bc.push number value).head = number := rfl

@[simp] theorem push_mapCapacity : (bc.push number value).mapCapacity = bc.mapCapacity := rfl

theorem push_tail : (bc.push number value).tail =
    if bc.mapCapacity = (bc.removed number).entries.length then bc.tail + 1 else bc.tail := rfl

theorem push_map : (bc.push number value).map =
    (if bc.mapCapacity = (bc.removed number).entries.length then (bc.removed number).erase bc.tail
      else bc.removed number).insert number value := rfl

end PushFields

/-! ### The map -/

theorem mem_foldl_erase (l : List ℕ) (map : AList (fun _ : ℕ => V)) (n : ℕ) :
    n ∈ l.foldl (fun map i => map.erase i) map ↔ n ∈ map ∧ n ∉ l := by
  induction l generalizing map with
  | nil => simp
  | cons i l ih =>
    rw [List.foldl_cons, ih, AList.mem_erase, List.mem_cons]
    tauto

theorem lookup_foldl_erase {l : List ℕ} {n : ℕ} (hn : n ∉ l) (map : AList (fun _ : ℕ => V)) :
    (l.foldl (fun map i => map.erase i) map).lookup n = map.lookup n := by
  induction l generalizing map with
  | nil => rfl
  | cons i l ih =>
    rw [List.mem_cons, not_or] at hn
    rw [List.foldl_cons, ih hn.2, AList.lookup_erase_ne hn.1]

theorem length_entries_of_keys {map : AList (fun _ : ℕ => V)} {lo hi : ℕ}
    (h : ∀ n, n ∈ map ↔ lo ≤ n ∧ n < hi) : map.entries.length = hi - lo := by
  have hperm : map.keys.Perm (List.range' lo (hi - lo)) := by
    refine (List.perm_ext_iff_of_nodup map.keys_nodup List.nodup_range').mpr fun n => ?_
    rw [← AList.mem_keys, h, List.mem_range'_1]
    omega
  calc map.entries.length = map.keys.length := by simp [AList.keys, List.keys]
    _ = (List.range' lo (hi - lo)).length := hperm.length_eq
    _ = hi - lo := List.length_range'

/-! ### The window -/

/-- The cache covers a window. -/
structure Window (bc : BlockChain V) : Prop where
  mapCapacity_pos : 0 < bc.mapCapacity
  length_le : bc.map.entries.length ≤ bc.mapCapacity
  keys : ((∀ n, n ∉ bc.map) ∧ bc.tail = bc.head) ∨ ∀ n, n ∈ bc.map ↔ bc.tail ≤ n ∧ n ≤ bc.head

def Allowed (bc : BlockChain V) (number : ℕ) : Prop :=
  bc.tail ≤ number ∧ number ≤ bc.head + 1 ∧ ((∀ n, n ∉ bc.map) → number = bc.tail)

section Push

variable {bc : BlockChain V} {number : ℕ}

theorem Window.mem_removed (hw : Window bc) (ha : Allowed bc number) (n : ℕ) :
    n ∈ bc.removed number ↔ bc.tail ≤ n ∧ n < number := by
  obtain ⟨htail, hhead, hempty⟩ := ha
  rw [removed, mem_foldl_erase, List.mem_range'_1]
  rcases hw.keys with ⟨hnone, -⟩ | hkeys
  · have := hempty hnone
    simp only [hnone, false_and, false_iff]
    omega
  · rw [hkeys]
    omega

theorem Window.length_removed (hw : Window bc) (ha : Allowed bc number) :
    (bc.removed number).entries.length = number - bc.tail :=
  length_entries_of_keys (hw.mem_removed ha)

theorem Window.sub_tail_le (hw : Window bc) (ha : Allowed bc number) :
    number - bc.tail ≤ bc.mapCapacity := by
  obtain ⟨htail, hhead, hempty⟩ := ha
  rcases hw.keys with ⟨hnone, -⟩ | hkeys
  · have := hempty hnone
    omega
  · have hlen := @length_entries_of_keys V bc.map bc.tail (bc.head + 1)
      (fun n => by rw [hkeys]; omega)
    have := hw.length_le
    omega

theorem Window.mem_push (hw : Window bc) (ha : Allowed bc number) (value : V) (n : ℕ) :
    n ∈ (bc.push number value).map ↔ (bc.push number value).tail ≤ n ∧ n ≤ number := by
  have hrem := hw.mem_removed ha
  have hpos := hw.mapCapacity_pos
  have htail := ha.1
  rw [push_map, push_tail, hw.length_removed ha]
  by_cases hfull : bc.mapCapacity = number - bc.tail
  · rw [if_pos hfull, if_pos hfull, AList.mem_insert, AList.mem_erase, hrem]
    constructor <;> intro h <;> omega
  · rw [if_neg hfull, if_neg hfull, AList.mem_insert, hrem]
    constructor <;> intro h <;> omega

theorem Window.push (hw : Window bc) (ha : Allowed bc number) (value : V) :
    Window (bc.push number value) := by
  have hkeys := hw.mem_push ha value
  have hle := hw.sub_tail_le ha
  have htail : (bc.push number value).tail ≤ number + 1 := by
    have := ha.1
    rw [push_tail, hw.length_removed ha]
    split <;> omega
  refine ⟨hw.mapCapacity_pos, ?_, .inr hkeys⟩
  rw [@length_entries_of_keys V _ (bc.push number value).tail (number + 1)
      (fun n => by rw [hkeys]; omega), push_mapCapacity,
    push_tail, hw.length_removed ha]
  split <;> omega

theorem get_push {n : ℕ} (value : V) (h : n ∈ (bc.push number value).map) :
    (bc.push number value).get n = Function.update bc.get number (some value) n := by
  by_cases hn : n = number
  · subst hn
    rw [Function.update_self, get, push_map, AList.lookup_insert]
  · rw [Function.update_of_ne hn, get, push_map, AList.lookup_insert_ne hn]
    rw [push_map, AList.mem_insert, or_iff_right hn] at h
    have hkept : n ∈ bc.removed number → (bc.removed number).lookup n = bc.get n := by
      intro hmem
      rw [removed, mem_foldl_erase] at hmem
      exact lookup_foldl_erase hmem.2 bc.map
    split at h
    · rw [if_pos ‹_›, AList.lookup_erase_ne (AList.mem_erase.mp h).1]
      exact hkept (AList.mem_erase.mp h).2
    · rw [if_neg ‹_›]
      exact hkept h

end Push

/-! ### Runs -/

/-- The operations of the sync loop on the cache. -/
inductive Op (V : Type)
  | push (number : ℕ) (value : V)
  | resetToGenesis

def step (bc : BlockChain V) : Op V → BlockChain V
  | .push number value => bc.push number value
  | .resetToGenesis => bc.resetToGenesis

def run (bc : BlockChain V) (ops : List (Op V)) : BlockChain V := ops.foldl step bc

def Op.Allowed (bc : BlockChain V) : Op V → Prop
  | .push number _ => bc.Allowed number
  | .resetToGenesis => True

def AllowedRun : BlockChain V → List (Op V) → Prop
  | _, [] => True
  | bc, op :: ops => op.Allowed bc ∧ AllowedRun (step bc op) ops

def Op.latest (f : ℕ → Option V) : Op V → ℕ → Option V
  | .push number value => Function.update f number (some value)
  | .resetToGenesis => fun _ => none

def latestRun (f : ℕ → Option V) (ops : List (Op V)) : ℕ → Option V := ops.foldl Op.latest f

def Sound (bc : BlockChain V) (f : ℕ → Option V) : Prop :=
  Window bc ∧ ∀ n ∈ bc.map, bc.get n = f n

theorem Sound.step {bc : BlockChain V} {f : ℕ → Option V} {op : Op V} (hs : Sound bc f)
    (ha : op.Allowed bc) : Sound (bc.step op) (op.latest f) := by
  obtain ⟨hw, hget⟩ := hs
  cases op with
  | push number value =>
    refine ⟨hw.push ha value, fun n hn => ?_⟩
    rw [BlockChain.step, get_push value hn, Op.latest]
    by_cases hnum : n = number
    · subst hnum
      rw [Function.update_self, Function.update_self]
    · rw [Function.update_of_ne hnum, Function.update_of_ne hnum]
      rw [BlockChain.step, push_map, AList.mem_insert, or_iff_right hnum] at hn
      have hmem : n ∈ bc.removed number := by
        split at hn
        · exact (AList.mem_erase.mp hn).2
        · exact hn
      rw [removed, mem_foldl_erase] at hmem
      exact hget n hmem.1
  | resetToGenesis =>
    rw [BlockChain.step]
    refine ⟨⟨hw.mapCapacity_pos, by simp [AList.empty_entries],
      .inl ⟨fun n => by simp, by simp⟩⟩, fun n hn => ?_⟩
    simp at hn

theorem Sound.run {bc : BlockChain V} {f : ℕ → Option V} (hs : Sound bc f) (ops : List (Op V))
    (hops : AllowedRun bc ops) : Sound (bc.run ops) (latestRun f ops) := by
  induction ops generalizing bc f with
  | nil => exact hs
  | cons op ops ih => exact ih (hs.step hops.1) hops.2

end BlockChain

end Sync
end Pathfinder
