import Mathlib.Data.Nat.Log
import Pathfinder.Monad.Except

/-! The L2 gas search of fee estimation (`executor/src/transaction.rs`,
`find_l2_gas_limit_and_execute_transaction`): a run at the largest limit the transaction may
use, a run at what it consumed there plus `epsilon`, and, when that one runs out of L2 gas, a
binary search between the consumption and the largest limit. The executor is a parameter:
`simulate` is `simulate_transaction` at an L2 gas limit, a function of the limit since the block
state is restored after every probe, and `execute` is the final `execute_transaction` at the
caller's own limit. Gas amounts are `u64`; only `saturating_add` reaches the bound, everything
else stays between the consumption and the largest limit. -/

namespace Pathfinder
namespace Executor

/-- `u64::MAX`. -/
def U64_MAX : ℕ := 2 ^ 64 - 1

/-- `Percentage`, at most a hundred as `Percentage::new` asserts. -/
structure Percentage where
  value : ℕ
  le_hundred : value ≤ 100

/-- `Percentage::of` on a `u64`, widened first so that the product does not overflow. -/
def Percentage.of (p : Percentage) (value : ℕ) : ℕ := value * p.value / 100

def saturatingAdd (a b : ℕ) : ℕ := min (a + b) U64_MAX

/-- `GasVector`. -/
structure GasVector where
  l1Gas : ℕ
  l1DataGas : ℕ
  l2Gas : ℕ
deriving DecidableEq

/-- `L2_GAS_SEARCH_MARGIN`. -/
def L2_GAS_SEARCH_MARGIN : ℕ := 1000000

/-- `simulate_transaction`'s answer: the output, `OutOfGas`, or the executor's error. -/
inductive SimulationResult (O E : Type)
  | ok (output : O)
  | outOfGas
  | executionError (e : E)

/-- Why no estimate comes back. -/
inductive SearchError (E : Type)
  | execution (e : E)
  | internal (msg : String)
  | panic (msg : String)
  | outOfFuel

variable {O E : Type}

/-- `a.checked_sub(b).expect(msg)`. -/
def checkedSub (a b : ℕ) (msg : String) : Except (SearchError E) ℕ :=
  if b ≤ a then .ok (a - b) else .error (.panic msg)

/-- `midpoint`: half the distance rounded up, so that a gap of one probes the upper bound. -/
def midpoint (a b : ℕ) : Except (SearchError E) ℕ := do
  let distance ← checkedSub b a "b >= a"
  pure (a + (distance + 1) / 2)

/-- `search_done`. -/
def searchDone (lowerBound upperBound searchMargin : ℕ) : Except (SearchError E) Bool := do
  let diff ← checkedSub upperBound lowerBound "Upper bound should be greater than lower bound"
  pure (decide (diff ≤ searchMargin))

def searchLoop (simulate : ℕ → SimulationResult O E) :
    ℕ → (lowerBound upperBound current steps : ℕ) → Except (SearchError E) (O × ℕ × ℕ)
  | 0, _, _, _, _ => .error .outOfFuel
  | fuel + 1, lowerBound, upperBound, current, steps =>
    let steps := steps + 1
    match simulate current with
    | .ok output => do
      let done ← searchDone lowerBound upperBound L2_GAS_SEARCH_MARGIN
      if done then
        pure (output, current, steps)
      else
        let upperBound := current
        let current ← midpoint lowerBound upperBound
        searchLoop simulate fuel lowerBound upperBound current steps
    | .outOfGas => do
      let lowerBound := current
      let current ← midpoint lowerBound upperBound
      searchLoop simulate fuel lowerBound upperBound current steps
    | .executionError e => .error (.execution e)

def l2GasAdjusted (epsilon : Percentage) (l2GasConsumed : ℕ) : ℕ :=
  saturatingAdd l2GasConsumed (epsilon.of l2GasConsumed)

def simulateAtMaxLimit (simulate : ℕ → SimulationResult O E) (maxL2GasLimit : ℕ) :
    Except (SearchError E) O :=
  match simulate maxL2GasLimit with
  | .ok output => pure output
  | .executionError e => throw (.execution e)
  | .outOfGas => throw (.internal "Fee estimation failed, maximum gas limit exceeded")

def searchL2GasLimit (simulate : ℕ → SimulationResult O E) (receiptGas : O → GasVector)
    (maxL2GasLimit : ℕ) (epsilon : Percentage) (fuel : ℕ) (output : O) :
    Except (SearchError E) (GasVector × O) :=
  let l2GasConsumed := (receiptGas output).l2Gas
  let l2GasAdjusted := l2GasAdjusted epsilon l2GasConsumed
  match simulate l2GasAdjusted with
  | .ok output => pure ({ receiptGas output with l2Gas := l2GasAdjusted }, output)
  | .outOfGas => do
    let current ← midpoint l2GasConsumed maxL2GasLimit
    let (txInfo, current, _) ← searchLoop simulate fuel l2GasConsumed maxL2GasLimit current 0
    pure ({ receiptGas output with l2Gas := current }, txInfo)
  | .executionError e => throw (.execution e)

def outputAtInitialLimit (execute : ℕ → Except E O) (chargeFee : Bool) (initialL2GasLimit : ℕ)
    (output : O) (gasLimit : GasVector) : Except (SearchError E) (O × GasVector) :=
  if chargeFee && decide (initialL2GasLimit < gasLimit.l2Gas) then
    match execute initialL2GasLimit with
    | .ok output => pure (output, gasLimit)
    | .error e => throw (.execution e)
  else pure (output, gasLimit)

/-- `find_l2_gas_limit_and_execute_transaction`. -/
def findL2GasLimitAndExecuteTransaction (simulate : ℕ → SimulationResult O E)
    (execute : ℕ → Except E O) (receiptGas : O → GasVector) (chargeFee : Bool)
    (initialL2GasLimit maxL2GasLimit : ℕ) (epsilon : Percentage) (fuel : ℕ) :
    Except (SearchError E) (O × GasVector) := do
  let output ← simulateAtMaxLimit simulate maxL2GasLimit
  let l2GasConsumed := (receiptGas output).l2Gas
  let (gasLimit, output) ← searchL2GasLimit simulate receiptGas maxL2GasLimit epsilon fuel output
  let _ ← checkedSub gasLimit.l2Gas l2GasConsumed "l2_gas_limit > l2_gas_consumed"
  outputAtInitialLimit execute chargeFee initialL2GasLimit output gasLimit

theorem checkedSub_of_le {a b : ℕ} (msg : String) (h : b ≤ a) :
    (checkedSub a b msg : Except (SearchError E) ℕ) = .ok (a - b) := if_pos h

theorem midpoint_of_le {a b : ℕ} (h : a ≤ b) :
    (midpoint a b : Except (SearchError E) ℕ) = .ok (a + (b - a + 1) / 2) := by
  simp [midpoint, checkedSub_of_le _ h]

theorem searchDone_of_le {lowerBound upperBound : ℕ} (searchMargin : ℕ)
    (h : lowerBound ≤ upperBound) :
    (searchDone lowerBound upperBound searchMargin : Except (SearchError E) Bool) =
      .ok (decide (upperBound - lowerBound ≤ searchMargin)) := by
  simp [searchDone, checkedSub_of_le _ h]

def Threshold (simulate : ℕ → SimulationResult O E) (gStar : ℕ) : Prop :=
  ∀ g, (g < gStar → simulate g = .outOfGas) ∧ (gStar ≤ g → ∃ output, simulate g = .ok output)

/-- What the search keeps. -/
structure SearchInv (gStar lowerBound upperBound current : ℕ) : Prop where
  lower_lt : lowerBound < gStar
  le_upper : gStar ≤ upperBound
  current_eq : current = lowerBound + (upperBound - lowerBound + 1) / 2

theorem clog_half_add_one {d : ℕ} (hd : 2 ≤ d) : Nat.clog 2 ((d + 1) / 2) + 1 = Nat.clog 2 d := by
  have hsub : d + 2 - 1 = d + 1 := by omega
  rw [@Nat.clog_of_two_le 2 d (by decide) hd, hsub]

theorem searchLoop_spec {simulate : ℕ → SimulationResult O E} {gStar : ℕ}
    (hT : Threshold simulate gStar) :
    ∀ fuel lowerBound upperBound current steps, SearchInv gStar lowerBound upperBound current →
      Nat.clog 2 (upperBound - lowerBound) + 1 ≤ fuel →
      ∃ output g steps', searchLoop simulate fuel lowerBound upperBound current steps =
          .ok (output, g, steps') ∧ simulate g = .ok output ∧
        gStar ≤ g ∧ g < gStar + L2_GAS_SEARCH_MARGIN ∧ g ≤ upperBound ∧
        steps' ≤ steps + Nat.clog 2 (upperBound - lowerBound) + 1 := by
  intro fuel
  induction fuel with
  | zero => intro _ _ _ _ _ hfuel; omega
  | succ fuel ih =>
    intro lowerBound upperBound current steps hinv hfuel
    obtain ⟨hlower, hupper, hcurrent⟩ := hinv
    have hmargin : L2_GAS_SEARCH_MARGIN = 1000000 := rfl
    by_cases hfail : current < gStar
    · have hsim := (hT current).1 hfail
      have hgap : 2 ≤ upperBound - lowerBound := by omega
      have hhalf : Nat.clog 2 (upperBound - current) + 1 ≤ Nat.clog 2 (upperBound - lowerBound) := by
        rw [← clog_half_add_one hgap]
        exact Nat.add_le_add_right (Nat.clog_mono_right 2 (by omega)) 1
      obtain ⟨output, g, steps', hloop, hg, hge, hlt, hle, hsteps⟩ :=
        ih current upperBound _ (steps + 1) ⟨hfail, hupper, rfl⟩ (by omega)
      refine ⟨output, g, steps', ?_, hg, hge, hlt, hle, by omega⟩
      simp only [searchLoop, hsim, midpoint_of_le (show current ≤ upperBound by omega),
        except_ok_bind]
      exact hloop
    · obtain ⟨output, hsim⟩ := (hT current).2 (by omega)
      by_cases hdone : upperBound - lowerBound ≤ L2_GAS_SEARCH_MARGIN
      · refine ⟨output, current, steps + 1, ?_, hsim, by omega, by omega, by omega, by omega⟩
        simp [searchLoop, hsim, searchDone_of_le _ (show lowerBound ≤ upperBound by omega), hdone]
      · have hgap : 2 ≤ upperBound - lowerBound := by omega
        have hhalf : Nat.clog 2 (current - lowerBound) + 1 = Nat.clog 2 (upperBound - lowerBound) := by
          rw [← clog_half_add_one hgap, hcurrent, Nat.add_sub_cancel_left]
        obtain ⟨output', g, steps', hloop, hg, hge, hlt, hle, hsteps⟩ :=
          ih lowerBound current _ (steps + 1) ⟨hlower, by omega, rfl⟩ (by omega)
        refine ⟨output', g, steps', ?_, hg, hge, hlt, by omega, by omega⟩
        simp only [searchLoop, hsim, searchDone_of_le _ (show lowerBound ≤ upperBound by omega),
          hdone, decide_false, midpoint_of_le (show lowerBound ≤ current by omega),
          except_ok_bind, Bool.false_eq_true, if_false]
        exact hloop

theorem le_l2GasAdjusted (epsilon : Percentage) {l2GasConsumed : ℕ} (h : l2GasConsumed ≤ U64_MAX) :
    l2GasConsumed ≤ l2GasAdjusted epsilon l2GasConsumed := by
  unfold l2GasAdjusted saturatingAdd
  omega

/-- The estimate is near-minimal: when the run at the largest limit succeeds consuming less than
the threshold `gStar`, and `gStar` is at most that limit, the search returns the adjusted
consumption if that suffices and otherwise a limit in `[gStar, gStar + L2_GAS_SEARCH_MARGIN)` no
larger than the largest limit, with the output of the run there; no panic, and the loop stops
within `⌈log₂ (max_l2_gas_limit - consumed)⌉ + 1` probes, the fuel it is given. -/
theorem findL2GasLimit_near_minimal {simulate : ℕ → SimulationResult O E}
    (execute : ℕ → Except E O) (receiptGas : O → GasVector) (chargeFee : Bool)
    (initialL2GasLimit : ℕ) {maxL2GasLimit gStar : ℕ} (epsilon : Percentage) {fuel : ℕ}
    (hT : Threshold simulate gStar) {output₀ : O} (hmax : simulate maxL2GasLimit = .ok output₀)
    (hconsumed : (receiptGas output₀).l2Gas < gStar) (hgStar : gStar ≤ maxL2GasLimit)
    (hu64 : maxL2GasLimit ≤ U64_MAX)
    (hfuel : Nat.clog 2 (maxL2GasLimit - (receiptGas output₀).l2Gas) + 1 ≤ fuel) :
    ∃ output gasLimit, simulate gasLimit.l2Gas = .ok output ∧
      (if gStar ≤ l2GasAdjusted epsilon (receiptGas output₀).l2Gas
        then gasLimit.l2Gas = l2GasAdjusted epsilon (receiptGas output₀).l2Gas
        else gStar ≤ gasLimit.l2Gas ∧ gasLimit.l2Gas < gStar + L2_GAS_SEARCH_MARGIN ∧
          gasLimit.l2Gas ≤ maxL2GasLimit) ∧
      findL2GasLimitAndExecuteTransaction simulate execute receiptGas chargeFee initialL2GasLimit
          maxL2GasLimit epsilon fuel =
        outputAtInitialLimit execute chargeFee initialL2GasLimit output gasLimit := by
  have hfirst : simulateAtMaxLimit simulate maxL2GasLimit = .ok output₀ := by
    simp [simulateAtMaxLimit, hmax]
  have hadjusted := le_l2GasAdjusted epsilon (show (receiptGas output₀).l2Gas ≤ U64_MAX by omega)
  by_cases hsuffices : gStar ≤ l2GasAdjusted epsilon (receiptGas output₀).l2Gas
  · obtain ⟨output, hsim⟩ := (hT _).2 hsuffices
    refine ⟨output, { receiptGas output with l2Gas := l2GasAdjusted epsilon (receiptGas output₀).l2Gas },
      hsim, by simp [hsuffices], ?_⟩
    simp [findL2GasLimitAndExecuteTransaction, hfirst, searchL2GasLimit, hsim,
      checkedSub_of_le _ hadjusted]
  · have hsim := (hT _).1 (Nat.lt_of_not_le hsuffices)
    obtain ⟨output, g, steps, hloop, hg, hge, hlt, hle, -⟩ :=
      searchLoop_spec hT fuel _ _ _ 0 ⟨hconsumed, hgStar, rfl⟩ hfuel
    refine ⟨output, { receiptGas output₀ with l2Gas := g }, hg, ?_, ?_⟩
    · simp only [if_neg hsuffices]
      exact ⟨hge, hlt, hle⟩
    · simp [findL2GasLimitAndExecuteTransaction, hfirst, searchL2GasLimit, hsim,
        midpoint_of_le (show (receiptGas output₀).l2Gas ≤ maxL2GasLimit by omega), hloop,
        checkedSub_of_le _ (show (receiptGas output₀).l2Gas ≤ g by omega)]

theorem findL2GasLimit_near_minimal_probe_seven :
    ∃ output gasLimit,
      (fun g => if g < 5 then .outOfGas else .ok 3 : ℕ → SimulationResult ℕ Unit) gasLimit.l2Gas =
          .ok output ∧
      (if 5 ≤ l2GasAdjusted ⟨10, by decide⟩ 3 then gasLimit.l2Gas = l2GasAdjusted ⟨10, by decide⟩ 3
        else 5 ≤ gasLimit.l2Gas ∧ gasLimit.l2Gas < 5 + L2_GAS_SEARCH_MARGIN ∧ gasLimit.l2Gas ≤ 10) ∧
      findL2GasLimitAndExecuteTransaction
          (fun g => if g < 5 then .outOfGas else .ok 3 : ℕ → SimulationResult ℕ Unit)
          (fun _ => .ok 3) (fun o => ⟨0, 0, o⟩) false 0 10 ⟨10, by decide⟩ 4 =
        outputAtInitialLimit (fun _ => .ok 3) false 0 output gasLimit := by
  have hT : Threshold (fun g => if g < 5 then .outOfGas else .ok 3 : ℕ → SimulationResult ℕ Unit) 5 := by
    intro g
    refine ⟨fun hg => by simp [hg], fun hg => ⟨3, by simp [Nat.not_lt.mpr hg]⟩⟩
  exact findL2GasLimit_near_minimal (fun _ => .ok 3) (fun o => ⟨0, 0, o⟩) false 0
    ⟨10, by decide⟩ hT (show (if 10 < 5 then .outOfGas else .ok 3 : SimulationResult ℕ Unit) = .ok 3
      from rfl) (by decide) (by decide) (by decide) (by decide)

end Executor
end Pathfinder
