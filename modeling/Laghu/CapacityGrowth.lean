import Laghu.Contract
import Laghu.MachineIntegers

/-!
The doubling loop that chooses the next capacity of a buffer and of an arena.
Capacities are machine words; the guard compares before it doubles, so the
doubling never wraps, and a positive word can be doubled at most 64 times
before it reaches any requirement.
-/

namespace Laghu.CapacityGrowth

open Contract ExactWords BitVec

/-- `while (target < required)`, with a bound on the number of rounds. -/
def doubleUntil (maximum required : Size) : ℕ → Size → Option Size
  | fuel, target =>
    if target < required then
      match fuel with
      | 0 => none
      | fuel + 1 =>
        if target > maximum - target then doubleUntil maximum required fuel maximum
        else doubleUntil maximum required fuel (target * 2)
    else some target

def rounds : ℕ := 64

/-- The loop with operations that have no result where they would wrap. -/
def exactDoubleUntil (maximum required : Size) : ℕ → Size → Option Size
  | fuel, target =>
    if target < required then
      match fuel with
      | 0 => none
      | fuel + 1 => do
        let room ← exactSub maximum target
        if target > room then exactDoubleUntil maximum required fuel maximum
        else
          let doubled ← exactMul target 2#64
          exactDoubleUntil maximum required fuel doubled
    else some target

/-- The first of `start`, twice `start`, four times `start` and so on that is large enough, or
the maximum where that one exceeds it. -/
def FirstDoubling (maximum required start target : Size) : Prop :=
  ∃ k, required.toNat ≤ start.toNat * 2 ^ k ∧ (∀ j < k, start.toNat * 2 ^ j < required.toNat) ∧
    target.toNat = min (start.toNat * 2 ^ k) maximum.toNat

variable {maximum required start target : Size}

theorem FirstDoubling.bounds (h : FirstDoubling maximum required start target)
    (hrequired : required.toNat ≤ maximum.toNat) :
    required.toNat ≤ target.toNat ∧ target.toNat ≤ maximum.toNat := by
  obtain ⟨k, hreached, -, htarget⟩ := h
  omega

theorem FirstDoubling.next {doubled : Size} (hdouble : doubled.toNat = start.toNat * 2)
    (hloop : start.toNat < required.toNat) (h : FirstDoubling maximum required doubled target) :
    FirstDoubling maximum required start target := by
  obtain ⟨k, hreached, hbefore, htarget⟩ := h
  have hpow (j : ℕ) : start.toNat * 2 ^ (j + 1) = doubled.toNat * 2 ^ j := by
    rw [hdouble, Nat.pow_succ', Nat.mul_assoc]
  refine ⟨k + 1, by rw [hpow]; exact hreached, fun j hj => ?_, by rw [hpow]; exact htarget⟩
  cases j with
  | zero => simpa using hloop
  | succ j =>
    rw [hpow]
    exact hbefore j (by omega)

theorem doubleUntil_done (maximum : Size) (fuel : ℕ) (h : ¬ target < required) :
    doubleUntil maximum required fuel target = some target ∧
      exactDoubleUntil maximum required fuel target = some target := by
  cases fuel <;> exact ⟨by rw [doubleUntil, if_neg h], by rw [exactDoubleUntil, if_neg h]⟩

/-- The loop ends within its bound, and no operation of it wraps. -/
theorem doubleUntil_spec (hrequired : required.toNat ≤ maximum.toNat) (fuel : ℕ) (start : Size)
    (hle : start.toNat ≤ maximum.toNat) (hfuel : required.toNat ≤ start.toNat * 2 ^ fuel) :
    ∃ target, doubleUntil maximum required fuel start = some target ∧
      exactDoubleUntil maximum required fuel start = some target ∧
      FirstDoubling maximum required start target := by
  induction fuel generalizing start with
  | zero =>
    have hdone : ¬ start < required := by
      rw [lt_def]
      omega
    obtain ⟨hrun, hexact⟩ := doubleUntil_done maximum 0 hdone
    exact ⟨start, hrun, hexact, 0, by omega, fun j hj => by omega, by omega⟩
  | succ fuel ih =>
    by_cases hloop : start < required
    · have hlt : start.toNat < required.toNat := hloop
      have hmaximum := maximum.isLt
      have hroom : (maximum - start).toNat = maximum.toNat - start.toNat :=
        toNat_sub_of_le (by rw [le_def]; exact hle)
      rw [doubleUntil, exactDoubleUntil, if_pos hloop, if_pos hloop, exactSub_of_le hle]
      dsimp only [Option.bind_eq_bind, Option.bind_some]
      split
      · rename_i hcap
        -- Clipping reaches the maximum, and the next test ends the loop.
        obtain ⟨hrun, hexact⟩ := doubleUntil_done maximum fuel
          (show ¬ maximum < required by rw [lt_def]; omega)
        rw [gt_iff_lt, lt_def, hroom] at hcap
        refine ⟨maximum, hrun, hexact, 1, by omega, fun j hj => ?_, by omega⟩
        simpa [show j = 0 by omega] using hlt
      rename_i hcap
      rw [gt_iff_lt, lt_def, hroom] at hcap
      obtain ⟨hmul, hdouble⟩ := exactMul_of_lt (x := start) (show (2#64).toNat = 2 from rfl)
        (by omega)
      rw [hmul]
      obtain ⟨target, hrun, hexact, hfirst⟩ := ih (start * 2#64) (by omega)
        (by rw [hdouble, Nat.mul_assoc, ← Nat.pow_succ']; exact hfuel)
      exact ⟨target, hrun, hexact, hfirst.next hdouble hlt⟩
    · obtain ⟨hrun, hexact⟩ := doubleUntil_done maximum (fuel + 1) hloop
      rw [lt_def] at hloop
      exact ⟨start, hrun, hexact, 0, by omega, fun j hj => by omega, by omega⟩

/-- Started at the current capacity, or at the initial one of an empty container, the bound of
the loop is large enough. -/
theorem doubleUntil_start {initial capacity : Size} (hinitial : 0 < initial.toNat)
    (hmax : initial.toNat ≤ maximum.toNat) (hcap : capacity.toNat ≤ maximum.toNat)
    (hrequired : required.toNat ≤ maximum.toNat) :
    let start := if capacity = 0#64 then initial else capacity
    ∃ target, doubleUntil maximum required rounds start = some target ∧
      exactDoubleUntil maximum required rounds start = some target ∧
      FirstDoubling maximum required start target := by
  intro start
  have hstart : 0 < start.toNat ∧ start.toNat ≤ maximum.toNat := by
    by_cases he : capacity = 0#64
    · simpa only [start, if_pos he] using And.intro hinitial hmax
    · rw [size_eq_zero] at he
      simpa only [start, size_eq_zero, if_neg he] using And.intro (Nat.pos_of_ne_zero he) hcap
  apply doubleUntil_spec hrequired rounds start hstart.2
  have hword := required.isLt
  calc required.toNat ≤ 1 * 2 ^ 64 := by omega
    _ ≤ start.toNat * 2 ^ rounds := Nat.mul_le_mul_right _ hstart.1

end Laghu.CapacityGrowth
