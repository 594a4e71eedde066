import Laghu.Contract
import Mathlib.Data.List.Nodup
import Mathlib.Order.Bounds.Basic

/-!
The percentiles of a benchmark. The samples are sorted in place by selection, and a
percentile is read at its nearest rank. The sorted array is a permutation of the samples,
so the value at a rank is the least sample that is not exceeded by that many samples.
-/

namespace Laghu.BenchmarkMetrics

open Contract List BitVec

structure Percentiles where
  p50 : BitVec 64 := 0#64
  p95 : BitVec 64 := 0#64
  p99 : BitVec 64 := 0#64
  p999 : BitVec 64 := 0#64

def nearestRankIndex (sampleCount : Size) (perMille : BitVec 64) : Size :=
  if sampleCount = 0#64 ∨ perMille = 0#64 ∨ perMille > 1000#64 then 0#64
  else (sampleCount * perMille + 999#64) / 1000#64 - 1#64

/-- The inner loop of `summarize_percentiles`, with the number of rounds that are left.
An array is a function of the index. -/
def minimumFrom (samples : ℕ → BitVec 64) (minimum right : ℕ) : ℕ → ℕ
  | 0 => minimum
  | rounds + 1 =>
    minimumFrom samples (if samples right < samples minimum then right else minimum) (right + 1)
      rounds

def exchange (samples : ℕ → BitVec 64) (left minimum : ℕ) : ℕ → BitVec 64 :=
  Function.update (Function.update samples left (samples minimum)) minimum (samples left)

/-- The outer loop. -/
def sortFrom (samples : ℕ → BitVec 64) (left : ℕ) : ℕ → ℕ → BitVec 64
  | 0 => samples
  | rounds + 1 =>
    sortFrom (exchange samples left (minimumFrom samples left (left + 1) rounds)) (left + 1) rounds

/-- `none` is the answer `false`; otherwise the output and the array. -/
def summarizePercentiles (capacity : Size) (samples : ℕ → BitVec 64) (count : Size) :
    Option (Percentiles × (ℕ → BitVec 64)) :=
  if count = 0#64 ∨ count > capacity then none
  else
    let sorted := sortFrom samples 0 count.toNat
    some
      ({ p50 := sorted (nearestRankIndex count 500#64).toNat
         p95 := sorted (nearestRankIndex count 950#64).toNat
         p99 := sorted (nearestRankIndex count 990#64).toNat
         p999 := sorted (nearestRankIndex count 999#64).toNat }, sorted)

variable {samples : ℕ → BitVec 64} {left minimum : ℕ} {count : Size}

theorem minimumFrom_spec (samples : ℕ → BitVec 64) (minimum right rounds : ℕ) :
    (minimumFrom samples minimum right rounds = minimum ∨
      right ≤ minimumFrom samples minimum right rounds ∧
        minimumFrom samples minimum right rounds < right + rounds) ∧
    samples (minimumFrom samples minimum right rounds) ≤ samples minimum ∧
    ∀ j, right ≤ j → j < right + rounds →
      samples (minimumFrom samples minimum right rounds) ≤ samples j := by
  induction rounds generalizing minimum right with
  | zero => exact ⟨.inl rfl, BitVec.le_refl _, fun j hj hlt => by omega⟩
  | succ rounds ih =>
    rw [minimumFrom]
    split
    · rename_i hless
      obtain ⟨hplace, hright, hrest⟩ := ih right (right + 1)
      refine ⟨by omega, BitVec.le_trans hright (BitVec.le_of_lt hless), fun j hj hlt => ?_⟩
      rcases Nat.eq_or_lt_of_le hj with rfl | hj
      · exact hright
      · exact hrest j hj (by omega)
    rename_i hless
    obtain ⟨hplace, hminimum, hrest⟩ := ih minimum (right + 1)
    refine ⟨by omega, hminimum, fun j hj hlt => ?_⟩
    rcases Nat.eq_or_lt_of_le hj with rfl | hj
    · exact BitVec.le_trans hminimum (BitVec.not_lt.mp hless)
    · exact hrest j hj (by omega)

theorem exchange_eq : exchange samples left minimum = samples ∘ Equiv.swap minimum left :=
  (Equiv.comp_swap_eq_update minimum left samples).symm

theorem exchange_perm {n : ℕ} (hplace : left ≤ minimum) (hlt : minimum < left + n) :
    ((range' left n).map (exchange samples left minimum)).Perm ((range' left n).map samples) := by
  rw [exchange_eq, ← List.map_map]
  apply Perm.map
  have hnodup : (range' left n).Nodup := nodup_range'
  rw [perm_ext_iff_of_nodup (hnodup.map (Equiv.injective _)) hnodup]
  intro i
  rw [mem_map_of_involutive (Equiv.swap_apply_self minimum left), mem_range'_1, mem_range'_1,
    Equiv.swap_apply_def]
  split_ifs <;> omega

/-- What the outer loop has done when `rounds` rounds were left at `left`. -/
theorem sortFrom_spec (samples : ℕ → BitVec 64) (left rounds : ℕ) :
    (∀ i, i < left ∨ left + rounds ≤ i → sortFrom samples left rounds i = samples i) ∧
    ((range' left rounds).map (sortFrom samples left rounds)).Perm
      ((range' left rounds).map samples) ∧
    ((range' left rounds).map (sortFrom samples left rounds)).Pairwise (· ≤ ·) := by
  induction rounds generalizing samples left with
  | zero => exact ⟨fun _ _ => rfl, .nil, .nil⟩
  | succ rounds ih =>
    rw [sortFrom, range'_succ, map_cons, pairwise_cons]
    obtain ⟨hplace, hself, hleast⟩ := minimumFrom_spec samples left (left + 1) rounds
    generalize minimumFrom samples left (left + 1) rounds = m at *
    obtain ⟨hout, hperm, hsorted⟩ := ih (exchange samples left m) (left + 1)
    have hhead : exchange samples left m left = samples m := by
      rw [exchange_eq, Function.comp_apply, Equiv.swap_apply_right]
    have hexchanged : (exchange samples left m left ::
        (range' (left + 1) rounds).map (exchange samples left m)).Perm
          ((range' left (rounds + 1)).map samples) :=
      exchange_perm (n := rounds + 1) (by omega) (by omega)
    rw [hout left (.inl (Nat.lt_succ_self _))]
    refine ⟨fun i hi => ?_, (hperm.cons _).trans hexchanged, fun x hx => ?_, hsorted⟩
    · rw [hout i (by omega), exchange_eq, Function.comp_apply,
        Equiv.swap_apply_of_ne_of_ne (by omega) (by omega)]
    have hmem := hexchanged.subset (mem_cons_of_mem _ (hperm.subset hx))
    obtain ⟨j, hj, rfl⟩ := mem_map.mp hmem
    rw [mem_range'_1] at hj
    rw [hhead]
    rcases Nat.eq_or_lt_of_le hj.1 with rfl | hlt
    · exact hself
    · exact hleast j hlt (by omega)

/-- In a sorted list an element is at most `v` exactly when one more than stand before it
are at most `v`. -/
theorem countP_sorted {before after : List (BitVec 64)} {x v : BitVec 64}
    (hsorted : (before ++ x :: after).Pairwise (· ≤ ·)) :
    before.length + 1 ≤ (before ++ x :: after).countP (· ≤ v) ↔ x ≤ v := by
  obtain ⟨_, hafter, hbefore⟩ := pairwise_append.mp hsorted
  rw [countP_append, countP_cons]
  by_cases hx : x ≤ v
  · have hall : before.countP (· ≤ v) = before.length := countP_eq_length.mpr fun a ha =>
      decide_eq_true (BitVec.le_trans (hbefore a ha x mem_cons_self) hx)
    rw [hall, if_pos (decide_eq_true hx)]
    exact iff_of_true (by omega) hx
  have hnone : after.countP (· ≤ v) = 0 := by
    refine countP_eq_zero.mpr fun a ha hle => hx ?_
    exact BitVec.le_trans ((pairwise_cons.mp hafter).1 a ha) (of_decide_eq_true hle)
  have hle : before.countP (· ≤ v) ≤ before.length := countP_le_length
  rw [hnone, if_neg (by simpa using hx)]
  exact iff_of_false (by omega) hx

theorem nearestRankIndex_spec {p : BitVec 64} (hpos : count ≠ 0#64)
    (hrep : count.toNat * 1000 < 2 ^ 64) (hp : p ≠ 0#64) (hle : p ≤ 999#64) :
    (nearestRankIndex count p).toNat + 1 = (count.toNat * p.toNat + 999) / 1000 ∧
      (nearestRankIndex count p).toNat < count.toNat := by
  rw [ne_eq, size_eq_zero] at hpos hp
  have hlow := Nat.le_mul_of_pos_right count.toNat (Nat.pos_of_ne_zero hp)
  have hhigh := Nat.mul_le_mul_left count.toNat (show p.toNat ≤ 999 from hle)
  have hproduct : (count * p).toNat = count.toNat * p.toNat := by
    rw [toNat_mul, Nat.mod_eq_of_lt (by omega)]
  rw [nearestRankIndex, if_neg (by bv_omega), ← hproduct]
  rw [← hproduct] at hlow hhigh
  generalize count * p = product at *
  simp only [toNat_sub, toNat_udiv, toNat_add, toNat_ofNat,
    Nat.reducePow, Nat.reduceMod, Nat.reduceSub]
  omega

/-- `v` is the nearest-rank percentile of the samples. -/
def IsPercentile (l : List (BitVec 64)) (perMille : ℕ) (v : BitVec 64) : Prop :=
  IsLeast {v | v ∈ l ∧ (l.length * perMille + 999) / 1000 ≤ l.countP (· ≤ v)} v

theorem IsPercentile.mono {l : List (BitVec 64)} {p q : ℕ} {v u : BitVec 64}
    (hv : IsPercentile l p v) (hu : IsPercentile l q u) (h : p ≤ q) : v ≤ u := by
  refine hv.2 ⟨hu.1.1, le_trans (Nat.div_le_div_right ?_) hu.1.2⟩
  exact Nat.add_le_add_right (Nat.mul_le_mul_left _ h) _

/-- The samples in use. -/
def firstSamples (samples : ℕ → BitVec 64) (count : Size) : List (BitVec 64) :=
  (range' 0 count.toNat).map samples

theorem sortFrom_percentile (samples : ℕ → BitVec 64) (p : BitVec 64) (hpos : count ≠ 0#64)
    (hrep : count.toNat * 1000 < 2 ^ 64) (hp : p ≠ 0#64) (hle : p ≤ 999#64) :
    IsPercentile (firstSamples samples count) p.toNat
      (sortFrom samples 0 count.toNat (nearestRankIndex count p).toNat) := by
  obtain ⟨hrank, hlt⟩ := nearestRankIndex_spec hpos hrep hp hle
  obtain ⟨-, hperm, hsorted⟩ := sortFrom_spec samples 0 count.toNat
  unfold IsPercentile firstSamples
  rw [length_map, length_range', ← hrank]
  generalize (nearestRankIndex count p).toNat = k at *
  generalize sortFrom samples 0 count.toNat = sorted at *
  have hsplit := range'_append_1 (s := 0) (m := k) (n := count.toNat - k - 1 + 1)
  rw [Nat.zero_add, show k + (count.toNat - k - 1 + 1) = count.toNat by omega,
    range'_succ] at hsplit
  have hcount : ∀ v,
      k + 1 ≤ ((range' 0 count.toNat).map samples).countP (· ≤ v) ↔ sorted k ≤ v := by
    intro v
    rw [← hsplit, map_append, map_cons] at hsorted
    rw [← hperm.countP_eq, ← hsplit, map_append, map_cons, ← countP_sorted hsorted, length_map,
      length_range']
  refine ⟨⟨hperm.subset (mem_map_of_mem ?_), (hcount _).mpr (BitVec.le_refl _)⟩, ?_⟩
  · exact mem_range'_1.mpr ⟨Nat.zero_le k, by omega⟩
  · exact fun v hv => (hcount v).mp hv.2

/-- For every array, count and contents, the samples are sorted in place, and each
percentile is the least sample that as many samples as its rank do not exceed. -/
theorem summarize_percentiles_nearest_rank (capacity : Size) (samples : ℕ → BitVec 64)
    (hpos : count ≠ 0#64) (hle : count ≤ capacity) (hrep : count.toNat * 1000 < 2 ^ 64) :
    ∃ output sorted, summarizePercentiles capacity samples count = some (output, sorted) ∧
      (firstSamples sorted count).Perm (firstSamples samples count) ∧
      (firstSamples sorted count).Pairwise (· ≤ ·) ∧
      (∀ i, count.toNat ≤ i → sorted i = samples i) ∧
      IsPercentile (firstSamples samples count) 500 output.p50 ∧
      IsPercentile (firstSamples samples count) 950 output.p95 ∧
      IsPercentile (firstSamples samples count) 990 output.p99 ∧
      IsPercentile (firstSamples samples count) 999 output.p999 ∧
      output.p50 ≤ output.p95 ∧ output.p95 ≤ output.p99 ∧ output.p99 ≤ output.p999 ∧
      ∀ p ∈ [500#64, 950#64, 990#64, 999#64], (nearestRankIndex count p).toNat < count.toNat := by
  have h50 := sortFrom_percentile samples 500#64 hpos hrep (by decide) (by decide)
  have h95 := sortFrom_percentile samples 950#64 hpos hrep (by decide) (by decide)
  have h99 := sortFrom_percentile samples 990#64 hpos hrep (by decide) (by decide)
  have h999 := sortFrom_percentile samples 999#64 hpos hrep (by decide) (by decide)
  obtain ⟨hout, hperm, hsorted⟩ := sortFrom_spec samples 0 count.toNat
  refine ⟨_, _, if_neg (not_or.mpr ⟨hpos, BitVec.not_lt.mpr hle⟩), hperm, hsorted,
    fun i hi => hout i (.inr (by omega)), h50, h95, h99, h999, h50.mono h95 (by decide),
    h95.mono h99 (by decide), h99.mono h999 (by decide), fun p hp => ?_⟩
  have hranks : ∀ p ∈ [500#64, 950#64, 990#64, 999#64], p ≠ 0#64 ∧ p ≤ 999#64 := by simp
  exact (nearestRankIndex_spec hpos hrep (hranks p hp).1 (hranks p hp).2).2

theorem summarize_percentiles_nearest_rank_three : (3#64).toNat * 1000 < 2 ^ 64 ∧
    ∃ output sorted, summarizePercentiles 4#64 (BitVec.ofNat 64 <| 7 - ·) 3#64 =
      some (output, sorted) ∧ output.p50 ≤ output.p95 := by
  have hrep : (3#64).toNat * 1000 < 2 ^ 64 := by decide
  obtain ⟨output, sorted, hrun, _, _, _, _, _, _, _, hle, _⟩ :=
    summarize_percentiles_nearest_rank 4#64 (BitVec.ofNat 64 <| 7 - ·) (by decide) (by decide) hrep
  exact ⟨hrep, output, sorted, hrun, hle⟩

end Laghu.BenchmarkMetrics
