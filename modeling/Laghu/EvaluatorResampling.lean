import Laghu.EvaluatorRegressions
import Laghu.EvaluatorPrograms

/-!
What a resample can be. A mean or a maximum of drawn samples lies between two samples of its
series, whatever the pseudo-random sequence is, and the regression of two values grows as the
baseline gets better and the candidate gets worse. So each resampled regression, and with it
both ends of the interval, lies between those of the extreme samples.
-/

namespace Laghu.Evaluator

open JsonTexts List

/-- The first value is at least as good as the second. -/
def AsGood (higherIsBetter : Bool) (left right : Word) : Prop :=
  if higherIsBetter then right.toNat ≤ left.toNat else left.toNat ≤ right.toNat

section

variable {samples : List Word}

theorem drawIndex_mem (hsamples : samples ≠ []) (state : Word) :
    samples.getD (drawIndex samples.length state).2 0 ∈ samples := by
  have hlt : (drawIndex samples.length state).2 < samples.length :=
    Nat.mod_lt _ (length_pos_of_ne_nil hsamples)
  rw [getD_eq_getElem?_getD, getElem?_eq_getElem hlt]
  exact getElem_mem hlt

variable {low high : ℕ}

theorem sampleTotal_succ (rounds : ℕ) (state total : Word) :
    sampleTotal samples (rounds + 1) state total =
      if samples.getD (drawIndex samples.length state).2 0 > maximumWord - total then
        ((drawIndex samples.length state).1, none)
      else sampleTotal samples rounds (drawIndex samples.length state).1
        (total + samples.getD (drawIndex samples.length state).2 0) := rfl

/-- Each round adds a value between the bounds. -/
theorem sampleTotal_bounds (hsamples : samples ≠ [])
    (hbounds : ∀ value ∈ samples, low ≤ value.toNat ∧ value.toNat ≤ high) {rounds : ℕ}
    {state total result : Word} (h : (sampleTotal samples rounds state total).2 = some result) :
    total.toNat + rounds * low ≤ result.toNat ∧ result.toNat ≤ total.toNat + rounds * high := by
  induction rounds generalizing state total with
  | zero =>
    cases h
    omega
  | succ rounds ih =>
    have hdrawn := hbounds _ (drawIndex_mem hsamples state)
    rw [sampleTotal_succ] at h
    split at h
    · cases h
    rename_i hf
    generalize samples.getD (drawIndex samples.length state).2 0 = value at h hdrawn hf
    have hsum : (total + value).toNat = total.toNat + value.toNat := by
      rw [show maximumWord = 18446744073709551615#64 from rfl] at hf
      bv_omega
    have hr := ih h
    rw [hsum] at hr
    rw [Nat.succ_mul, Nat.succ_mul]
    omega

/-- A total that fits is found. -/
theorem sampleTotal_isSome {rounds : ℕ} (state : Word) {total : Word} (hsamples : samples ≠ [])
    (hbound : ∀ value ∈ samples, value.toNat ≤ high) (h : total.toNat + rounds * high < 2 ^ 64) :
    (sampleTotal samples rounds state total).2.isSome = true := by
  induction rounds generalizing state total with
  | zero => rfl
  | succ rounds ih =>
    have hdrawn := hbound _ (drawIndex_mem hsamples state)
    rw [Nat.succ_mul] at h
    rw [sampleTotal_succ, if_neg (by
      rw [show maximumWord = 18446744073709551615#64 from rfl]
      bv_omega)]
    exact ih _ (by bv_omega)

theorem sampleMean_eq (samples : List Word) (state : Word)
    (h : ¬ (samples.length = 0 ∨ maximumSamples < samples.length)) :
    (sampleMean samples state).2 = (sampleTotal samples samples.length state 0#64).2.map
      fun total => total / BitVec.ofNat 64 samples.length := by
  unfold sampleMean
  rw [if_neg h]
  rfl

theorem sampleMean_bounds (hbounds : ∀ value ∈ samples, low ≤ value.toNat ∧ value.toNat ≤ high)
    {state mean : Word} (h : (sampleMean samples state).2 = some mean) :
    low ≤ mean.toNat ∧ mean.toNat ≤ high := by
  unfold sampleMean at h
  split at h
  · cases h
  rename_i hn
  have hpos : 0 < samples.length := by omega
  have hsmall : samples.length < 2 ^ 64 := by
    have hmax : maximumSamples = 1000 := rfl
    omega
  obtain ⟨total, htotal, rfl⟩ := Option.map_eq_some_iff.mp h
  have hsum := sampleTotal_bounds (ne_nil_of_length_pos hpos) hbounds htotal
  rw [BitVec.toNat_udiv, BitVec.toNat_ofNat, Nat.mod_eq_of_lt hsmall]
  rw [show (0 : Word).toNat = 0 from rfl, zero_add, zero_add] at hsum
  refine ⟨(Nat.le_div_iff_mul_le hpos).mpr ?_, Nat.div_le_of_le_mul hsum.2⟩
  rw [mul_comm]
  exact hsum.1

theorem sampleLargest_succ (rounds : ℕ) (state output : Word) :
    sampleLargest samples (rounds + 1) state output =
      sampleLargest samples rounds (drawIndex samples.length state).1
        (if samples.getD (drawIndex samples.length state).2 0 > output then
          samples.getD (drawIndex samples.length state).2 0 else output) := rfl

/-- Each round takes a value between the bounds, if it takes one. -/
theorem sampleLargest_bounds (hsamples : samples ≠ [])
    (hbounds : ∀ value ∈ samples, low ≤ value.toNat ∧ value.toNat ≤ high) (rounds : ℕ)
    (state output : Word) (hout : output.toNat ≤ high) :
    (low ≤ output.toNat ∨ 0 < rounds → low ≤ (sampleLargest samples rounds state output).2.toNat) ∧
      (sampleLargest samples rounds state output).2.toNat ≤ high := by
  induction rounds generalizing state output with
  | zero =>
    refine ⟨?_, hout⟩
    rintro (hlow | hrounds)
    · exact hlow
    · omega
  | succ rounds ih =>
    have hdrawn := hbounds _ (drawIndex_mem hsamples state)
    rw [sampleLargest_succ]
    generalize samples.getD (drawIndex samples.length state).2 0 = value at hdrawn ⊢
    have hn : low ≤ (if value > output then value else output).toNat ∧
        (if value > output then value else output).toNat ≤ high := by
      split
      · exact hdrawn
      · bv_omega
    obtain ⟨hlower, hupper⟩ := ih (drawIndex samples.length state).1 _ hn.2
    exact ⟨fun _ => hlower (.inl hn.1), hupper⟩

theorem sampleMax_bounds (hbounds : ∀ value ∈ samples, low ≤ value.toNat ∧ value.toNat ≤ high)
    {state largest : Word} (h : (sampleMax samples state).2 = some largest) :
    low ≤ largest.toNat ∧ largest.toNat ≤ high := by
  unfold sampleMax at h
  split at h
  · cases h
  rename_i hn
  have hpos : 0 < samples.length := by omega
  have hres := sampleLargest_bounds (ne_nil_of_length_pos hpos) hbounds
    samples.length state 0 (Nat.zero_le _)
  cases h
  exact ⟨hres.1 (.inr hpos), hres.2⟩

end

variable {series : MetricSeries} {state value baseline candidate : Word}

variable {metric : MetricId}

theorem drawSample_bounds {low high : ℕ}
    (hbounds : ∀ value ∈ series.values, low ≤ value.toNat ∧ value.toNat ≤ high)
    (h : (drawSample metric series state).2 = some value) :
    low ≤ value.toNat ∧ value.toNat ≤ high := by
  unfold drawSample at h
  split at h
  · exact sampleMax_bounds hbounds h
  · exact sampleMean_bounds hbounds h

/-- A resample lies between two of the samples. -/
theorem drawSample_between (h : (drawSample metric series state).2 = some value) :
    (∃ low ∈ series.values, low.toNat ≤ value.toNat) ∧
      ∃ high ∈ series.values, value.toNat ≤ high.toNat := by
  have hlow : ∃ low ∈ series.values, low.toNat ≤ value.toNat := by
    by_contra hn
    simp only [not_exists, not_and, Nat.not_le] at hn
    have hbounds := drawSample_bounds (fun sample hsample =>
      ⟨hn sample hsample, le_of_lt sample.isLt⟩) h
    exact Nat.lt_irrefl _ hbounds.1
  refine ⟨hlow, ?_⟩
  by_contra hn
  simp only [not_exists, not_and, not_le] at hn
  have hbounds := drawSample_bounds (fun sample hsample =>
    ⟨Nat.zero_le sample.toNat, Nat.le_sub_one_of_lt (hn sample hsample)⟩) h
  obtain ⟨low, hmem, _⟩ := hlow
  have := hn low hmem
  omega

/-- A resample is at least as good as some sample, and some sample is at least as good. -/
theorem drawSample_asGood (h : (drawSample metric series state).2 = some value)
    (higherIsBetter : Bool) :
    (∃ worst ∈ series.values, AsGood higherIsBetter value worst) ∧
      ∃ best ∈ series.values, AsGood higherIsBetter best value := by
  obtain ⟨hlow, hhigh⟩ := drawSample_between h
  cases higherIsBetter with
  | false => exact ⟨hhigh, hlow⟩
  | true => exact ⟨hlow, hhigh⟩

variable {higherIsBetter : Bool}

theorem AsGood.trans {a b c : Word} (hab : AsGood higherIsBetter a b)
    (hbc : AsGood higherIsBetter b c) : AsGood higherIsBetter a c := by
  cases higherIsBetter with
  | false => exact le_trans hab hbc
  | true => exact le_trans hbc hab

theorem regressionPpm_zero (candidate : Word) (higherIsBetter : Bool) :
    regressionPpm 0 candidate higherIsBetter = some (if candidate = 0 then 0
        else if higherIsBetter then unboundedImprovementPpm else unboundedRegressionPpm) := by
  unfold regressionPpm
  rw [if_pos rfl]
  split <;> rfl

variable {result : ℤ}

section

variable (h : regressionPpm baseline candidate higherIsBetter = some result)
include h

/-- A regression is a 64-bit number. -/
theorem regressionPpm_range :
    unboundedImprovementPpm ≤ result ∧ result ≤ unboundedRegressionPpm := by
  unfold unboundedImprovementPpm unboundedRegressionPpm
  by_cases hbase : baseline = 0
  · subst hbase
    rw [regressionPpm_zero] at h
    cases h
    unfold unboundedImprovementPpm unboundedRegressionPpm
    split
    · omega
    · split <;> omega
  · rw [regressionPpm_eq (by bv_omega)] at h
    split at h
    · cases h
      split <;> omega
    · cases h

/-- A candidate that is at least as good as the baseline is no regression. -/
theorem regressionPpm_nonpos (hgood : AsGood higherIsBetter candidate baseline) : result ≤ 0 := by
  by_cases hbase : baseline = 0
  · subst hbase
    rw [regressionPpm_zero] at h
    cases h
    split
    · exact le_refl 0
    rename_i hcand
    cases higherIsBetter with
    | false =>
      change candidate.toNat ≤ 0 at hgood
      exact (hcand (by bv_omega)).elim
    | true => decide
  · rw [regressionPpm_eq (by bv_omega)] at h
    have hworse : ¬ Worse higherIsBetter baseline.toNat candidate.toNat := by
      cases higherIsBetter with
      | false => exact not_lt.mpr hgood
      | true => exact not_lt.mpr hgood
    rw [if_neg hworse] at h
    split at h
    · cases h
      omega
    · cases h

/-- A baseline that is at least as good as the candidate is no improvement. -/
theorem regressionPpm_nonneg (hgood : AsGood higherIsBetter baseline candidate) : 0 ≤ result := by
  by_cases hbase : baseline = 0
  · subst hbase
    rw [regressionPpm_zero] at h
    cases h
    split
    · exact le_refl 0
    rename_i hcand
    cases higherIsBetter with
    | false => decide
    | true =>
      change candidate.toNat ≤ 0 at hgood
      exact (hcand (by bv_omega)).elim
  rw [regressionPpm_eq (by bv_omega)] at h
  split at h
  · cases h
    split
    · omega
    rename_i hworse
    have hsame : candidate.toNat = baseline.toNat := by
      cases higherIsBetter with
      | false => exact le_antisymm (not_lt.mp hworse) hgood
      | true => exact le_antisymm hgood (not_lt.mp hworse)
    unfold relativePpm
    rw [hsame, sub_self, Int.natAbs_zero, mul_zero, Nat.zero_div]
    rfl
  · cases h

end

theorem div_le_div_of_cross {x y x' y' : ℕ} (hy : 0 < y) (hy' : 0 < y')
    (h : x * y' ≤ x' * y) : x / y ≤ x' / y' := by
  rw [Nat.le_div_iff_mul_le hy']
  apply Nat.le_of_mul_le_mul_right _ hy
  calc x / y * y' * y = x / y * y * y' := Nat.mul_right_comm _ _ _
    _ ≤ x * y' := Nat.mul_le_mul_right _ (Nat.div_mul_le_self _ _)
    _ ≤ x' * y := h

section

variable {b c b' c' : ℕ}

theorem relativePpm_le (hb : 0 < b) (hb' : 0 < b')
    (h : ((c : ℤ) - b).natAbs * b' ≤ ((c' : ℤ) - b').natAbs * b) :
    relativePpm b c ≤ relativePpm b' c' := by
  apply div_le_div_of_cross hb hb'
  rw [mul_assoc, mul_assoc]
  exact Nat.mul_le_mul_left _ h

/-- Above the baseline, a larger quotient is further away. -/
theorem relativePpm_le_above (hb : 0 < b) (hb' : 0 < b') (hquotient : c * b' ≤ c' * b)
    (hc : b ≤ c) (hc' : b' ≤ c') : relativePpm b c ≤ relativePpm b' c' := by
  have habs : ((c : ℤ) - b).natAbs = c - b := by omega
  have habs' : ((c' : ℤ) - b').natAbs = c' - b' := by omega
  apply relativePpm_le hb hb'
  rw [habs, habs', Nat.sub_mul, Nat.sub_mul, mul_comm b' b]
  exact Nat.sub_le_sub_right hquotient _

/-- Below the baseline, a larger quotient is nearer. -/
theorem relativePpm_le_below (hb : 0 < b) (hb' : 0 < b') (hquotient : c * b' ≤ c' * b)
    (hc : c ≤ b) (hc' : c' ≤ b') : relativePpm b' c' ≤ relativePpm b c := by
  have habs : ((c : ℤ) - b).natAbs = b - c := by omega
  have habs' : ((c' : ℤ) - b').natAbs = b' - c' := by omega
  apply relativePpm_le hb' hb
  rw [habs, habs', Nat.sub_mul, Nat.sub_mul, mul_comm b' b]
  exact Nat.sub_le_sub_left hquotient _

end

section

variable {baseline candidate baseline' candidate' : Word} {higherIsBetter : Bool} {r r' : ℤ}

variable (h : regressionPpm baseline candidate higherIsBetter = some r)
  (h' : regressionPpm baseline' candidate' higherIsBetter = some r')
  (hbase : AsGood higherIsBetter baseline' baseline)
  (hcand : AsGood higherIsBetter candidate candidate')
include h h' hbase hcand

theorem regressionPpm_mono_positive (hpos : baseline ≠ 0) (hpos' : baseline' ≠ 0) : r ≤ r' := by
  have hb : 0 < baseline.toNat := by bv_omega
  have hb' : 0 < baseline'.toNat := by bv_omega
  rw [regressionPpm_eq hb] at h
  rw [regressionPpm_eq hb'] at h'
  split at h
  case isFalse => cases h
  split at h'
  case isFalse => cases h'
  cases h
  cases h'
  cases higherIsBetter with
  | false =>
    change baseline'.toNat ≤ baseline.toNat at hbase
    change candidate.toNat ≤ candidate'.toNat at hcand
    have hquotient := Nat.mul_le_mul hcand hbase
    change (if baseline.toNat < candidate.toNat then _ else _) ≤
      if baseline'.toNat < candidate'.toNat then _ else _
    split
    · rw [if_pos (by omega)]
      have := relativePpm_le_above hb hb' hquotient (by omega) (by omega)
      omega
    rename_i hworse
    by_cases hworse' : baseline'.toNat < candidate'.toNat
    · rw [if_pos hworse']
      omega
    rw [if_neg hworse']
    have := relativePpm_le_below hb hb' hquotient (by omega) (by omega)
    omega
  | true =>
    change baseline.toNat ≤ baseline'.toNat at hbase
    change candidate'.toNat ≤ candidate.toNat at hcand
    have hquotient := Nat.mul_le_mul hcand hbase
    change (if candidate.toNat < baseline.toNat then _ else _) ≤
      if candidate'.toNat < baseline'.toNat then _ else _
    split
    · rw [if_pos (by omega)]
      have := relativePpm_le_below hb' hb hquotient (by omega) (by omega)
      omega
    by_cases hworse' : candidate'.toNat < baseline'.toNat
    · rw [if_pos hworse']
      omega
    rw [if_neg hworse']
    have := relativePpm_le_above hb' hb hquotient (by omega) (by omega)
    omega

/-- The regression grows as the baseline gets better and the candidate gets worse. -/
theorem regressionPpm_mono : r ≤ r' := by
  by_cases hpos : baseline = 0
  · subst hpos
    rw [regressionPpm_zero] at h
    cases h
    cases higherIsBetter with
    | false =>
      obtain rfl : baseline' = 0 := by
        change baseline'.toNat ≤ 0 at hbase
        bv_omega
      rw [regressionPpm_zero] at h'
      cases h'
      by_cases h0 : candidate' = 0
      · subst h0
        rw [if_pos rfl, if_pos (by change candidate.toNat ≤ 0 at hcand; bv_omega)]
      · rw [if_neg h0]
        split <;> decide
    | true =>
      split
      · rename_i h0
        refine regressionPpm_nonneg h' ?_
        subst h0
        exact Nat.le_trans hcand (Nat.zero_le _)
      · exact (regressionPpm_range h').1
  · by_cases hpos' : baseline' = 0
    · subst hpos'
      cases higherIsBetter with
      | false =>
        rw [regressionPpm_zero] at h'
        cases h'
        split
        · rename_i h0
          refine regressionPpm_nonpos h ?_
          subst h0
          exact Nat.le_trans hcand (Nat.zero_le _)
        · exact (regressionPpm_range h).2
      | true =>
        change baseline.toNat ≤ 0 at hbase
        exact (hpos (by bv_omega)).elim
    · exact regressionPpm_mono_positive h h' hbase hcand hpos hpos'

end

/-- What a resampled regression is. -/
def Resampled (baseline candidate : MetricSeries) (metric : MetricId) (higherIsBetter : Bool)
    (sample : ℤ) : Prop :=
  ∃ state state' baselineMean candidateMean,
    (drawSample metric baseline state).2 = some baselineMean ∧
    (drawSample metric candidate state').2 = some candidateMean ∧
    regressionPpm baselineMean candidateMean higherIsBetter = some sample

section

variable {baseline candidate : MetricSeries} {metric : MetricId} {higherIsBetter : Bool}

theorem bootstrapSamples_succ (baseline candidate : MetricSeries) (metric : MetricId)
    (higherIsBetter : Bool) (iterations : ℕ) (state : Word) :
    bootstrapSamples baseline candidate metric higherIsBetter (iterations + 1) state =
      match (drawSample metric baseline state).2,
        (drawSample metric candidate (drawSample metric baseline state).1).2 with
      | some baselineMean, some candidateMean =>
        match regressionPpm baselineMean candidateMean higherIsBetter with
        | none => .error .arithmeticOverflow
        | some sample => do
          let samples ← bootstrapSamples baseline candidate metric higherIsBetter iterations
            (drawSample metric candidate (drawSample metric baseline state).1).1
          .ok (sample :: samples)
      | _, _ => .error .invalidSamples := rfl

theorem bootstrapSamples_ok {iterations : ℕ} {state : Word} {samples : List ℤ}
    (h : bootstrapSamples baseline candidate metric higherIsBetter iterations state = .ok samples) :
    samples.length = iterations ∧
      ∀ sample ∈ samples, Resampled baseline candidate metric higherIsBetter sample := by
  induction iterations generalizing state samples with
  | zero =>
    cases h
    exact ⟨rfl, forall_mem_nil _⟩
  | succ iterations ih =>
    have hstep := bootstrapSamples_succ baseline candidate metric higherIsBetter iterations state
    cases hbase : (drawSample metric baseline state).2 with
    | none =>
      rw [hstep, hbase] at h
      cases h
    | some baselineMean =>
      cases hcand : (drawSample metric candidate (drawSample metric baseline state).1).2 with
      | none =>
        rw [hstep, hbase, hcand] at h
        cases h
      | some candidateMean =>
        rw [hstep, hbase, hcand] at h
        cases hregression : regressionPpm baselineMean candidateMean higherIsBetter with
        | none =>
          simp only [hregression] at h
          cases h
        | some sample =>
          simp only [hregression] at h
          cases hr : bootstrapSamples baseline candidate metric higherIsBetter iterations
              (drawSample metric candidate (drawSample metric baseline state).1).1 with
          | error error =>
            rw [hr] at h
            cases h
          | ok rest =>
            rw [hr] at h
            cases h
            obtain ⟨hlen, hall⟩ := ih hr
            refine ⟨congrArg Nat.succ hlen, forall_mem_cons.mpr ⟨?_, hall⟩⟩
            exact ⟨_, _, baselineMean, candidateMean, hbase, hcand, hregression⟩

variable {interval : Interval}

variable (h : bootstrapInterval baseline candidate metric higherIsBetter = .ok interval)
include h

/-- The bounds of an interval are two of the resampled regressions, in their order. -/
theorem bootstrapInterval_ok :
    interval.lower ≤ interval.upper ∧
      Resampled baseline candidate metric higherIsBetter interval.lower := by
  unfold bootstrapInterval at h
  split at h
  · cases h
  split at h
  · cases h
  cases hsamples : bootstrapSamples baseline candidate metric higherIsBetter bootstrapResamples
      fixedSeed with
  | error error =>
    rw [hsamples] at h
    cases h
  | ok samples =>
    rw [hsamples] at h
    cases h
    obtain ⟨hlen, hall⟩ := bootstrapSamples_ok hsamples
    have hsorted : (samples.mergeSort (· ≤ ·)).Pairwise (· ≤ ·) :=
      pairwise_mergeSort' (· ≤ ·) samples
    have hperm := mergeSort_perm samples (· ≤ ·)
    have hlower : lowerIndex < (samples.mergeSort (· ≤ ·)).length := by
      rw [hperm.length_eq, hlen]
      decide
    have hupper : upperIndex < (samples.mergeSort (· ≤ ·)).length := by
      rw [hperm.length_eq, hlen]
      decide
    constructor
    · rw [getD_eq_getElem?_getD, getElem?_eq_getElem hlower,
        getD_eq_getElem?_getD, getElem?_eq_getElem hupper]
      exact pairwise_iff_getElem.mp hsorted _ _ hlower hupper (by decide)
    refine hall _ (hperm.mem_iff.mp ?_)
    rw [getD_eq_getElem?_getD, getElem?_eq_getElem hlower]
    exact getElem_mem hlower

/-- If no candidate is worse than any baseline, neither is a resample. -/
theorem lower_nonpos
    (hseparated : ∀ c ∈ candidate.values, ∀ b ∈ baseline.values, AsGood higherIsBetter c b) :
    interval.lower ≤ 0 := by
  obtain ⟨_, state, state', baselineMean, candidateMean, hbase, hcand, hregression⟩ :=
    bootstrapInterval_ok h
  obtain ⟨best, hbest, hbaselineGood⟩ := (drawSample_asGood hbase higherIsBetter).2
  obtain ⟨worst, hworst, hcandidateGood⟩ := (drawSample_asGood hcand higherIsBetter).1
  exact regressionPpm_nonpos hregression
    ((hcandidateGood.trans (hseparated worst hworst best hbest)).trans hbaselineGood)

/-- No resample is more favourable than the worst baseline with the best candidate. -/
theorem favourable_le_lower {b c : Word}
    (hb : ∀ value ∈ baseline.values, AsGood higherIsBetter value b)
    (hc : ∀ value ∈ candidate.values, AsGood higherIsBetter c value) {favourable : ℤ}
    (hfavourable : regressionPpm b c higherIsBetter = some favourable) :
    favourable ≤ interval.lower := by
  obtain ⟨_, state, state', baselineMean, candidateMean, hbase, hcand, hregression⟩ :=
    bootstrapInterval_ok h
  obtain ⟨worst, hworst, hbaselineGood⟩ := (drawSample_asGood hbase higherIsBetter).1
  obtain ⟨best, hbest, hcandidateGood⟩ := (drawSample_asGood hcand higherIsBetter).2
  exact regressionPpm_mono hfavourable hregression (hbaselineGood.trans (hb worst hworst))
    ((hc best hbest).trans hcandidateGood)

theorem lower_le_unbounded : interval.lower ≤ unboundedRegressionPpm := by
  obtain ⟨_, _, _, _, _, _, _, hregression⟩ := bootstrapInterval_ok h
  exact (regressionPpm_range hregression).2

end

/-- A rule is flagged when the lower bound exceeds the exact sum of what it allows. -/
theorem Rule.regression_iff {rule : Rule} {interval : Interval}
    (hthreshold : rule.allowedRegressionPpm.toNat + rule.noiseBandPpm.toNat < 2 ^ 64)
    (hlower : interval.lower ≤ unboundedRegressionPpm) :
    rule.regression interval = true ↔
      (rule.allowedRegressionPpm.toNat + rule.noiseBandPpm.toNat : ℤ) < interval.lower := by
  have hsum : rule.threshold.toNat = rule.allowedRegressionPpm.toNat + rule.noiseBandPpm.toNat := by
    unfold Rule.threshold
    rw [BitVec.toNat_add, Nat.mod_eq_of_lt hthreshold]
  unfold unboundedRegressionPpm at hlower
  unfold Rule.regression
  rw [Bool.and_eq_true, decide_eq_true_iff, decide_eq_true_iff]
  constructor
  · rintro ⟨hpos, hbound⟩
    have hv : (BitVec.ofInt 64 interval.lower).toNat = interval.lower.toNat := by
      rw [BitVec.toNat_ofInt]
      omega
    rw [gt_iff_lt, BitVec.lt_def, hv, hsum] at hbound
    omega
  intro hbound
  have hpos : 0 < interval.lower := by omega
  have hv : (BitVec.ofInt 64 interval.lower).toNat = interval.lower.toNat := by
    rw [BitVec.toNat_ofInt]
    omega
  refine ⟨hpos, ?_⟩
  rw [gt_iff_lt, BitVec.lt_def, hv, hsum]
  omega

end Laghu.Evaluator
