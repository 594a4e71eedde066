import Laghu.Contract
import Laghu.MachineIntegers

/-!
The conversion of clock readings. A reading is a second and a nanosecond within it; the instant
is their exact sum in nanoseconds, if it fits. The smallest second is only in part within reach
of a realtime instant, and its product with a billion is not, so it is counted upwards from the
smallest instant. `none` is an overflow on the way.
-/

namespace Laghu.Clocks

open Contract MachineIntegers MachineIntegers.IntegerType Option

/-- `RealtimeInstant`, and the type of both fields of a `timespec`. -/
def int64 : IntegerType := ⟨true, 64, by decide⟩

/-- `MonotonicInstant` -/
def uint64 : IntegerType := ⟨false, 64, by decide⟩

def nanosecondsPerSecond : ℤ := 1000000000

def monotonicInvalidError : Error := coreError .corruptData "CLOCK_MONOTONIC result is invalid"

def monotonicOverflowError : Error := coreError .overflow "CLOCK_MONOTONIC result overflows"

def realtimeInvalidError : Error := coreError .corruptData "CLOCK_REALTIME result is invalid"

def realtimeOverflowError : Error := coreError .overflow "CLOCK_REALTIME result overflows"

/-- What `clock_gettime` answers. -/
inductive ClockReply
  | failed (errno : ℤ)
  | time (tvSec tvNsec : int64.Value)

/-- The sum of a product and a remainder, each in the arithmetic of its type. -/
def multiplyAdd (T : IntegerType) (seconds nanoseconds : ℤ) : Option ℤ :=
  (T.multiply seconds nanosecondsPerSecond).bind fun product => T.add product nanoseconds

/-- `posix_monotonic_now`, once it has a time that is valid. -/
def monotonicInstant (seconds nanoseconds : ℤ) : Option (Result uint64.Value) :=
  (uint64.subtract uint64.maximum nanoseconds).bind fun room =>
    (uint64.divide room nanosecondsPerSecond).bind fun limit =>
      if seconds > limit then some (.error monotonicOverflowError)
      else (multiplyAdd uint64 seconds nanoseconds).map fun x => .ok (uint64.convert x)

def posixMonotonicNow : ClockReply → Option (Result uint64.Value)
  | .failed errno => some (.error (Error.fromErrno errno "CLOCK_MONOTONIC query failed"))
  | .time tvSec tvNsec =>
    if tvSec.val < 0 ∨ tvNsec.val < 0 ∨ tvNsec.val ≥ nanosecondsPerSecond then
      some (.error monotonicInvalidError)
    else monotonicInstant (uint64.convert tvSec.val).val (uint64.convert tvNsec.val).val

/-- The constants of `realtime_instant_from_parts`. -/
structure RealtimeBounds where
  maximumSeconds : ℤ
  maximumNanoseconds : ℤ
  minimumSeconds : ℤ
  minimumNanoseconds : ℤ

def realtimeBounds : Option RealtimeBounds := do
  let maximumSeconds ← int64.divide int64.maximum nanosecondsPerSecond
  let maximumNanoseconds ← int64.remainder int64.maximum nanosecondsPerSecond
  let minimumTruncatedSeconds ← int64.divide int64.minimum nanosecondsPerSecond
  let minimumRemainder ← int64.remainder int64.minimum nanosecondsPerSecond
  let minimumSeconds ← int64.subtract minimumTruncatedSeconds 1
  let minimumNanoseconds ← int64.add nanosecondsPerSecond minimumRemainder
  some ⟨maximumSeconds, maximumNanoseconds, minimumSeconds, minimumNanoseconds⟩

/-- The instant of a time within the bounds. -/
def instantWithin (bounds : RealtimeBounds) (seconds nanoseconds : ℤ) : Option ℤ :=
  if seconds = bounds.minimumSeconds then
    (int64.subtract nanoseconds bounds.minimumNanoseconds).bind fun above =>
      int64.add int64.minimum above
  else multiplyAdd int64 seconds nanoseconds

def realtimeInstantFromParts (seconds nanoseconds : int64.Value) : Option (Result int64.Value) :=
  if nanoseconds.val < 0 ∨ nanoseconds.val ≥ nanosecondsPerSecond then
    some (.error realtimeInvalidError)
  else
    realtimeBounds.bind fun bounds =>
      if seconds.val > bounds.maximumSeconds ∨
          (seconds.val = bounds.maximumSeconds ∧ nanoseconds.val > bounds.maximumNanoseconds) ∨
          seconds.val < bounds.minimumSeconds ∨
          (seconds.val = bounds.minimumSeconds ∧ nanoseconds.val < bounds.minimumNanoseconds) then
        some (.error realtimeOverflowError)
      else (instantWithin bounds seconds.val nanoseconds.val).map fun x => .ok (int64.convert x)

variable {x nanoseconds seconds : ℤ}

theorem int64_holds : int64.Holds x ↔ -9223372036854775808 ≤ x ∧ x ≤ 9223372036854775807 := Iff.rfl

theorem uint64_holds : uint64.Holds x ↔ 0 ≤ x ∧ x ≤ 18446744073709551615 := Iff.rfl

theorem realtimeBounds_eq :
    realtimeBounds = some ⟨9223372036, 854775807, -9223372037, 145224192⟩ := by
  rfl

theorem multiplyAdd_eq {T : IntegerType} (hprod : T.Holds (seconds * nanosecondsPerSecond))
    (hsum : T.Holds (seconds * nanosecondsPerSecond + nanoseconds)) :
    multiplyAdd T seconds nanoseconds = some (seconds * nanosecondsPerSecond + nanoseconds) := by
  unfold multiplyAdd IntegerType.multiply IntegerType.add
  rw [exact_of_holds hprod, bind_some, exact_of_holds hsum]

/-- A time within the bounds has an instant, and every other one overflows. -/
theorem instantWithin_eq (hlow : 0 ≤ nanoseconds) (hhigh : nanoseconds < nanosecondsPerSecond)
    (hholds : int64.Holds (seconds * nanosecondsPerSecond + nanoseconds)) :
    instantWithin ⟨9223372036, 854775807, -9223372037, 145224192⟩ seconds nanoseconds =
      some (seconds * nanosecondsPerSecond + nanoseconds) := by
  unfold nanosecondsPerSecond at hhigh hholds
  rw [int64_holds] at hholds
  unfold instantWithin
  by_cases hsmallest : seconds = -9223372037
  · have habove : int64.Holds (nanoseconds - 145224192) := int64_holds.mpr (by omega)
    have hinstant : int64.minimum + (nanoseconds - 145224192) =
        seconds * nanosecondsPerSecond + nanoseconds := by
      rw [hsmallest, show int64.minimum = -9223372036854775808 from rfl]
      unfold nanosecondsPerSecond
      omega
    rw [if_pos hsmallest, IntegerType.subtract, exact_of_holds habove,
      bind_some, IntegerType.add, hinstant]
    exact exact_of_holds (int64_holds.mpr hholds)
  · rw [if_neg hsmallest]
    refine multiplyAdd_eq (int64_holds.mpr ?_) (int64_holds.mpr hholds)
    unfold nanosecondsPerSecond
    omega

/-- The instant of two parts is their exact sum, or they are rejected. -/
theorem realtimeInstantFromParts_eq (seconds nanoseconds : int64.Value) :
    realtimeInstantFromParts seconds nanoseconds =
      some (if 0 ≤ nanoseconds.val ∧ nanoseconds.val < 1000000000 then
        if h : int64.Holds (seconds.val * 1000000000 + nanoseconds.val) then .ok ⟨_, h⟩
        else .error realtimeOverflowError
      else .error realtimeInvalidError) := by
  unfold realtimeInstantFromParts
  rw [realtimeBounds_eq, bind_some]
  dsimp only
  by_cases hv : 0 ≤ nanoseconds.val ∧ nanoseconds.val < 1000000000
  · rw [if_pos hv, if_neg (by unfold nanosecondsPerSecond; omega)]
    by_cases hholds : int64.Holds (seconds.val * 1000000000 + nanoseconds.val)
    · have hbounds := int64_holds.mp hholds
      rw [dif_pos hholds, if_neg (by omega), instantWithin_eq hv.1 hv.2 hholds, map_some]
      exact congrArg (fun x => some (Except.ok x)) (convert_of_holds hholds)
    · have hbounds := mt int64_holds.mpr hholds
      rw [dif_neg hholds, if_pos (by omega)]
  · rw [if_neg hv, if_pos (by unfold nanosecondsPerSecond; omega)]

theorem monotonicInstant_eq (hseconds : 0 ≤ seconds) (hlow : 0 ≤ nanoseconds)
    (hhigh : nanoseconds < 1000000000) :
    monotonicInstant seconds nanoseconds =
      some (if h : uint64.Holds (seconds * 1000000000 + nanoseconds) then .ok ⟨_, h⟩
        else .error monotonicOverflowError) := by
  have hmax : uint64.maximum = 18446744073709551615 := rfl
  have hr : uint64.subtract uint64.maximum nanoseconds =
      some (18446744073709551615 - nanoseconds) := by
    rw [hmax]
    exact exact_of_holds (uint64_holds.mpr (by omega))
  have hlimit : (18446744073709551615 - nanoseconds).tdiv 1000000000 =
      (18446744073709551615 - nanoseconds) / 1000000000 :=
    Int.tdiv_eq_ediv_of_nonneg (by omega)
  have hdiv : uint64.divide (18446744073709551615 - nanoseconds) nanosecondsPerSecond =
      some ((18446744073709551615 - nanoseconds) / 1000000000) := by
    rw [← hlimit]
    refine divide_of_holds (by decide) (uint64_holds.mpr ?_)
    unfold nanosecondsPerSecond
    rw [hlimit]
    omega
  unfold monotonicInstant
  rw [hr, bind_some, hdiv, bind_some]
  by_cases hholds : uint64.Holds (seconds * 1000000000 + nanoseconds)
  · have hbounds := uint64_holds.mp hholds
    rw [dif_pos hholds, if_neg (by omega), multiplyAdd_eq (uint64_holds.mpr ?_) hholds, map_some]
    · exact congrArg (fun x => some (Except.ok x)) (convert_of_holds hholds)
    · unfold nanosecondsPerSecond
      omega
  · have hbounds := mt uint64_holds.mpr hholds
    rw [dif_neg hholds, if_pos (by omega)]

theorem posixMonotonicNow_eq {tvSec tvNsec : int64.Value} (hseconds : 0 ≤ tvSec.val)
    (hlow : 0 ≤ tvNsec.val) (hhigh : tvNsec.val < 1000000000) :
    posixMonotonicNow (.time tvSec tvNsec) =
      some (if h : uint64.Holds (tvSec.val * 1000000000 + tvNsec.val) then .ok ⟨_, h⟩
        else .error monotonicOverflowError) := by
  have hsec := int64_holds.mp tvSec.property
  have hconvert {x : ℤ} (h : uint64.Holds x) : (uint64.convert x).val = x :=
    wrap_of_holds h
  rw [posixMonotonicNow, if_neg (by unfold nanosecondsPerSecond; omega),
    hconvert (uint64_holds.mpr (by omega)),
    hconvert (uint64_holds.mpr (by omega))]
  exact monotonicInstant_eq hseconds hlow hhigh

theorem realtimeInstantFromParts_ok {seconds nanoseconds instant : int64.Value}
    (h : realtimeInstantFromParts seconds nanoseconds = some (.ok instant)) :
    0 ≤ nanoseconds.val ∧ nanoseconds.val < 1000000000 ∧
      instant.val = seconds.val * 1000000000 + nanoseconds.val := by
  rw [realtimeInstantFromParts_eq] at h
  split at h
  · rename_i hv
    split at h
    · cases h
      exact ⟨hv.1, hv.2, rfl⟩
    · cases h
  · cases h

/-- Both conversions are exact, without an overflow on the way, and the realtime instants are in
the order of their parts. -/
theorem clock_conversions_exact : (∀ seconds nanoseconds : int64.Value,
      realtimeInstantFromParts seconds nanoseconds =
        some (if 0 ≤ nanoseconds.val ∧ nanoseconds.val < 1000000000 then
          if h : int64.Holds (seconds.val * 1000000000 + nanoseconds.val) then .ok ⟨_, h⟩
          else .error realtimeOverflowError
        else .error realtimeInvalidError)) ∧
    (∀ seconds nanoseconds seconds' nanoseconds' instant instant' : int64.Value,
      realtimeInstantFromParts seconds nanoseconds = some (.ok instant) →
      realtimeInstantFromParts seconds' nanoseconds' = some (.ok instant') →
      (seconds.val < seconds'.val ∨
        seconds.val = seconds'.val ∧ nanoseconds.val < nanoseconds'.val) →
      instant.val < instant'.val) ∧
    ∀ tvSec tvNsec : int64.Value, 0 ≤ tvSec.val → 0 ≤ tvNsec.val → tvNsec.val < 1000000000 →
      posixMonotonicNow (.time tvSec tvNsec) =
        some (if h : uint64.Holds (tvSec.val * 1000000000 + tvNsec.val) then .ok ⟨_, h⟩
          else .error monotonicOverflowError) := by
  refine ⟨realtimeInstantFromParts_eq, ?_, fun _ _ => posixMonotonicNow_eq⟩
  intro seconds nanoseconds seconds' nanoseconds' instant instant' h h' hbefore
  obtain ⟨_, _, hinstant⟩ := realtimeInstantFromParts_ok h
  obtain ⟨_, _, hinstant'⟩ := realtimeInstantFromParts_ok h'
  omega

theorem clock_conversions_exact_second : posixMonotonicNow (.time ⟨1, by decide⟩ ⟨5, by decide⟩) =
        some (.ok ⟨1000000005, by decide⟩) ∧
      realtimeInstantFromParts ⟨-9223372037, by decide⟩ ⟨145224192, by decide⟩ =
        some (.ok ⟨-9223372036854775808, by decide⟩) ∧
      (-9223372036854775808 : ℤ) < -9223372036854775807 :=
  ⟨clock_conversions_exact.2.2 ⟨1, by decide⟩ ⟨5, by decide⟩ (by decide) (by decide) (by decide),
    clock_conversions_exact.1 ⟨-9223372037, by decide⟩ ⟨145224192, by decide⟩,
    clock_conversions_exact.2.1 ⟨-9223372037, by decide⟩ ⟨145224192, by decide⟩
      ⟨-9223372037, by decide⟩ ⟨145224193, by decide⟩ ⟨-9223372036854775808, by decide⟩
      ⟨-9223372036854775807, by decide⟩ rfl rfl (by decide)⟩

end Laghu.Clocks
