import Laghu.Contract

/-!
Unsigned checked arithmetic. Each guard is written in the wrapping arithmetic
of the machine type; the lemmas say what it decides about the exact integers.
-/

namespace Laghu.CheckedArithmetic

open Contract
open BitVec (allOnes le_def lt_def toNat_allOnes)

variable {w : ℕ}

def arithmeticOverflowError : Error := coreError .overflow "checked arithmetic overflow"

def invalidRangeError : Error := coreError .invalidRange "checked range is invalid"

def checkedAdd (left right : BitVec w) : Result (BitVec w) :=
  if left > BitVec.allOnes w - right then .error arithmeticOverflowError
  else .ok (left + right)

def checkedMultiply (left right : BitVec w) : Result (BitVec w) :=
  if left = 0 ∨ right = 0 then .ok 0
  else if left > BitVec.allOnes w / right then .error arithmeticOverflowError
  else .ok (left * right)

/-- `checked_narrow` between unsigned types. -/
def checkedNarrow {v : ℕ} (value : BitVec w) : Result (BitVec v) :=
  if value.toNat < 2 ^ v then .ok (value.setWidth v) else .error arithmeticOverflowError

def checkedRange (offset length limit : BitVec w) : Result Unit :=
  if offset > limit then .error invalidRangeError
  else if length > BitVec.allOnes w - offset then .error arithmeticOverflowError
  else if length > limit - offset then .error invalidRangeError
  else .ok ()

theorem toNat_allOnes_sub (right : BitVec w) :
    (allOnes w - right).toNat = 2 ^ w - 1 - right.toNat := by
  have hright := right.isLt
  rw [BitVec.toNat_sub_of_le, toNat_allOnes]
  rw [le_def, toNat_allOnes]
  omega

/-- The sum is returned exactly when it is representable. -/
theorem checkedAdd_eq (left right : BitVec w) : checkedAdd left right =
      if left.toNat + right.toNat < 2 ^ w then .ok (left + right)
      else .error arithmeticOverflowError := by
  have hright := right.isLt
  have hguard : left > allOnes w - right ↔ ¬ left.toNat + right.toNat < 2 ^ w := by
    rw [gt_iff_lt, lt_def, toNat_allOnes_sub]
    omega
  rw [checkedAdd]
  simp only [hguard, ite_not]

theorem checkedAdd_ok {left right sum : BitVec w} (h : checkedAdd left right = .ok sum) :
    sum.toNat = left.toNat + right.toNat := by
  rw [checkedAdd_eq] at h
  split at h
  · cases h
    rw [BitVec.toNat_add, Nat.mod_eq_of_lt (by assumption)]
  · cases h

/-- The product is returned exactly when it is representable. -/
theorem checkedMultiply_eq (left right : BitVec w) : checkedMultiply left right =
      if left.toNat * right.toNat < 2 ^ w then .ok (left * right)
      else .error arithmeticOverflowError := by
  unfold checkedMultiply
  by_cases h0 : left = 0 ∨ right = 0
  · rcases h0 with rfl | rfl <;> simp [Nat.two_pow_pos]
  have hright : 0 < right.toNat := Nat.pos_of_ne_zero fun h =>
    h0 (.inr (BitVec.eq_of_toNat_eq (h.trans BitVec.toNat_zero.symm)))
  have hpow : 0 < 2 ^ w := Nat.two_pow_pos w
  have hguard : left > allOnes w / right ↔ ¬ left.toNat * right.toNat < 2 ^ w := by
    rw [gt_iff_lt, lt_def, BitVec.toNat_udiv, toNat_allOnes, Nat.div_lt_iff_lt_mul hright]
    omega
  rw [if_neg h0]
  simp only [hguard, ite_not]

theorem checkedNarrow_eq_ok {v : ℕ} (h : w ≤ v) (value : BitVec w) (n : BitVec v) :
    checkedNarrow value = .ok n ↔ n.toNat = value.toNat := by
  have hlt : value.toNat < 2 ^ v :=
    Nat.lt_of_lt_of_le value.isLt (Nat.pow_le_pow_right (by decide) h)
  rw [checkedNarrow, if_pos hlt, Except.ok.injEq, ← BitVec.toNat_inj, BitVec.toNat_setWidth,
    Nat.mod_eq_of_lt hlt]
  exact eq_comm

/-- A range check accepts exactly the ranges inside the limit. -/
theorem checkedRange_ok_iff (offset length limit : BitVec w) :
    checkedRange offset length limit = .ok () ↔ offset.toNat + length.toNat ≤ limit.toNat := by
  have hlimit := limit.isLt
  unfold checkedRange
  simp only [gt_iff_lt, lt_def, toNat_allOnes_sub]
  split
  · simp only [reduceCtorEq, false_iff]
    omega
  rw [BitVec.toNat_sub_of_le (by rw [le_def]; omega)]
  split
  · simp only [reduceCtorEq, false_iff]
    omega
  split
  · simp only [reduceCtorEq, false_iff]
    omega
  simp only [true_iff]
  omega

end Laghu.CheckedArithmetic
