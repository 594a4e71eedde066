import Mathlib.Algebra.Order.Ring.Int
import Mathlib.Tactic.Ring

/-!
Fixed-width integer types, signed and unsigned, and arithmetic on them that is exact or fails.
Operands narrower than `int` are computed in `int`. An operation whose result is not a value of
the type it is computed in, or that divides by zero, is `none`; a conversion takes the value
modulo the power of two of its type. Unsigned words have operations of their own that may not
wrap.
-/

namespace Laghu.MachineIntegers

structure IntegerType where
  signed : Bool
  width : ℕ
  positive : 0 < width
  deriving DecidableEq

namespace IntegerType

def minimum (T : IntegerType) : ℤ := if T.signed then -2 ^ (T.width - 1) else 0

def maximum (T : IntegerType) : ℤ := if T.signed then 2 ^ (T.width - 1) - 1 else 2 ^ T.width - 1

/-- The integers that are values of the type. -/
def Holds (T : IntegerType) (x : ℤ) : Prop := T.minimum ≤ x ∧ x ≤ T.maximum

instance (T : IntegerType) (x : ℤ) : Decidable (T.Holds x) := by
  unfold Holds
  infer_instance

abbrev Value (T : IntegerType) : Type := { x : ℤ // T.Holds x }

/-- `int` of the supported targets. -/
def int : IntegerType := ⟨true, 32, by decide⟩

/-- The type in which operands of a type are computed. -/
def promoted (T : IntegerType) : IntegerType := if T.width < 32 then int else T

/-- The result of an operation, unless it overflows. -/
def exact (T : IntegerType) (x : ℤ) : Option ℤ := if T.promoted.Holds x then some x else none

def add (T : IntegerType) (x y : ℤ) : Option ℤ := T.exact (x + y)

def subtract (T : IntegerType) (x y : ℤ) : Option ℤ := T.exact (x - y)

def multiply (T : IntegerType) (x y : ℤ) : Option ℤ := T.exact (x * y)

/-- Division rounds towards zero. -/
def divide (T : IntegerType) (x y : ℤ) : Option ℤ := if y = 0 then none else T.exact (x.tdiv y)

def remainder (T : IntegerType) (x y : ℤ) : Option ℤ :=
  if y = 0 then none else (T.divide x y).bind fun _ => T.exact (x.tmod y)

section

variable {T : IntegerType} {x y : ℤ}

theorem minimum_of_signed (h : T.signed = true) : T.minimum = -(T.maximum + 1) := by
  unfold minimum maximum
  rw [if_pos h, if_pos h, sub_add_cancel]

theorem minimum_of_unsigned (h : T.signed = false) : T.minimum = 0 := by
  unfold minimum
  rw [h]
  rfl

theorem maximum_nonneg (T : IntegerType) : 0 ≤ T.maximum := by
  have hone (n : ℕ) : (1 : ℤ) ≤ 2 ^ n := one_le_pow₀ (by decide)
  unfold maximum
  split
  · have := hone (T.width - 1)
    omega
  · have := hone T.width
    omega

theorem minimum_nonpos (T : IntegerType) : T.minimum ≤ 0 := by
  cases h : T.signed with
  | false => exact le_of_eq (minimum_of_unsigned h)
  | true =>
    have := T.maximum_nonneg
    rw [minimum_of_signed h]
    omega

/-- A value of a type is a value of the type it is computed in. -/
theorem Holds.promoted (h : T.Holds x) : T.promoted.Holds x := by
  unfold IntegerType.promoted
  split
  · rename_i hnarrow
    have hpow {n m : ℕ} (h : n ≤ m) : (2 : ℤ) ^ n ≤ 2 ^ m := pow_le_pow_right₀ (by decide) h
    have hwide := hpow (show T.width ≤ 31 by omega)
    have hhalf := hpow (show T.width - 1 ≤ 31 by omega)
    have hpos : (0 : ℤ) < 2 ^ (T.width - 1) := pow_pos (by decide) _
    obtain ⟨hlow, hhigh⟩ := h
    unfold minimum at hlow
    unfold maximum at hhigh
    change -2 ^ 31 ≤ x ∧ x ≤ 2 ^ 31 - 1
    cases hsigned : T.signed with
    | false =>
      omega
    | true =>
      omega
  · exact h

theorem exact_of_holds (h : T.Holds x) : T.exact x = some x := if_pos h.promoted

theorem divide_of_holds (hy : y ≠ 0) (h : T.Holds (x.tdiv y)) : T.divide x y = some (x.tdiv y) := by
  unfold divide
  rw [if_neg hy]
  exact exact_of_holds h

end

/-- The value of a type that an integer is, modulo its power of two. -/
def wrap (T : IntegerType) (x : ℤ) : ℤ :=
  if T.signed then x.bmod (2 ^ T.width) else x % 2 ^ T.width

theorem two_pow_width (T : IntegerType) : 2 ^ T.width = 2 * 2 ^ (T.width - 1) := by
  have hwidth : T.width = T.width - 1 + 1 := by
    have := T.positive
    omega
  rw [hwidth, pow_succ, Nat.mul_comm]
  rfl

theorem wrap_holds (T : IntegerType) (x : ℤ) : T.Holds (T.wrap x) := by
  unfold Holds minimum maximum wrap
  have hpow := T.two_pow_width
  have hpos : 0 < 2 ^ T.width := Nat.two_pow_pos _
  cases T.signed with
  | false =>
    have hcast : (0 : ℤ) < 2 ^ T.width := pow_pos (by decide) _
    have hlow := Int.emod_nonneg x (ne_of_gt hcast)
    have hhigh := Int.emod_lt_of_pos x hcast
    simp only [Bool.false_eq_true, if_false]
    omega
  | true =>
    have hlow := Int.le_bmod (x := x) hpos
    have hhigh := Int.bmod_lt (x := x) hpos
    have hcast : ((2 ^ (T.width - 1) : ℕ) : ℤ) = 2 ^ (T.width - 1) := Nat.cast_pow 2 _
    simp only [if_true]
    omega

/-- `static_cast` to a type. -/
def convert (T : IntegerType) (x : ℤ) : T.Value := ⟨T.wrap x, T.wrap_holds x⟩

theorem wrap_of_holds {T : IntegerType} {x : ℤ} (h : T.Holds x) : T.wrap x = x := by
  obtain ⟨hlow, hhigh⟩ := h
  unfold minimum at hlow
  unfold maximum at hhigh
  unfold wrap
  have hpow := T.two_pow_width
  cases hsigned : T.signed with
  | false =>
    simp only [hsigned, Bool.false_eq_true, if_false] at hlow hhigh ⊢
    exact Int.emod_eq_of_lt hlow (by omega)
  | true =>
    have hcast : ((2 ^ (T.width - 1) : ℕ) : ℤ) = 2 ^ (T.width - 1) := Nat.cast_pow 2 _
    simp only [hsigned, if_true] at hlow hhigh ⊢
    exact Int.bmod_eq_of_le (by omega) (by omega)

theorem convert_of_holds {T : IntegerType} {x : ℤ} (h : T.Holds x) : T.convert x = ⟨x, h⟩ :=
  Subtype.ext (wrap_of_holds h)

end IntegerType

/-- `&&`, whose second operand is evaluated after the first is true. -/
def both (first : Bool) (second : Option Bool) : Option Bool :=
  if first then second else some false

/-- `||`, whose second operand is evaluated after the first is false. -/
def either (first second : Option Bool) : Option Bool :=
  first.bind fun first => if first then some true else second

section

variable {p : Prop} [Decidable p]

theorem both_of (h : p) (second : Option Bool) : both (decide p) second = second := by
  rw [both, decide_eq_true h, if_pos rfl]

theorem both_of_not (h : ¬ p) (second : Option Bool) : both (decide p) second = some false := by
  rw [both, decide_eq_false h, if_neg Bool.false_ne_true]

theorem either_false (second : Option Bool) : either (some false) second = second := rfl

theorem either_second_false (first : Option Bool) : either first (some false) = first := by
  rcases first with _ | _ | _ <;> rfl

end

end Laghu.MachineIntegers

namespace Laghu.ExactWords

variable {w : ℕ} {x y z : BitVec w}

def exactAdd (x y : BitVec w) : Option (BitVec w) :=
  if x.toNat + y.toNat < 2 ^ w then some (x + y) else none

def exactSub (x y : BitVec w) : Option (BitVec w) :=
  if y.toNat ≤ x.toNat then some (x - y) else none

def exactMul (x y : BitVec w) : Option (BitVec w) :=
  if x.toNat * y.toNat < 2 ^ w then some (x * y) else none

theorem exactAdd_of_lt (h : x.toNat + y.toNat < 2 ^ w) : exactAdd x y = some (x + y) := if_pos h

theorem exactSub_of_le (h : y.toNat ≤ x.toNat) : exactSub x y = some (x - y) := if_pos h

theorem exactMul_of_lt {factor : ℕ} (hfactor : y.toNat = factor) (h : x.toNat * factor < 2 ^ w) :
    exactMul x y = some (x * y) ∧ (x * y).toNat = x.toNat * factor := by
  rw [← hfactor] at h ⊢
  exact ⟨if_pos h, by rw [BitVec.toNat_mul, Nat.mod_eq_of_lt h]⟩

/-- A product and a sum that do not wrap. -/
theorem exactMul_add {factor : ℕ} (hfactor : y.toNat = factor)
    (h : x.toNat * factor + z.toNat < 2 ^ w) :
    exactMul x y = some (x * y) ∧ exactAdd (x * y) z = some (x * y + z) ∧
      (x * y + z).toNat = x.toNat * factor + z.toNat := by
  have hprod : x.toNat * factor < 2 ^ w := Nat.lt_of_le_of_lt (Nat.le_add_right _ _) h
  obtain ⟨hexact, htoNat⟩ := exactMul_of_lt hfactor hprod
  refine ⟨hexact, exactAdd_of_lt ?_, ?_⟩
  · rw [htoNat]
    exact h
  · rw [BitVec.toNat_add, htoNat, Nat.mod_eq_of_lt h]

end Laghu.ExactWords
