import Laghu.CheckedArithmetic
import Laghu.MachineIntegers

/-!
Checked arithmetic on every integer type. The guards are computed in the arithmetic they
protect, so each of them could itself overflow or divide by zero; `none` stands for that. Each
function is shown to return what exact arithmetic says, and with it that its guards are safe.
-/

namespace Laghu.CheckedIntegers

open Contract CheckedArithmetic MachineIntegers Option MachineIntegers.IntegerType

variable {T : IntegerType}

/-- The error of a guard that finds an overflow, or else the result in its type. -/
def conclude (T : IntegerType) (overflows : Option Bool) (result : Option ℤ) :
    Option (Result T.Value) :=
  overflows.bind fun overflows =>
    if overflows then some (.error arithmeticOverflowError)
    else result.map fun x => .ok (T.convert x)

def addOverflows (T : IntegerType) (left right : ℤ) : Option Bool :=
  if T.signed then
    either
      (both (right > 0) ((T.subtract T.maximum right).map fun limit => left > limit))
      (both (right < 0) ((T.subtract T.minimum right).map fun limit => left < limit))
  else (T.subtract T.maximum right).map fun limit => left > limit

def checkedAdd (left right : T.Value) : Option (Result T.Value) :=
  conclude T (addOverflows T left.val right.val) (T.add left.val right.val)

def subtractOverflows (T : IntegerType) (left right : ℤ) : Option Bool :=
  if T.signed then
    either
      (both (right > 0) ((T.add T.minimum right).map fun limit => left < limit))
      (both (right < 0) ((T.add T.maximum right).map fun limit => left > limit))
  else some (left < right)

def checkedSubtract (left right : T.Value) : Option (Result T.Value) :=
  conclude T (subtractOverflows T left.val right.val) (T.subtract left.val right.val)

def multiplyOverflows (T : IntegerType) (left right : ℤ) : Option Bool :=
  if T.signed then
    if (left = -1 ∧ right = T.minimum) ∨ (right = -1 ∧ left = T.minimum) then some true
    else
      either
        (both (left > 0 ∧ right > 0)
          ((T.divide T.maximum right).map fun limit => left > limit)) <|
      either
        (both (left > 0 ∧ right < 0)
          ((T.divide T.minimum left).map fun limit => right < limit)) <|
      either
        (both (left < 0 ∧ right > 0)
          ((T.divide T.minimum right).map fun limit => left < limit))
        (both (left < 0 ∧ right < 0)
          ((T.divide T.maximum right).map fun limit => left < limit))
  else (T.divide T.maximum right).map fun limit => left > limit

def checkedMultiply (left right : T.Value) : Option (Result T.Value) :=
  if left.val = 0 ∨ right.val = 0 then some (.ok (T.convert 0))
  else conclude T (multiplyOverflows T left.val right.val) (T.multiply left.val right.val)

/-- `std::in_range` compares by value. -/
def inRange (To : IntegerType) (value : ℤ) : Bool := To.minimum ≤ value && value ≤ To.maximum

def checkedNarrow (To : IntegerType) {From : IntegerType} (value : From.Value) : Result To.Value :=
  if inRange To value.val = false then .error arithmeticOverflowError
  else .ok (To.convert value.val)

/-- The checks of `checked_range` that are the same for every type. -/
def checkedBounds (T : IntegerType) (offset length limit : ℤ) : Option (Result Unit) :=
  if offset > limit then some (.error invalidRangeError)
  else
    (T.subtract T.maximum offset).bind fun room =>
      if length > room then some (.error arithmeticOverflowError)
      else
        (T.subtract limit offset).map fun left =>
          if length > left then .error invalidRangeError else .ok ()

def checkedRange (offset length limit : T.Value) : Option (Result Unit) :=
  if T.signed ∧ (offset.val < 0 ∨ length.val < 0 ∨ limit.val < 0) then
    some (.error invalidRangeError)
  else checkedBounds T offset.val length.val limit.val

/-- What exact arithmetic says: the value, if the type has it. -/
def exactly (T : IntegerType) (x : ℤ) : Result T.Value :=
  if h : T.Holds x then .ok ⟨x, h⟩ else .error arithmeticOverflowError

variable {x y : ℤ}

/-- A guard that finds the overflows, and no others, is all there is to show. -/
theorem conclude_eq {overflows : Option Bool} (h : overflows = some (decide ¬ T.Holds x)) :
    conclude T overflows (T.exact x) = some (exactly T x) := by
  unfold conclude exactly
  rw [h, bind_some]
  by_cases hx : T.Holds x
  · rw [dif_pos hx, if_neg (by simpa using hx), exact_of_holds hx, map_some, convert_of_holds hx]
  · rw [dif_neg hx, if_pos (by simpa using hx)]

theorem map_subtract (h : T.minimum ≤ x - y ∧ x - y ≤ T.maximum) (compare : ℤ → Bool) :
    (T.subtract x y).map compare = some (compare (x - y)) := by
  unfold IntegerType.subtract
  rw [exact_of_holds h, map_some]

theorem map_add (h : T.minimum ≤ x + y ∧ x + y ≤ T.maximum) (compare : ℤ → Bool) :
    (T.add x y).map compare = some (compare (x + y)) := by
  unfold IntegerType.add
  rw [exact_of_holds h, map_some]

theorem map_divide (hy : y ≠ 0) (h : T.minimum ≤ x.tdiv y ∧ x.tdiv y ≤ T.maximum)
    (compare : ℤ → Bool) :
    (T.divide x y).map compare = some (compare (x.tdiv y)) := by
  rw [divide_of_holds hy h, map_some]

/-- A comparison that decides whether the type lacks a value. -/
theorem flag_eq {p : Prop} [Decidable p] (h : p ↔ ¬ (T.minimum ≤ x ∧ x ≤ T.maximum)) :
    some (decide p) = some (decide ¬ T.Holds x) := congrArg some (decide_eq_decide.mpr h)

section

variable {l r : ℤ}

/-- The guards of a signed type: each decides for one sign of the right operand. -/
theorem signed_flag_eq {above below : Option Bool} (h0 : r = 0 → T.Holds x)
    (hpos : 0 < r → above = some (decide ¬ T.Holds x))
    (hneg : r < 0 → below = some (decide ¬ T.Holds x)) :
    either (both (r > 0) above) (both (r < 0) below) = some (decide ¬ T.Holds x) := by
  rcases Int.lt_trichotomy r 0 with hr | hr | hr
  · rw [both_of_not (by omega), both_of hr, either_false, hneg hr]
  · rw [both_of_not (by omega), both_of_not (by omega), either_false, ← decide_false]
    exact flag_eq ⟨False.elim, fun h => h (h0 hr)⟩
  · rw [both_of hr, both_of_not (by omega), either_second_false, hpos hr]

theorem addOverflows_eq (hl : T.Holds l) (hr : T.Holds r) :
    addOverflows T l r = some (decide ¬ T.Holds (l + r)) := by
  have hmax := T.maximum_nonneg
  unfold IntegerType.Holds at hl hr
  unfold addOverflows
  cases hsigned : T.signed with
  | false =>
    have hmin := minimum_of_unsigned hsigned
    rw [if_neg Bool.false_ne_true, map_subtract (x := T.maximum) (y := r) (by omega)]
    exact flag_eq (by omega)
  | true =>
    have hmin := minimum_of_signed hsigned
    rw [if_pos rfl]
    refine signed_flag_eq (fun h0 => ⟨by omega, by omega⟩) (fun hpos => ?_) (fun hneg => ?_)
    · rw [map_subtract (x := T.maximum) (y := r) (by omega)]
      exact flag_eq (by omega)
    · rw [map_subtract (x := T.minimum) (y := r) (by omega)]
      exact flag_eq (by omega)

theorem subtractOverflows_eq (hl : T.Holds l) (hr : T.Holds r) :
    subtractOverflows T l r = some (decide ¬ T.Holds (l - r)) := by
  have hmax := T.maximum_nonneg
  unfold IntegerType.Holds at hl hr
  unfold subtractOverflows
  cases hsigned : T.signed with
  | false =>
    have hmin := minimum_of_unsigned hsigned
    rw [if_neg Bool.false_ne_true]
    exact flag_eq (by omega)
  | true =>
    have hmin := minimum_of_signed hsigned
    rw [if_pos rfl]
    refine signed_flag_eq (fun h0 => ⟨by omega, by omega⟩) (fun hpos => ?_) (fun hneg => ?_)
    · rw [map_add (x := T.minimum) (y := r) (by omega)]
      exact flag_eq (by omega)
    · rw [map_add (x := T.maximum) (y := r) (by omega)]
      exact flag_eq (by omega)

/-- Truncating division by a positive number, from both sides of zero. -/
theorem tdiv_nonneg_bounds {x y : ℤ} (hx : 0 ≤ x) (hy : 0 < y) :
    0 ≤ x.tdiv y ∧ x.tdiv y ≤ x ∧ ∀ n, x.tdiv y < n ↔ x < n * y := by
  rw [Int.tdiv_eq_ediv_of_nonneg hx]
  exact ⟨Int.ediv_nonneg hx (Int.le_of_lt hy), Int.ediv_le_self y hx,
    fun n => Int.ediv_lt_iff_lt_mul hy⟩

theorem tdiv_nonpos_bounds {x y : ℤ} (hx : x ≤ 0) (hy : 0 < y) :
    x ≤ x.tdiv y ∧ x.tdiv y ≤ 0 ∧ ∀ n, n < x.tdiv y ↔ n * y < x := by
  obtain ⟨hlow, hhigh, hlt⟩ := tdiv_nonneg_bounds (show 0 ≤ -x by omega) hy
  rw [Int.neg_tdiv] at hlow hhigh hlt
  refine ⟨by omega, by omega, fun n => ?_⟩
  have := hlt (-n)
  rw [neg_mul] at this
  omega

theorem tdiv_neg_bounds {x y : ℤ} (hx : 0 ≤ x) (hy : y < 0) :
    -x ≤ x.tdiv y ∧ x.tdiv y ≤ 0 ∧ ∀ n, n < x.tdiv y ↔ x < n * y := by
  obtain ⟨hlow, hhigh, hlt⟩ := tdiv_nonneg_bounds hx (show 0 < -y by omega)
  rw [Int.tdiv_neg] at hlow hhigh hlt
  refine ⟨by omega, by omega, fun n => ?_⟩
  have := hlt (-n)
  rw [neg_mul_neg] at this
  omega

theorem multiplyOverflows_unsigned (hsigned : T.signed = false) (hl : T.Holds l) (hr : T.Holds r)
    (hr0 : r ≠ 0) : multiplyOverflows T l r = some (decide ¬ T.Holds (l * r)) := by
  have hmax := T.maximum_nonneg
  have hmin := minimum_of_unsigned hsigned
  unfold IntegerType.Holds at hl hr
  have hprod := Int.mul_nonneg (show 0 ≤ l by omega) (show 0 ≤ r by omega)
  obtain ⟨hlow, hhigh, hlt⟩ := tdiv_nonneg_bounds hmax (show 0 < r by omega)
  unfold multiplyOverflows
  rw [if_neg (by rw [hsigned]; exact Bool.false_ne_true), map_divide hr0 (by omega)]
  exact flag_eq (by rw [gt_iff_lt, hlt]; omega)

/-- In each of the four cases of the signs one guard is evaluated, and the product can leave the
type at one end only. -/
theorem multiplyOverflows_signed (hsigned : T.signed = true) (hl : T.Holds l) (hr : T.Holds r)
    (hl0 : l ≠ 0) (hr0 : r ≠ 0) : multiplyOverflows T l r = some (decide ¬ T.Holds (l * r)) := by
  have hmax := T.maximum_nonneg
  have hmin := minimum_of_signed hsigned
  unfold multiplyOverflows
  rw [if_pos hsigned]
  split
  · rename_i hextreme
    have hprod : l * r = T.maximum + 1 := by
      rcases hextreme with ⟨rfl, rfl⟩ | ⟨rfl, rfl⟩
      · rw [hmin, neg_one_mul, neg_neg]
      · rw [hmin, mul_neg_one, neg_neg]
    rw [← decide_true]
    exact flag_eq ⟨fun _ h => by have := h.2; omega, fun _ => trivial⟩
  rcases Int.lt_or_gt_of_ne hl0 with hlneg | hlpos
  · rcases Int.lt_or_gt_of_ne hr0 with hrneg | hrpos
    · have hprod := Int.mul_pos_of_neg_of_neg hlneg hrneg
      obtain ⟨hlow, hhigh, hlt⟩ := tdiv_neg_bounds hmax hrneg
      rw [both_of_not (by omega), both_of_not (by omega), both_of_not (by omega),
        both_of ⟨hlneg, hrneg⟩, either_false, either_false, either_false,
        map_divide hr0 (by omega)]
      exact flag_eq (by rw [hlt]; omega)
    have hprod := Int.mul_neg_of_neg_of_pos hlneg hrpos
    obtain ⟨hlow, hhigh, hlt⟩ := tdiv_nonpos_bounds T.minimum_nonpos hrpos
    rw [both_of_not (by omega), both_of_not (by omega), both_of ⟨hlneg, hrpos⟩,
      both_of_not (by omega), either_false, either_false, either_second_false,
      map_divide hr0 (by omega)]
    exact flag_eq (by rw [hlt]; omega)
  rcases Int.lt_or_gt_of_ne hr0 with hrneg | hrpos
  · have hprod := Int.mul_neg_of_pos_of_neg hlpos hrneg
    obtain ⟨hlow, hhigh, hlt⟩ := tdiv_nonpos_bounds T.minimum_nonpos hlpos
    rw [both_of_not (by omega), both_of ⟨hlpos, hrneg⟩, both_of_not (by omega),
      both_of_not (by omega), either_false, either_false, either_second_false,
      map_divide hl0 (by omega)]
    exact flag_eq (by rw [hlt, Int.mul_comm r l]; omega)
  have hprod := Int.mul_pos hlpos hrpos
  obtain ⟨hlow, hhigh, hlt⟩ := tdiv_nonneg_bounds hmax hrpos
  rw [both_of ⟨hlpos, hrpos⟩, both_of_not (by omega), both_of_not (by omega),
    both_of_not (by omega), either_false, either_false, either_second_false,
    map_divide hr0 (by omega)]
  exact flag_eq (by rw [gt_iff_lt, hlt]; omega)

end

theorem holds_zero (T : IntegerType) : T.Holds 0 := ⟨T.minimum_nonpos, T.maximum_nonneg⟩

theorem checkedAdd_eq_exactly (left right : T.Value) :
    checkedAdd left right = some (exactly T (left.val + right.val)) :=
  conclude_eq (addOverflows_eq left.property right.property)

theorem checkedSubtract_eq_exactly (left right : T.Value) :
    checkedSubtract left right = some (exactly T (left.val - right.val)) :=
  conclude_eq (subtractOverflows_eq left.property right.property)

theorem checkedMultiply_eq_exactly (left right : T.Value) :
    checkedMultiply left right = some (exactly T (left.val * right.val)) := by
  unfold checkedMultiply
  split
  · rename_i h0
    have hprod : left.val * right.val = 0 := Int.mul_eq_zero.mpr h0
    rw [hprod, exactly, dif_pos (holds_zero T), convert_of_holds (holds_zero T)]
  rename_i h0
  rw [not_or] at h0
  refine conclude_eq ?_
  cases hsigned : T.signed with
  | false => exact multiplyOverflows_unsigned hsigned left.property right.property h0.2
  | true =>
    exact multiplyOverflows_signed hsigned left.property right.property h0.1 h0.2

theorem checkedNarrow_eq_exactly (To : IntegerType) {From : IntegerType} (value : From.Value) :
    checkedNarrow To value = exactly To value.val := by
  have hrange : inRange To value.val = decide (To.Holds value.val) :=
    (Bool.decide_and _ _).symm
  unfold checkedNarrow exactly
  by_cases h : To.Holds value.val
  · rw [dif_pos h, if_neg (by rw [hrange]; simpa using h), convert_of_holds h]
  · rw [dif_neg h, if_pos (by rw [hrange]; simpa using h)]

/-- The bounds that are checked decide whether the range lies in the limit. -/
theorem checkedBounds_eq {offset length limit : ℤ} (hoff : 0 ≤ offset) (hlen : 0 ≤ length)
    (hlimit : T.Holds limit) :
    ∃ result, checkedBounds T offset length limit = some result ∧
      (result = .ok () ↔ offset + length ≤ limit) := by
  have hmin := T.minimum_nonpos
  unfold IntegerType.Holds at hlimit
  unfold checkedBounds
  split
  · exact ⟨_, rfl, (fun h => by cases h), fun h => by omega⟩
  have hr : T.subtract T.maximum offset = some (T.maximum - offset) :=
    exact_of_holds ⟨by omega, by omega⟩
  have hleft : T.subtract limit offset = some (limit - offset) :=
    exact_of_holds ⟨by omega, by omega⟩
  rw [hr, bind_some, hleft, map_some]
  split
  · exact ⟨_, rfl, (fun h => by cases h), fun h => by omega⟩
  refine ⟨_, rfl, ?_⟩
  split
  · exact ⟨(fun h => by cases h), fun h => by omega⟩
  · exact ⟨fun _ => by omega, fun _ => rfl⟩

theorem checkedRange_iff (offset length limit : T.Value) :
    ∃ result, checkedRange offset length limit = some result ∧
      (result = .ok () ↔ 0 ≤ offset.val ∧ 0 ≤ length.val ∧ 0 ≤ limit.val ∧
        offset.val + length.val ≤ limit.val) := by
  unfold checkedRange
  split
  · exact ⟨_, rfl, (fun h => by cases h), fun h => by omega⟩
  rename_i hneg
  have hnonneg : 0 ≤ offset.val ∧ 0 ≤ length.val ∧ 0 ≤ limit.val := by
    cases hsigned : T.signed with
    | false =>
      have hmin := minimum_of_unsigned hsigned
      have hoff := offset.property.1
      have hlen := length.property.1
      have hlimit := limit.property.1
      omega
    | true =>
      rw [hsigned] at hneg
      simp only [true_and, not_or, Int.not_lt] at hneg
      exact hneg
  obtain ⟨result, hres, hok⟩ := checkedBounds_eq hnonneg.1 hnonneg.2.1 limit.property
  refine ⟨result, hres, ?_⟩
  rw [hok]
  omega

/-- Each function returns what exact arithmetic says, on every integer type; the guards neither
overflow nor divide by zero. -/
theorem checked_arithmetic_exact (T : IntegerType) : (∀ left right : T.Value,
      checkedAdd left right = some (exactly T (left.val + right.val)) ∧
      checkedSubtract left right = some (exactly T (left.val - right.val)) ∧
      checkedMultiply left right = some (exactly T (left.val * right.val))) ∧
    (∀ (From : IntegerType) (value : From.Value), checkedNarrow T value = exactly T value.val) ∧
    ∀ offset length limit : T.Value, ∃ result, checkedRange offset length limit = some result ∧
        (result = .ok () ↔ 0 ≤ offset.val ∧ 0 ≤ length.val ∧ 0 ≤ limit.val ∧
          offset.val + length.val ≤ limit.val) :=
  ⟨fun left right => ⟨checkedAdd_eq_exactly left right, checkedSubtract_eq_exactly left right,
    checkedMultiply_eq_exactly left right⟩,
    fun _ value => checkedNarrow_eq_exactly T value, checkedRange_iff⟩

section

variable {w : ℕ} [NeZero w]

/-- The unsigned type of a width. -/
def unsigned (w : ℕ) [NeZero w] : IntegerType := ⟨false, w, Nat.pos_of_neZero w⟩

theorem unsigned_holds {x : ℕ} : (unsigned w).Holds x ↔ x < 2 ^ w := by
  have hmax : (unsigned w).maximum = ((2 ^ w : ℕ) : ℤ) - 1 := by
    rw [Nat.cast_pow]
    rfl
  have hmin : (unsigned w).minimum = 0 := rfl
  unfold IntegerType.Holds
  omega

def ofWord (word : BitVec w) : (unsigned w).Value := ⟨word.toNat, unsigned_holds.mpr word.isLt⟩

theorem exactly_word {x : ℕ} {word : BitVec w} (h : x < 2 ^ w → word.toNat = x) :
    exactly (unsigned w) x =
      (if x < 2 ^ w then Except.ok word else .error arithmeticOverflowError).map ofWord := by
  unfold exactly
  by_cases hf : x < 2 ^ w
  · rw [dif_pos (unsigned_holds.mpr hf), if_pos hf]
    exact congrArg Except.ok (Subtype.ext (congrArg Nat.cast (h hf).symm) : _ = ofWord word)
  · rw [dif_neg (fun hholds => hf (unsigned_holds.mp hholds)), if_neg hf]
    rfl

/-- The functions on machine words are these at the unsigned types. -/
theorem checked_word {v : ℕ} [NeZero v] (left right limit : BitVec w) :
    checkedAdd (ofWord left) (ofWord right) =
      some ((CheckedArithmetic.checkedAdd left right).map ofWord) ∧
    checkedMultiply (ofWord left) (ofWord right) =
      some ((CheckedArithmetic.checkedMultiply left right).map ofWord) ∧
    checkedNarrow (unsigned v) (ofWord left) =
      (CheckedArithmetic.checkedNarrow left : Result (BitVec v)).map ofWord ∧
    ∃ result, checkedRange (ofWord left) (ofWord right) (ofWord limit) = some result ∧
      (result = .ok () ↔ CheckedArithmetic.checkedRange left right limit = .ok ()) := by
  refine ⟨?_, ?_, ?_, ?_⟩
  · rw [checkedAdd_eq_exactly, CheckedArithmetic.checkedAdd_eq]
    refine congrArg some (exactly_word (x := left.toNat + right.toNat) fun h => ?_)
    rw [BitVec.toNat_add, Nat.mod_eq_of_lt h]
  · rw [checkedMultiply_eq_exactly, CheckedArithmetic.checkedMultiply_eq]
    refine congrArg some (exactly_word (x := left.toNat * right.toNat) fun h => ?_)
    rw [BitVec.toNat_mul, Nat.mod_eq_of_lt h]
  · rw [checkedNarrow_eq_exactly, CheckedArithmetic.checkedNarrow]
    refine exactly_word (x := left.toNat) fun h => ?_
    rw [BitVec.toNat_setWidth, Nat.mod_eq_of_lt h]
  obtain ⟨result, hres, hok⟩ := checkedRange_iff (ofWord left) (ofWord right) (ofWord limit)
  refine ⟨result, hres, ?_⟩
  rw [hok, CheckedArithmetic.checkedRange_ok_iff]
  change 0 ≤ (left.toNat : ℤ) ∧ 0 ≤ (right.toNat : ℤ) ∧ 0 ≤ (limit.toNat : ℤ) ∧
    (left.toNat : ℤ) + right.toNat ≤ limit.toNat ↔ _
  omega

end

end Laghu.CheckedIntegers
