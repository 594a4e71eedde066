import Laghu.ShiftRegisters
import Mathlib.Algebra.Polynomial.Div
import Mathlib.Algebra.Field.ZMod

/-!
Shift registers as polynomial division over the field of two elements. The register holds a
polynomial in reverse, its low bit the highest coefficient, so that a step multiplies by `X` and
takes off the generator when the degree reaches its own. What a register holds after it has
absorbed a message is the remainder of the message, shifted up by the width of the register.
-/

namespace Laghu.CrcPolynomials

open Polynomial ShiftRegisters Finset
open BitVec (getLsbD_of_ge getLsbD_reverse getLsbD_xor getMsbD)

variable {w k : ℕ}

def bit (b : Bool) : ZMod 2 := if b then 1 else 0

theorem bit_xor (a b : Bool) : bit (a ^^ b) = bit a + bit b := by
  revert a b
  decide

/-- The polynomial whose coefficients are the bits of a word. -/
noncomputable def ofWord (v : BitVec w) : (ZMod 2)[X] :=
  ∑ i : Fin w, C (bit (v.getLsbD i)) * X ^ (i : ℕ)

theorem coeff_ofWord (v : BitVec w) (n : ℕ) : (ofWord v).coeff n = bit (v.getLsbD n) := by
  unfold ofWord
  rw [finsetSum_coeff]
  simp only [coeff_C_mul_X_pow]
  by_cases h : n < w
  · rw [sum_eq_single ⟨n, h⟩]
    · exact if_pos rfl
    · intro i _ hi
      exact if_neg fun hn => hi (Fin.ext hn.symm)
    · intro hmem
      exact (hmem (mem_univ _)).elim
  rw [getLsbD_of_ge v n (by omega)]
  apply sum_eq_zero
  intro i _
  apply if_neg
  rintro rfl
  exact h i.isLt

theorem degree_ofWord_lt (v : BitVec w) : (ofWord v).degree < w := degree_sum_fin_lt _

/-- The monic polynomial whose lower coefficients are the bits of a word. -/
noncomputable def generator (p : BitVec w) : (ZMod 2)[X] := X ^ w + ofWord p

theorem generator_monic (p : BitVec w) : (generator p).Monic :=
  monic_X_pow_add (degree_ofWord_lt p)

theorem degree_generator (p : BitVec w) : (generator p).degree = w := by
  unfold generator
  rw [degree_add_eq_left_of_degree_lt, degree_X_pow]
  rw [degree_X_pow]
  exact degree_ofWord_lt p

/-- What a register holds. -/
noncomputable def register (s : BitVec w) : (ZMod 2)[X] := ofWord s.reverse

theorem coeff_register (s : BitVec w) (n : ℕ) :
    (register s).coeff n = bit (decide (n < w) && s.getLsbD (w - 1 - n)) := by
  unfold register
  rw [coeff_ofWord, getLsbD_reverse, getMsbD]

theorem register_xor (a b : BitVec w) : register (a ^^^ b) = register a + register b := by
  ext n
  rw [coeff_add, coeff_register, coeff_register, coeff_register, getLsbD_xor, ← bit_xor]
  cases decide (n < w) <;> rfl

theorem coeff_generator (p : BitVec w) (n : ℕ) :
    (generator p).coeff n = (if n = w then 1 else 0) + bit (p.getLsbD n) := by
  unfold generator
  rw [coeff_add, coeff_X_pow, coeff_ofWord]

theorem getLsbD_step (p s : BitVec w) (i : ℕ) : (step p.reverse s).getLsbD i =
      (s.getLsbD (1 + i) ^^ (s.getLsbD 0 && (decide (i < w) && p.getLsbD (w - 1 - i)))) := by
  unfold step
  rw [getLsbD_xor, BitVec.getLsbD_ushiftRight]
  cases s.getLsbD 0 with
  | false => simp
  | true =>
    rw [if_pos rfl, getLsbD_reverse, getMsbD, Bool.true_and]

theorem bit_and (a b : Bool) : bit (a && b) = bit a * bit b := by
  revert a b
  decide

/-- A step multiplies by `X` and takes off the generator when a one falls out. -/
theorem register_step (hw : 0 < w) (p s : BitVec w) :
    register (step p.reverse s) = X * register s + C (bit (s.getLsbD 0)) * generator p := by
  ext n
  rw [coeff_register, coeff_add, coeff_C_mul, coeff_generator, getLsbD_step]
  have hlow : (X * register s).coeff n = bit (decide (0 < n ∧ n ≤ w) && s.getLsbD (w - n)) := by
    cases n with
    | zero =>
      rw [coeff_X_mul_zero]
      rfl
    | succ n =>
      rw [coeff_X_mul, coeff_register, Nat.sub_sub, add_comm 1 n]
      have hiff : (n < w) = (0 < n + 1 ∧ n + 1 ≤ w) := by
        apply propext
        omega
      rw [decide_eq_decide.mpr (Iff.of_eq hiff)]
  rw [hlow]
  rcases Nat.lt_trichotomy n w with hn | rfl | hn
  · have hshift : (decide (0 < n ∧ n ≤ w) && s.getLsbD (w - n)) = s.getLsbD (w - n) := by
      by_cases h0 : n = 0
      · subst h0
        rw [Nat.sub_zero, getLsbD_of_ge s w (le_refl w), Bool.and_false]
      · rw [decide_eq_true ⟨Nat.pos_of_ne_zero h0, le_of_lt hn⟩, Bool.true_and]
    rw [hshift, if_neg (ne_of_lt hn), zero_add, ← bit_and, ← bit_xor, decide_eq_true hn,
      decide_eq_true (show w - 1 - n < w by omega), Bool.true_and, Bool.true_and,
      show 1 + (w - 1 - n) = w - n by omega, show w - 1 - (w - 1 - n) = n by omega]
  · rw [decide_eq_false (lt_irrefl n), Bool.false_and, decide_eq_true ⟨hw, le_refl n⟩,
      Bool.true_and, Nat.sub_self, if_pos rfl, getLsbD_of_ge p n (le_refl n)]
    cases s.getLsbD 0 <;> rfl
  rw [decide_eq_false (by omega), Bool.false_and, decide_eq_false (by omega), Bool.false_and,
    if_neg (by omega), getLsbD_of_ge p n (by omega)]
  cases s.getLsbD 0 <;> rfl

/-- The same remainder. -/
def Congruent (p : BitVec w) (a b : (ZMod 2)[X]) : Prop := generator p ∣ a - b

variable {p : BitVec w} {a b : (ZMod 2)[X]}

theorem Congruent.trans {c : (ZMod 2)[X]} (hab : Congruent p a b) (hbc : Congruent p b c) :
    Congruent p a c := by
  have h := dvd_add hab hbc
  rwa [sub_add_sub_cancel] at h

theorem Congruent.mul_left (h : Congruent p a b) (c : (ZMod 2)[X]) :
    Congruent p (c * a) (c * b) := by
  unfold Congruent
  rw [← mul_sub]
  exact Dvd.dvd.mul_left h c

theorem Congruent.add_right (h : Congruent p a b) (c : (ZMod 2)[X]) :
    Congruent p (a + c) (b + c) := by
  unfold Congruent
  rw [add_sub_add_right_eq_sub]
  exact h

theorem iterate_step (hw : 0 < w) (p s : BitVec w) (n : ℕ) :
    Congruent p (register ((step p.reverse)^[n] s)) (X ^ n * register s) := by
  induction n generalizing s with
  | zero =>
    rw [pow_zero, one_mul]
    exact ⟨0, by rw [mul_zero]; exact sub_self _⟩
  | succ n ih =>
    rw [Function.iterate_succ_apply]
    refine (ih (step p.reverse s)).trans ?_
    refine ⟨X ^ n * C (bit (s.getLsbD 0)), ?_⟩
    rw [register_step hw]
    ring

/-- A symbol at the low end of a register, its low bit first. -/
theorem register_setWidth (hk : k ≤ w) (symbol : BitVec k) :
    register (symbol.setWidth w) = X ^ (w - k) * ofWord symbol.reverse := by
  ext n
  rw [coeff_register, coeff_X_pow_mul', coeff_ofWord, getLsbD_reverse, getMsbD,
    BitVec.getLsbD_setWidth]
  by_cases hlow : w - k ≤ n
  · rw [if_pos hlow]
    by_cases hhigh : n < w
    · rw [decide_eq_true hhigh, decide_eq_true (show w - 1 - n < w by omega),
        decide_eq_true (show n - (w - k) < k by omega), Bool.true_and, Bool.true_and,
        Bool.true_and, show k - 1 - (n - (w - k)) = w - 1 - n by omega]
    · rw [decide_eq_false hhigh, decide_eq_false (show ¬ n - (w - k) < k by omega),
        Bool.false_and, Bool.false_and]
  · rw [if_neg hlow, getLsbD_of_ge symbol (w - 1 - n) (by omega), Bool.and_false,
      Bool.and_false]
    rfl

/-- A message, each symbol at its place, its low bit first. -/
noncomputable def message : List (BitVec k) → (ZMod 2)[X]
  | [] => 0
  | symbol :: rest => X ^ (k * rest.length) * ofWord symbol.reverse + message rest

/-- A register absorbs a message by long division. -/
theorem register_absorb (hw : 0 < w) (hk : k ≤ w) (p s : BitVec w) (symbols : List (BitVec k)) :
    Congruent p (register (symbols.foldl (absorb p.reverse) s))
      (X ^ (k * symbols.length) * register s + X ^ w * message symbols) := by
  induction symbols generalizing s with
  | nil =>
    refine ⟨0, ?_⟩
    rw [List.foldl_nil, List.length_nil, message]
    ring
  | cons symbol rest ih =>
    rw [List.foldl_cons]
    refine (ih _).trans ?_
    have hsymbol : Congruent p (register (absorb p.reverse s symbol))
        (X ^ k * register s + X ^ w * ofWord symbol.reverse) := by
      have hstep := iterate_step hw p (s ^^^ symbol.setWidth w) k
      rw [register_xor, register_setWidth hk, mul_add, ← mul_assoc, ← pow_add,
        Nat.add_sub_cancel' hk] at hstep
      exact hstep
    have hshifted := (hsymbol.mul_left (X ^ (k * rest.length))).add_right (X ^ w * message rest)
    refine hshifted.trans ⟨0, ?_⟩
    rw [List.length_cons, message, Nat.mul_add, mul_one, pow_add]
    ring

/-- A register holds the remainder of what it is congruent to. -/
theorem register_eq_modByMonic {s : BitVec w} (h : Congruent p (register s) a) :
    register s = a %ₘ generator p := by
  have hdegree : (register s).degree < (generator p).degree := by
    rw [degree_generator]
    exact degree_ofWord_lt _
  rw [← modByMonic_eq_of_dvd_sub (generator_monic p) h]
  exact ((modByMonic_eq_self_iff (generator_monic p)).mpr hdegree).symm

end Laghu.CrcPolynomials
