import Mathlib.Logic.Function.Iterate
import Mathlib.Data.List.Basic

/-!
Linear feedback shift registers that absorb symbols. The register moves down one
place per step and adds the feedback polynomial when a one falls out. When the
top bit of the polynomial is set no step loses information, so a register of
`w` bits tells apart any two strings that differ in a window of `w` bits.
-/

namespace Laghu.ShiftRegisters

open List BitVec Function

variable {w k : ℕ} {poly : BitVec w}

def step (poly s : BitVec w) : BitVec w := (s >>> 1) ^^^ (if s.getLsbD 0 then poly else 0#w)

theorem step_xor (poly a b : BitVec w) : step poly (a ^^^ b) = step poly a ^^^ step poly b := by
  apply eq_of_getLsbD_eq
  intro i _
  unfold step
  cases ha : a.getLsbD 0 <;> cases hb : b.getLsbD 0 <;> simp [ha, hb] <;>
    cases a.getLsbD (1 + i) <;> cases b.getLsbD (1 + i) <;> simp

theorem iterate_xor (poly : BitVec w) (n : ℕ) (a b : BitVec w) :
    (step poly)^[n] (a ^^^ b) = (step poly)^[n] a ^^^ (step poly)^[n] b := by
  induction n generalizing a b with
  | zero => rfl
  | succ n ih => rw [iterate_succ_apply, iterate_succ_apply,
      iterate_succ_apply, step_xor, ih]

/-- The bit that fell out is the top bit of the next state. -/
theorem getLsbD_step_top (hp : poly.getLsbD (w - 1) = true) (s : BitVec w) :
    (step poly s).getLsbD (w - 1) = s.getLsbD 0 := by
  have hw : 0 < w := by
    by_contra h0
    have he : w = 0 := by omega
    subst he
    simp at hp
  have hf : (s >>> 1).getLsbD (w - 1) = false := by
    rw [getLsbD_ushiftRight]
    exact getLsbD_of_ge s _ (by omega)
  rw [step, getLsbD_xor, hf, Bool.false_xor]
  cases s.getLsbD 0 with
  | true => rw [if_pos rfl, hp]
  | false => simp

theorem step_injective (hp : poly.getLsbD (w - 1) = true) : Injective (step poly) := by
  intro a b h
  have hlow : a.getLsbD 0 = b.getLsbD 0 := by
    rw [← getLsbD_step_top hp, h, getLsbD_step_top hp]
  have hhigh : a >>> 1 = b >>> 1 := by
    unfold step at h
    rw [hlow] at h
    exact (xor_left_inj _).mp h
  apply eq_of_getLsbD_eq
  intro i _
  cases i with
  | zero => exact hlow
  | succ i =>
    have hbit := congrArg (fun s => s.getLsbD i) hhigh
    simpa [getLsbD_ushiftRight, Nat.add_comm] using hbit

theorem step_shiftLeft (poly : BitVec w) {s : BitVec w} {n : ℕ}
    (hs : ∀ i, w ≤ i + (n + 1) → s.getLsbD i = false) : step poly (s <<< (n + 1)) = s <<< n := by
  have hlow : (s <<< (n + 1)).getLsbD 0 = false := by simp
  unfold step
  rw [hlow, if_neg (by decide), xor_zero]
  apply eq_of_getLsbD_eq
  intro i hi
  rw [getLsbD_ushiftRight, getLsbD_shiftLeft, getLsbD_shiftLeft]
  by_cases hn : i < n
  · have hbelow : 1 + i < n + 1 := by omega
    simp [hn, hbelow]
  have hoff : 1 + i - (n + 1) = i - n := by omega
  have habove : ¬ 1 + i < n + 1 := by omega
  rw [hoff]
  by_cases htop : 1 + i < w
  · simp [hn, habove, htop, hi]
  · simp [hs (i - n) (by omega)]

/-- Bits that have been moved up by `n` places come back down unchanged. -/
theorem iterate_shiftLeft (poly : BitVec w) {s : BitVec w} (n : ℕ)
    (hs : ∀ i, w ≤ i + n → s.getLsbD i = false) : (step poly)^[n] (s <<< n) = s := by
  induction n with
  | zero => simp
  | succ n ih =>
    rw [iterate_succ_apply, step_shiftLeft poly hs]
    exact ih (fun i hi => hs i (by omega))

/-- A symbol is added at the low end and then shifted through. -/
def absorb (poly s : BitVec w) (symbol : BitVec k) : BitVec w :=
  (step poly)^[k] (s ^^^ symbol.setWidth w)

/-- The symbols side by side, the first one lowest. -/
def word (w : ℕ) : List (BitVec k) → BitVec w
  | [] => 0#w
  | symbol :: rest => symbol.setWidth w ^^^ (word w rest <<< k)

theorem getLsbD_word_of_ge (l : List (BitVec k)) {i : ℕ} (h : k * l.length ≤ i) :
    (word w l).getLsbD i = false := by
  induction l generalizing i with
  | nil => simp [word]
  | cons symbol rest ih =>
    rw [length_cons, Nat.mul_succ] at h
    rw [word, getLsbD_xor, getLsbD_setWidth, getLsbD_shiftLeft,
      ih (by omega), getLsbD_of_ge symbol i (by omega)]
    simp

/-- Absorbing symbols that fit into the register together is the same as adding
them all at once. -/
theorem foldl_absorb_eq (poly s : BitVec w) (l : List (BitVec k)) (h : k * l.length ≤ w) :
    l.foldl (absorb poly) s = (step poly)^[k * l.length] (s ^^^ word w l) := by
  induction l generalizing s with
  | nil => simp [word]
  | cons symbol rest ih =>
    rw [length_cons, Nat.mul_succ] at h
    have hback : (step poly)^[k] (word w rest <<< k) = word w rest :=
      iterate_shiftLeft poly k (fun i hi => getLsbD_word_of_ge rest (by omega))
    have hmerge : absorb poly s symbol ^^^ word w rest =
        (step poly)^[k] (s ^^^ word w (symbol :: rest)) := by
      conv_lhs => rw [← hback]
      rw [absorb, ← iterate_xor, word, xor_assoc]
    rw [foldl_cons, ih _ (by omega), hmerge, length_cons, Nat.mul_succ, iterate_add_apply]

theorem word_injective {l l' : List (BitVec k)} (hlen : l.length = l'.length)
    (hf : k * l.length ≤ w) (h : word w l = word w l') : l = l' := by
  induction l generalizing l' with
  | nil => exact (length_eq_zero_iff.mp hlen.symm).symm
  | cons symbol rest ih =>
    cases l' with
    | nil => simp at hlen
    | cons symbol' rest' =>
      rw [length_cons, length_cons, Nat.add_right_cancel_iff] at hlen
      rw [length_cons, Nat.mul_succ] at hf
      have hbit : ∀ i,
          (word w (symbol :: rest)).getLsbD i = (word w (symbol' :: rest')).getLsbD i :=
        fun i => congrArg (fun s => s.getLsbD i) h
      simp only [word, getLsbD_xor, getLsbD_setWidth, getLsbD_shiftLeft] at hbit
      have hsymbol : symbol = symbol' := by
        apply eq_of_getLsbD_eq
        intro i hi
        have hlow := hbit i
        have hw : i < w := by
          have := Nat.zero_le (k * rest.length)
          omega
        simpa [hi, hw] using hlow
      have hr : word w rest = word w rest' := by
        apply eq_of_getLsbD_eq
        intro i _
        by_cases hi : k + i < w
        · have hhigh := hbit (k + i)
          rw [getLsbD_of_ge symbol (k + i) (by omega),
            getLsbD_of_ge symbol' (k + i) (by omega)] at hhigh
          have habove : ¬ k + i < k := by omega
          simpa [hi, habove] using hhigh
        · rw [getLsbD_word_of_ge rest (by omega), getLsbD_word_of_ge rest' (by
            rw [← hlen]
            omega)]
      rw [hsymbol, ih hlen (by omega) hr]

theorem foldl_absorb_injective (hp : poly.getLsbD (w - 1) = true) (l : List (BitVec k)) :
    Injective (fun s => l.foldl (absorb poly) s) := by
  induction l with
  | nil => exact fun _ _ h => h
  | cons symbol rest ih =>
    intro s t h
    have hf : absorb poly s symbol = absorb poly t symbol := ih h
    exact (xor_left_inj _).mp ((step_injective hp).iterate k hf)

/-- Two strings that differ only in a window of at most `w` bits and leave the
same register are equal. -/
theorem window_eq (hp : poly.getLsbD (w - 1) = true) (s : BitVec w)
    {before window window' after : List (BitVec k)} (hlen : window.length = window'.length)
    (hf : k * window.length ≤ w)
    (h : (before ++ window ++ after).foldl (absorb poly) s =
      (before ++ window' ++ after).foldl (absorb poly) s) : window = window' := by
  rw [foldl_append, foldl_append, foldl_append, foldl_append] at h
  have hwindow := foldl_absorb_injective hp after h
  have hf' : k * window'.length ≤ w := by
    rw [← hlen]
    exact hf
  rw [foldl_absorb_eq _ _ window hf, foldl_absorb_eq _ _ window' hf', ← hlen] at hwindow
  exact word_injective hlen hf ((xor_right_inj _).mp ((step_injective hp).iterate _ hwindow))

end Laghu.ShiftRegisters
