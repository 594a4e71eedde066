import Mathlib.Algebra.Ring.Nat
import Mathlib.Data.List.Basic

/-!
A sequence stored in segments. Dropping elements from the front removes whole segments
first and then cuts one.
-/

namespace Laghu.Segments

open List

variable {α β : Type*}

/-- Drop `n` elements; `cut k s` is the segment `s` without its first `k` elements. -/
def dropFront (size : β → ℕ) (cut : ℕ → β → β) (n : ℕ) : List β → List β
  | [] => []
  | s :: rest =>
    if size s ≤ n then dropFront size cut (n - size s) rest
    else if n = 0 then s :: rest
    else cut n s :: rest

def total (size : β → ℕ) (segments : List β) : ℕ := (segments.map size).sum

section

variable {size : β → ℕ} {cut : ℕ → β → β} {content : β → List α}

@[simp] theorem total_nil : total size [] = 0 := rfl

@[simp] theorem total_cons (s : β) (rest : List β) :
    total size (s :: rest) = size s + total size rest := sum_cons

theorem total_append (first second : List β) :
    total size (first ++ second) = total size first + total size second := by
  simp [total]

theorem size_le_total {s : β} {segments : List β} (hs : s ∈ segments) :
    size s ≤ total size segments := by
  obtain ⟨before, after, rfl⟩ := append_of_mem hs
  rw [total_append, total_cons]
  omega

/-- The segments after dropping hold the sequence after dropping. -/
theorem flatMap_dropFront (hsize : ∀ s, (content s).length = size s)
    (hcut : ∀ k s, k < size s → content (cut k s) = (content s).drop k) (n : ℕ)
    (segments : List β) :
    (dropFront size cut n segments).flatMap content = (segments.flatMap content).drop n := by
  induction segments generalizing n with
  | nil => simp [dropFront]
  | cons s rest ih =>
    have hlen := hsize s
    rw [dropFront, flatMap_cons, drop_append, hlen]
    split
    · have hdone : (content s).drop n = [] := drop_eq_nil_of_le (by omega)
      rw [ih, hdone, nil_append]
    have hn : n - size s = 0 := by omega
    rw [hn, drop_zero]
    split
    · rename_i h0
      rw [h0, drop_zero, flatMap_cons]
    · rw [flatMap_cons, hcut n s (by omega)]

/-- Cutting leaves no empty segment behind. -/
theorem size_pos_dropFront (hcut : ∀ k s, k < size s → size (cut k s) = size s - k) (n : ℕ)
    {segments : List β} (h : ∀ s ∈ segments, 0 < size s) :
    ∀ s ∈ dropFront size cut n segments, 0 < size s := by
  induction segments generalizing n with
  | nil => exact fun s hs => absurd hs not_mem_nil
  | cons s rest ih =>
    obtain ⟨hs, hr⟩ := forall_mem_cons.mp h
    rw [dropFront]
    split
    · exact ih _ hr
    split
    · exact h
    refine forall_mem_cons.mpr ⟨?_, hr⟩
    rw [hcut n s (by omega)]
    omega

theorem length_dropFront_le (n : ℕ) (segments : List β) :
    (dropFront size cut n segments).length ≤ segments.length := by
  induction segments generalizing n with
  | nil => exact le_refl _
  | cons s rest ih =>
    rw [dropFront]
    split
    · exact le_trans (ih _) (Nat.le_succ _)
    split
    · exact le_refl _
    · exact le_refl _

theorem total_dropFront (hcut : ∀ k s, k < size s → size (cut k s) = size s - k) (n : ℕ)
    (segments : List β) : total size (dropFront size cut n segments) = total size segments - n := by
  induction segments generalizing n with
  | nil => simp [dropFront]
  | cons s rest ih =>
    rw [dropFront, total_cons]
    split
    · rw [ih]
      omega
    split
    · rw [total_cons]
      omega
    · rw [total_cons, hcut n s (by omega)]
      omega

end

end Laghu.Segments
