import Mathlib.Data.List.Range

/-!
A flat memory and the copying loop over it. The loop moves one cell per round
in increasing order and reads each cell from the memory as the earlier rounds
left it, so source and destination may overlap. It copies faithfully when the
destination starts at or below the source, or above its end.
-/

namespace Laghu.FlatMemory

open List

variable {α : Type*}

abbrev Memory (α : Type*) := ℕ → α

/-- The cells `[start, start + n)` in increasing order. -/
def slice (m : Memory α) (start n : ℕ) : List α :=
  (List.range n).map (fun i => m (start + i))

def store (m : Memory α) (address : ℕ) (a : α) : Memory α :=
  fun other => if other = address then a else m other

/-- `for (i = 0; i < n; ++i) dst[i] = src[i]`. -/
def copyForward (m : Memory α) (dst src : ℕ) : ℕ → Memory α
  | 0 => m
  | n + 1 =>
    let copied := copyForward m dst src n
    store copied (dst + n) (copied (src + n))

section

variable (m : Memory α)
include m

@[simp] theorem length_slice (start n : ℕ) : (slice m start n).length = n := by
  simp [slice]

@[simp] theorem slice_zero (start : ℕ) : slice m start 0 = [] := rfl

theorem slice_append (start n k : ℕ) :
    slice m start (n + k) = slice m start n ++ slice m (start + n) k := by
  simp [slice, range_add, Nat.add_assoc, Function.comp_def]

theorem slice_cons (start n : ℕ) : slice m start (n + 1) = m start :: slice m (start + 1) n := by
  rw [Nat.add_comm n 1, slice_append]
  rfl

theorem slice_drop (start : ℕ) {n k : ℕ} (h : k ≤ n) :
    (slice m start n).drop k = slice m (start + k) (n - k) := by
  have hsplit := slice_append m start k (n - k)
  rw [Nat.add_sub_cancel' h] at hsplit
  rw [hsplit, drop_left' (length_slice m start k)]

theorem slice_take (start : ℕ) {n k : ℕ} (h : k ≤ n) :
    (slice m start n).take k = slice m start k := by
  have hsplit := slice_append m start k (n - k)
  rw [Nat.add_sub_cancel' h] at hsplit
  rw [hsplit, take_left' (length_slice m start k)]

end

theorem slice_congr {m m' : Memory α} {start start' n : ℕ}
    (h : ∀ i, i < n → m (start + i) = m' (start' + i)) : slice m start n = slice m' start' n := by
  apply map_congr_left
  intro i hi
  exact h i (mem_range.mp hi)

variable (m : Memory α)
include m

theorem store_ne {address other : ℕ} (a : α) (h : other ≠ address) :
    store m address a other = m other :=
  if_neg h

@[simp] theorem store_self (address : ℕ) (a : α) : store m address a address = a :=
  if_pos rfl

theorem copyForward_outside (dst src n a : ℕ) (h : a < dst ∨ dst + n ≤ a) :
    copyForward m dst src n a = m a := by
  induction n with
  | zero => rfl
  | succ n ih =>
    have hne : a ≠ dst + n := by omega
    rw [copyForward, store_ne _ _ hne]
    exact ih (by omega)

/-- The cell read in a round has not been overwritten by an earlier round. -/
theorem copyForward_inside (dst src n : ℕ) (h : dst ≤ src ∨ src + n ≤ dst) {i : ℕ} (hi : i < n) :
    copyForward m dst src n (dst + i) = m (src + i) := by
  induction n with
  | zero => omega
  | succ n ih =>
    rw [copyForward]
    by_cases hl : i = n
    · subst hl
      rw [store_self]
      exact copyForward_outside m dst src i (src + i) (by omega)
    · rw [store_ne _ _ (by omega)]
      exact ih (by omega) (by omega)

theorem slice_copyForward (dst src n : ℕ) (h : dst ≤ src ∨ src + n ≤ dst) :
    slice (copyForward m dst src n) dst n = slice m src n := by
  apply slice_congr
  intro i hi
  exact copyForward_inside m dst src n h hi

end Laghu.FlatMemory
