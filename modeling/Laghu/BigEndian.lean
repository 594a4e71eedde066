import Mathlib.Algebra.Group.Nat.Defs
import Mathlib.Data.List.Induction

/-!
Numbers written as byte strings, most significant byte first. A fixed number of
bytes represents each number below the corresponding power of 256 once.
-/

namespace Laghu.BigEndian

open List

abbrev Byte := BitVec 8

def value (bytes : List Byte) : ℕ := bytes.foldl (fun v b => v * 256 + b.toNat) 0

def bytesOf (n v : ℕ) : List Byte :=
  (List.range n).map (fun i => BitVec.ofNat 8 (v / 256 ^ (n - 1 - i)))

@[simp] theorem length_bytesOf (n v : ℕ) : (bytesOf n v).length = n := by
  simp [bytesOf]

theorem value_append (bytes : List Byte) (b : Byte) :
    value (bytes ++ [b]) = value bytes * 256 + b.toNat := by
  simp [value, foldl_append]

theorem value_lt (bytes : List Byte) : value bytes < 256 ^ bytes.length := by
  induction bytes using List.reverseRecOn with
  | nil => simp [value]
  | append_singleton bytes b ih =>
    have hb := b.isLt
    rw [value_append, length_append, length_singleton, pow_succ]
    omega

/-- A number has one representation of each length. -/
theorem value_injective {left right : List Byte} (hlen : left.length = right.length)
    (hv : value left = value right) : left = right := by
  induction left using List.reverseRecOn generalizing right with
  | nil => exact (length_eq_zero_iff.mp hlen.symm).symm
  | append_singleton left b ih =>
    rcases eq_nil_or_concat right with hnil | ⟨rest, c, hright⟩
    · rw [hnil] at hlen
      simp at hlen
    rw [concat_eq_append] at hright
    subst hright
    rw [value_append, value_append] at hv
    have hb := b.isLt
    have hc := c.isLt
    have hbytes : left = rest := ih (by simpa using hlen) (by omega)
    have hl : b = c := BitVec.eq_of_toNat_eq (by omega)
    rw [hbytes, hl]

theorem bytesOf_succ (n v : ℕ) : bytesOf (n + 1) v = bytesOf n (v / 256) ++ [BitVec.ofNat 8 v] := by
  rw [bytesOf, range_succ, map_append, map_singleton, bytesOf]
  congr 1
  · apply map_congr_left
    intro i hi
    rw [mem_range] at hi
    have hexponent : n + 1 - 1 - i = (n - 1 - i) + 1 := by omega
    rw [hexponent, pow_succ, mul_comm, Nat.div_div_eq_div_mul]
  · simp

theorem value_bytesOf (n v : ℕ) : value (bytesOf n v) = v % 256 ^ n := by
  induction n generalizing v with
  | zero => simp [bytesOf, value, Nat.mod_one]
  | succ n ih =>
    have hpower : 256 ^ (n + 1) = 256 * 256 ^ n := by rw [pow_succ, mul_comm]
    rw [bytesOf_succ, value_append, ih, BitVec.toNat_ofNat, hpower, Nat.mod_mul]
    omega

theorem bytesOf_value (bytes : List Byte) : bytesOf bytes.length (value bytes) = bytes := by
  apply value_injective (length_bytesOf _ _)
  rw [value_bytesOf, Nat.mod_eq_of_lt (value_lt bytes)]

end Laghu.BigEndian
