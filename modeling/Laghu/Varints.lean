import Laghu.BigEndian

/-!
Base-128 integers and little-endian words. A base-128 integer has seven bits of the
value in each byte, the least significant first, and the top bit of every byte but the
last is set. Each encoding is read back from the front of any string of bytes.
-/

namespace Laghu.Varints

open List

open BigEndian (Byte)
open BitVec (ofNat toNat_ofNat)

variable {n : ℕ}

theorem groups_decrease (h : ¬ n < 128) : n / 128 < n := by omega

def varint (n : ℕ) : List Byte :=
  if _h : n < 128 then [BitVec.ofNat 8 n]
  else BitVec.ofNat 8 (n % 128 + 128) :: varint (n / 128)
termination_by n
decreasing_by exact groups_decrease ‹_›

theorem varint_of_lt (h : n < 128) : varint n = [ofNat 8 n] := by
  rw [varint, dif_pos h]

theorem varint_of_ge (h : ¬ n < 128) :
    varint n = ofNat 8 (n % 128 + 128) :: varint (n / 128) := by
  rw [varint, dif_neg h]

theorem length_varint_pos (n : ℕ) : 0 < (varint n).length := by
  by_cases h : n < 128
  · rw [varint_of_lt h, length_singleton]
    omega
  · rw [varint_of_ge h, length_cons]
    omega

/-- A number below `128 ^ k` has at most `k` groups of seven bits. -/
theorem length_varint_le (k : ℕ) (h : n < 128 ^ (k + 1)) : (varint n).length ≤ k + 1 := by
  induction k generalizing n with
  | zero =>
    have hn : n < 128 := by omega
    simp [varint_of_lt hn]
  | succ k ih =>
    by_cases hn : n < 128
    · rw [varint_of_lt hn, length_singleton]
      omega
    rw [pow_succ] at h
    have hr : (varint (n / 128)).length ≤ k + 1 := ih (Nat.div_lt_of_lt_mul (by omega))
    rw [varint_of_ge hn, length_cons]
    omega

/-- Read a base-128 integer of at most `limit` bytes from the front. -/
def readVarint : ℕ → List Byte → Option (ℕ × List Byte)
  | 0, _ => none
  | _ + 1, [] => none
  | limit + 1, byte :: rest =>
    if byte.toNat < 128 then some (byte.toNat, rest)
    else (readVarint limit rest).map fun (n, after) => (byte.toNat - 128 + 128 * n, after)

theorem readVarint_varint (n limit : ℕ) (rest : List Byte) (h : (varint n).length ≤ limit) :
    readVarint limit (varint n ++ rest) = some (n, rest) := by
  induction limit generalizing n with
  | zero => exact absurd (length_varint_pos n) (by omega)
  | succ limit ih =>
    by_cases hn : n < 128
    · have hbyte : (ofNat 8 n).toNat = n := by
        rw [toNat_ofNat]
        omega
      rw [varint_of_lt hn, singleton_append, readVarint, hbyte, if_pos hn]
    have hbyte : (ofNat 8 (n % 128 + 128)).toNat = n % 128 + 128 := by
      rw [toNat_ofNat]
      omega
    rw [varint_of_ge hn, length_cons] at h
    rw [varint_of_ge hn, cons_append, readVarint, hbyte, if_neg (by omega), ih (n / 128) (by omega)]
    refine congrArg some (Prod.ext ?_ rfl)
    change n % 128 + 128 - 128 + 128 * (n / 128) = n
    omega

/-- The `k` low bytes of a number, the least significant first. -/
def littleEndian : ℕ → ℕ → List Byte
  | 0, _ => []
  | k + 1, n => BitVec.ofNat 8 n :: littleEndian k (n / 256)

@[simp] theorem length_littleEndian (k n : ℕ) : (littleEndian k n).length = k := by
  induction k generalizing n with
  | zero => rfl
  | succ k ih => rw [littleEndian, length_cons, ih]

theorem littleEndian_eq_map (k n : ℕ) :
    littleEndian k n = (List.range k).map fun i => ofNat 8 (n / 256 ^ i) := by
  induction k generalizing n with
  | zero => rfl
  | succ k ih =>
    rw [littleEndian, ih, range_succ_eq_map, map_cons, map_map, Nat.pow_zero, Nat.div_one]
    refine congrArg (ofNat 8 n :: ·) (map_congr_left fun i _ => ?_)
    change ofNat 8 (n / 256 / 256 ^ i) = ofNat 8 (n / 256 ^ (i + 1))
    rw [Nat.div_div_eq_div_mul, pow_succ, mul_comm]

def readLittleEndian : List Byte → ℕ
  | [] => 0
  | byte :: rest => byte.toNat + 256 * readLittleEndian rest

theorem readLittleEndian_littleEndian {k : ℕ} (h : n < 256 ^ k) :
    readLittleEndian (littleEndian k n) = n := by
  induction k generalizing n with
  | zero =>
    have : n = 0 := by simpa using h
    rw [this]
    rfl
  | succ k ih =>
    rw [pow_succ] at h
    rw [littleEndian, readLittleEndian, ih (Nat.div_lt_of_lt_mul (by omega)), toNat_ofNat]
    omega

end Laghu.Varints
