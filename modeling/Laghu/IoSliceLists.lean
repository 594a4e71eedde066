import Laghu.IoSlices
import Laghu.Segments

/-!
A slice list is a segmented sequence: appending adds a segment, and the two loops of
`consume` together drop from the front. The byte count is the sum of the slice sizes, so
the slice that is cut is there and long enough.
-/

namespace Laghu.IoSlices

open Contract CheckedArithmetic FlatMemory Views Segments List Option BitVec

def sizeOf (s : IoSlice) : ℕ := s.size.toNat

/-- A slice without its first `n` bytes. -/
def cut (n : ℕ) (s : IoSlice) : IoSlice :=
  match s.consume (BitVec.ofNat 64 n) with
  | .ok remaining => remaining
  | .error _ => s

/-- The bytes of a slice. -/
def content {α : Type} (m : Memory α) (s : IoSlice) : List α := slice m s.bytes.data (sizeOf s)

variable {α : Type}

theorem length_content (m : Memory α) (s : IoSlice) :
    (content m s).length = sizeOf s := length_slice m _ _

variable {bytes : Size}

/-- Consuming part of a slice moves its start. -/
theorem consume_ok {s : IoSlice} (h : bytes.toNat ≤ sizeOf s) :
    ∃ s', s.consume bytes = .ok s' ∧ s'.bytes.data = s.bytes.data + bytes.toNat ∧
      sizeOf s' = sizeOf s - bytes.toNat := by
  have hle : bytes ≤ s.size := h
  have hr : (s.size - bytes).toNat = sizeOf s - bytes.toNat := toNat_sub_of_le hle
  obtain ⟨remaining, hslice, hspan⟩ := slice_ok (v := s.bytes) bytes (s.size - bytes) (by
    rw [hr]
    unfold sizeOf IoSlice.size at *
    omega)
  refine ⟨⟨remaining⟩, ?_, congrArg Span.data hspan, ?_⟩
  · rw [IoSlice.consume, if_neg (BitVec.not_lt.mpr hle), hslice]
    rfl
  · rw [← hr]
    exact congrArg (fun span => span.size.toNat) hspan

theorem cut_spec {s : IoSlice} {n : ℕ} (h : n < sizeOf s) :
    s.consume (BitVec.ofNat 64 n) = .ok (cut n s) ∧
      (cut n s).bytes.data = s.bytes.data + n ∧ sizeOf (cut n s) = sizeOf s - n := by
  have hsize := s.size.isLt
  have hn : (BitVec.ofNat 64 n).toNat = n := by
    rw [toNat_ofNat]
    exact Nat.mod_eq_of_lt (lt_trans h hsize)
  have hle : (BitVec.ofNat 64 n).toNat ≤ sizeOf s := by omega
  obtain ⟨s', hconsume, hdata, hr⟩ := consume_ok hle
  have hcut : cut n s = s' := by rw [cut, hconsume]
  rw [hn] at hdata hr
  rw [hcut]
  exact ⟨hconsume, hdata, hr⟩

theorem sizeOf_cut (n : ℕ) (s : IoSlice) (h : n < sizeOf s) : sizeOf (cut n s) = sizeOf s - n :=
  (cut_spec h).2.2

theorem content_cut (m : Memory α) (n : ℕ) (s : IoSlice) (h : n < sizeOf s) :
    content m (cut n s) = (content m s).drop n := by
  obtain ⟨_, hdata, hsize⟩ := cut_spec h
  rw [content, hdata, hsize, content, slice_drop m _ (le_of_lt h)]

/-- The counters of a list agree with its slices. -/
structure Sound (l : IoSliceList) : Prop where
  count_le : l.count ≤ l.capacity
  bytes_eq : l.bytes.toNat = total sizeOf l.slices
  nonempty : ∀ s ∈ l.slices, 0 < sizeOf s

section

variable {l : IoSliceList}

theorem slices_store (l : IoSliceList) (s : IoSlice) :
    slice (store l.storage l.count s) 0 (l.count + 1) = l.slices ++ [s] := by
  rw [slice_append]
  congr 1
  · apply slice_congr
    intro i hi
    exact store_ne _ _ (by omega)
  · simp [slice]

/-- Appending adds the view at the end, or nothing if it is empty. -/
theorem append_spec (h : Sound l) (bytes : ByteView) : (∃ e, l.append bytes = (.error e, l)) ∨
    ∃ l', l.append bytes = (.ok (), l') ∧ Sound l' ∧
      l'.slices = l.slices ++ if bytes.size = 0#64 then [] else [⟨bytes⟩] := by
  unfold IoSliceList.append
  split
  · exact .inr ⟨l, rfl, h, (append_nil _).symm⟩
  rename_i he
  split
  · exact .inl ⟨_, rfl⟩
  cases hadd : checkedAdd l.bytes bytes.size with
  | error e => exact .inl ⟨e, rfl⟩
  | ok sum =>
    have hslices := slices_store l ⟨bytes⟩
    have hn := h.count_le
    refine .inr ⟨_, rfl, ⟨?_, ?_, ?_⟩, hslices⟩
    · dsimp only
      omega
    · rw [IoSliceList.slices, hslices, total_append, ← h.bytes_eq]
      exact checkedAdd_ok hadd
    rw [IoSliceList.slices, hslices]
    intro s hs
    rcases mem_append.mp hs with hold | hnew
    · exact h.nonempty s hold
    · rw [mem_singleton.mp hnew]
      exact Nat.pos_of_ne_zero fun h0 => he ((size_eq_zero _).mpr h0)

/-- The loop ends; what it leaves to drop from the remaining slices is less than the
first of them. -/
theorem skipWhole_spec (storage : Memory IoSlice) (count : ℕ) {fuel removed : ℕ}
    (remaining : Size) (hremoved : removed ≤ count) (hfuel : count - removed < fuel) :
    ∃ removed' remaining',
      IoSliceList.skipWhole storage count fuel removed remaining = some (removed', remaining') ∧
      removed' ≤ count ∧ (removed' < count → remaining'.toNat < sizeOf (storage removed')) ∧
      dropFront sizeOf cut remaining.toNat (slice storage removed (count - removed)) =
        dropFront sizeOf cut remaining'.toNat (slice storage removed' (count - removed')) ∧
      (removed' = count → remaining'.toNat =
        remaining.toNat - total sizeOf (slice storage removed (count - removed))) := by
  induction fuel generalizing removed remaining with
  | zero => omega
  | succ fuel ih =>
    rw [IoSliceList.skipWhole]
    by_cases hwhole : removed < count ∧ remaining ≥ (storage removed).size
    · obtain ⟨hlt, hsize⟩ := hwhole
      have hsize' : sizeOf (storage removed) ≤ remaining.toNat := hsize
      have hr : (remaining - (storage removed).size).toNat =
          remaining.toNat - sizeOf (storage removed) := toNat_sub_of_le hsize
      obtain ⟨k, hk⟩ : ∃ k, count - removed = k + 1 := ⟨count - removed - 1, by omega⟩
      have hk' : count - (removed + 1) = k := by omega
      obtain ⟨removed', remaining', hrun, hle, hless, hdrop, hl⟩ :=
        ih (remaining - (storage removed).size) (show removed + 1 ≤ count by omega) (by omega)
      rw [hr, hk'] at hdrop hl
      refine ⟨removed', remaining', ?_, hle, hless, ?_, ?_⟩
      · rw [if_pos ⟨hlt, hsize⟩]
        exact hrun
      · rw [hk, slice_cons, dropFront, if_pos hsize']
        exact hdrop
      intro heq
      rw [hk, slice_cons, total_cons, hl heq]
      omega
    · rw [if_neg hwhole]
      refine ⟨removed, remaining, rfl, hremoved, ?_, rfl, ?_⟩
      · intro hlt
        exact Nat.lt_of_not_le fun hge => hwhole ⟨hlt, hge⟩
      · rintro rfl
        simp

/-- The slice that is cut is in use and longer than what is cut off. -/
theorem trim_spec (hn : l.count ≤ l.capacity) {removed : ℕ} {remaining : Size}
    (hremoved : removed ≤ l.count)
    (hless : removed < l.count → remaining.toNat < sizeOf (l.storage removed))
    (hl : removed = l.count → remaining.toNat = 0) :
    ∃ storage, l.trim removed remaining = some storage ∧ slice storage removed (l.count - removed) =
        dropFront sizeOf cut remaining.toNat (slice l.storage removed (l.count - removed)) := by
  unfold IoSliceList.trim
  by_cases hend : removed = l.count
  · have h0 : remaining = 0#64 := (size_eq_zero _).mpr (hl hend)
    rw [if_pos h0, hend, Nat.sub_self]
    exact ⟨l.storage, rfl, rfl⟩
  have hlt : removed < l.count := by omega
  have hsize := hless hlt
  obtain ⟨k, hk⟩ : ∃ k, l.count - removed = k + 1 := ⟨l.count - removed - 1, by omega⟩
  rw [hk, slice_cons l.storage, dropFront, if_neg (not_le.mpr hsize)]
  split
  · rename_i h0
    rw [if_pos ((size_eq_zero _).mp h0)]
    exact ⟨l.storage, rfl, slice_cons _ _ _⟩
  rename_i h0
  obtain ⟨hconsume, _⟩ := cut_spec hsize
  rw [ofNat_toNat, setWidth_eq] at hconsume
  rw [if_pos (by omega), hconsume, if_neg fun h => h0 ((size_eq_zero _).mpr h)]
  refine ⟨_, rfl, ?_⟩
  rw [slice_cons, store_self]
  congr 1
  apply slice_congr
  intro i _
  exact store_ne _ _ (by omega)

/-- Consuming drops from the front and never terminates the program. -/
theorem consume_spec (h : Sound l) (hb : bytes ≤ l.bytes) :
    ∃ l', l.consume bytes = some (.ok (), l') ∧ Sound l' ∧
      l'.slices = dropFront sizeOf cut bytes.toNat l.slices := by
  obtain ⟨removed, remaining, hskip, hremoved, hless, hdrop, hl⟩ :=
    skipWhole_spec l.storage l.count bytes (Nat.zero_le _) (show l.count - 0 < l.count + 1 by omega)
  have htotal : bytes.toNat ≤ total sizeOf l.slices := by
    rw [← h.bytes_eq]
    exact hb
  have hdone : removed = l.count → remaining.toNat = 0 := by
    intro heq
    rw [hl heq]
    exact Nat.sub_eq_zero_of_le htotal
  obtain ⟨storage, htrim, hslices⟩ := trim_spec h.count_le hremoved hless hdone
  have hshift : slice (copyForward storage 0 removed (if removed ≠ 0 then l.count - removed else 0))
      0 (if removed ≠ 0 then l.count - removed else l.count) =
      dropFront sizeOf cut bytes.toNat l.slices := by
    refine Eq.trans ?_ (hslices.trans hdrop.symm)
    by_cases h0 : removed = 0
    · rw [if_neg (not_not.mpr h0), if_neg (not_not.mpr h0), h0]
      rfl
    · rw [if_pos h0, if_pos h0, slice_copyForward _ _ _ _ (.inl (Nat.zero_le _))]
  have hn := h.count_le
  unfold IoSliceList.consume
  rw [if_neg (BitVec.not_lt.mpr hb), hskip, bind_eq_bind, bind_some]
  dsimp only
  rw [htrim, bind_eq_bind, bind_some]
  refine ⟨_, rfl, ⟨?_, ?_, ?_⟩, hshift⟩
  · dsimp only
    split <;> omega
  · rw [IoSliceList.slices, hshift, total_dropFront sizeOf_cut, ← h.bytes_eq]
    exact toNat_sub_of_le hb
  · rw [IoSliceList.slices, hshift]
    exact size_pos_dropFront sizeOf_cut _ h.nonempty

theorem consume_error (hb : ¬bytes ≤ l.bytes) :
    ∃ e, l.consume bytes = some (.error e, l) := by
  rw [IoSliceList.consume, if_pos (BitVec.not_le.mp hb)]
  exact ⟨_, rfl⟩

/-- The loop writes one vector for each slice. -/
theorem fillIovecs_spec (slices : List IoSlice) (output : Memory Iovec) (index : ℕ) :
    (fillIovecs output index slices).1 = index + slices.length ∧
    slice (fillIovecs output index slices).2 index slices.length =
      slices.map (fun s => ⟨s.bytes.data, s.size⟩) ∧
    ∀ a < index, (fillIovecs output index slices).2 a = output a := by
  induction slices generalizing output index with
  | nil => exact ⟨rfl, rfl, fun _ _ => rfl⟩
  | cons s rest ih =>
    obtain ⟨hidx, hslice, hpre⟩ :=
      ih (store output index ⟨s.bytes.data, s.size⟩) (index + 1)
    rw [fillIovecs]
    refine ⟨?_, ?_, ?_⟩
    · rw [hidx, length_cons]
      omega
    · rw [length_cons, slice_cons, hslice, hpre index (Nat.lt_succ_self _), store_self]
      rfl
    · intro a ha
      rw [hpre a (by omega), store_ne _ _ (by omega)]

/-- The vectors hold the bytes of the list. -/
theorem translateIovecs_spec (m : Memory α) (l : IoSliceList) (output : Memory Iovec)
    (outputSize : ℕ) :
    (l.count ≤ outputSize ∧ ∃ output',
      translateIovecs l output outputSize = (.ok l.count, output') ∧
        gather m (slice output' 0 l.count) = l.slices.flatMap (content m)) ∨
    outputSize < l.count ∧ ∃ e, translateIovecs l output outputSize = (.error e, output) := by
  unfold translateIovecs
  split
  · rename_i hsmall
    exact .inr ⟨hsmall, _, rfl⟩
  obtain ⟨hidx, hslice, _⟩ := fillIovecs_spec l.slices output 0
  have hlen : l.slices.length = l.count := length_slice _ _ _
  rw [hlen] at hidx hslice
  rw [zero_add] at hidx
  refine .inl ⟨by omega, (fillIovecs output 0 l.slices).2, ?_, ?_⟩
  · dsimp only
    rw [hidx]
  · rw [hslice, gather, flatMap_map]
    rfl

end

end Laghu.IoSlices
