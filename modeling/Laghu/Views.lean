import Laghu.CheckedArithmetic

/-!
Byte views. A raw span is an address and a length; a view is a span that is
never a null pointer with a positive length. Addresses are naturals and `0` is
the null pointer.
-/

namespace Laghu.Views

open Contract CheckedArithmetic BitVec

structure Span where
  data : ℕ := 0
  size : Size := 0#64
  deriving DecidableEq, Repr

/-- `std::span::subspan`; outside its precondition the behaviour is undefined. -/
def Span.subspan (s : Span) (offset count : Size) : Option Span :=
  if offset ≤ s.size ∧ count ≤ s.size - offset then
    some { data := s.data + offset.toNat, size := count }
  else none

/-- `ByteView` and `MutableByteView` hold the same data. -/
structure View extends Span where
  valid : data = 0 → size = 0#64 := by decide
  deriving DecidableEq

namespace View

/-- The view that is constructed by default. -/
def empty : View := {}

def fromSpan (diagnostic : String) (bytes : Span) : Result View :=
  if h : bytes.data = 0 ∧ bytes.size ≠ 0#64 then .error (coreError .invalidInput diagnostic)
  else .ok ⟨bytes, fun hdata => Classical.not_not.mp (fun hsize => h ⟨hdata, hsize⟩)⟩

theorem slice_valid (v : View) {offset length : Size}
    (h : checkedRange offset length v.size = .ok ()) :
    v.data + offset.toNat = 0 → length = 0#64 := by
  intro hdata
  have hsize := v.valid (by omega)
  rw [checkedRange_ok_iff, hsize] at h
  have h0 : length.toNat = 0 := by
    have : (0#64).toNat = 0 := rfl
    omega
  exact eq_of_toNat_eq h0

def slice (v : View) (offset length : Size) : Result View :=
  match h : checkedRange offset length v.size with
  | .error e => .error e
  | .ok () => .ok ⟨{ data := v.data + offset.toNat, size := length }, slice_valid v h⟩

end View

abbrev ByteView := View

abbrev MutableByteView := View

def ByteView.from (bytes : Span) : Result ByteView :=
  View.fromSpan "byte view requires non-null data" bytes

def MutableByteView.from (bytes : Span) : Result MutableByteView :=
  View.fromSpan "mutable byte view requires non-null data" bytes

theorem subspan_eq {s : Span} {offset count : Size}
    (h : offset.toNat + count.toNat ≤ s.size.toNat) :
    s.subspan offset count = some { data := s.data + offset.toNat, size := count } := by
  have hoff : offset ≤ s.size := by
    rw [le_def]
    omega
  have hn : count ≤ s.size - offset := by
    rw [le_def, toNat_sub_of_le hoff]
    omega
  rw [Span.subspan, if_pos ⟨hoff, hn⟩]

/-- A subrange of a view is itself a valid view. -/
theorem subspan_view (v : View) (diagnostic : String) (offset count : Size)
    (h : offset.toNat + count.toNat ≤ v.size.toNat) :
    ∃ region : View, v.subspan offset count = some region.toSpan ∧
      View.fromSpan diagnostic region.toSpan = .ok region ∧
      region.toSpan = { data := v.data + offset.toNat, size := count } := by
  have hv := View.slice_valid v ((checkedRange_ok_iff offset count v.size).mpr h)
  refine ⟨⟨{ data := v.data + offset.toNat, size := count }, hv⟩, subspan_eq h, ?_, rfl⟩
  have hno : ¬ (v.data + offset.toNat = 0 ∧ count ≠ 0#64) := fun hboth => hboth.2 (hv hboth.1)
  rw [View.fromSpan, dif_neg hno]

theorem slice_ok {v : View} (offset length : Size)
    (h : offset.toNat + length.toNat ≤ v.size.toNat) :
    ∃ w, v.slice offset length = .ok w ∧
      w.toSpan = { data := v.data + offset.toNat, size := length } := by
  have hrange := (checkedRange_ok_iff offset length v.size).mpr h
  refine ⟨⟨_, View.slice_valid v hrange⟩, ?_, rfl⟩
  unfold View.slice
  split
  · rename_i e he
    rw [hrange] at he
    cases he
  · rfl

end Laghu.Views
