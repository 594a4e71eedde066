import Mathlib.Algebra.Order.Group.Multiset

/-!
Objects addressed by identity. Identities are handed out in order and never
reused, which is how a program that never follows a dangling pointer sees its
own objects. The live values form a multiset: whoever owns one object can split
it off, change it, and put it back without mentioning any of the others.
-/

namespace Laghu.ObjectTable

open List Multiset Option

/-- `none` is an object whose lifetime has ended. -/
structure Table (α : Type*) where
  cells : List (Option α)
  deriving DecidableEq, Repr

namespace Table

variable {α β : Type*}

def empty : Table α := ⟨[]⟩

def size (t : Table α) : ℕ := t.cells.length

def get? (t : Table α) (i : ℕ) : Option α := t.cells[i]?.join

def push (t : Table α) (a : α) : Table α := ⟨t.cells ++ [some a]⟩

def set (t : Table α) (i : ℕ) (a : α) : Table α := ⟨t.cells.set i (some a)⟩

def erase (t : Table α) (i : ℕ) : Table α := ⟨t.cells.set i none⟩

def values (t : Table α) : Multiset α := (t.cells.filterMap id : List α)

theorem get?_eq_some (t : Table α) (i : ℕ) (a : α) :
    t.get? i = some a ↔ t.cells[i]? = some (some a) := by
  simp [get?, join_eq_some_iff]

variable {t : Table α} {i j : ℕ} {a x b : α}

theorem lt_size_of_get? (h : t.get? i = some a) : i < t.size := by
  rw [get?_eq_some] at h
  exact (List.getElem?_eq_some_iff.mp h).1

theorem get?_of_size_le (h : t.size ≤ i) : t.get? i = none := by
  simp [get?, getElem?_eq_none h]

@[simp] theorem size_set (t : Table α) (i : ℕ) (a : α) : (t.set i a).size = t.size := by
  simp [size, set]

@[simp] theorem size_erase (t : Table α) (i : ℕ) : (t.erase i).size = t.size := by
  simp [size, erase]

@[simp] theorem size_push (t : Table α) (a : α) : (t.push a).size = t.size + 1 := by
  simp [size, push]

theorem get?_set_self (b : α) (h : t.get? i = some a) : (t.set i b).get? i = some b := by
  have hi : i < t.cells.length := lt_size_of_get? h
  simp [get?, set, hi]

theorem get?_set_ne (t : Table α) (b : α) (h : j ≠ i) : (t.set i b).get? j = t.get? j := by
  simp [get?, set, getElem?_set_ne (Ne.symm h)]

theorem get?_erase_self (t : Table α) (i : ℕ) : (t.erase i).get? i = none := by
  simp only [get?, erase, getElem?_set_self']
  cases t.cells[i]? <;> rfl

theorem get?_erase_ne (t : Table α) (h : j ≠ i) : (t.erase i).get? j = t.get? j := by
  simp [get?, erase, getElem?_set_ne (Ne.symm h)]

@[simp] theorem get?_push_size (t : Table α) (a : α) : (t.push a).get? t.size = some a := by
  simp [get?, push, size]

theorem get?_push_lt (t : Table α) (a : α) (h : i < t.size) : (t.push a).get? i = t.get? i := by
  simp [get?, push, getElem?_append_left h]

theorem get?_push_ne (t : Table α) (a : α) (h : i ≠ t.size) : (t.push a).get? i = t.get? i := by
  rcases Nat.lt_or_gt_of_ne h with hlt | hgt
  · exact get?_push_lt t a hlt
  · rw [get?_of_size_le (t := t) (by omega), get?_of_size_le (by simp; omega)]

theorem get?_push_of_some (a : α) (h : t.get? i = some x) : (t.push a).get? i = some x := by
  rw [get?_push_lt t a (lt_size_of_get? h), h]

/-- The object found after a push is the new one or was there before. -/
theorem get?_push_cases (h : (t.push a).get? i = some x) :
    (i = t.size ∧ x = a) ∨ t.get? i = some x := by
  by_cases hi : i = t.size
  · rw [hi, get?_push_size] at h
    exact .inl ⟨hi, (some.inj h).symm⟩
  · rw [get?_push_ne t a hi] at h
    exact .inr h

theorem get?_set_cases (h : (t.set i b).get? j = some x) :
    (j = i ∧ x = b) ∨ (j ≠ i ∧ t.get? j = some x) := by
  by_cases hj : j = i
  · have hi : i < t.cells.length := by
      have hsize := lt_size_of_get? h
      rw [size_set, hj] at hsize
      exact hsize
    simp only [hj, get?, set, getElem?_set_self hi, join_some, some.injEq] at h
    exact .inl ⟨hj, h.symm⟩
  · rw [get?_set_ne t b hj] at h
    exact .inr ⟨hj, h⟩

/-- Replacing an object ends no lifetime. -/
theorem live_set (i : ℕ) (b : α) (h : t.get? j = some x) : ∃ y, (t.set i b).get? j = some y := by
  by_cases hj : j = i
  · subst hj
    exact ⟨b, get?_set_self b h⟩
  · exact ⟨x, by rw [get?_set_ne t b hj, h]⟩

theorem get?_erase_cases (h : (t.erase i).get? j = some x) : j ≠ i ∧ t.get? j = some x := by
  by_cases hj : j = i
  · rw [hj, get?_erase_self] at h
    cases h
  · rw [get?_erase_ne t hj] at h
    exact ⟨hj, h⟩

theorem ext_get? {t' : Table α} (hsize : t.size = t'.size) (hget : ∀ i, t.get? i = t'.get? i) :
    t = t' := by
  obtain ⟨cells⟩ := t
  obtain ⟨cells'⟩ := t'
  have hlen : cells.length = cells'.length := hsize
  congr 1
  apply ext_getElem hlen
  intro i hi hi'
  have h := hget i
  simpa [get?, getElem?_eq_getElem hi, getElem?_eq_getElem hi'] using h

theorem set_get?_self (h : t.get? i = some a) : t.set i a = t := by
  apply ext_get? (size_set t i a)
  intro j
  by_cases hj : j = i
  · subst hj
    rw [get?_set_self a h, h]
  · exact get?_set_ne t a hj

@[simp] theorem values_push (t : Table α) (a : α) : (t.push a).values = a ::ₘ t.values := by
  simp only [values, push, filterMap_append, List.filterMap_cons, id_eq,
    filterMap_nil, cons_coe, coe_eq_coe]
  exact perm_append_singleton a _

/-- Splitting one live object off the table: replacing it or ending its
lifetime leaves the other objects as they were. -/
theorem values_focus (h : t.get? i = some a) : ∃ rest : Multiset α, t.values = a ::ₘ rest ∧
      (∀ b, (t.set i b).values = b ::ₘ rest) ∧ (t.erase i).values = rest := by
  rw [get?_eq_some] at h
  obtain ⟨hi, hget⟩ := List.getElem?_eq_some_iff.mp h
  have hsplit : t.cells = t.cells.take i ++ some a :: t.cells.drop (i + 1) := by
    rw [← hget, cons_getElem_drop_succ, take_append_drop]
  refine ⟨((t.cells.take i ++ t.cells.drop (i + 1)).filterMap id : List α), ?_, ?_, ?_⟩
  · unfold values
    conv_lhs => rw [hsplit]
    simp only [filterMap_append, List.filterMap_cons, id_eq, cons_coe, coe_eq_coe]
    exact perm_middle
  · intro b
    simp only [values, set, set_eq_take_append_cons_drop, hi, if_true,
      filterMap_append, List.filterMap_cons, id_eq, cons_coe, coe_eq_coe]
    exact perm_middle
  · simp only [values, erase, set_eq_take_append_cons_drop, hi, if_true,
      filterMap_append, List.filterMap_cons, id_eq]

/-- Moving the value of `source` over the value of `target`: only the old value
of `target` is lost. -/
theorem values_assign {target source : ℕ} {old moved : α} (hne : target ≠ source)
    (hold : t.get? target = some old) (hm : t.get? source = some moved) :
    ∃ rest : Multiset α, t.values = old ::ₘ rest ∧
      ∀ b, ((t.set target moved).set source b).values = b ::ₘ rest := by
  obtain ⟨rest, hvals, hset, _⟩ := values_focus hold
  have hsrc : (t.set target moved).get? source = some moved := by
    rw [get?_set_ne _ _ (Ne.symm hne), hm]
  obtain ⟨rest', hvals', hset', _⟩ := values_focus hsrc
  rw [hset, Multiset.cons_inj_right] at hvals'
  refine ⟨rest, hvals, fun b => ?_⟩
  rw [hset', hvals']

theorem mem_values (t : Table α) (a : α) : a ∈ t.values ↔ ∃ i, t.get? i = some a := by
  simp only [values, mem_coe, List.mem_filterMap, id_eq, exists_eq_right, get?_eq_some]
  exact mem_iff_getElem?

/-- Objects that are told apart by `f` sit at one place each. -/
theorem index_unique {P : α → Prop} [DecidablePred P] {f : α → β}
    (hnodup : ((t.values.filter P).map f).Nodup) (ha : t.get? i = some a) (hb : t.get? j = some b)
    (hPa : P a) (hPb : P b) (hf : f a = f b) : i = j := by
  by_contra hne
  obtain ⟨rest, hvals, _, herase⟩ := values_focus ha
  have hmem : b ∈ rest := by
    rw [← herase, mem_values]
    exact ⟨j, by rw [get?_erase_ne t (Ne.symm hne), hb]⟩
  rw [hvals, Multiset.filter_cons_of_pos _ hPa, Multiset.map_cons, Multiset.nodup_cons] at hnodup
  exact hnodup.1 (Multiset.mem_map.mpr ⟨b, Multiset.mem_filter.mpr ⟨hmem, hPb⟩, hf.symm⟩)

end Table

end Laghu.ObjectTable
