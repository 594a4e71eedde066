import Laghu.BudgetOperations

/-!
Creating and destroying budgets. A new budget has nothing charged to it and
changes no existing chain. A budget without children and reservations lies on
no chain that starts at a reservation, so it can go without affecting a total.
-/

namespace Laghu.MemoryBudgets

open Contract ParentChain MemoryBudget ObjectTable.Table Finset

variable {bs : Budgets} {R : Multiset MemoryReservation} {b p : ℕ} {x y : MemoryBudget}

theorem onChain_of_no_child {parent : ℕ → Option ℕ}
    (h : ∀ c, parent c ≠ some b) {o : ℕ} (hchain : OnChain parent o b) : o = b := by
  rcases Relation.ReflTransGen.cases_tail hchain with heq | ⟨c, _, hc⟩
  · exact heq.symm
  · exact absurd hc (h c)

theorem parentOf_eq_some (h : parentOf bs b = some p) :
    ∃ x, bs.get? b = some x ∧ x.parent = some p := by
  simpa only [parentOf, link, Option.bind_eq_some_iff] using h

namespace Charges

/-- Charges do not depend on how many children a budget has. -/
theorem set_liveChildren (h : Charges bs R) (hx : bs.get? b = some x) (k : Size) :
    Charges (bs.set b { x with liveChildren := k }) R := by
  have hlink : parentOf (bs.set b { x with liveChildren := k }) = parentOf bs :=
    link_set hx rfl
  have hget : ∀ a y, (bs.set b { x with liveChildren := k }).get? a = some y →
      ∃ z, bs.get? a = some z ∧ y.charged = z.charged ∧ y.limit = z.limit ∧
        y.liveReservations = z.liveReservations := by
    intro a y hy
    rcases get?_set_cases hy with ⟨rfl, rfl⟩ | ⟨_, hy⟩
    · exact ⟨x, hx, rfl, rfl, rfl⟩
    · exact ⟨y, hy, rfl, rfl, rfl⟩
  have hrooted : Rooted MemoryBudget.parent (bs.set b { x with liveChildren := k }) :=
    h.rooted.set hx rfl
  refine ⟨hrooted, ?_, ?_, ?_, ?_⟩
  · intro r hr o ho
    obtain ⟨z, hz⟩ := h.owned r hr o ho
    exact live_set b _ hz
  · intro a y hy
    obtain ⟨z, hz, hcharged, _⟩ := hget a y hy
    rw [hlink, hcharged, h.charged_eq a z hz]
  · intro a y hy
    obtain ⟨z, hz, _, _, hl⟩ := hget a y hy
    rw [hlink, hl, h.live_eq a z hz]
  intro a y hy
  obtain ⟨z, hz, hcharged, hlimit, _⟩ := hget a y hy
  rw [hcharged, hlimit]
  exact h.charged_le a z hz

theorem push (h : Charges bs R) (hcharged : x.charged = 0#64) (hl : x.liveReservations = 0#64)
    (hpar : ∀ p, x.parent = some p → ∃ y, bs.get? p = some y) : Charges (bs.push x) R := by
  have hrooted := h.rooted.push hpar
  have howned : ∀ r ∈ R, ∀ o, r.budget = some o → o < bs.size := by
    intro r hr o ho
    obtain ⟨z, hz⟩ := h.owned r hr o ho
    exact lt_size_of_get? hz
  have hchain : ∀ r ∈ R, ∀ o, r.budget = some o → ∀ a,
      (OnChain (parentOf (bs.push x)) o a ↔ OnChain (parentOf bs) o a) := by
    intro r hr o ho a
    apply onChain_congr
    intro c hc
    have hco := onChain_le h.rooted.older hc
    have hsize := howned r hr o ho
    rw [parentOf, link_push, if_neg (by omega)]
  have hnew : ∀ weight, totalAt weight (parentOf (bs.push x)) R bs.size = 0 := by
    classical
    intro weight
    have he : R.filter (ChargedTo (parentOf (bs.push x)) bs.size) = 0 := by
      apply Multiset.filter_eq_nil.mpr
      rintro r hr ⟨o, ho, hon⟩
      have hle := onChain_le hrooted.older hon
      have hsize := howned r hr o ho
      omega
    simp [totalAt, he]
  refine ⟨hrooted, ?_, ?_, ?_, ?_⟩
  · intro r hr o ho
    obtain ⟨z, hz⟩ := h.owned r hr o ho
    exact ⟨z, get?_push_of_some x hz⟩
  · intro a y hy
    rcases get?_push_cases hy with ⟨rfl, rfl⟩ | hy
    · rw [hnew, hcharged]
      rfl
    · rw [h.charged_eq a y hy]
      exact (totalAt_congr (fun r hr o ho => hchain r hr o ho a)).symm
  · intro a y hy
    rcases get?_push_cases hy with ⟨rfl, rfl⟩ | hy
    · rw [hnew, hl]
      rfl
    · rw [h.live_eq a y hy]
      exact (totalAt_congr (fun r hr o ho => hchain r hr o ho a)).symm
  · intro a y hy
    rcases get?_push_cases hy with ⟨rfl, rfl⟩ | hy
    · rw [hcharged]
      exact Nat.zero_le _
    · exact h.charged_le a y hy

/-- Nothing is charged to a budget without reservations and children. -/
theorem totalAt_eq_zero (hfree : ∀ r ∈ R, r.budget ≠ some b) (hleaf : ∀ c, parentOf bs c ≠ some b)
    (weight : MemoryReservation → ℕ) : totalAt weight (parentOf bs) R b = 0 := by
  classical
  have he : R.filter (ChargedTo (parentOf bs) b) = 0 := by
    apply Multiset.filter_eq_nil.mpr
    rintro r hr ⟨o, ho, hon⟩
    have hob := onChain_of_no_child hleaf hon
    subst hob
    exact hfree r hr ho
  simp [totalAt, he]

theorem erase (h : Charges bs R) (hfree : ∀ r ∈ R, r.budget ≠ some b)
    (hleaf : ∀ c, parentOf bs c ≠ some b) : Charges (bs.erase b) R := by
  have hchain : ∀ r ∈ R, ∀ o, r.budget = some o → ∀ a,
      (OnChain (parentOf (bs.erase b)) o a ↔ OnChain (parentOf bs) o a) := by
    intro r hr o ho a
    apply onChain_congr
    intro c hc
    have hcb : c ≠ b := by
      rintro rfl
      have hoc := onChain_of_no_child hleaf hc
      subst hoc
      exact hfree r hr ho
    rw [parentOf, link_erase, if_neg hcb]
  refine ⟨h.rooted.erase hleaf, ?_, ?_, ?_, ?_⟩
  · intro r hr o ho
    obtain ⟨z, hz⟩ := h.owned r hr o ho
    have hob : o ≠ b := by
      rintro rfl
      exact hfree r hr ho
    exact ⟨z, by rw [get?_erase_ne _ hob, hz]⟩
  all_goals
    intro a y hy
    obtain ⟨_, hy⟩ := get?_erase_cases hy
  · rw [h.charged_eq a y hy]
    exact (totalAt_congr (fun r hr o ho => hchain r hr o ho a)).symm
  · rw [h.live_eq a y hy]
    exact (totalAt_congr (fun r hr o ho => hchain r hr o ho a)).symm
  · exact h.charged_le a y hy

end Charges

section ChildCounts

theorem childCount_set_liveChildren (hx : bs.get? b = some x) (k : Size) (a : ℕ) :
    childCount (bs.set b { x with liveChildren := k }) a = childCount bs a := by
  have hl : parentOf (bs.set b { x with liveChildren := k }) = parentOf bs :=
    link_set hx rfl
  simp only [childCount, size_set, hl]

theorem childCount_push (bs : Budgets) (x : MemoryBudget) (a : ℕ) :
    childCount (bs.push x) a = childCount bs a + if x.parent = some a then 1 else 0 := by
  have hold : (range bs.size).filter (fun c => parentOf (bs.push x) c = some a) =
      (range bs.size).filter (fun c => parentOf bs c = some a) := by
    apply filter_congr
    intro c hc
    rw [mem_range] at hc
    rw [parentOf, link_push, if_neg (by omega)]
  have hl : parentOf (bs.push x) bs.size = x.parent := by
    rw [parentOf, link_push, if_pos rfl]
  unfold childCount
  rw [size_push, range_add_one, filter_insert, hl, hold]
  split
  · rw [card_insert_of_notMem (by simp)]
  · rfl

theorem childCount_erase (bs : Budgets) (b a : ℕ) :
    childCount (bs.erase b) a + (if parentOf bs b = some a then 1 else 0) = childCount bs a := by
  have herase : (range bs.size).filter (fun c => parentOf (bs.erase b) c = some a) =
      ((range bs.size).filter (fun c => parentOf bs c = some a)).erase b := by
    ext c
    simp only [mem_filter, mem_erase, link_erase]
    by_cases hc : c = b
    · simp [hc]
    · simp [hc]
  unfold childCount
  rw [size_erase, herase]
  split
  · rename_i hb
    obtain ⟨x, hx, _⟩ := parentOf_eq_some hb
    apply card_erase_add_one
    rw [mem_filter, mem_range]
    exact ⟨lt_size_of_get? hx, hb⟩
  · rename_i hb
    rw [erase_eq_of_notMem (by simp [hb])]
    rfl

theorem childCount_eq_zero (hleaf : ∀ c, parentOf bs c ≠ some b) : childCount bs b = 0 := by
  simp [childCount, hleaf]

end ChildCounts

end Laghu.MemoryBudgets
