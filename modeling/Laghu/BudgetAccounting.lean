import Laghu.MemoryBudgets
import Mathlib.Algebra.BigOperators.Group.Multiset.Basic
import Mathlib.Data.Finset.Card

/-!
Charges are sums. A budget's counters are determined by the multiset of
reservations in the program: those made on the budget itself and those made on
its descendants. Each operation replaces one reservation and updates one chain
of budgets; the other reservations are an arbitrary frame, so a component that
owns a reservation can use these rules whatever else shares the budget tree.
-/

namespace Laghu.MemoryBudgets

open Contract ParentChain MemoryBudget Multiset MemoryReservation

abbrev parentOf (bs : Budgets) : ℕ → Option ℕ := link MemoryBudget.parent bs

/-- The reservation was made on `a` or on a descendant of `a`. -/
def ChargedTo (parent : ℕ → Option ℕ) (a : ℕ) (r : MemoryReservation) : Prop :=
  ∃ b, r.budget = some b ∧ OnChain parent b a

open Classical in
/-- Total weight of the reservations charged to `a`. -/
noncomputable def totalAt (weight : MemoryReservation → ℕ) (parent : ℕ → Option ℕ)
    (R : Multiset MemoryReservation) (a : ℕ) : ℕ :=
  ((R.filter (ChargedTo parent a)).map weight).sum

def childCount (bs : Budgets) (a : ℕ) : ℕ :=
  ((Finset.range bs.size).filter (fun c => parentOf bs c = some a)).card

/-- The charges of every live budget agree with the reservations `R`. -/
structure Charges (bs : Budgets) (R : Multiset MemoryReservation) : Prop where
  rooted : Rooted MemoryBudget.parent bs
  owned : ∀ r ∈ R, ∀ b, r.budget = some b → ∃ x, bs.get? b = some x
  charged_eq : ∀ a x, bs.get? a = some x →
    x.charged.toNat = totalAt (fun r => r.bytes.toNat) (parentOf bs) R a
  live_eq : ∀ a x, bs.get? a = some x →
    x.liveReservations.toNat = totalAt (fun _ => 1) (parentOf bs) R a
  charged_le : ∀ a x, bs.get? a = some x → x.charged.toNat ≤ x.limit.toNat

/-- The counters of every live budget agree with the rest of the program. -/
structure Accounted (bs : Budgets) (R : Multiset MemoryReservation) : Prop
    extends Charges bs R where
  children_eq : ∀ a x, bs.get? a = some x → x.liveChildren.toNat = childCount bs a

/-- Every budget from `b` up to its root has `n` bytes left and can count one
more reservation. -/
def Room (bs : Budgets) (b : ℕ) (n : Size) : Prop :=
  ∀ a y, OnChain (parentOf bs) b a → bs.get? a = some y →
    y.charged.toNat + n.toNat ≤ y.limit.toNat ∧ y.liveReservations ≠ sizeMax

/-- What a reservation contributes to a budget it is charged to. -/
def MemoryReservation.share (weight : MemoryReservation → ℕ) (r : MemoryReservation) : ℕ :=
  if r.isActive then weight r else 0

section Totals

variable {weight : MemoryReservation → ℕ} {parent : ℕ → Option ℕ}
  {R : Multiset MemoryReservation} {r : MemoryReservation} {a b : ℕ}

theorem chargedTo_iff (hr : r.budget = some b) : ChargedTo parent a r ↔ OnChain parent b a := by
  constructor
  · rintro ⟨c, hc, hchain⟩
    rw [hr] at hc
    cases hc
    exact hchain
  · intro hchain
    exact ⟨b, hr, hchain⟩

theorem not_chargedTo (hr : r.budget = none) : ¬ ChargedTo parent a r := by
  rintro ⟨c, hc, _⟩
  rw [hr] at hc
  cases hc

theorem share_active (hr : r.budget = some b) : r.share weight = weight r := by
  simp [share, isActive, hr]

theorem share_inactive (hr : r.budget = none) : r.share weight = 0 := by
  simp [share, isActive, hr]

theorem totalAt_cons_on (hr : r.budget = some b ∨ r.budget = none) (ha : OnChain parent b a) :
    totalAt weight parent (r ::ₘ R) a = r.share weight + totalAt weight parent R a := by
  classical
  rcases hr with hr | hr
  · have hmem : ChargedTo parent a r := (chargedTo_iff hr).mpr ha
    simp [totalAt, hmem, share_active hr]
  · simp [totalAt, not_chargedTo hr, share_inactive hr]

theorem totalAt_cons_off (hr : r.budget = some b ∨ r.budget = none) (ha : ¬ OnChain parent b a) :
    totalAt weight parent (r ::ₘ R) a = totalAt weight parent R a := by
  classical
  rcases hr with hr | hr
  · have hmem : ¬ ChargedTo parent a r := fun h => ha ((chargedTo_iff hr).mp h)
    simp [totalAt, hmem]
  · simp [totalAt, not_chargedTo hr]

theorem totalAt_cons_inactive (hr : r.budget = none) :
    totalAt weight parent (r ::ₘ R) a = totalAt weight parent R a := by
  classical
  simp [totalAt, not_chargedTo hr]

/-- Only the chains of the reservations' own budgets matter. -/
theorem totalAt_congr {parent' : ℕ → Option ℕ}
    (h : ∀ r ∈ R, ∀ b, r.budget = some b → (OnChain parent' b a ↔ OnChain parent b a)) :
    totalAt weight parent' R a = totalAt weight parent R a := by
  classical
  unfold totalAt
  congr 2
  apply filter_congr
  intro r hr
  constructor
  · rintro ⟨b, hb, hchain⟩
    exact ⟨b, hb, (h r hr b hb).mp hchain⟩
  · rintro ⟨b, hb, hchain⟩
    exact ⟨b, hb, (h r hr b hb).mpr hchain⟩

end Totals

namespace Accounted

variable {bs bs' : Budgets} {R : Multiset MemoryReservation} {r : MemoryReservation}
  {a b : ℕ} {x : MemoryBudget}

theorem cons_inactive (hr : r.budget = none) : Accounted bs (r ::ₘ R) ↔ Accounted bs R := by
  constructor
  · intro h
    refine ⟨⟨h.rooted, fun s hs => h.owned s (mem_cons_of_mem hs), ?_, ?_,
      h.charged_le⟩, h.children_eq⟩
    · intro a x hx
      rw [h.charged_eq a x hx, totalAt_cons_inactive hr]
    · intro a x hx
      rw [h.live_eq a x hx, totalAt_cons_inactive hr]
  intro h
  refine ⟨⟨h.rooted, ?_, ?_, ?_, h.charged_le⟩, h.children_eq⟩
  · intro s hs c hc
    rcases mem_cons.mp hs with rfl | hs
    · rw [hr] at hc
      cases hc
    · exact h.owned s hs c hc
  · intro a x hx
    rw [h.charged_eq a x hx, totalAt_cons_inactive hr]
  · intro a x hx
    rw [h.live_eq a x hx, totalAt_cons_inactive hr]

/-- A budget charged with a reservation has counted its bytes and itself. -/
theorem share_le (h : Accounted bs (r ::ₘ R)) (hr : r.budget = some b)
    (ha : OnChain (parentOf bs) b a) (hx : bs.get? a = some x) :
    r.bytes.toNat ≤ x.charged.toNat ∧ 1 ≤ x.liveReservations.toNat := by
  have hcharged := h.charged_eq a x hx
  have hl := h.live_eq a x hx
  rw [totalAt_cons_on (.inl hr) ha, share_active hr] at hcharged hl
  omega

variable {f : MemoryBudget → MemoryBudget}

/-- The accounting rule. One reservation is replaced by another on the same
budget while the counters along that budget's chain change by the difference. -/
theorem replace (h : Accounted bs (r ::ₘ R)) (r' : MemoryReservation)
    (hmap : Mapped parent bs bs' b f) (hb : ∃ x, bs.get? b = some x)
    (hpar : ∀ x, (f x).parent = x.parent) (hchildren : ∀ x, (f x).liveChildren = x.liveChildren)
    (hr : r.budget = some b ∨ r.budget = none) (hr' : r'.budget = some b ∨ r'.budget = none)
    (hf : ∀ a x, OnChain (parentOf bs) b a → bs.get? a = some x →
      (f x).charged.toNat + r.share (fun r => r.bytes.toNat) =
          x.charged.toNat + r'.share (fun r => r.bytes.toNat) ∧
        (f x).liveReservations.toNat + r.share (fun _ => 1) =
          x.liveReservations.toNat + r'.share (fun _ => 1) ∧
        (f x).charged.toNat ≤ (f x).limit.toNat) :
    Accounted bs' (r' ::ₘ R) := by
  have hl : parentOf bs' = parentOf bs := hmap.link_eq hpar
  refine ⟨⟨h.rooted.of_link_eq hl hmap.live, ?_, ?_, ?_, ?_⟩, ?_⟩
  · intro s hs c hc
    rcases mem_cons.mp hs with rfl | hs
    · rcases hr' with hb' | hnone
      · rw [hb'] at hc
        cases hc
        obtain ⟨x, hx⟩ := hb
        exact hmap.live _ x hx
      · rw [hnone] at hc
        cases hc
    · obtain ⟨x, hx⟩ := h.owned s (mem_cons_of_mem hs) c hc
      exact hmap.live c x hx
  · intro a x' hx'
    rw [hl]
    rcases hmap.get?_some hx' with ⟨hon, x, hx, rfl⟩ | ⟨hoff, hx⟩
    · have hold := h.charged_eq a x hx
      have hnew := (hf a x hon hx).1
      rw [totalAt_cons_on hr hon] at hold
      rw [totalAt_cons_on hr' hon]
      omega
    · have hold := h.charged_eq a x' hx
      rw [totalAt_cons_off hr hoff] at hold
      rw [totalAt_cons_off hr' hoff]
      exact hold
  · intro a x' hx'
    rw [hl]
    rcases hmap.get?_some hx' with ⟨hon, x, hx, rfl⟩ | ⟨hoff, hx⟩
    · have hold := h.live_eq a x hx
      have hnew := (hf a x hon hx).2.1
      rw [totalAt_cons_on hr hon] at hold
      rw [totalAt_cons_on hr' hon]
      omega
    · have hold := h.live_eq a x' hx
      rw [totalAt_cons_off hr hoff] at hold
      rw [totalAt_cons_off hr' hoff]
      exact hold
  · intro a x' hx'
    rcases hmap.get?_some hx' with ⟨hon, x, hx, rfl⟩ | ⟨hoff, hx⟩
    · exact (hf a x hon hx).2.2
    · exact h.charged_le a x' hx
  intro a x' hx'
  have hn : childCount bs' a = childCount bs a := by
    unfold childCount
    rw [hmap.size_eq, hl]
  rw [hn]
  rcases hmap.get?_some hx' with ⟨hon, x, hx, rfl⟩ | ⟨hoff, hx⟩
  · rw [hchildren]
    exact h.children_eq a x hx
  · exact h.children_eq a x' hx

/-- The rule for an active reservation that only changes its size. -/
theorem resize (h : Accounted bs (r ::ₘ R)) (m : Size) (hr : r.budget = some b)
    (hmap : Mapped parent bs bs' b f) (hb : ∃ x, bs.get? b = some x)
    (hpar : ∀ x, (f x).parent = x.parent) (hchildren : ∀ x, (f x).liveChildren = x.liveChildren)
    (hl : ∀ x, (f x).liveReservations = x.liveReservations)
    (hf : ∀ a x, OnChain (parentOf bs) b a → bs.get? a = some x →
      (f x).charged.toNat + r.bytes.toNat = x.charged.toNat + m.toNat ∧
        (f x).charged.toNat ≤ (f x).limit.toNat) :
    Accounted bs' ({ r with bytes := m } ::ₘ R) := by
  have hr' : ({ r with bytes := m } : MemoryReservation).budget = some b := hr
  apply h.replace { r with bytes := m } hmap hb hpar hchildren (.inl hr) (.inl hr')
  intro a x ha hx
  obtain ⟨hcharged, hle⟩ := hf a x ha hx
  rw [share_active hr, share_active hr, share_active hr', share_active hr', hl]
  exact ⟨hcharged, rfl, hle⟩

end Accounted

end Laghu.MemoryBudgets
