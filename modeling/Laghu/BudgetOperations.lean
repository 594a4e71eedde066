import Laghu.BudgetAccounting

/-!
What each budget operation does to an accounted tree. Every rule lists all the
outcomes: an operation that returns an error has changed nothing, one that
succeeds has updated exactly one chain, and none of them stops the program.
-/

namespace Laghu.MemoryBudgets

open Contract ObjectTable ParentChain MemoryBudget BitVec MemoryReservation Table

/-- Budgets that are not lost stay alive and keep their worker. -/
def Keeps (lost : ℕ → Prop) (bs bs' : Budgets) : Prop :=
  ∀ a x, ¬ lost a → bs.get? a = some x → ∃ x', bs'.get? a = some x' ∧ x'.worker = x.worker

theorem Keeps.refl (lost : ℕ → Prop) (bs : Budgets) : Keeps lost bs bs :=
  fun _ x _ hx => ⟨x, hx, rfl⟩

theorem Keeps.trans {lost : ℕ → Prop} {bs bs' bs'' : Budgets} (h : Keeps lost bs bs')
    (h' : Keeps lost bs' bs'') : Keeps lost bs bs'' := by
  intro a x ha hx
  obtain ⟨x', hx', hsame⟩ := h a x ha hx
  obtain ⟨x'', hx'', hsame'⟩ := h' a x' ha hx'
  exact ⟨x'', hx'', hsame'.trans hsame⟩

theorem Keeps.push (lost : ℕ → Prop) (bs : Budgets) (x : MemoryBudget) :
    Keeps lost bs (bs.push x) :=
  fun _ y _ hy => ⟨y, get?_push_of_some x hy, rfl⟩

theorem Keeps.set {bs : Budgets} {b : ℕ} {x : MemoryBudget} (lost : ℕ → Prop) (x' : MemoryBudget)
    (hx : bs.get? b = some x) (hw : x'.worker = x.worker) : Keeps lost bs (bs.set b x') := by
  intro a y _ hy
  by_cases hab : a = b
  · subst hab
    rw [hx, Option.some.injEq] at hy
    exact ⟨x', get?_set_self x' hx, by rw [hw, hy]⟩
  · exact ⟨y, by rw [get?_set_ne bs x' hab, hy], rfl⟩

theorem Keeps.erase (bs : Budgets) (b : ℕ) : Keeps (fun a => a = b) bs (bs.erase b) :=
  fun _ y hne hy => ⟨y, by rw [get?_erase_ne bs hne, hy], rfl⟩

theorem Keeps.of_mapped {bs bs' : Budgets} {b : ℕ} {f : MemoryBudget → MemoryBudget}
    (lost : ℕ → Prop) (h : Mapped parent bs bs' b f)
    (hf : ∀ x, (f x).worker = x.worker) : Keeps lost bs bs' := by
  intro a x _ hx
  by_cases ha : OnChain (parentOf bs) b a
  · exact ⟨f x, by rw [h.on a ha, hx]; rfl, hf x⟩
  · exact ⟨x, by rw [h.off a ha, hx], rfl⟩

/-- The reservation that pays for `capacity` bytes. -/
def reservationFor (budget : ℕ) (capacity : Size) : MemoryReservation :=
  if capacity = 0#64 then {} else { budget := some budget, bytes := capacity }

variable {bs : Budgets} {R : Multiset MemoryReservation} {r : MemoryReservation}
  {b : ℕ} {x : MemoryBudget} {n : Size}

theorem requireWorker_cases (x : MemoryBudget) (worker : WorkerId) :
    (x.worker = worker ∧ x.requireWorker worker = .ok ()) ∨
      (x.worker ≠ worker ∧ ∃ e, x.requireWorker worker = .error e) := by
  by_cases h : x.worker = worker
  · exact .inl ⟨h, by simp [requireWorker, owns, h]⟩
  · have hvalue : x.worker.value ≠ worker.value := fun hv => h ((WorkerId.value_inj _ _).mp hv)
    exact .inr ⟨h, by simp [requireWorker, owns, hvalue]⟩

/-- The guard is exact because `limit - charged` does not wrap. -/
theorem admits_ok_iff (h : x.charged.toNat ≤ x.limit.toNat) : admits n x = .ok () ↔
      x.charged.toNat + n.toNat ≤ x.limit.toNat ∧ x.liveReservations ≠ sizeMax := by
  have hsub : (x.limit - x.charged).toNat = x.limit.toNat - x.charged.toNat :=
    toNat_sub_of_le (by rw [le_def]; exact h)
  unfold admits
  split
  · rename_i hl
    rw [gt_iff_lt, lt_def, hsub] at hl
    simp only [reduceCtorEq, false_iff]
    omega
  rename_i hsmall
  rw [gt_iff_lt, lt_def, hsub] at hsmall
  split
  · rename_i hf
    simp [hf]
  rename_i hn
  simp only [true_iff]
  exact ⟨by omega, hn⟩

theorem preflight_cases (h : Accounted bs R) (hx : bs.get? b = some x) (n : Size) :
    (Room bs b n ∧ preflightReservation bs b n = some (.ok ())) ∨
      (¬ Room bs b n ∧ ∃ a y e, bs.get? a = some y ∧ admits n y = .error e ∧
        preflightReservation bs b n = some (.error e)) := by
  rcases check_cases parent (admits n) (Nat.lt_succ_self b) h.rooted hx with
    ⟨hall, hrun⟩ | ⟨a, y, e, ha, hy, he, hrun⟩
  · refine .inl ⟨?_, hrun⟩
    intro a y ha hy
    exact (admits_ok_iff (h.charged_le a y hy)).mp (hall a y ha hy)
  refine .inr ⟨?_, a, y, e, hy, he, hrun⟩
  intro hr
  have hok := (admits_ok_iff (h.charged_le a y hy)).mpr (hr a y ha hy)
  rw [he] at hok
  cases hok

/-- `reserve` succeeds exactly for the owner of a budget with room, and then
adds one reservation; otherwise it changes nothing. -/
theorem reserve_cases (h : Accounted bs R) (hx : bs.get? b = some x) (worker : WorkerId)
    (n : Size) :
    (x.worker = worker ∧ Room bs b n ∧ ∃ bs',
        reserve bs b worker n = some (.ok { budget := some b, bytes := n }, bs') ∧
        Mapped parent bs bs' b (charge n) ∧
        Accounted bs' ({ budget := some b, bytes := n } ::ₘ R)) ∨
      (¬ (x.worker = worker ∧ Room bs b n) ∧ ∃ e, reserve bs b worker n = some (.error e, bs)) := by
  rcases requireWorker_cases x worker with ⟨hw, hok⟩ | ⟨hw, e, he⟩
  · rcases preflight_cases h hx n with ⟨hr, hpre⟩ | ⟨hr, _, _, e, _, _, hpre⟩
    · obtain ⟨bs', hrun, hmap⟩ := forEach_mapped parent
        (fun current => some (charge n current)) (charge n) (fun _ => rfl)
        (Nat.lt_succ_self b) h.rooted hx (fun _ _ _ _ => rfl)
      refine .inl ⟨hw, hr, bs', by simp [reserve, hx, hok, hpre, hrun], hmap, ?_⟩
      apply ((Accounted.cons_inactive (r := {}) rfl).mpr h).replace _ hmap ⟨x, hx⟩ (fun _ => rfl)
        (fun _ => rfl) (.inr rfl) (.inl rfl)
      intro a y ha hy
      obtain ⟨hspace, hn⟩ := hr a y ha hy
      have hle := h.charged_le a y hy
      have hlimit := y.limit.isLt
      rw [share_inactive rfl, share_active rfl, share_inactive rfl, share_active rfl]
      unfold sizeMax at hn
      refine ⟨?_, ?_, ?_⟩ <;> simp only [charge] <;> bv_omega
    · exact .inr ⟨fun hall => hr hall.2, e, by simp [reserve, hx, hok, hpre]⟩
  · exact .inr ⟨fun hall => hw hall.1, e, by simp [reserve, hx, he]⟩

/-- The pure effect of one round of `release`. -/
def discharged (n : Size) (x : MemoryBudget) : MemoryBudget :=
  { x with charged := x.charged - n, liveReservations := x.liveReservations - 1 }

/-- The pure effect of one round of `shrink_reservation`. -/
def reduced (n : Size) (x : MemoryBudget) : MemoryBudget := { x with charged := x.charged - n }

section

variable (h : Accounted bs (r ::ₘ R))
include h

/-- Releasing an active reservation never finds a counter that is too small. -/
theorem release_spec (hr : r.budget = some b) :
    ∃ bs', release bs b r.bytes = some bs' ∧
      Mapped parent bs bs' b (discharged r.bytes) ∧ Accounted bs' R := by
  obtain ⟨x, hx⟩ := h.owned r (Multiset.mem_cons_self r R) b hr
  have hshare := fun a y (ha : OnChain (parentOf bs) b a) (hy : bs.get? a = some y) =>
    h.share_le hr ha hy
  have hbody : ∀ a y, OnChain (parentOf bs) b a → bs.get? a = some y →
      discharge r.bytes y = some (discharged r.bytes y) := by
    intro a y ha hy
    obtain ⟨hb, hl⟩ := hshare a y ha hy
    have hguard : ¬ (y.charged < r.bytes ∨ y.liveReservations = 0) := by
      rintro (hlow | h0)
      · rw [lt_def] at hlow
        omega
      · rw [h0] at hl
        simp at hl
    simp only [discharge, hguard, if_false, discharged]
  obtain ⟨bs', hrun, hmap⟩ := forEach_mapped parent (discharge r.bytes)
    (discharged r.bytes) (fun _ => rfl) (Nat.lt_succ_self b) h.rooted hx hbody
  refine ⟨bs', hrun, hmap, ?_⟩
  apply (Accounted.cons_inactive (r := {}) rfl).mp
  apply h.replace {} hmap ⟨x, hx⟩ (fun _ => rfl) (fun _ => rfl) (.inl hr) (.inr rfl)
  intro a y ha hy
  obtain ⟨hb, hl⟩ := hshare a y ha hy
  have hle := h.charged_le a y hy
  rw [share_active hr, share_inactive rfl, share_active hr, share_inactive rfl]
  refine ⟨?_, ?_, ?_⟩ <;> simp only [discharged] <;> bv_omega

theorem releaseUnchecked_spec :
    ∃ r' bs', r.releaseUnchecked bs = some (r', bs') ∧ r'.budget = none ∧ Accounted bs' R ∧
      (∀ lost, Keeps lost bs bs') ∧
      ∀ b, r.budget = some b → Mapped parent bs bs' b (discharged r.bytes) := by
  cases hr : r.budget with
  | none =>
    refine ⟨r, bs, by simp [releaseUnchecked, hr], hr,
      (Accounted.cons_inactive hr).mp h, fun lost => Keeps.refl lost bs, ?_⟩
    intro b hb
    cases hb
  | some b =>
    obtain ⟨bs', hrun, hmap, hacc⟩ := release_spec h hr
    refine ⟨{}, bs', by simp [releaseUnchecked, hr, hrun], rfl, hacc,
      fun lost => Keeps.of_mapped lost hmap (fun _ => rfl), ?_⟩
    intro c hc
    cases hc
    exact hmap

/-- The worker check in front of every reservation operation decides whether
the call reaches the budget at all. -/
theorem release_cases (worker : WorkerId) :
    (∃ r' bs', r.release bs worker = some (.ok (), r', bs') ∧ r'.budget = none ∧
        Accounted bs' (r' ::ₘ R) ∧ ∀ lost, Keeps lost bs bs') ∨
      ∃ e, r.release bs worker = some (.error e, r, bs) := by
  cases hr : r.budget with
  | none =>
    exact .inl ⟨r, bs, by simp [MemoryReservation.release, hr], hr, h,
      fun lost => Keeps.refl lost bs⟩
  | some b =>
    obtain ⟨x, hx⟩ := h.owned r (Multiset.mem_cons_self r R) b hr
    rcases requireWorker_cases x worker with ⟨_, hok⟩ | ⟨_, e, he⟩
    · obtain ⟨r', bs', hrun, hn, hacc, hkeeps, _⟩ := releaseUnchecked_spec h
      exact .inl ⟨r', bs', by simp [MemoryReservation.release, hr, hx, hok, hrun], hn,
        (Accounted.cons_inactive hn).mpr hacc, hkeeps⟩
    · exact .inr ⟨e, by simp [MemoryReservation.release, hr, hx, he]⟩

end

def reservationSizeOverflow : Error :=
  coreError .overflow "memory budget reservation size overflow"

theorem admits_ne_sizeOverflow {e : Error} (h : admits n x = .error e) :
    e ≠ reservationSizeOverflow := by
  unfold admits at h
  split at h
  · cases h
    decide
  split at h
  · cases h
    decide
  · cases h

/-- A live reservation is part of what its budget has charged, so once the
preflight passes, growing it cannot overflow its own size. -/
theorem grow_cases (h : Accounted bs (r ::ₘ R)) (hr : r.budget = some b)
    (hx : bs.get? b = some x) (worker : WorkerId) (n : Size) :
    (x.worker = worker ∧ Room bs b n ∧ r.bytes.toNat + n.toNat < 2 ^ 64 ∧ ∃ bs',
        r.grow bs worker n = some (.ok (), { r with bytes := r.bytes + n }, bs') ∧
        Mapped parent bs bs' b (extend n) ∧
        Accounted bs' ({ r with bytes := r.bytes + n } ::ₘ R)) ∨
      (¬ (x.worker = worker ∧ Room bs b n) ∧ ∃ e, e ≠ reservationSizeOverflow ∧
        r.grow bs worker n = some (.error e, r, bs)) := by
  rcases requireWorker_cases x worker with ⟨hw, hok⟩ | ⟨hw, e, he⟩
  · rcases preflight_cases h hx n with ⟨hroom, hpre⟩ | ⟨hroom, _, _, e, _, hadmits, hpre⟩
    · have hshare := (h.share_le hr (onChain_refl _ b) hx).1
      have hspace := (hroom b x (onChain_refl _ b) hx).1
      have hlimit := x.limit.isLt
      have hcharged := h.charged_le b x hx
      have hf : r.bytes.toNat + n.toNat < 2 ^ 64 := by omega
      have hguard : ¬ n > sizeMax - r.bytes := by
        unfold sizeMax
        bv_omega
      obtain ⟨bs', hrun, hmap⟩ := forEach_mapped parent
        (fun current => some (extend n current)) (extend n) (fun _ => rfl)
        (Nat.lt_succ_self b) h.rooted hx (fun _ _ _ _ => rfl)
      refine .inl ⟨hw, hroom, hf, bs', ?_, hmap, ?_⟩
      · simp [grow, growReservation, hr, hx, hok, hpre, hguard, hrun]
      apply h.resize (r.bytes + n) hr hmap ⟨x, hx⟩ (fun _ => rfl) (fun _ => rfl) (fun _ => rfl)
      intro a y ha hy
      have hroomy := (hroom a y ha hy).1
      have hle := h.charged_le a y hy
      have hsharey := (h.share_le hr ha hy).1
      have hlimity := y.limit.isLt
      constructor <;> simp only [extend] <;> bv_omega
    · refine .inr ⟨fun hall => hroom hall.2, e, admits_ne_sizeOverflow hadmits, ?_⟩
      simp [grow, growReservation, hr, hx, hok, hpre]
  · refine .inr ⟨fun hall => hw hall.1, e, ?_, ?_⟩
    · intro heq
      subst heq
      unfold requireWorker at he
      split at he
      · injection he with he
        exact absurd he (by decide)
      · cases he
    · simp [grow, hr, hx, he]

theorem shrink_cases (h : Accounted bs (r ::ₘ R)) (hr : r.budget = some b)
    (hx : bs.get? b = some x) (worker : WorkerId) (n : Size) :
    (x.worker = worker ∧ n.toNat ≤ r.bytes.toNat ∧ ∃ bs',
        r.shrink bs worker n = some (.ok (), { r with bytes := r.bytes - n }, bs') ∧
        Mapped parent bs bs' b (reduced n) ∧
        Accounted bs' ({ r with bytes := r.bytes - n } ::ₘ R)) ∨
      (¬ (x.worker = worker ∧ n.toNat ≤ r.bytes.toNat) ∧ ∃ e,
        r.shrink bs worker n = some (.error e, r, bs)) := by
  rcases requireWorker_cases x worker with ⟨hw, hok⟩ | ⟨hw, e, he⟩
  · by_cases hn : n > r.bytes
    · refine .inr ⟨?_, coreError .invalidRange "memory reservation cannot shrink below zero",
        by simp [shrink, shrinkReservation, hr, hx, hok, hn]⟩
      rw [gt_iff_lt, lt_def] at hn
      omega
    have hle : n.toNat ≤ r.bytes.toNat := by
      rw [gt_iff_lt, lt_def] at hn
      omega
    have hbody : ∀ a y, OnChain (parentOf bs) b a → bs.get? a = some y →
        reduce n y = some (reduced n y) := by
      intro a y ha hy
      have hshare := (h.share_le hr ha hy).1
      have hguard : ¬ y.charged < n := by
        rw [lt_def]
        omega
      simp only [reduce, hguard, if_false, reduced]
    obtain ⟨bs', hrun, hmap⟩ := forEach_mapped parent (reduce n)
      (reduced n) (fun _ => rfl) (Nat.lt_succ_self b) h.rooted hx hbody
    refine .inl ⟨hw, hle, bs', ?_, hmap, ?_⟩
    · simp [shrink, shrinkReservation, hr, hx, hok, hn, hrun]
    apply h.resize (r.bytes - n) hr hmap ⟨x, hx⟩ (fun _ => rfl) (fun _ => rfl) (fun _ => rfl)
    intro a y ha hy
    have hley := h.charged_le a y hy
    have hsharey := (h.share_le hr ha hy).1
    constructor <;> simp only [reduced] <;> bv_omega
  · exact .inr ⟨fun hall => hw hall.1, e, by simp [shrink, hr, hx, he]⟩

/-- An inactive reservation is left alone by both resizing operations. -/
theorem resize_inactive (hr : r.budget = none) (bs : Budgets) (worker : WorkerId) (n : Size) :
    (∃ e, r.grow bs worker n = some (.error e, r, bs)) ∧
      ∃ e, r.shrink bs worker n = some (.error e, r, bs) := by
  simp [grow, shrink, hr]

/-- A failed acquisition gives back exactly what was charged for it. -/
theorem reserveForAllocation_cases {σ : Type} (h : Accounted bs R) (hx : bs.get? b = some x)
    (worker : WorkerId) (n : Size) (acquire : σ → Result Unit × σ) (captured : σ) :
    (x.worker = worker ∧ Room bs b n ∧ ((∃ captured' bs', acquire captured = (.ok (), captured') ∧
            reserveForAllocation bs b worker n acquire captured =
              some (.ok { budget := some b, bytes := n }, bs', captured') ∧
            Mapped parent bs bs' b (charge n) ∧
            Accounted bs' ({ budget := some b, bytes := n } ::ₘ R)) ∨
          ∃ e captured', acquire captured = (.error e, captured') ∧
            reserveForAllocation bs b worker n acquire captured = some (.error e, bs, captured'))) ∨
      (¬ (x.worker = worker ∧ Room bs b n) ∧ ∃ e,
        reserveForAllocation bs b worker n acquire captured = some (.error e, bs, captured)) := by
  rcases reserve_cases h hx worker n with ⟨hw, hr, bs', hrun, hmap, hacc⟩ | ⟨hno, e, hrun⟩
  · refine .inl ⟨hw, hr, ?_⟩
    cases hacq : acquire captured with
    | mk outcome captured' =>
      cases outcome with
      | ok _ =>
        exact .inl ⟨captured', bs', rfl, by simp [reserveForAllocation, hrun, hacq], hmap, hacc⟩
      | error e =>
        obtain ⟨r', bs'', hback, _, _, _, hundo⟩ := releaseUnchecked_spec hacc
        have hsame : bs'' = bs := by
          apply hmap.cancel (hundo b rfl) (fun _ => rfl)
          intro a y ha hy
          have hcharged : y.charged + n - n = y.charged := by bv_omega
          have hl : y.liveReservations + 1 - 1 = y.liveReservations := by bv_omega
          simp only [charge, discharged, hcharged, hl]
        subst hsame
        exact .inr ⟨e, captured', rfl, by simp [reserveForAllocation, hrun, hacq, hback]⟩
  · exact .inr ⟨hno, e, by simp [reserveForAllocation, hrun]⟩

end Laghu.MemoryBudgets
