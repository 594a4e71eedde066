import Laghu.BoundedArenas
import Laghu.BoundedBuffers

/-!
What every arena operation keeps. An arena pays for exactly its capacity, its
block is large enough for the maximum from the start, and a range handed out
begins at or after everything handed out before it.
-/

namespace Laghu.BoundedArenas

open Contract CheckedArithmetic MemoryBudgets CapacityGrowth Views
open BoundedArena MemoryReservation

structure Shape (a : BoundedArena) : Prop where
  offset_le : a.offset.toNat ≤ a.capacity.toNat
  capacity_le : a.capacity.toNat ≤ a.maximumCapacity.toNat
  storage_size : a.capacity ≠ 0#64 → a.maximumCapacity.toNat ≤ a.storage.size.toNat
  reservation_eq : a.reservation = reservationFor a.budget a.capacity

/-- The arena has more capacity in the block it has, or in its first block. -/
structure Extended (a a' : BoundedArena) : Prop where
  shape : Shape a'
  worker_eq : a'.worker = a.worker
  budget_eq : a'.budget = a.budget
  maximum_eq : a'.maximumCapacity = a.maximumCapacity
  offset_eq : a'.offset = a.offset
  livePins_eq : a'.livePins = a.livePins
  generation_eq : a'.generation = a.generation
  base : a.capacity ≠ 0#64 → a'.storage = a.storage

/-- The arena has handed out `allocation` behind everything before it. -/
structure Allocated (a a' : BoundedArena) (bytes alignment : Size)
    (allocation : MutableByteView) : Prop where
  shape : Shape a'
  worker_eq : a'.worker = a.worker
  budget_eq : a'.budget = a.budget
  livePins_eq : a'.livePins = a.livePins
  generation_eq : a'.generation = a.generation
  base : a.capacity ≠ 0#64 → a'.storage = a.storage
  size_eq : allocation.size = bytes
  place : ∃ start, allocation.data = a'.storage.data + start ∧ start % alignment.toNat = 0 ∧
    a.offset.toNat ≤ start ∧ start + bytes.toNat = a'.offset.toNat

/-- A call fails without a trace or extends the arena and accounts for it. -/
def Extends (a : BoundedArena) (bs : Budgets) (R : Multiset MemoryReservation) (y : MemoryBudget)
    (P : BoundedArena → Prop) (call : Option (Result Unit × BoundedArena × Budgets)) : Prop :=
  (∃ e, call = some (.error e, a, bs)) ∨
    ∃ a' bs', call = some (.ok (), a', bs') ∧ Extended a a' ∧ P a' ∧
      Accounted bs' (a'.reservation ::ₘ R) ∧ (∀ lost, Keeps lost bs bs') ∧ y.worker = a.worker

section Capacity

variable {a : BoundedArena} {bs : Budgets} {R : Multiset MemoryReservation} {y : MemoryBudget}

theorem requireWorker_eq (a : BoundedArena) (worker : WorkerId) :
    (worker = a.worker ∧ a.requireWorker worker = .ok ()) ∨
      (worker ≠ a.worker ∧ ∃ e, a.requireWorker worker = .error e) := by
  by_cases h : worker = a.worker
  · exact .inl ⟨h, by simp [requireWorker, h]⟩
  · have hvalue : worker.value ≠ a.worker.value := fun hv => h ((WorkerId.value_inj _ _).mp hv)
    exact .inr ⟨h, by simp [requireWorker, hvalue]⟩

variable (h : Shape a) (hacc : Accounted bs (a.reservation ::ₘ R)) (hy : bs.get? a.budget = some y)
include h hacc hy

/-- The first extension charges the budget and takes the block, or neither. -/
theorem extendFirst_cases (he : a.capacity = 0#64) {target : Size}
    (hpos : 0 < target.toNat) (hle : target.toNat ≤ a.maximumCapacity.toNat)
    (reply : Result MutableByteView) :
    Extends a bs R y (·.capacity = target) (a.extendTo bs a.worker target reply) := by
  have hidle : a.reservation = {} := by rw [h.reservation_eq, reservationFor, if_pos he]
  have htgt : target ≠ 0#64 := by
    rw [ne_eq, size_eq_zero]
    omega
  rw [hidle] at hacc
  rcases reserveForAllocation_cases ((Accounted.cons_inactive rfl).mp hacc) hy a.worker target
      (firstAcquisition a.maximumCapacity reply) .empty with
    ⟨hw, _, ⟨acquired, bs', hacq, hrun, hmap, hacc'⟩ | ⟨e, acquired, _, hrun⟩⟩ |
    ⟨_, e, hrun⟩
  · have hblock : a.maximumCapacity.toNat ≤ acquired.size.toNat := by
      cases reply with
      | error e => simp [firstAcquisition] at hacq
      | ok block =>
        by_cases hsmall : block.size < a.maximumCapacity
        · simp [firstAcquisition, hsmall] at hacq
        simp only [firstAcquisition, hsmall, if_false, Prod.mk.injEq, true_and] at hacq
        rw [← hacq]
        rw [BitVec.lt_def] at hsmall
        omega
    refine .inr ⟨{ a with
      storage := acquired
      reservation := { budget := some a.budget, bytes := target }
      capacity := target }, bs', ?_, ⟨⟨?_, hle, fun _ => hblock, (if_neg htgt).symm⟩, rfl, rfl,
      rfl, rfl, rfl, rfl, fun hf => absurd he hf⟩, rfl, hacc',
      fun lost => Keeps.of_mapped lost hmap (fun _ => rfl), hw⟩
    · simp [extendTo, hidle, isActive, hrun,
        releaseUnchecked]
    have hoff := h.offset_le
    rw [he] at hoff
    exact Nat.le_trans hoff (Nat.zero_le _)
  iterate 2
    · exact .inl ⟨e, by
        simp [extendTo, hidle, isActive, hrun]⟩

/-- A later extension grows the reservation and keeps the block. -/
theorem extendAgain_cases (hf : a.capacity ≠ 0#64) {target : Size}
    (hmore : a.capacity.toNat < target.toNat) (hle : target.toNat ≤ a.maximumCapacity.toNat)
    (reply : Result MutableByteView) :
    Extends a bs R y (·.capacity = target) (a.extendTo bs a.worker target reply) := by
  have hact : a.reservation = { budget := some a.budget, bytes := a.capacity } := by
    rw [h.reservation_eq, reservationFor, if_neg hf]
  have hb : a.reservation.budget = some a.budget := by rw [hact]
  have hbytes : a.reservation.bytes = a.capacity := by rw [hact]
  have hisActive : a.reservation.isActive = true := by rw [hact]; rfl
  have htgt : target ≠ 0#64 := by
    rw [ne_eq, size_eq_zero]
    omega
  have hsum : a.capacity + (target - a.capacity) = target := by bv_omega
  rcases grow_cases hacc hb hy a.worker (target - a.capacity) with
    ⟨hw, _, _, bs', hrun, hmap, hacc'⟩ | ⟨_, e, _, hrun⟩
  · rw [hb, hbytes, hsum] at hrun hacc'
    refine .inr ⟨{ a with
      reservation := { budget := some a.budget, bytes := target }
      capacity := target }, bs', ?_, ⟨⟨?_, hle, fun _ => h.storage_size hf,
      (if_neg htgt).symm⟩, rfl, rfl, rfl, rfl, rfl, rfl, fun _ => rfl⟩, rfl, hacc',
      fun lost => Keeps.of_mapped lost hmap (fun _ => rfl), hw⟩
    · simp [extendTo, hisActive, hrun]
    · exact le_trans h.offset_le (le_of_lt hmore)
  · exact .inl ⟨e, by simp [extendTo, hisActive, hrun]⟩

theorem ensureCapacity_cases (howner : a.capacity ≠ 0#64 → y.worker = a.worker)
    {required : Size} (hpos : 0 < required.toNat)
    (hle : required.toNat ≤ a.maximumCapacity.toNat) (reply : Result MutableByteView) :
    Extends a bs R y (fun a' => required.toNat ≤ a'.capacity.toNat)
      (a.ensureCapacity bs a.worker required reply) := by
  by_cases hinv : !a.source.acquire ∨ !a.source.reset ∨ a.initialCapacity = 0#64 ∨
      a.initialCapacity > a.maximumCapacity
  · exact .inl ⟨_, by rw [ensureCapacity, if_pos hinv]⟩
  by_cases hf : required ≤ a.capacity
  · rw [BitVec.le_def] at hf
    have hfull : a.capacity ≠ 0#64 := by
      rw [ne_eq, size_eq_zero]
      omega
    refine .inr ⟨a, bs, ?_, ⟨h, rfl, rfl, rfl, rfl, rfl, rfl, fun _ => rfl⟩, hf, hacc,
      fun lost => Keeps.refl lost bs, howner hfull⟩
    rw [ensureCapacity, if_neg hinv, if_pos (by rw [BitVec.le_def]; exact hf)]
  have hmore : a.capacity.toNat < required.toNat := by
    rw [BitVec.le_def] at hf
    omega
  have hconfig := hinv
  simp only [not_or, gt_iff_lt, BitVec.lt_def, size_eq_zero] at hconfig
  obtain ⟨_, _, hinitial, hmax⟩ := hconfig
  obtain ⟨doubled, hdouble, -, hfirst⟩ := doubleUntil_start
    (Nat.pos_of_ne_zero hinitial) (Nat.le_of_not_lt hmax) h.capacity_le hle
  obtain ⟨hreq, hbound⟩ := hfirst.bounds hle
  have htgt : ¬ doubled > a.maximumCapacity := by
    rw [gt_iff_lt, BitVec.lt_def]
    omega
  have hrun : a.ensureCapacity bs a.worker required reply =
      a.extendTo bs a.worker doubled reply := by
    rw [ensureCapacity, if_neg hinv, if_neg hf]
    simp [hdouble, htgt]
  rw [hrun]
  have hextends : Extends a bs R y (·.capacity = doubled)
      (a.extendTo bs a.worker doubled reply) := by
    by_cases he : a.capacity = 0#64
    · exact extendFirst_cases h hacc hy he (by omega) hbound reply
    · exact extendAgain_cases h hacc hy he (by omega) hbound reply
  rcases hextends with hfail | ⟨a', bs', hrun, hext, hcap, hr⟩
  · exact .inl hfail
  · exact .inr ⟨a', bs', hrun, hext, by dsimp only; rw [hcap]; exact hreq, hr⟩

end Capacity

section Allocation

variable {a : BoundedArena} {bs : Budgets} {R : Multiset MemoryReservation} {y : MemoryBudget}

variable {alignment start bytes required : Size}

theorem isValidAlignment_pos (h : isValidAlignment alignment = true) :
    0 < alignment.toNat := by
  simp only [isValidAlignment, Bool.and_eq_true, bne_iff_ne, ne_eq] at h
  exact Nat.pos_of_ne_zero (fun h0 => h.1 ((size_eq_zero alignment).mpr h0))

/-- Padding reaches the next multiple of the alignment. -/
theorem padded_offset_aligned (a : BoundedArena) (hpos : 0 < alignment.toNat) :
    (a.offset.toNat + (a.padding alignment).toNat) % alignment.toNat = 0 := by
  have hrem : (a.offset % alignment).toNat = a.offset.toNat % alignment.toNat :=
    BitVec.toNat_umod
  have hlt := Nat.mod_lt a.offset.toNat hpos
  unfold padding
  by_cases h0 : a.offset % alignment = 0#64
  · rw [if_pos h0]
    rw [size_eq_zero, hrem] at h0
    simpa using h0
  rw [if_neg h0, BitVec.toNat_sub_of_le (by rw [BitVec.le_def, hrem]; omega), hrem]
  have hsplit := Nat.div_add_mod a.offset.toNat alignment.toNat
  have hsum : a.offset.toNat + (alignment.toNat - a.offset.toNat % alignment.toNat) =
      alignment.toNat * (a.offset.toNat / alignment.toNat + 1) := by
    rw [Nat.mul_add, mul_one]
    omega
  rw [hsum]
  exact Nat.mul_mod_right _ _

/-- The next range is aligned, behind the offset, and of the requested size. -/
theorem allocationRange_ok (hpos : 0 < alignment.toNat)
    (h : a.allocationRange bytes alignment = .ok (start, required)) :
    a.offset.toNat ≤ start.toNat ∧ start.toNat % alignment.toNat = 0 ∧
      required.toNat = start.toNat + bytes.toNat := by
  rw [allocationRange, bind_eq_ok] at h
  obtain ⟨alignedOffset, halign, h⟩ := h
  rw [bind_eq_ok] at h
  obtain ⟨total, htotal, h⟩ := h
  cases h
  have hstart := checkedAdd_ok halign
  have hmult := padded_offset_aligned a hpos
  rw [← hstart] at hmult
  exact ⟨by omega, hmult, checkedAdd_ok htotal⟩

variable (h : Shape a) (hacc : Accounted bs (a.reservation ::ₘ R)) (hy : bs.get? a.budget = some y)
  (howner : a.capacity ≠ 0#64 → y.worker = a.worker)
include h hacc hy howner

/-- Once the range is within the capacity, the allocation cannot fail. -/
theorem allocateAt_cases (this : ℕ) (reply : Result MutableByteView) (hb : bytes ≠ 0#64)
    (hoff : a.offset.toNat ≤ start.toNat) (halign : start.toNat % alignment.toNat = 0)
    (hend : required.toNat = start.toNat + bytes.toNat) :
    (∃ e, a.allocateAt this bs a.worker start bytes required reply = some (.error e, a, bs)) ∨
      ∃ (allocation : MutableByteView) (a' : BoundedArena) (bs' : Budgets),
        a.allocateAt this bs a.worker start bytes required reply =
          some (.ok { arena := some this, bytes := allocation, generation := a.generation },
            a', bs') ∧
        Allocated a a' bytes alignment allocation ∧ Accounted bs' (a'.reservation ::ₘ R) ∧
        (∀ lost, Keeps lost bs bs') ∧ y.worker = a.worker := by
  have hnz : 0 < bytes.toNat :=
    Nat.pos_of_ne_zero (fun h0 => hb ((size_eq_zero bytes).mpr h0))
  by_cases hl : required > a.maximumCapacity
  · exact .inl ⟨_, by rw [allocateAt, if_pos hl]⟩
  have hle : required.toNat ≤ a.maximumCapacity.toNat := by
    rw [gt_iff_lt, BitVec.lt_def] at hl
    omega
  rcases ensureCapacity_cases h hacc hy howner (lt_of_lt_of_le hnz (by omega)) hle
      reply with ⟨e, hrun⟩ | ⟨a', bs', hrun, hext, hf, hacc', hkeeps, hw⟩
  · exact .inl ⟨e, by simp [allocateAt, hl, hrun]⟩
  have hfull : a'.capacity ≠ 0#64 := by
    rw [ne_eq, size_eq_zero]
    omega
  have hblock := hext.shape.storage_size hfull
  have hcap := hext.shape.capacity_le
  obtain ⟨allocation, hsub, hfrom, hspan⟩ := subspan_view a'.storage
    "mutable byte view requires non-null data" start bytes (by omega)
  refine .inr ⟨allocation, { a' with offset := required }, bs', ?_,
    ⟨⟨hf, hcap, hext.shape.storage_size, hext.shape.reservation_eq⟩, hext.worker_eq,
    hext.budget_eq, hext.livePins_eq, hext.generation_eq, hext.base, by rw [hspan],
    start.toNat, by rw [hspan], halign, hoff, hend.symm⟩, hacc', hkeeps, hw⟩
  simp [allocateAt, hl, hrun, hsub, MutableByteView.from, hfrom, hext.generation_eq]

/-- An allocation fails without a trace, is empty, or takes the next aligned
range of the block. -/
theorem tryAllocate_cases (this : ℕ) (worker : WorkerId) (bytes alignment : Size)
    (reply : Result MutableByteView) :
    (∃ e, a.tryAllocate this bs worker bytes alignment reply = some (.error e, a, bs)) ∨
      (bytes = 0#64 ∧ a.tryAllocate this bs worker bytes alignment reply =
        some (.ok { arena := some this, bytes := .empty, generation := a.generation }, a, bs)) ∨
      ∃ (allocation : MutableByteView) (a' : BoundedArena) (bs' : Budgets), bytes ≠ 0#64 ∧
        a.tryAllocate this bs worker bytes alignment reply =
          some (.ok { arena := some this, bytes := allocation, generation := a.generation },
            a', bs') ∧
        Allocated a a' bytes alignment allocation ∧ Accounted bs' (a'.reservation ::ₘ R) ∧
        (∀ lost, Keeps lost bs bs') ∧ y.worker = a.worker := by
  rcases requireWorker_eq a worker with ⟨rfl, hok⟩ | ⟨_, e, he⟩
  · cases hv : isValidAlignment alignment with
    | false => exact .inl (by simp [tryAllocate, hok, hv])
    | true =>
      by_cases hb : bytes = 0#64
      · exact .inr (.inl ⟨hb, by simp [tryAllocate, hok, hv, hb]⟩)
      cases hrange : a.allocationRange bytes alignment with
      | error e =>
        exact .inl ⟨e, by simp [tryAllocate, hok, hv, hb, hrange]⟩
      | ok range =>
        obtain ⟨start, required⟩ := range
        obtain ⟨hoff, halign, hend⟩ :=
          allocationRange_ok (isValidAlignment_pos hv) hrange
        have hrun : a.tryAllocate this bs a.worker bytes alignment reply =
            a.allocateAt this bs a.worker start bytes required reply := by
          simp [tryAllocate, hok, hv, hb, hrange]
        rw [hrun]
        rcases allocateAt_cases h hacc hy howner this reply hb hoff halign hend with
          hfail | ⟨allocation, a', bs', hdone⟩
        · exact .inl hfail
        · exact .inr (.inr ⟨allocation, a', bs', hb, hdone⟩)
  · exact .inl ⟨e, by simp [tryAllocate, he]⟩

/-- Releasing what the arena holds succeeds: the owner of the arena owns its
reservation. -/
theorem release_held :
    ∃ bs', a.reservation.release bs a.worker = some (.ok (), {}, bs') ∧ Accounted bs' R ∧
      ∀ lost, Keeps lost bs bs' := by
  by_cases he : a.capacity = 0#64
  · have hidle : a.reservation = {} := by rw [h.reservation_eq, reservationFor, if_pos he]
    rw [hidle] at hacc ⊢
    exact ⟨bs, rfl, (Accounted.cons_inactive rfl).mp hacc, fun lost => Keeps.refl lost bs⟩
  have hact : a.reservation.budget = some a.budget := by
    rw [h.reservation_eq, reservationFor, if_neg he]
  obtain ⟨bs', hrun, hmap, hacc'⟩ := release_spec hacc hact
  refine ⟨bs', ?_, hacc', fun lost => Keeps.of_mapped lost hmap (fun _ => rfl)⟩
  have hok : y.requireWorker a.worker = .ok () := by
    simp [MemoryBudget.requireWorker, MemoryBudget.owns, howner he]
  simp [MemoryReservation.release, MemoryReservation.releaseUnchecked, hact, hy, hok, hrun]

/-- A reset fails without a trace or starts the next generation of an arena
that nobody pins, with the boundary of the current one. -/
theorem reset_cases (this : ℕ) (worker : WorkerId) (boundary : ArenaQuiescentBoundary)
    (reply : Result Unit) :
    (∃ e, a.reset this bs worker boundary reply = some (.error e, a, bs)) ∨
      ∃ bs', a.reset this bs worker boundary reply = some (.ok (), { a with
            reservation := {}
            storage := .empty
            capacity := 0#64
            offset := 0#64
            generation := a.generation + 1 }, bs') ∧
        boundary.arena = this ∧ boundary.generation = a.generation ∧ a.livePins = 0#64 ∧
        a.generation ≠ sizeMax ∧ Accounted bs' R ∧ ∀ lost, Keeps lost bs bs' := by
  rcases requireWorker_eq a worker with ⟨rfl, hok⟩ | ⟨_, e, he⟩
  · by_cases hboundary : boundary.arena = this ∧ boundary.generation = a.generation
    · obtain ⟨harena, hgen⟩ := hboundary
      by_cases hpins : a.livePins = 0#64
      · by_cases hl : a.generation = sizeMax
        · exact .inl (by simp [reset, hok, harena, hgen, hpins, hl])
        cases hsrc : a.source.reset with
        | false =>
          exact .inl (by
            simp [reset, hok, harena, hgen, hpins, hl, hsrc])
        | true =>
          cases reply with
          | error e =>
            exact .inl ⟨e, by
              simp [reset, hok, harena, hgen, hpins, hl, hsrc]⟩
          | ok _ =>
            obtain ⟨bs', hrun, hacc', hkeeps⟩ := release_held h hacc hy howner
            exact .inr ⟨bs', by
              simp [reset, hok, harena, hgen, hpins, hl, hsrc, hrun],
              harena, hgen, hpins, hl, hacc', hkeeps⟩
      · exact .inl (by simp [reset, hok, harena, hgen, hpins])
    · have hguard : boundary.arena ≠ this ∨ boundary.generation ≠ a.generation := by
        by_contra hall
        simp only [not_or, not_not] at hall
        exact hboundary hall
      exact .inl (by simp [reset, hok, if_pos hguard])
  · exact .inl ⟨e, by simp only [reset, he]⟩

end Allocation

end Laghu.BoundedArenas

namespace Laghu.CapacityGrowth

open Contract BoundedArenas BoundedBuffers

/-- Both loops end, without a wrap, at the first doubling of the start that is large enough, or
at the maximum where that doubling exceeds it. -/
theorem capacity_targets_agree (b : BoundedBuffer) (a : BoundedArena) (required : Size)
    (hinitial : 1 ≤ b.initialCapacity.toNat)
    (hmax : b.initialCapacity.toNat ≤ b.maximumCapacity.toNat)
    (hmore : b.capacity.toNat < required.toNat) (hle : required.toNat ≤ b.maximumCapacity.toNat)
    (hsame : a.initialCapacity = b.initialCapacity ∧ a.maximumCapacity = b.maximumCapacity ∧
      a.capacity = b.capacity) (hsource : a.source.acquire = true ∧ a.source.reset = true) :
    let start := if b.capacity = 0#64 then b.initialCapacity else b.capacity
    ∃ target, b.nextCapacity required = some (.ok target) ∧
      (∀ bs worker reply, a.ensureCapacity bs worker required reply =
        a.extendTo bs worker target reply) ∧
      exactDoubleUntil b.maximumCapacity required rounds start = some target ∧
      FirstDoubling b.maximumCapacity required start target ∧
      required.toNat ≤ target.toNat ∧ ¬ target > b.maximumCapacity := by
  intro start
  have hbound : b.capacity.toNat ≤ b.maximumCapacity.toNat := by omega
  obtain ⟨target, hrun, hexact, hfirst⟩ := doubleUntil_start hinitial hmax hbound hle
  obtain ⟨hreq, htarget⟩ := hfirst.bounds hle
  have hunclipped : ¬ target > b.maximumCapacity := by
    rw [gt_iff_lt, BitVec.lt_def]
    omega
  refine ⟨target, ?_, fun bs worker reply => ?_, hexact, hfirst, hreq, hunclipped⟩
  · rw [BoundedBuffer.nextCapacity, hrun]
    rfl
  have hvalid : ¬ (b.initialCapacity = 0#64 ∨ b.initialCapacity > b.maximumCapacity) := by
    rw [size_eq_zero, gt_iff_lt, BitVec.lt_def]
    omega
  have hgrows : ¬ required ≤ b.capacity := by
    rw [BitVec.le_def]
    omega
  simp [BoundedArena.ensureCapacity, hsame, hsource, hvalid, hgrows, hrun, hunclipped]

def sampleBuffer : BoundedBuffer where
  worker := MemoryBudgets.Heap.soleWorker
  budget := 0
  source := ⟨true, true⟩
  initialCapacity := 2#64
  maximumCapacity := 7#64

/-- The doublings of two pass four and are clipped at seven. -/
theorem capacity_targets_agree_seven :
    ∃ target, sampleBuffer.nextCapacity 5#64 = some (.ok target) ∧ ¬ target > 7#64 := by
  obtain ⟨target, hrun, -, -, -, -, hle⟩ := capacity_targets_agree sampleBuffer
    ⟨sampleBuffer.worker, 0, ⟨true, true⟩, {}, {}, 2#64, 7#64, 0#64, 0#64, 0#64, 1#64⟩ 5#64
    (by decide) (by decide) (by decide) (by decide) ⟨rfl, rfl, rfl⟩ ⟨rfl, rfl⟩
  exact ⟨target, hrun, hle⟩

end Laghu.CapacityGrowth
