import Laghu.BoundedBuffers

/-!
What every buffer operation keeps. The buffer's offsets, its block, its
reservation and the ledger of the block source determine each other, and the
budget tree accounts for the buffer's reservation next to everybody else's.
Growth and compaction are two ways of relocating the readable bytes.
-/

namespace Laghu.BoundedBuffers

open Contract CheckedArithmetic ParentChain MemoryBudgets CapacityGrowth FlatMemory
open Multiset Option BoundedBuffer State
open Views
open BitVec (eq_of_toNat_eq le_def lt_def toNat_sub_of_le)

/-- The blocks a buffer of this capacity holds. -/
def heldBlocks (b : BoundedBuffer) : Multiset MutableByteView :=
  if b.capacity = 0#64 then 0 else {b.block}

structure Shape (b : BoundedBuffer) : Prop where
  read_le : b.readOffset.toNat ≤ b.writeOffset.toNat
  write_le : b.writeOffset.toNat ≤ b.capacity.toNat
  capacity_le : b.capacity.toNat ≤ b.maximumCapacity.toNat
  storage_eq : b.storage.toSpan = { data := b.block.data, size := b.capacity }
  block_size : b.capacity.toNat ≤ b.block.size.toNat
  block_null : b.block.data = 0 ↔ b.capacity = 0#64
  reservation_eq : b.reservation = reservationFor b.budget b.capacity

structure Sound (s : State) : Prop where
  shape : Shape s.buffer
  ledger_eq : s.ledger.acquired = s.ledger.released + heldBlocks s.buffer
  accounted : Accounted s.budgets (s.buffer.reservation ::ₘ s.reservations.values)
  budget_live : ∃ x, s.budgets.get? s.buffer.budget = some x
  owner : s.buffer.capacity ≠ 0#64 →
    ∀ x, s.budgets.get? s.buffer.budget = some x → x.worker = s.buffer.worker

/-- The readable bytes now start at the front of the storage. -/
structure Relocated (s s' : State) : Prop where
  sound : Sound s'
  worker_eq : s'.buffer.worker = s.buffer.worker
  budget_eq : s'.buffer.budget = s.buffer.budget
  reservations_eq : s'.reservations = s.reservations
  readOffset_eq : s'.buffer.readOffset = 0#64
  writeOffset_eq : s'.buffer.writeOffset = s.buffer.size
  outside : ∀ a, a < s'.buffer.block.data ∨ s'.buffer.block.data + s.buffer.size.toNat ≤ a →
    s'.memory a = s.memory a
  contents : s'.buffer.block.data ≤ s.buffer.block.data + s.buffer.readOffset.toNat ∨
      s.buffer.block.data + s.buffer.readOffset.toNat + s.buffer.size.toNat ≤
        s'.buffer.block.data →
    slice s'.memory s'.buffer.block.data s.buffer.size.toNat =
      slice s.memory (s.buffer.block.data + s.buffer.readOffset.toNat) s.buffer.size.toNat

/-- Nothing changed but the ledger, and every block that came in went back. -/
structure Untouched (s s' : State) : Prop where
  buffer_eq : s'.buffer = s.buffer
  budgets_eq : s'.budgets = s.budgets
  reservations_eq : s'.reservations = s.reservations
  memory_eq : s'.memory = s.memory
  ledger_eq : ∃ extra, s'.ledger.acquired = s.ledger.acquired + extra ∧
    s'.ledger.released = s.ledger.released + extra

theorem Untouched.refl (s : State) : Untouched s s :=
  ⟨rfl, rfl, rfl, rfl, 0, (add_zero _).symm, (add_zero _).symm⟩

theorem Untouched.passed_back (s : State) (block : MutableByteView) :
    Untouched s { s with ledger := (s.ledger.acquire block).release block } := by
  refine ⟨rfl, rfl, rfl, rfl, {block}, ?_, ?_⟩
  · rw [add_comm, singleton_add]
    rfl
  · rw [add_comm, singleton_add]
    rfl

theorem Untouched.sound {s s' : State} (h : Untouched s s') (hs : Sound s) : Sound s' := by
  obtain ⟨hbuf, hbudgets, hresvs, _, extra, hacquired, hreleased⟩ := h
  refine ⟨by rw [hbuf]; exact hs.shape, ?_, ?_, ?_, ?_⟩
  · rw [hacquired, hreleased, hbuf, hs.ledger_eq, add_assoc, add_assoc,
      add_comm (heldBlocks s.buffer)]
  · rw [hbuf, hbudgets, hresvs]
    exact hs.accounted
  · rw [hbuf, hbudgets]
    exact hs.budget_live
  · rw [hbuf, hbudgets]
    exact hs.owner

section Words

variable {b : BoundedBuffer}

theorem Shape.size_toNat (h : Shape b) :
    b.size.toNat = b.writeOffset.toNat - b.readOffset.toNat := by
  apply toNat_sub_of_le
  rw [le_def]
  exact h.read_le

theorem Shape.room_toNat (h : Shape b) :
    (b.capacity - b.writeOffset).toNat = b.capacity.toNat - b.writeOffset.toNat := by
  apply toNat_sub_of_le
  rw [le_def]
  exact h.write_le

theorem requireWorker_eq (b : BoundedBuffer) (worker : WorkerId) :
    (worker = b.worker ∧ b.requireWorker worker = .ok ()) ∨
      (worker ≠ b.worker ∧ ∃ e, b.requireWorker worker = .error e) := by
  by_cases h : worker = b.worker
  · exact .inl ⟨h, by simp [requireWorker, h]⟩
  · have hvalue : worker.value ≠ b.worker.value := fun hv => h ((WorkerId.value_inj _ _).mp hv)
    exact .inr ⟨h, by simp [requireWorker, hvalue]⟩

/-- A subrange of the storage is a valid view. -/
theorem Shape.storage_view (h : Shape b) (diagnostic : String) (offset count : Size)
    (hrange : offset.toNat + count.toNat ≤ b.capacity.toNat) :
    ∃ region : View, b.storage.subspan offset count = some region.toSpan ∧
      View.fromSpan diagnostic region.toSpan = .ok region ∧
      region.toSpan = { data := b.block.data + offset.toNat, size := count } := by
  have hdata : b.storage.data = b.block.data := by rw [h.storage_eq]
  have hsize : b.storage.size = b.capacity := by rw [h.storage_eq]
  obtain ⟨region, hsub, hfrom, hspan⟩ := subspan_view b.storage diagnostic offset count
    (by rw [hsize]; exact hrange)
  exact ⟨region, hsub, hfrom, by rw [hspan, hdata]⟩

end Words

section Offsets

variable {b : BoundedBuffer}

theorem Shape.readable_cases (h : Shape b) (worker : WorkerId) :
    (worker = b.worker ∧ ∃ region : ByteView, b.readable worker = some (.ok region) ∧
        region.toSpan = { data := b.block.data + b.readOffset.toNat, size := b.size }) ∨
      (worker ≠ b.worker ∧ ∃ e, b.readable worker = some (.error e)) := by
  rcases requireWorker_eq b worker with ⟨hw, hok⟩ | ⟨hw, e, he⟩
  · have hsize := h.size_toNat
    have hread := h.read_le
    have hwrite := h.write_le
    obtain ⟨region, hsub, hfrom, hspan⟩ := h.storage_view "byte view requires non-null data"
      b.readOffset b.size (by omega)
    exact .inl ⟨hw, region, by simp [readable, hok, hsub, ByteView.from, hfrom],
      hspan⟩
  · exact .inr ⟨hw, e, by simp [readable, he]⟩

theorem Shape.writable_cases (h : Shape b) (worker : WorkerId) :
    (worker = b.worker ∧ ∃ region : MutableByteView, b.writable worker = some (.ok region) ∧
        region.toSpan = { data := b.block.data + b.writeOffset.toNat,
                          size := b.capacity - b.writeOffset }) ∨
      (worker ≠ b.worker ∧ ∃ e, b.writable worker = some (.error e)) := by
  rcases requireWorker_eq b worker with ⟨hw, hok⟩ | ⟨hw, e, he⟩
  · have hr := h.room_toNat
    have hwrite := h.write_le
    obtain ⟨region, hsub, hfrom, hspan⟩ := h.storage_view "mutable byte view requires non-null data"
      b.writeOffset (b.capacity - b.writeOffset) (by omega)
    exact .inl ⟨hw, region,
      by simp [writable, hok, hsub, MutableByteView.from, hfrom], hspan⟩
  · exact .inr ⟨hw, e, by simp [writable, he]⟩

/-- A commit only moves the write offset. -/
theorem Shape.commit_ok (h : Shape b) {worker : WorkerId} (hw : worker = b.worker) {n : Size}
    (hf : b.writeOffset.toNat + n.toNat ≤ b.capacity.toNat) :
    (b.writeOffset + n).toNat = b.writeOffset.toNat + n.toNat ∧
      b.commit worker n = (.ok (), { b with writeOffset := b.writeOffset + n }) := by
  have hr := h.room_toNat
  have hword := b.capacity.isLt
  have hl : ¬ n > b.capacity - b.writeOffset := by
    rw [gt_iff_lt, lt_def, hr]
    omega
  have hadd : checkedAdd b.writeOffset n = .ok (b.writeOffset + n) := by
    rw [checkedAdd_eq, if_pos (by omega)]
  rcases requireWorker_eq b worker with ⟨_, hok⟩ | ⟨ho, _⟩
  · refine ⟨checkedAdd_ok hadd, ?_⟩
    simp only [commit, hok, hl, if_false, hadd]
  · exact absurd hw ho

theorem Shape.commit_cases (h : Shape b) (worker : WorkerId) (n : Size) :
    (worker = b.worker ∧ b.writeOffset.toNat + n.toNat ≤ b.capacity.toNat ∧
        (b.writeOffset + n).toNat = b.writeOffset.toNat + n.toNat ∧
        b.commit worker n = (.ok (), { b with writeOffset := b.writeOffset + n })) ∨
      ∃ e, b.commit worker n = (.error e, b) := by
  rcases requireWorker_eq b worker with ⟨hw, hok⟩ | ⟨_, e, he⟩
  · have hr := h.room_toNat
    have hwrite := h.write_le
    by_cases hl : n > b.capacity - b.writeOffset
    · exact .inr ⟨_, by simp only [commit, hok, hl, if_true]; rfl⟩
    have hf : b.writeOffset.toNat + n.toNat ≤ b.capacity.toNat := by
      rw [gt_iff_lt, lt_def, hr] at hl
      omega
    exact .inl ⟨hw, hf, h.commit_ok hw hf⟩
  · exact .inr ⟨e, by simp only [commit, he]⟩

/-- The offsets after `n` more bytes have been consumed. -/
def advanced (b : BoundedBuffer) (n : Size) : BoundedBuffer :=
  if b.readOffset + n = b.writeOffset then { b with readOffset := 0#64, writeOffset := 0#64 }
  else { b with readOffset := b.readOffset + n }

theorem Shape.consume_cases (h : Shape b) (worker : WorkerId) (n : Size) :
    (worker = b.worker ∧ n.toNat ≤ b.size.toNat ∧
        (b.readOffset + n).toNat = b.readOffset.toNat + n.toNat ∧
        b.consume worker n = (.ok (), advanced b n)) ∨
      ∃ e, b.consume worker n = (.error e, b) := by
  rcases requireWorker_eq b worker with ⟨hw, hok⟩ | ⟨_, e, he⟩
  · by_cases hl : n > b.size
    · exact .inr ⟨_, by simp only [consume, hok, hl, if_true]; rfl⟩
    have hf : n.toNat ≤ b.size.toNat := by
      rw [gt_iff_lt, lt_def] at hl
      omega
    have hsize := h.size_toNat
    have hread := h.read_le
    have hword := b.writeOffset.isLt
    have hadd : checkedAdd b.readOffset n = .ok (b.readOffset + n) := by
      rw [checkedAdd_eq, if_pos (by omega)]
    refine .inl ⟨hw, hf, checkedAdd_ok hadd, ?_⟩
    unfold advanced
    simp only [consume, hok, hl, if_false, hadd]
    split <;> rfl
  · exact .inr ⟨e, by simp only [consume, he]⟩

end Offsets

section Relocation

variable {s : State}

theorem moveReadable_spec (h : Shape s.buffer) (output : Span)
    (hf : s.buffer.size.toNat ≤ output.size.toNat) :
    ∃ memory, s.moveReadable output = some memory ∧
      (∀ a, a < output.data ∨ output.data + s.buffer.size.toNat ≤ a → memory a = s.memory a) ∧
      (output.data ≤ s.buffer.block.data + s.buffer.readOffset.toNat ∨
          s.buffer.block.data + s.buffer.readOffset.toNat + s.buffer.size.toNat ≤ output.data →
        slice memory output.data s.buffer.size.toNat =
          slice s.memory (s.buffer.block.data + s.buffer.readOffset.toNat)
            s.buffer.size.toNat) := by
  by_cases he : s.buffer.size = 0#64
  · refine ⟨s.memory, by simp [moveReadable, he], fun _ _ => rfl, fun _ => ?_⟩
    rw [he]
    rfl
  have hsize := h.size_toNat
  have hread := h.read_le
  have hwrite := h.write_le
  have hdata : s.buffer.storage.data = s.buffer.block.data := by rw [h.storage_eq]
  have hcap : s.buffer.storage.size = s.buffer.capacity := by rw [h.storage_eq]
  have hsub : s.buffer.storage.subspan s.buffer.readOffset s.buffer.size =
      some { data := s.buffer.block.data + s.buffer.readOffset.toNat, size := s.buffer.size } := by
    rw [subspan_eq (by rw [hcap]; omega), hdata]
  have hn : s.buffer.size ≤ output.size := by
    rw [le_def]
    exact hf
  refine ⟨copyForward s.memory output.data
    (s.buffer.block.data + s.buffer.readOffset.toNat) s.buffer.size.toNat, ?_, ?_, ?_⟩
  · simp [moveReadable, he, hsub, copyBytes, hn]
  · intro a ha
    exact copyForward_outside s.memory _ _ _ a ha
  · intro hsafe
    exact slice_copyForward s.memory _ _ _ hsafe

theorem compactUnchecked_spec (h : Sound s) :
    ∃ s', s.compactUnchecked = some s' ∧ Relocated s s' ∧ s'.buffer.block = s.buffer.block ∧
      s'.buffer.capacity = s.buffer.capacity := by
  have hs := h.shape
  have hsize := hs.size_toNat
  have hread := hs.read_le
  have hwrite := hs.write_le
  by_cases hfront : s.buffer.readOffset = 0#64
  · refine ⟨s, by simp [compactUnchecked, hfront], ?_, rfl, rfl⟩
    refine ⟨h, rfl, rfl, rfl, hfront, ?_, fun _ _ => rfl, fun _ => ?_⟩
    · rw [size, hfront, BitVec.sub_zero]
    · rw [hfront]
      rfl
  have hdata : s.buffer.storage.data = s.buffer.block.data := by rw [hs.storage_eq]
  have hcap : s.buffer.storage.size = s.buffer.capacity := by rw [hs.storage_eq]
  obtain ⟨memory, hmove, houtside, hcontents⟩ := moveReadable_spec hs
    s.buffer.storage.toSpan (by rw [hcap]; omega)
  rw [hdata] at houtside hcontents
  refine ⟨{ s with
    memory := memory
    buffer := { s.buffer with readOffset := 0#64, writeOffset := s.buffer.size } },
    by simp [compactUnchecked, hfront, hmove], ?_, rfl, rfl⟩
  refine ⟨⟨?_, h.ledger_eq, h.accounted, h.budget_live, h.owner⟩, rfl, rfl, rfl, rfl, rfl,
    houtside, hcontents⟩
  refine ⟨Nat.zero_le _, ?_, hs.capacity_le, hs.storage_eq, hs.block_size,
    hs.block_null, hs.reservation_eq⟩
  change s.buffer.size.toNat ≤ s.buffer.capacity.toNat
  omega

/-- Releasing the buffer passes back the block it holds, if any. -/
theorem ledger_balanced (h : Sound s) :
    (if s.buffer.block.data ≠ 0 then s.ledger.release s.buffer.block else s.ledger).acquired =
      (if s.buffer.block.data ≠ 0 then s.ledger.release s.buffer.block
        else s.ledger).released := by
  have heq := h.ledger_eq
  by_cases hnull : s.buffer.block.data = 0
  · rw [heldBlocks, if_pos (h.shape.block_null.mp hnull), add_zero] at heq
    rw [if_neg (not_not.mpr hnull), heq]
  have hcap : s.buffer.capacity ≠ 0#64 := fun hc => hnull (h.shape.block_null.mpr hc)
  rw [heldBlocks, if_neg hcap, add_comm, singleton_add] at heq
  rw [if_pos hnull]
  exact heq

/-- A released buffer is a new buffer with the same configuration. -/
theorem releaseUnchecked_buffer (h : Sound s) :
    ∃ s', s.releaseUnchecked = some s' ∧ Sound s' ∧ s'.ledger.acquired = s'.ledger.released ∧
      s'.buffer = .construct s.buffer.worker s.buffer.budget s.buffer.source
        s.buffer.initialCapacity s.buffer.maximumCapacity ∧
      s'.memory = s.memory ∧ s'.reservations = s.reservations := by
  obtain ⟨r, bs, hrun, _, hacc, hkeeps, _⟩ := releaseUnchecked_spec h.accounted
  have hbalanced := ledger_balanced h
  refine ⟨⟨.construct s.buffer.worker s.buffer.budget s.buffer.source s.buffer.initialCapacity
      s.buffer.maximumCapacity, bs, s.reservations, s.memory,
      if s.buffer.block.data ≠ 0 then s.ledger.release s.buffer.block else s.ledger⟩,
    by simp [releaseUnchecked, hrun, construct], ⟨?_, ?_, ?_, ?_, ?_⟩,
    hbalanced, rfl, rfl, rfl⟩
  · exact ⟨Nat.le_refl _, Nat.le_refl _, Nat.zero_le _, rfl, Nat.le_refl _,
      iff_of_true rfl rfl, rfl⟩
  · rw [hbalanced]
    exact (add_zero _).symm
  · exact (Accounted.cons_inactive rfl).mpr hacc
  · obtain ⟨x, hx⟩ := h.budget_live
    obtain ⟨x', hx', _⟩ := hkeeps (fun _ => False) _ x not_false hx
    exact ⟨x', hx'⟩
  · intro hcap
    exact absurd rfl hcap

end Relocation

section Growth

variable {s : State}

theorem Sound.inactive (h : Sound s) (he : s.buffer.capacity = 0#64) :
    s.buffer.reservation = {} := by
  rw [h.shape.reservation_eq, reservationFor, if_pos he]

theorem Sound.active (h : Sound s) (hf : s.buffer.capacity ≠ 0#64) :
    s.buffer.reservation = { budget := some s.buffer.budget, bytes := s.buffer.capacity } := by
  rw [h.shape.reservation_eq, reservationFor, if_neg hf]

variable {b : BoundedBuffer}

/-- The offsets of a buffer without storage are zero. -/
theorem Shape.offsets_zero (h : Shape b) (he : b.capacity = 0#64) :
    b.readOffset = 0#64 ∧ b.writeOffset = 0#64 ∧ b.size = 0#64 := by
  have hwrite : b.writeOffset.toNat = 0 := by
    have hle := h.write_le
    rw [he] at hle
    exact Nat.le_zero.mp hle
  have hread : b.readOffset.toNat = 0 := by
    have hle := h.read_le
    omega
  have hsize := h.size_toNat
  exact ⟨eq_of_toNat_eq hread, eq_of_toNat_eq hwrite,
    eq_of_toNat_eq (by rw [hsize, hwrite]; exact Nat.zero_sub _)⟩

/-- The state in which the buffer owns `block`, with its bytes at the front. -/
def moved (s : State) (block storage : MutableByteView) (target : Size) (bs : Budgets)
    (memory : Memory Byte) (ledger : Ledger) : State :=
  { s with
    budgets := bs
    memory := memory
    ledger := ledger
    buffer := { s.buffer with
      block := block
      storage := storage
      reservation := { budget := some s.buffer.budget, bytes := target }
      capacity := target
      readOffset := 0#64
      writeOffset := s.buffer.size } }

variable {target : Size}

theorem relocated_moved {block storage : MutableByteView} {bs : Budgets} {memory : Memory Byte}
    {ledger : Ledger} {x : MemoryBudget} (hpos : 0 < target.toNat)
    (hsize : s.buffer.size.toNat ≤ target.toNat)
    (hle : target.toNat ≤ s.buffer.maximumCapacity.toNat)
    (hblock : target.toNat ≤ block.size.toNat)
    (hst : storage.toSpan = { data := block.data, size := target })
    (hledger : ledger.acquired = block ::ₘ ledger.released)
    (hacc : Accounted bs
      ({ budget := some s.buffer.budget, bytes := target } ::ₘ s.reservations.values))
    (hx : bs.get? s.buffer.budget = some x) (hw : x.worker = s.buffer.worker)
    (houtside : ∀ a, a < block.data ∨ block.data + s.buffer.size.toNat ≤ a → memory a = s.memory a)
    (hcontents : block.data ≤ s.buffer.block.data + s.buffer.readOffset.toNat ∨
        s.buffer.block.data + s.buffer.readOffset.toNat + s.buffer.size.toNat ≤ block.data →
      slice memory block.data s.buffer.size.toNat =
        slice s.memory (s.buffer.block.data + s.buffer.readOffset.toNat) s.buffer.size.toNat) :
    Relocated s (moved s block storage target bs memory ledger) := by
  have htgt : target ≠ 0#64 := by
    intro h0
    rw [h0] at hpos
    exact absurd hpos (by decide)
  have hnull : block.data ≠ 0 := by
    intro hdata
    rw [block.valid hdata] at hblock
    exact absurd (lt_of_lt_of_le hpos hblock) (by decide)
  refine ⟨⟨⟨?_, hsize, hle, hst, hblock, iff_of_false hnull htgt, ?_⟩, ?_, hacc,
    ⟨x, hx⟩, ?_⟩, rfl, rfl, rfl, rfl, rfl, houtside, hcontents⟩
  · exact Nat.zero_le _
  · exact (if_neg htgt).symm
  · change ledger.acquired = ledger.released + if target = 0#64 then 0 else {block}
    rw [if_neg htgt, hledger, add_comm, singleton_add]
  intro _ y hy
  have hsame : x = y := Option.some.inj (hx.symm.trans hy)
  rw [← hsame]
  exact hw

/-- The first growth charges the budget, takes a block, and keeps either both
or neither. -/
theorem growFirst_cases (h : Sound s) (he : s.buffer.capacity = 0#64) (hpos : 0 < target.toNat)
    (hle : target.toNat ≤ s.buffer.maximumCapacity.toNat) (reply : Result MutableByteView) :
    (∃ e s', s.growFirst s.buffer.worker target reply = some (.error e, s') ∧ Untouched s s') ∨
      ∃ s', s.growFirst s.buffer.worker target reply = some (.ok (), s') ∧ Relocated s s' ∧
        s'.buffer.capacity = target ∧ reply = .ok s'.buffer.block := by
  obtain ⟨x, hx⟩ := h.budget_live
  have hidle := h.inactive he
  have hr : Accounted s.budgets s.reservations.values := by
    have hacc := h.accounted
    rw [hidle] at hacc
    exact (Accounted.cons_inactive rfl).mp hacc
  obtain ⟨hread, hwrite, hsize⟩ := h.shape.offsets_zero he
  rcases reserveForAllocation_cases hr hx s.buffer.worker target
      (firstAcquisition target reply) (.empty, s.ledger) with
    ⟨hw, _, ⟨captured, bs', hacq, hrun, hmap, hacc⟩ | ⟨e, captured, hacq, hrun⟩⟩ |
    ⟨_, e, hrun⟩
  · cases reply with
    | error e => simp [firstAcquisition] at hacq
    | ok block =>
      by_cases hsmall : block.size < target
      · simp [firstAcquisition, hsmall] at hacq
      simp only [firstAcquisition, hsmall, if_false, Prod.mk.injEq, true_and] at hacq
      subst hacq
      have hblock : target.toNat ≤ block.size.toNat := by
        rw [lt_def] at hsmall
        omega
      obtain ⟨storage, hslice, hspan⟩ := slice_ok (v := block) 0#64 target (by simpa using hblock)
      obtain ⟨x', hx', hk⟩ := Keeps.of_mapped (fun _ => False) hmap (fun _ => rfl) _ x not_false hx
      refine .inr ⟨moved s block storage target bs' s.memory (s.ledger.acquire block), ?_,
        relocated_moved hpos (by rw [hsize]; exact Nat.zero_le _) hle hblock hspan ?_ hacc hx'
          (hk.trans hw) (fun _ _ => rfl) (fun _ => ?_), rfl, rfl⟩
      · simp [growFirst, hrun, hslice, hidle, MemoryReservation.releaseUnchecked, moved,
          hread, hwrite, hsize]
      · have heq := h.ledger_eq
        rw [heldBlocks, if_pos he, add_zero] at heq
        change block ::ₘ s.ledger.acquired = block ::ₘ s.ledger.released
        rw [heq]
      · rw [hsize]
        rfl
  · left
    cases reply with
    | error e' =>
      obtain ⟨_, rfl⟩ := hacq
      exact ⟨e, s, by simp [growFirst, hrun], Untouched.refl s⟩
    | ok block =>
      by_cases hsmall : block.size < target
      · simp only [firstAcquisition, hsmall, if_true, Prod.mk.injEq, Except.error.injEq]
          at hacq
        obtain ⟨_, rfl⟩ := hacq
        exact ⟨e, { s with ledger := (s.ledger.acquire block).release block },
          by simp [growFirst, hrun], Untouched.passed_back s block⟩
      · simp [firstAcquisition, hsmall] at hacq
  · exact .inl ⟨e, s, by simp [growFirst, hrun], Untouched.refl s⟩

/-- The buffer after its reservation has been charged for `additional` bytes. -/
def charged (s : State) (additional : Size) (bs : Budgets) (ledger : Ledger) : State :=
  { s with
    budgets := bs
    ledger := ledger
    buffer := { s.buffer with
      reservation := { s.buffer.reservation with
        bytes := s.buffer.reservation.bytes + additional } } }

/-- Rolling the charge back succeeds and restores every budget. -/
theorem rollback_spec {additional : Size} {bs : Budgets} {b : ℕ} {x : MemoryBudget}
    (hb : s.buffer.reservation.budget = some b)
    (hmap : Mapped MemoryBudget.parent s.budgets bs b (MemoryBudget.extend additional))
    (hacc : Accounted bs ({ s.buffer.reservation with
      bytes := s.buffer.reservation.bytes + additional } ::ₘ s.reservations.values))
    (hf : s.buffer.reservation.bytes.toNat + additional.toNat < 2 ^ 64)
    (hx : bs.get? b = some x) (ledger : Ledger) :
    (charged s additional bs ledger).rollback x.worker additional =
      some { s with ledger := ledger } := by
  have hsum : (s.buffer.reservation.bytes + additional).toNat =
      s.buffer.reservation.bytes.toNat + additional.toNat := by
    rw [BitVec.toNat_add, Nat.mod_eq_of_lt hf]
  have hback : s.buffer.reservation.bytes + additional - additional =
      s.buffer.reservation.bytes := by bv_omega
  rcases shrink_cases hacc hb hx x.worker additional with ⟨_, _, bs', hrun, hundo, _⟩ | ⟨hno, _⟩
  · have hsame : bs' = s.budgets := by
      apply hmap.cancel hundo (fun _ => rfl)
      intro a y _ _
      have hcharged : y.charged + additional - additional = y.charged := by bv_omega
      simp only [MemoryBudget.extend, reduced, hcharged]
    rw [hback, hsame] at hrun
    simp [rollback, charged, hrun]
  · have hle : additional.toNat ≤ (s.buffer.reservation.bytes + additional).toNat := by omega
    exact absurd ⟨rfl, hle⟩ hno

/-- A later growth charges the difference first; every failure after that
passes the new block back and rolls the charge back. -/
theorem growAgain_cases (h : Sound s) (hfull : s.buffer.capacity ≠ 0#64)
    (hgrow : s.buffer.capacity.toNat < target.toNat)
    (hle : target.toNat ≤ s.buffer.maximumCapacity.toNat) (reply : Result MutableByteView) :
    (∃ e s', s.growAgain s.buffer.worker target reply = some (.error e, s') ∧ Untouched s s') ∨
      ∃ s', s.growAgain s.buffer.worker target reply = some (.ok (), s') ∧ Relocated s s' ∧
        s'.buffer.capacity = target ∧ reply = .ok s'.buffer.block := by
  obtain ⟨x, hx⟩ := h.budget_live
  have hw := h.owner hfull x hx
  have hact := h.active hfull
  have hb : s.buffer.reservation.budget = some s.buffer.budget := by rw [hact]
  have hbytes : s.buffer.reservation.bytes = s.buffer.capacity := by rw [hact]
  rcases grow_cases h.accounted hb hx s.buffer.worker (target - s.buffer.capacity) with
    ⟨_, _, hf, bs, hrun, hmap, hacc⟩ | ⟨_, e, _, hrun⟩
  · obtain ⟨x', hx', hk⟩ := Keeps.of_mapped (fun _ => False) hmap (fun _ => rfl) _ x not_false hx
    have hundo := rollback_spec hb hmap hacc hf hx'
    rw [hk, hw] at hundo
    cases reply with
    | error e =>
      refine .inl ⟨e, s, ?_, Untouched.refl s⟩
      have hback := hundo s.ledger
      simp only [charged] at hback
      simp [growAgain, hrun, hback]
    | ok block =>
      have hback := hundo ((s.ledger.acquire block).release block)
      simp only [charged] at hback
      by_cases hsmall : block.size < target
      · exact .inl ⟨blockTooSmall, { s with ledger := (s.ledger.acquire block).release block },
          by simp [growAgain, hrun, hsmall, hback], Untouched.passed_back s block⟩
      have hblock : target.toNat ≤ block.size.toNat := by
        rw [lt_def] at hsmall
        omega
      obtain ⟨storage, hslice, hspan⟩ := slice_ok (v := block) 0#64 target (by simpa using hblock)
      have hsum : s.buffer.capacity + (target - s.buffer.capacity) = target := by bv_omega
      have hsize := h.shape.size_toNat
      have hwrite := h.shape.write_le
      obtain ⟨memory, hmove, houtside, hcontents⟩ := moveReadable_spec h.shape storage.toSpan
        (by rw [hspan]; change s.buffer.size.toNat ≤ target.toNat; omega)
      rw [hspan] at houtside hcontents
      refine .inr ⟨moved s block storage target bs memory
        ((s.ledger.acquire block).release s.buffer.block), ?_, ?_, rfl, rfl⟩
      · have hsup : (charged s (target - s.buffer.capacity) bs
            (s.ledger.acquire block)).moveReadable storage.toSpan = some memory := hmove
        simp only [charged] at hsup
        simp only [growAgain, hrun, hsmall, hslice, hsup, bind_eq_bind,
          bind_some, if_false, Option.pure_def]
        simp only [moved, hb, hbytes, hsum]
      apply relocated_moved (by omega) (by omega) hle hblock hspan ?_ ?_ hx'
        (hk.trans hw) houtside hcontents
      · have heq := h.ledger_eq
        rw [heldBlocks, if_neg hfull, add_comm, singleton_add] at heq
        change block ::ₘ s.ledger.acquired = block ::ₘ s.buffer.block ::ₘ s.ledger.released
        rw [heq]
      · rw [hact, hsum] at hacc
        exact hacc
  · exact .inl ⟨e, s, by simp [growAgain, hrun], Untouched.refl s⟩

theorem validateSource_ok (h : b.validateSource = .ok ()) :
    0 < b.initialCapacity.toNat ∧ b.initialCapacity.toNat ≤ b.maximumCapacity.toNat := by
  unfold validateSource at h
  split at h
  · cases h
  rename_i hv
  simp only [not_or] at hv
  obtain ⟨_, _, hnz, hl⟩ := hv
  rw [gt_iff_lt, lt_def] at hl
  have hpos : b.initialCapacity.toNat ≠ 0 := fun h0 => hnz (eq_of_toNat_eq h0)
  omega

/-- The next capacity exists, suffices, and is within the maximum. -/
theorem nextCapacity_spec (h : Shape b) (hv : b.validateSource = .ok ()) {required : Size}
    (hle : required.toNat ≤ b.maximumCapacity.toNat) :
    ∃ target, b.nextCapacity required = some (.ok target) ∧
      required.toNat ≤ target.toNat ∧ target.toNat ≤ b.maximumCapacity.toNat := by
  obtain ⟨hinitial, hmax⟩ := validateSource_ok hv
  obtain ⟨target, hrun, -, hfirst⟩ := doubleUntil_start hinitial hmax h.capacity_le hle
  obtain ⟨hreq, hbound⟩ := hfirst.bounds hle
  exact ⟨target, by simp [nextCapacity, hrun], hreq, hbound⟩

namespace State

theorem grow_cases (h : Sound s) (required : Size)
    (hmore : s.buffer.capacity.toNat < required.toNat)
    (hle : required.toNat ≤ s.buffer.maximumCapacity.toNat) (reply : Result MutableByteView) :
    (∃ e s', s.grow s.buffer.worker required reply = some (.error e, s') ∧ Untouched s s') ∨
      ∃ s', s.grow s.buffer.worker required reply = some (.ok (), s') ∧ Relocated s s' ∧
        required.toNat ≤ s'.buffer.capacity.toNat ∧ reply = .ok s'.buffer.block := by
  cases hv : s.buffer.validateSource with
  | error e => exact .inl ⟨e, s, by simp [grow, hv], Untouched.refl s⟩
  | ok _ =>
    obtain ⟨target, hn, hreq, hbound⟩ := nextCapacity_spec h.shape hv hle
    have hlimit : ¬ target > s.buffer.maximumCapacity := by
      rw [gt_iff_lt, lt_def]
      omega
    by_cases he : s.buffer.capacity = 0#64
    · have hgrow : s.grow s.buffer.worker required reply =
          s.growFirst s.buffer.worker target reply := by
        simp [grow, hv, hn, hlimit, h.inactive he, MemoryReservation.isActive]
      rw [hgrow]
      rcases growFirst_cases h he (by omega) hbound reply with
        hfail | ⟨s', hrun, hm, hcap, hreply⟩
      · exact .inl hfail
      · exact .inr ⟨s', hrun, hm, by rw [hcap]; exact hreq, hreply⟩
    have hgrow : s.grow s.buffer.worker required reply =
        s.growAgain s.buffer.worker target reply := by
      simp [grow, hv, hn, hlimit, h.active he, MemoryReservation.isActive]
    rw [hgrow]
    rcases growAgain_cases h he (by omega) hbound reply with
      hfail | ⟨s', hrun, hm, hcap, hreply⟩
    · exact .inl hfail
    · exact .inr ⟨s', hrun, hm, by rw [hcap]; exact hreq, hreply⟩

/-- What a successful reservation of `n` bytes leaves behind. -/
structure Reserved (s s' : State) (n : Size) (reply : Result MutableByteView) : Prop where
  sound : Sound s'
  moved : s' = s ∨ Relocated s s'
  fits : s'.buffer.writeOffset.toNat + n.toNat ≤ s'.buffer.capacity.toNat
  source : s'.buffer.block = s.buffer.block ∨ reply = .ok s'.buffer.block

theorem makeRoom_cases (h : Sound s) {n : Size}
    (hle : s.buffer.size.toNat + n.toNat ≤ s.buffer.maximumCapacity.toNat)
    (reply : Result MutableByteView) :
    (∃ e s', s.makeRoom s.buffer.worker n reply = some (.error e, s') ∧ Untouched s s') ∨
      ∃ s', s.makeRoom s.buffer.worker n reply = some (.ok (), s') ∧ Reserved s s' n reply := by
  have hr := h.shape.room_toNat
  have hwrite := h.shape.write_le
  by_cases hl : n > s.buffer.capacity - s.buffer.writeOffset
  · have hword := s.buffer.maximumCapacity.isLt
    have hadd : checkedAdd s.buffer.size n = .ok (s.buffer.size + n) := by
      rw [checkedAdd_eq, if_pos (by omega)]
    have hsum := checkedAdd_ok hadd
    by_cases hf : s.buffer.size + n ≤ s.buffer.capacity
    · obtain ⟨s', hrun, hm, hblock, hcap⟩ := compactUnchecked_spec h
      refine .inr ⟨s', by simp [makeRoom, hl, hadd, hf, hrun], hm.sound, .inr hm, ?_, .inl hblock⟩
      rw [hm.writeOffset_eq, hcap]
      rw [le_def] at hf
      omega
    have hgrow : s.makeRoom s.buffer.worker n reply =
        s.grow s.buffer.worker (s.buffer.size + n) reply := by
      simp [makeRoom, hl, hadd, hf]
    rw [hgrow]
    rw [le_def] at hf
    rcases grow_cases h (s.buffer.size + n) (by omega) (by omega) reply with
      hfail | ⟨s', hrun, hm, hcap, hreply⟩
    · exact .inl hfail
    refine .inr ⟨s', hrun, hm.sound, .inr hm, ?_, .inr hreply⟩
    rw [hm.writeOffset_eq]
    omega
  · refine .inr ⟨s, by simp [makeRoom, hl], h, .inl rfl, ?_, .inl rfl⟩
    rw [gt_iff_lt, lt_def, hr] at hl
    omega

/-- A reservation fails without a trace or returns the region right behind the
readable bytes. -/
theorem reserve_cases (h : Sound s) (worker : WorkerId) (n : Size)
    (reply : Result MutableByteView) :
    (∃ e s', s.reserve worker n reply = some (.error e, s') ∧ Untouched s s') ∨
      (n = 0#64 ∧ s.reserve worker n reply = some (.ok .empty, s)) ∨
      ∃ (region : MutableByteView) (s' : State),
        s.reserve worker n reply = some (.ok region, s') ∧ Reserved s s' n reply ∧
        region.toSpan =
          { data := s'.buffer.block.data + s'.buffer.writeOffset.toNat, size := n } := by
  rcases requireWorker_eq s.buffer worker with ⟨rfl, hok⟩ | ⟨_, e, he⟩
  · by_cases h0 : n = 0#64
    · exact .inr (.inl ⟨h0, by simp [reserve, hok, h0]⟩)
    have hsize := h.shape.size_toNat
    have hread := h.shape.read_le
    have hwrite := h.shape.write_le
    have hcap := h.shape.capacity_le
    have hleft : (s.buffer.maximumCapacity - s.buffer.size).toNat =
        s.buffer.maximumCapacity.toNat - s.buffer.size.toNat :=
      toNat_sub_of_le (by rw [le_def]; omega)
    by_cases hl : n > s.buffer.maximumCapacity - s.buffer.size
    · exact .inl ⟨capacityExhausted, s, by simp [reserve, hok, h0, hl], Untouched.refl s⟩
    have hle : s.buffer.size.toNat + n.toNat ≤ s.buffer.maximumCapacity.toNat := by
      rw [gt_iff_lt, lt_def, hleft] at hl
      omega
    rcases makeRoom_cases h hle reply with ⟨e, s', hrun, hsame⟩ | ⟨s', hrun, hreserved⟩
    · exact .inl ⟨e, s', by simp [reserve, hok, h0, hl, hrun], hsame⟩
    obtain ⟨region, hsub, hfrom, hspan⟩ := hreserved.sound.shape.storage_view
      "mutable byte view requires non-null data" s'.buffer.writeOffset n hreserved.fits
    refine .inr (.inr ⟨region, s', ?_, hreserved, hspan⟩)
    simp [reserve, hok, h0, hl, hrun, hsub, MutableByteView.from, hfrom]
  · exact .inl ⟨e, s, by simp [reserve, he], Untouched.refl s⟩

end State

end Growth

end Laghu.BoundedBuffers
