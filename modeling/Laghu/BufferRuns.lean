import Laghu.BufferInvariants

/-!
Whole lifetimes of a buffer: any calls from any worker, any answers of the
block source, and any use of the shared budget tree in between.
-/

namespace Laghu.BoundedBuffers

open Contract MemoryBudgets FlatMemory Views State Multiset

/-- The only way in which a call stops the program: the rest of the program
creates a child of a budget that cannot count another one. -/
def Saturates (s : State) (c : Call) : Prop :=
  ∃ p limit x, c = .budgets (.createChild p limit) ∧ s.budgets.get? p = some x ∧
    x.liveChildren = sizeMax

/-- A call returns and keeps the invariant, or saturates a child counter. -/
def StepSpec (s : State) (c : Call) : Prop :=
  (∃ o s', s.step c = some (o, s') ∧ Sound s') ∨ (Saturates s c ∧ s.step c = none)

variable {s : State}

variable {b : BoundedBuffer}

theorem Sound.with_buffer (h : Sound s) (hs : Shape b) (hblock : b.block = s.buffer.block)
    (hcap : b.capacity = s.buffer.capacity) (hresv : b.reservation = s.buffer.reservation)
    (hbudget : b.budget = s.buffer.budget) (hw : b.worker = s.buffer.worker) :
    Sound { s with buffer := b } := by
  refine ⟨hs, ?_, ?_, ?_, ?_⟩
  · rw [heldBlocks, hblock, hcap]
    exact h.ledger_eq
  · rw [hresv]
    exact h.accounted
  · rw [hbudget]
    exact h.budget_live
  · rw [hcap, hbudget, hw]
    exact h.owner

theorem Shape.committed (h : Shape b) (next : Size) (hle : b.writeOffset.toNat ≤ next.toNat)
    (hf : next.toNat ≤ b.capacity.toNat) : Shape { b with writeOffset := next } :=
  ⟨le_trans h.read_le hle, hf, h.capacity_le, h.storage_eq, h.block_size, h.block_null,
    h.reservation_eq⟩

theorem Shape.advanced (h : Shape b) {n : Size}
    (hsum : (b.readOffset + n).toNat = b.readOffset.toNat + n.toNat)
    (hle : n.toNat ≤ b.size.toNat) : Shape (advanced b n) := by
  have hsize := h.size_toNat
  have hread := h.read_le
  unfold BoundedBuffers.advanced
  split
  · exact ⟨Nat.le_refl _, Nat.zero_le _, h.capacity_le, h.storage_eq, h.block_size, h.block_null,
      h.reservation_eq⟩
  refine ⟨?_, h.write_le, h.capacity_le, h.storage_eq, h.block_size, h.block_null, h.reservation_eq⟩
  change (b.readOffset + n).toNat ≤ b.writeOffset.toNat
  omega

theorem commit_step (h : Sound s) (worker : WorkerId) (n : Size) :
    StepSpec s (.commit worker n) := by
  left
  rcases h.shape.commit_cases worker n with ⟨_, hf, hsum, hrun⟩ | ⟨e, hrun⟩
  · refine ⟨.done (.ok ()), { s with buffer := { s.buffer with
      writeOffset := s.buffer.writeOffset + n } }, by simp [step, hrun], ?_⟩
    exact h.with_buffer (h.shape.committed _ (by omega) (by omega)) rfl rfl rfl rfl rfl
  · exact ⟨.done (.error e), s, by simp [step, hrun], h⟩

theorem advanced_config (b : BoundedBuffer) (n : Size) :
    (advanced b n).block = b.block ∧ (advanced b n).capacity = b.capacity ∧
      (advanced b n).reservation = b.reservation ∧ (advanced b n).budget = b.budget ∧
      (advanced b n).worker = b.worker := by
  unfold advanced
  split <;> exact ⟨rfl, rfl, rfl, rfl, rfl⟩

section

variable (h : Sound s)
include h

theorem Sound.advanced {n : Size}
    (hsum : (s.buffer.readOffset + n).toNat = s.buffer.readOffset.toNat + n.toNat)
    (hle : n.toNat ≤ s.buffer.size.toNat) : Sound { s with buffer := advanced s.buffer n } := by
  obtain ⟨hblock, hcap, hresv, hbudget, hw⟩ := advanced_config s.buffer n
  exact h.with_buffer (h.shape.advanced hsum hle) hblock hcap hresv hbudget hw

theorem consume_step (worker : WorkerId) (n : Size) : StepSpec s (.consume worker n) := by
  left
  rcases h.shape.consume_cases worker n with ⟨_, hle, hsum, hrun⟩ | ⟨e, hrun⟩
  · exact ⟨.done (.ok ()), { s with buffer := advanced s.buffer n }, by simp [step, hrun],
      h.advanced hsum hle⟩
  · exact ⟨.done (.error e), s, by simp [step, hrun], h⟩

theorem reserve_buffer_step (worker : WorkerId) (n : Size) (reply : Result MutableByteView) :
    StepSpec s (.reserve worker n reply) := by
  left
  rcases reserve_cases h worker n reply with
    ⟨e, s', hrun, hsame⟩ | ⟨_, hrun⟩ | ⟨region, s', hrun, hreserved, _⟩
  · exact ⟨.view (.error e), s', by simp [step, hrun], hsame.sound h⟩
  · exact ⟨.view (.ok .empty), s, by simp [step, hrun], h⟩
  · exact ⟨.view (.ok region), s', by simp [step, hrun], hreserved.sound⟩

theorem compact_cases (worker : WorkerId) :
    (∃ s', s.compact worker = some (.ok (), s') ∧ Relocated s s' ∧
        s'.buffer.block = s.buffer.block) ∨
      ∃ e, s.compact worker = some (.error e, s) := by
  rcases requireWorker_eq s.buffer worker with ⟨_, hok⟩ | ⟨_, e, he⟩
  · obtain ⟨s', hrun, hm, hblock, _⟩ := compactUnchecked_spec h
    exact .inl ⟨s', by simp [compact, hok, hrun], hm, hblock⟩
  · exact .inr ⟨e, by simp [compact, he]⟩

theorem release_buffer_cases (worker : WorkerId) :
    (∃ s', s.release worker = some (.ok (), s') ∧ Sound s' ∧
        s'.buffer = .construct s.buffer.worker s.buffer.budget s.buffer.source
          s.buffer.initialCapacity s.buffer.maximumCapacity) ∨
      ∃ e, s.release worker = some (.error e, s) := by
  rcases requireWorker_eq s.buffer worker with ⟨_, hok⟩ | ⟨_, e, he⟩
  · obtain ⟨s', hrun, hs, _, hbuf, _⟩ := releaseUnchecked_buffer h
    exact .inl ⟨s', by simp [State.release, hok, hrun], hs, hbuf⟩
  · exact .inr ⟨e, by simp [State.release, he]⟩

/-- The rest of the program cannot disturb the buffer's own reservation. -/
theorem budgets_step (call : MemoryBudgets.Call) (hl : s.Legal (.budgets call)) :
    StepSpec s (.budgets call) := by
  obtain ⟨hheap, hk⟩ := hl
  have hacc : Accounted s.heap.budgets (s.heap.reservations.values + {s.buffer.reservation}) := by
    rw [add_comm, singleton_add]
    exact h.accounted
  rcases Heap.step_spec hacc call hheap with
    ⟨o, h', hrun, hacc', hkeeps, _⟩ | ⟨p, limit, x, hc, hx, hf, hrun⟩
  · refine .inl ⟨.done o, { s with budgets := h'.budgets, reservations := h'.reservations },
      by simp [step, hrun], h.shape, h.ledger_eq, ?_, ?_, ?_⟩
    · rw [add_comm, singleton_add] at hacc'
      exact hacc'
    · obtain ⟨x, hx⟩ := h.budget_live
      obtain ⟨x', hx', _⟩ := hkeeps _ x hk hx
      exact ⟨x', hx'⟩
    intro hf y hy
    obtain ⟨x, hx⟩ := h.budget_live
    obtain ⟨x', hx', hw⟩ := hkeeps _ x hk hx
    have hsame : x' = y := Option.some.inj (hx'.symm.trans hy)
    rw [← hsame, hw]
    exact h.owner hf x hx
  · refine .inr ⟨⟨p, limit, x, by rw [hc], hx, hf⟩, ?_⟩
    simp [step, hrun]

theorem buffer_step_spec (c : Call) (hl : s.Legal c) : StepSpec s c := by
  cases c with
  | readable worker =>
    rcases h.shape.readable_cases worker with ⟨_, region, hrun, _⟩ | ⟨_, e, hrun⟩
    · exact .inl ⟨.view (.ok region), s, by simp [step, hrun], h⟩
    · exact .inl ⟨.view (.error e), s, by simp [step, hrun], h⟩
  | writable worker =>
    rcases h.shape.writable_cases worker with ⟨_, region, hrun, _⟩ | ⟨_, e, hrun⟩
    · exact .inl ⟨.view (.ok region), s, by simp [step, hrun], h⟩
    · exact .inl ⟨.view (.error e), s, by simp [step, hrun], h⟩
  | reserve worker n reply => exact reserve_buffer_step h worker n reply
  | commit worker n => exact commit_step h worker n
  | consume worker n => exact consume_step h worker n
  | compact worker =>
    rcases compact_cases h worker with ⟨s', hrun, hm, _⟩ | ⟨e, hrun⟩
    · exact .inl ⟨.done (.ok ()), s', by simp [step, hrun], hm.sound⟩
    · exact .inl ⟨.done (.error e), s, by simp [step, hrun], h⟩
  | release worker =>
    rcases release_buffer_cases h worker with ⟨s', hrun, hs, _⟩ | ⟨e, hrun⟩
    · exact .inl ⟨.done (.ok ()), s', by simp [step, hrun], hs⟩
    · exact .inl ⟨.done (.error e), s, by simp [step, hrun], h⟩
  | budgets call => exact budgets_step h call hl
  | poke address value =>
    exact .inl ⟨.done (.ok ()), { s with memory := store s.memory address value }, rfl,
      h.shape, h.ledger_eq, h.accounted, h.budget_live, h.owner⟩

end

theorem initial_sound (h : s.Initial) : Sound s := by
  obtain ⟨hreachable, hl, hledger, worker, budget, source, initial, maximum, hbuf⟩ := h
  have hacc := Heap.reachable_accounted hreachable
  refine ⟨?_, ?_, ?_, hl, ?_⟩
  · rw [hbuf]
    exact ⟨Nat.le_refl _, Nat.le_refl _, Nat.zero_le _, rfl, Nat.le_refl _,
      iff_of_true rfl rfl, rfl⟩
  · rw [hledger, hbuf]
    rfl
  · rw [hbuf]
    exact (Accounted.cons_inactive rfl).mpr hacc
  rw [hbuf]
  intro hcap
  exact absurd rfl hcap

theorem sound_of_step (h : Sound s) {c : Call} {o : Output} {s' : State} (hl : s.Legal c)
    (hstep : s.step c = some (o, s')) : Sound s' := by
  rcases buffer_step_spec h c hl with ⟨o', t, hrun, hs⟩ | ⟨_, hn⟩
  · rw [hrun] at hstep
    cases hstep
    exact hs
  · rw [hn] at hstep
    cases hstep

theorem reachable_sound (h : s.Reachable) : Sound s := by
  apply Runs.Reachable.invariant h
  · intro s₀ hs
    exact initial_sound hs
  · intro s₀ c o t hs hl hstep
    exact sound_of_step hs hl hstep

/-- Throughout its lifetime a buffer keeps its offsets in order, pays for
exactly its capacity, holds exactly one block or none, and owes the source no
block once it is destroyed. A failed `reserve` leaves no trace, and no call
stops the program. -/
theorem bounded_buffer_safe (h : s.Reachable) :
    (s.buffer.readOffset.toNat ≤ s.buffer.writeOffset.toNat ∧
      s.buffer.writeOffset.toNat ≤ s.buffer.capacity.toNat ∧
      s.buffer.capacity.toNat ≤ s.buffer.maximumCapacity.toNat) ∧
    (0 < s.buffer.capacity.toNat → s.buffer.reservation.budget = some s.buffer.budget ∧
      s.buffer.reservation.bytes = s.buffer.capacity ∧
      s.ledger.acquired = s.buffer.block ::ₘ s.ledger.released) ∧
    (s.buffer.capacity.toNat = 0 →
      s.buffer.reservation.isActive = false ∧ s.ledger.acquired = s.ledger.released) ∧
    (∃ s', s.destroy = some s' ∧ s'.ledger.acquired = s'.ledger.released) ∧
    (∀ worker n reply e s', s.reserve worker n reply = some (.error e, s') →
      s'.buffer = s.buffer ∧ s'.memory = s.memory ∧ s'.budgets = s.budgets ∧
      s'.reservations = s.reservations) ∧
    (∀ c, s.Legal c → s.step c = none → Saturates s c) := by
  have hs := reachable_sound h
  refine ⟨⟨hs.shape.read_le, hs.shape.write_le, hs.shape.capacity_le⟩, ?_, ?_, ?_, ?_, ?_⟩
  · intro hpos
    have hfull : s.buffer.capacity ≠ 0#64 := by
      rw [ne_eq, size_eq_zero]
      omega
    have hledger := hs.ledger_eq
    rw [heldBlocks, if_neg hfull, add_comm, singleton_add] at hledger
    rw [hs.active hfull]
    exact ⟨rfl, rfl, hledger⟩
  · intro hzero
    have hempty := (size_eq_zero s.buffer.capacity).mpr hzero
    have hledger := hs.ledger_eq
    rw [heldBlocks, if_pos hempty, add_zero] at hledger
    rw [hs.inactive hempty]
    exact ⟨rfl, hledger⟩
  · obtain ⟨s', hrun, _, hbalanced, _⟩ := releaseUnchecked_buffer hs
    exact ⟨s', hrun, hbalanced⟩
  · intro worker n reply e s' herror
    rcases reserve_cases hs worker n reply with
      ⟨e', t, hrun, hsame⟩ | ⟨_, hrun⟩ | ⟨region, t, hrun, _⟩
    · rw [hrun] at herror
      cases herror
      exact ⟨hsame.buffer_eq, hsame.memory_eq, hsame.budgets_eq, hsame.reservations_eq⟩
    · rw [hrun] at herror
      cases herror
    · rw [hrun] at herror
      cases herror
  · intro c hlegal hnone
    rcases buffer_step_spec hs c hlegal with ⟨o, s', hrun, _⟩ | ⟨hsaturated, _⟩
    · rw [hrun] at hnone
      cases hnone
    · exact hsaturated

/-- A new buffer of 8 to 16 bytes on the inner budget of a small tree. -/
def freshState : State where
  buffer := .construct Heap.soleWorker 1 ⟨true, true⟩ 8#64 16#64
  budgets := Heap.nestedHeap.budgets
  reservations := Heap.nestedHeap.reservations
  memory := fun _ => 0#8
  ledger := {}

theorem freshState_initial : freshState.Initial :=
  ⟨Heap.nestedHeap_reachable, ⟨_, rfl⟩, rfl, Heap.soleWorker, 1, ⟨true, true⟩, 8#64, 16#64, rfl⟩

/-- A block of 32 bytes at address 4096. -/
def largeBlock : MutableByteView := { data := 4096, size := 32#64 }

theorem bounded_buffer_safe_filled : ∃ s : State, s.Reachable ∧ s.buffer.capacity = 8#64 ∧
      s.ledger.acquired = largeBlock ::ₘ s.ledger.released := by
  have hreach := Runs.Reachable.append (Runs.Reachable.of_init freshState_initial)
    (Runs.Run.single (S := system) (i := .reserve Heap.soleWorker 4#64 (.ok largeBlock))
      trivial rfl)
  refine ⟨_, hreach, rfl, ?_⟩
  exact ((bounded_buffer_safe hreach).2.1 (by decide)).2.2

end Laghu.BoundedBuffers
