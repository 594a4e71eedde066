import Laghu.BufferQueue

/-!
A region that was reserved before bytes are consumed and committed afterwards. Consuming
moves the read offset and leaves the region where it is, unless it takes the last readable
byte: then both offsets return to the front of the block, and a commit publishes the bytes
found there instead of the region.
-/

namespace Laghu.BoundedBuffers

open Contract MemoryBudgets FlatMemory Views List Option State BoundedBuffer

/-- The owner of a region writes into it, from the front. -/
def State.writeBytes (s : State) (address : ℕ) : List Byte → State
  | [] => s
  | value :: rest =>
    State.writeBytes { s with memory := store s.memory address value } (address + 1) rest

/-- How many bytes a call consumed. -/
def consumedBy : Call × Output → ℕ
  | (.consume _ n, .done (.ok ())) => n.toNat
  | _ => 0

def consumedBytes : List (Call × Output) → ℕ
  | [] => 0
  | event :: rest => consumedBy event + consumedBytes rest

section

variable {s s' t : State} {address : ℕ} {data : List Byte} {trace : List (Call × Output)}

theorem consumedBytes_append (trace rest : List (Call × Output)) :
    consumedBytes (trace ++ rest) = consumedBytes trace + consumedBytes rest := by
  induction trace with
  | nil => exact (zero_add _).symm
  | cons event trace ih =>
    change consumedBy event + consumedBytes (trace ++ rest) =
      consumedBy event + consumedBytes trace + consumedBytes rest
    omega

theorem writeBytes_buffer (s : State) (address : ℕ) (data : List Byte) :
    (s.writeBytes address data).buffer = s.buffer := by
  induction data generalizing s address with
  | nil => rfl
  | cons value rest ih => exact ih _ _

theorem writeBytes_outside {other : ℕ} (h : other < address ∨ address + data.length ≤ other) :
    (s.writeBytes address data).memory other = s.memory other := by
  induction data generalizing s address with
  | nil => rfl
  | cons value rest ih =>
    rw [length_cons] at h
    have hne : other ≠ address := by omega
    exact (ih (by omega)).trans (store_ne _ _ hne)

theorem slice_writeBytes (s : State) (address : ℕ) (data : List Byte) :
    slice (s.writeBytes address data).memory address data.length = data := by
  induction data generalizing s address with
  | nil => rfl
  | cons value rest ih =>
    rw [length_cons, slice_cons]
    congr 1
    · exact (writeBytes_outside (.inl (Nat.lt_succ_self _))).trans (store_self _ _ _)
    · exact ih _ _

theorem Sound.writeBytes (h : Sound s) (address : ℕ) (data : List Byte) :
    Sound (s.writeBytes address data) := by
  induction data generalizing s address with
  | nil => exact h
  | cons value rest ih =>
    have hstored : Sound { s with memory := store s.memory address value } :=
      ⟨h.shape, h.ledger_eq, h.accounted, h.budget_live, h.owner⟩
    exact ih hstored _

/-- A buffer with nothing to read has its offsets at the front. -/
def Rewound (s : State) : Prop := s.buffer.size.toNat = 0 → s.buffer.writeOffset.toNat = 0

theorem Relocated.rewound (h : Relocated s s') : Rewound s' := by
  intro he
  rw [size, h.readOffset_eq, BitVec.sub_zero] at he
  exact he

theorem Rewound.of_buffer (h : Rewound s) (hbuf : s'.buffer = s.buffer) : Rewound s' := by
  unfold Rewound
  rw [hbuf]
  exact h

theorem rewound_committed (h : Shape s.buffer) (hrewound : Rewound s) {n : Size}
    (hsum : (s.buffer.writeOffset + n).toNat = s.buffer.writeOffset.toNat + n.toNat)
    (hf : s.buffer.writeOffset.toNat + n.toNat ≤ s.buffer.capacity.toNat) :
    Rewound { s with buffer := { s.buffer with writeOffset := s.buffer.writeOffset + n } } := by
  intro he
  have hnew := (h.committed (s.buffer.writeOffset + n) (by omega) (by omega)).size_toNat
  have hsize := h.size_toNat
  have hread := h.read_le
  rw [he] at hnew
  change 0 = (s.buffer.writeOffset + n).toNat - s.buffer.readOffset.toNat at hnew
  change (s.buffer.writeOffset + n).toNat = 0
  have hwrite := hrewound (by omega)
  omega

theorem rewound_advanced (h : Shape s.buffer) {n : Size}
    (hsum : (s.buffer.readOffset + n).toNat = s.buffer.readOffset.toNat + n.toNat)
    (hle : n.toNat ≤ s.buffer.size.toNat) : Rewound { s with buffer := advanced s.buffer n } := by
  intro he
  have hnew := (h.advanced hsum hle).size_toNat
  have hread := (h.advanced hsum hle).read_le
  rw [he] at hnew
  unfold advanced at hnew hread ⊢
  split at hnew
  · next hdrained =>
    rw [if_pos hdrained]
    rfl
  next hk =>
  rw [if_neg hk] at hread
  exact absurd (BitVec.eq_of_toNat_eq (by dsimp only at hnew hread; omega)) hk

theorem rewound_reserved (h : Sound s) (hrewound : Rewound s) {worker : WorkerId} {n : Size}
    {reply : Result MutableByteView} {result : Result MutableByteView}
    (hrun : s.reserve worker n reply = some (result, s')) : Rewound s' := by
  rcases reserve_cases h worker n reply with
    ⟨e, t, hcase, hsame⟩ | ⟨_, hcase⟩ | ⟨region, t, hcase, hreserved, _⟩
  · rw [hcase] at hrun
    cases hrun
    exact hrewound.of_buffer hsame.buffer_eq
  · rw [hcase] at hrun
    cases hrun
    exact hrewound
  rw [hcase] at hrun
  cases hrun
  rcases hreserved.moved with rfl | hm
  · exact hrewound
  · exact hm.rewound

theorem rewound_step (hs : Sound s) (h : Rewound s) {c : Call} {o : Output}
    (hstep : s.step c = some (o, s')) : Rewound s' := by
  cases c with
  | readable worker | writable worker | budgets call =>
    obtain ⟨_, _, hstep⟩ := bind_eq_some_iff.mp hstep
    cases hstep
    exact h
  | reserve worker n reply =>
    obtain ⟨⟨result, t⟩, hrun, hstep⟩ := bind_eq_some_iff.mp hstep
    cases hstep
    exact rewound_reserved hs h hrun
  | commit worker n =>
    rcases hs.shape.commit_cases worker n with ⟨_, hf, hsum, hrun⟩ | ⟨e, hrun⟩
    · rw [step, hrun] at hstep
      cases hstep
      exact rewound_committed hs.shape h hsum hf
    rw [step, hrun] at hstep
    cases hstep
    exact h
  | consume worker n =>
    rcases hs.shape.consume_cases worker n with ⟨_, hle, hsum, hrun⟩ | ⟨e, hrun⟩
    · rw [step, hrun] at hstep
      cases hstep
      exact rewound_advanced hs.shape hsum hle
    rw [step, hrun] at hstep
    cases hstep
    exact h
  | compact worker =>
    obtain ⟨⟨result, t⟩, hrun, hstep⟩ := bind_eq_some_iff.mp hstep
    cases hstep
    rcases compact_cases hs worker with ⟨t', hcase, hm, _⟩ | ⟨e, hcase⟩
    · rw [hcase] at hrun
      cases hrun
      exact hm.rewound
    rw [hcase] at hrun
    cases hrun
    exact h
  | release worker =>
    obtain ⟨⟨result, t⟩, hrun, hstep⟩ := bind_eq_some_iff.mp hstep
    cases hstep
    rcases release_buffer_cases hs worker with ⟨t', hcase, _, hbuf⟩ | ⟨e, hcase⟩
    · rw [hcase] at hrun
      cases hrun
      intro _
      rw [hbuf]
      rfl
    · rw [hcase] at hrun
      cases hrun
      exact h
  | poke address value =>
    cases hstep
    exact h

theorem run_rewound (hs : Sound s) (h : Rewound s) (hrun : Runs.Run system s trace t) :
    Rewound t := by
  have hboth : Sound t ∧ Rewound t := by
    apply hrun.invariant (P := fun s : State => Sound s ∧ Rewound s) _ ⟨hs, h⟩
    intro s₀ c o t hs₀ hl hstep
    exact ⟨sound_of_step hs₀.1 hl hstep, rewound_step hs₀.1 hs₀.2 hstep⟩
  exact hboth.2

theorem reachable_rewound (h : s.Reachable) : Rewound s := by
  obtain ⟨s₀, trace, hinit, hrun⟩ := h
  refine run_rewound (initial_sound hinit) (fun _ => ?_) hrun
  obtain ⟨_, _, _, _, _, _, _, _, hbuf⟩ := hinit
  rw [hbuf]
  rfl

/-- What consuming does to the offsets of a buffer. -/
structure Consumed (s : State) (n : ℕ) (t : State) : Prop where
  sound : Sound t
  memory_eq : t.memory = s.memory
  block_eq : t.buffer.block = s.buffer.block
  capacity_eq : t.buffer.capacity = s.buffer.capacity
  worker_eq : t.buffer.worker = s.buffer.worker
  within : n ≤ s.buffer.size.toNat
  offsets : (t.buffer.writeOffset.toNat = s.buffer.writeOffset.toNat ∧
      t.buffer.readOffset.toNat = s.buffer.readOffset.toNat + n) ∨
    (t.buffer.writeOffset.toNat = 0 ∧ t.buffer.readOffset.toNat = 0 ∧ n = s.buffer.size.toNat)

theorem Consumed.size_eq {n : ℕ} (hs : Sound s) (h : Consumed s n t) :
    t.buffer.size.toNat = s.buffer.size.toNat - n := by
  have hpre := hs.shape.size_toNat
  have ha := h.sound.shape.size_toNat
  rcases h.offsets with ⟨hwrite, hread⟩ | ⟨hwrite, hread, hall⟩ <;> omega

theorem Consumed.next {n : ℕ} (hs : Sound s) (h : Consumed s n t) {worker : WorkerId} {m : Size}
    {o : Output} (hstep : t.step (.consume worker m) = some (o, s')) :
    Consumed s (n + consumedBy (.consume worker m, o)) s' := by
  have hsize := h.size_eq hs
  have hwithin := h.within
  rcases h.sound.shape.consume_cases worker m with ⟨_, hle, hsum, hrun⟩ | ⟨e, hrun⟩
  · rw [step, hrun] at hstep
    cases hstep
    obtain ⟨hblock, hcap, _, _, hw⟩ := advanced_config t.buffer m
    change Consumed s (n + m.toNat) _
    refine ⟨h.sound.advanced hsum hle, h.memory_eq, hblock.trans h.block_eq,
      hcap.trans h.capacity_eq, hw.trans h.worker_eq, by omega, ?_⟩
    have hpre := hs.shape.size_toNat
    have ha := h.sound.shape.size_toNat
    have hread := h.sound.shape.read_le
    unfold advanced
    split
    · next hdrained =>
      rw [hdrained] at hsum
      exact .inr ⟨rfl, rfl, by omega⟩
    rcases h.offsets with ⟨hwrite, hstart⟩ | ⟨hwrite, hstart, hall⟩
    · exact .inl ⟨hwrite, by dsimp only; omega⟩
    · next hk => exact absurd (BitVec.eq_of_toNat_eq (by omega)) hk
  · rw [step, hrun] at hstep
    cases hstep
    exact h

theorem run_consumed (hs : Sound s) (hrun : Runs.Run system s trace t)
    (hcalls : ∀ event ∈ trace, ∃ worker n, event.1 = .consume worker n) :
    Consumed s (consumedBytes trace) t := by
  induction hrun with
  | refl =>
    exact ⟨hs, rfl, rfl, rfl, rfl, Nat.zero_le _, .inl ⟨rfl, rfl⟩⟩
  | tail hpre _ hstep ih =>
    obtain ⟨worker, n, hc⟩ := hcalls _ (mem_append_right _ (mem_singleton_self _))
    subst hc
    have hprev := ih fun event he => hcalls event (mem_append_left _ he)
    rw [consumedBytes_append]
    exact hprev.next hs hstep

variable {s₁ s₂ : State} {worker : WorkerId} {n k : Size} {reply : Result MutableByteView}
  {region : MutableByteView}

/-- The region that was reserved lies behind the readable bytes. -/
theorem reserve_region (h : Sound s) (hrun : s.reserve worker n reply = some (.ok region, s₁)) :
    Sound s₁ ∧ worker = s₁.buffer.worker ∧
      s₁.buffer.writeOffset.toNat + n.toNat ≤ s₁.buffer.capacity.toNat ∧
      (n.toNat ≠ 0 → region.data = s₁.buffer.block.data + s₁.buffer.writeOffset.toNat) := by
  have hw : worker = s.buffer.worker := by
    rcases requireWorker_eq s.buffer worker with ⟨heq, _⟩ | ⟨_, e, he⟩
    · exact heq
    · rw [State.reserve, he] at hrun
      cases hrun
  rcases reserve_cases h worker n reply with
    ⟨e, t, hcase, _⟩ | ⟨h0, hcase⟩ | ⟨view, t, hcase, hreserved, hspan⟩
  · rw [hcase] at hrun
    cases hrun
  · rw [hcase] at hrun
    cases hrun
    have hn := (size_eq_zero n).mp h0
    have hwrite := h.shape.write_le
    exact ⟨h, hw, by omega, fun hsome => absurd hn hsome⟩
  rw [hcase] at hrun
  cases hrun
  refine ⟨hreserved.sound, ?_, hreserved.fits, fun _ => by rw [hspan]⟩
  rcases hreserved.moved with rfl | hm
  · exact hw
  · exact hw.trans hm.worker_eq.symm

/-- What the memory around the write offset holds once the region has been written. -/
theorem written_slices (hs : Sound s₁) (hlen : data.length = n.toNat)
    (hreg : n.toNat ≠ 0 → region.data = s₁.buffer.block.data + s₁.buffer.writeOffset.toNat) :
    slice (s₁.writeBytes region.data data).memory
        (s₁.buffer.block.data + s₁.buffer.readOffset.toNat) s₁.buffer.size.toNat =
      slice s₁.memory (s₁.buffer.block.data + s₁.buffer.readOffset.toNat) s₁.buffer.size.toNat ∧
    slice (s₁.writeBytes region.data data).memory
        (s₁.buffer.block.data + s₁.buffer.writeOffset.toNat) n.toNat = data := by
  have hsize := hs.shape.size_toNat
  have hread := hs.shape.read_le
  by_cases h0 : n.toNat = 0
  · obtain rfl := eq_nil_of_length_eq_zero (hlen.trans h0)
    rw [h0]
    exact ⟨rfl, rfl⟩
  have hplace := hreg h0
  constructor
  · apply slice_congr
    intro i hi
    exact writeBytes_outside (.inl (by omega))
  · rw [← hplace, ← hlen]
    exact slice_writeBytes s₁ region.data data

theorem commit_appends (h : Sound s) (hw : worker = s.buffer.worker)
    (hf : s.buffer.writeOffset.toNat + k.toNat ≤ s.buffer.capacity.toNat) :
    ∃ s', s.step (.commit worker k) = some (.done (.ok ()), s') ∧
      readableBytes s' = some (slice s.memory
        (s.buffer.block.data + s.buffer.readOffset.toNat) s.buffer.size.toNat ++
          slice s.memory (s.buffer.block.data + s.buffer.writeOffset.toNat) k.toNat) := by
  obtain ⟨hsum, hrun⟩ := h.shape.commit_ok hw hf
  have hsize := h.shape.size_toNat
  have hread := h.shape.read_le
  have hnew := h.shape.committed (s.buffer.writeOffset + k) (by omega) (by omega)
  have hgrown := hnew.size_toNat
  refine ⟨{ s with buffer := { s.buffer with writeOffset := s.buffer.writeOffset + k } },
    by rw [step, hrun], ?_⟩
  rw [(h.with_buffer hnew rfl rfl rfl rfl rfl).readableBytes_eq]
  have hend : s.buffer.block.data + s.buffer.writeOffset.toNat =
      s.buffer.block.data + s.buffer.readOffset.toNat + s.buffer.size.toNat := by omega
  have htotal : (size
      { s.buffer with writeOffset := s.buffer.writeOffset + k }).toNat =
      s.buffer.size.toNat + k.toNat := by
    rw [hgrown]
    change (s.buffer.writeOffset + k).toNat - s.buffer.readOffset.toNat = _
    omega
  rw [hend, ← slice_append]
  rw [htotal]

/-- After any calls of `consume` a commit of at most the reserved size succeeds. It
appends what was written into the region exactly if a byte was left to read, or there was
none to begin with, or the bytes at the front of the block are the same: those are what it
publishes when nothing was left. -/
theorem commit_after_consume (h : s.Reachable)
    (hreserve : s.reserve worker n reply = some (.ok region, s₁))
    (hlength : data.length = n.toNat)
    (hrun : Runs.Run State.system (s₁.writeBytes region.data data) trace s₂)
    (hcalls : ∀ event ∈ trace, ∃ worker n, event.1 = .consume worker n) (hk : k.toNat ≤ n.toNat) :
    ∃ before s₃, readableBytes s₁ = some before ∧
      readableBytes s₂ = some (before.drop (consumedBytes trace)) ∧
      s₂.step (.commit worker k) = some (.done (.ok ()), s₃) ∧
      (readableBytes s₃ = some (before.drop (consumedBytes trace) ++ data.take k.toNat) ↔
        s₂.buffer.size ≠ 0#64 ∨ s₁.buffer.size = 0#64 ∨
          slice s₂.memory s₁.buffer.block.data k.toNat = data.take k.toNat) ∧
      (s₂.buffer.size = 0#64 →
        readableBytes s₃ = some (slice s₂.memory s₁.buffer.block.data k.toNat)) := by
  obtain ⟨hs₁, hworker, hfits, hregion⟩ := reserve_region (reachable_sound h) hreserve
  have hrewound := rewound_reserved (reachable_sound h) (reachable_rewound h) hreserve
  obtain ⟨hreadable, hwritten⟩ := written_slices hs₁ hlength hregion
  have hstored := hs₁.writeBytes region.data data
  have hbuffer := writeBytes_buffer s₁ region.data data
  have hconsumed := run_consumed hstored hrun hcalls
  have hrest := hconsumed.size_eq hstored
  have hfront := run_rewound hstored (hrewound.of_buffer hbuffer) hrun
  obtain ⟨hs₂, hmemory, hblock, hcapacity, howner, hwithin, hoffsets⟩ := hconsumed
  rw [hbuffer] at hblock hcapacity howner hwithin hoffsets hrest
  have hsize := hs₁.shape.size_toNat
  have hread := hs₁.shape.read_le
  have hsize₂ := hs₂.shape.size_toNat
  have hfits₂ : s₂.buffer.writeOffset.toNat + k.toNat ≤ s₂.buffer.capacity.toNat := by
    rw [hcapacity]
    omega
  have hkept : slice s₂.memory (s₂.buffer.block.data + s₂.buffer.readOffset.toNat)
      s₂.buffer.size.toNat = (slice s₁.memory (s₁.buffer.block.data +
        s₁.buffer.readOffset.toNat) s₁.buffer.size.toNat).drop (consumedBytes trace) := by
    rw [← hreadable, slice_drop _ _ hwithin, hmemory, hblock, hrest]
    rcases hoffsets with ⟨_, hstart⟩ | ⟨_, _, hall⟩
    · rw [hstart, add_assoc]
    · rw [hall, Nat.sub_self]
      rfl
  obtain ⟨s₃, hcommit, happended⟩ := commit_appends hs₂ (hworker.trans howner.symm) hfits₂
  have hdrained : s₂.buffer.size = 0#64 → (slice s₁.memory (s₁.buffer.block.data +
        s₁.buffer.readOffset.toNat) s₁.buffer.size.toNat).drop (consumedBytes trace) = [] ∧
      readableBytes s₃ = some (slice s₂.memory s₁.buffer.block.data k.toNat) := by
    intro hnone
    have hempty := (size_eq_zero _).mp hnone
    have hnil : slice s₂.memory (s₂.buffer.block.data + s₂.buffer.readOffset.toNat)
        s₂.buffer.size.toNat = [] := by
      rw [hempty]
      rfl
    refine ⟨hkept ▸ hnil, ?_⟩
    rw [happended, hnil, hfront hempty, hblock]
    rfl
  rw [hkept] at happended
  refine ⟨_, s₃, hs₁.readableBytes_eq, by rw [hs₂.readableBytes_eq, hkept], hcommit,
    ⟨fun happends => ?_, fun hleft => ?_⟩, fun hnone => (hdrained hnone).2⟩
  · by_cases hnone : s₂.buffer.size = 0#64
    · obtain ⟨hnil, hpublished⟩ := hdrained hnone
      rw [hpublished, hnil, nil_append] at happends
      exact .inr (.inr (Option.some.inj happends))
    · exact .inl hnone
  by_cases hsame : s₂.buffer.writeOffset.toNat = s₁.buffer.writeOffset.toNat
  · rw [happended, hsame, hblock, hmemory, ← slice_take _ _ hk, hwritten]
  -- the offsets have been rewound, so nothing was left and the front is published
  have hnone : s₂.buffer.size = 0#64 := by
    rcases hoffsets with ⟨hkeeps, _⟩ | ⟨hzero, hstart, _⟩
    · exact absurd hkeeps hsame
    · exact (size_eq_zero _).mpr (by omega)
  obtain ⟨hnil, hpublished⟩ := hdrained hnone
  rcases hleft with hsome | hempty | hequal
  · exact absurd hnone hsome
  · rcases hoffsets with ⟨hkeeps, _⟩ | ⟨hzero, _, _⟩
    · exact absurd hkeeps hsame
    · exact absurd (hzero.trans (hrewound ((size_eq_zero _).mp hempty)).symm) hsame
  · rw [hpublished, hnil, nil_append, hequal]

end

/-- Two bytes have been committed. -/
def filledState : State where
  buffer := { freshState.buffer with
    block := largeBlock
    storage := { data := 4096, size := 8#64 }
    reservation := { budget := some 1, bytes := 8#64 }
    capacity := 8#64
    writeOffset := 2#64 }
  budgets := ⟨[
    some { worker := Heap.soleWorker, limit := 100#64, charged := 48#64,
           liveReservations := 2#64, liveChildren := 1#64 },
    some { worker := Heap.soleWorker, limit := 80#64, charged := 48#64,
           liveReservations := 2#64, parent := some 0 }]⟩
  reservations := freshState.reservations
  memory := store (store freshState.memory 4096 0xAA#8) 4097 0xBB#8
  ledger := freshState.ledger.acquire largeBlock

theorem filledState_reachable : filledState.Reachable := by
  have hreserved := Runs.Reachable.step (S := system) (.of_init freshState_initial)
    (i := Call.reserve Heap.soleWorker 2#64 (.ok largeBlock)) trivial rfl
  have hf := hreserved.step (i := Call.poke 4096 0xAA#8) trivial rfl
  have hsec := hf.step (i := Call.poke 4097 0xBB#8) trivial rfl
  exact hsec.step (i := Call.commit Heap.soleWorker 2#64) trivial rfl

theorem commit_after_consume_one : ∃ region s₁ s₂ s₃, filledState.Reachable ∧
      filledState.reserve Heap.soleWorker 2#64 (.ok largeBlock) = some (.ok region, s₁) ∧
      Runs.Run State.system (s₁.writeBytes region.data [0xCC#8, 0xDD#8])
        [(.consume Heap.soleWorker 1#64, .done (.ok ()))] s₂ ∧
      s₂.step (.commit Heap.soleWorker 2#64) = some (.done (.ok ()), s₃) ∧
      readableBytes s₃ = some [0xBB#8, 0xCC#8, 0xDD#8] := by
  have hrun := Runs.Run.single (S := system)
    (s := filledState.writeBytes 4098 [0xCC#8, 0xDD#8])
    (i := Call.consume Heap.soleWorker 1#64) trivial rfl
  obtain ⟨before, s₃, hbefore, _, hcommit, hkept, _⟩ := commit_after_consume
    (k := 2#64) filledState_reachable
    (show filledState.reserve Heap.soleWorker 2#64 (.ok largeBlock) =
      some (.ok { data := 4098, size := 2#64 }, filledState) from rfl) rfl hrun
    (fun event hevent => by cases List.mem_singleton.mp hevent; exact ⟨_, _, rfl⟩) (by decide)
  obtain rfl : [0xAA#8, 0xBB#8] = before := Option.some.inj hbefore
  exact ⟨_, _, _, s₃, filledState_reachable, rfl, hrun, hcommit, hkept.mpr (.inl (by decide))⟩

/-- Both readable bytes are consumed: the commit makes them readable again, and the bytes
that were written into the region are lost. -/
theorem drained_region_lost : ∃ region s₁ s₂ s₃, filledState.Reachable ∧
      filledState.reserve Heap.soleWorker 2#64 (.ok largeBlock) = some (.ok region, s₁) ∧
      readableBytes s₁ = some [0xAA#8, 0xBB#8] ∧
      Runs.Run State.system (s₁.writeBytes region.data [0xCC#8, 0xDD#8])
        [(.consume Heap.soleWorker 2#64, .done (.ok ()))] s₂ ∧
      readableBytes s₂ = some [] ∧
      s₂.step (.commit Heap.soleWorker 2#64) = some (.done (.ok ()), s₃) ∧
      readableBytes s₃ = some [0xAA#8, 0xBB#8] :=
  ⟨_, _, _, _, filledState_reachable, rfl, rfl, .single trivial rfl, rfl, rfl, rfl⟩

end Laghu.BoundedBuffers
