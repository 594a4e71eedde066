import Laghu.BufferRuns

/-!
The buffer as a queue of bytes. A client keeps track of the region it was last
given, of the bytes it has written there, and of what it has committed and
consumed. As long as it commits only bytes it has written, what the buffer
shows as readable is what the client's own record says, wherever growth and
compaction have put it.
-/

namespace Laghu.BoundedBuffers

open Contract MemoryBudgets FlatMemory Views Option List BoundedBuffer

/-- The part of the latest region that is not committed yet, and what has been
written there. -/
structure Region where
  start : ℕ := 0
  length : ℕ := 0
  written : Memory (Option Byte) := fun _ => none

namespace Region

def fresh (view : MutableByteView) : Region := { start := view.data, length := view.size.toNat }

def Contains (r : Region) (address : ℕ) : Prop := r.start ≤ address ∧ address < r.start + r.length

instance (r : Region) (address : ℕ) : Decidable (r.Contains address) :=
  inferInstanceAs (Decidable (_ ∧ _))

def record (r : Region) (address : ℕ) (value : Byte) : Region :=
  if r.Contains address then { r with written := store r.written address (some value) } else r

/-- The first `n` bytes, if all of them have been written. -/
def bytes (r : Region) : ℕ → Option (List Byte)
  | 0 => some []
  | n + 1 => do
    let front ← r.bytes n
    let last ← r.written (r.start + n)
    return front ++ [last]

def advance (r : Region) (n : ℕ) : Region :=
  { r with start := r.start + n, length := r.length - n }

end Region

/-- The client's record of a queue: everything committed since the last
release, and how much of it has been consumed. -/
structure Client where
  region : Region := {}
  committed : List Byte := []
  consumed : ℕ := 0

namespace Client

def queue (c : Client) : List Byte := c.committed.drop c.consumed

/-- What the client notes when a call returns. Calls that fail are ignored. -/
def observe (c : Client) : Call → Output → Client
  | .reserve _ _ _, .view (.ok view) => { c with region := .fresh view }
  | .writable _, .view (.ok view) => { c with region := .fresh view }
  | .commit _ n, .done (.ok ()) =>
    { c with
      region := c.region.advance n.toNat
      committed := c.committed ++ (c.region.bytes n.toNat).getD [] }
  | .consume _ n, .done (.ok ()) => { c with region := {}, consumed := c.consumed + n.toNat }
  | .compact _, .done (.ok ()) => { c with region := {} }
  | .release _, .done (.ok ()) => {}
  | .poke address value, _ => { c with region := c.region.record address value }
  | _, _ => c

end Client

/-- The address lies in the block that the buffer holds. -/
def InBlock (b : BoundedBuffer) (address : ℕ) : Prop :=
  b.block.data ≤ address ∧ address < b.block.data + b.block.size.toNat

structure Session where
  state : State
  client : Client := {}

namespace Session

/-- The source does not hand out memory the buffer still holds, bytes are
committed only after they have been written into the latest region, and nobody
else writes into the buffer's block. -/
def Legal (s : Session) : Call → Prop
  | .reserve _ _ reply => ∀ block, reply = .ok block →
      block.data + block.size.toNat ≤ s.state.buffer.block.data ∨
        s.state.buffer.block.data + s.state.buffer.block.size.toNat ≤ block.data
  | .commit worker n => (s.state.buffer.commit worker n).1 = .ok () →
      n.toNat ≤ s.client.region.length ∧ ∃ bytes, s.client.region.bytes n.toNat = some bytes
  | .poke address _ => s.client.region.Contains address ∨ ¬ InBlock s.state.buffer address
  | c => s.state.Legal c

def step (s : Session) (c : Call) : Option (Output × Session) := do
  let (o, t) ← s.state.step c
  return (o, ⟨t, s.client.observe c o⟩)

def system : Runs.System Session Call Output where
  legal := Legal
  step := step

def Reachable (s : Session) : Prop :=
  Runs.Reachable system (fun s₀ => s₀.state.Initial ∧ s₀.client = {}) s

end Session

/-- The bytes that the owner reads. -/
def readableBytes (s : State) : Option (List Byte) :=
  match s.buffer.readable s.buffer.worker with
  | some (.ok view) => some (slice s.memory view.data view.size.toNat)
  | _ => none

theorem Sound.readableBytes_eq {s : State} (h : Sound s) : readableBytes s =
    some (slice s.memory (s.buffer.block.data + s.buffer.readOffset.toNat)
      s.buffer.size.toNat) := by
  rcases h.shape.readable_cases s.buffer.worker with ⟨_, view, hrun, hspan⟩ | ⟨hne, _⟩
  · have hdata : view.data = s.buffer.block.data + s.buffer.readOffset.toNat := by rw [hspan]
    have hsize : view.size = s.buffer.size := by rw [hspan]
    rw [readableBytes, hrun, ← hdata, ← hsize]
  · exact absurd rfl hne

/-- The client's region lies right behind the readable bytes and still holds
what the client wrote. -/
structure RegionHeld (s : State) (r : Region) : Prop where
  place : r.length ≠ 0 → r.start = s.buffer.block.data + s.buffer.writeOffset.toNat ∧
    s.buffer.writeOffset.toNat + r.length ≤ s.buffer.capacity.toNat
  written : ∀ a b, r.Contains a → r.written a = some b → s.memory a = b

structure Represents (s : State) (c : Client) : Prop where
  sound : Sound s
  contents : slice s.memory (s.buffer.block.data + s.buffer.readOffset.toNat)
    s.buffer.size.toNat = c.queue
  consumed_le : c.consumed ≤ c.committed.length
  region : RegionHeld s c.region

section Regions

variable {s : State} {r : Region}

theorem regionHeld_empty (s : State) : RegionHeld s {} := by
  refine ⟨fun h => absurd rfl h, ?_⟩
  intro a b _ hw
  cases hw

theorem regionHeld_fresh {view : MutableByteView}
    (hdata : view.data = s.buffer.block.data + s.buffer.writeOffset.toNat)
    (hf : s.buffer.writeOffset.toNat + view.size.toNat ≤ s.buffer.capacity.toNat) :
    RegionHeld s (.fresh view) := by
  refine ⟨fun _ => ⟨hdata, hf⟩, ?_⟩
  intro a b _ hw
  cases hw

/-- Bytes the client has written and not yet committed are in memory. -/
theorem RegionHeld.bytes_eq (h : RegionHeld s r) {n : ℕ} (hle : n ≤ r.length) {bytes : List Byte}
    (hb : r.bytes n = some bytes) : slice s.memory r.start n = bytes := by
  induction n generalizing bytes with
  | zero =>
    cases hb
    rfl
  | succ n ih =>
    simp only [Region.bytes, bind_eq_bind, bind_eq_some_iff, Option.pure_def,
      Option.some.injEq] at hb
    obtain ⟨front, hfront, last, hl, rfl⟩ := hb
    have hmem := h.written (r.start + n) last ⟨by omega, by omega⟩ hl
    rw [slice_append, ih (by omega) hfront]
    simp [slice, hmem]

theorem RegionHeld.advance (h : RegionHeld s r) {n : Size} (hle : n.toNat ≤ r.length)
    (hsum : (s.buffer.writeOffset + n).toNat = s.buffer.writeOffset.toNat + n.toNat) :
    RegionHeld { s with buffer := { s.buffer with writeOffset := s.buffer.writeOffset + n } }
      (r.advance n.toNat) := by
  constructor
  · intro hlen
    have hnonempty : r.length ≠ 0 := by
      intro h0
      apply hlen
      change r.length - n.toNat = 0
      omega
    obtain ⟨hstart, hf⟩ := h.place hnonempty
    change r.start + n.toNat = s.buffer.block.data + (s.buffer.writeOffset + n).toNat ∧
      (s.buffer.writeOffset + n).toNat + (r.length - n.toNat) ≤ s.buffer.capacity.toNat
    omega
  · intro a b hcont hw
    obtain ⟨hlow, hhigh⟩ := hcont
    change r.start + n.toNat ≤ a at hlow
    change a < r.start + n.toNat + (r.length - n.toNat) at hhigh
    exact h.written a b ⟨by omega, by omega⟩ hw

end Regions

namespace Represents

variable {s s' : State} {c : Client}

/-- Memory and buffer are all that matters. -/
theorem of_same (h : Represents s c) (hs : Sound s') (hbuf : s'.buffer = s.buffer)
    (hmemory : s'.memory = s.memory) : Represents s' c := by
  refine ⟨hs, ?_, h.consumed_le, ?_, ?_⟩
  · rw [hbuf, hmemory]
    exact h.contents
  · rw [hbuf]
    exact h.region.place
  · rw [hmemory]
    exact h.region.written

/-- A new or released buffer is an empty queue. -/
theorem of_new (hs : Sound s) {worker : WorkerId} {budget : ℕ} {source : BufferBlockSource}
    {initialCapacity maximumCapacity : Size}
    (hbuf : s.buffer = .construct worker budget source initialCapacity maximumCapacity) :
    Represents s {} := by
  have hsize : s.buffer.size = 0#64 := by
    rw [hbuf]
    exact BitVec.sub_self _
  refine ⟨hs, ?_, le_refl _, regionHeld_empty _⟩
  rw [hsize]
  rfl

variable (h : Represents s c)
include h

theorem with_region {r : Region} (hr : RegionHeld s r) : Represents s { c with region := r } :=
  ⟨h.sound, h.contents, h.consumed_le, hr⟩

theorem length_queue : c.committed.length - c.consumed = s.buffer.size.toNat := by
  have hlen := congrArg List.length h.contents
  rw [length_slice, Client.queue, length_drop] at hlen
  exact hlen.symm

/-- Relocation moves the queue without changing it, provided the copy does not
run into its own source. -/
theorem relocated (hm : Relocated s s')
    (hsafe : s'.buffer.block.data ≤ s.buffer.block.data + s.buffer.readOffset.toNat ∨
      s.buffer.block.data + s.buffer.readOffset.toNat + s.buffer.size.toNat ≤ s'.buffer.block.data)
    {r : Region} (hr : RegionHeld s' r) : Represents s' { c with region := r } := by
  refine ⟨hm.sound, ?_, h.consumed_le, hr⟩
  have hsize : s'.buffer.size = s.buffer.size := by
    rw [size, hm.readOffset_eq, hm.writeOffset_eq, BitVec.sub_zero]
  rw [hsize, hm.readOffset_eq]
  exact (hm.contents hsafe).trans h.contents

theorem commit {n : Size} (hle : n.toNat ≤ c.region.length)
    (hf : s.buffer.writeOffset.toNat + n.toNat ≤ s.buffer.capacity.toNat)
    (hsum : (s.buffer.writeOffset + n).toNat = s.buffer.writeOffset.toNat + n.toNat)
    {bytes : List Byte} (hb : c.region.bytes n.toNat = some bytes) :
    Represents { s with buffer := { s.buffer with writeOffset := s.buffer.writeOffset + n } }
      { c with region := c.region.advance n.toNat, committed := c.committed ++ bytes } := by
  have hs := h.sound.shape
  have hsize := hs.size_toNat
  have hread := hs.read_le
  have hnew := hs.committed (s.buffer.writeOffset + n) (by omega) (by omega)
  have hgrown := hnew.size_toNat
  have hw := h.region.bytes_eq hle hb
  refine ⟨h.sound.with_buffer hnew rfl rfl rfl rfl rfl, ?_, ?_, h.region.advance hle hsum⟩
  · have hend : s.buffer.block.data + s.buffer.readOffset.toNat + s.buffer.size.toNat =
        s.buffer.block.data + s.buffer.writeOffset.toNat := by omega
    have htotal : (size
        { s.buffer with writeOffset := s.buffer.writeOffset + n }).toNat =
        s.buffer.size.toNat + n.toNat := by
      rw [hgrown]
      change (s.buffer.writeOffset + n).toNat - s.buffer.readOffset.toNat = _
      omega
    have htail : slice s.memory (s.buffer.block.data + s.buffer.writeOffset.toNat) n.toNat =
        bytes := by
      by_cases h0 : n.toNat = 0
      · rw [h0] at hw ⊢
        exact hw
      · rw [← (h.region.place (by omega)).1]
        exact hw
    change slice s.memory (s.buffer.block.data + s.buffer.readOffset.toNat) (size
      { s.buffer with writeOffset := s.buffer.writeOffset + n }).toNat =
        (c.committed ++ bytes).drop c.consumed
    rw [htotal, slice_append, hend, htail, h.contents, drop_append_of_le_length h.consumed_le]
    rfl
  · have hcons := h.consumed_le
    change c.consumed ≤ (c.committed ++ bytes).length
    rw [length_append]
    omega

theorem consume {n : Size} (hle : n.toNat ≤ s.buffer.size.toNat)
    (hsum : (s.buffer.readOffset + n).toNat = s.buffer.readOffset.toNat + n.toNat) :
    Represents { s with buffer := advanced s.buffer n }
      { c with region := {}, consumed := c.consumed + n.toNat } := by
  have hs := h.sound.shape
  have hsize := hs.size_toNat
  have hread := hs.read_le
  have hlen := h.length_queue
  have hcons := h.consumed_le
  refine ⟨h.sound.advanced hsum hle, ?_, ?_, regionHeld_empty _⟩
  swap
  · change c.consumed + n.toNat ≤ c.committed.length
    omega
  have hqueue : c.committed.drop (c.consumed + n.toNat) =
      slice s.memory (s.buffer.block.data + s.buffer.readOffset.toNat + n.toNat)
        (s.buffer.size.toNat - n.toNat) := by
    rw [← slice_drop _ _ hle, h.contents, Client.queue, drop_drop]
  change _ = c.committed.drop (c.consumed + n.toNat)
  rw [hqueue]
  unfold advanced
  split
  · rename_i hdrained
    rw [hdrained] at hsum
    have hn : s.buffer.size.toNat - n.toNat = 0 := by omega
    rw [hn]
    simp [size]
  have hr : (size { s.buffer with readOffset := s.buffer.readOffset + n }).toNat =
      s.buffer.size.toNat - n.toNat := by
    have hsub : (s.buffer.writeOffset - (s.buffer.readOffset + n)).toNat =
        s.buffer.writeOffset.toNat - (s.buffer.readOffset + n).toNat :=
      BitVec.toNat_sub_of_le (by rw [BitVec.le_def]; omega)
    change (s.buffer.writeOffset - (s.buffer.readOffset + n)).toNat = _
    omega
  rw [hr, hsum, add_assoc]

/-- Writing into the region or outside the block does not touch the queue. -/
theorem poke {address : ℕ} (value : Byte)
    (hplace : c.region.Contains address ∨ ¬ InBlock s.buffer address) :
    Represents { s with memory := store s.memory address value }
      { c with region := c.region.record address value } := by
  have hshape := h.sound.shape
  have hsize := hshape.size_toNat
  have hread := hshape.read_le
  have hwrite := hshape.write_le
  have hblock := hshape.block_size
  have hs : Sound { s with memory := store s.memory address value } :=
    ⟨hshape, h.sound.ledger_eq, h.sound.accounted, h.sound.budget_live, h.sound.owner⟩
  have hfar : ∀ i, i < s.buffer.size.toNat →
      s.buffer.block.data + s.buffer.readOffset.toNat + i ≠ address := by
    intro i hi heq
    rcases hplace with ⟨hlow, hhigh⟩ | houtside
    · have := (h.region.place (by omega)).1
      omega
    · exact houtside ⟨by omega, by omega⟩
  refine ⟨hs, ?_, h.consumed_le, ?_, ?_⟩
  · refine Eq.trans (slice_congr ?_) h.contents
    intro i hi
    exact store_ne _ _ (hfar i hi)
  · intro hlen
    unfold Region.record at hlen ⊢
    split at hlen <;> rename_i hin
    · rw [if_pos hin]
      exact h.region.place hlen
    · rw [if_neg hin]
      exact h.region.place hlen
  intro a b hcont hw
  unfold Region.record at hcont hw
  by_cases hin : c.region.Contains address
  · rw [if_pos hin] at hcont hw
    by_cases ha : a = address
    · subst ha
      change store c.region.written a (some value) a = some b at hw
      rw [store_self] at hw
      cases hw
      exact store_self _ _ _
    · change store c.region.written address (some value) a = some b at hw
      rw [store_ne _ _ ha] at hw
      exact (store_ne _ _ ha).trans (h.region.written a b hcont hw)
  · rw [if_neg hin] at hcont hw
    have ha : a ≠ address := fun heq => hin (heq ▸ hcont)
    exact (store_ne _ _ ha).trans (h.region.written a b hcont hw)

theorem readableBytes_eq : readableBytes s = some c.queue := by
  rw [h.sound.readableBytes_eq, h.contents]

end Represents

namespace Session

variable {s : Session}

/-- The buffer and the client's record stay together when a call returns. -/
def Follows (s : Session) (c : Call) : Prop :=
  (∃ o t, s.state.step c = some (o, t) ∧ Represents t (s.client.observe c o)) ∨
    s.state.step c = none

section

variable (h : Represents s.state s.client)
include h

theorem reserve_follows {worker : WorkerId} {n : Size} {reply : Result MutableByteView}
    (hl : s.Legal (.reserve worker n reply)) : s.Follows (.reserve worker n reply) := by
  left
  rcases State.reserve_cases h.sound worker n reply with
    ⟨e, s', hrun, hsame⟩ | ⟨_, hrun⟩ | ⟨region, s', hrun, hreserved, hspan⟩
  · exact ⟨.view (.error e), s', by simp [State.step, hrun],
      h.of_same (hsame.sound h.sound) hsame.buffer_eq hsame.memory_eq⟩
  · exact ⟨.view (.ok .empty), s.state, by simp [State.step, hrun],
      h.with_region (regionHeld_empty _)⟩
  refine ⟨.view (.ok region), s', by simp [State.step, hrun], ?_⟩
  have hdata : region.data = s'.buffer.block.data + s'.buffer.writeOffset.toNat := by rw [hspan]
  have hsize : region.size = n := by rw [hspan]
  have hreg : RegionHeld s' (.fresh region) :=
    regionHeld_fresh hdata (by rw [hsize]; exact hreserved.fits)
  rcases hreserved.moved with rfl | hm
  · exact h.with_region hreg
  apply h.relocated hm ?_ hreg
  have hread := h.sound.shape.read_le
  have hwrite := h.sound.shape.write_le
  have hblock := h.sound.shape.block_size
  have hlen := h.sound.shape.size_toNat
  rcases hreserved.source with hk | hreply
  · rw [hk]
    exact .inl (Nat.le_add_right _ _)
  rcases hl _ hreply with hbelow | habove
  · exact .inl (by omega)
  · exact .inr (by omega)

theorem writable_follows (worker : WorkerId) : s.Follows (.writable worker) := by
  left
  rcases h.sound.shape.writable_cases worker with ⟨_, region, hrun, hspan⟩ | ⟨_, e, hrun⟩
  · refine ⟨.view (.ok region), s.state, by simp [State.step, hrun],
      h.with_region (regionHeld_fresh (by rw [hspan]) ?_)⟩
    have hr := h.sound.shape.room_toNat
    have hwrite := h.sound.shape.write_le
    have hsize : region.size = s.state.buffer.capacity - s.state.buffer.writeOffset := by rw [hspan]
    rw [hsize]
    omega
  · exact ⟨.view (.error e), s.state, by simp [State.step, hrun], h⟩

theorem commit_follows {worker : WorkerId} {n : Size} (hl : s.Legal (.commit worker n)) :
    s.Follows (.commit worker n) := by
  left
  rcases h.sound.shape.commit_cases worker n with ⟨_, hf, hsum, hrun⟩ | ⟨e, hrun⟩
  · obtain ⟨hle, bytes, hb⟩ := hl (by rw [hrun])
    refine ⟨.done (.ok ()), { s.state with buffer := { s.state.buffer with
      writeOffset := s.state.buffer.writeOffset + n } }, by simp only [State.step, hrun], ?_⟩
    simp only [Client.observe, hb, getD_some]
    exact h.commit hle hf hsum hb
  · exact ⟨.done (.error e), s.state, by simp [State.step, hrun], h⟩

theorem call_follows {c : Call} (hl : s.Legal c) : s.Follows c := by
  cases c with
  | readable worker =>
    rcases h.sound.shape.readable_cases worker with ⟨_, view, hrun, _⟩ | ⟨_, e, hrun⟩
    · exact .inl ⟨.view (.ok view), s.state, by simp [State.step, hrun], h⟩
    · exact .inl ⟨.view (.error e), s.state, by simp [State.step, hrun], h⟩
  | writable worker => exact writable_follows h worker
  | reserve worker n reply => exact reserve_follows h hl
  | commit worker n => exact commit_follows h hl
  | consume worker n =>
    rcases h.sound.shape.consume_cases worker n with ⟨_, hle, hsum, hrun⟩ | ⟨e, hrun⟩
    · exact .inl ⟨.done (.ok ()), { s.state with buffer := advanced s.state.buffer n },
        by simp only [State.step, hrun], h.consume hle hsum⟩
    · exact .inl ⟨.done (.error e), s.state, by simp [State.step, hrun], h⟩
  | compact worker =>
    rcases compact_cases h.sound worker with ⟨s', hrun, hm, hblock⟩ | ⟨e, hrun⟩
    · refine .inl ⟨.done (.ok ()), s', by simp [State.step, hrun], ?_⟩
      apply h.relocated hm ?_ (regionHeld_empty _)
      rw [hblock]
      exact .inl (Nat.le_add_right _ _)
    · exact .inl ⟨.done (.error e), s.state, by simp [State.step, hrun], h⟩
  | release worker =>
    rcases release_buffer_cases h.sound worker with ⟨s', hrun, hs, hbuf⟩ | ⟨e, hrun⟩
    · exact .inl ⟨.done (.ok ()), s', by simp [State.step, hrun], .of_new hs hbuf⟩
    · exact .inl ⟨.done (.error e), s.state, by simp [State.step, hrun], h⟩
  | budgets call =>
    rcases budgets_step h.sound call hl with ⟨o, s', hrun, hs⟩ | ⟨_, hn⟩
    · have hsame := hrun
      simp only [State.step, bind_eq_bind, bind_eq_some_iff, Option.pure_def,
        Option.some.injEq, Prod.mk.injEq] at hsame
      obtain ⟨_, _, rfl, rfl⟩ := hsame
      exact .inl ⟨_, _, hrun, h.of_same hs rfl rfl⟩
    · exact .inr hn
  | poke address value => exact .inl ⟨.done (.ok ()), _, rfl, h.poke value hl⟩

theorem represents_step {c : Call} (hl : s.Legal c) {o : Output} {t : State}
    (hstep : s.state.step c = some (o, t)) : Represents t (s.client.observe c o) := by
  rcases call_follows h hl with ⟨o', t', hrun, hnext⟩ | hn
  · rw [hrun] at hstep
    cases hstep
    exact hnext
  · rw [hn] at hstep
    cases hstep

end

theorem step_state {c : Call} {o : Output} {t : Session} (hstep : s.step c = some (o, t)) :
    s.state.step c = some (o, t.state) ∧ t.client = s.client.observe c o := by
  simp only [step, bind_eq_bind, bind_eq_some_iff, Option.pure_def,
    Option.some.injEq, Prod.mk.injEq] at hstep
  obtain ⟨⟨o', s'⟩, hrun, rfl, rfl⟩ := hstep
  exact ⟨hrun, rfl⟩

theorem reachable_represents (h : s.Reachable) : Represents s.state s.client := by
  apply Runs.Reachable.invariant (P := fun s : Session => Represents s.state s.client) h
  · intro s₀ hinit
    obtain ⟨hst, hclient⟩ := hinit
    have hsound := initial_sound hst
    obtain ⟨_, _, _, _, _, _, _, _, hbuf⟩ := hst
    rw [hclient]
    exact .of_new hsound hbuf
  · intro s₀ c o t hs hl hstep
    obtain ⟨hrun, hclient⟩ := step_state hstep
    rw [hclient]
    exact represents_step hs hl hrun

/-- The calls that change a queue when they succeed. -/
def ChangesQueue : Call → Output → Prop
  | .commit _ _, .done (.ok ()) => True
  | .consume _ _, .done (.ok ()) => True
  | .release _, .done (.ok ()) => True
  | _, _ => False

theorem observe_queue (c : Client) {call : Call} {o : Output} (h : ¬ ChangesQueue call o) :
    (c.observe call o).queue = c.queue := by
  unfold Client.observe
  split <;> first | rfl | exact absurd trivial h

/-- The buffer is a first-in first-out queue of bytes: what is readable is
everything committed since the last release without the prefix consumed, and
nothing but a successful commit, consume or release changes it. -/
theorem buffer_refines_queue (h : s.Reachable) :
    readableBytes s.state = some (s.client.committed.drop s.client.consumed) ∧
    ∀ c o t, s.Legal c → s.step c = some (o, t) → ¬ ChangesQueue c o →
      readableBytes t.state = readableBytes s.state := by
  have hs := reachable_represents h
  refine ⟨hs.readableBytes_eq, ?_⟩
  intro c o t hlegal hstep hquiet
  obtain ⟨hrun, _⟩ := step_state hstep
  have ht := represents_step hs hlegal hrun
  rw [ht.readableBytes_eq, hs.readableBytes_eq, observe_queue _ hquiet]

theorem buffer_refines_queue_two_bytes :
    ∃ s : Session, s.Reachable ∧ readableBytes s.state = some [0xBB#8] := by
  have hnew : Session.Reachable ⟨freshState, {}⟩ := .of_init ⟨freshState_initial, rfl⟩
  have hreserved := hnew.step (i := Call.reserve Heap.soleWorker 2#64 (.ok largeBlock))
    (by intro block hblock; cases hblock; exact .inr (by decide)) rfl
  have hfirst := hreserved.step (i := Call.poke 4096 0xAA#8) (.inl (by decide)) rfl
  have hsecond := hfirst.step (i := Call.poke 4097 0xBB#8) (.inl (by decide)) rfl
  have hcommitted := hsecond.step (i := Call.commit Heap.soleWorker 2#64)
    (by intro _; exact ⟨by decide, _, rfl⟩) rfl
  have hconsumed := hcommitted.step (i := Call.consume Heap.soleWorker 1#64) trivial rfl
  exact ⟨_, hconsumed, (buffer_refines_queue hconsumed).1⟩

end Session

end Laghu.BoundedBuffers
