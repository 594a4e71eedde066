import Laghu.ArenaAlignment

/-!
The allocator an HTTP/2 session hands to its native library. It is a second copy of the
allocator of the native memory pool, without the pool's look at the arena's generation.
Within one generation the two go in lockstep.
-/

namespace Laghu.Http2Memory

open Contract FlatMemory MemoryWords NativeMemory Views Option Machine
open BoundedArenas (BoundedArena)

/-- What the allocator uses of the session's state. -/
structure NativeState where
  arena : ℕ
  worker : WorkerId
  freeAllocations : ℕ := 0

/-- The arenas, the memory behind them, and one session. Headers are laid out as those
of the pool. -/
structure Session where
  arenas : BoundedArenas.World
  memory : Memory Cell
  state : NativeState

/-- The loop of `arena_allocate`. -/
def findReusable (m : Memory Cell) (payloadSize : ℕ) : ℕ → ℕ → ℕ → Option (ℕ × ℕ)
  | 0, _, _ => none
  | fuel + 1, previous, reusable =>
    if reusable = 0 then some (previous, 0)
    else do
      if (← loadWord m (capacityAt reusable)) < payloadSize then
        findReusable m payloadSize fuel reusable (← loadWord m (nextAt reusable))
      else return (previous, reusable)

namespace Session

def arenaAllocate (S : Session) (size : Size) (reply : Result MutableByteView) :
    Option (ℕ × Session) := do
  let payloadSize := if size = 0#64 then 1#64 else size
  let (previous, reusable) ←
    findReusable S.memory payloadSize.toNat listBound 0 S.state.freeAllocations
  if reusable ≠ 0 then
    let next ← loadWord S.memory (nextAt reusable)
    let unlinked : Session :=
      if previous = 0 then { S with state := { S.state with freeAllocations := next } }
      else { S with memory := storeWord S.memory (nextAt previous) next }
    let used := storeWord unlinked.memory (usedAt reusable) payloadSize.toNat
    return (reusable + headerSize,
      { unlinked with memory := storeWord used (nextAt reusable) 0 })
  else if payloadSize > sizeMax - BitVec.ofNat 64 headerSize then return (0, S)
  else
    match ← S.arenas.step (.tryAllocate S.state.arena S.state.worker
        (BitVec.ofNat 64 headerSize + payloadSize) 16#64 reply) with
    | (.view (.ok allocation), arenas) =>
      match ← arenas.viewBytes allocation with
      | .error _ => return (0, { S with arenas := arenas })
      | .ok bytes =>
        let capacity := storeWord S.memory (capacityAt bytes.data) payloadSize.toNat
        let used := storeWord capacity (usedAt bytes.data) payloadSize.toNat
        return (bytes.data + headerSize,
          { S with arenas := arenas, memory := storeWord used (nextAt bytes.data) 0 })
    | (_, arenas) => return (0, { S with arenas := arenas })

def memoryMalloc (S : Session) (size : Size) (reply : Result MutableByteView) :
    Option (ℕ × Session) :=
  S.arenaAllocate size reply

def memoryFree (S : Session) (pointer : ℕ) : Session :=
  if pointer = 0 then S
  else
    let header := pointer - headerSize
    { S with
      memory := storeWord S.memory (nextAt header) S.state.freeAllocations
      state := { S.state with freeAllocations := header } }

def memoryCalloc (S : Session) (count size : Size) (reply : Result MutableByteView) :
    Option (ℕ × Session) :=
  if count ≠ 0#64 ∧ size > sizeMax / count then some (0, S)
  else do
    let total := count * size
    let (output, S) ← S.arenaAllocate total reply
    if output ≠ 0 then
      return (output, { S with
        memory := storeCells S.memory output (List.replicate total.toNat (.byte 0#8)) })
    else return (output, S)

def memoryRealloc (S : Session) (pointer : ℕ) (size : Size) (reply : Result MutableByteView) :
    Option (ℕ × Session) :=
  if pointer = 0 then S.arenaAllocate size reply
  else if size = 0#64 then some (0, S.memoryFree pointer)
  else do
    let oldHeader := pointer - headerSize
    if size.toNat ≤ (← loadWord S.memory (capacityAt oldHeader)) then
      return (pointer, { S with memory := storeWord S.memory (usedAt oldHeader) size.toNat })
    else
      let (output, S) ← S.arenaAllocate size reply
      if output = 0 then return (0, S)
      else
        let used ← loadWord S.memory (usedAt oldHeader)
        let copied := if used < size.toNat then used else size.toNat
        let S := { S with memory := copyForward S.memory output pointer copied }
        return (output, S.memoryFree pointer)

/-- The requests of the native library and the writes of its program, as for the pool. -/
def step (S : Session) : Call → Option (Output × Session)
  | .malloc size reply => (S.memoryMalloc size reply).map (Prod.map .pointer id)
  | .calloc count size reply => (S.memoryCalloc count size reply).map (Prod.map .pointer id)
  | .realloc pointer size reply =>
    (S.memoryRealloc pointer size reply).map (Prod.map .pointer id)
  | .free pointer => some (.done, S.memoryFree pointer)
  | .write address cells =>
    some (.done, { S with memory := storeCells S.memory address cells })
  | .arena call => do
    let (output, arenas) ← S.arenas.step call
    return (.arena output, { S with arenas := arenas })

/-- Which calls are legal is said for the pool. -/
def system : Runs.System Session Call Output where
  legal _ _ := True
  step := step

/-- A session in the place of the pool. -/
def ofMachine (M : Machine) : Session where
  arenas := M.arenas
  memory := M.memory
  state := { arena := M.pool.arena, worker := M.pool.worker, freeAllocations := M.pool.freeList }

end Session

open Session

variable {M M' : Machine} {w w' w₀ : World} {x : BoundedArena} {c : Call} {o : Output} {pointer : ℕ}
  {size : Size} {reply : Result MutableByteView}

theorem findReusable_eq (m : Memory Cell) (size fuel previous reusable : ℕ) :
    findReusable m size fuel previous reusable = findFit m size fuel previous reusable := by
  induction fuel generalizing previous reusable with
  | zero => rfl
  | succ fuel ih => simp only [findReusable, findFit, ih]

/-- The pool has seen the arena's generation. -/
def Current (M : Machine) : Prop :=
  ∃ x, M.arenas.arenas.get? M.pool.arena = some x ∧ M.pool.generation = x.generation

section

variable (h : Current M)
include h

theorem Current.synchronize : M.synchronize = some M := by
  obtain ⟨x, hget, hcur⟩ := h
  rw [Machine.synchronize, hget, bind_eq_bind, bind_some, if_neg (not_not.mpr hcur)]
  rfl

theorem arenaAllocate_eq : (ofMachine M).arenaAllocate size reply =
      (M.arenaMalloc size reply).map (Prod.map id ofMachine) := by
  unfold arenaAllocate arenaMalloc
  rw [h.synchronize]
  generalize (if size = 0#64 then 1#64 else size) = payloadSize
  simp only [bind_eq_bind, bind_some, findReusable_eq, ofMachine]
  rcases findFit M.memory payloadSize.toNat listBound 0 M.pool.freeList with _ | ⟨previous, p⟩
  · rfl
  simp only [bind_some]
  by_cases hnull : p = 0
  · rw [if_neg (not_not.mpr hnull), if_neg (not_not.mpr hnull), carve]
    split
    · rfl
    rcases M.arenas.step _ with _ | ⟨_ | (_ | view) | _, arenas⟩ <;> try rfl
    simp only [bind_eq_bind, bind_some]
    rcases arenas.viewBytes view with _ | _ | bytes <;> rfl
  · rw [if_pos hnull, if_pos hnull, reuse]
    rcases loadWord M.memory (nextAt p) with _ | next
    · rfl
    by_cases hp : previous = 0 <;> simp [hp, ofMachine]

theorem memoryFree_eq (pointer : ℕ) : ∃ M', M.arenaFree pointer = some M' ∧
      (ofMachine M).memoryFree pointer = ofMachine M' := by
  unfold arenaFree memoryFree
  split
  · exact ⟨M, rfl, rfl⟩
  · rw [h.synchronize]
    exact ⟨_, rfl, rfl⟩

theorem memoryCalloc_eq {count : Size} :
    (ofMachine M).memoryCalloc count size reply =
      (M.arenaCalloc count size reply).map (Prod.map id ofMachine) := by
  unfold memoryCalloc arenaCalloc
  split
  · rfl
  dsimp only
  rw [arenaAllocate_eq h]
  rcases M.arenaMalloc (count * size) reply with _ | ⟨result, M'⟩
  · rfl
  by_cases hnull : result = 0 <;> simp [hnull, ofMachine]

/-- A block that moves is freed in the machine the allocation has left. -/
theorem memoryRealloc_eq
    (hafter : ∀ result M', M.arenaMalloc size reply = some (result, M') → Current M') :
    (ofMachine M).memoryRealloc pointer size reply =
      (M.arenaRealloc pointer size reply).map (Prod.map id ofMachine) := by
  unfold memoryRealloc arenaRealloc
  split
  · rw [arenaAllocate_eq h]
  split
  · obtain ⟨M', hfree, heq⟩ := memoryFree_eq h pointer
    rw [hfree, heq]
    rfl
  dsimp only
  rw [arenaAllocate_eq h, show (ofMachine M).memory = M.memory from rfl]
  rcases loadWord M.memory (capacityAt (pointer - headerSize)) with _ | capacity
  · rfl
  simp only [bind_eq_bind, bind_some]
  split
  · rfl
  cases hmalloc : M.arenaMalloc size reply with
  | none => rfl
  | some after =>
    obtain ⟨result, M₁⟩ := after
    simp only [Option.map_some, bind_some, Prod.map, id]
    split
    · rfl
    rw [show (ofMachine M₁).memory = M₁.memory from rfl]
    rcases loadWord M₁.memory (usedAt (pointer - headerSize)) with _ | used
    · rfl
    -- The copy changes neither the arenas nor the pool.
    have hcopied : ∀ m, Current { M₁ with memory := m } := fun _ => hafter result M₁ hmalloc
    obtain ⟨M', hfree, heq⟩ := memoryFree_eq (hcopied _) pointer
    simp only [bind_some]
    rw [hfree]
    exact congrArg (fun S => some (result, S)) heq

end

theorem current_after_malloc {live : List LiveBlock} {freed : List ℕ} (h : Owned M x live freed)
    {result : ℕ} (hrun : M.arenaMalloc size reply = some (result, M')) : Current M' := by
  obtain ⟨_, _, x', hspec, halloc⟩ := arenaMalloc_spec h size reply
  cases hspec.symm.trans hrun
  rcases halloc.outcome with ⟨_, _, ho⟩ | ⟨_, ho, _⟩
  · exact ⟨x', ho.get, halloc.current⟩
  · exact ⟨x', ho.get, halloc.current⟩

/-- One call of the pool is the same call of the session. -/
theorem step_eq (h : Balanced w x) (hcur : Current w.machine) (hpool : ∀ call, c ≠ .arena call)
    (hstep : w.step c = some (o, w')) :
    (ofMachine w.machine).step c = some (o, ofMachine w'.machine) := by
  cases c with
  | malloc requested reply =>
    obtain ⟨⟨result, M⟩, hrun, hstep⟩ := bind_eq_some_iff.mp hstep
    cases hstep
    rw [step, memoryMalloc, arenaAllocate_eq hcur, hrun, received_machine]
    rfl
  | calloc count size reply =>
    obtain ⟨⟨result, M⟩, hrun, hstep⟩ := bind_eq_some_iff.mp hstep
    cases hstep
    rw [step, memoryCalloc_eq hcur, hrun, received_machine]
    rfl
  | realloc pointer size reply =>
    obtain ⟨⟨result, M⟩, hrun, hstep⟩ := bind_eq_some_iff.mp hstep
    rw [step, memoryRealloc_eq hcur fun _ _ => current_after_malloc h.owned, hrun]
    dsimp only at hstep
    split_ifs at hstep <;> cases hstep <;>
      simp only [received_machine, returned_machine, World.resized] <;> rfl
  | free pointer =>
    obtain ⟨M, hrun, hstep⟩ := bind_eq_some_iff.mp hstep
    obtain ⟨_, hfree, heq⟩ := memoryFree_eq hcur pointer
    cases hfree.symm.trans hrun
    cases hstep
    rw [step, heq, returned_machine]
  | write address cells =>
    cases hstep
    rfl
  | arena call => exact absurd rfl (hpool call)

theorem current_step (h : Balanced w x) (hcur : Current w.machine)
    (hpool : ∀ call, c ≠ .arena call) (hl : w.Legal c) (hstep : w.step c = some (o, w')) :
    Current w'.machine := by
  obtain ⟨x', hstepped⟩ := stepped_of_step h hl hstep
  by_cases hc : c.Consults
  · exact ⟨x', hstepped.balanced.owned.get, hstepped.current hc⟩
  cases c with
  | malloc requested reply | realloc pointer size reply => exact absurd trivial hc
  | calloc count size reply =>
    rw [World.step, arenaCalloc_overflow (Nat.not_lt.mp hc)] at hstep
    cases hstep
    exact hcur
  | free pointer =>
    cases not_not.mp hc
    cases hstep
    exact hcur
  | write address cells =>
    cases hstep
    exact hcur
  | arena call => exact absurd rfl (hpool call)

/-- For every sequence of legal requests and writes without a call on the arena between
them, the session returns what the pool returns and leaves the same memory, the same
arenas and the same free list. The next legal request returns in both. -/
theorem http2_memory_in_lockstep {trace : List (Call × Output)} (hopened : w₀.Opened)
    (hrun : Runs.Run World.system w₀ trace w)
    (hrequests : ∀ e ∈ trace, ∀ call, e.1 ≠ .arena call) :
    (ofMachine w₀.machine).state.freeAllocations = 0 ∧
    Runs.Run Session.system (ofMachine w₀.machine) trace (ofMachine w.machine) ∧
    ∀ c, w.Legal c → (∀ call, c ≠ .arena call) → ∃ o w', w.step c = some (o, w') ∧
      (ofMachine w.machine).step c = some (o, ofMachine w'.machine) := by
  have hlock : Current w.machine ∧
      Runs.Run Session.system (ofMachine w₀.machine) trace (ofMachine w.machine) := by
    induction hrun with
    | refl => exact ⟨hopened.2.1, .refl _⟩
    | tail run hl hstep ih =>
      obtain ⟨hcur, hsession⟩ := ih fun e he => hrequests e (List.mem_append_left _ he)
      obtain ⟨x, hbalanced⟩ := run_balanced hopened run
      have hpool := hrequests _ (List.mem_append_right _ (List.mem_singleton_self _))
      exact ⟨current_step hbalanced hcur hpool hl hstep,
        .tail hsession trivial (step_eq hbalanced hcur hpool hstep)⟩
  obtain ⟨x, hbalanced⟩ := run_balanced hopened hrun
  refine ⟨hopened.2.2.1, hlock.2, ?_⟩
  intro c hl hpool
  obtain ⟨o, w', _, hstep, _⟩ := legal_step hbalanced hl hpool
  exact ⟨o, w', hstep, step_eq hbalanced hlock.1 hpool hstep⟩

theorem http2_memory_in_lockstep_sample : ∃ w, Runs.Run World.system sampleWorld sampleTrace w ∧
    Runs.Run Session.system (ofMachine sampleWorld.machine) sampleTrace (ofMachine w.machine) := by
  obtain ⟨w, _, hrun, _⟩ := sampleTrace_run
  exact ⟨w, hrun, (http2_memory_in_lockstep sampleWorld_opened hrun (by simp [sampleTrace])).2.1⟩

end Laghu.Http2Memory
