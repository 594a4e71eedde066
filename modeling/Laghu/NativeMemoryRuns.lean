import Laghu.NativeMemoryEffects

/-!
Whole programs over one pool. The book of a program always agrees with the machine, so
every call on a pointer that is held has a result, blocks never overlap, and the free
list is the list of freed blocks whenever the pool has seen the arena's generation.
-/

namespace Laghu.NativeMemory

open Contract BoundedArenas FlatMemory MemoryWords FreeLists Views List Option

/-- The call looks at the pool's generation, or at a block that is held. -/
def Call.Consults : Call → Prop
  | .malloc _ _ => True
  | .calloc count size _ => count.toNat * size.toNat < 2 ^ 64
  | .realloc _ _ _ => True
  | .free pointer => pointer ≠ 0
  | .write _ _ => False
  | .arena _ => False

/-- What a call promises about the contents of the memory it returns. -/
def Call.Delivers (w : World) : Call → Output → World → Prop
  | .calloc count size _, .pointer result, w' =>
    (2 ^ 64 ≤ count.toNat * size.toNat → result = 0) ∧
    (result ≠ 0 → slice w'.machine.memory result (count * size).toNat =
      List.replicate (count * size).toNat (.byte 0#8))
  | .realloc pointer size _, .pointer result, w' =>
    pointer ≠ 0 → size ≠ 0#64 → ∀ b ∈ w.live, b.pointer = pointer →
      (result ≠ 0 → slice w'.machine.memory result (min b.requested.toNat size.toNat) =
        slice w.machine.memory pointer (min b.requested.toNat size.toNat)) ∧
      (result = 0 → w'.live = w.live ∧ w'.machine.memory = w.machine.memory)
  | _, _, _ => True

/-- The book of `w` agrees with its machine, and the pool is not ahead of its arena. -/
structure Balanced (w : World) (x : BoundedArena) : Prop where
  owned : Owned w.machine x w.live w.freed
  behind : w.machine.pool.generation.toNat ≤ x.generation.toNat

/-- What is known after one call. -/
structure Stepped (w : World) (c : Call) (o : Output) (w' : World) (x' : BoundedArena) : Prop where
  balanced : Balanced w' x'
  current : c.Consults → w'.machine.pool.generation = x'.generation
  delivers : c.Delivers w o w'

section

variable {w w' : World} {x : BoundedArena} {c : Call} {o : Output} {x' : BoundedArena}

theorem Stepped.of_current (ho : Owned w'.machine x' w'.live w'.freed)
    (hcur : w'.machine.pool.generation = x'.generation) (hdelivers : c.Delivers w o w') :
    Stepped w c o w' x' :=
  ⟨⟨ho, by rw [hcur]⟩, fun _ => hcur, hdelivers⟩

theorem Allocates.received {requested : Size} {result : ℕ} {M' : Machine}
    (h : Allocates w.machine x w.live w.freed requested result M' x') :
    Owned (w.received result requested M').machine x' (w.received result requested M').live
        (w.received result requested M').freed ∧
      (w.received result requested M').machine = M' := by
  unfold World.received
  rcases h.outcome with ⟨hnull, _, ho⟩ | ⟨hres, ho, _⟩
  · rw [if_pos hnull]
    exact ⟨ho, rfl⟩
  · rw [if_neg hres]
    exact ⟨ho, rfl⟩

theorem malloc_step (h : Balanced w x) (requested : Size) (reply : Result MutableByteView) :
    ∃ o w' x', w.step (.malloc requested reply) = some (o, w') ∧
      Stepped w (.malloc requested reply) o w' x' := by
  obtain ⟨result, M', x', hrun, halloc⟩ := arenaMalloc_spec h.owned requested reply
  obtain ⟨ho, hmachine⟩ := halloc.received
  refine ⟨.pointer result, w.received result requested M', x', ?_,
    .of_current ho (by rw [hmachine]; exact halloc.current) trivial⟩
  rw [World.step, hrun]
  rfl

theorem calloc_step (h : Balanced w x) (count size : Size) (reply : Result MutableByteView) :
    ∃ o w' x', w.step (.calloc count size reply) = some (o, w') ∧
      Stepped w (.calloc count size reply) o w' x' := by
  by_cases hover : 2 ^ 64 ≤ count.toNat * size.toNat
  · refine ⟨.pointer 0, w, x, ?_, h, ?_, fun _ => rfl, fun hne => absurd rfl hne⟩
    · rw [World.step, arenaCalloc_overflow hover]
      rfl
    · intro hf
      exact absurd hf (not_lt.mpr hover)
  obtain ⟨result, M', x', hrun, halloc, hzeroed⟩ := arenaCalloc_spec h.owned hover reply
  obtain ⟨ho, hmachine⟩ := halloc.received
  refine ⟨.pointer result, w.received result (count * size) M', x', ?_,
    .of_current ho (by rw [hmachine]; exact halloc.current) ⟨fun hge => absurd hge hover, ?_⟩⟩
  · rw [World.step, hrun]
    rfl
  · rw [hmachine]
    exact hzeroed

theorem free_step (h : Balanced w x) {pointer : ℕ} (hl : w.Legal (.free pointer)) :
    ∃ o w' x', w.step (.free pointer) = some (o, w') ∧ Stepped w (.free pointer) o w' x' := by
  by_cases hnull : pointer = 0
  · subst hnull
    exact ⟨.done, w, x, rfl, h, fun hne => absurd rfl hne, trivial⟩
  obtain ⟨M', hrun, _, _, hcur, ho, _⟩ :=
    arenaFree_spec h.owned (hl.resolve_left hnull)
  have hret : w.returned pointer M' = { w with
      machine := M'
      live := w.live.filter (·.pointer ≠ pointer)
      freed := pointer :: w.freed } := if_neg hnull
  refine ⟨.done, w.returned pointer M', x, ?_, ?_⟩
  · rw [World.step, hrun]
    rfl
  · rw [hret]
    exact .of_current ho hcur trivial

theorem Owned.live_unique {M : Machine} {live : List LiveBlock} {freed : List ℕ}
    (h : Owned M x live freed) {b b' : LiveBlock} (hb : b ∈ live) (hb' : b' ∈ live)
    (hptr : b'.pointer = b.pointer) : b' = b :=
  inj_on_of_nodup_map (nodup_append.mp h.nodup).1 hb' hb hptr

section

variable (h : Balanced w x)
include h

theorem resize_step {b : LiveBlock} (hb : b ∈ w.live) {size : Size} (hsize : size ≠ 0#64)
    (reply : Result MutableByteView) :
    ∃ o w' x', w.step (.realloc b.pointer size reply) = some (o, w') ∧
      Stepped w (.realloc b.pointer size reply) o w' x' := by
  have hptr : b.pointer ≠ 0 := by
    have := h.owned.header_le (mem_of_live hb)
    omega
  obtain ⟨result, M', x', hrun, _, hcur, hout, hslice⟩ :=
    arenaRealloc_spec h.owned hb hsize reply
  have hunique : ∀ b' ∈ w.live, b'.pointer = b.pointer → b' = b :=
    fun b' hb' heq => h.owned.live_unique hb hb' heq
  rw [World.step, hrun, bind_eq_bind, bind_some]
  dsimp only
  rw [if_neg hptr, if_neg hsize]
  cases hout with
  | resized hres howned =>
    rw [if_pos hres]
    refine ⟨_, _, x', rfl, .of_current howned hcur ?_⟩
    intro _ _ b' hb' heq
    rw [hunique b' hb' heq]
    exact ⟨hslice, fun hnull => absurd (hres.symm.trans hnull) hptr⟩
  | failed hres hmemory howned =>
    rw [if_neg fun heq => hptr (heq.symm.trans hres), if_pos hres]
    refine ⟨_, _, x', rfl, .of_current howned hcur ?_⟩
    intro _ _ _ _ _
    exact ⟨fun hne => absurd hres hne, fun _ => ⟨rfl, hmemory⟩⟩
  | moved hres ho howned =>
    have hbook : (w.received result size M').returned b.pointer M' = { w with
        machine := M'
        live := (⟨result, size⟩ :: w.live).filter (·.pointer ≠ b.pointer)
        freed := b.pointer :: w.freed.erase result } := by
      rw [World.returned, World.received, if_neg hres, if_neg hptr]
    rw [if_neg ho, if_neg hres, hbook]
    refine ⟨_, _, x', rfl, .of_current howned hcur ?_⟩
    intro _ _ b' hb' heq
    rw [hunique b' hb' heq]
    exact ⟨hslice, fun hnull => absurd hnull hres⟩

theorem realloc_step {pointer : ℕ} {size : Size} {reply : Result MutableByteView}
    (hl : w.Legal (.realloc pointer size reply)) :
    ∃ o w' x', w.step (.realloc pointer size reply) = some (o, w') ∧
      Stepped w (.realloc pointer size reply) o w' x' := by
  by_cases hnull : pointer = 0
  · subst hnull
    obtain ⟨result, M', x', hrun, halloc⟩ := arenaMalloc_spec h.owned size reply
    obtain ⟨ho, hmachine⟩ := halloc.received
    refine ⟨.pointer result, w.received result size M', x', ?_,
      .of_current ho (by rw [hmachine]; exact halloc.current) fun hne => absurd rfl hne⟩
    rw [World.step, Machine.arenaRealloc, if_pos rfl, hrun]
    rfl
  obtain ⟨b, hb, rfl⟩ := hl.resolve_left hnull
  by_cases hsize : size = 0#64
  · subst hsize
    obtain ⟨M', hrun, _, _, hcur, ho, _⟩ := arenaFree_spec h.owned ⟨b, hb, rfl⟩
    have hbook : w.returned b.pointer M' = { w with
        machine := M'
        live := w.live.filter (·.pointer ≠ b.pointer)
        freed := b.pointer :: w.freed } := if_neg hnull
    refine ⟨.pointer 0, w.returned b.pointer M', x, ?_, ?_⟩
    · rw [World.step, Machine.arenaRealloc, if_neg hnull, if_pos rfl, hrun]
      dsimp only [bind_eq_bind, bind_some, Option.pure_def]
      rw [if_neg hnull, if_pos rfl]
    · rw [hbook]
      exact .of_current ho hcur fun _ hne => absurd rfl hne
  · exact resize_step h hb hsize reply

/-- A legal write touches no header. -/
theorem write_step {address : ℕ} {cells : List Cell} (hl : w.Legal (.write address cells)) :
    ∃ o w' x', w.step (.write address cells) = some (o, w') ∧
      Stepped w (.write address cells) o w' x' := by
  refine ⟨_, _, x, rfl, ⟨?_, h.behind⟩, False.elim, trivial⟩
  rcases hl with ⟨b, hb, hstart, hend⟩ | houtside
  · apply h.owned.fill hb
    intro a ha
    exact storeCells_outside (by omega)
  apply h.owned.write
  intro p hp a hle hlt
  apply storeCells_outside
  rcases houtside p hp with hpre | hafter <;> omega

theorem arena_step {call : BoundedArenas.Call} (hl : w.Legal (.arena call))
    (hstep : w.step (.arena call) = some (o, w')) : ∃ x', Stepped w (.arena call) o w' x' := by
  obtain ⟨hc, hreset⟩ := hl
  rw [World.step] at hstep
  cases hrun : w.machine.arenas.step call with
  | none =>
    rw [hrun] at hstep
    cases hstep
  | some result =>
    obtain ⟨output, arenas⟩ := result
    rw [hrun] at hstep
    cases hstep
    have heff := effect_of_step h.owned.sound hc hrun
    obtain ⟨x', hget, hk⟩ := heff.arena_step h.owned.get
    have hbehind := h.behind
    refine ⟨x', ?_, False.elim, trivial⟩
    cases hk with
    | idle hidle _ hsame =>
      obtain ⟨hst, _, hoff, hgen⟩ := unpinned_eq hsame
      rw [hidle]
      refine ⟨h.owned.with_arena heff.sound hget hgen (fun _ => hst) (by rw [hoff]), ?_⟩
      rw [hgen]
      exact hbehind
    | allocated hallocate hout _ halloc =>
      obtain ⟨start, _, _, hstart, hend⟩ := halloc.place
      subst hallocate hout
      refine ⟨h.owned.with_arena heff.sound hget halloc.generation_eq
        (h.owned.storage_of_block halloc) (by omega), ?_⟩
      rw [halloc.generation_eq]
      exact hbehind
    | reset hcalled hout _ _ _ _ hlast hn =>
      subst hcalled hout
      have hgrown : x'.generation.toNat = x.generation.toNat + 1 := by
        rw [hn]
        unfold sizeMax at hlast
        bv_omega
      have he := hreset _ _ _ rfl
      rw [isReset_self, if_pos rfl, he]
      refine ⟨⟨heff.sound, hget, ?_, .nil, ?_, fun _ => ⟨rfl, rfl⟩, ?_⟩, ?_⟩
      · exact fun p hp => absurd hp not_mem_nil
      · exact fun b hb => absurd hb not_mem_nil
      · intro hsame
        have := congrArg BitVec.toNat hsame
        dsimp only at this
        omega
      · dsimp only
        omega

theorem legal_step (hl : w.Legal c) (hpool : ∀ call, c ≠ .arena call) :
    ∃ o w' x', w.step c = some (o, w') ∧ Stepped w c o w' x' := by
  cases c with
  | malloc requested reply => exact malloc_step h requested reply
  | calloc count size reply => exact calloc_step h count size reply
  | realloc pointer size reply => exact realloc_step h hl
  | free pointer => exact free_step h hl
  | write address cells => exact write_step h hl
  | arena call => exact absurd rfl (hpool call)

theorem stepped_of_step (hl : w.Legal c) (hstep : w.step c = some (o, w')) :
    ∃ x', Stepped w c o w' x' := by
  by_cases harena : ∃ call, c = .arena call
  · obtain ⟨call, rfl⟩ := harena
    exact arena_step h hl hstep
  obtain ⟨o', t, x', hrun, hstepped⟩ := legal_step h hl fun call heq => harena ⟨call, heq⟩
  rw [hstep] at hrun
  cases hrun
  exact ⟨x', hstepped⟩

end

theorem run_balanced {w₀ : World} (hopened : w₀.Opened) {trace : List (Call × Output)}
    (hrun : Runs.Run World.system w₀ trace w) : ∃ x, Balanced w x := by
  have hstart : ∃ x, Balanced w₀ x := by
    obtain ⟨⟨before, hpre⟩, ⟨x, hget, hgen⟩, hlist, hlive, hfreed⟩ := hopened
    refine ⟨x, ⟨run_sound hpre, hget, ?_, ?_, ?_, ?_, ?_⟩, by rw [hgen]⟩
    · rw [hlive, hfreed]
      exact fun p hp => absurd hp not_mem_nil
    · rw [hlive, hfreed]
      exact .nil
    · rw [hlive]
      exact fun b hb => absurd hb not_mem_nil
    · exact fun hne => absurd hgen hne
    · rw [hfreed]
      exact fun _ => hlist
  apply hrun.invariant _ hstart
  intro s c o t ⟨x, hs⟩ hl hstep
  obtain ⟨x', hstepped⟩ := stepped_of_step hs hl hstep
  exact ⟨x', hstepped.balanced⟩

end

/-- The blocks of a program: each has a header in front of it, and those that are held
are large enough and overlap neither each other, nor a header, nor a freed block. -/
structure World.Separate (w : World) : Prop where
  distinct : (pointersOf w.live w.freed).Nodup
  headed : ∀ p ∈ pointersOf w.live w.freed, headerSize ≤ p
  large : ∀ b ∈ w.live, b.requested.toNat ≤ capacityOf w.machine.memory b.pointer
  payloads : ∀ b ∈ w.live, ∀ b' ∈ w.live, b.pointer ≠ b'.pointer →
    b.pointer + capacityOf w.machine.memory b.pointer ≤ b'.pointer ∨
      b'.pointer + capacityOf w.machine.memory b'.pointer ≤ b.pointer
  headers : ∀ b ∈ w.live, ∀ p ∈ pointersOf w.live w.freed,
    b.pointer + capacityOf w.machine.memory b.pointer ≤ p - headerSize ∨ p ≤ b.pointer
  freed : ∀ b ∈ w.live, ∀ p ∈ w.freed,
    b.pointer + capacityOf w.machine.memory b.pointer ≤ p - headerSize ∨
      p + capacityOf w.machine.memory p ≤ b.pointer

/-- The free list in memory ends, and has the headers of `blocks` on it in that order. -/
def World.FreeListIs (w : World) (blocks : List ℕ) : Prop :=
  Follows (fun header => loadWord w.machine.memory (nextAt header)) 0 w.machine.pool.freeList
    (blocks.map (· - headerSize))

theorem Balanced.separate {w : World} {x : BoundedArena} (h : Balanced w x) : w.Separate := by
  have hnodup := h.owned.nodup
  have hapart : ∀ b ∈ w.live, ∀ p ∈ pointersOf w.live w.freed, b.pointer ≠ p →
      Apart w.machine.memory b.pointer p :=
    fun b hb p hp hne => h.owned.apart_of_ne (mem_of_live hb) hp hne
  refine ⟨hnodup, fun p hp => le_of_lt (h.owned.header_le hp), ?_, ?_, ?_, ?_⟩
  · intro b hb
    exact le_trans (requested_le_blockSize b.requested) (h.owned.held b hb).large
  · intro b hb b' hb' hne
    rcases hapart b hb _ (mem_of_live hb') hne with hpre | ha <;> omega
  · intro b hb p hp
    by_cases hne : b.pointer = p
    · exact .inr (le_of_eq hne.symm)
    · rcases hapart b hb p hp hne with hpre | ha <;> omega
  intro b hb p hp
  have hne : b.pointer ≠ p :=
    (nodup_append.mp hnodup).2.2 b.pointer (List.mem_map_of_mem hb) p hp
  rcases hapart b hb p (mem_of_freed hp) hne with hpre | ha <;> omega

/-- In every run of a program over one pool, each call on a block that is held has a
result and leaves blocks that are large enough and do not overlap. After a call that
consults the pool the free list is exactly the list of the blocks freed in this
generation; a list from an earlier generation can only be left when there is no block. -/
theorem native_pool_sound {w₀ w : World} {trace : List (Call × Output)} (hopened : w₀.Opened)
    (hrun : Runs.Run World.system w₀ trace w) {c : Call} (hlegal : w.Legal c) :
    ((∀ call, c ≠ .arena call) → ∃ o w', w.step c = some (o, w')) ∧
    ∀ o w', w.step c = some (o, w') → w'.Separate ∧ c.Delivers w o w' ∧
      ∃ x', w'.machine.arenas.arenas.get? w'.machine.pool.arena = some x' ∧
        (c.Consults → w'.machine.pool.generation = x'.generation) ∧
        (w'.machine.pool.generation = x'.generation → w'.FreeListIs w'.freed) ∧
        (w'.machine.pool.generation ≠ x'.generation → w'.live = [] ∧ w'.freed = []) := by
  obtain ⟨x, hbalanced⟩ := run_balanced hopened hrun
  constructor
  · intro hpool
    obtain ⟨o, w', _, hstep, _⟩ := legal_step hbalanced hlegal hpool
    exact ⟨o, w', hstep⟩
  intro o w' hstep
  obtain ⟨x', hstepped⟩ := stepped_of_step hbalanced hlegal hstep
  have howned := hstepped.balanced.owned
  exact ⟨hstepped.balanced.separate, hstepped.delivers, x', howned.get, hstepped.current,
    howned.list, howned.stale⟩

/-- A pool over a new arena of 64 bytes. -/
def sampleWorld : World where
  machine :=
    { arenas :=
        { budgets := ⟨[some { worker := MemoryBudgets.Heap.soleWorker, limit := 100#64 }]⟩
          arenas := ⟨[some (.construct MemoryBudgets.Heap.soleWorker 0 ⟨true, true⟩ 64#64 64#64)]⟩ }
      memory := fun _ => .byte 0#8
      pool := { arena := 0, worker := MemoryBudgets.Heap.soleWorker, generation := 1#64 } }

theorem sampleWorld_opened : sampleWorld.Opened := by
  refine ⟨⟨[(.budgets (.createRoot MemoryBudgets.Heap.soleWorker 100#64), .done (.ok ())),
      (.construct MemoryBudgets.Heap.soleWorker 0 ⟨true, true⟩ 64#64 64#64, .done (.ok ()))], ?_⟩,
    ⟨_, rfl, rfl⟩, rfl, rfl, rfl⟩
  exact .cons ⟨trivial, fun _ _ h => by cases h⟩ rfl (.cons ⟨_, rfl⟩ rfl (.refl _))

/-- Eight bytes, given back. -/
def sampleTrace : List (Call × Output) :=
  [(.malloc 8#64 (.ok sampleBlock), .pointer 4128), (.free 4128, .done)]

theorem sampleTrace_run : ∃ w w', Runs.Run World.system sampleWorld sampleTrace w ∧
    w.step (.malloc 4#64 (.ok sampleBlock)) = some (.pointer 4128, w') ∧
    w'.live = [⟨4128, 4#64⟩] :=
  ⟨_, _, .cons trivial rfl (.cons (.inr ⟨_, mem_singleton_self _, rfl⟩) rfl (.refl _)), rfl, rfl⟩

theorem native_pool_sound_reuse : ∃ w w', Runs.Run World.system sampleWorld sampleTrace w ∧
    w.step (.malloc 4#64 (.ok sampleBlock)) = some (.pointer 4128, w') ∧
    w'.live = [⟨4128, 4#64⟩] ∧ w'.Separate := by
  obtain ⟨w, w', hrun, hstep, hlive⟩ := sampleTrace_run
  have hsound := native_pool_sound sampleWorld_opened hrun
    (c := .malloc 4#64 (.ok sampleBlock)) trivial
  exact ⟨w, w', hrun, hstep, hlive, (hsound.2 _ _ hstep).1⟩

/-- The arena is reset after the eight bytes were given back. -/
def resetTrace : List (Call × Output) :=
  sampleTrace ++
    [(.arena (.quiescentBoundary 0 MemoryBudgets.Heap.soleWorker), .arena (.boundary (.ok 0))),
     (.arena (.reset 0 MemoryBudgets.Heap.soleWorker 0 (.ok ())), .arena (.done (.ok ())))]

/-- A `calloc` that overflows returns before it looks at the generation: the block that
was freed before the reset is still on the list. -/
theorem free_list_outlives_reset : sampleWorld.Opened ∧
    ∃ w w' x', Runs.Run World.system sampleWorld resetTrace w ∧
      w.Legal (.calloc 2#64 sizeMax (.ok sampleBlock)) ∧
      w.step (.calloc 2#64 sizeMax (.ok sampleBlock)) = some (.pointer 0, w') ∧
      w'.machine.arenas.arenas.get? 0 = some x' ∧
      w'.machine.pool.generation.toNat < x'.generation.toNat ∧
      w'.freed = [] ∧ w'.FreeListIs [4128] := by
  refine ⟨sampleWorld_opened, _, _, _, .cons trivial rfl
    (.cons (.inr ⟨_, List.mem_singleton_self _, rfl⟩) rfl
    (.cons ⟨⟨_, rfl⟩, fun _ _ _ h => by cases h⟩ rfl
    (.cons ⟨⟨⟨_, rfl⟩, Nat.zero_lt_one⟩, fun _ _ _ _ => rfl⟩ rfl (.refl _)))),
    trivial, rfl, rfl, by decide, rfl, ?_⟩
  exact ⟨rfl, by decide, 0, rfl, rfl⟩

end Laghu.NativeMemory
