import Laghu.NativeMemoryRuns

/-!
Alignment of what an arena hands out. The arena aligns offsets into its block and never
looks at the block's address: an address it hands out is congruent to the block's address
modulo the requested alignment, so it is aligned exactly when the block is. The same holds
for the memory resource over an arena and for the blocks of a native memory pool.
-/

namespace Laghu.BoundedArenas

open Contract Views

/-- `ArenaPmrResource`. -/
structure ArenaPmrResource where
  arena : ℕ
  worker : WorkerId

/-- An allocation that fails terminates the program. -/
def ArenaPmrResource.doAllocate (r : ArenaPmrResource) (w : World) (bytes alignment : Size)
    (reply : Result MutableByteView) : Option (ℕ × World) := do
  match ← w.step (.tryAllocate r.arena r.worker (if bytes = 0#64 then 1#64 else bytes)
      alignment reply) with
  | (.view (.ok allocation), w') =>
    match ← w'.viewBytes allocation with
    | .error _ => none
    | .ok view => some (view.data, w')
  | _ => none

theorem dvd_iff_of_residue {a m n : ℕ} (h : m % a = n % a) : a ∣ m ↔ a ∣ n := by
  rw [Nat.dvd_iff_mod_eq_zero, h, Nat.dvd_iff_mod_eq_zero]

section

variable {w w' : World} {a : ℕ} {worker : WorkerId} {bytes alignment : Size}
  {reply : Result MutableByteView} {v : ArenaView}

/-- The address is as far from a multiple of the alignment as the block is. -/
theorem allocation_residue (hs : Sound w)
    (hstep : w.step (.tryAllocate a worker bytes alignment reply) = some (.view (.ok v), w'))
    (hl : w.Legal (.tryAllocate a worker bytes alignment reply)) (hb : bytes ≠ 0#64) :
    ∃ x', w'.arenas.get? a = some x' ∧ w'.viewBytes v = some (.ok v.bytes) ∧
      v.bytes.data % alignment.toNat = x'.storage.data % alignment.toNat := by
  have heff := effect_of_step hs hl hstep
  obtain ⟨x, hx⟩ := hl
  obtain ⟨x', hx', hk⟩ := heff.arena_step hx
  cases hk with
  | idle _ halloc => simp [isAllocation, hb] at halloc
  | allocated hc hout _ hallocated =>
    cases hc
    cases hout
    obtain ⟨start, hdata, halign, _⟩ := hallocated.place
    refine ⟨x', hx', ?_, ?_⟩
    · simp [World.viewBytes, hx', BoundedArena.viewFor, hallocated.generation_eq]
    · rw [hdata, Nat.add_mod, halign, Nat.add_zero, Nat.mod_mod]
  | reset hc => cases hc

theorem doAllocate_residue {r : ArenaPmrResource} {p : ℕ} (hs : Sound w)
    (hl : ∃ x, w.arenas.get? r.arena = some x)
    (hrun : r.doAllocate w bytes alignment reply = some (p, w')) :
    ∃ x', w'.arenas.get? r.arena = some x' ∧
      p % alignment.toNat = x'.storage.data % alignment.toNat := by
  have hpos : (if bytes = 0#64 then 1#64 else bytes) ≠ 0#64 := by
    split
    · decide
    · assumption
  obtain ⟨⟨o, t⟩, hstep, hrun⟩ := Option.bind_eq_some_iff.mp hrun
  cases o with
  | view result =>
    cases result with
    | ok v =>
      obtain ⟨x', hx', hview, hresidue⟩ := allocation_residue hs hstep hl hpos
      dsimp only at hrun
      rw [hview] at hrun
      cases hrun
      exact ⟨x', hx', hresidue⟩
    | error e => cases hrun
  | done result => cases hrun
  | boundary result => cases hrun

end

end Laghu.BoundedArenas

namespace Laghu.NativeMemory

open Contract BoundedArenas MemoryWords Views List Option

/-- `alignof(std::max_align_t)`. -/
def maximumAlignment : ℕ := 16

/-- The blocks are as far from a multiple of the largest alignment as the arena's block. -/
def Level (x : BoundedArena) (blocks : List ℕ) : Prop :=
  ∀ p ∈ blocks, p % maximumAlignment = x.storage.data % maximumAlignment

section

variable {M M' : Machine} {x x' : BoundedArena} {live : List LiveBlock} {freed : List ℕ}
  {result : ℕ} {requested : Size} {reply : Result MutableByteView}

variable {blocks : List ℕ}

theorem Level.of_storage (h : Level x blocks) (hst : blocks ≠ [] → x'.storage = x.storage) :
    Level x' blocks := by
  intro p hp
  rw [hst (ne_nil_of_mem hp)]
  exact h p hp

/-- What the arena of a pool looks like after a call, and what was handed out. -/
structure Drawn (M : Machine) (x : BoundedArena) (blocks : List ℕ) (result : ℕ) (M' : Machine)
    (x' : BoundedArena) : Prop where
  arena_eq : M'.pool.arena = M.pool.arena
  get : M'.arenas.arenas.get? M.pool.arena = some x'
  level : Level x blocks → Level x' (if result = 0 then blocks else result :: blocks)

theorem Drawn.null (harena : M'.pool.arena = M.pool.arena)
    (hget : M'.arenas.arenas.get? M.pool.arena = some x')
    (hst : blocks ≠ [] → x'.storage = x.storage) : Drawn M x blocks 0 M' x' :=
  ⟨harena, hget, fun hlevel => hlevel.of_storage hst⟩

theorem Drawn.member (harena : M'.pool.arena = M.pool.arena)
    (hget : M'.arenas.arenas.get? M.pool.arena = some x) (hmem : result ∈ blocks) :
    Drawn M x blocks result M' x := by
  refine ⟨harena, hget, fun hlevel => ?_⟩
  split
  · exact hlevel
  intro p hp
  rcases mem_cons.mp hp with heq | hold
  · exact heq ▸ hlevel result hmem
  · exact hlevel p hold

theorem carve_drawn (h : Owned M x live freed) {size : Size}
    (hrun : M.carve size reply = some (result, M')) :
    ∃ x', Drawn M x (pointersOf live freed) result M' x' := by
  unfold Machine.carve at hrun
  split at hrun
  · cases hrun
    exact ⟨x, .null rfl h.get fun _ => rfl⟩
  rename_i hlarge
  have hb : BitVec.ofNat 64 headerSize + size ≠ 0#64 := by
    unfold sizeMax headerSize at hlarge
    unfold headerSize
    bv_omega
  have hl : M.arenas.Legal (.tryAllocate M.pool.arena M.pool.worker
      (BitVec.ofNat 64 headerSize + size) 16#64 reply) := ⟨x, h.get⟩
  obtain ⟨⟨o, arenas⟩, hstep, hrun⟩ := bind_eq_some_iff.mp hrun
  obtain ⟨x', hx', hk⟩ := (effect_of_step h.sound hl hstep).arena_step h.get
  have hst : pointersOf live freed ≠ [] → x'.storage = x.storage := by
    intro hsome
    cases hk with
    | idle _ _ hsame => exact (unpinned_eq hsame).1
    | allocated _ _ _ halloc => exact h.storage_of_block halloc hsome
    | reset hc => cases hc
  have hnull : Drawn M x (pointersOf live freed) 0 { M with arenas := arenas } x' :=
    .null rfl hx' hst
  cases o with
  | view outcome =>
    cases outcome with
    | ok v =>
      obtain ⟨y, hy, hview, hresidue⟩ := allocation_residue h.sound hstep hl hb
      have hsame : y = x' := some.inj (hy.symm.trans hx')
      subst hsame
      dsimp only at hrun
      rw [hview] at hrun
      cases hrun
      refine ⟨y, rfl, hx', fun hlevel => ?_⟩
      have hpos : v.bytes.data + headerSize ≠ 0 := Nat.succ_ne_zero _
      rw [if_neg hpos]
      intro p hp
      rcases mem_cons.mp hp with heq | hold
      · have hdata : v.bytes.data % 16 = y.storage.data % 16 := hresidue
        rw [heq]
        unfold maximumAlignment headerSize
        omega
      · exact hlevel.of_storage hst p hold
    | error e =>
      cases hrun
      exact ⟨x', hnull⟩
  | done outcome | boundary outcome =>
    cases hrun
    exact ⟨x', hnull⟩

/-- A block that is handed out again is one of the freed blocks. -/
theorem arenaMalloc_drawn (h : Owned M x live freed)
    (hrun : M.arenaMalloc requested reply = some (result, M')) :
    ∃ x', Drawn M x (pointersOf live freed) result M' x' := by
  obtain ⟨M₁, hsync, ha, _, harena, _, hgen, h₁⟩ := synchronize_spec h
  have hdrawn : ∃ x', Drawn M₁ x (pointersOf live freed) result M' x' := by
    rw [arenaMalloc_eq hsync] at hrun
    rcases findFit_spec (blockSize requested).toNat 0 freed (h₁.list hgen)
      (fun p hp => (h₁.placed p (mem_of_freed hp)).header)
      h₁.length_freed_lt with ⟨last, hfind⟩ | ⟨front, p, back, rfl, hp, hfind, hfit⟩
    · rw [hfind, bind_some, if_neg (not_not.mpr rfl)] at hrun
      exact carve_drawn h₁ hrun
    obtain ⟨M₂, hreuse, harena₂, _, ha₂, _, _⟩ := reuse_spec h₁ hgen hfit
    rw [hfind, bind_some, if_pos hp, hreuse] at hrun
    cases hrun
    exact ⟨x, .member harena₂ (ha₂ ▸ h₁.get)
      (mem_of_freed (mem_append_right _ mem_cons_self))⟩
  obtain ⟨x', hdrawn⟩ := hdrawn
  refine ⟨x', hdrawn.arena_eq.trans harena, ?_, hdrawn.level⟩
  rw [← harena]
  exact hdrawn.get

theorem Drawn.rewritten {M₂ : Machine} (h : Drawn M x blocks result M' x')
    (ha : M₂.arenas = M'.arenas) (harena : M₂.pool.arena = M'.pool.arena) :
    Drawn M x blocks result M₂ x' :=
  ⟨harena.trans h.arena_eq, ha ▸ h.get, h.level⟩

/-- Giving a block back leaves the arenas alone. -/
theorem arenaFree_arenas {pointer : ℕ} (hrun : M.arenaFree pointer = some M') :
    M'.arenas = M.arenas ∧ M'.pool.arena = M.pool.arena := by
  unfold Machine.arenaFree Machine.synchronize at hrun
  split at hrun
  · cases hrun
    exact ⟨rfl, rfl⟩
  obtain ⟨M₁, hsync, hrun⟩ := bind_eq_some_iff.mp hrun
  obtain ⟨y, _, hsync⟩ := bind_eq_some_iff.mp hsync
  cases hrun
  split at hsync <;>
  · cases hsync
    exact ⟨rfl, rfl⟩

theorem arenaCalloc_drawn (h : Owned M x live freed) {count size : Size}
    (hrun : M.arenaCalloc count size reply = some (result, M')) :
    ∃ x', Drawn M x (pointersOf live freed) result M' x' := by
  unfold Machine.arenaCalloc at hrun
  split at hrun
  · cases hrun
    exact ⟨x, .null rfl h.get fun _ => rfl⟩
  obtain ⟨⟨p, M₁⟩, hmalloc, hrun⟩ := bind_eq_some_iff.mp hrun
  obtain ⟨x', hdrawn⟩ := arenaMalloc_drawn h hmalloc
  dsimp only at hrun
  split at hrun <;>
  · cases hrun
    exact ⟨x', hdrawn.rewritten rfl rfl⟩

theorem arenaRealloc_drawn (h : Owned M x live freed) {pointer : ℕ} {size : Size}
    (hheld : pointer = 0 ∨ pointer ∈ pointersOf live freed)
    (hrun : M.arenaRealloc pointer size reply = some (result, M')) :
    ∃ x', Drawn M x (pointersOf live freed) result M' x' := by
  unfold Machine.arenaRealloc at hrun
  split at hrun
  · exact arenaMalloc_drawn h hrun
  rename_i hnull
  split at hrun
  · obtain ⟨M₁, hfree, hrun⟩ := bind_eq_some_iff.mp hrun
    obtain ⟨ha, harena⟩ := arenaFree_arenas hfree
    cases hrun
    exact ⟨x, .null harena (ha ▸ h.get) fun _ => rfl⟩
  obtain ⟨capacity, _, hrun⟩ := bind_eq_some_iff.mp hrun
  split at hrun
  · cases hrun
    exact ⟨x, .member rfl h.get (hheld.resolve_left hnull)⟩
  obtain ⟨⟨p, M₁⟩, hmalloc, hrun⟩ := bind_eq_some_iff.mp hrun
  obtain ⟨x', hdrawn⟩ := arenaMalloc_drawn h hmalloc
  dsimp only at hrun
  split at hrun
  · next hfailed =>
    cases hrun
    exact ⟨x', hfailed ▸ hdrawn⟩
  obtain ⟨used, _, hrun⟩ := bind_eq_some_iff.mp hrun
  obtain ⟨M₂, hfree, hrun⟩ := bind_eq_some_iff.mp hrun
  obtain ⟨ha, harena⟩ := arenaFree_arenas hfree
  cases hrun
  exact ⟨x', hdrawn.rewritten ha harena⟩

end

section

variable {w w' : World} {x : BoundedArena} {c : Call} {o : Output} {result pointer : ℕ}
  {size : Size} {M : Machine}

theorem mem_received {p : ℕ} (hp : p ∈ pointersOf (w.received result size M).live
    (w.received result size M).freed) :
    p ∈ pointersOf w.live w.freed ∨ p = result ∧ result ≠ 0 := by
  unfold World.received at hp
  split at hp
  · exact .inl hp
  next hres =>
  rcases mem_append.mp hp with hl | hfreed
  · rcases mem_cons.mp hl with heq | hold
    · exact .inr ⟨heq, hres⟩
    · exact .inl (mem_append_left _ hold)
  · exact .inl (mem_append_right _ (mem_of_mem_erase hfreed))

theorem mem_kept {p : ℕ} (hp : p ∈ (w.live.filter (·.pointer ≠ pointer)).map LiveBlock.pointer) :
    p ∈ pointersOf w.live w.freed :=
  mem_append_left _ ((filter_sublist.map _).subset hp)

theorem mem_returned {p : ℕ} (hp : p ∈ pointersOf (w.returned pointer M).live
    (w.returned pointer M).freed) :
    p ∈ pointersOf w.live w.freed ∨ p = pointer ∧ pointer ≠ 0 := by
  unfold World.returned at hp
  split at hp
  · exact .inl hp
  next hptr =>
  rcases mem_append.mp hp with hl | hfreed
  · exact .inl (mem_kept hl)
  rcases mem_cons.mp hfreed with heq | hold
  · exact .inr ⟨heq, hptr⟩
  · exact .inl (mem_append_right _ hold)

theorem mem_resized {p : ℕ} (hp : p ∈ pointersOf (w.resized pointer size M).live
    (w.resized pointer size M).freed) :
    p ∈ pointersOf w.live w.freed ∨ p = pointer := by
  rcases mem_append.mp hp with hl | hfreed
  · rcases mem_cons.mp hl with heq | hold
    · exact .inr heq
    · exact .inl (mem_kept hold)
  · exact .inl (mem_append_right _ hfreed)

/-- All blocks of a program, and what its last call returned, are as far from a multiple
of the largest alignment as the block of the arena. -/
structure Leveled (w : World) (o : Output) : Prop where
  blocks : ∀ x, w.machine.arenas.arenas.get? w.machine.pool.arena = some x →
    Level x (pointersOf w.live w.freed)
  output : ∀ x result, w.machine.arenas.arenas.get? w.machine.pool.arena = some x →
    o = .pointer result → result ≠ 0 →
    result % maximumAlignment = x.storage.data % maximumAlignment

theorem Drawn.leveled {x' : BoundedArena}
    (h : Drawn w.machine x (pointersOf w.live w.freed) result M x')
    (hlevel : Level x (pointersOf w.live w.freed)) (hmachine : w'.machine = M)
    (hmem : ∀ p ∈ pointersOf w'.live w'.freed,
      p ∈ pointersOf w.live w.freed ∨ p = result ∧ result ≠ 0)
    (hout : ∀ p, o = .pointer p → p = result) : Leveled w' o := by
  have hget : w'.machine.arenas.arenas.get? w'.machine.pool.arena = some x' := by
    rw [hmachine, h.arena_eq]
    exact h.get
  have hall := h.level hlevel
  have hold : ∀ p ∈ pointersOf w.live w.freed,
      p % maximumAlignment = x'.storage.data % maximumAlignment := by
    intro p hp
    apply hall p
    split
    · exact hp
    · exact mem_cons_of_mem _ hp
  have hnew : result ≠ 0 → result % maximumAlignment = x'.storage.data % maximumAlignment := by
    intro hres
    apply hall result
    rw [if_neg hres]
    exact mem_cons_self
  constructor
  · intro y hy p hp
    obtain rfl : x' = y := some.inj (hget.symm.trans hy)
    rcases hmem p hp with hmem | ⟨rfl, hres⟩
    · exact hold p hmem
    · exact hnew hres
  · intro y p hy hp hnz
    obtain rfl : x' = y := some.inj (hget.symm.trans hy)
    obtain rfl := hout p hp
    exact hnew hnz

theorem leveled_of_arena (h : Balanced w x) (hlevel : Level x (pointersOf w.live w.freed))
    {call : BoundedArenas.Call} (hl : w.Legal (.arena call))
    (hstep : w.step (.arena call) = some (o, w')) : Leveled w' o := by
  obtain ⟨hc, hreset⟩ := hl
  rw [World.step] at hstep
  obtain ⟨⟨output, arenas⟩, hrun, hstep⟩ := bind_eq_some_iff.mp hstep
  cases hstep
  obtain ⟨x', hget, hk⟩ := (effect_of_step h.owned.sound hc hrun).arena_step h.owned.get
  cases hk with
  | idle hidle _ hsame =>
    have hdrawn : Drawn w.machine x (pointersOf w.live w.freed) 0
        { w.machine with arenas := arenas } x' :=
      .null rfl hget fun _ => (unpinned_eq hsame).1
    refine hdrawn.leveled hlevel rfl ?_ (fun p hp => by cases hp)
    intro p hp
    rw [hidle] at hp
    exact .inl hp
  | allocated hallocate hout _ halloc =>
    subst hallocate hout
    have hdrawn : Drawn w.machine x (pointersOf w.live w.freed) 0
        { w.machine with arenas := arenas } x' :=
      .null rfl hget (h.owned.storage_of_block halloc)
    exact hdrawn.leveled hlevel rfl (fun p hp => .inl hp) (fun p hp => by cases hp)
  | reset hcalled hout =>
    subst hcalled hout
    have he := hreset _ _ _ rfl
    constructor
    · intro y _ p hp
      rw [isReset_self, if_pos rfl, he] at hp
      cases hp
    · intro y p _ hp
      cases hp

theorem received_machine : (w.received result size M).machine = M := by
  unfold World.received
  split <;> rfl

theorem returned_machine : (w.returned pointer M).machine = M := by
  unfold World.returned
  split <;> rfl

theorem leveled_of_realloc (h : Balanced w x) (hlevel : Level x (pointersOf w.live w.freed))
    {reply : Result MutableByteView} (hheld : pointer = 0 ∨ pointer ∈ pointersOf w.live w.freed)
    (hstep : w.step (.realloc pointer size reply) = some (o, w')) : Leveled w' o := by
  obtain ⟨⟨result, M⟩, hrun, hstep⟩ := bind_eq_some_iff.mp hstep
  obtain ⟨x', hdrawn⟩ := arenaRealloc_drawn h.owned hheld hrun
  dsimp only at hstep
  split at hstep
  · cases hstep
    exact hdrawn.leveled hlevel received_machine (fun p hp => mem_received hp)
      (fun p hp => (Output.pointer.inj hp).symm)
  rename_i hnull
  have hmem := hheld.resolve_left hnull
  split at hstep
  · cases hstep
    refine hdrawn.leveled hlevel returned_machine ?_ (fun p hp => (Output.pointer.inj hp).symm)
    intro p hp
    rcases mem_returned hp with hold | ⟨rfl, _⟩
    · exact .inl hold
    · exact .inl hmem
  split at hstep
  · cases hstep
    refine hdrawn.leveled hlevel rfl ?_ (fun p hp => (Output.pointer.inj hp).symm)
    intro p hp
    rcases mem_resized hp with hold | rfl
    · exact .inl hold
    · exact .inl hmem
  split at hstep
  · cases hstep
    exact hdrawn.leveled hlevel rfl (fun p hp => .inl hp) (fun p hp => (Output.pointer.inj hp).symm)
  cases hstep
  refine hdrawn.leveled hlevel returned_machine ?_ (fun p hp => (Output.pointer.inj hp).symm)
  intro p hp
  rcases mem_returned hp with hold | ⟨rfl, _⟩
  · exact mem_received hold
  · exact .inl hmem

theorem leveled_of_step (h : Balanced w x) (hlevel : Level x (pointersOf w.live w.freed))
    (hl : w.Legal c)
    (hstep : w.step c = some (o, w')) : Leveled w' o := by
  have hheld : ∀ pointer, (pointer = 0 ∨ ∃ b ∈ w.live, b.pointer = pointer) →
      pointer = 0 ∨ pointer ∈ pointersOf w.live w.freed := by
    rintro pointer (hnull | ⟨b, hb, rfl⟩)
    · exact .inl hnull
    · exact .inr (mem_of_live hb)
  cases c with
  | malloc requested reply =>
    obtain ⟨⟨result, M⟩, hrun, hstep⟩ := bind_eq_some_iff.mp hstep
    obtain ⟨x', hdrawn⟩ := arenaMalloc_drawn h.owned hrun
    cases hstep
    exact hdrawn.leveled hlevel received_machine (fun p hp => mem_received hp)
      (fun p hp => (Output.pointer.inj hp).symm)
  | calloc count size reply =>
    obtain ⟨⟨result, M⟩, hrun, hstep⟩ := bind_eq_some_iff.mp hstep
    obtain ⟨x', hdrawn⟩ := arenaCalloc_drawn h.owned hrun
    cases hstep
    exact hdrawn.leveled hlevel received_machine (fun p hp => mem_received hp)
      (fun p hp => (Output.pointer.inj hp).symm)
  | realloc pointer size reply => exact leveled_of_realloc h hlevel (hheld pointer hl) hstep
  | free pointer =>
    obtain ⟨M, hrun, hstep⟩ := bind_eq_some_iff.mp hstep
    obtain ⟨ha, harena⟩ := arenaFree_arenas hrun
    have hdrawn : Drawn w.machine x (pointersOf w.live w.freed) 0 M x :=
      .null harena (ha ▸ h.owned.get) fun _ => rfl
    cases hstep
    refine hdrawn.leveled hlevel returned_machine ?_ (fun p hp => by cases hp)
    intro p hp
    rcases mem_returned hp with hold | ⟨rfl, hptr⟩
    · exact .inl hold
    · exact .inl ((hheld _ hl).resolve_left hptr)
  | write address cells =>
    cases hstep
    have hdrawn : Drawn w.machine x (pointersOf w.live w.freed) 0
        { w.machine with memory := storeCells w.machine.memory address cells } x :=
      .null rfl h.owned.get fun _ => rfl
    exact hdrawn.leveled hlevel rfl (fun p hp => .inl hp) (fun p hp => by cases hp)
  | arena call => exact leveled_of_arena h hlevel hl hstep

/-- Over a whole program. -/
theorem run_leveled {w₀ : World} (hopened : w₀.Opened) {trace : List (Call × Output)}
    (hrun : Runs.Run World.system w₀ trace w) :
    ∃ x, Balanced w x ∧ Level x (pointersOf w.live w.freed) := by
  induction hrun with
  | refl =>
    obtain ⟨x, h⟩ := run_balanced hopened (.refl _)
    obtain ⟨_, _, _, hlive, hfreed⟩ := hopened
    refine ⟨x, h, ?_⟩
    intro p hp
    unfold pointersOf at hp
    rw [hlive, hfreed] at hp
    cases hp
  | tail hpre hl hstep ih =>
    obtain ⟨x, h, hlevel⟩ := ih
    obtain ⟨x', h'⟩ := stepped_of_step h hl hstep
    exact ⟨x', h'.balanced, (leveled_of_step h hlevel hl hstep).blocks x' h'.balanced.owned.get⟩

end

/-- In every program, what an arena, the memory resource over it or a pool over it hands
out is aligned exactly when the arena's block is. -/
theorem addresses_aligned_with_block (bytes alignment : Size) (reply : Result MutableByteView) :
    (∀ trace w a worker v w', Runs.Run BoundedArenas.World.system {} trace w →
      w.Legal (.tryAllocate a worker bytes alignment reply) →
      w.step (.tryAllocate a worker bytes alignment reply) = some (.view (.ok v), w') →
      bytes ≠ 0#64 →
      ∃ x', w'.arenas.get? a = some x' ∧ w'.viewBytes v = some (.ok v.bytes) ∧
        (alignment.toNat ∣ v.bytes.data ↔ alignment.toNat ∣ x'.storage.data)) ∧
    (∀ trace w (r : ArenaPmrResource) p w', Runs.Run BoundedArenas.World.system {} trace w →
      (∃ x, w.arenas.get? r.arena = some x) →
      r.doAllocate w bytes alignment reply = some (p, w') →
      ∃ x', w'.arenas.get? r.arena = some x' ∧
        (alignment.toNat ∣ p ↔ alignment.toNat ∣ x'.storage.data)) ∧
    (∀ (w₀ : World) trace w c p w', w₀.Opened → Runs.Run World.system w₀ trace w → w.Legal c →
      w.step c = some (.pointer p, w') → p ≠ 0 →
      ∃ x', w'.machine.arenas.arenas.get? w'.machine.pool.arena = some x' ∧
        (maximumAlignment ∣ p ↔ maximumAlignment ∣ x'.storage.data)) := by
  refine ⟨?_, ?_, ?_⟩
  · intro trace w a worker v w' hrun hlegal hstep hbytes
    obtain ⟨x', hget, hview, hresidue⟩ := allocation_residue (run_sound hrun) hstep hlegal hbytes
    exact ⟨x', hget, hview, dvd_iff_of_residue hresidue⟩
  · intro trace w r p w' hrun hlive hallocate
    obtain ⟨x', hget, hresidue⟩ := doAllocate_residue (run_sound hrun) hlive hallocate
    exact ⟨x', hget, dvd_iff_of_residue hresidue⟩
  intro w₀ trace w c p w' hopened hrun hlegal hstep hp
  obtain ⟨x, h, hlevel⟩ := run_leveled hopened hrun
  obtain ⟨x', h'⟩ := stepped_of_step h hlegal hstep
  have hleveled := leveled_of_step h hlevel hlegal hstep
  have hresidue := hleveled.output x' p h'.balanced.owned.get rfl hp
  exact ⟨x', h'.balanced.owned.get, dvd_iff_of_residue hresidue⟩

theorem addresses_aligned_with_block_sample :
    ∃ w w', Runs.Run World.system sampleWorld sampleTrace w ∧
      w.step (.malloc 4#64 (.ok sampleBlock)) = some (.pointer 4128, w') ∧
      maximumAlignment ∣ 4128 := by
  have hrun : Runs.Run World.system sampleWorld sampleTrace _ :=
    .cons trivial rfl (.cons (.inr ⟨_, mem_singleton_self _, rfl⟩) rfl (.refl _))
  refine ⟨_, _, hrun, rfl, ?_⟩
  have haddresses := addresses_aligned_with_block 4#64 16#64 (.ok sampleBlock)
  obtain ⟨x', hget, haligned⟩ := haddresses.2.2 _ _ _ (.malloc 4#64 (.ok sampleBlock)) 4128 _
    sampleWorld_opened hrun trivial rfl (by decide)
  have hstorage : sampleBlock.data = x'.storage.data :=
    congrArg (fun y : BoundedArena => y.storage.data) (some.inj hget)
  exact haligned.mpr (hstorage ▸ by decide)

/-- As large as `sampleBlock`, at an odd address. -/
def oddBlock : MutableByteView := { data := 4097, size := 64#64 }

/-- The arena takes the block: the first allocation, the first allocation through the
memory resource and the first block of a pool are all unaligned. -/
theorem odd_block_unaligned : sampleWorld.Opened ∧ (∃ w', sampleWorld.machine.arenas.Legal
        (.tryAllocate 0 MemoryBudgets.Heap.soleWorker 8#64 8#64 (.ok oddBlock)) ∧
      sampleWorld.machine.arenas.step
          (.tryAllocate 0 MemoryBudgets.Heap.soleWorker 8#64 8#64 (.ok oddBlock)) =
        some (.view (.ok ⟨some 0, { data := 4097, size := 8#64 }, 1#64⟩), w') ∧
      ¬ 8 ∣ 4097) ∧
    (∃ w', ArenaPmrResource.doAllocate ⟨0, MemoryBudgets.Heap.soleWorker⟩
        sampleWorld.machine.arenas 8#64 8#64 (.ok oddBlock) = some (4097, w')) ∧
    ∃ w', sampleWorld.step (.malloc 8#64 (.ok oddBlock)) = some (.pointer 4129, w') ∧
      ¬ maximumAlignment ∣ 4129 :=
  ⟨sampleWorld_opened, ⟨_, ⟨_, rfl⟩, rfl, by decide⟩, ⟨_, rfl⟩, _, rfl, by decide⟩

end Laghu.NativeMemory
