import Laghu.ArenaRuns

/-!
What holds over the whole history of an arena: the ranges handed out in one
generation, and the generations themselves. Both are read off the calls and
their results; the effect of one call says how the arena follows.
-/

namespace Laghu.BoundedArenas

open Contract ObjectTable MemoryBudgets Views List BoundedArena World

abbrev Trace := List (Call × Output)

/-- How often arena `a` has been reset. -/
def resets (a : ℕ) (trace : Trace) : ℕ := trace.countP (fun event => isReset a event.1 event.2)

/-- A range handed out, with the size and alignment requested. -/
structure Allocation where
  range : MutableByteView
  bytes : Size
  alignment : Size

def note (a : ℕ) (live : List Allocation) : Call × Output → List Allocation
  | (.tryAllocate arena _ bytes alignment _, .view (.ok v)) =>
    if arena = a ∧ bytes ≠ 0#64 then
      live ++ [{ range := v.bytes, bytes := bytes, alignment := alignment }]
    else live
  | (.reset arena _ _ _, .done (.ok ())) => if arena = a then [] else live
  | _ => live

/-- The non-empty allocations from arena `a` since its last reset, oldest first. -/
def liveAllocations (a : ℕ) (trace : Trace) : List Allocation := trace.foldl (note a) []

/-- The range lies in the used part of the arena's block, aligned as requested. -/
structure Placed (x : BoundedArena) (allocation : Allocation) : Prop where
  nonempty : allocation.bytes ≠ 0#64
  size_eq : allocation.range.size = allocation.bytes
  place : ∃ start, allocation.range.data = x.storage.data + start ∧
    start % allocation.alignment.toNat = 0 ∧
    start + allocation.bytes.toNat ≤ x.offset.toNat

/-- The first range ends before the second begins. -/
def Before (first second : Allocation) : Prop :=
  first.range.data + first.bytes.toNat ≤ second.range.data

structure Layout (a : ℕ) (trace : Trace) (w : World) : Prop where
  placed : ∀ x, w.arenas.get? a = some x → ∀ al ∈ liveAllocations a trace, Placed x al
  ordered : (liveAllocations a trace).Pairwise Before
  unborn : w.arenas.get? a = none → liveAllocations a trace = []

section Histories

variable {a : ℕ} {c : Call} {o : Output} {trace : Trace} {w w' : World}

theorem resets_append (a : ℕ) (first second : Trace) :
    resets a (first ++ second) = resets a first + resets a second :=
  countP_append

theorem resets_singleton (a : ℕ) (c : Call) (o : Output) :
    resets a [(c, o)] = if isReset a c o then 1 else 0 := by
  simp [resets, countP_cons]

theorem isReset_self (a : ℕ) (worker : WorkerId) (k : ℕ) (reply : Result Unit) :
    isReset a (.reset a worker k reply) (.done (.ok ())) = true := by
  simp [isReset]

theorem liveAllocations_append (a : ℕ) (trace : Trace) (event : Call × Output) :
    liveAllocations a (trace ++ [event]) = note a (liveAllocations a trace) event := by
  simp [liveAllocations, foldl_append]

theorem note_idle (hreset : isReset a c o = false) (halloc : isAllocation a c o = false)
    (live : List Allocation) : note a live (c, o) = live := by
  unfold note
  split
  · rename_i arena _ bytes _ _ v heq
    cases heq
    simp only [isAllocation, Bool.and_eq_false_iff, beq_eq_false_iff_ne, bne_eq_false_iff_eq,
      ne_eq] at halloc
    rw [if_neg (fun hboth => halloc.elim (fun h => h hboth.1) hboth.2)]
  · rename_i arena _ _ _ heq
    cases heq
    simp only [isReset, beq_eq_false_iff_ne, ne_eq] at hreset
    rw [if_neg hreset]
  · rfl

variable {x' x : BoundedArena}

theorem unpinned_eq (h : unpinned x' = unpinned x) :
    x'.storage = x.storage ∧ x'.capacity = x.capacity ∧ x'.offset = x.offset ∧
      x'.generation = x.generation := by
  have hst := congrArg storage h
  have hcap := congrArg capacity h
  have hoff := congrArg offset h
  have hgen := congrArg generation h
  exact ⟨hst, hcap, hoff, hgen⟩

variable {bytes alignment : Size} {range : MutableByteView}

/-- Earlier ranges keep their place when the arena hands out another one. -/
theorem Placed.allocated (hs : Shape x) (h : Allocated x x' bytes alignment range)
    {al : Allocation} (hal : Placed x al) :
    Placed x' al ∧ al.range.data + al.bytes.toNat ≤ range.data := by
  obtain ⟨start, hdata, halign, hend⟩ := hal.place
  obtain ⟨next, hn, _, hbehind, hoff⟩ := h.place
  have hpos : al.bytes.toNat ≠ 0 := fun h0 => hal.nonempty ((size_eq_zero _).mpr h0)
  have hused := hs.offset_le
  have hf : x.capacity ≠ 0#64 := by
    rw [ne_eq, size_eq_zero]
    omega
  have hbase := h.base hf
  refine ⟨⟨hal.nonempty, hal.size_eq, start, by rw [hbase]; exact hdata, halign, by omega⟩, ?_⟩
  rw [hbase] at hn
  omega

theorem layout_step (hs : Sound w) (h : Layout a trace w) (heff : Effect w c o w') :
    Layout a (trace ++ [(c, o)]) w' := by
  cases hx : w.arenas.get? a with
  | none =>
    obtain ⟨hreset, hallocation⟩ := heff.unborn a hx
    have hl : liveAllocations a (trace ++ [(c, o)]) = [] := by
      rw [liveAllocations_append, note_idle hreset hallocation, h.unborn hx]
    refine ⟨?_, ?_, fun _ => hl⟩
    · intro x' _ al hal
      rw [hl] at hal
      cases hal
    · rw [hl]
      exact List.Pairwise.nil
  | some x =>
    obtain ⟨x', hx', hstep⟩ := heff.arena_step hx
    suffices hnew : (∀ al ∈ liveAllocations a (trace ++ [(c, o)]), Placed x' al) ∧
        (liveAllocations a (trace ++ [(c, o)])).Pairwise Before by
      refine ⟨?_, hnew.2, ?_⟩
      · intro y hy
        have hsame : y = x' := Option.some.inj (hy.symm.trans hx')
        rw [hsame]
        exact hnew.1
      · intro hn
        rw [hx'] at hn
        cases hn
    rw [liveAllocations_append]
    cases hstep with
    | idle hreset hallocation hsame =>
      rw [note_idle hreset hallocation]
      refine ⟨?_, h.ordered⟩
      intro al hal
      obtain ⟨hst, _, hoff, _⟩ := unpinned_eq hsame
      obtain ⟨hnonempty, hsize, start, hdata, halign, hend⟩ := h.placed x hx al hal
      exact ⟨hnonempty, hsize, start, by rw [hst]; exact hdata, halign, by rw [hoff]; exact hend⟩
    | allocated hc hout hb halloc =>
      subst hc hout
      have hold := fun al hal =>
        Placed.allocated (hs.shape a x hx) halloc (h.placed x hx al hal)
      rw [note, if_pos ⟨rfl, hb⟩]
      constructor
      · intro al hal
        rw [mem_append, mem_singleton] at hal
        rcases hal with hearlier | hnew
        · exact (hold al hearlier).1
        subst hnew
        obtain ⟨start, hdata, halign, _, hend⟩ := halloc.place
        exact ⟨hb, halloc.size_eq, start, hdata, halign, Nat.le_of_eq hend⟩
      · rw [pairwise_append]
        refine ⟨h.ordered, pairwise_singleton _ _, ?_⟩
        intro al hal next hnext
        rw [mem_singleton] at hnext
        subst hnext
        exact (hold al hal).2
    | reset hc hout =>
      subst hc hout
      rw [note, if_pos rfl]
      exact ⟨(fun al hal => by cases hal), List.Pairwise.nil⟩

theorem run_layout (a : ℕ) (h : Runs.Run system {} trace w) : Layout a trace w := by
  have hboth : Sound w ∧ Layout a trace w := by
    apply h.history (P := fun trace w => Sound w ∧ Layout a trace w)
    · intro trace s c o t hs hl hstep
      have heff := effect_of_step hs.1 hl hstep
      exact ⟨heff.sound, layout_step hs.1 hs.2 heff⟩
    refine ⟨empty_sound, ?_, List.Pairwise.nil, fun _ => rfl⟩
    intro x _ al hal
    cases hal
  exact hboth.2

theorem Allocated.capacity_ne (h : Allocated x x' bytes alignment range) (hb : bytes ≠ 0#64) :
    x'.capacity ≠ 0#64 := by
  obtain ⟨start, _, _, _, hend⟩ := h.place
  have hused := h.shape.offset_le
  have hpos : bytes.toNat ≠ 0 := fun h0 => hb ((size_eq_zero _).mpr h0)
  rw [ne_eq, size_eq_zero]
  omega

/-- Growing an arena never moves it: between two resets the block stays. -/
theorem storage_stable (hs : Sound w) (hx : w.arenas.get? a = some x) (hf : x.capacity ≠ 0#64)
    (h : Runs.Run system w trace w') (hresets : resets a trace = 0) :
    ∃ x', w'.arenas.get? a = some x' ∧ x'.storage = x.storage := by
  have hboth : Sound w' ∧ (resets a trace = 0 →
      ∃ x', w'.arenas.get? a = some x' ∧ x'.storage = x.storage ∧ x'.capacity ≠ 0#64) := by
    apply h.history (P := fun trace v => Sound v ∧ (resets a trace = 0 →
      ∃ x', v.arenas.get? a = some x' ∧ x'.storage = x.storage ∧ x'.capacity ≠ 0#64))
    · intro trace s c o t hs hl hstep
      have heff := effect_of_step hs.1 hl hstep
      refine ⟨heff.sound, ?_⟩
      intro hn
      rw [resets_append, resets_singleton] at hn
      obtain ⟨y, hy, hst, hcap⟩ := hs.2 (by omega)
      obtain ⟨y', hy', hk⟩ := heff.arena_step hy
      refine ⟨y', hy', ?_⟩
      cases hk with
      | idle _ _ hsame =>
        obtain ⟨hst', hcap', _⟩ := unpinned_eq hsame
        rw [hst', hcap']
        exact ⟨hst, hcap⟩
      | allocated hc hout hb halloc =>
        exact ⟨(halloc.base hcap).trans hst, halloc.capacity_ne hb⟩
      | reset hc hout =>
        subst hc hout
        rw [isReset_self, if_pos rfl] at hn
        omega
    · exact ⟨hs, fun _ => ⟨x, hx, rfl, hf⟩⟩
  obtain ⟨x', hx', hst, _⟩ := hboth.2 hresets
  exact ⟨x', hx', hst⟩

/-- Within one generation the ranges an arena has handed out are disjoint,
aligned, of the requested sizes, and inside the used part of a block that stays
where it is; the arena pays for exactly its capacity, and a call that reports
an error changes nothing. -/
theorem arena_generation_layout (h : Runs.Run World.system {} trace w)
    (hx : w.arenas.get? a = some x) :
    (∀ al ∈ liveAllocations a trace, al.range.size = al.bytes ∧
      ∃ start, al.range.data = x.storage.data + start ∧ start % al.alignment.toNat = 0 ∧
        start + al.bytes.toNat ≤ x.offset.toNat) ∧
    (liveAllocations a trace).Pairwise
      (fun first second => first.range.data + first.bytes.toNat ≤ second.range.data) ∧
    (x.offset.toNat ≤ x.capacity.toNat ∧ x.capacity.toNat ≤ x.maximumCapacity.toNat) ∧
    (∀ later w', x.capacity ≠ 0#64 → Runs.Run World.system w later w' → resets a later = 0 →
      ∃ x', w'.arenas.get? a = some x' ∧ x'.storage = x.storage) ∧
    (x.capacity = 0#64 → x.reservation.isActive = false) ∧
    (x.capacity ≠ 0#64 → x.reservation = { budget := some x.budget, bytes := x.capacity }) ∧
    ∀ c o w', w.Legal c → w.step c = some (o, w') → o.failed = true → w' = w := by
  have hs := run_sound h
  have hlayout := run_layout a h
  have hshape := hs.shape a x hx
  refine ⟨?_, hlayout.ordered, ⟨hshape.offset_le, hshape.capacity_le⟩, ?_, ?_, ?_, ?_⟩
  · intro al hal
    have hplaced := hlayout.placed x hx al hal
    exact ⟨hplaced.size_eq, hplaced.place⟩
  · intro later w' hfull hrun hresets
    exact storage_stable hs hx hfull hrun hresets
  · intro hempty
    rw [hshape.reservation_eq, reservationFor, if_pos hempty]
    rfl
  · intro hfull
    rw [hshape.reservation_eq, reservationFor, if_neg hfull]
  · intro c o w' hlegal hstep hfailed
    exact (effect_of_step hs hlegal hstep).failed hfailed

/-- A block of 64 bytes at address 4096. -/
def sampleBlock : MutableByteView := { data := 4096, size := 64#64 }

/-- An arena of up to 64 bytes that has grown to `capacity`. -/
def sampleArena (capacity offset : Size) : BoundedArena where
  worker := Heap.soleWorker
  budget := 0
  source := ⟨true, true⟩
  storage := sampleBlock
  reservation := { budget := some 0, bytes := capacity }
  initialCapacity := 8#64
  maximumCapacity := 64#64
  capacity := capacity
  offset := offset

/-- The arena alone on a budget of 100 bytes. -/
def sampleWorld (capacity offset : Size) : World where
  budgets := ⟨[some { worker := Heap.soleWorker, limit := 100#64, charged := capacity,
                      liveReservations := 1#64 }]⟩
  arenas := ⟨[some (sampleArena capacity offset)]⟩

/-- Three bytes, and then eight more at a multiple of four. -/
def sampleTrace : Trace :=
  [(.budgets (.createRoot Heap.soleWorker 100#64), .done (.ok ())),
   (.construct Heap.soleWorker 0 ⟨true, true⟩ 8#64 64#64, .done (.ok ())),
   (.tryAllocate 0 Heap.soleWorker 3#64 1#64 (.ok sampleBlock),
    .view (.ok ⟨some 0, { data := 4096, size := 3#64 }, 1#64⟩)),
   (.tryAllocate 0 Heap.soleWorker 8#64 4#64 (.ok sampleBlock),
    .view (.ok ⟨some 0, { data := 4100, size := 8#64 }, 1#64⟩))]

theorem sampleTrace_run : Runs.Run system {} sampleTrace (sampleWorld 16#64 12#64) := by
  refine .cons ⟨trivial, fun _ _ h => by cases h⟩ rfl (.cons ⟨_, rfl⟩ rfl ?_)
  have hf : step
      { budgets := ⟨[some { worker := Heap.soleWorker, limit := 100#64 }]⟩
        arenas := ⟨[some (.construct Heap.soleWorker 0 ⟨true, true⟩ 8#64 64#64)]⟩ }
      (.tryAllocate 0 Heap.soleWorker 3#64 1#64 (.ok sampleBlock)) =
      some (.view (.ok ⟨some 0, { data := 4096, size := 3#64 }, 1#64⟩),
        sampleWorld 8#64 3#64) := rfl
  have hsec : (sampleWorld 8#64 3#64).step
      (.tryAllocate 0 Heap.soleWorker 8#64 4#64 (.ok sampleBlock)) =
      some (.view (.ok ⟨some 0, { data := 4100, size := 8#64 }, 1#64⟩),
        sampleWorld 16#64 12#64) := rfl
  exact .cons ⟨_, rfl⟩ hf (.cons ⟨_, rfl⟩ hsec (.refl _))

theorem arena_generation_layout_two :
    (liveAllocations 0 sampleTrace).map (fun al => (al.range.data, al.bytes)) =
      [(4096, 3#64), (4100, 8#64)] ∧
    (liveAllocations 0 sampleTrace).Pairwise
      (fun first second => first.range.data + first.bytes.toNat ≤ second.range.data) :=
  ⟨rfl, (arena_generation_layout (a := 0) sampleTrace_run rfl).2.1⟩

/-- Generations count resets, and boundaries and views carry the generation in
which they were issued. -/
structure Dated (trace : Trace) (w : World) : Prop where
  generation : ∀ a x, w.arenas.get? a = some x → x.generation.toNat = 1 + resets a trace
  unborn : ∀ a, w.arenas.get? a = none → resets a trace = 0
  issued : ∀ k boundary, w.boundaries[k]? = some boundary → ∃ before worker after,
    trace = before ++ (.quiescentBoundary boundary.arena worker, .boundary (.ok k)) :: after ∧
    boundary.generation.toNat = 1 + resets boundary.arena before
  views : ∀ before a worker bytes alignment reply v after,
    trace = before ++ (.tryAllocate a worker bytes alignment reply, .view (.ok v)) :: after →
    v.arena = some a ∧ v.generation.toNat = 1 + resets a before ∧
      ∃ x, w.arenas.get? a = some x

theorem generation_step (h : Dated trace w) (heff : Effect w c o w')
    (hx' : w'.arenas.get? a = some x') :
    x'.generation.toNat = 1 + resets a (trace ++ [(c, o)]) := by
  rw [resets_append, resets_singleton]
  rcases heff.arenas a x' hx' with ⟨hn, hf⟩ | ⟨x, hx, hk⟩
  · rw [(heff.unborn a hn).1, h.unborn a hn, hf]
    rfl
  have hold := h.generation a x hx
  cases hk with
  | idle hreset _ hsame =>
    rw [hreset, (unpinned_eq hsame).2.2.2, hold]
    rfl
  | allocated hc hout _ halloc =>
    subst hc hout
    rw [halloc.generation_eq, hold]
    rfl
  | reset hc hout _ _ _ _ hl hnext =>
    subst hc hout
    rw [hnext, isReset_self, if_pos rfl]
    unfold sizeMax at hl
    bv_omega

theorem dated_step (h : Dated trace w) (heff : Effect w c o w') : Dated (trace ++ [(c, o)]) w' := by
  refine ⟨fun a x' hx' => generation_step h heff hx', ?_, ?_, ?_⟩
  · intro a hn
    have hpre : w.arenas.get? a = none := by
      cases hx : w.arenas.get? a with
      | none => rfl
      | some x =>
        obtain ⟨x', hx'⟩ := heff.kept a x hx
        rw [hn] at hx'
        cases hx'
    rw [resets_append, resets_singleton, h.unborn a hpre, (heff.unborn a hpre).1]
    rfl
  · intro k boundary hk
    rcases heff.boundaries k boundary hk with hold | ⟨worker, x, hc, ho, hx, hgen⟩
    · obtain ⟨before, worker, after, htrace, hdate⟩ := h.issued k boundary hold
      exact ⟨before, worker, after ++ [(c, o)], by rw [htrace]; simp, hdate⟩
    refine ⟨trace, worker, [], by rw [hc, ho], ?_⟩
    rw [hgen]
    exact h.generation _ x hx
  intro before a worker bytes alignment reply v after htrace
  rcases Runs.append_singleton_cases htrace with ⟨hpre, he, _⟩ | ⟨rest, hold, _⟩
  · cases he
    obtain ⟨x, hx, harena, hgen⟩ := heff.views a worker bytes alignment reply v rfl rfl
    refine ⟨harena, ?_, heff.kept a x hx⟩
    rw [hgen, hpre]
    exact h.generation a x hx
  · obtain ⟨harena, hgen, x, hx⟩ := h.views _ _ _ _ _ _ _ _ hold
    exact ⟨harena, hgen, heff.kept a x hx⟩

theorem run_dated (h : Runs.Run system {} trace w) : Dated trace w := by
  have hboth : Sound w ∧ Dated trace w := by
    apply h.history (P := fun trace w => Sound w ∧ Dated trace w)
    · intro trace s c o t hs hl hstep
      have heff := effect_of_step hs.1 hl hstep
      exact ⟨heff.sound, dated_step hs.2 heff⟩
    refine ⟨empty_sound, ?_, fun _ _ => rfl, ?_, ?_⟩
    · intro a x hx
      simp [Table.empty, Table.get?] at hx
    · intro k boundary hk
      simp at hk
    · intro before a worker bytes alignment reply v after htrace
      simp at htrace
  exact hboth.2

/-- Pins, boundaries and views across any interleaving: the pin count of an
arena is the number of pins that refer to it, a reset needs no pins and a
boundary issued since the last reset, the generation counts the resets, and a
view is good exactly until its arena is reset. -/
theorem arena_generations_sound (h : Runs.Run World.system {} trace w) :
    (∀ a x, w.arenas.get? a = some x →
      x.livePins.toNat = (w.pins.values.filter (fun p => p.arena = some a)).card) ∧
    (∀ a worker k reply w', w.Legal (.reset a worker k reply) →
      w.step (.reset a worker k reply) = some (.done (.ok ()), w') →
      w.pins.values.filter (fun p => p.arena = some a) = 0 ∧
      ∃ before issuer after,
        trace = before ++ (.quiescentBoundary a issuer, .boundary (.ok k)) :: after ∧
        resets a after = 0) ∧
    (∀ a x, w.arenas.get? a = some x → x.generation.toNat = 1 + resets a trace) ∧
    (∀ before a worker bytes alignment reply v after,
      trace = before ++ (.tryAllocate a worker bytes alignment reply, .view (.ok v)) :: after →
      (resets a after = 0 → w.viewBytes v = some (.ok v.bytes)) ∧
      (resets a after ≠ 0 → ∃ e, w.viewBytes v = some (.error e))) := by
  have hs := run_sound h
  have hdated := run_dated h
  have hpins : ∀ a x, w.arenas.get? a = some x →
      x.livePins.toNat = (w.pins.values.filter (fun p => p.arena = some a)).card := by
    intro a x hx
    rw [hs.pins.count a x hx, pinCount, Multiset.countP_eq_card_filter]
  refine ⟨hpins, ?_, hdated.generation, ?_⟩
  · intro a worker k reply w' hlegal hstep
    obtain ⟨x, hx⟩ := hlegal.1
    obtain ⟨x', _, hkind⟩ := (effect_of_step hs hlegal hstep).arena_step hx
    cases hkind with
    | idle hreset =>
      rw [isReset_self] at hreset
      cases hreset
    | allocated hcall => cases hcall
    | reset hcall houtput hissued harena hgeneration hnone hlast hnext =>
      cases hcall
      have hcount := hpins a x hx
      obtain ⟨before, issuer, after, htrace, hdate⟩ := hdated.issued k _ hissued
      rw [harena] at htrace hdate
      refine ⟨?_, before, issuer, after, htrace, ?_⟩
      · rw [hnone] at hcount
        exact Multiset.card_eq_zero.mp hcount.symm
      have hnow := hdated.generation a x hx
      rw [htrace, resets_append, ← List.singleton_append, resets_append, ← hgeneration,
        hdate] at hnow
      omega
  · intro before a worker bytes alignment reply v after htrace
    obtain ⟨harena, hdate, x, hx⟩ := hdated.views _ _ _ _ _ _ _ _ htrace
    have hnow := hdated.generation a x hx
    have hevent : resets a [(Call.tryAllocate a worker bytes alignment reply,
        Output.view (.ok v))] = 0 := rfl
    rw [htrace, resets_append, ← List.singleton_append, resets_append, hevent] at hnow
    constructor
    · intro hnone
      have hsame : v.generation = x.generation := BitVec.eq_of_toNat_eq (by omega)
      simp [viewBytes, harena, hx, viewFor, hsame]
    intro hsome
    have hdifferent : v.generation ≠ x.generation := by
      intro hsame
      rw [hsame] at hdate
      omega
    simp [viewBytes, harena, hx, viewFor, hdifferent]

theorem arena_generations_sound_reset :
    ∃ trace w, Runs.Run World.system {} trace w ∧ resets 0 trace = 1 ∧
      w.viewBytes ⟨some 0, { data := 4100, size := 8#64 }, 1#64⟩ ≠
        some (.ok { data := 4100, size := 8#64 }) := by
  have hboundary := sampleTrace_run.append (Runs.Run.single
    (i := Call.quiescentBoundary 0 Heap.soleWorker) ⟨_, rfl⟩ rfl)
  have hreset := hboundary.append (Runs.Run.single
    (i := Call.reset 0 Heap.soleWorker 0 (.ok ())) ⟨⟨_, rfl⟩, by decide⟩ rfl)
  refine ⟨_, _, hreset, rfl, ?_⟩
  obtain ⟨e, he⟩ := ((arena_generations_sound hreset).2.2.2 (sampleTrace.take 3) 0 _ 8#64 4#64 _ _
    _ rfl).2 (by decide)
  rw [he]
  exact fun h => by cases h

end Histories

end Laghu.BoundedArenas
