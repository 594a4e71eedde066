import Laghu.ArenaGenerations
import Laghu.NativeMemoryCalls

/-!
The effect of the four allocation functions on the book of blocks. None of them has
undefined behaviour on a pointer that is held, the search of the free list ends, and
every function leaves a book that agrees with the machine.
-/

namespace Laghu.NativeMemory

open Contract BoundedArenas FlatMemory MemoryWords Views List Option List Machine

/-- What an allocation of `requested` bytes did. -/
structure Allocates (M : Machine) (x : BoundedArena) (live : List LiveBlock) (freed : List ℕ)
    (requested : Size) (result : ℕ) (M' : Machine) (x' : BoundedArena) : Prop where
  arena_eq : M'.pool.arena = M.pool.arena
  current : M'.pool.generation = x'.generation
  generation_eq : x'.generation = x.generation
  outcome : (result = 0 ∧ M'.memory = M.memory ∧ Owned M' x' live freed) ∨
    (result ≠ 0 ∧ Owned M' x' (⟨result, requested⟩ :: live) (freed.erase result) ∧
      Untouched M M' live)

section

variable {M : Machine} {x : BoundedArena} {live : List LiveBlock} {freed : List ℕ} {p q : ℕ}

/-- Freed blocks have different addresses in the storage, so there are not too many. -/
theorem Owned.length_freed_lt (h : Owned M x live freed) : freed.length < listBound := by
  have hnodup := (nodup_append.mp h.nodup).2.1
  have hrange : freed ⊆ range' (x.storage.data + 1) x.offset.toNat := by
    intro p hp
    have hstart := (h.placed p (mem_of_freed hp)).start
    have hf := (h.placed p (mem_of_freed hp)).fits
    unfold headerSize at hstart
    rw [mem_range'_1]
    omega
  have hlen := (subperm_of_subset hnodup hrange).length_le
  rw [length_range'] at hlen
  have hoff := x.offset.isLt
  unfold listBound
  omega

theorem carve_spec (h : Owned M x live freed) (hgen : M.pool.generation = x.generation)
    (requested : Size) (reply : Result MutableByteView) :
    ∃ result M' x', M.carve (blockSize requested) reply = some (result, M') ∧
      Allocates M x live freed requested result M' x' := by
  unfold carve
  split
  · exact ⟨0, M, x, rfl, rfl, hgen, rfl, .inl ⟨rfl, rfl, h⟩⟩
  rename_i hl
  have hbytes : (BitVec.ofNat 64 headerSize + blockSize requested).toNat =
      headerSize + (blockSize requested).toNat := by
    unfold sizeMax headerSize at hl
    unfold headerSize
    bv_omega
  have hnz : BitVec.ofNat 64 headerSize + blockSize requested ≠ 0#64 := by
    rw [ne_eq, size_eq_zero, hbytes]
    unfold headerSize
    omega
  obtain ⟨o, arenas, hstep, heff⟩ := allocation_effect h.sound h.get M.pool.worker
    (BitVec.ofNat 64 headerSize + blockSize requested) 16#64 reply
  obtain ⟨x', hget, harena⟩ := heff.arena_step h.get
  rw [hstep, bind_eq_bind, bind_some]
  cases harena with
  | idle hreset hallocation hsame =>
    obtain ⟨hst, _, hoff, hsame⟩ := unpinned_eq hsame
    have howned := h.with_arena heff.sound hget hsame (fun _ => hst) (by rw [hoff])
    have hnull : Allocates M x live freed requested 0 { M with arenas := arenas } x' :=
      ⟨rfl, hgen.trans hsame.symm, hsame, .inl ⟨rfl, rfl, howned⟩⟩
    cases o with
    | view result =>
      cases result with
      | ok view => simp [isAllocation, hnz] at hallocation
      | error e => exact ⟨0, _, x', rfl, hnull⟩
    | _ => exact ⟨0, _, x', rfl, hnull⟩
  | @allocated _ _ _ _ allocation hc hout _ halloc =>
    cases hc
    subst hout
    obtain ⟨hfresh, howned, hkeep⟩ := h.carved hgen heff.sound hget halloc hbytes
    have hview : arenas.viewBytes
        { arena := some M.pool.arena, bytes := allocation, generation := x.generation } =
        some (.ok allocation) := by
      simp [World.viewBytes, hget, BoundedArena.viewFor, halloc.generation_eq]
    dsimp only
    rw [hview, bind_eq_bind, bind_some]
    refine ⟨_, _, x', rfl, rfl, hgen.trans halloc.generation_eq.symm,
      halloc.generation_eq, .inr ⟨?_, ?_, ?_⟩⟩
    · unfold headerSize
      omega
    · rw [erase_of_not_mem fun hmem => hfresh (mem_of_freed hmem)]
      exact howned
    · intro b hb a hle hlt
      exact hkeep _ (mem_of_live hb) a hle hlt
  | reset hc => cases hc

theorem arenaMalloc_eq {M₁ : Machine} (hsync : M.synchronize = some M₁) (requested : Size)
    (reply : Result MutableByteView) :
    M.arenaMalloc requested reply =
      (findFit M₁.memory (blockSize requested).toNat listBound 0 M₁.pool.freeList).bind
        fun found => if found.2 ≠ 0 then M₁.reuse (blockSize requested).toNat found.1 found.2
          else M₁.carve (blockSize requested) reply := by
  rw [arenaMalloc, hsync]
  rfl

theorem arenaMalloc_spec (h : Owned M x live freed) (requested : Size)
    (reply : Result MutableByteView) :
    ∃ result M' x', M.arenaMalloc requested reply = some (result, M') ∧
      Allocates M x live freed requested result M' x' := by
  obtain ⟨M₁, hsync, _, hmemory, harena, _, hgen, h₁⟩ := synchronize_spec h
  have hspec : ∃ result M' x', M.arenaMalloc requested reply = some (result, M') ∧
      Allocates M₁ x live freed requested result M' x' := by
    rw [arenaMalloc_eq hsync]
    rcases findFit_spec (blockSize requested).toNat 0 freed (h₁.list hgen)
      (fun p hp => (h₁.placed p (mem_of_freed hp)).header)
      h₁.length_freed_lt with ⟨last, hfind⟩ | ⟨front, p, back, rfl, hp, hfind, hfit⟩
    · rw [hfind, bind_some, if_neg (not_not.mpr rfl)]
      exact carve_spec h₁ hgen requested reply
    obtain ⟨M', hreuse, harena', hgen', _, howned, huntouched⟩ :=
      reuse_spec h₁ hgen hfit
    have hfresh := not_mem_of_split h₁.nodup
    rw [hfind, bind_some, if_pos hp]
    refine ⟨p, M', x, hreuse, harena', hgen', rfl, .inr ⟨?_, ?_, huntouched⟩⟩
    · omega
    · rw [erase_append_right _ fun hmem => hfresh (mem_append_left _ hmem), erase_cons_head]
      exact howned
  obtain ⟨result, M', x', hrun, halloc⟩ := hspec
  refine ⟨result, M', x', hrun, halloc.arena_eq.trans harena, halloc.current,
    halloc.generation_eq, ?_⟩
  have hout := halloc.outcome
  unfold Untouched at hout ⊢
  rw [hmemory] at hout
  exact hout

/-- Giving a block back moves it from one list of the book to the other. -/
theorem pointersOf_return (hnodup : (pointersOf live freed).Nodup)
    (hl : ∃ b ∈ live, b.pointer = p) :
    (pointersOf (live.filter (·.pointer ≠ p)) (p :: freed)).Perm (pointersOf live freed) := by
  have hmem : p ∈ live.map LiveBlock.pointer := mem_map.mpr hl
  have hfilter : (live.filter (·.pointer ≠ p)).map LiveBlock.pointer =
      (live.map LiveBlock.pointer).erase p := by
    rw [(nodup_append.mp hnodup).1.erase_eq_filter, List.filter_map]
    congr 1
    apply filter_congr
    intro b _
    by_cases heq : b.pointer = p <;> simp [heq]
  unfold pointersOf
  rw [hfilter]
  exact perm_middle.trans ((perm_cons_erase hmem).symm.append_right freed)

theorem arenaFree_spec (h : Owned M x live freed) (hl : ∃ b ∈ live, b.pointer = p) :
    ∃ M', M.arenaFree p = some M' ∧ M'.arenas = M.arenas ∧ M'.pool.arena = M.pool.arena ∧
      M'.pool.generation = x.generation ∧
      Owned M' x (live.filter (·.pointer ≠ p)) (p :: freed) ∧
      Untouched M M' (live.filter (·.pointer ≠ p)) := by
  obtain ⟨M₁, hsync, ha, hmemory, harena, _, hgen, h₁⟩ := synchronize_spec h
  have hp : p ∈ pointersOf live freed := mem_pointersOf.mpr (.inl hl)
  have hh := h₁.header_le hp
  have hload : ∀ q ∈ pointersOf live freed, ∀ i, i + 8 ≤ 16 →
      loadWord (storeWord M₁.memory (nextAt (p - headerSize)) M₁.pool.freeList)
        (q - headerSize + i) = loadWord M₁.memory (q - headerSize + i) := by
    intro q hq i hi
    exact h₁.loadWord_store hp hq (by decide) (by unfold headerSize; omega) (fun _ => .inr hi) _ _
  unfold arenaFree
  rw [if_neg (by omega), hsync, bind_eq_bind, bind_some]
  refine ⟨_, rfl, ha, harena, hgen, h₁.rebook rfl hgen
    (pointersOf_return h₁.nodup hl) (fun q hq => hload q hq 0 (by decide)) ?_ ?_, ?_⟩
  · intro b hb
    have hb := (mem_filter.mp hb).1
    obtain ⟨hused, hlarge⟩ := h₁.held b hb
    refine ⟨(hload _ (mem_of_live hb) 8 (by decide)).trans hused, le_trans hlarge ?_⟩
    exact le_of_eq (congrArg (Option.getD · 0) (hload _ (mem_of_live hb) 0 (by decide))).symm
  · refine ⟨rfl, by dsimp only; omega, M₁.pool.freeList, loadWord_storeWord _ _ _, ?_⟩
    refine (h₁.list hgen).congr ?_
    intro cell hcell
    obtain ⟨q, hq, rfl⟩ := mem_map.mp hcell
    refine h₁.loadWord_store (j := 16) hp (mem_of_freed hq) (by decide) (by decide) ?_ _ _
    rintro rfl
    obtain ⟨b, hb, hbp⟩ := hl
    exact absurd hbp ((nodup_append.mp h₁.nodup).2.2 b.pointer (mem_map_of_mem hb) p hq)
  · intro b hb a hle hlt
    obtain ⟨hb, hne⟩ := mem_filter.mp hb
    have hother : b.pointer ≠ p := of_decide_eq_true hne
    rw [← hmemory] at hlt ⊢
    exact h₁.store_outside hp (mem_of_live hb) hother.symm (by decide) _ _ hle hlt

variable {b : LiveBlock} {x' : BoundedArena}

/-- A change inside one payload leaves every header. -/
theorem Owned.fill (h : Owned M x live freed) (hb : b ∈ live) {m' : Memory Cell}
    (hm : ∀ a, a < b.pointer ∨ b.pointer + b.requested.toNat ≤ a → m' a = M.memory a) :
    Owned { M with memory := m' } x live freed := by
  have hl := le_trans (requested_le_blockSize b.requested) (h.held b hb).large
  apply h.write
  intro q hq a hle hlt
  apply hm
  by_contra hin
  exact h.payload_outside (mem_of_live hb) hq (a := a) (by omega) (by omega) hle hlt rfl

/-- No byte of another block is inside a payload. -/
theorem Owned.not_in_other (h : Owned M x live freed) (hb : b ∈ live)
    (hq : q ∈ pointersOf live freed) (hne : b.pointer ≠ q) {a : ℕ} (hle : q - headerSize ≤ a)
    (hlt : a < q + capacityOf M.memory q) : a < b.pointer ∨ b.pointer + b.requested.toNat ≤ a := by
  have hl := le_trans (requested_le_blockSize b.requested) (h.held b hb).large
  rcases h.apart_of_ne (mem_of_live hb) hq hne with hpre | ha <;> omega

theorem Untouched.capacity_eq {M' : Machine} (huntouched : Untouched M M' live)
    (h : Owned M x live freed) (hb : b ∈ live) :
    capacityOf M'.memory b.pointer = capacityOf M.memory b.pointer :=
  capacityOf_of_agree (le_of_lt (h.header_le (mem_of_live hb)))
    fun a hle hlt => huntouched b hb a hle (by omega)

theorem Owned.pointer_ne {c : LiveBlock} (h : Owned M x (b :: live) freed) (hc : c ∈ live) :
    b.pointer ≠ c.pointer := by
  have hnodup := (nodup_append.mp h.nodup).1
  rw [map_cons, nodup_cons] at hnodup
  intro heq
  exact hnodup.1 (mem_map.mpr ⟨c, hc, heq.symm⟩)

/-- Filling a new block leaves the others as they were. -/
theorem Untouched.fill (h : Owned M x live freed) {M' : Machine}
    {freed' : List ℕ} (huntouched : Untouched M M' live) (h' : Owned M' x' (b :: live) freed')
    {m' : Memory Cell}
    (hm : ∀ a, a < b.pointer ∨ b.pointer + b.requested.toNat ≤ a → m' a = M'.memory a) :
    Untouched M { M' with memory := m' } live := by
  intro c hc a hle hlt
  refine (hm a (h'.not_in_other mem_cons_self (mem_of_live (mem_cons_of_mem _ hc))
    (h'.pointer_ne hc) hle ?_)).trans (huntouched c hc a hle hlt)
  rw [huntouched.capacity_eq h hc]
  exact hlt

theorem calloc_overflows (count size : Size) :
    (count ≠ 0#64 ∧ size > sizeMax / count) ↔ 2 ^ 64 ≤ count.toNat * size.toNat := by
  have hmax : sizeMax.toNat = 2 ^ 64 - 1 := rfl
  by_cases h0 : count = 0#64
  · subst h0
    simp
  have hpos : 0 < count.toNat := by
    have := (size_eq_zero count).not.mp h0
    omega
  rw [gt_iff_lt, BitVec.lt_def, BitVec.toNat_udiv, Nat.div_lt_iff_lt_mul hpos, hmax,
    mul_comm size.toNat]
  constructor
  · intro hlt
    omega
  · intro hle
    exact ⟨h0, by omega⟩

variable {size count : Size}

theorem arenaCalloc_overflow (hover : 2 ^ 64 ≤ count.toNat * size.toNat)
    (reply : Result MutableByteView) : M.arenaCalloc count size reply = some (0, M) := by
  rw [arenaCalloc, if_pos ((calloc_overflows count size).mpr hover)]

theorem arenaCalloc_spec (h : Owned M x live freed) (hf : ¬2 ^ 64 ≤ count.toNat * size.toNat)
    (reply : Result MutableByteView) :
    ∃ result M' x', M.arenaCalloc count size reply = some (result, M') ∧
      Allocates M x live freed (count * size) result M' x' ∧
      (result ≠ 0 → slice M'.memory result (count * size).toNat =
        replicate (count * size).toNat (.byte 0#8)) := by
  rw [← calloc_overflows] at hf
  obtain ⟨result, M₁, x', hmalloc, halloc⟩ := arenaMalloc_spec h (count * size) reply
  rw [arenaCalloc, if_neg hf]
  dsimp only
  rw [hmalloc, bind_eq_bind, bind_some]
  rcases halloc.outcome with ⟨hnull, hout⟩ | ⟨hresult, howned, huntouched⟩
  · refine ⟨result, M₁, x', ?_, halloc, fun hne => absurd hnull hne⟩
    rw [if_neg (not_not.mpr hnull)]
    rfl
  have hfilled : ∀ a, a < result ∨ result + (count * size).toNat ≤ a →
      storeCells M₁.memory result (replicate (count * size).toNat (.byte 0#8)) a =
        M₁.memory a :=
    fun a ha => storeCells_outside (by rw [length_replicate]; exact ha)
  rw [if_pos hresult]
  refine ⟨result, _, x', rfl, ⟨halloc.arena_eq, halloc.current,
    halloc.generation_eq, .inr ⟨hresult, howned.fill mem_cons_self hfilled,
      huntouched.fill h howned hfilled⟩⟩, ?_⟩
  intro _
  have hslice := slice_storeCells M₁.memory result (replicate (count * size).toNat (.byte 0#8))
  rwa [length_replicate] at hslice

/-- What `realloc` of a block that is held to a new size did. -/
inductive Reallocates (M : Machine) (live : List LiveBlock) (freed : List ℕ) (b : LiveBlock)
    (size : Size) (result : ℕ) (M' : Machine) (x' : BoundedArena) : Prop
  | resized (hresult : result = b.pointer)
      (howned : Owned M' x' (⟨b.pointer, size⟩ :: live.filter (·.pointer ≠ b.pointer)) freed)
  | failed (hresult : result = 0) (hmemory : M'.memory = M.memory) (howned : Owned M' x' live freed)
  | moved (hresult : result ≠ 0) (hother : result ≠ b.pointer)
      (howned : Owned M' x' ((⟨result, size⟩ :: live).filter (·.pointer ≠ b.pointer))
        (b.pointer :: freed.erase result))

variable (h : Owned M x live freed)
include h

theorem Owned.generation_of_live (hb : b ∈ live) : M.pool.generation = x.generation := by
  by_contra hne
  rw [(h.stale hne).1] at hb
  exact not_mem_nil hb

/-- Changing the used word of a block that stays where it is. -/
theorem Owned.resize (hb : b ∈ live) (hsize : size ≠ 0#64)
    (hf : size.toNat ≤ capacityOf M.memory b.pointer) :
    Owned { M with memory := storeWord M.memory (usedAt (b.pointer - headerSize)) size.toNat } x
      (⟨b.pointer, size⟩ :: live.filter (·.pointer ≠ b.pointer)) freed := by
  have hp : b.pointer ∈ pointersOf live freed := mem_of_live hb
  have hblock : blockSize size = size := if_neg hsize
  have hcap : ∀ q ∈ pointersOf live freed,
      loadWord (storeWord M.memory (usedAt (b.pointer - headerSize)) size.toNat)
        (capacityAt (q - headerSize)) = loadWord M.memory (capacityAt (q - headerSize)) :=
    fun q hq => h.loadWord_store (j := 0) hp hq (by decide) (by decide) (fun _ => by decide) _ _
  refine h.rebook rfl (h.generation_of_live hb) ?_ hcap ?_ ?_
  · exact (pointersOf_return h.nodup ⟨b, hb, rfl⟩).symm.trans perm_middle |>.symm
  · intro c hc
    rcases mem_cons.mp hc with rfl | hc
    · refine ⟨?_, ?_⟩
      · rw [hblock]
        exact loadWord_storeWord _ _ _
      · rw [hblock]
        exact le_trans hf (le_of_eq (congrArg (Option.getD · 0) (hcap _ hp)).symm)
    obtain ⟨hc, hne⟩ := mem_filter.mp hc
    have hother : c.pointer ≠ b.pointer := of_decide_eq_true hne
    obtain ⟨hused, hl⟩ := h.held c hc
    refine ⟨?_, le_trans hl
      (le_of_eq (congrArg (Option.getD · 0) (hcap _ (mem_of_live hc))).symm)⟩
    exact (h.loadWord_store (j := 8) hp (mem_of_live hc) (by decide) (by decide)
      (fun heq => absurd heq.symm hother) _ _).trans hused
  · refine (h.list (h.generation_of_live hb)).congr ?_
    intro cell hcell
    obtain ⟨q, hq, rfl⟩ := mem_map.mp hcell
    exact h.loadWord_store (j := 16) hp (mem_of_freed hq) (by decide) (by decide)
      (fun _ => by decide) _ _

/-- A larger block is filled from the old one, which is then given back. -/
theorem Owned.move (hb : b ∈ live) {M₁ : Machine} {freed' : List ℕ}
    {result : ℕ} (hresult : result ≠ b.pointer) (h₁ : Owned M₁ x' (⟨result, size⟩ :: live) freed')
    (huntouched : Untouched M M₁ live) (hgrown : capacityOf M.memory b.pointer < size.toNat) :
    ∃ used M', loadWord M₁.memory (usedAt (b.pointer - headerSize)) = some used ∧
      arenaFree { M₁ with
        memory := copyForward M₁.memory result b.pointer
          (if used < size.toNat then used else size.toNat) } b.pointer = some M' ∧
      M'.pool.arena = M₁.pool.arena ∧ M'.pool.generation = x'.generation ∧
      Owned M' x' ((⟨result, size⟩ :: live).filter (·.pointer ≠ b.pointer)) (b.pointer :: freed') ∧
      slice M'.memory result b.requested.toNat = slice M.memory b.pointer b.requested.toNat := by
  have hheld := h₁.held b (mem_cons_of_mem _ hb)
  have hcap := huntouched.capacity_eq h hb
  have hl := hheld.large
  have hreq := requested_le_blockSize b.requested
  have hcopied : ∀ a, a < result ∨ result + size.toNat ≤ a →
      copyForward M₁.memory result b.pointer (blockSize b.requested).toNat a = M₁.memory a :=
    fun a ha => copyForward_outside _ _ _ _ _ (by omega)
  have h₂ := h₁.fill mem_cons_self hcopied
  obtain ⟨M', hfree, _, harena, hgen, howned, hr⟩ :=
    arenaFree_spec h₂ ⟨b, mem_cons_of_mem _ hb, rfl⟩
  refine ⟨(blockSize b.requested).toNat, M', hheld.used, ?_, harena, hgen, howned, ?_⟩
  · rw [if_pos (by omega)]
    exact hfree
  have hnew := (h₁.held _ mem_cons_self).large
  have hsize := requested_le_blockSize size
  have hdisjoint : result ≤ b.pointer ∨ b.pointer + (blockSize b.requested).toNat ≤ result := by
    rcases h₁.apart_of_ne (mem_of_live (mem_cons_of_mem _ hb))
      (mem_of_live mem_cons_self) hresult.symm with hpre | hafter
    · dsimp only at hpre
      omega
    · dsimp only at hafter
      omega
  apply slice_congr
  intro i hi
  have hk : M'.memory (result + i) = copyForward M₁.memory result b.pointer
      (blockSize b.requested).toNat (result + i) := by
    refine hr ⟨result, size⟩ (mem_filter.mpr ⟨mem_cons_self, decide_eq_true hresult⟩)
      _ (by dsimp only; omega) ?_
    have hl₂ := (h₂.held _ mem_cons_self).large
    dsimp only at hl₂ ⊢
    omega
  rw [hk, copyForward_inside _ _ _ _ hdisjoint (by omega)]
  exact huntouched b hb _ (by omega) (by omega)

theorem arenaRealloc_spec (hb : b ∈ live) (hsize : size ≠ 0#64) (reply : Result MutableByteView) :
    ∃ result M' x', M.arenaRealloc b.pointer size reply = some (result, M') ∧
      M'.pool.arena = M.pool.arena ∧ M'.pool.generation = x'.generation ∧
      Reallocates M live freed b size result M' x' ∧
      (result ≠ 0 → slice M'.memory result (min b.requested.toNat size.toNat) =
        slice M.memory b.pointer (min b.requested.toNat size.toNat)) := by
  have hp : b.pointer ∈ pointersOf live freed := mem_of_live hb
  have hh := h.header_le hp
  rw [arenaRealloc, if_neg (by omega), if_neg hsize]
  dsimp only
  rw [h.capacity_eq hp, bind_eq_bind, bind_some]
  split
  · rename_i hf
    refine ⟨b.pointer, _, x, rfl, rfl, h.generation_of_live hb,
      .resized rfl (h.resize hb hsize hf), fun _ => slice_congr fun i _ => ?_⟩
    apply storeWord_outside
    unfold usedAt
    unfold headerSize at hh ⊢
    omega
  obtain ⟨result, M₁, x', hmalloc, halloc⟩ := arenaMalloc_spec h size reply
  rw [hmalloc, bind_eq_bind, bind_some]
  rcases halloc.outcome with ⟨hnull, hmemory, howned⟩ | ⟨hresult, howned, huntouched⟩
  · rw [if_pos hnull]
    exact ⟨0, M₁, x', rfl, halloc.arena_eq, halloc.current, .failed rfl hmemory howned,
      fun hne => absurd rfl hne⟩
  have hother : result ≠ b.pointer := howned.pointer_ne hb
  obtain ⟨used, M', hused, hfree, harena, hgen, howned', hslice⟩ :=
    h.move hb hother howned huntouched (by omega)
  rw [if_neg hresult, hused, bind_some, hfree, bind_eq_bind, bind_some]
  have hl := (h.held b hb).large
  have hreq := requested_le_blockSize b.requested
  refine ⟨result, M', x', rfl, harena.trans halloc.arena_eq, hgen,
    .moved hresult hother howned', fun _ => ?_⟩
  rw [Nat.min_eq_left (by omega)]
  exact hslice

end

end Laghu.NativeMemory
