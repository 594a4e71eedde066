import Laghu.NativeMemoryBlocks

/-!
What one call on a pool does to its blocks. A call that needs a block takes the first
one on the free list that is large enough, or a new one behind everything the arena has
handed out; the blocks that are held stay as they were.
-/

namespace Laghu.NativeMemory

open Contract BoundedArenas FlatMemory MemoryWords FreeLists Views Option List List Machine

section

variable {M : Machine} {x : BoundedArena} {live : List LiveBlock} {freed : List ℕ} {p q : ℕ}

section

variable (h : Owned M x live freed)
include h

/-- A store to one word of a header leaves all other words of all headers. -/
theorem Owned.loadWord_store (hp : p ∈ pointersOf live freed) (hq : q ∈ pointersOf live freed)
    {i j : ℕ} (hi : i + 8 ≤ headerSize) (hj : j + 8 ≤ headerSize)
    (ho : p = q → i + 8 ≤ j ∨ j + 8 ≤ i) (m : Memory Cell) (word : ℕ) :
    loadWord (storeWord m (p - headerSize + i) word) (q - headerSize + j) =
      loadWord m (q - headerSize + j) := by
  have hp' := h.header_le hp
  have hq' := h.header_le hq
  apply loadWord_storeWord_of_apart
  by_cases hne : p = q
  · subst hne
    have := ho rfl
    omega
  · rcases h.apart_of_ne hp hq hne with hpre | ha <;> omega

/-- A store to a word of one header leaves all other blocks. -/
theorem Owned.store_outside (hp : p ∈ pointersOf live freed) (hq : q ∈ pointersOf live freed)
    (hne : p ≠ q) {i : ℕ} (hi : i + 8 ≤ headerSize) (m : Memory Cell) (word : ℕ) {a : ℕ}
    (hle : q - headerSize ≤ a) (hlt : a < q + capacityOf M.memory q) :
    storeWord m (p - headerSize + i) word a = m a := by
  have hp' := h.header_le hp
  apply storeWord_outside
  rcases h.apart_of_ne hp hq hne with hpre | ha <;> omega

/-- The same blocks under a new book. -/
theorem Owned.rebook {m' : Memory Cell} {pool' : NativeMemoryPool} {live' : List LiveBlock}
    {freed' : List ℕ} (harena : pool'.arena = M.pool.arena)
    (hgen : pool'.generation = x.generation)
    (hperm : (pointersOf live' freed').Perm (pointersOf live freed))
    (hload : ∀ p ∈ pointersOf live freed,
      loadWord m' (capacityAt (p - headerSize)) = loadWord M.memory (capacityAt (p - headerSize)))
    (hheld : ∀ b ∈ live', Held m' b)
    (hlist : Follows (fun header => loadWord m' (nextAt header)) 0 pool'.freeList
      (freed'.map (· - headerSize))) :
    Owned { M with memory := m', pool := pool' } x live' freed' := by
  have hcap : ∀ p ∈ pointersOf live freed, capacityOf m' p = capacityOf M.memory p :=
    fun p hp => congrArg (Option.getD · 0) (hload p hp)
  refine ⟨h.sound, by rw [harena]; exact h.get, ?_, ?_, hheld, ?_, fun _ => hlist⟩
  · intro p hp
    have hold := hperm.mem_iff.mp hp
    obtain ⟨⟨c, hc⟩, hbase, hstart, hf⟩ := h.placed p hold
    refine ⟨⟨c, (hload p hold).trans hc⟩, hbase, hstart, ?_⟩
    rw [hcap p hold]
    exact hf
  · have hsymm : Std.Symm (Apart m') := ⟨fun _ _ => Apart.symm⟩
    rw [hperm.pairwise_iff Apart.symm]
    refine h.apart.imp_of_mem ?_
    intro p q hp hq hapart
    unfold Apart at hapart ⊢
    rw [hcap p hp, hcap q hq]
    exact hapart
  · exact fun hne => absurd hgen hne

theorem synchronize_spec :
    ∃ M', M.synchronize = some M' ∧ M'.arenas = M.arenas ∧ M'.memory = M.memory ∧
      M'.pool.arena = M.pool.arena ∧ M'.pool.worker = M.pool.worker ∧
      M'.pool.generation = x.generation ∧ Owned M' x live freed := by
  unfold synchronize
  rw [h.get, bind_eq_bind, bind_some]
  by_cases hgen : M.pool.generation = x.generation
  · rw [if_neg (not_not.mpr hgen)]
    exact ⟨M, rfl, rfl, rfl, rfl, rfl, hgen, h⟩
  obtain ⟨rfl, rfl⟩ := h.stale hgen
  rw [if_pos hgen]
  refine ⟨_, rfl, rfl, rfl, rfl, rfl, rfl, h.sound, h.get, h.placed, h.apart, h.held, ?_, ?_⟩
  · exact fun hne => absurd rfl hne
  · exact fun _ => rfl

end

/-- The search ends, at the first freed block that is large enough or at the end. -/
theorem findFit_spec {m : Memory Cell} (size previous : ℕ) (freed : List ℕ) {head fuel : ℕ}
    (hf : Follows (fun header => loadWord m (nextAt header)) 0 head (freed.map (· - headerSize)))
    (hh : ∀ p ∈ freed, ∃ c, loadWord m (capacityAt (p - headerSize)) = some c)
    (hfuel : freed.length < fuel) :
    (∃ last, findFit m size fuel previous head = some (last, 0)) ∨
      ∃ front p back, freed = front ++ p :: back ∧ p - headerSize ≠ 0 ∧
        findFit m size fuel previous head =
          some ((front.getLast?.map (· - headerSize)).getD previous, p - headerSize) ∧
        size ≤ capacityOf m p := by
  induction freed generalizing head fuel previous with
  | nil =>
    obtain ⟨k, rfl⟩ : ∃ k, fuel = k + 1 := ⟨fuel - 1, by omega⟩
    have hhead : head = 0 := hf
    exact .inl ⟨previous, by rw [findFit, if_pos hhead]⟩
  | cons p rest ih =>
    obtain ⟨k, rfl⟩ : ∃ k, fuel = k + 1 := ⟨fuel - 1, by omega⟩
    obtain ⟨hhead, hne, next, hnext, hr⟩ := hf
    dsimp only at hhead hne hnext
    subst hhead
    obtain ⟨⟨c, hc⟩, hheaders⟩ := forall_mem_cons.mp hh
    rw [findFit, if_neg hne, hc, bind_eq_bind, bind_some]
    split
    · rw [hnext, bind_some]
      have hlen : rest.length < k := by
        rw [length_cons] at hfuel
        omega
      rcases ih _ hr hheaders hlen with hn | ⟨front, q, back, rfl, hq, hfind, hfit⟩
      · exact .inl hn
      refine .inr ⟨p :: front, q, back, rfl, hq, ?_, hfit⟩
      rw [hfind]
      cases front with
      | nil => rfl
      | cons _ _ => rfl
    · rename_i hsmall
      refine .inr ⟨[], p, rest, rfl, hne, rfl, ?_⟩
      rw [capacityOf, hc]
      exact Nat.le_of_not_lt hsmall

/-- The blocks a call does not hand out or take back are as they were. -/
def Untouched (M M' : Machine) (live : List LiveBlock) : Prop :=
  ∀ b ∈ live, ∀ a, b.pointer - headerSize ≤ a → a < b.pointer + capacityOf M.memory b.pointer →
    M'.memory a = M.memory a

variable {back front : List ℕ}

theorem not_mem_of_split (hnodup : (pointersOf live (front ++ p :: back)).Nodup) :
    p ∉ front ++ back := by
  have hfreed := (nodup_append.mp hnodup).2.1
  rw [nodup_middle, nodup_cons] at hfreed
  exact hfreed.1

/-- Linking the block before `p` to the one after it. -/
theorem relink_spec (h : Owned M x live (front ++ p :: back))
    (hgen : M.pool.generation = x.generation) {previous : ℕ}
    (hprev : previous = (front.getLast?.map (· - headerSize)).getD 0) :
    ∃ next m, loadWord M.memory (nextAt (p - headerSize)) = some next ∧
      m = (if previous = 0 then M.memory else storeWord M.memory (nextAt previous) next) ∧
      Follows (fun header => loadWord m (nextAt header)) 0
        (if previous = 0 then next else M.pool.freeList) ((front ++ back).map (· - headerSize)) ∧
      (∀ q ∈ pointersOf live (front ++ p :: back), ∀ i, i + 8 ≤ 16 →
        loadWord m (q - headerSize + i) = loadWord M.memory (q - headerSize + i)) ∧
      ∀ b ∈ live, ∀ a, b.pointer - headerSize ≤ a →
        a < b.pointer + capacityOf M.memory b.pointer → m a = M.memory a := by
  have hmem : ∀ q ∈ front ++ p :: back, q ∈ pointersOf live (front ++ p :: back) :=
    fun q hq => mem_of_freed hq
  have hf := h.list hgen
  obtain ⟨next, hn⟩ := hf.link_of_mem (mem_map_of_mem (mem_append_right front mem_cons_self))
  refine ⟨next, _, hn, rfl, ?_⟩
  cases hl : front.getLast? with
  | none =>
    have hfront : front = [] := getLast?_eq_none_iff.mp hl
    subst hfront
    have h0 : previous = 0 := hprev
    obtain ⟨hhead, hne, j, hj, hback⟩ := hf
    have heq : j = next := some.inj (hj.symm.trans hn)
    subst heq
    rw [if_pos h0, if_pos h0]
    exact ⟨hback, fun _ _ _ _ => rfl, fun _ _ _ _ _ => rfl⟩
  | some r =>
    have hr : r ∈ front := mem_of_getLast? hl
    have hrmem := hmem r (mem_append_left _ hr)
    have hrheader := h.header_le hrmem
    have hprev' : previous = r - headerSize := by rw [hprev, hl]; rfl
    have hnz : previous ≠ 0 := by omega
    have hne : front.map (· - headerSize) ≠ [] := by
      simp only [ne_eq, map_eq_nil_iff]
      rintro rfl
      exact absurd hr not_mem_nil
    rw [if_neg hnz, if_neg hnz, hprev']
    refine ⟨?_, ?_, ?_⟩
    · rw [map_append, map_cons] at hf
      have hnodup : ((front ++ p :: back).map (· - headerSize)).Nodup := by
        refine (nodup_append.mp h.nodup).2.1.map_on ?_
        intro a ha b hb heq
        have := h.header_le (hmem a ha)
        have := h.header_le (hmem b hb)
        omega
      rw [map_append, map_cons] at hnodup
      have hhead : M.pool.freeList =
          if front.map (· - headerSize) = [] then next else M.pool.freeList := (if_neg hne).symm
      rw [map_append, hhead]
      apply hf.unlink hnodup hn
      · intro cell hcell
        rw [getLast?_map, hl] at hcell
        rw [← some.inj hcell]
        exact loadWord_storeWord _ _ _
      intro cell hcell ho
      rw [← map_append] at hcell
      obtain ⟨q, hq, rfl⟩ := mem_map.mp hcell
      have hqmem : q ∈ front ++ p :: back := ((sublist_cons_self p back).append_left front).mem hq
      refine h.loadWord_store hrmem (hmem q hqmem) (by decide) (by decide) ?_ _ _
      rintro rfl
      rw [getLast?_map, hl] at ho
      exact absurd rfl ho
    · intro q hq i hi
      exact h.loadWord_store hrmem hq (by decide) (by unfold headerSize; omega)
        (fun _ => .inr hi) _ _
    intro b hb a hle hlt
    refine h.store_outside hrmem (mem_of_live hb) ?_ (by decide) _ _ hle hlt
    intro heq
    exact (nodup_append.mp h.nodup).2.2 b.pointer (mem_map_of_mem hb) r
      (mem_append_left _ hr) heq.symm

variable {requested alignment bytes : Size} {allocation : MutableByteView} {x' : BoundedArena}

/-- Unlinking a freed block hands it out. -/
theorem reuse_spec (h : Owned M x live (front ++ p :: back))
    (hgen : M.pool.generation = x.generation)
    (hfit : (blockSize requested).toNat ≤ capacityOf M.memory p) :
    ∃ M', M.reuse (blockSize requested).toNat
        ((front.getLast?.map (· - headerSize)).getD 0) (p - headerSize) = some (p, M') ∧
      M'.pool.arena = M.pool.arena ∧ M'.pool.generation = x.generation ∧
      M'.arenas = M.arenas ∧ Owned M' x (⟨p, requested⟩ :: live) (front ++ back) ∧
      Untouched M M' live := by
  have hnodup := h.nodup
  have hp : p ∈ pointersOf live (front ++ p :: back) :=
    mem_of_freed (mem_append_right _ mem_cons_self)
  have hl : ∀ b ∈ live, p ≠ b.pointer := by
    intro b hb heq
    exact (nodup_append.mp hnodup).2.2 b.pointer (mem_map_of_mem hb) p
      (mem_append_right _ mem_cons_self) heq.symm
  have hfresh : p ∉ front ++ back := not_mem_of_split hnodup
  have hptr : p - headerSize + headerSize = p :=
    Nat.sub_add_cancel (le_of_lt (h.header_le hp))
  obtain ⟨next, m, hn, hm, hf, hload, hblocks⟩ := relink_spec h hgen rfl
  have hrun : M.reuse (blockSize requested).toNat
      ((front.getLast?.map (· - headerSize)).getD 0) (p - headerSize) = some (p, { M with
        memory := storeWord (storeWord m (usedAt (p - headerSize)) (blockSize requested).toNat)
          (nextAt (p - headerSize)) 0
        pool := { M.pool with freeList := if (front.getLast?.map (· - headerSize)).getD 0 = 0
          then next else M.pool.freeList } }) := by
    simp only [reuse, hn, bind_eq_bind, bind_some, hptr, hm]
    rfl
  have ho : ∀ q ∈ pointersOf live (front ++ p :: back), ∀ i, i + 8 ≤ headerSize → p ≠ q →
      loadWord (storeWord (storeWord m (usedAt (p - headerSize)) (blockSize requested).toNat)
        (nextAt (p - headerSize)) 0) (q - headerSize + i) = loadWord m (q - headerSize + i) := by
    intro q hq i hi hne
    exact (h.loadWord_store hp hq (by decide) hi (fun heq => absurd heq hne) _ _).trans
      (h.loadWord_store hp hq (by decide) hi (fun heq => absurd heq hne) _ _)
  have hself : ∀ q ∈ pointersOf live (front ++ p :: back),
      loadWord (storeWord (storeWord m (usedAt (p - headerSize)) (blockSize requested).toNat)
        (nextAt (p - headerSize)) 0) (capacityAt (q - headerSize)) =
      loadWord M.memory (capacityAt (q - headerSize)) := by
    intro q hq
    exact (h.loadWord_store (j := 0) hp hq (by decide) (by decide) (fun _ => by decide) _ _).trans
      ((h.loadWord_store (j := 0) hp hq (by decide) (by decide) (fun _ => by decide) _ _).trans
        (hload q hq 0 (by decide)))
  refine ⟨_, hrun, rfl, hgen, rfl, h.rebook rfl hgen ?_ hself ?_ ?_, ?_⟩
  · have hsplit : pointersOf live (front ++ p :: back) =
        (live.map LiveBlock.pointer ++ front) ++ p :: back := (append_assoc _ _ _).symm
    have hjoin : pointersOf (⟨p, requested⟩ :: live) (front ++ back) =
        p :: (live.map LiveBlock.pointer ++ front ++ back) := by
      rw [pointersOf, map_cons, cons_append, append_assoc]
    rw [hsplit, hjoin]
    exact perm_middle.symm
  · intro b hb
    rcases mem_cons.mp hb with rfl | hb
    · refine ⟨?_, ?_⟩
      · have hwords : nextAt (p - headerSize) + 8 ≤ usedAt (p - headerSize) ∨
            usedAt (p - headerSize) + 8 ≤ nextAt (p - headerSize) := .inr (le_refl _)
        exact (loadWord_storeWord_of_apart hwords).trans (loadWord_storeWord _ _ _)
      · exact le_trans hfit (le_of_eq (congrArg (Option.getD · 0) (hself p hp)).symm)
    obtain ⟨hused, hlarge⟩ := h.held b hb
    refine ⟨(ho _ (mem_of_live hb) 8 (by decide) (hl b hb)).trans
      ((hload _ (mem_of_live hb) 8 (by decide)).trans hused), ?_⟩
    exact le_trans hlarge
      (le_of_eq (congrArg (Option.getD · 0) (hself _ (mem_of_live hb))).symm)
  · refine hf.congr ?_
    intro cell hcell
    obtain ⟨q, hq, rfl⟩ := mem_map.mp hcell
    refine ho q (mem_of_freed ?_) 16 (by decide) ?_
    · exact ((sublist_cons_self _ _).append_left _).mem hq
    · rintro rfl
      exact hfresh hq
  · intro b hb a hle hlt
    exact (h.store_outside hp (mem_of_live hb) (hl b hb) (by decide) _ _ hle hlt).trans
      ((h.store_outside hp (mem_of_live hb) (hl b hb) (by decide) _ _ hle hlt).trans
        (hblocks b hb a hle hlt))

/-- A new block that overlaps no other. -/
theorem Owned.add (h : Owned M x live freed) (hgen : M.pool.generation = x.generation)
    (hplaced : Placed M.memory x p) (hheld : Held M.memory ⟨p, requested⟩)
    (hapart : ∀ q ∈ pointersOf live freed, Apart M.memory p q) :
    Owned M x (⟨p, requested⟩ :: live) freed := by
  have hpointers : pointersOf (⟨p, requested⟩ :: live) freed = p :: pointersOf live freed := rfl
  refine ⟨h.sound, h.get, ?_, ?_, forall_mem_cons.mpr ⟨hheld, h.held⟩, ?_, h.list⟩
  · rw [hpointers]
    exact forall_mem_cons.mpr ⟨hplaced, h.placed⟩
  · rw [hpointers]
    exact pairwise_cons.mpr ⟨hapart, h.apart⟩
  · exact fun hne => absurd hgen hne

/-- The words of a new header. -/
theorem initializeHeader_words (m : Memory Cell) (header size : ℕ) :
    loadWord (initializeHeader m header size) (capacityAt header) = some size ∧
      loadWord (initializeHeader m header size) (usedAt header) = some size := by
  unfold initializeHeader capacityAt usedAt nextAt
  refine ⟨?_, ?_⟩
  · rw [loadWord_storeWord_of_apart (by omega), loadWord_storeWord_of_apart (by omega),
      loadWord_storeWord]
  · rw [loadWord_storeWord_of_apart (by omega), loadWord_storeWord]

theorem initializeHeader_outside {m : Memory Cell} {header size a : ℕ}
    (ha : a < header ∨ header + headerSize ≤ a) :
    initializeHeader m header size a = m a := by
  unfold headerSize at ha
  unfold initializeHeader capacityAt usedAt nextAt
  rw [storeWord_outside (by omega), storeWord_outside (by omega), storeWord_outside (by omega)]

theorem Owned.storage_of_block (h : Owned M x live freed)
    (halloc : Allocated x x' bytes alignment allocation)
    (hsome : pointersOf live freed ≠ []) : x'.storage = x.storage := by
  obtain ⟨p, hp⟩ := exists_mem_of_ne_nil _ hsome
  have hplaced := h.placed p hp
  have hs := h.sound.shape _ _ h.get
  have hoff := hs.offset_le
  have hstart := hplaced.start
  have hf := hplaced.fits
  apply halloc.base
  intro he
  have hcap : x.capacity.toNat = 0 := (size_eq_zero _).mp he
  unfold headerSize at hstart
  omega

/-- A range the arena hands out becomes a block. -/
theorem Owned.carved (h : Owned M x live freed) (hgen : M.pool.generation = x.generation)
    {arenas : BoundedArenas.World}
    (hs : BoundedArenas.Sound arenas) (hget : arenas.arenas.get? M.pool.arena = some x')
    (halloc : Allocated x x' bytes alignment allocation)
    (hb : bytes.toNat = headerSize + (blockSize requested).toNat) :
    allocation.data + headerSize ∉ pointersOf live freed ∧
    Owned { M with
        arenas := arenas
        memory := initializeHeader M.memory allocation.data (blockSize requested).toNat }
      x' (⟨allocation.data + headerSize, requested⟩ :: live) freed ∧
    ∀ q ∈ pointersOf live freed, ∀ a, q - headerSize ≤ a → a < q + capacityOf M.memory q →
      initializeHeader M.memory allocation.data (blockSize requested).toNat a =
        M.memory a := by
  obtain ⟨start, hdata, _, hbehind, hend⟩ := halloc.place
  have hpos := blockSize_pos requested
  have hshape := halloc.shape
  have hoff := hshape.offset_le
  have hcap := hshape.capacity_le
  have hfull : x'.capacity ≠ 0#64 := by
    intro he
    have h0 : x'.capacity.toNat = 0 := (size_eq_zero _).mp he
    omega
  have hst := hshape.storage_size hfull
  have hbase : 0 < x'.storage.data := by
    refine Nat.pos_of_ne_zero fun hnull => ?_
    have hsize := x'.storage.valid hnull
    have h0 : x'.storage.size.toNat = 0 := (size_eq_zero _).mp hsize
    omega
  have hpre : ∀ q ∈ pointersOf live freed, q + capacityOf M.memory q ≤ allocation.data := by
    intro q hq
    have hf := (h.placed q hq).fits
    rw [hdata, h.storage_of_block halloc (ne_nil_of_mem hq)]
    omega
  have hkeep : ∀ q ∈ pointersOf live freed, ∀ a, q - headerSize ≤ a →
      a < q + capacityOf M.memory q →
      initializeHeader M.memory allocation.data (blockSize requested).toNat a =
        M.memory a := by
    intro q hq a _ hlt
    have := hpre q hq
    exact initializeHeader_outside (by omega)
  have ho := (h.with_arena hs hget halloc.generation_eq (h.storage_of_block halloc)
    (by omega)).write fun q hq a hle hlt => hkeep q hq a hle (by omega)
  obtain ⟨hcapacityWord, husedWord⟩ :=
    initializeHeader_words M.memory allocation.data (blockSize requested).toNat
  have hsub : allocation.data + headerSize - headerSize = allocation.data := by omega
  have hcapacityOf : capacityOf (initializeHeader M.memory allocation.data
      (blockSize requested).toNat) (allocation.data + headerSize) =
      (blockSize requested).toNat := by
    rw [capacityOf, hsub, hcapacityWord]
    rfl
  refine ⟨?_, ho.add ?_ ?_ ?_ ?_, hkeep⟩
  · intro hmem
    have := hpre _ hmem
    unfold headerSize at this
    omega
  · exact hgen.trans halloc.generation_eq.symm
  · refine ⟨⟨_, by rw [hsub]; exact hcapacityWord⟩, hbase, by omega, ?_⟩
    rw [hcapacityOf]
    omega
  · exact ⟨by dsimp only; rw [hsub]; exact husedWord, le_of_eq hcapacityOf.symm⟩
  intro q hq
  have := hpre q hq
  have hq' : capacityOf (initializeHeader M.memory allocation.data
      (blockSize requested).toNat) q = capacityOf M.memory q :=
    capacityOf_of_agree (le_of_lt (h.header_le hq)) fun a hle hlt =>
      hkeep q hq a hle (by omega)
  refine .inr ?_
  rw [hq']
  omega

end

end Laghu.NativeMemory
