import Laghu.FreeLists
import Laghu.SlabPools
import Mathlib.Data.Multiset.Range

/-!
The free list of one pool. The slots below the capacity are divided between the
free list and the slots that leases hold; the operations move one slot across.
-/

namespace Laghu.SlabPools

open Contract FreeLists List Option Multiset SlabPool
open BitVec (ofNat toNat_inj toNat_ofNat)

variable {T : Type}

namespace Storage

theorem slot?_modify (s : Storage T) (i j : Size) (f : SlabPoolSlot T → SlabPoolSlot T) :
    (s.modify i f).slot? j = if j = i then (s.slot? j).map f else s.slot? j := by
  unfold slot? modify
  rw [getElem?_modify]
  by_cases h : j = i
  · subst h
    simp
  · have hne : i.toNat ≠ j.toNat := fun heq => h (BitVec.eq_of_toNat_eq heq.symm)
    simp [h, hne]

theorem size_toNat (s : Storage T) : s.size.toNat = s.slots.length := by
  rw [size, toNat_ofNat, Nat.mod_eq_of_lt s.fits]

theorem next?_eq {s : Storage T} {i : Size} {slot : SlabPoolSlot T} (h : s.slot? i = some slot) :
    s.next? i = some slot.next := by
  rw [next?, h, map_some]

/-- A write that keeps the link of a slot keeps every list. -/
theorem next?_modify_same (s : Storage T) (i j : Size) (f : SlabPoolSlot T → SlabPoolSlot T)
    (hf : ∀ slot, (f slot).next = slot.next) : (s.modify i f).next? j = s.next? j := by
  rw [next?, slot?_modify]
  split
  · rw [Option.map_map, next?]
    congr 1
    funext slot
    exact hf slot
  · rfl

/-- What the loop of `initialize` writes into slot `i`. -/
def linked (capacity i : Size) (slot : SlabPoolSlot T) : SlabPoolSlot T :=
  { slot with next := if i + 1 = capacity then noSlot else i + 1, occupied := false }

theorem slot?_foldl_link (s : Storage T) (capacity i : Size) {n : ℕ} (hn : n < 2 ^ 64) :
    ((List.range n).foldl (link capacity) s).slot? i =
      (s.slot? i).map (fun slot => if i.toNat < n then linked capacity i slot else slot) := by
  induction n with
  | zero => simp
  | succ n ih =>
    rw [List.range_succ, foldl_append, List.foldl_cons, foldl_nil, link, slot?_modify,
      ih (by omega)]
    have hi : i = ofNat 64 n ↔ i.toNat = n := by
      rw [← toNat_inj, toNat_ofNat, Nat.mod_eq_of_lt (by omega)]
    by_cases h : i = ofNat 64 n
    · have hnat := hi.mp h
      rw [if_pos h, Option.map_map]
      congr 1
      funext slot
      simp [hnat, ← h, linked]
    rw [if_neg h]
    have hnat : i.toNat ≠ n := fun heq => h (hi.mpr heq)
    congr 1
    funext slot
    have hlt : i.toNat < n + 1 ↔ i.toNat < n := by omega
    simp only [hlt]

end Storage

theorem ne_noSlot {i capacity : Size} (h : i.toNat < capacity.toNat) : i ≠ noSlot := by
  intro heq
  rw [heq] at h
  unfold noSlot sizeMax at h
  bv_omega

/-- The free list visits `free`, the leases hold `held`, and together these are
the slots below the capacity. -/
structure Threaded (x : SlabPool T) (held : Multiset Size) (free : List Size) : Prop where
  follows : Follows x.storage.next? noSlot x.freeHead free
  partition : (↑free + held).map BitVec.toNat = Multiset.range x.capacity.toNat
  vacant : ∀ i ∈ free, ∃ slot, x.storage.slot? i = some slot ∧ slot.occupied = false
  taken : ∀ i ∈ held, ∃ slot, x.storage.slot? i = some slot ∧ slot.occupied = true ∧
    ∃ v, slot.object = some v
  count : x.liveLeases.toNat = held.card

/-- Before its first use a pool has no leases and an empty list. -/
structure PoolSound (x : SlabPool T) (held : Multiset Size) : Prop where
  dormant : x.initialized = false → held = 0 ∧ x.liveLeases = 0#64 ∧ x.freeHead = noSlot
  threaded : x.initialized = true → ∃ free, Threaded x held free

section Threading

variable {x : SlabPool T} {held : Multiset Size} {free : List Size}

section

variable (h : Threaded x held free)
include h

theorem Threaded.lt_capacity {i : Size} (hi : i ∈ ↑free + held) : i.toNat < x.capacity.toNat := by
  rw [← Multiset.mem_range, ← h.partition]
  exact Multiset.mem_map_of_mem _ hi

theorem Threaded.mem_of_lt {i : Size} (hi : i.toNat < x.capacity.toNat) : i ∈ free ∨ i ∈ held := by
  rw [← Multiset.mem_range, ← h.partition, Multiset.mem_map] at hi
  obtain ⟨j, hj, heq⟩ := hi
  rw [BitVec.eq_of_toNat_eq heq, mem_add, mem_coe] at hj
  exact hj

theorem Threaded.nodup : ((free : Multiset Size) + held).Nodup := by
  have hrange := nodup_range x.capacity.toNat
  rw [← h.partition] at hrange
  exact hrange.of_map _

theorem Threaded.not_mem_free {i : Size} (hi : i ∈ held) : i ∉ free := by
  intro hfree
  have hdisjoint := (nodup_add.mp h.nodup).2.2
  exact disjoint_left.mp hdisjoint (mem_coe.mpr hfree) hi

theorem Threaded.length_add_card : free.length + held.card = x.capacity.toNat := by
  have hcard := congrArg card h.partition
  rw [card_map, card_add, coe_card, card_range] at hcard
  exact hcard

/-- The slots below the capacity that are not occupied are those of the list. -/
theorem Threaded.mem_free_iff (i : Size) :
    i ∈ free ↔ i.toNat < x.capacity.toNat ∧
      ∃ slot, x.storage.slot? i = some slot ∧ slot.occupied = false := by
  constructor
  · intro hi
    exact ⟨h.lt_capacity (mem_add.mpr (.inl hi)), h.vacant i hi⟩
  rintro ⟨hlt, slot, hslot, hvac⟩
  rcases h.mem_of_lt hlt with hfree | hheld
  · exact hfree
  obtain ⟨slot', hslot', htaken, _⟩ := h.taken i hheld
  rw [hslot, some.injEq] at hslot'
  rw [← hslot', hvac] at htaken
  cases htaken

/-- The first free slot is handed out, and only an empty list turns a request
away. -/
theorem takeSlot_cases (this : ℕ) (v : T) :
    (free = [] ∧ ∃ e, x.takeSlot this v = some (.error e, x)) ∨ ∃ i rest x', free = i :: rest ∧
        x.takeSlot this v = some (.ok ⟨some this, i, some i, true⟩, x') ∧
        x'.initialized = x.initialized ∧ x'.capacity = x.capacity ∧
        Threaded x' (i ::ₘ held) rest := by
  by_cases hhead : x.freeHead = noSlot
  · refine .inl ⟨h.follows.head_eq_stop.mp hhead, ?_⟩
    simp [takeSlot, hhead]
  obtain ⟨next, rest, rfl, hnext, hr⟩ := h.follows.pop hhead
  obtain ⟨slot, hslot, hvac⟩ := h.vacant x.freeHead List.mem_cons_self
  have hlen := h.length_add_card
  rw [length_cons] at hlen
  have hn := h.count
  have hroom : x.liveLeases ≠ x.capacity := by
    intro heq
    rw [heq] at hn
    omega
  have hl : slot.next = next := by
    rw [Storage.next?_eq hslot, some.injEq] at hnext
    exact hnext
  let taken : SlabPoolSlot T → SlabPoolSlot T :=
    fun slot => { slot with object := some v, occupied := true }
  let x' : SlabPool T := { x with
    freeHead := slot.next
    storage := x.storage.modify x.freeHead taken
    liveLeases := x.liveLeases + 1 }
  have hnew : ∀ i, x'.storage.slot? i =
      if i = x.freeHead then (x.storage.slot? i).map taken else x.storage.slot? i :=
    fun i => Storage.slot?_modify x.storage x.freeHead i taken
  refine .inr ⟨x.freeHead, rest, x', rfl, ?_, rfl, rfl, ?_, ?_, ?_, ?_, ?_⟩
  · simp [takeSlot, hhead, hslot, hvac, hroom, x', taken]
  · change Follows x'.storage.next? noSlot slot.next rest
    rw [hl]
    exact hr.congr (fun i _ => Storage.next?_modify_same _ _ _ _ (fun _ => rfl))
  · rw [← h.partition, ← cons_coe, cons_add, add_cons]
  · intro i hi
    have hne : i ≠ x.freeHead := by
      have hnodup := (nodup_add.mp h.nodup).1
      rw [coe_nodup, List.nodup_cons] at hnodup
      intro heq
      exact hnodup.1 (heq ▸ hi)
    rw [hnew, if_neg hne]
    exact h.vacant i (List.mem_cons_of_mem _ hi)
  · intro i hi
    rw [hnew]
    by_cases hne : i = x.freeHead
    · rw [if_pos hne, hne, hslot]
      exact ⟨_, rfl, rfl, v, rfl⟩
    · rw [if_neg hne]
      exact h.taken i ((mem_cons.mp hi).resolve_left hne)
  · change (x.liveLeases + 1).toNat = (x.freeHead ::ₘ held).card
    rw [card_cons]
    have hbound := x.capacity.isLt
    bv_omega

end

/-- A held slot goes back to the front of the list, its object destroyed. -/
theorem releaseUnchecked_slot {lease : Lease} (hr : x.initialized = true)
    (h : Threaded x (lease.index ::ₘ held) free) (hv : lease.value = some lease.index) :
    ∃ x', x.releaseUnchecked lease = some (x', { lease with value := none, active := false }) ∧
      x'.initialized = true ∧ Threaded x' held (lease.index :: free) := by
  have hlt := h.lt_capacity (mem_add.mpr (.inr (mem_cons_self lease.index held)))
  obtain ⟨slot, hslot, htaken, v, hobject⟩ := h.taken lease.index (mem_cons_self _ _)
  have hn := h.count
  rw [card_cons] at hn
  have hl : x.liveLeases ≠ 0#64 := by
    rw [ne_eq, size_eq_zero]
    omega
  have hidx : ¬ x.capacity ≤ lease.index := by
    rw [BitVec.le_def]
    omega
  let vacated : SlabPoolSlot T → SlabPoolSlot T := fun slot => { slot with object := none }
  let freed : SlabPoolSlot T → SlabPoolSlot T :=
    fun slot => { slot with occupied := false, next := x.freeHead }
  let x' : SlabPool T := { x with
    storage := (x.storage.modify lease.index vacated).modify lease.index freed
    freeHead := lease.index
    liveLeases := x.liveLeases - 1 }
  have ho : ∀ i, i ≠ lease.index → x'.storage.slot? i = x.storage.slot? i := by
    intro i hne
    rw [Storage.slot?_modify, if_neg hne, Storage.slot?_modify, if_neg hne]
  have hself : x'.storage.slot? lease.index = some (freed (vacated slot)) := by
    rw [Storage.slot?_modify, if_pos rfl, Storage.slot?_modify, if_pos rfl, hslot]
    rfl
  have hheld : lease.index ∉ held := by
    have hnodup := (nodup_add.mp h.nodup).2.1
    exact (nodup_cons.mp hnodup).1
  have hfree := h.not_mem_free (mem_cons_self lease.index held)
  refine ⟨x', ?_, hr, ?_, ?_, ?_, ?_, ?_⟩
  · simp [releaseUnchecked, hr, hidx, hl, hslot, htaken, hv,
      Storage.destroyAt, hobject, x', freed, vacated]
  · refine h.follows.push (ne_noSlot hlt) (by rw [Storage.next?_eq hself]) ?_
    intro j hj
    have hne : j ≠ lease.index := fun heq => hfree (heq ▸ hj)
    rw [Storage.next?, ho j hne, Storage.next?]
  · rw [← h.partition, ← cons_coe, cons_add, add_cons]
  · intro i hi
    rcases List.mem_cons.mp hi with heq | hold
    · rw [heq]
      exact ⟨_, hself, rfl⟩
    · rw [ho i (fun heq => hfree (heq ▸ hold))]
      exact h.vacant i hold
  · intro i hi
    rw [ho i (fun heq => hheld (heq ▸ hi))]
    exact h.taken i (mem_cons_of_mem hi)
  · change (x.liveLeases - 1).toNat = held.card
    bv_omega

/-- A layout that passes the checks has a slot for every index. -/
theorem checkLayout_ok {b : Build} (h : x.checkLayout b = .ok ()) (hne : x.capacity ≠ 0#64) :
    x.capacity.toNat ≤ x.storage.slots.length := by
  by_contra hsmall
  have hsize : x.storage.size < x.capacity := by
    rw [BitVec.lt_def, Storage.size_toNat]
    omega
  cases hb : requiredStorageBytes b x.capacity with
  | error e => simp [checkLayout, hb] at h
  | ok bytes =>
    simp only [checkLayout, hb, hne, hsize, true_or, if_true, if_false] at h
    split at h
    · cases h
    · split at h <;> cases h

theorem toNat_index {k : ℕ} (hk : k < x.capacity.toNat) : (ofNat 64 k).toNat = k := by
  have hbound := x.capacity.isLt
  rw [toNat_ofNat, Nat.mod_eq_of_lt (by omega)]

/-- Slot `k` after the loop of `initialize`. -/
theorem slot?_linked (hslots : x.capacity.toNat ≤ x.storage.slots.length) {k : ℕ}
    (hk : k < x.capacity.toNat) :
    ∃ slot, ((List.range x.capacity.toNat).foldl (Storage.link x.capacity) x.storage).slot?
      (ofNat 64 k) = some (Storage.linked x.capacity (ofNat 64 k) slot) := by
  refine ⟨x.storage.slots[k], ?_⟩
  rw [Storage.slot?_foldl_link _ _ _ x.capacity.isLt, Storage.slot?, toNat_index hk,
    getElem?_eq_getElem (by omega), map_some, if_pos hk]

/-- Initialisation threads all slots below the capacity in order. -/
theorem threaded_slots (hslots : x.capacity.toNat ≤ x.storage.slots.length)
    (h0 : x.capacity ≠ 0#64) (hl : x.liveLeases = 0#64) :
    Threaded x.threaded 0 ((List.range x.capacity.toNat).map (ofNat 64)) := by
  have hpos : x.capacity.toNat ≠ 0 := fun heq => h0 ((size_eq_zero _).mpr heq)
  rw [threaded, if_neg h0]
  refine ⟨?_, ?_, ?_, (fun i hi => absurd hi (notMem_zero i)), ?_⟩
  · apply follows_range (ofNat 64) hpos
    · intro k hk
      obtain ⟨slot, hslot⟩ := slot?_linked hslots hk
      have hlast : ofNat 64 k + 1 = x.capacity ↔ k + 1 = x.capacity.toNat := by
        have hidx := toNat_index hk
        have hbound := x.capacity.isLt
        rw [← toNat_inj]
        bv_omega
      rw [Storage.next?_eq hslot, Storage.linked, BitVec.ofNat_add]
      simp only [hlast]
      rfl
    · intro k hk
      have hlt : (ofNat 64 k).toNat < x.capacity.toNat := by
        rw [toNat_index hk]
        exact hk
      exact ne_noSlot hlt
  · rw [Multiset.add_zero, Multiset.map_coe, List.map_map]
    apply congrArg ofList
    conv_rhs => rw [← List.map_id (List.range _)]
    apply map_congr_left
    intro k hk
    exact toNat_index (List.mem_range.mp hk)
  · intro i hi
    obtain ⟨k, hk, rfl⟩ := List.mem_map.mp hi
    obtain ⟨slot, hslot⟩ := slot?_linked hslots (List.mem_range.mp hk)
    exact ⟨_, hslot, rfl⟩
  · rw [hl]
    rfl

theorem threaded_empty (h0 : x.capacity = 0#64) (hl : x.liveLeases = 0#64)
    (hhead : x.freeHead = noSlot) : Threaded x.threaded 0 [] := by
  rw [threaded, if_pos h0]
  refine ⟨hhead, ?_, (fun i hi => by cases hi), (fun i hi => absurd hi (notMem_zero i)), ?_⟩
  · rw [h0]
    rfl
  · rw [hl]
    rfl

/-- `initialize` reports a bad layout and changes nothing, or leaves a pool
whose list is threaded. -/
theorem initializePool_cases (b : Build) (h : PoolSound x held) :
    (∃ e, x.initializePool b = (.error e, x)) ∨
      ∃ x' free, x.initializePool b = (.ok (), x') ∧ x'.initialized = true ∧
        x'.capacity = x.capacity ∧ x'.liveLeases = x.liveLeases ∧ Threaded x' held free := by
  by_cases hr : x.initialized = true
  · obtain ⟨free, hfree⟩ := h.threaded hr
    exact .inr ⟨x, free, by simp [initializePool, hr], hr, rfl, rfl, hfree⟩
  rw [Bool.not_eq_true] at hr
  obtain ⟨hheld, hl, hhead⟩ := h.dormant hr
  cases hlay : x.checkLayout b with
  | error e => exact .inl ⟨e, by simp [initializePool, hr, hlay]⟩
  | ok _ =>
    have hrun : x.initializePool b = (.ok (), x.threaded) := by
      simp [initializePool, hr, hlay]
    rw [hheld]
    by_cases h0 : x.capacity = 0#64
    · refine .inr ⟨x.threaded, [], hrun, ?_, ?_, ?_, threaded_empty h0 hl hhead⟩ <;>
        rw [threaded, if_pos h0]
    have hslots := checkLayout_ok hlay h0
    refine .inr ⟨x.threaded, _, hrun, ?_, ?_, ?_, threaded_slots hslots h0 hl⟩ <;>
      rw [threaded, if_neg h0]

theorem Threaded.poolSound (hr : x.initialized = true) (h : Threaded x held free) :
    PoolSound x held := by
  refine ⟨fun hnot => ?_, fun _ => ⟨free, h⟩⟩
  rw [hr] at hnot
  cases hnot

/-- A request is refused because of its worker or the layout, or because every
slot is held, and is granted otherwise. -/
theorem tryAcquire_cases (b : Build) (this : ℕ) (worker : WorkerId) (v : T) (h : PoolSound x held) :
    ((worker ≠ x.worker ∨ (x.initializePool b).1 ≠ .ok ()) ∧
      ∃ e, x.tryAcquire b this worker v = some (.error e, x)) ∨
    (x.liveLeases.toNat = x.capacity.toNat ∧
      ∃ e x', x.tryAcquire b this worker v = some (.error e, x') ∧ PoolSound x' held) ∨
    (x.liveLeases.toNat < x.capacity.toNat ∧
      ∃ i x', x.tryAcquire b this worker v = some (.ok ⟨some this, i, some i, true⟩, x') ∧
        PoolSound x' (i ::ₘ held)) := by
  by_cases hw : worker.value = x.worker.value
  · have howner : x.requireWorker worker = .ok () := by simp [requireWorker, hw]
    rcases initializePool_cases b h with ⟨e, hrun⟩ | ⟨y, free, hrun, hr, hcap, hl, hy⟩
    · refine .inl ⟨.inr (by simp [hrun]), e, by simp [tryAcquire, howner, hrun]⟩
    have hlen := hy.length_add_card
    have hn := hy.count
    rw [hcap] at hlen
    rw [hl] at hn
    rcases takeSlot_cases hy this v with
      ⟨he, e, htake⟩ | ⟨i, rest, y', hfree, htake, hr', _, hy'⟩
    · rw [he, length_nil] at hlen
      exact .inr (.inl ⟨by omega, e, y, by simp [tryAcquire, howner, hrun, htake],
        hy.poolSound hr⟩)
    rw [hfree, length_cons] at hlen
    exact .inr (.inr ⟨by omega, i, y', by simp [tryAcquire, howner, hrun, htake],
      hy'.poolSound (hr'.trans hr)⟩)
  · refine .inl ⟨.inl (fun heq => hw (by rw [heq])), ?_⟩
    simp [tryAcquire, requireWorker, hw]

end Threading

end Laghu.SlabPools
